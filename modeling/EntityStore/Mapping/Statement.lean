import EntityStore.Mapping.Plan

/-!
The statement of a level written as a text, with the values for its marks in a list beside it. Both
grow while the query is walked; the text is put together at the end, in another order than some of
its parts are written.
-/

set_option autoImplicit false

namespace EntityStore

namespace Mapping

open Query (Tree)

/-- A column that rows are sorted by, as a text. -/
structure TermText where
  rank : Int64
  depth : Nat
  column : String
  direction : Option Direction

/-- A statement while it is written: the number of names given to tables, the texts of the columns,
the joins and the sorting, and the values for the marks. -/
structure Sheet where
  names : Nat
  columns : List String
  joins : String
  sorts : List TermText
  parameters : List Cell

abbrev Writing := StateT Sheet (Except ExecutionError)

namespace TermText

def le (a b : TermText) : Bool :=
  a.rank < b.rank || (a.rank == b.rank && a.depth ≤ b.depth)

def text (t : TermText) : String :=
  match t.direction with
  | some .ascending => s!"{t.column} ASC"
  | some .descending => s!"{t.column} DESC"
  | none => t.column

end TermText

namespace Sheet

def blank (names : Nat) : Sheet :=
  ⟨names, [], "", [], []⟩

end Sheet

namespace Writing

def name (kind : String) : Writing String := do
  let n := (← get).names + 1
  modify fun s ↦ { s with names := n }
  pure s!"{kind}{n}"

def column (text : String) : Writing Unit :=
  modify fun s ↦ { s with columns := s.columns ++ [text] }

def join (text : String) : Writing Unit :=
  modify fun s ↦ { s with joins := s.joins ++ text }

def sort (t : TermText) : Writing Unit :=
  modify fun s ↦ { s with sorts := s.sorts ++ [t] }

def parameters (values : List Cell) : Writing Unit :=
  modify fun s ↦ { s with parameters := s.parameters ++ values }

end Writing

/-- A comparison of a column, which is given by its text. -/
def writeComparison (column field : String) (comparator : Language.Comparator)
    (v : Value) : Writing String :=
  match comparator, v with
  | .isIn, .list [] => pure "0 = 1"
  | .isIn, .list items => do
    let marks := ", ".intercalate (items.map fun _ ↦ "?")
    Writing.parameters (items.map Value.cell)
    pure s!"{column} IN ({marks})"
  | .isIn, v => throw (.listExpected field v)
  | .compare .eq, .null => pure s!"{column} IS NULL"
  | .compare .ne, .null => pure s!"{column} IS NOT NULL"
  | .compare op, v => do
    Writing.parameters [v.cell]
    pure s!"{column} {op.text} ?"

def writePredicate (bindings : Query.Bindings) (p : Query.Predicate) (label : String) :
    List Query.Step → Writing String
  | [] => do
    let v ← operandValue bindings p.operand
    writeComparison (ColumnRef.column label p.field).text p.field p.comparator v
  | s :: rest => do
    let next ← Writing.name "f"
    let target := quoteName s.target
    if s.isParent then
      let inner ← writePredicate bindings p next rest
      pure (s!"{(ColumnRef.column label parentName).text} IN (SELECT " ++
        s!"{(ColumnRef.column next idName).text} FROM {target} {next} WHERE {inner})")
    else match s.kind with
      | .owned =>
        let inner ← writePredicate bindings p next rest
        pure (s!"{(ColumnRef.column label idName).text} IN (SELECT " ++
          s!"{(ColumnRef.column next parentName).text} FROM {target} {next} WHERE {inner})")
      | .linked =>
        let link ← Writing.name "a"
        let inner ← writePredicate bindings p next rest
        pure (s!"{(ColumnRef.column label idName).text} IN (SELECT " ++
          s!"{(ColumnRef.column link ownerColumn).text}" ++
          s!" FROM {quoteName (linkTableName s.source s.relation)} {link} JOIN {target} {next}" ++
          s!" ON {(ColumnRef.column next idName).text} = " ++
          s!"{(ColumnRef.column link targetColumn).text} WHERE {inner})")

def writeFilter (bindings : Query.Bindings) (label : String) : Query.Filter → Writing String
  | .and l r => do
    let l ← writeFilter bindings label l
    let r ← writeFilter bindings label r
    pure s!"({l} AND {r})"
  | .or l r => do
    let l ← writeFilter bindings label l
    let r ← writeFilter bindings label r
    pure s!"({l} OR {r})"
  | .predicate p => writePredicate bindings p label p.steps

/-- A field of a level is sorted by if the query says so; the row number is a column already. -/
def writeField (depth : Nat) (label : String) (f : Query.SelectedField) : Writing Unit := do
  let text := (ColumnRef.column label f.name).text
  match f.sort with
  | some (direction, rank) => Writing.sort ⟨rank, depth, text, some direction⟩
  | none => pure ()
  if f.name == idName then pure () else Writing.column text

/-- The rule of the join with a single relation, behind that with the table of its links. -/
def writeRule (entity label child : String) (r : Query.Relation) : Writing String := do
  if r.isParent then
    pure s!"{(ColumnRef.column child idName).text} = {(ColumnRef.column label parentName).text}"
  else match r.kind with
    | .owned =>
      pure s!"{(ColumnRef.column child parentName).text} = {(ColumnRef.column label idName).text}"
    | .linked =>
      let link ← Writing.name "l"
      Writing.join (s!" LEFT JOIN {quoteName (linkTableName entity r.name)} {link}" ++
        s!" ON {(ColumnRef.column link ownerColumn).text} = {(ColumnRef.column label idName).text}")
      pure s!"{(ColumnRef.column child idName).text} = {(ColumnRef.column link targetColumn).text}"

/-- The filter of a single relation goes on from the rule of its join. -/
def writeJoinFilter (bindings : Query.Bindings) (label : String) :
    Option Query.Filter → Writing String
  | some f => do
    let condition ← writeFilter bindings label f
    pure s!" AND {condition}"
  | none => pure ""

mutual

def writePlan (bindings : Query.Bindings) (depth : Nat) (label : String) : Tree → Writing Unit
  | .node level relations => do
    Writing.column (ColumnRef.column label idName).text
    level.fields.forM (writeField depth label)
    writeRelations bindings depth label level.entity relations

def writeRelations (bindings : Query.Bindings) (depth : Nat) (label entity : String) :
    List (Query.Relation × Tree) → Writing Unit
  | [] => pure ()
  | (r, t) :: rest => do
    if r.many then writeRelations bindings depth label entity rest
    else
      let child ← Writing.name "t"
      let rule ← writeRule entity label child r
      let filter ← writeJoinFilter bindings child t.level.filter
      Writing.join (s!" LEFT JOIN {quoteName t.level.entity} {child} ON {rule}" ++ filter)
      writePlan bindings (depth + 1) child t
      writeRelations bindings depth label entity rest

end

/-- The part of a statement that a scope decides. -/
structure ScopeText where
  /-- The join with the table of the links. -/
  join : String
  /-- The column that shows the owner. -/
  owner : String
  /-- The sorting by links. -/
  order : List String

def scopeText (main : String) (s : Scope) : Writing ScopeText :=
  match s.relation.kind with
  | .owned => pure ⟨"", (ColumnRef.column main parentName).text, []⟩
  | .linked => do
    let link ← Writing.name "s"
    pure ⟨s!" JOIN {quoteName (linkTableName s.source s.relation.name)} {link}" ++
      s!" ON {(ColumnRef.column link targetColumn).text} = {(ColumnRef.column main idName).text}",
      (ColumnRef.column link ownerColumn).text, [s!"{link}.rowid"]⟩

/-- How a scope restricts a level, with one mark for the owners however many they are. -/
def writeScope (main : String) (s : Scope) : Writing ScopeText := do
  let text ← scopeText main s
  Writing.parameters [.text (Condition.idsText s.owners)]
  Writing.column text.owner
  pure text

def writeLevelFilter (bindings : Query.Bindings) (label : String) :
    Option Query.Filter → Writing (List String)
  | some f => do
    let condition ← writeFilter bindings label f
    pure [condition]
  | none => pure []

/-- Puts the text of a statement together. The columns stand first in it, though that of the scope
is the last to be written; the joins stand in front of the condition of the scope, and that in front
of the filter. -/
def levelText (entity main : String) (restricted : Option ScopeText) (filter : List String)
    (sheet : Sheet) : String :=
  let among := restricted.toList.map fun r ↦ s!"{r.owner} IN (SELECT value FROM json_each(?))"
  let conditions := among ++ filter
  let order := (sheet.sorts.mergeSort TermText.le).map TermText.text ++
    (restricted.map ScopeText.order).getD [] ++ [(ColumnRef.column main idName).text]
  "SELECT " ++ ", ".intercalate sheet.columns ++ s!" FROM {quoteName entity} {main}" ++
    ((restricted.map ScopeText.join).getD "" ++ sheet.joins) ++
    (if conditions.isEmpty then "" else " WHERE " ++ " AND ".intercalate conditions) ++
    " ORDER BY " ++ ", ".intercalate order

/-- Within a scope the page is cut afterwards. -/
def writePage (text : String) (page : Option PageBounds) (scope : Option Scope) : Writing String :=
  match page, scope with
  | some b, none => do
    Writing.parameters [.integer b.limit]
    Writing.parameters [.integer b.offset]
    pure (text ++ " LIMIT ? OFFSET ?")
  | _, _ => pure text

/-- Writes the statement of a level. -/
def writeLevel (bindings : Query.Bindings) (t : Tree) (scope : Option Scope) : Writing String := do
  let main ← Writing.name "t"
  writePlan bindings 0 main t
  let restricted ← scope.mapM (writeScope main)
  let filter ← writeLevelFilter bindings main t.level.filter
  let sheet ← get
  let page ← pageBounds bindings t.level
  writePage (levelText t.level.entity main restricted filter sheet) page scope

end Mapping

end EntityStore
