import EntityStore.Comparison
import EntityStore.Store.Basic

/-!
Select statements over the row store: their text, the parameters its marks stand for, and the rows
they answer. A condition is true, false or unknown; only rows that make it true are kept.
-/

set_option autoImplicit false

namespace EntityStore

/-- A table under the name a statement gives it. -/
structure Source where
  table : String
  label : String
deriving DecidableEq

/-- The function that lists the members of an array, unless a table has its name. -/
def listingName : String := "json_each"

/-- What a select reads from: a table, or the members of an array. -/
inductive Origin where
  | table (name : String)
  | members
deriving DecidableEq

inductive ColumnRef where
  | column (label name : String)
  | rowNumber (label : String)
deriving DecidableEq

/-- `JOIN source ON left = right`. -/
structure Join where
  source : Source
  left : ColumnRef
  right : ColumnRef
deriving DecidableEq

inductive Condition where
  | both (l r : Condition)
  | either (l r : Condition)
  | compare (column : ColumnRef) (op : Comparison) (value : Cell)
  | isNull (column : ColumnRef)
  | notNull (column : ColumnRef)
  | among (column : ColumnRef) (values : List Cell)
  | amongIds (column : ColumnRef) (ids : List Int64)
  /-- The column is among those that a nested select picks. -/
  | within (column picked : ColumnRef) (source : Source) (join : Option Join) (inner : Condition)
deriving DecidableEq

/-- `LEFT JOIN source ON left = right AND condition`. -/
structure LeftJoin where
  join : Join
  condition : Option Condition
deriving DecidableEq

/-- One term of the order of rows; without a direction it ascends. -/
structure OrderTerm where
  column : ColumnRef
  direction : Option Direction
deriving DecidableEq

structure Select where
  columns : List ColumnRef
  source : Source
  scope : Option Join
  joins : List LeftJoin
  conditions : List Condition
  order : List OrderTerm
  /-- The greatest number of rows and the number of rows left out in front. -/
  page : Option (Int64 × Int64)
deriving DecidableEq

namespace ColumnRef

def text : ColumnRef → String
  | .column label name => s!"{label}.{quoteName name}"
  | .rowNumber label => s!"{label}.rowid"

/-- The name as an error tells it. -/
def plainText : ColumnRef → String
  | .column label name => s!"{label}.{name}"
  | .rowNumber label => s!"{label}.rowid"

def label : ColumnRef → String
  | .column label _ => label
  | .rowNumber label => label

end ColumnRef

/-- A piece of a statement's text: plain text, a column, which may stand in the rule of a join, or
the mark of a parameter. -/
inductive Piece where
  | text (s : String)
  | column (c : ColumnRef) (joined : Bool)
  | mark (value : Cell)
deriving DecidableEq

namespace Piece

def chars : Piece → String
  | .text s => s
  | .column c _ => c.text
  | .mark _ => "?"

def value? : Piece → Option Cell
  | .mark v => some v
  | _ => none

/-- Joins groups of pieces with a text between them. -/
def separated (separator : String) (groups : List (List Piece)) : List Piece :=
  [Piece.text separator].intercalate groups

end Piece

namespace Source

def text (s : Source) : String :=
  s!"{quoteName s.table} {s.label}"

end Source

namespace Join

/-- The rule of a join. -/
def rule (j : Join) : List Piece :=
  [.column j.left true, .text " = ", .column j.right true]

def pieces (j : Join) : List Piece :=
  .text s!" JOIN {j.source.text} ON " :: j.rule

end Join

namespace Condition

/-- The text of the parameter that holds a list of row numbers. -/
def idsText (ids : List Int64) : String :=
  String.ofList ('[' :: [','].intercalate (ids.map fun n ↦ intDigits n.toInt) ++ [']'])

/-- The pieces of a condition; `joined` tells that it stands in the rule of a join. -/
def pieces (joined : Bool) : Condition → List Piece
  | .both l r => .text "(" :: l.pieces joined ++ .text " AND " :: r.pieces joined ++ [.text ")"]
  | .either l r => .text "(" :: l.pieces joined ++ .text " OR " :: r.pieces joined ++ [.text ")"]
  | .compare c op v => [.column c joined, .text s!" {op.text} ", .mark v]
  | .isNull c => [.column c joined, .text " IS NULL"]
  | .notNull c => [.column c joined, .text " IS NOT NULL"]
  | .among _ [] => [.text "0 = 1"]
  | .among c vs =>
    .column c joined :: .text " IN (" :: Piece.separated ", " (vs.map fun v ↦ [.mark v]) ++
      [.text ")"]
  | .amongIds c ids =>
    [.column c joined, .text " IN (SELECT value FROM json_each(",
      .mark (.text (idsText ids)), .text "))"]
  | .within c picked source join inner =>
    .column c joined :: .text " IN (SELECT " :: .column picked false ::
      .text s!" FROM {source.text}" :: (join.map Join.pieces).getD [] ++
      .text " WHERE " :: inner.pieces false ++ [.text ")"]

/-- The tables of nested selects. -/
def sources : Condition → List Source
  | .both l r | .either l r => l.sources ++ r.sources
  | .within _ _ source join inner => source :: (join.map Join.source).toList ++ inner.sources
  | _ => []

/-- What nested selects read from, in the order in which it is looked up. -/
def origins : Condition → List Origin
  | .both l r | .either l r => l.origins ++ r.origins
  | .amongIds _ _ => [.members]
  | .within _ _ source join inner =>
    .table source.table :: (join.map fun j ↦ .table j.source.table).toList ++ inner.origins
  | _ => []

/-- The columns in the order in which they are looked up, a nested select before the column it is
compared with. -/
def columns (joined : Bool) : Condition → List (ColumnRef × Bool)
  | .both l r | .either l r => l.columns joined ++ r.columns joined
  | .compare c _ _ | .isNull c | .notNull c | .amongIds c _ => [(c, joined)]
  | .among c vs => if vs.isEmpty then [] else [(c, joined)]
  | .within c picked _ join inner =>
    (picked, false) :: inner.columns false ++
      (join.map fun j ↦ [(j.left, true), (j.right, true)]).getD [] ++ [(c, joined)]

end Condition

namespace LeftJoin

def pieces (j : LeftJoin) : List Piece :=
  .text s!" LEFT JOIN {j.join.source.text} ON " :: j.join.rule ++
    (j.condition.map fun c ↦ .text " AND " :: c.pieces true).getD []

end LeftJoin

namespace OrderTerm

def pieces (t : OrderTerm) : List Piece :=
  .column t.column false :: match t.direction with
    | some .ascending => [.text " ASC"]
    | some .descending => [.text " DESC"]
    | none => []

end OrderTerm

namespace Select

def wherePieces (s : Select) : List Piece :=
  if s.conditions.isEmpty then []
  else .text " WHERE " :: Piece.separated " AND " (s.conditions.map (Condition.pieces false))

def pagePieces (s : Select) : List Piece :=
  match s.page with
  | some (limit, offset) =>
    [.text " LIMIT ", .mark (.integer limit), .text " OFFSET ", .mark (.integer offset)]
  | none => []

def pieces (s : Select) : List Piece :=
  .text "SELECT " :: Piece.separated ", " (s.columns.map fun c ↦ [.column c false]) ++
    .text s!" FROM {s.source.text}" :: (s.scope.map Join.pieces).getD [] ++
    s.joins.flatMap LeftJoin.pieces ++ s.wherePieces ++
    .text " ORDER BY " :: Piece.separated ", " (s.order.map OrderTerm.pieces) ++ s.pagePieces

def text (s : Select) : String :=
  String.join (s.pieces.map Piece.chars)

/-- The values of the marks in the text, in their order. -/
def parameters (s : Select) : List Cell :=
  s.pieces.filterMap Piece.value?

/-- All tables. -/
def sources (s : Select) : List Source :=
  s.source :: (s.scope.map Join.source).toList ++ s.joins.map (fun j ↦ j.join.source) ++
    s.conditions.flatMap Condition.sources ++
    s.joins.flatMap fun j ↦ (j.condition.map Condition.sources).getD []

/-- All that is read from, in the order in which it is looked up: what stands in nested selects
comes after all tables of the statement itself. -/
def origins (s : Select) : List Origin :=
  .table s.source.table :: (s.scope.map fun j ↦ .table j.source.table).toList ++
    s.joins.map (fun j ↦ .table j.join.source.table) ++ s.conditions.flatMap Condition.origins ++
    s.joins.flatMap fun j ↦ (j.condition.map Condition.origins).getD []

/-- All columns, in the order in which they are looked up. -/
def columnRefs (s : Select) : List (ColumnRef × Bool) :=
  s.columns.map (·, false) ++ s.conditions.flatMap (Condition.columns false) ++
    (s.scope.map fun j ↦ [(j.left, true), (j.right, true)]).getD [] ++
    (s.joins.flatMap fun j ↦ (j.join.left, true) :: (j.join.right, true) ::
      (j.condition.map (Condition.columns true)).getD []) ++
    s.order.map fun t ↦ (t.column, false)

/-- Where a column stands in the text for the first time, counted in bytes. -/
def offsetOf (c : ColumnRef) : List Piece → Nat
  | [] => 0
  | p :: ps => if p = .column c false then 0 else p.chars.utf8ByteSize + offsetOf c ps

end Select

/-- The rows that a combination of sources stands at; an absent row of a left join has only
nulls. -/
structure Place where
  label : String
  table : Table
  row : Option StoredRow

abbrev Env := List Place

namespace Env

def place? (env : Env) (label : String) : Option Place :=
  env.find? fun p ↦ p.label == label

def cell (env : Env) (c : ColumnRef) : Cell :=
  match env.place? c.label with
  | some ⟨_, table, some row⟩ => match c with
    | .column _ name => table.cellOf row name
    | .rowNumber _ => .integer row.id
  | _ => .null

def affinity (env : Env) (c : ColumnRef) : Affinity :=
  match env.place? c.label, c with
  | some p, .column _ name => p.table.affinityOf name
  | _, _ => .integer

end Env

/-- A condition whose nested selects have been run: they do not depend on the row. -/
inductive Test where
  | both (l r : Test)
  | either (l r : Test)
  | compare (column : ColumnRef) (op : Comparison) (value : Cell)
  | isNull (column : ColumnRef)
  | notNull (column : ColumnRef)
  | among (column : ColumnRef) (values : List Cell)

namespace Test

/-- Conjunction with unknown: false wins. -/
def andUnknown : Option Bool → Option Bool → Option Bool
  | some false, _ => some false
  | _, some false => some false
  | some true, some true => some true
  | _, _ => none

/-- Disjunction with unknown: true wins. -/
def orUnknown : Option Bool → Option Bool → Option Bool
  | some true, _ => some true
  | _, some true => some true
  | some false, some false => some false
  | _, _ => none

/-- Membership with unknown: a null on either side leaves it open unless the list is empty or an
equal member is found. -/
def isAmong (cell : Cell) (values : List Cell) : Option Bool :=
  if values.isEmpty then some false
  else if values.any fun v ↦ cell.compare? v == some .eq then some true
  else if cell == .null || values.contains .null then none
  else some false

def eval (env : Env) : Test → Option Bool
  | .both l r => andUnknown (l.eval env) (r.eval env)
  | .either l r => orUnknown (l.eval env) (r.eval env)
  | .compare c op v => ((env.cell c).compare? (v.compared (env.affinity c))).map op.holds
  | .isNull c => some (env.cell c == .null)
  | .notNull c => some (env.cell c != .null)
  | .among c vs => isAmong (env.cell c) (vs.map (Cell.compared (env.affinity c)))

def holds (env : Env) (t : Test) : Bool :=
  t.eval env == some true

end Test

namespace Store

/-- Fails if there is nothing to read from. A table that has the name of the listing function hides
it. -/
def resolve (s : Store) : Origin → Except StoreError Unit
  | .table name => if (s.table? name).isSome then .ok () else .error (.noTable name)
  | .members => if (s.table? listingName).isSome then .error (.notFunction listingName) else .ok ()

/-- The rows of a source, each as the only place of a combination. A table that is not there has
none. -/
def places (s : Store) (source : Source) : List Place :=
  match s.table? source.table with
  | some t => t.rows.map fun r ↦ ⟨source.label, t, some r⟩
  | none => []

/-- Adds the rows of a join to a combination. -/
def joined (s : Store) (j : Join) (env : Env) : List Env :=
  (s.places j.source).filterMap fun p ↦
    let env : Env := p :: env
    if (env.cell j.left).compare? (env.cell j.right) == some .eq then some env else none

end Store

namespace Condition

/-- Runs the nested selects of a condition. -/
def test (s : Store) : Condition → Test
  | .both l r => .both (l.test s) (r.test s)
  | .either l r => .either (l.test s) (r.test s)
  | .compare c op v => .compare c op v
  | .isNull c => .isNull c
  | .notNull c => .notNull c
  | .among c vs => .among c vs
  | .amongIds c ids => .among c (ids.map Cell.integer)
  | .within c picked source join inner =>
    let inner := inner.test s
    let envs : List Env := (s.places source).flatMap fun p ↦ match join with
      | some j => s.joined j [p]
      | none => [[p]]
    .among c ((envs.filter fun env ↦ inner.holds env).map fun env ↦ Env.cell env picked)

end Condition

namespace Store

/-- The rows a left join considers, those of a table with a key in the order of the key. -/
def candidates (s : Store) (source : Source) : List Place :=
  match s.table? source.table with
  | some t =>
    let rows := if t.rowColumn.isSome then t.rows
      else
        let keys := t.columnNames
        t.rows.mergeSort fun a b ↦
          ((keys.map fun k ↦ (t.cellOf a k).order (t.cellOf b k)).find? (· ≠ .eq)).getD .eq != .gt
    rows.map fun r ↦ ⟨source.label, t, some r⟩
  | none => []

/-- Adds a left join to a combination: every row that fits, or an absent row if none does. -/
def leftJoined (s : Store) (j : LeftJoin) (test : Option Test) (env : Env) : List Env :=
  let fits := (s.candidates j.join.source).filterMap fun p ↦
    let env : Env := p :: env
    if (env.cell j.join.left).compare? (env.cell j.join.right) == some .eq &&
      test.all (Test.holds env)
    then some env else none
  if fits.isEmpty then
    match s.table? j.join.source.table with
    | some t => [⟨j.join.source.label, t, none⟩ :: env]
    | none => []
  else fits

end Store

namespace Select

def finds (s : Select) (store : Store) : ColumnRef → Bool
  | .rowNumber _ => true
  | .column label name =>
    match s.sources.find? fun source ↦ source.label == label with
    | some source => (store.table? source.table).any fun t ↦ t.hasColumn name
    | none => false

/-- Looks up all that is read from, then all columns. -/
def check (s : Select) (store : Store) : Except StoreError Unit := do
  s.origins.forM store.resolve
  s.columnRefs.forM fun (c, joined) ↦
    if s.finds store c then pure ()
    else if joined then throw (StoreError.noColumn c.plainText)
    else throw (StoreError.noColumn s!"{c.plainText} in {s.text} at offset {offsetOf c s.pieces}")

/-- The combinations of rows that make all conditions true, in the order of the tables. -/
def envs (s : Select) (store : Store) : List Env :=
  let start := (store.places s.source).map fun p ↦ [p]
  let chained := match s.scope with
    | some j => start.flatMap (store.joined j)
    | none => start
  let joined := s.joins.foldl
    (fun envs j ↦
      let test := j.condition.map (Condition.test store)
      envs.flatMap (store.leftJoined j test)) chained
  let tests := s.conditions.map (Condition.test store)
  joined.filter fun env ↦ tests.all (Test.holds env)

def compareTerm (t : OrderTerm) (a b : Cell) : Ordering :=
  match t.direction with
  | some .descending => b.order a
  | _ => a.order b

/-- Compares two combinations by the terms of the order, the first that tells them apart
deciding. -/
def compareKeys : List OrderTerm → List Cell → List Cell → Ordering
  | t :: ts, a :: as, b :: bs => (compareTerm t a b).then (compareKeys ts as bs)
  | _, _, _ => .eq

def sorted (s : Select) (envs : List Env) : List Env :=
  let keyed := envs.map fun env ↦ (s.order.map (fun t ↦ Env.cell env t.column), env)
  (keyed.mergeSort fun a b ↦ compareKeys s.order a.1 b.1 != .gt).map Prod.snd

/-- Leaves out the rows before an offset and after a limit; a limit below zero is none. -/
def paged {α : Type} (page : Option (Int64 × Int64)) (rows : List α) : List α :=
  match page with
  | some (limit, offset) =>
    let rest := rows.drop offset.toInt.toNat
    if limit < 0 then rest else rest.take limit.toInt.toNat
  | none => rows

/-- The cells of the columns for every row. -/
def run (s : Select) (store : Store) : Except StoreError (List (List Cell)) := do
  s.check store
  pure ((paged s.page (s.sorted (s.envs store))).map fun env ↦ s.columns.map (Env.cell env))

end Select

end EntityStore
