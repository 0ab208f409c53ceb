import EntityStore.Store.Table

/-!
The row store: its tables, and what a statement that defines or changes them does. A statement
either does all of its work or fails and leaves the store as it was.
-/

set_option autoImplicit false

namespace EntityStore

/-- A name between double quotes, each quote inside it written twice. -/
def quoteName (name : String) : String :=
  String.ofList ('"' :: (name.toList.flatMap fun c ↦ if c = '"' then ['"', '"'] else [c]) ++ ['"'])

namespace Store

/-- The column that shows the row number. -/
def rowName : String := "@id"

end Store

structure ColumnSpec where
  name : String
  affinity : Affinity
  required : Bool
  unique : Bool
  references : Option String
deriving DecidableEq

/-- A table to be created. A counted table shows its row numbers in the column `@id` and never gives
one twice; `key` and `unique` are constraints over several columns. -/
structure TableSpec where
  name : String
  counted : Bool
  columns : List ColumnSpec
  key : List String
  unique : List (List String)
deriving DecidableEq

/-- A statement that defines a table or a column. -/
inductive Definition where
  | createTable (spec : TableSpec)
  | addColumn (table : String) (spec : ColumnSpec)
deriving DecidableEq

/-- A statement that changes rows. -/
inductive Statement where
  | insert (table : String) (values : List (String × Cell))
  | update (table : String) (sets : List (String × Cell)) (id : Int64)
  | delete (table : String) (keys : List (String × Int64))
deriving DecidableEq

namespace ColumnSpec

def text (c : ColumnSpec) : String :=
  let reference := match c.references with
    | some target => s!" references {quoteName target}({quoteName Store.rowName})"
    | none => ""
  s!"{quoteName c.name} {c.affinity.name}" ++ (if c.required then " not null" else "") ++
    (if c.unique then " unique" else "") ++ reference

def column (c : ColumnSpec) : Column :=
  ⟨c.name, c.affinity, c.required⟩

def foreignKeys (c : ColumnSpec) : List ForeignKey :=
  (c.references.map fun target ↦ ⟨c.name, target⟩).toList

end ColumnSpec

namespace TableSpec

def quotedList (names : List String) : String :=
  ", ".intercalate (names.map quoteName)

def lines (t : TableSpec) : List String :=
  let counter :=
    if t.counted then [s!"{quoteName Store.rowName} integer primary key autoincrement"] else []
  let key := if t.key.isEmpty then [] else [s!"primary key ({quotedList t.key})"]
  counter ++ t.columns.map ColumnSpec.text ++ key ++
    t.unique.map fun names ↦ s!"unique ({quotedList names})"

def text (t : TableSpec) : String :=
  s!"create table if not exists {quoteName t.name} (\n    " ++
    ",\n    ".intercalate t.lines ++ "\n);"

/-- All constraints in the order they are written. -/
def constraints (t : TableSpec) : List (List String) :=
  (t.columns.filter ColumnSpec.unique).map (fun c ↦ [c.name]) ++
    (if t.key.isEmpty then [] else [t.key]) ++ t.unique

/-- The empty table; of its constraints the one written last is checked first. -/
def table (t : TableSpec) : Table where
  name := t.name
  rowColumn := if t.counted then some Store.rowName else none
  columns := t.columns.map ColumnSpec.column
  unique := t.constraints.reverse
  foreign := t.columns.flatMap ColumnSpec.foreignKeys
  rows := []
  last := 0

/-- The first column whose name an earlier one has. -/
def duplicate? (t : TableSpec) : Option String :=
  let names := (if t.counted then [Store.rowName] else []) ++ t.columns.map ColumnSpec.name
  (names.zipIdx.find? fun (name, i) ↦ (names.take i).any (sameName · name)).map Prod.fst

end TableSpec

namespace Definition

def text : Definition → String
  | .createTable t => t.text
  | .addColumn table c => s!"alter table {quoteName table} add column {c.text}"

end Definition

namespace Statement

/-- A list of names with numbered places for their values. -/
def places (count : Nat) : String :=
  ", ".intercalate ((List.range count).map fun i ↦ s!"?{i + 1}")

def assignments (separator : String) (names : List String) : String :=
  separator.intercalate (names.zipIdx.map fun (name, i) ↦ s!"{quoteName name} = ?{i + 1}")

def text : Statement → String
  | .insert table values =>
    if values.isEmpty then s!"insert into {quoteName table} default values"
    else
      let names := values.map Prod.fst
      s!"insert into {quoteName table} ({TableSpec.quotedList names})" ++
        s!" values ({places names.length})"
  | .update table sets _ =>
    let row := quoteName Store.rowName
    let assigned := if sets.isEmpty then s!"{row} = {row}" else assignments ", " (sets.map Prod.fst)
    s!"update {quoteName table} set {assigned} where {row} = ?{sets.length + 1}"
  | .delete table keys =>
    s!"delete from {quoteName table} where " ++ assignments " and " (keys.map Prod.fst)

def parameters : Statement → List Cell
  | .insert _ values => values.map Prod.snd
  | .update _ sets id => sets.map Prod.snd ++ [.integer id]
  | .delete _ keys => keys.map fun (_, n) ↦ .integer n

def table : Statement → String
  | .insert table _ => table
  | .update table _ _ => table
  | .delete table _ => table

end Statement

structure Store where
  /-- Whether foreign keys are checked. -/
  enforced : Bool
  tables : List Table
deriving DecidableEq

/-- What a statement did: the rows it affected and the number of the row it added. -/
structure Effect where
  store : Store
  affected : Nat
  row : Int64

namespace Store

def empty (enforced : Bool) : Store := ⟨enforced, []⟩

def table? (s : Store) (name : String) : Option Table :=
  s.tables.find? fun t ↦ sameName t.name name

def setTable (s : Store) (t : Table) : Store :=
  { s with tables := s.tables.map fun u ↦ if u.name = t.name then t else u }

/-- The names of the tables in order. -/
def tableNames (s : Store) : List String :=
  (s.tables.map Table.name).mergeSort

def isReserved (name : String) : Bool :=
  sameName (String.ofList (name.toList.take 7)) "sqlite_"

/-- Creates a table unless there is one of its name, or adds a column. -/
def define (s : Store) : Definition → Except StoreError Store
  | .createTable spec =>
    if isReserved spec.name then .error (.reservedName spec.name)
    else if (s.table? spec.name).isSome then .ok s
    else match spec.duplicate? with
      | some name => .error (.duplicateColumn name)
      | none => .ok { s with tables := s.tables ++ [spec.table] }
  | .addColumn name spec =>
    match s.table? name with
    | none => .error (.noTable name)
    | some t => (t.addColumn spec.column spec.foreignKeys).map s.setTable

/-- Whether the row a foreign key of a row names exists. -/
def checkForeignKey (s : Store) (t : Table) (r : StoredRow) (key : ForeignKey) :
    Except StoreError Unit :=
  match s.table? key.target with
  | none => .error (.noTable s!"main.{key.target}")
  | some target =>
    if target.rowColumn.isNone then .error (.foreignKeyMismatch t.name key.target)
    else match t.cellOf r key.column with
      | .null => .ok ()
      | .integer n => if (target.row? n).isSome then .ok () else .error .foreignKey
      | _ => .error .foreignKey

def checkForeignKeys (s : Store) (t : Table) (r : StoredRow) : Except StoreError Unit :=
  if s.enforced then t.foreign.forM (s.checkForeignKey t r) else .ok ()

/-- Whether a row of any table names a row of the given table by a number. -/
def isReferenced (s : Store) (t : Table) (id : Int64) : Bool :=
  s.tables.any fun u ↦ u.foreign.any fun key ↦
    sameName key.target t.name && u.rows.any fun r ↦ u.cellOf r key.column == .integer id

def checkUnreferenced (s : Store) (t : Table) (ids : List Int64) : Except StoreError Unit :=
  if s.enforced && t.rowColumn.isSome && ids.any (s.isReferenced t) then
    .error .foreignKey else .ok ()

/-- Runs a statement; foreign keys are checked against the store it leaves. -/
def run (s : Store) (statement : Statement) : Except StoreError Effect :=
  match s.table? statement.table with
  | none => .error (.noTable statement.table)
  | some t =>
    match statement with
    | .insert named values => do
      let (t', id) ← t.insert named values
      let after := s.setTable t'
      if let some r := t'.row? id then after.checkForeignKeys t' r
      pure ⟨after, 1, id⟩
    | .update _ sets id => do
      let (t', count) ← t.update sets id
      let after := s.setTable t'
      let changed := t'.rows.filter fun r ↦ !t.rows.contains r
      changed.forM (after.checkForeignKeys t')
      let gone := (t.rows.map StoredRow.id).filter fun i ↦ (t'.row? i).isNone
      after.checkUnreferenced t' gone
      pure ⟨after, count, 0⟩
    | .delete _ keys => do
      let (t', removed) := t.delete keys
      let after := s.setTable t'
      after.checkUnreferenced t' (removed.map StoredRow.id)
      pure ⟨after, removed.length, 0⟩

/-- The text of a select of one column of the row with a number. -/
def lookupText (table column : String) : String :=
  s!"select {quoteName column} from {quoteName table} where {quoteName rowName} = ?1"

/-- An integer column of the row with a number, if there is such a row. A name that no column has
stands for itself, a text. -/
def lookup (s : Store) (table column : String) (id : Int64) : Except StoreError (Option Int64) :=
  match s.table? table with
  | none => .error (.noTable table)
  | some t =>
    match if t.rowColumn.isSome then t.row? id else none with
    | none => .ok none
    | some r =>
      if !t.hasColumn column then .error (.notInteger "Text" (quoteName column))
      else match t.cellOf r column with
        | .integer n => .ok (some n)
        | c => .error (.notInteger c.typeName column)

end Store

end EntityStore
