import EntityStore.Store.Cell

/-!
A table of the row store: its columns, its constraints and its rows in the order of their numbers.
Names of tables and columns are the same when they differ only in the case of ASCII letters.
-/

set_option autoImplicit false

namespace EntityStore

inductive StoreError where
  | noTable (name : String)
  /-- A table stands where a function is called. -/
  | notFunction (name : String)
  | noColumn (text : String)
  | notInTable (table column : String)
  | duplicateColumn (name : String)
  | reservedName (name : String)
  | notNull (table column : String)
  | unique (table : String) (columns : List String)
  | foreignKey
  | foreignKeyMismatch (table target : String)
  | mismatch
  | full
  | notInteger (type column : String)
deriving DecidableEq

namespace StoreError

def message : StoreError → String
  | .noTable name => s!"no such table: {name}"
  | .notFunction name => s!"'{name}' is not a function"
  | .noColumn text => s!"no such column: {text}"
  | .notInTable table column => s!"table {table} has no column named {column}"
  | .duplicateColumn name => s!"duplicate column name: {name}"
  | .reservedName name => s!"object name reserved for internal use: {name}"
  | .notNull table column => s!"NOT NULL constraint failed: {table}.{column}"
  | .unique table columns =>
    "UNIQUE constraint failed: " ++ ", ".intercalate (columns.map fun c ↦ s!"{table}.{c}")
  | .foreignKey => "FOREIGN KEY constraint failed"
  | .foreignKeyMismatch table target =>
    s!"foreign key mismatch - \"{table}\" referencing \"{target}\""
  | .mismatch => "datatype mismatch"
  | .full => "database or disk is full"
  | .notInteger type column => s!"Invalid column type {type} at index: 0, name: {column}"

end StoreError

def sameName (a b : String) : Bool :=
  a == b || a.toList.map Char.toLower == b.toList.map Char.toLower

structure Column where
  name : String
  affinity : Affinity
  required : Bool
deriving DecidableEq

/-- A column whose integers name rows of another table. -/
structure ForeignKey where
  column : String
  target : String
deriving DecidableEq

structure StoredRow where
  id : Int64
  cells : List (String × Cell)
deriving DecidableEq

structure Table where
  name : String
  /-- The column that shows the row number. With it the numbers are never given twice. -/
  rowColumn : Option String
  columns : List Column
  /-- In the order they are checked. -/
  unique : List (List String)
  foreign : List ForeignKey
  rows : List StoredRow
  /-- The greatest row number ever given, where numbers are not given twice. -/
  last : Int64
deriving DecidableEq

namespace StoredRow

/-- A column that the row says nothing about is null. -/
def cell (r : StoredRow) (column : String) : Cell :=
  ((r.cells.find? fun (c, _) ↦ c == column).map Prod.snd).getD .null

end StoredRow

namespace Table

def column? (t : Table) (name : String) : Option Column :=
  t.columns.find? fun c ↦ sameName c.name name

def isRowColumn (t : Table) (name : String) : Bool :=
  t.rowColumn.any (sameName · name)

def hasColumn (t : Table) (name : String) : Bool :=
  t.isRowColumn name || (t.column? name).isSome

/-- The names of all columns, the one of the row number first. -/
def columnNames (t : Table) : List String :=
  t.rowColumn.toList ++ t.columns.map Column.name

/-- A column of a row, whatever the case its name is written in. -/
def cellOf (t : Table) (r : StoredRow) (name : String) : Cell :=
  if t.isRowColumn name then .integer r.id
  else match t.column? name with
    | some c => r.cell c.name
    | none => .null

def affinityOf (t : Table) (name : String) : Affinity :=
  match t.column? name with
  | some c => c.affinity
  | none => .integer

def row? (t : Table) (id : Int64) : Option StoredRow :=
  t.rows.find? fun r ↦ r.id == id

def lastId (t : Table) : Option Int64 :=
  t.rows.getLast?.map StoredRow.id

/-- The number of the next row: one more than the greatest of the rows and, where numbers are not
given twice, of all numbers given before. -/
def nextId (t : Table) : Except StoreError Int64 :=
  let top := t.lastId.getD 0
  let top := if t.rowColumn.isSome && top < t.last then t.last else top
  if top = Int64.maxValue then .error .full else .ok (max 1 (top + 1))

/-- Finds the cell meant for a column; of several the first counts. -/
def given (values : List (String × Cell)) (name : String) : Option Cell :=
  (values.find? fun (c, _) ↦ sameName c name).map Prod.snd

/-- The row number that a statement sets. -/
def givenId : Cell → Except StoreError (Option Int64)
  | .null => .ok none
  | c => match Cell.stored .integer c with
    | .integer n => .ok (some n)
    | _ => .error .mismatch

def checkRequired (t : Table) (r : StoredRow) : Except StoreError Unit :=
  match t.columns.find? fun c ↦ c.required && r.cell c.name == .null with
  | some c => .error (.notNull t.name c.name)
  | none => .ok ()

/-- Two rows clash on a constraint if no cell of it is null and all are equal. -/
def clash (t : Table) (columns : List String) (r s : StoredRow) : Bool :=
  columns.all fun c ↦ (t.cellOf r c).compare? (t.cellOf s c) == some .eq

/-- Checks the row number first, then the constraints, against the other rows. -/
def checkUnique (t : Table) (others : List StoredRow) (r : StoredRow) : Except StoreError Unit :=
  if others.any fun s ↦ s.id == r.id then
    .error (.unique t.name (t.rowColumn.toList))
  else match t.unique.find? fun columns ↦ others.any (t.clash columns r) with
    | some columns => .error (.unique t.name columns)
    | none => .ok ()

def insertRow (r : StoredRow) : List StoredRow → List StoredRow
  | [] => [r]
  | s :: rows => if r.id < s.id then r :: s :: rows else s :: insertRow r rows

/-- Adds a row and tells its number. `named` is the table's name as the statement writes it. -/
def insert (t : Table) (named : String) (values : List (String × Cell)) :
    Except StoreError (Table × Int64) := do
  if let some (c, _) := values.find? fun (c, _) ↦ !t.hasColumn c then
    throw (.notInTable named c)
  let wanted ← match t.rowColumn.bind (given values) with
    | some c => givenId c
    | none => pure none
  let id ← match wanted with
    | some id => pure id
    | none => t.nextId
  let cells := t.columns.filterMap fun c ↦ (given values c.name).map
    fun v ↦ (c.name, v.stored c.affinity)
  let row : StoredRow := ⟨id, cells⟩
  t.checkRequired row
  t.checkUnique t.rows row
  let last := if t.rowColumn.isSome then max t.last id else t.last
  pure ({ t with rows := insertRow row t.rows, last := last }, id)

/-- The cells of a row after setting some columns; of several for a column the last counts. -/
def setCells (t : Table) (sets : List (String × Cell)) (r : StoredRow) : StoredRow :=
  let cells := t.columns.filterMap fun c ↦
    match given sets.reverse c.name with
    | some v => some (c.name, v.stored c.affinity)
    | none => (r.cells.find? fun (d, _) ↦ d == c.name)
  { r with cells := cells }

/-- Sets columns of the row with a number and tells how many rows that were. -/
def update (t : Table) (sets : List (String × Cell)) (id : Int64) :
    Except StoreError (Table × Nat) := do
  if let some (c, _) := sets.find? fun (c, _) ↦ !t.hasColumn c then
    throw (.noColumn c)
  match if t.rowColumn.isSome then t.row? id else none with
  | none => pure (t, 0)
  | some old =>
    let wanted ← match t.rowColumn.bind (given sets.reverse) with
      | some .null => throw .mismatch
      | some c => givenId c
      | none => pure none
    let row := { t.setCells sets old with id := wanted.getD id }
    let others := t.rows.filter fun r ↦ r.id != id
    t.checkRequired row
    t.checkUnique others row
    let rows := if row.id = id then t.rows.map fun r ↦ if r.id == id then row else r
      else insertRow row others
    pure ({ t with rows := rows }, 1)

/-- Removes the rows whose columns hold the given integers and tells which these were. A name that
no column has stands for itself, a text that equals no integer. -/
def delete (t : Table) (keys : List (String × Int64)) : Table × List StoredRow :=
  let goes (r : StoredRow) : Bool :=
    keys.all fun (c, n) ↦ t.hasColumn c && (t.cellOf r c).compare? (.integer n) == some .eq
  ({ t with rows := t.rows.filter fun r ↦ !goes r }, t.rows.filter goes)

/-- Adds a column; every row has null in it. -/
def addColumn (t : Table) (c : Column) (foreign : List ForeignKey) : Except StoreError Table :=
  if t.hasColumn c.name then .error (.duplicateColumn c.name)
  else .ok { t with columns := t.columns ++ [c], foreign := t.foreign ++ foreign }

end Table

end EntityStore
