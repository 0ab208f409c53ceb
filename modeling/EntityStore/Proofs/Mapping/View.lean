import EntityStore.Mapping.Read
import EntityStore.Proofs.Mapping.Meaning

/-!
What the statement of a level shows, told without the names that it gives to tables: for a row of
the level, the cells and the sort keys of the level and the single relations below it. A row that a
left join does not find shows nulls.
-/

set_option autoImplicit false

namespace EntityStore

open Query (Tree)

namespace Record

/-- What a row that may be absent has in a column. -/
def cell? (r : Option Record) (name : String) : Cell :=
  r.elim .null (·.cell name)

/-- Whether a column of one row and a column of another, either of which may be absent, hold the
same. -/
def meet (a : Option Record) (column : String) (b : Option Record) (other : String) : Bool :=
  (cell? a column).compare? (cell? b other) == some .eq

end Record

namespace Store

/-- The rows of a table in the order in which a left join considers them. -/
def considered (s : Store) (table : String) : List Record :=
  (s.candidates ⟨table, ""⟩).filterMap fun p ↦ p.row.map fun r ↦ ⟨p.table, r⟩

/-- What a left join finds: the rows that fit, or an absent one. -/
def joinedRows (s : Store) (table : String) (fits : Record → Bool) : List (Option Record) :=
  match s.table? table with
  | none => []
  | some _ =>
    match (s.considered table).filter fits with
    | [] => [none]
    | rows => rows.map some

end Store

namespace Mapping

/-- A column that rows are sorted by, with what a row has in it. -/
structure Key where
  rank : Int64
  depth : Nat
  direction : Direction
  cell : Cell

/-- The cells and the sort keys that a combination of rows shows. -/
structure View where
  cells : List Cell
  keys : List Key

namespace View

def none : View := ⟨[], []⟩

def append (v w : View) : View := ⟨v.cells ++ w.cells, v.keys ++ w.keys⟩

/-- What a row shows of its own level. -/
def ofLevel (level : Query.Level) (depth : Nat) (a : Option Record) : View where
  cells := Record.cell? a idName :: (Plan.ownFields level).map fun f ↦ Record.cell? a f.name
  keys := level.fields.filterMap fun f ↦ f.sort.map fun (direction, rank) ↦
    ⟨rank, depth, direction, Record.cell? a f.name⟩

end View

/-- Whether the filter of a level, if it has one, is true of a row. -/
def passes (store : Store) (bindings : Query.Bindings) (f : Option Query.Filter)
    (a : Record) : Bool :=
  f.all (·.holds store bindings a)

/-- The rows that the joins of a single relation find for a row. -/
def singleRows (store : Store) (bindings : Query.Bindings) (entity : String) (r : Query.Relation)
    (child : Query.Level) (a : Option Record) : List (Option Record) :=
  let fits (column : String) (b : Option Record) (other : String) (c : Record) : Bool :=
    Record.meet (some c) column b other && passes store bindings child.filter c
  if r.isParent then store.joinedRows child.entity (fits idName a parentName)
  else match r.kind with
    | .owned => store.joinedRows child.entity (fits parentName a idName)
    | .linked =>
      (store.joinedRows (linkTableName entity r.name)
          fun l ↦ Record.meet (some l) ownerColumn a idName).flatMap
        fun l ↦ store.joinedRows child.entity (fits idName l targetColumn)

mutual

/-- What the statement of a level shows for a row, once for each combination with rows below it. -/
def views (store : Store) (bindings : Query.Bindings) (depth : Nat) :
    Tree → Option Record → List View
  | .node level relations, a =>
    (relationViews store bindings depth level.entity relations a).map
      (View.ofLevel level depth a).append

def relationViews (store : Store) (bindings : Query.Bindings) (depth : Nat) (entity : String) :
    List (Query.Relation × Tree) → Option Record → List View
  | [], _ => [.none]
  | (r, t) :: rest, a =>
    if r.many then relationViews store bindings depth entity rest a
    else (singleRows store bindings entity r t.level a).flatMap fun c ↦
      (views store bindings (depth + 1) t c).flatMap fun v ↦
        (relationViews store bindings depth entity rest a).map v.append

end

/-! ### The rows of a level -/

/-- A row that the statement of a level meets, the link that led to it and what the row shows. -/
structure Found where
  row : Record
  link : Option Record
  view : View

/-- The rows of an entity, each once for every link by which the relation of a scope leads to it. -/
def scopeRows (store : Store) (entity : String) (scope : Option Scope) :
    List (Record × Option Record) :=
  match scope with
  | none => (store.records entity).map (·, none)
  | some s => match s.relation.kind with
    | .owned => (store.records entity).map (·, none)
    | .linked => (store.records entity).flatMap fun r ↦
      ((store.records (linkTableName s.source s.relation.name)).filter fun l ↦
        Record.meet (some l) targetColumn (some r) idName).map (r, some ·)

/-- The cell that tells for which owner a row is read. -/
def ownerCell? (scope : Option Scope) (r : Record) (l : Option Record) : Option Cell :=
  scope.map fun s ↦ match s.relation.kind with
    | .owned => r.cell parentName
    | .linked => Record.cell? l ownerColumn

/-- Whether a row is read for one of the owners of a scope. -/
def inScope (scope : Option Scope) (r : Record) (l : Option Record) : Bool :=
  scope.all fun s ↦ s.owners.any fun n ↦ match s.relation.kind with
    | .owned => r.equals parentName (.integer n)
    | .linked => l.any (·.equals ownerColumn (.integer n))

/-- What the statement of a level meets, before it is sorted. -/
def found (store : Store) (bindings : Query.Bindings) (t : Tree) (scope : Option Scope) :
    List Found :=
  ((scopeRows store t.level.entity scope).filter fun (r, l) ↦
    inScope scope r l && passes store bindings t.level.filter r).flatMap fun (r, l) ↦
      (views store bindings 0 t (some r)).map (⟨r, l, ·⟩)

namespace Key

def le (a b : Key) : Bool :=
  a.rank < b.rank || (a.rank == b.rank && a.depth ≤ b.depth)

def order (a b : Key) : Ordering :=
  match a.direction with
  | .ascending => a.cell.order b.cell
  | .descending => b.cell.order a.cell

/-- The first key that tells two rows apart decides. -/
def orderAll : List Key → List Key → Ordering
  | a :: as, b :: bs => (a.order b).then (orderAll as bs)
  | _, _ => .eq

end Key

namespace Found

/-- The keys by rank and depth. -/
def keys (f : Found) : List Key :=
  f.view.keys.mergeSort Key.le

/-- The number of the link; rows without links are not told apart by it. -/
def linkCell (f : Found) : Cell :=
  f.link.elim .null fun l ↦ .integer l.row.id

/-- Rows are sorted by their keys, then by the links that led to them, then by their numbers. -/
def order (a b : Found) : Ordering :=
  (Key.orderAll a.keys b.keys).then
    ((a.linkCell.order b.linkCell).then ((a.row.cell idName).order (b.row.cell idName)))

def cells (scope : Option Scope) (f : Found) : List Cell :=
  f.view.cells ++ (ownerCell? scope f.row f.link).toList

end Found

/-- The rows of a level in order; of a level without a scope, those on its page. -/
def shown (store : Store) (bindings : Query.Bindings) (t : Tree) (scope : Option Scope)
    (page : Option PageBounds) : List Found :=
  let sorted := (found store bindings t scope).mergeSort fun a b ↦ a.order b != .gt
  if scope.isNone then Select.paged (page.map fun b ↦ (b.limit, b.offset)) sorted else sorted

/-- The rows on the page of their owner, if a level with a scope has pages. -/
def onPages (scope : Option Scope) (page : Option PageBounds) (rows : List OwnedRow) :
    List OwnedRow :=
  match scope, page with
  | some _, some b => pagePerOwner b [] rows
  | _, _ => rows

/-- The rows that reading a level answers. -/
def levelRows (store : Store) (bindings : Query.Bindings) (t : Tree) (scope : Option Scope)
    (page : Option PageBounds) : Except ColumnError (List OwnedRow) := do
  let rows ← (shown store bindings t scope page).mapM fun f ↦ record t (f.cells scope)
  pure (onPages scope page (rows.filterMap id))

end Mapping

end EntityStore
