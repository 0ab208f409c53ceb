import EntityStore.Mapping.Plan
import EntityStore.Result.Row

/-!
Reading the rows that a query asks for. Each level is one statement; the rows of a relation to many
rows are read for all owners at once and given to their owners afterwards.
-/

set_option autoImplicit false

namespace EntityStore

namespace Mapping

open Query (Tree)

/-- The number of table names given so far, and the statements run, the last one first. -/
structure Progress where
  names : Nat
  statements : List Select

abbrev Reading := ExceptT Error (StateM Progress)

/-- A row with the number of the owner it was read for. -/
abbrev OwnedRow := Int64 × Row

mutual

/-- How many columns a level and the single relations below it have. -/
def width : Tree → Nat
  | .node level relations => 1 + (Plan.ownFields level).length + relationsWidth relations

def relationsWidth : List (Query.Relation × Tree) → Nat
  | [] => 0
  | (r, t) :: rest => (if r.many then 0 else width t) + relationsWidth rest

end

/-- The selected fields of a row from their cells. -/
def readFields (fields : List Query.SelectedField) (cells : List Cell) : Except ColumnError Row :=
  (fields.zip cells).mapM fun (f, c) ↦ do
    let v ← f.type.readCell c
    pure (f.name, .value v)

mutual

/-- The row that cells hold, if its number is there. -/
def assemble : Tree → List Cell → Except ColumnError (Option Row)
  | .node level relations, .integer id :: cells => do
    let fields := Plan.ownFields level
    let own ← readFields fields cells
    let related ← assembleRelations relations (cells.drop fields.length)
    pure (some ((idName, .value (.long id)) :: own ++ related))
  | _, _ => pure none

/-- The related rows; those of a relation to many rows are still to be read. -/
def assembleRelations : List (Query.Relation × Tree) → List Cell → Except ColumnError Row
  | [], _ => pure []
  | (r, t) :: rest, cells => do
    if r.many then
      let others ← assembleRelations rest cells
      pure ((r.name, .many []) :: others)
    else
      let inner ← assemble t cells
      let others ← assembleRelations rest (cells.drop (width t))
      pure ((inner.map fun row ↦ (r.name, .one row)).toList ++ others)

end

/-- The row of a record, with the owner that stands behind it. -/
def record (t : Tree) (cells : List Cell) : Except ColumnError (Option OwnedRow) := do
  let row ← assemble t cells
  let owner := match cells[width t]? with
    | some (.integer n) => n
    | _ => 0
  pure (row.map (owner, ·))

/-- Whether the row at a position among those of its owner is on a page. -/
def onPage (b : PageBounds) (position : Nat) : Bool :=
  let n := Int64.ofNat position
  b.offset ≤ n && n - b.offset < b.limit

/-- The rows on the page of their owner; `before` are the owners of the rows in front. -/
def pagePerOwner (b : PageBounds) (before : List Int64) : List OwnedRow → List OwnedRow
  | [] => []
  | (owner, row) :: rest =>
    let others := pagePerOwner b (owner :: before) rest
    if onPage b (before.count owner) then (owner, row) :: others else others

/-- The owners at a path, in order and without repetition. -/
def owners (path : List String) (rows : List OwnedRow) : List Int64 :=
  let ids := rows.filterMap fun (_, row) ↦ (row.at? path).bind Row.id?
  ((ids.filter fun n ↦ 0 ≤ n).mergeSort fun a b ↦ a ≤ b).eraseDups

/-- Gives rows to the owner at a path. -/
def attach (path : List String) (name : String) (children : List OwnedRow) (row : Row) : Row :=
  row.modifyAt (fun owner ↦ match owner.id? with
    | some id =>
      owner.set name (.many ((children.filter fun c ↦ c.1 == id).map Prod.snd))
    | none => owner) path

/-- Makes a statement with table names not given yet. -/
def planned {α : Type} (p : Planning α) : Reading α := do
  match p ((← get).names) with
  | .ok (a, names) =>
    modify fun s ↦ { s with names := names }
    pure a
  | .error e => throw (.execution e)

/-- Runs the statement of a level. -/
def runLevel (store : Store) (bindings : Query.Bindings) (t : Tree) (scope : Option Scope) :
    Reading (List OwnedRow) := do
  let (select, page) ← planned (levelSelect bindings t scope)
  modify fun s ↦ { s with statements := select :: s.statements }
  let records ← match select.run store with
    | .ok records => pure records
    | .error e => throw (.persistence (.store e))
  let rows ← match records.mapM (record t) with
    | .ok rows => pure (rows.filterMap id)
    | .error e => throw (.persistence (.column e))
  match scope, page with
  | some _, some b => pure (pagePerOwner b [] rows)
  | _, _ => pure rows

mutual

/-- Reads the relations to many rows, at a path of single relations and below. -/
def fill (store : Store) (bindings : Query.Bindings) (entity : String) (path : List String) :
    List (Query.Relation × Tree) → List OwnedRow → Reading (List OwnedRow)
  | [], rows => pure rows
  | (r, t) :: rest, rows => do
    let rows ← fillRelation store bindings entity path r t rows
    fill store bindings entity path rest rows

/-- Gives the rows at a path what a relation leads to from them. -/
def fillRelation (store : Store) (bindings : Query.Bindings) (entity : String) (path : List String)
    (r : Query.Relation) : Tree → List OwnedRow → Reading (List OwnedRow)
  | .node level relations, rows => do
    if !r.many then fill store bindings level.entity (path ++ [r.name]) relations rows
    else
      let ids := owners path rows
      if ids.isEmpty then pure rows
      else
        let scope : Scope := ⟨entity, r, ids⟩
        let children ← runLevel store bindings (.node level relations) (some scope)
        let children ← fill store bindings level.entity [] relations children
        pure (rows.map fun (owner, row) ↦ (owner, attach path r.name children row))

end

/-- The rows of a level with everything below them. -/
def readLevel (store : Store) (bindings : Query.Bindings) (t : Tree) (scope : Option Scope) :
    Reading (List OwnedRow) := do
  let rows ← runLevel store bindings t scope
  fill store bindings t.level.entity [] t.relations rows

/-- The rows of the topmost level. -/
def readTop (store : Store) (bindings : Query.Bindings) (t : Tree) : Reading (List Row) := do
  let rows ← readLevel store bindings t none
  pure (rows.map Prod.snd)

/-- The rows that a query answers, or its error, and the statements run for it in order. -/
def read (store : Store) (bindings : Query.Bindings) (t : Tree) :
    Except Error (List Row) × List Select :=
  let (outcome, progress) := (readTop store bindings t).run ⟨0, []⟩
  (outcome, progress.statements.reverse)

end Mapping

end EntityStore
