import EntityStore.Instruction.Basic
import EntityStore.Mapping.Tables
import EntityStore.Schema.Change

/-!
Writing instructions to the store: a batch is written as a whole or not at all.
-/

set_option autoImplicit false

namespace EntityStore

namespace Mapping

/-- What a create writes: the columns of its row, and the links to be added to it. -/
structure Insertion where
  columns : List (String × Cell)
  links : List (String × RowRef)

namespace Insertion

def none : Insertion := ⟨[], []⟩

def column (name : String) (c : Cell) : Insertion := ⟨[(name, c)], []⟩

def link (name : String) (rs : List RowRef) : Insertion := ⟨[], rs.map (name, ·)⟩

def append (a b : Insertion) : Insertion := ⟨a.columns ++ b.columns, a.links ++ b.links⟩

end Insertion

/-- What an input of a create is written to. The rows of an owned relation refer to their owner
themselves. -/
def inserted (e : Entity) (name : String) (v : InputValue) : Run Insertion := do
  let property := e.get? name
  match property.map Property.kind, v with
  | some (.field f), .value v => pure (.column name (f.type.column v).cell)
  | some (.reference r), .ref ref =>
    if name = parentName then
      let id ← Run.rowOf ref .parent
      pure (.column parentName (.integer id))
    else if r.kind = .owned then pure .none
    else pure (.link name [ref])
  | some (.collection c), .refs refs =>
    if c.kind = .owned then pure .none else pure (.link name refs)
  | _, v =>
    if property.any Property.isOwned then pure .none
    else throw (.execution (.notCreatable ⟨e.name, name⟩ (v.text (← get).slots)))

def addLink (entity relation : String) (owner target : Int64) : Run Unit := do
  let effect ← Run.statement (.insert (linkTableName entity relation)
    [(ownerColumn, .integer owner), (targetColumn, .integer target)])
  Run.single (.link ⟨entity, relation⟩ owner target) effect.affected

def removeLink (entity relation : String) (owner target : Int64) : Run Unit := do
  let effect ← Run.statement (.delete (linkTableName entity relation)
    [(ownerColumn, owner), (targetColumn, target)])
  Run.single (.unlink ⟨entity, relation⟩ owner target) effect.affected

def removeLinks (entity relation : String) (owner : Int64) : Run Unit := do
  let _ ← Run.statement (.delete (linkTableName entity relation) [(ownerColumn, owner)])

/-- Inserts the row, assigns its number to the reference and adds its links. -/
def create (e : Entity) (ref : RowRef) (inputs : Inputs) : Run Unit := do
  let parts ← inputs.mapM fun (name, v) ↦ inserted e name v
  let insertion := parts.foldl Insertion.append .none
  let effect ← Run.statement (.insert e.name insertion.columns)
  Run.single (.create e.name) effect.affected
  if let some id := (← get).slots.id? ref then throw (.execution (.alreadyAssigned e.name id))
  modify fun s ↦ { s with slots := s.slots.assign ref effect.row }
  insertion.links.forM fun (relation, target) ↦ do
    let target ← Run.rowOf target (.related ⟨e.name, relation⟩)
    addLink e.name relation effect.row target

/-- The columns that an input of an update sets. -/
def assigned (e : Entity) (name : String) (v : InputValue) : Run (List (String × Cell)) := do
  match v with
  | .value v =>
    match (e.get? name).bind Property.field? with
    | some f => pure [(name, (f.type.column v).cell)]
    | none => throw (.execution (.notField ⟨e.name, name⟩))
  | .ref r =>
    if name = parentName then
      let id ← Run.rowOf r .parent
      pure [(parentName, .integer id)]
    else pure []
  | _ => pure []

/-- Adds or removes one link of a linked collection. -/
def changeLink (entity relation : String) (owner : Int64) (op : Language.LinkOp) (r : RowRef) :
    Run Unit := do
  let target ← Run.rowOf r (.related ⟨entity, relation⟩)
  match op with
  | .add => addLink entity relation owner target
  | .del => removeLink entity relation owner target

/-- Changes the links of a relation. A linked reference holds one link at most. -/
def changeLinks (entity relation : String) (owner : Int64) : InputValue → Run Unit
  | .refs [] => removeLinks entity relation owner
  | .link .add r => do
    let target ← Run.rowOf r (.related ⟨entity, relation⟩)
    removeLinks entity relation owner
    addLink entity relation owner target
  | .link .del r => changeLink entity relation owner .del r
  | .links ls => ls.forM fun (op, r) ↦ changeLink entity relation owner op r
  | _ => pure ()

/-- Sets the columns of the row and changes its links. -/
def update (e : Entity) (ref : RowRef) (inputs : Inputs) : Run Unit := do
  let id ← Run.rowOf ref (.row e.name)
  let sets ← inputs.mapM fun (name, v) ↦ assigned e name v
  let effect ← Run.statement (.update e.name sets.flatten id)
  Run.single (.update e.name id) effect.affected
  inputs.forM fun (name, v) ↦ changeLinks e.name name id v

/-- Removes the row; what refers to it is left to the store. -/
def delete (e : Entity) (ref : RowRef) : Run Unit := do
  let id ← Run.rowOf ref (.row e.name)
  let effect ← Run.statement (.delete e.name [(idName, id)])
  Run.single (.delete e.name id) effect.affected

def write (s : Schema) (i : Instruction) : Run Unit := do
  let e ← Run.orFail .schema (s.find i.entity)
  match i.action with
  | .create inputs => create e i.ref inputs
  | .update inputs => update e i.ref inputs
  | .delete => delete e i.ref

/-- Writes an instruction of a batch and reports a failure. -/
def writeInBatch (s : Schema) (i : Instruction) : Run Unit := do
  try write s i catch e =>
    Run.log (.rolledBack e (i.text (← get).slots))
    throw e

/-- Writes a batch. Slots assigned before a failure stay assigned. -/
def execute (s : Schema) (batch : List Instruction) : Run Unit := do
  Run.log (.executing batch.length)
  Run.atomically (batch.forM (writeInBatch s))
  Run.log (.committed batch.length)

/-- The owner of a row. -/
def parentOf (entity : String) (id : Int64) : Run (Option Int64) := do
  Run.log (.lookedUp entity parentName)
  Run.orFail Run.storeError ((← get).store.lookup entity parentName id)

end Mapping

end EntityStore
