import EntityStore.Compile.Operand
import EntityStore.Instruction.Basic

/-!
The instructions of an update and of a delete. Fields and `@parent` are set plainly; links of linked
relations are added and removed; owned relations never change from the side of their owner.
-/

set_option autoImplicit false

namespace EntityStore

open EntityStore.Language (LinkOp Node Target UpdateEntry)

namespace Update

/-- The row that a text addresses. -/
def target (entity : String) (args : Args) : Target Int64 → Except CompileError RowRef
  | .id n => .ok (.known n)
  | .param name => Node.rowRef args ⟨entity, idName⟩ (.param name)

/-- Links of a linked collection. -/
def links (args : Args) (key : PropertyKey) (op : LinkOp) (n : Node Value) :
    Except CompileError InputValue := do
  let rows ← if Node.isMany args n then Node.rowRefs args key n
    else (Node.rowRef args key n).map fun r ↦ [r]
  pure (.links (rows.map fun r ↦ (op, r)))

/-- What an entry sets a property to. -/
def entry (args : Args) (key : PropertyKey) (p : Property) (change : UpdateEntry Value) :
    Except CompileError InputValue :=
  match p.kind, change with
  | .field f, .set n => (Node.fieldValue args key f n).map .value
  | .field _, .link op _ => .error (.shape key (.linkOfField op))
  | .reference ⟨.owned, _, _, _⟩, _ | .collection ⟨.owned, _⟩, _ => .error (.ownedMutation key)
  | .reference r, .set n =>
    if p.isParent then (Node.rowRef args key n).map .ref
    else if r.optional && NodeShape.ofNode n == .null then .ok (.refs [])
    else .error (.shape key (.linkWithoutOp (.ofNode n)))
  | .collection _, .set n => .error (.shape key (.linkWithoutOp (.ofNode n)))
  | .reference r, .link op n =>
    if p.isParent then .error (.shape key .linkOfParent)
    else if op = .del ∧ !r.optional then .error (.invalidValue key .requiredLink)
    else (Node.rowRef args key n).map (.link op)
  | .collection _, .link op n => links args key op n

/-- The property that an entry may set, of which the names in `named` have been set. -/
def admitted (e : Entity) (named : List String) (name : String) : Except CompileError Property :=
  match e.get? name with
  | none => .error (.unknownProperty e.name name)
  | some p =>
    if named.contains name then .error (.invalidValue ⟨e.name, name⟩ .repeated)
    else if p.input then .ok p else .error (.notInput ⟨e.name, name⟩)

/-- The outcomes of the entries of an update. -/
def entries (args : Args) (e : Entity) (named : List String) :
    List (String × UpdateEntry Value) → List (Except CompileError (String × InputValue))
  | [] => []
  | (name, change) :: rest =>
    let outcome := do
      let p ← admitted e named name
      let v ← entry args ⟨e.name, name⟩ p change
      pure (name, v)
    outcome :: entries args e (name :: named) rest

def error? {α : Type} : Except CompileError α → Option CompileError
  | .error e => some e
  | .ok _ => none

end Update

namespace Schema

def compileUpdate (s : Schema) (form : Language.UpdateForm Value Int64) (args : Args) :
    Except (List CompileError) Instruction :=
  match s.get? form.entity with
  | none => .error [.unknownEntity form.entity]
  | some e =>
    let target := Update.target e.name args form.target
    let outcomes := Update.entries args e [] form.body
    match target, (Update.error? target).toList ++ outcomes.filterMap Update.error? with
    | .ok ref, [] => .ok ⟨e.name, ref, .update (outcomes.filterMap Except.toOption),
        .ofNames e.name (idName :: form.body.map Prod.fst)⟩
    | _, errors => .error errors

def compileDelete (s : Schema) (form : Language.DeleteForm Int64) (args : Args) :
    Except (List CompileError) Instruction :=
  match s.get? form.entity with
  | none => .error [.unknownEntity form.entity]
  | some e =>
    match Update.target e.name args form.target with
    | .ok ref => .ok ⟨e.name, ref, .delete, .ofNames e.name [idName]⟩
    | .error err => .error [err]

end Schema

end EntityStore
