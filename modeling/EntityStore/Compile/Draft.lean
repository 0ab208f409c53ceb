import EntityStore.Compile.Operand
import EntityStore.Instruction.Basic

/-!
Compiling the object of a create. The object is first read as a draft of its row, which holds the
drafts of the rows it owns; all errors are collected, and a draft counts only if there are none.
-/

set_option autoImplicit false

namespace EntityStore

open EntityStore.Language (Node)

/-- A result with the errors found on the way to it. -/
structure Checked (α : Type) where
  errors : List CompileError
  result : α

/-- What an entry of a row stands for: an input, nothing, a row or several rows that the row
owns. -/
inductive Draft where
  | input (v : InputValue)
  | absent
  | single (entity : String) (row : List (String × Draft))
  | several (entity : String) (rows : List (List (String × Draft)))

/-- The entries of a row in the order of their inputs. -/
abbrev RowDraft := List (String × Draft)

namespace Checked

def ofExcept {α β : Type} (f : α → β) : Except CompileError α → Checked (Option β)
  | .ok a => ⟨[], some (f a)⟩
  | .error e => ⟨[e], none⟩

def fail {α : Type} (e : CompileError) : Checked (Option α) := ⟨[e], none⟩

end Checked

namespace Draft

/-- The values among the inputs of a row, sorted by name. -/
def values (row : RowDraft) : List (String × Value) :=
  sortEntries (row.filterMap fun (name, d) ↦ match d with
    | .input (.value v) => some (name, v)
    | _ => none)

/-- The entry of a derived field, whose value has the field's type. -/
def derived (entity : String) (given : List (String × Value)) (name : String) (f : Field) :
    Option (Except CompileError (String × Draft)) :=
  f.derive.map fun derive ↦
    let v := derive given
    if v.isNull || f.type.isContainer || v.hasType f.type then .ok (name, .input (.value v))
    else .error (.invalidValue ⟨entity, name⟩ (.derived v f.type))

/-- The errors of the required inputs that no entry names. -/
def missing (e : Entity) (named : List String) : List CompileError :=
  (e.inputs.filter fun p ↦ !named.contains p.name && !p.isOptional).map fun p ↦
    .unfit ⟨e.name, p.name⟩ .missing

/-- Adds the derived fields to the entries of a row and asks for the inputs that are missing. -/
def complete (e : Entity) (named : List String) (row : Checked RowDraft) : Checked RowDraft :=
  let outcomes := e.fields.filterMap fun (name, f) ↦ derived e.name (values row.result) name f
  let failed := outcomes.filterMap fun
    | .error err => some err
    | .ok _ => none
  let derived := outcomes.filterMap Except.toOption
  ⟨row.errors ++ missing e named ++ failed, row.result ++ derived⟩

/-- The property that an entry of an object may set. -/
def admitted (e : Entity) (named : List String) (name : String) : Except CompileError Property :=
  if named.contains name then
    .error (.invalidValue ⟨e.name, name⟩ (if name = parentName then .parentGiven else .repeated))
  else match e.get? name with
    | none => .error (.unknownProperty e.name name)
    | some p => if p.input then .ok p else .error (.notInput ⟨e.name, name⟩)

/-- The names already taken in an object: an owned one has its parent. -/
def taken (owned : Bool) : List String :=
  if owned then [parentName] else []

/-- Puts an entry in front of the entries after it. -/
def put (name : String) (entry : Checked (Option Draft)) (rest : Checked RowDraft) :
    Checked RowDraft :=
  ⟨entry.errors ++ rest.errors, (entry.result.map (name, ·)).toList ++ rest.result⟩

mutual

/-- The entries of an object, of which the names in `named` have been set. -/
def entries (s : Schema) (args : Args) (e : Entity) (named : List String) :
    List (String × Node Value) → Checked RowDraft
  | [] => ⟨[], []⟩
  | (name, node) :: rest =>
    let entry := match admitted e named name with
      | .ok p => entry s args ⟨e.name, name⟩ p node
      | .error err => .fail err
    put name entry (entries s args e (name :: named) rest)

/-- What a property is set to. -/
def entry (s : Schema) (args : Args) (target : PropertyKey) (p : Property) (node : Node Value) :
    Checked (Option Draft) :=
  match p.kind, node with
  | .field f, node => .ofExcept (fun v ↦ .input (.value v)) (Node.fieldValue args target f node)
  | .reference r, .literal .null =>
    if r.optional then ⟨[], some .absent⟩ else .fail (.unfit target .missing)
  | .reference ⟨.owned, child, _, _⟩, .object body =>
    match s.get? child with
    | none => .fail (.unknownEntity child)
    | some child =>
      let named := taken true
      let row := complete child (named ++ body.map Prod.fst) (entries s args child named body)
      ⟨row.errors, some (.single child.name row.result)⟩
  | .reference ⟨.owned, _, _, _⟩, node => .fail (.shape target (.ownedReference (.ofNode node)))
  | .reference ⟨.linked, _, _, _⟩, node =>
    .ofExcept (fun r ↦ .input (.ref r)) (Node.rowRef args target node)
  | .collection ⟨.owned, child⟩, .list items =>
    match s.get? child with
    | none => .fail (.unknownEntity child)
    | some child =>
      let rows := elements s args target child items
      ⟨rows.errors, some (.several child.name rows.result)⟩
  | .collection ⟨.owned, _⟩, node => .fail (.shape target (.ownedCollection (.ofNode node)))
  | .collection ⟨.linked, _⟩, node =>
    .ofExcept (fun rs ↦ .input (.refs rs)) (Node.rowRefs args target node)

/-- The rows of an owned collection. -/
def elements (s : Schema) (args : Args) (target : PropertyKey) (child : Entity) :
    List (Node Value) → Checked (List RowDraft)
  | [] => ⟨[], []⟩
  | .object body :: rest =>
    let named := taken true
    let row := complete child (named ++ body.map Prod.fst) (entries s args child named body)
    let rows := elements s args target child rest
    ⟨row.errors ++ rows.errors, row.result :: rows.result⟩
  | node :: rest =>
    let rows := elements s args target child rest
    ⟨.shape target (.ownedCollection (.ofNode node)) :: rows.errors, rows.result⟩

end

/-- The row of an object that no other row owns. -/
def row (s : Schema) (args : Args) (e : Entity) (body : List (String × Node Value)) :
    Checked RowDraft :=
  complete e (body.map Prod.fst) (entries s args e (taken false) body)

end Draft

end EntityStore
