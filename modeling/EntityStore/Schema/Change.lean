import EntityStore.Schema.Basic

/-!
Changes of a schema. All that stands against a change is looked up before anything is changed;
adding an owned relation gives its target the reference `@parent` and an owner, removing it takes
both away.
-/

set_option autoImplicit false

namespace EntityStore

inductive SchemaError where
  | committed
  | entityName (name : String)
  | entityExists (name : String)
  | alreadyBound (property entity : String)
  | propertyName (name : String)
  | noEntity (name : String)
  | propertyExists (property entity : String)
  | unknownTarget (entity relation target : String)
  | notDetail (entity relation target : String)
  | alreadyOwned (target owner : String)
  | notRemovable (property : String)
  | noProperty (property entity : String)
  | stillReferenced (entity other : String)
deriving DecidableEq

namespace SchemaError

def message : SchemaError → String
  | .committed =>
    "Cannot change a committed schema. Invoke 'change' and set the desired changes"
  | .entityName name => s!"Invalid entity name '{name}'"
  | .entityExists name => s!"Entity '{name}' already exists in the schema"
  | .alreadyBound property entity =>
    s!"Property '{property}' is already being used by the entity '{entity}'"
  | .propertyName name => s!"Invalid property name '{name}'"
  | .noEntity name => s!"Entity '{name}' not found"
  | .propertyExists property entity =>
    s!"Property '{property}' already exists in the entity '{entity}'"
  | .unknownTarget entity relation target =>
    s!"Relation '{entity}::{relation}' targets the unknown entity '{target}'"
  | .notDetail entity relation target =>
    s!"Only entities of kind DETAIL can be owned. '{entity}::{relation}' trying to own '{target}'"
  | .alreadyOwned target owner => s!"Entity '{target}' already owned by '{owner}'"
  | .notRemovable property => s!"Cannot remove '{property}' from an entity"
  | .noProperty property entity => s!"Property '{property}' not found in entity '{entity}'"
  | .stillReferenced entity other => s!"Entity '{entity}' is still referenced by '{other}'"

end SchemaError

/-- A letter or underscore, then letters, digits and underscores. -/
def isName (name : String) : Bool :=
  match name.toList with
  | [] => false
  | c :: cs => (c.isAlpha || c == '_') && cs.all fun d ↦ d.isAlphanum || d == '_'

namespace Property

/-- Whether the property is a reference, which leads to one row at most. -/
def isSingle (p : Property) : Bool :=
  match p.kind with
  | .reference _ => true
  | _ => false

/-- The entity that an owned relation makes the property's entity own. -/
def owned? (p : Property) : Option String :=
  match p.relation? with
  | some (target, .owned) => some target
  | _ => none

end Property

namespace Entity

def push (e : Entity) (p : Property) : Entity :=
  { e with
    properties := e.properties ++ [p]
    positions := e.positions.insert p.name e.properties.length }

def fresh (name : String) (kind : EntityKind) : Entity :=
  push ⟨name, kind, none, [], []⟩ (.id name)

/-- Takes a property out. -/
def take (e : Entity) (name : String) : Option (Property × Entity) := do
  let i ← e.positions.lookup name
  let p ← e.properties[i]?
  pure (p, { e with
    properties := e.properties.eraseIdx i
    positions := (e.positions.erase name).close i })

/-- Gives an entity its owner and the reference to it. -/
def adopt (e : Entity) (owner : String) (relation : Property) : Entity :=
  { e.push (.parent e.name owner relation.isSingle) with ownedBy := some (owner, relation.name) }

/-- Takes the owner and the reference to it away. -/
def release (e : Entity) : Entity :=
  { (e.take parentName).elim e Prod.snd with ownedBy := none }

/-- Whether a relation other than `@parent` targets an entity. -/
def refersTo (e : Entity) (name : String) : Bool :=
  e.properties.any fun p ↦ !p.isParent && p.relation?.any fun (target, _) ↦ target == name

end Entity

namespace Schema

def commit (s : Schema) : Schema :=
  { s with committed := true }

/-- A copy that may change again. -/
def change (s : Schema) : Schema :=
  { s with committed := false }

def find (s : Schema) (name : String) : Except SchemaError Entity :=
  match s.get? name with
  | some e => .ok e
  | none => .error (.noEntity name)

def checkOpen (s : Schema) : Except SchemaError Unit :=
  if s.committed then .error .committed else .ok ()

/-- Changes the entity of a name. -/
def modify (s : Schema) (name : String) (f : Entity → Entity) : Schema :=
  match s.positions.lookup name with
  | some i => { s with entities := s.entities.modify i f }
  | none => s

def push (s : Schema) (e : Entity) : Schema :=
  { s with
    entities := s.entities ++ [e]
    positions := s.positions.insert e.name s.entities.length }

/-- Takes an entity out. -/
def drop (s : Schema) (name : String) : Schema :=
  match s.positions.lookup name with
  | some i => { s with
      entities := s.entities.eraseIdx i
      positions := (s.positions.erase name).close i }
  | none => s

/-- Whether a property's relation is allowed. Tells the target it will own, if any. -/
def relate (s : Schema) (entity : String) (p : Property) : Except SchemaError (Option String) :=
  match p.relation? with
  | none => .ok none
  | some (target, kind) =>
    match s.get? target with
    | none => .error (.unknownTarget entity p.name target)
    | some child =>
      if kind = .linked then .ok none
      else if child.kind ≠ .detail then .error (.notDetail entity p.name target)
      else match child.ownedBy with
        | some (owner, _) => .error (.alreadyOwned target owner)
        | none => .ok (some target)

/-- Whether an entity other than the named one refers to it. -/
def checkUnused (s : Schema) (name : String) : Except SchemaError Unit :=
  match s.entities.find? fun e ↦ e.name != name && e.refersTo name with
  | some other => .error (.stillReferenced name other.name)
  | none => .ok ()

/-- The entities that the named one owns. -/
def ownedBy (s : Schema) (name : String) : List String :=
  (s.entities.filter fun e ↦ e.ownedBy.any fun (owner, _) ↦ owner == name).map Entity.name

end Schema

/-- A change of a schema in place. One that fails may have changed it already. -/
abbrev Editing := ExceptT SchemaError (StateM Schema)

namespace Editing

/-- Goes on with what the schema answers or fails with its error. -/
def ask {α : Type} (f : Schema → Except SchemaError α) : Editing α := do
  match f (← get) with
  | .ok a => pure a
  | .error e => throw e

/-- Fails if something stands against the change. -/
def refuse : Option SchemaError → Editing Unit
  | some e => throw e
  | none => pure ()

def addEntity (name : String) (kind : EntityKind) : Editing Unit := do
  ask Schema.checkOpen
  refuse (if isName name then none else some (.entityName name))
  let s ← get
  refuse ((s.get? name).map fun _ ↦ .entityExists name)
  set (s.push (.fresh name kind))

def addProperty (entity : String) (p : Property) : Editing Unit := do
  ask Schema.checkOpen
  refuse (p.entity.map fun bound ↦ .alreadyBound p.name bound)
  refuse (if isName p.name then none else some (.propertyName p.name))
  let owner ← ask fun s ↦ s.find entity
  refuse ((owner.get? p.name).map fun _ ↦ .propertyExists p.name entity)
  let owned ← ask fun s ↦ s.relate entity p
  modify fun s ↦ owned.elim s fun target ↦ s.modify target fun child ↦ child.adopt entity p
  modify fun s ↦ s.modify entity fun e ↦ e.push { p with entity := some entity }

def removeProperty (entity name : String) : Editing Unit := do
  ask Schema.checkOpen
  refuse (if name = idName ∨ name = parentName then some (.notRemovable name) else none)
  let owner ← ask fun s ↦ s.find entity
  let (p, rest) ← ask fun _ ↦ (owner.take name).elim (.error (.noProperty name entity)) .ok
  modify fun s ↦ s.modify entity fun _ ↦ rest
  modify fun s ↦ p.owned?.elim s fun target ↦ s.modify target Entity.release

/-- Removes an entity that no other one refers to. -/
def removeEntity (name : String) : Editing Unit := do
  ask Schema.checkOpen
  let _ ← ask fun s ↦ s.find name
  ask fun s ↦ s.checkUnused name
  modify fun s ↦ (s.ownedBy name).foldl (fun s target ↦ s.modify target Entity.release) s
  modify fun s ↦ s.drop name

def change : Editing Unit :=
  modify Schema.change

def commit : Editing Unit :=
  modify Schema.commit

end Editing

namespace Schema

/-- The schema after a change, if that succeeds. -/
def edit (s : Schema) (change : Editing Unit) : Except SchemaError Schema :=
  match change.run s with
  | (.ok (), s) => .ok s
  | (.error e, _) => .error e

def addEntity (s : Schema) (name : String) (kind : EntityKind) : Except SchemaError Schema :=
  s.edit (.addEntity name kind)

def addProperty (s : Schema) (entity : String) (p : Property) : Except SchemaError Schema :=
  s.edit (.addProperty entity p)

def removeProperty (s : Schema) (entity name : String) : Except SchemaError Schema :=
  s.edit (.removeProperty entity name)

def removeEntity (s : Schema) (name : String) : Except SchemaError Schema :=
  s.edit (.removeEntity name)

/-- A call on a schema. A call of `change` goes on with the copy. -/
inductive Call where
  | addEntity (name : String) (kind : EntityKind)
  | addProperty (entity : String) (p : Property)
  | removeProperty (entity name : String)
  | removeEntity (name : String)
  | change
  | commit

def Call.run : Call → Editing Unit
  | .addEntity name kind => .addEntity name kind
  | .addProperty entity p => .addProperty entity p
  | .removeProperty entity name => .removeProperty entity name
  | .removeEntity name => .removeEntity name
  | .change => .change
  | .commit => .commit

/-- What a call answers and the schema it leaves, also when it fails. -/
def call (s : Schema) (c : Call) : Except SchemaError Unit × Schema :=
  c.run.run s

/-- The schema that calls leave, one after the other. -/
def after (s : Schema) (calls : List Call) : Schema :=
  calls.foldl (fun s c ↦ (s.call c).2) s

/-- Some calls lead to the schema from the empty one. -/
def Reachable (s : Schema) : Prop :=
  ∃ calls, s = empty.after calls

end Schema

end EntityStore
