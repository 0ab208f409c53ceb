import EntityStore.Schema.Positions
import EntityStore.Value.Basic

/-!
The schema: entities with their fields, references and collections. A relation is owned or linked;
an owned entity refers back to its owner through the reference `@parent`.
-/

set_option autoImplicit false

namespace EntityStore

inductive EntityKind where
  | master
  | detail
deriving DecidableEq

inductive RelationKind where
  | owned
  | linked
deriving DecidableEq

namespace RelationKind

def name : RelationKind → String
  | .owned => "owned"
  | .linked => "linked"

end RelationKind

/-- The field that holds the row number of an entity. -/
def idName : String := "@id"

/-- The reference of an owned entity to its owner. -/
def parentName : String := "@parent"

/-- A field that holds a value. A check may refuse values; a derivation computes the value of the
field from the other values of a new row. -/
structure Field where
  type : FieldType
  optional : Bool
  unique : Bool
  check : Option (Value → Bool)
  derive : Option (List (String × Value) → Value)

structure Reference where
  kind : RelationKind
  target : String
  optional : Bool
  unique : Bool
deriving DecidableEq

structure Collection where
  kind : RelationKind
  target : String
deriving DecidableEq

inductive PropertyKind where
  | field (f : Field)
  | reference (r : Reference)
  | collection (c : Collection)

/-- A property, bound to the entity it was added to. Only an input may be given by a create or an
update. -/
structure Property where
  name : String
  input : Bool
  kind : PropertyKind
  entity : Option String

/-- An entity, with the entity and the relation that own it. -/
structure Entity where
  name : String
  kind : EntityKind
  ownedBy : Option (String × String)
  properties : List Property
  positions : Positions

/-- A committed schema does not change any more. -/
structure Schema where
  entities : List Entity
  positions : Positions
  committed : Bool

namespace Field

def ofType (type : FieldType) : Field where
  type := type
  optional := false
  unique := false
  check := none
  derive := none

def accepts (f : Field) (v : Value) : Bool :=
  f.check.all (· v)

end Field

namespace Property

def field (name : String) (f : Field) : Property :=
  ⟨name, f.derive.isNone, .field f, none⟩

def reference (name : String) (r : Reference) : Property :=
  ⟨name, true, .reference r, none⟩

def collection (name : String) (c : Collection) : Property :=
  ⟨name, true, .collection c, none⟩

/-- The row number of a new entity: not an input, and unique. -/
def id (entity : String) : Property :=
  ⟨idName, false, .field { Field.ofType .long with unique := true }, some entity⟩

/-- The reference of an owned entity to its owner, unique if the owner holds a single one. -/
def parent (entity owner : String) (single : Bool) : Property :=
  ⟨parentName, true, .reference ⟨.linked, owner, false, single⟩, some entity⟩

def isParent (p : Property) : Bool :=
  p.name == parentName

/-- A collection is never required. -/
def isOptional (p : Property) : Bool :=
  match p.kind with
  | .field f => f.optional
  | .reference r => r.optional
  | .collection _ => true

def field? (p : Property) : Option Field :=
  match p.kind with
  | .field f => some f
  | _ => none

/-- The target and the kind of a relation. -/
def relation? (p : Property) : Option (String × RelationKind) :=
  match p.kind with
  | .field _ => none
  | .reference r => some (r.target, r.kind)
  | .collection c => some (c.target, c.kind)

def isOwned (p : Property) : Bool :=
  p.relation?.any fun (_, kind) ↦ kind == .owned

/-- A linked relation other than `@parent`; its links have a table of their own. -/
def isLinked (p : Property) : Bool :=
  (p.relation?.any fun (_, kind) ↦ kind == .linked) && !p.isParent

end Property

namespace Entity

def get? (e : Entity) (name : String) : Option Property :=
  (e.positions.lookup name).bind fun i ↦ e.properties[i]?

/-- The fields with their names, the row number among them. -/
def fields (e : Entity) : List (String × Field) :=
  e.properties.filterMap fun p ↦ p.field?.map (p.name, ·)

/-- The declared fields. -/
def userFields (e : Entity) : List (String × Field) :=
  e.fields.filter fun (name, _) ↦ name != idName

def references (e : Entity) (kind : RelationKind) : List String :=
  e.properties.filterMap fun p ↦ match p.kind with
    | .reference r => if r.kind = kind then some p.name else none
    | _ => none

def collections (e : Entity) (kind : RelationKind) : List String :=
  e.properties.filterMap fun p ↦ match p.kind with
    | .collection c => if c.kind = kind then some p.name else none
    | _ => none

def inputs (e : Entity) : List Property :=
  e.properties.filter Property.input

def relationNames (e : Entity) : List String :=
  (e.properties.filter fun p ↦ p.relation?.isSome).map Property.name

/-- The relations whose links have a table of their own. -/
def linkedRelations (e : Entity) : List String :=
  (e.properties.filter Property.isLinked).map Property.name

def hasParent (e : Entity) : Bool :=
  (e.get? parentName).isSome

end Entity

namespace Schema

def empty : Schema := ⟨[], [], false⟩

def get? (s : Schema) (name : String) : Option Entity :=
  (s.positions.lookup name).bind fun i ↦ s.entities[i]?

def ofKind (s : Schema) (kind : EntityKind) : List Entity :=
  s.entities.filter fun e ↦ e.kind == kind

end Schema

end EntityStore
