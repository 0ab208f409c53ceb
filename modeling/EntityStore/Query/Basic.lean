import EntityStore.Access.Basic
import EntityStore.Language.Syntax
import EntityStore.Schema.Basic

/-!
Compiled queries: a tree of levels, each with its entity, its filter, its page, the fields it
selects and the levels of the relations it selects.
-/

set_option autoImplicit false

namespace EntityStore.Query

open EntityStore.Language (Bound Comparator)

inductive Operand where
  | value (v : Value)
  | list (vs : List Value)
  | param (name : String)

/-- A relation that a filter path crosses. -/
structure Step where
  relation : String
  kind : RelationKind
  source : String
  target : String
deriving DecidableEq

structure Predicate where
  steps : List Step
  field : String
  type : FieldType
  comparator : Comparator
  operand : Operand

inductive Filter where
  | and (l r : Filter)
  | or (l r : Filter)
  | predicate (p : Predicate)

/-- A selected field, with the direction and the rank of its sorting. -/
structure SelectedField where
  name : String
  type : FieldType
  sort : Option (Direction × Int64)
deriving DecidableEq

/-- One level of a query. The first of its fields is the row number. -/
structure Level where
  entity : String
  filter : Option Filter
  limit : Option (Bound Int64)
  page : Option (Bound Int64)
  fields : List SelectedField

/-- A selected relation; one that is `many` leads to a list of rows. -/
structure Relation where
  name : String
  kind : RelationKind
  many : Bool
deriving DecidableEq

inductive Tree where
  | node (level : Level) (relations : List (Relation × Tree))

/-- What the argument of a parameter is used for. -/
inductive ParameterRole where
  | operand
  | list
  | bound
deriving DecidableEq

structure Parameter where
  name : String
  type : FieldType
  role : ParameterRole
deriving DecidableEq

structure Compiled where
  tree : Tree
  parameters : List Parameter
  accessed : Accessed

namespace Step

def isParent (s : Step) : Bool :=
  s.relation == parentName

end Step

namespace Relation

def isParent (r : Relation) : Bool :=
  r.name == parentName

end Relation

namespace Tree

def level : Tree → Level
  | .node level _ => level

def relations : Tree → List (Relation × Tree)
  | .node _ relations => relations

end Tree

namespace Filter

/-- The row with a number. -/
def ofId (id : Int64) : Filter :=
  .predicate ⟨[], idName, .long, .compare .eq, .value (.long id)⟩

end Filter

end EntityStore.Query
