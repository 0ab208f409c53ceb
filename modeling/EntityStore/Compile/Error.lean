import EntityStore.Access.Basic
import EntityStore.Language.Syntax
import EntityStore.Value.Text
import EntityStore.Value.Typing

/-!
What can be wrong with a text of the data language that is well formed.
-/

set_option autoImplicit false

namespace EntityStore

open EntityStore.Language (LinkOp Node)

/-- What kind of thing stands where a value is given. -/
inductive NodeShape where
  | null
  | value
  | parameter
  | list
  | object
deriving DecidableEq

/-- A thing that may not stand where it stands. -/
inductive ShapeFault where
  | ownedReference (found : NodeShape)
  | ownedCollection (found : NodeShape)
  | reference (found : NodeShape)
  | references (found : NodeShape)
  | listForReference (param : String)
  | noReferences (param : String)
  | linkOfField (op : LinkOp)
  | linkOfParent
  | linkWithoutOp (found : NodeShape)
  | relationUnselected
  | fieldSelected
  | listElement (found : NodeShape)
  | listOperand (found : NodeShape)
  | operand (found : NodeShape)
deriving DecidableEq

/-- A value that is not taken where it stands. -/
inductive ValueFault where
  | boundToReference (param : String) (expected : FieldType)
  | notReference (param : String)
  | notRowNumber (param : String) (element : Value)
  | parentGiven
  | repeated
  | derived (v : Value) (expected : FieldType)
  | requiredLink
  | sortOrder (n : Int64)
  | containerFilter (type : FieldType)

/-- The clauses that divide the rows of a level into pages. -/
inductive PageClause where
  | limit
  | page
deriving DecidableEq

inductive PageFault where
  | notAllowed (clause : PageClause) (entity : String)
  | tooSmall (clause : PageClause) (n : Int64)
  | withoutLimit (entity : String)
deriving DecidableEq

inductive CompileError where
  | unknownEntity (name : String)
  | unknownProperty (entity property : String)
  | unfit (target : PropertyKey) (fault : TypeFault)
  | ownedMutation (target : PropertyKey)
  | notInput (target : PropertyKey)
  | shape (target : PropertyKey) (fault : ShapeFault)
  | pagination (fault : PageFault)
  | parameterCollision (name : String)
  | unresolvedParameter (name : String) (target : PropertyKey)
  | invalidPath (path : List String) (valid : List (List String))
  | invalidValue (target : PropertyKey) (fault : ValueFault)
  | duplicateOrder (entity : String) (order : Int64)
  | checkFailed (target : PropertyKey)

namespace NodeShape

def name : NodeShape → String
  | .null => "null"
  | .value => "value"
  | .parameter => "parameter"
  | .list => "list"
  | .object => "object"

def ofNode : Node Value → NodeShape
  | .literal .null => .null
  | .literal _ => .value
  | .param _ => .parameter
  | .list _ => .list
  | .object _ => .object

end NodeShape

namespace ShapeFault

def message : ShapeFault → String
  | .ownedReference found => s!"Expecting an object for an owned reference, found {found.name}"
  | .ownedCollection found => s!"Expecting a list of objects, found {found.name}"
  | .reference found => s!"Expecting typeOf (null, long, param), found {found.name}"
  | .references found => s!"Expecting typeOf (list, param), found {found.name}"
  | .listForReference param => s!"a single reference in '?{param}', found a list"
  | .noReferences param => s!"a list of references in '?{param}'"
  | .linkOfField op => s!"a value, {op.text} only applies to linked relations"
  | .linkOfParent => "a plain id for @parent"
  | .linkWithoutOp found => s!"@add or @del before the linked value, found {found.name}"
  | .relationUnselected => "a \x7b selection \x7d after a relation"
  | .fieldSelected => "a field without a \x7b selection \x7d"
  | .listElement found => s!"a list of literals, found {found.name}"
  | .listOperand found => s!"a list or a parameter after in, found {found.name}"
  | .operand found => s!"a literal or a parameter, found {found.name}"

end ShapeFault

namespace ValueFault

def message : ValueFault → String
  | .boundToReference param expected =>
    s!"'?{param}' is bound to a reference, expecting a {expected.name}"
  | .notReference param => s!"'?{param}' is not a reference"
  | .notRowNumber param element => s!"'?{param}' holds a non id element {element.shown}"
  | .parentGiven => "@parent is set by the enclosing object"
  | .repeated => "entry given more than once"
  | .derived v expected => s!"derived value {v.shown} is not a {expected.name}"
  | .requiredLink => "@del would leave a required reference empty"
  | .sortOrder n => s!"sort order must be greater than 0, found {n.toInt}"
  | .containerFilter type => s!"{type.name} fields cannot be filtered"

end ValueFault

namespace PageClause

def name : PageClause → String
  | .limit => "limit"
  | .page => "page"

end PageClause

namespace PageFault

def message : PageFault → String
  | .notAllowed clause entity =>
    s!"{clause.name} is not allowed on the single reference to '{entity}'"
  | .tooSmall clause n => s!"{clause.name} must be greater than 0, found {n.toInt}"
  | .withoutLimit entity => s!"'{entity}' has a page without a limit"

end PageFault

namespace CompileError

def pathText (path : List String) : String :=
  ".".intercalate path

def quotedPath (path : List String) : String :=
  "\"" ++ pathText path ++ "\""

def message : CompileError → String
  | .unknownEntity name => s!"Entity '{name}' not found"
  | .unknownProperty entity property => s!"Property '{property}' not found in entity '{entity}'"
  | .unfit target fault => fault.message target.text
  | .ownedMutation target =>
    "Updating an owned reference/collection is not supported. " ++
      s!"Update '{target.text}' using the @parent field"
  | .notInput target => s!"Property '{target.text}' is not an input"
  | .shape target fault => s!"Malformed value for '{target.text}': {fault.message}"
  | .pagination fault => s!"Invalid pagination: {fault.message}"
  | .parameterCollision name => s!"Query already contains the '?{name}' parameter"
  | .unresolvedParameter name target =>
    s!"Expecting an argument value for '?{name}' ({target.text})"
  | .invalidPath path valid =>
    s!"Invalid path '{pathText path}'. Please complete the path with one of [" ++
      ", ".intercalate (valid.map quotedPath) ++ "]"
  | .invalidValue target fault => s!"Invalid value for '{target.text}': {fault.message}"
  | .duplicateOrder entity order =>
    s!"Order index {order.toInt} is used more than once in '{entity}'"
  | .checkFailed target => s!"Value rejected by the check of '{target.text}'"

end CompileError

end EntityStore
