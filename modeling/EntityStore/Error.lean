import EntityStore.Compile.Error
import EntityStore.Language.Reader
import EntityStore.Mapping.Column
import EntityStore.Schema.Change
import EntityStore.Store.Table

/-!
The causes for which a request fails, with their messages.
-/

set_option autoImplicit false

namespace EntityStore

/-- A row whose number is asked for. -/
inductive RowUse where
  | parent
  | row (entity : String)
  | related (relation : PropertyKey)
deriving DecidableEq

/-- A request that cannot be carried out, whatever the store holds. -/
inductive ExecutionError where
  | noRow (what : RowUse)
  | notCreatable (key : PropertyKey) (input : String)
  | notField (key : PropertyKey)
  | alreadyAssigned (entity : String) (id : Int64)
  | noArgument (name : String)
  | pendingArgument (name : String)
  | referencesArgument (name : String)
  | boundArgument (name : String) (found : Value)
  | listArgument (name : String) (found : Value)
  | unfitArgument (name : String) (fault : TypeFault)
  | listExpected (field : String) (found : Value)

/-- A change of one row or one link. -/
inductive RowChange where
  | create (entity : String)
  | update (entity : String) (id : Int64)
  | delete (entity : String) (id : Int64)
  | link (relation : PropertyKey) (owner target : Int64)
  | unlink (relation : PropertyKey) (owner target : Int64)
deriving DecidableEq

inductive PersistenceError where
  | store (e : StoreError)
  | column (e : ColumnError)
deriving DecidableEq

inductive Error where
  | schema (e : SchemaError)
  | grammar (e : Language.SyntaxError)
  | semantic (es : List CompileError)
  /-- A change that affected another number of rows than one. -/
  | integrity (change : RowChange) (affected : Nat)
  | unauthorized (kind : AccessKind) (key : PropertyKey)
  /-- An access that is refused for a reason of the authorizer's own. -/
  | refused (reason : String)
  | execution (e : ExecutionError)
  | persistence (e : PersistenceError)

namespace RowUse

def text : RowUse → String
  | .parent => parentName
  | .row entity => s!"{entity} {idName}"
  | .related relation => relation.text

end RowUse

namespace ExecutionError

def message : ExecutionError → String
  | .noRow what => s!"{what.text} has no id, its row was not created yet"
  | .notCreatable key input => s!"{key.text} cannot be created from {input}"
  | .notField key => s!"{key.text} is not a field"
  | .alreadyAssigned entity id =>
    s!"Create({entity}) targets an id that is already assigned: {id.toInt}"
  | .noArgument name => s!"Expecting an argument value for '?{name}'"
  | .pendingArgument name => s!"Reference bound to '?{name}' has no id yet"
  | .referencesArgument name => s!"'?{name}' cannot be bound to a list of references"
  | .boundArgument name found =>
    s!"'?{name}' must be an integer greater than 0, found {found.shown}"
  | .listArgument name found => s!"'?{name}' must be a list, found {found.shown}"
  | .unfitArgument name fault => fault.message name
  | .listExpected field found => s!"'{field}' in expects a list, found {found.shown}"

end ExecutionError

namespace RowChange

def text : RowChange → String
  | .create entity => s!"Create({entity})"
  | .update entity id => s!"Update({entity}) @id={id.toInt}"
  | .delete entity id => s!"Delete({entity}) @id={id.toInt}"
  | .link relation owner target =>
    s!"Linking {relation.text} {owner.toInt} to {target.toInt}"
  | .unlink relation owner target =>
    s!"Unlinking {relation.text} {owner.toInt} from {target.toInt}"

end RowChange

namespace PersistenceError

def message : PersistenceError → String
  | .store e => e.message
  | .column e => e.message

end PersistenceError

namespace Error

def message : Error → String
  | .schema e => s!"Schema error: {e.message}"
  | .grammar e => s!"Syntax error: {e.message}"
  | .semantic es => "Compile error: " ++ "; ".intercalate (es.map CompileError.message)
  | .integrity change affected =>
    s!"Storage integrity error: {change.text} affected {affected} rows, expected exactly 1"
  | .unauthorized kind key => s!"Unauthorized: No {kind.name} access to {key.text}"
  | .refused reason => s!"Unauthorized: {reason}"
  | .execution e => s!"Execution error: {e.message}"
  | .persistence e => s!"Persistence error: {e.message}"

end Error

end EntityStore
