import EntityStore.Compile.Operand
import EntityStore.Error
import EntityStore.Query.Basic

/-!
Arguments checked against the parameters that a query declares.
-/

set_option autoImplicit false

namespace EntityStore.Query

/-- The values that parameters are bound to. -/
abbrev Bindings := List (String × Value)

/-- The plain value of an argument: a row stands for its number. -/
def argument (slots : Slots) (args : Args) (name : String) : Except ExecutionError Value :=
  match args.lookup name with
  | some (.value v) => .ok v
  | some (.ref r) =>
    match slots.id? r with
    | some id => .ok (.long id)
    | none => .error (.pendingArgument name)
  | some (.refs _) => .error (.referencesArgument name)
  | none => .error (.noArgument name)

def fitArgument (name : String) (type : FieldType) (v : Value) : Except ExecutionError Value :=
  (type.fit v).mapError (ExecutionError.unfitArgument name)

/-- The value of a limit or page. -/
def boundValue (name : String) (v : Value) : Except ExecutionError Value :=
  match v.asLong? with
  | some n => if 1 ≤ n then .ok (.long n) else .error (.boundArgument name v)
  | none => .error (.boundArgument name v)

/-- The value of a parameter, checked for what it is used for. -/
def Parameter.check (p : Parameter) (v : Value) : Except ExecutionError Value :=
  match p.role, v with
  | .bound, v => boundValue p.name v
  | .list, .list items => (items.mapM (fitArgument p.name p.type)).map .list
  | .list, v => .error (.listArgument p.name v)
  | .operand, v => if v.isNull then .ok v else fitArgument p.name p.type v

/-- Binds every declared parameter. -/
def bind (parameters : List Parameter) (slots : Slots) (args : Args) :
    Except ExecutionError Bindings :=
  parameters.mapM fun p ↦ do
    let v ← argument slots args p.name
    let v ← p.check v
    pure (p.name, v)

end EntityStore.Query
