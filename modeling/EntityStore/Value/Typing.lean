import EntityStore.Value.Basic

/-!
Which values a field type takes: a type takes its own values, an int takes longs and a float doubles
as far as they fit, and a list or map takes anything.
-/

set_option autoImplicit false

namespace EntityStore

/-- A number too large for the narrower type it is given to. -/
inductive NarrowError where
  | int (n : Int64)
  | float (x : Binary)
deriving DecidableEq

namespace NarrowError

def message : NarrowError → String
  | .int n => s!"{n.toInt} does not fit into an int"
  | .float x =>
    s!"{String.ofList (DecimalStyle.positional.write .double x)} does not fit into a float"

end NarrowError

/-- Why a value does not fit a type. -/
inductive TypeFault where
  | missing
  | mismatch (declared attempted : FieldType)
  | narrow (e : NarrowError)
deriving DecidableEq

namespace TypeFault

def message (target : String) : TypeFault → String
  | .missing => s!"Expecting an input value for '{target}'"
  | .mismatch declared attempted =>
    s!"Expecting typeOf {declared.name} for '{target}'. Trying to assign a {attempted.name}"
  | .narrow e => s!"Invalid value for '{target}': {e.message}"

end TypeFault

namespace FieldType

/-- The wider type whose values are narrowed to this one. -/
def widened : FieldType → FieldType
  | .int => .long
  | .float => .double
  | t => t

def takes (declared attempted : FieldType) : Bool :=
  declared.isContainer || attempted == declared || attempted == declared.widened

/-- Narrows a value of the wider type; any other value stays as it is. -/
def narrow : FieldType → Value → Except NarrowError Value
  | .int, .long n =>
    match int32? n.toInt with
    | some n => .ok (.int n)
    | none => .error (.int n)
  | .float, .double x =>
    if x.isFinite && x.abs.compare? (Binary.greatest .single) == some .gt then .error (.float x)
    else .ok (.float (x.toLayout .single))
  | _, v => .ok v

/-- Takes a value that is not null as one of the declared type. -/
def fit (declared : FieldType) (v : Value) : Except TypeFault Value :=
  match v.type? with
  | none => .error .missing
  | some attempted =>
    if declared.takes attempted then (declared.narrow v).mapError .narrow
    else .error (.mismatch declared attempted)

end FieldType

end EntityStore
