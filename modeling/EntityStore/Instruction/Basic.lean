import EntityStore.Access.Basic
import EntityStore.Instruction.RowRef
import EntityStore.Language.Syntax
import EntityStore.Value.Text

/-!
Instructions: what a create, an update or a delete does to one row.
-/

set_option autoImplicit false

namespace EntityStore

open EntityStore.Language (LinkOp)

/-- What is written to a property: a value, rows it refers to, or changes of its links. -/
inductive InputValue where
  | value (v : Value)
  | ref (r : RowRef)
  | refs (rs : List RowRef)
  | link (op : LinkOp) (r : RowRef)
  | links (ls : List (LinkOp × RowRef))

abbrev Inputs := List (String × InputValue)

inductive Action where
  | create (inputs : Inputs)
  | update (inputs : Inputs)
  | delete

structure Instruction where
  entity : String
  ref : RowRef
  action : Action
  accessed : Accessed

namespace InputValue

def listed (parts : List String) : String :=
  "[" ++ ", ".intercalate parts ++ "]"

def linkText (slots : Slots) (l : LinkOp × RowRef) : String :=
  s!"{l.1.text} {slots.text l.2}"

def text (slots : Slots) : InputValue → String
  | .value v => v.shown
  | .ref r => s!"@{slots.text r}"
  | .refs rs => listed (rs.map fun r ↦ s!"@{slots.text r}")
  | .link op r => linkText slots (op, r)
  | .links ls => listed (ls.map (linkText slots))

end InputValue

namespace Action

def kind : Action → AccessKind
  | .create _ => .create
  | .update _ => .update
  | .delete => .delete

def inputs : Action → Inputs
  | .create inputs => inputs
  | .update inputs => inputs
  | .delete => []

def name : Action → String
  | .create _ => "Create"
  | .update _ => "Update"
  | .delete => "Delete"

end Action

namespace Instruction

/-- The text of an instruction; a row without a number yet is shown as `?`. -/
def text (slots : Slots) (i : Instruction) : String :=
  let head := s!"{i.action.name}({i.entity}) @id={slots.text i.ref}"
  match i.action with
  | .delete => head
  | action =>
    let parts := action.inputs.map fun (name, v) ↦ s!"{name}={v.text slots}"
    head ++ " - \x7b" ++ ", ".intercalate parts ++ "\x7d"

end Instruction

end EntityStore
