import EntityStore.Compile.Draft
import EntityStore.Instruction.RefTree

/-!
The instructions of a create. Each row of a draft gets an instruction and a slot for its number, an
owner before the rows it owns, which follow in the order of its entries.
-/

set_option autoImplicit false

namespace EntityStore

namespace Draft

/-- What entries of a row come to: its inputs, the trees and the instructions of the rows it owns,
and the slot after theirs. -/
structure Numbered where
  inputs : Inputs
  singles : List (String × RefTree)
  collections : List (String × List RefTree)
  owned : List Instruction
  next : Nat

/-- What the elements of a collection come to. -/
structure NumberedRows where
  trees : List RefTree
  instructions : List Instruction
  next : Nat

namespace Numbered

def none (next : Nat) : Numbered := ⟨[], [], [], [], next⟩

def append (a b : Numbered) : Numbered :=
  ⟨a.inputs ++ b.inputs, a.singles ++ b.singles, a.collections ++ b.collections,
    a.owned ++ b.owned, b.next⟩

end Numbered

/-- The instruction for a row at a slot, and those of the rows it owns after it. -/
def instructions (entity : String) (owner : Option RowRef) (slot : Nat) (row : RowDraft)
    (n : Numbered) : List Instruction :=
  let parent := (owner.map fun r ↦ (parentName, InputValue.ref r)).toList
  ⟨entity, .pending slot, .create (parent ++ n.inputs),
    .ofNames entity (parent.map Prod.fst ++ row.map Prod.fst)⟩ :: n.owned

def tree (slot : Nat) (n : Numbered) : RefTree :=
  .node (.pending slot) n.singles n.collections

mutual

/-- Numbers the rows that an entry stands for, the next free slot being given. -/
def numberEntry (owner next : Nat) (name : String) : Draft → Numbered
  | .input v => { Numbered.none next with inputs := [(name, v)] }
  | .absent => .none next
  | .single entity row =>
    let inner := numberRow next (next + 1) row
    { inputs := [(name, .ref (.pending next))]
      singles := [(name, tree next inner)]
      collections := []
      owned := instructions entity (some (.pending owner)) next row inner
      next := inner.next }
  | .several entity rows =>
    let inner := numberRows entity owner next rows
    { inputs := [(name, .refs (inner.trees.map RefTree.root))]
      singles := []
      collections := [(name, inner.trees)]
      owned := inner.instructions
      next := inner.next }

/-- Numbers the rows that the row of a slot owns. -/
def numberRow (owner next : Nat) : List (String × Draft) → Numbered
  | [] => .none next
  | (name, entry) :: rest =>
    let n := numberEntry owner next name entry
    n.append (numberRow owner n.next rest)

/-- Numbers the elements of a collection of a row. -/
def numberRows (entity : String) (owner next : Nat) : List (List (String × Draft)) → NumberedRows
  | [] => ⟨[], [], next⟩
  | row :: rest =>
    let inner := numberRow next (next + 1) row
    let others := numberRows entity owner inner.next rest
    ⟨tree next inner :: others.trees,
      instructions entity (some (.pending owner)) next row inner ++
        others.instructions, others.next⟩

end

end Draft

/-- What a create compiles to. -/
structure Creation where
  instructions : List Instruction
  tree : RefTree
  slots : Slots

namespace Schema

def compileCreate (s : Schema) (form : Language.CreateForm Value) (args : Args) (slots : Slots) :
    Except (List CompileError) Creation :=
  match s.get? form.entity with
  | none => .error [.unknownEntity form.entity]
  | some e =>
    let row := Draft.row s args e form.body
    if row.errors.isEmpty then
      let n := Draft.numberRow slots.next (slots.next + 1) row.result
      .ok ⟨Draft.instructions e.name none slots.next row.result n, Draft.tree slots.next n,
        { slots with next := n.next }⟩
    else .error row.errors

end Schema

end EntityStore
