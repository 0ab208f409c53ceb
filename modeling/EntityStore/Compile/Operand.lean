import EntityStore.Compile.Error
import EntityStore.Instruction.RowRef
import EntityStore.Schema.Basic

/-!
Arguments of parameters, and the values and row references that the entries of an object stand for.
-/

set_option autoImplicit false

namespace EntityStore

open EntityStore.Language (Node)

/-- What a parameter is bound to. -/
inductive Arg where
  | value (v : Value)
  | ref (r : RowRef)
  | refs (rs : List RowRef)

abbrev Args := List (String × Arg)

namespace Node

mutual

/-- The value inside a list or map that a node spells. -/
def plain (args : Args) (target : PropertyKey) : Node Value → Except CompileError Value
  | .literal v => .ok v
  | .param name =>
    match args.lookup name with
    | some (.value v) => .ok v
    | _ => .error (.unresolvedParameter name target)
  | .list items => (plainItems args target items).map .list
  | .object entries => (plainEntries args target entries).map .ofEntries

def plainItems (args : Args) (target : PropertyKey) :
    List (Node Value) → Except CompileError (List Value)
  | [] => .ok []
  | n :: ns => do
    let v ← plain args target n
    let vs ← plainItems args target ns
    pure (v :: vs)

def plainEntries (args : Args) (target : PropertyKey) :
    List (String × Node Value) → Except CompileError (List (String × Value))
  | [] => .ok []
  | (key, n) :: ns => do
    let v ← plain args target n
    let vs ← plainEntries args target ns
    pure ((key, v) :: vs)

end

/-- The value given to a field before its type is looked at. -/
def given (args : Args) (target : PropertyKey) (type : FieldType) :
    Node Value → Except CompileError Value
  | .param name =>
    match args.lookup name with
    | some (.value v) => .ok v
    | some _ => .error (.invalidValue target (.boundToReference name type))
    | none => .error (.unresolvedParameter name target)
  | n => plain args target n

/-- The value of a field: null if it is optional, else one that fits its type and passes its
check. -/
def fieldValue (args : Args) (target : PropertyKey) (f : Field) (n : Node Value) :
    Except CompileError Value := do
  let v ← given args target f.type n
  if v.isNull then
    if f.optional then pure .null else throw (.unfit target .missing)
  else
    let v ← (f.type.fit v).mapError (CompileError.unfit target)
    if f.accepts v then pure v else throw (.checkFailed target)

/-- One row, by its number or by a parameter. -/
def rowRef (args : Args) (target : PropertyKey) : Node Value → Except CompileError RowRef
  | .literal (.long id) => .ok (.known id)
  | .param name =>
    match args.lookup name with
    | some (.ref r) => .ok r
    | some (.value v) =>
      match v.asLong? with
      | some id => .ok (.known id)
      | none => .error (.invalidValue target (.notReference name))
    | some (.refs _) => .error (.shape target (.listForReference name))
    | none => .error (.unresolvedParameter name target)
  | n => .error (.shape target (.reference (.ofNode n)))

/-- The rows that the elements of a list argument number. -/
def numberedRows (name : String) (target : PropertyKey) (items : List Value) :
    Except CompileError (List RowRef) :=
  items.mapM fun v ↦ match v.asLong? with
    | some id => .ok (.known id)
    | none => .error (.invalidValue target (.notRowNumber name v))

/-- Rows, by a list of numbers and parameters or by a parameter. -/
def rowRefs (args : Args) (target : PropertyKey) : Node Value → Except CompileError (List RowRef)
  | .list items => items.mapM (rowRef args target)
  | .param name =>
    match args.lookup name with
    | some (.refs rs) => .ok rs
    | some (.ref r) => .ok [r]
    | some (.value (.list items)) => numberedRows name target items
    | some (.value _) => .error (.shape target (.noReferences name))
    | none => .error (.unresolvedParameter name target)
  | n => .error (.shape target (.references (.ofNode n)))

/-- A list, or a parameter bound to one. -/
def isMany (args : Args) : Node Value → Bool
  | .list _ => true
  | .param name =>
    match args.lookup name with
    | some (.refs _) | some (.value (.list _)) => true
    | _ => false
  | _ => false

end Node

end EntityStore
