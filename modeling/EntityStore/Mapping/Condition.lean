import EntityStore.Error
import EntityStore.Mapping.Tables
import EntityStore.Query.Binding
import EntityStore.Store.Select

/-!
Filters as conditions of select statements. A relation that a filter path crosses becomes a nested
select, so that no row is met twice.
-/

set_option autoImplicit false

namespace EntityStore

namespace Mapping

open EntityStore.Language (Comparator)

/-- Making a statement counts the names given to tables. -/
abbrev Planning := StateT Nat (Except ExecutionError)

/-- A table name that no other one in the same answer has. -/
def fresh (kind : String) : Planning String := do
  let n := (← get) + 1
  set n
  pure s!"{kind}{n}"

/-- The value a field is compared with. -/
def operandValue (bindings : Query.Bindings) : Query.Operand → Except ExecutionError Value
  | .value v => .ok v
  | .list vs => .ok (.list vs)
  | .param name =>
    match bindings.lookup name with
    | some v => .ok v
    | none => .error (.noArgument name)

/-- A comparison of a column. Null is asked for by its own conditions. -/
def comparison (c : ColumnRef) (field : String) (comparator : Comparator) (v : Value) :
    Except ExecutionError Condition :=
  match comparator, v with
  | .isIn, .list items => .ok (.among c (items.map Value.cell))
  | .isIn, v => .error (.listExpected field v)
  | .compare .eq, .null => .ok (.isNull c)
  | .compare .ne, .null => .ok (.notNull c)
  | .compare op, v => .ok (.compare c op v.cell)

/-- The condition of a predicate whose path goes on with some steps from a table. -/
def predicateCondition (bindings : Query.Bindings) (p : Query.Predicate) (label : String) :
    List Query.Step → Planning Condition
  | [] => do
    let v ← operandValue bindings p.operand
    comparison (.column label p.field) p.field p.comparator v
  | s :: rest => do
    let next ← fresh "f"
    let target : Source := ⟨s.target, next⟩
    if s.isParent then
      let inner ← predicateCondition bindings p next rest
      pure (.within (.column label parentName) (.column next idName) target none inner)
    else match s.kind with
      | .owned =>
        let inner ← predicateCondition bindings p next rest
        pure (.within (.column label idName) (.column next parentName) target none inner)
      | .linked =>
        let link ← fresh "a"
        let inner ← predicateCondition bindings p next rest
        let join : Join := ⟨target, .column next idName, .column link targetColumn⟩
        pure (.within (.column label idName) (.column link ownerColumn)
          ⟨linkTableName s.source s.relation, link⟩ (some join) inner)

def condition (bindings : Query.Bindings) (label : String) : Query.Filter → Planning Condition
  | .and l r => do
    let l ← condition bindings label l
    let r ← condition bindings label r
    pure (.both l r)
  | .or l r => do
    let l ← condition bindings label l
    let r ← condition bindings label r
    pure (.either l r)
  | .predicate p => predicateCondition bindings p label p.steps

def conditions (bindings : Query.Bindings) (label : String) (f : Option Query.Filter) :
    Planning (List Condition) := do
  match f with
  | none => pure []
  | some f =>
    let c ← condition bindings label f
    pure [c]

end Mapping

end EntityStore
