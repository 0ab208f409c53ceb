import EntityStore.Compile.Create
import EntityStore.Compile.Update
import EntityStore.Error

/-!
A batch in the making: instructions compiled one after the other against one schema.
-/

set_option autoImplicit false

namespace EntityStore

structure Transaction where
  schema : Schema
  instructions : List Instruction
  slots : Slots

namespace Transaction

def start (schema : Schema) (slots : Slots) : Transaction := ⟨schema, [], slots⟩

/-- Adds the instructions of a create and tells the references to its rows. -/
def create (t : Transaction) (text : String) (args : Args) :
    Except Error (Transaction × RefTree) := do
  let form ← (Language.readCreate text).mapError .grammar
  let c ← (t.schema.compileCreate form args t.slots).mapError .semantic
  pure ({ t with instructions := t.instructions ++ c.instructions, slots := c.slots }, c.tree)

def update (t : Transaction) (text : String) (args : Args) : Except Error Transaction := do
  let form ← (Language.readUpdate text).mapError .grammar
  let i ← (t.schema.compileUpdate form args).mapError .semantic
  pure { t with instructions := t.instructions ++ [i] }

def delete (t : Transaction) (text : String) (args : Args) : Except Error Transaction := do
  let form ← (Language.readDelete text).mapError .grammar
  let i ← (t.schema.compileDelete form args).mapError .semantic
  pure { t with instructions := t.instructions ++ [i] }

end Transaction

end EntityStore
