import EntityStore.Instruction.RowRef
import EntityStore.Session.Event

/-!
Sessions with a store. A run on a session may fail; what it logged and the slots it assigned stay.
-/

set_option autoImplicit false

namespace EntityStore

/-- A store, the slots of the rows referred to, and the events so far, the last one first. -/
structure Session where
  store : Store
  slots : Slots
  log : List Event

abbrev Run := ExceptT Error (StateM Session)

namespace Session

def start (enforced : Bool) : Session := ⟨.empty enforced, .empty, [.opened enforced]⟩

end Session

namespace Run

def log (e : Event) : Run Unit :=
  modify fun s ↦ { s with log := e :: s.log }

/-- Goes on with a result or fails with its error. -/
def orFail {ε α : Type} (f : ε → Error) : Except ε α → Run α
  | .ok a => pure a
  | .error e => throw (f e)

def storeError (e : StoreError) : Error :=
  .persistence (.store e)

def define (d : Definition) : Run Unit := do
  log (.defined d)
  let store ← orFail storeError ((← get).store.define d)
  modify fun s ↦ { s with store := store }

/-- Runs a statement and tells its effect. -/
def statement (st : Statement) : Run Effect := do
  log (.executed st)
  let effect ← orFail storeError ((← get).store.run st)
  modify fun s ↦ { s with store := effect.store }
  pure effect

/-- The number of the row a reference stands for. -/
def rowOf (r : RowRef) (what : RowUse) : Run Int64 := do
  match (← get).slots.id? r with
  | some id => pure id
  | none => throw (.execution (.noRow what))

/-- Fails unless a change affected one row. -/
def single (change : RowChange) (affected : Nat) : Run Unit :=
  if affected = 1 then pure () else throw (.integrity change affected)

/-- Runs all of an action or leaves the store as it was. -/
def atomically {α : Type} (action : Run α) : Run α := do
  let before := (← get).store
  try action catch e =>
    modify fun s ↦ { s with store := before }
    throw e

end Run

end EntityStore
