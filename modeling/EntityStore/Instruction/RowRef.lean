/-!
References to rows. A row that is not there yet is referred to by a slot, which gets the row's
number once, when the row is inserted.
-/

set_option autoImplicit false

namespace EntityStore

inductive RowRef where
  | known (id : Int64)
  | pending (slot : Nat)
deriving DecidableEq

/-- The slots given out, which are those below `next`, and the row numbers assigned to some of
them. -/
structure Slots where
  next : Nat
  assigned : List (Nat × Int64)
deriving DecidableEq

namespace Slots

def empty : Slots := ⟨0, []⟩

/-- The number of the row a reference stands for. -/
def id? (s : Slots) : RowRef → Option Int64
  | .known id => some id
  | .pending slot => s.assigned.lookup slot

/-- A reference to a row that is still to come. -/
def fresh (s : Slots) : RowRef × Slots :=
  (.pending s.next, { s with next := s.next + 1 })

/-- Assigns a row number to a reference that has none yet. -/
def assign (s : Slots) (r : RowRef) (id : Int64) : Slots :=
  match r with
  | .pending slot => { s with assigned := (slot, id) :: s.assigned }
  | .known _ => s

def text (s : Slots) (r : RowRef) : String :=
  match s.id? r with
  | some id => toString id.toInt
  | none => "?"

end Slots

end EntityStore
