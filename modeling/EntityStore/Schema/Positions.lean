/-!
Indexes of lists: where the item of a name stands. Taking an item out moves those behind it, and
their places, up by one.
-/

set_option autoImplicit false

namespace EntityStore

/-- Names with the places of the items they are the names of. -/
abbrev Positions := List (String × Nat)

namespace Positions

def erase (ps : Positions) (name : String) : Positions :=
  ps.filter fun (n, _) ↦ n != name

/-- Notes the place of a name, whatever was noted for it before. -/
def insert (ps : Positions) (name : String) (i : Nat) : Positions :=
  (name, i) :: ps.erase name

/-- The places after the item at one of them was taken out. -/
def close (ps : Positions) (i : Nat) : Positions :=
  ps.map fun (n, j) ↦ (n, if i < j then j - 1 else j)

end Positions

/-- The names of the items differ, and the index tells the place of every one and of nothing
else. -/
structure Indexed {α : Type} (name : α → String) (items : List α) (ps : Positions) : Prop where
  nodup : (items.map name).Nodup
  lookup : ∀ n i, ps.lookup n = some i ↔ items[i]?.map name = some n

end EntityStore
