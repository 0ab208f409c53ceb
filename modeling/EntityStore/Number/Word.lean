/-!
Integers as words of 32 and of 64 bits.
-/

set_option autoImplicit false

namespace EntityStore

/-- The word of 32 bits for an integer, if there is one. -/
def int32? (n : Int) : Option Int32 :=
  if Int32.minValue.toInt ≤ n ∧ n ≤ Int32.maxValue.toInt then some (Int32.ofInt n) else none

/-- The word of 64 bits for an integer, if there is one. -/
def int64? (n : Int) : Option Int64 :=
  if Int64.minValue.toInt ≤ n ∧ n ≤ Int64.maxValue.toInt then some (Int64.ofInt n) else none

/-- The word of 64 bits nearest to an integer. -/
def int64Nearest (n : Int) : Int64 :=
  Int64.ofInt (max Int64.minValue.toInt (min n Int64.maxValue.toInt))

theorem int64?_toInt (w : Int64) : int64? w.toInt = some w := by
  have low := Int64.minValue_le_toInt w
  have high := Int64.toInt_le w
  simp_all [int64?]

end EntityStore
