/-!
The ways of comparing and of sorting, shared by the data language and the row store.
-/

set_option autoImplicit false

namespace EntityStore

inductive Comparison where
  | eq
  | ne
  | gt
  | lt
  | ge
  | le
deriving DecidableEq

namespace Comparison

def text : Comparison → String
  | .eq => "="
  | .ne => "<>"
  | .gt => ">"
  | .lt => "<"
  | .ge => ">="
  | .le => "<="

def holds : Comparison → Ordering → Bool
  | .eq, o => o == .eq
  | .ne, o => o != .eq
  | .gt, o => o == .gt
  | .lt, o => o == .lt
  | .ge, o => o != .lt
  | .le, o => o != .gt

end Comparison

inductive Direction where
  | ascending
  | descending
deriving DecidableEq

end EntityStore
