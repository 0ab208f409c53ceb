/-!
Binary floating values of two widths. A finite value is held as its sign, a natural mantissa and the
power of two it counts; every operation is exact rational arithmetic followed by one rounding to
nearest, ties to the even mantissa.
-/

set_option autoImplicit false

namespace EntityStore

/-- Rounds `num / den` to the nearest natural number, a tie to the even neighbour. -/
def roundHalfEven (num den : Nat) : Nat :=
  let low := num / den
  let twice := 2 * (num % den)
  if twice < den then low
  else if twice > den then low + 1
  else low + low % 2

/-- `m · 2^q` as a numerator and a denominator. -/
def scaleTwo (m : Nat) (q : Int) : Nat × Nat :=
  if q < 0 then (m, Nat.pow 2 q.natAbs) else (m * Nat.pow 2 q.natAbs, 1)

/-- `m · 10^e` as a numerator and a denominator. -/
def scaleTen (m : Nat) (e : Int) : Nat × Nat :=
  if e < 0 then (m, Nat.pow 10 e.natAbs) else (m * Nat.pow 10 e.natAbs, 1)

/-- A binary format: the bits of its significand and the least and greatest power of two that a
full significand may count. -/
structure Layout where
  precision : Nat
  lowest : Int
  highest : Int
deriving DecidableEq

namespace Layout

def single : Layout := ⟨24, -149, 104⟩

def double : Layout := ⟨53, -1074, 971⟩

/-- The least mantissa with one bit too many. -/
def carry (layout : Layout) : Nat :=
  Nat.pow 2 layout.precision

end Layout

inductive Binary where
  | nan
  | infinite (negative : Bool)
  | finite (negative : Bool) (mantissa : Nat) (exponent : Int)
deriving DecidableEq, Repr, Inhabited

namespace Binary

def isNaN : Binary → Bool
  | .nan => true
  | _ => false

def isFinite : Binary → Bool
  | .finite .. => true
  | _ => false

def zero (layout : Layout) (negative : Bool) : Binary :=
  .finite negative 0 layout.lowest

/-- The power of two a rounded mantissa of `num / den` counts: the one that fills the precision,
unless that lies below the least power of the format. -/
def unitExponent (layout : Layout) (num den : Nat) : Int :=
  let guess : Int := (num.log2 : Int) - den.log2 - layout.precision
  let (n, d) := scaleTwo den (guess + layout.precision)
  let tight := if num * d ≥ n then guess + 1 else guess
  max layout.lowest tight

/-- The value of the format nearest to `num / den`, infinite beyond the greatest one. -/
def ofRatio (layout : Layout) (negative : Bool) (num den : Nat) : Binary :=
  if num = 0 then zero layout negative
  else
    let q := unitExponent layout num den
    let (n, d) := scaleTwo den q
    let m := roundHalfEven (num * d) n
    let (m, q) := if m = layout.carry then (layout.carry / 2, q + 1) else (m, q)
    if q > layout.highest then .infinite negative else .finite negative m q

def ofInt (layout : Layout) (n : Int) : Binary :=
  ofRatio layout (n < 0) n.natAbs 1

/-- The nearest value of another format. -/
def toLayout (layout : Layout) : Binary → Binary
  | .nan => .nan
  | .infinite s => .infinite s
  | .finite s m q =>
    let (n, d) := scaleTwo m q
    ofRatio layout s n d

/-- The nearest value to `m · 10^e`. Powers far outside the format are cut short, so that no huge
power of ten is computed. -/
def ofDecimal (layout : Layout) (negative : Bool) (m : Nat) (e : Int) : Binary :=
  let size : Int := (m.log2 : Int) * 30103 / 100000
  if m = 0 ∨ e + size < -400 then zero layout negative
  else if e + size > 400 then .infinite negative
  else
    let (n, d) := scaleTen m e
    ofRatio layout negative n d

/-- A sign and the size as a ratio; infinite and undefined values have none. -/
def ratio? : Binary → Option (Bool × Nat × Nat)
  | .finite s m q => some (s, scaleTwo m q)
  | _ => none

def mul (layout : Layout) (x y : Binary) : Binary :=
  match x.ratio?, y.ratio? with
  | some (s, n, d), some (t, n', d') => ofRatio layout (s != t) (n * n') (d * d')
  | _, _ => .nan

def div (layout : Layout) (x y : Binary) : Binary :=
  match x.ratio?, y.ratio? with
  | some (s, n, d), some (t, n', d') =>
    if n' = 0 then .nan else ofRatio layout (s != t) (n * d') (d * n')
  | _, _ => .nan

/-- Compares signed ratios by cross multiplication; zero has no sign here. -/
def compareRatio (s : Bool) (n d : Nat) (t : Bool) (n' d' : Nat) : Ordering :=
  let left : Int := if s then -(n * d' : Nat) else (n * d' : Nat)
  let right : Int := if t then -(n' * d : Nat) else (n' * d : Nat)
  compare left right

/-- The order of the numbers; an undefined value has no place in it. -/
def compare? : Binary → Binary → Option Ordering
  | .nan, _ => none
  | _, .nan => none
  | .infinite s, .infinite t => some (compare t.toNat s.toNat)
  | .infinite s, .finite .. => some (if s then .lt else .gt)
  | .finite .., .infinite t => some (if t then .gt else .lt)
  | .finite s m q, .finite t m' q' =>
    let (n, d) := scaleTwo m q
    let (n', d') := scaleTwo m' q'
    some (compareRatio s n d t n' d')

/-- The order of sorting, in which an undefined value stands before the numbers. -/
def order (x y : Binary) : Ordering :=
  (x.compare? y).getD (compare (!x.isNaN) (!y.isNaN))

/-- Equality of the numbers: both zeros are equal, an undefined value equals nothing. -/
def sameNumber (x y : Binary) : Bool :=
  x.compare? y == some .eq

/-- The integer a finite value without fraction stands for. -/
def toInt? : Binary → Option Int
  | .finite s m q =>
    let (n, d) := scaleTwo m q
    if n % d = 0 then
      let size : Int := (n / d : Nat)
      some (if s then -size else size)
    else none
  | _ => none

/-- The greatest finite value of a format. -/
def greatest (layout : Layout) : Binary :=
  .finite false (layout.carry - 1) layout.highest

/-- Takes the sign of zero away. -/
def plainZero : Binary → Binary
  | .finite _ 0 q => .finite false 0 q
  | x => x

/-- The size of a value without its sign. -/
def abs : Binary → Binary
  | .nan => .nan
  | .infinite _ => .infinite false
  | .finite _ m q => .finite false m q

end Binary

end EntityStore
