import EntityStore.Number.Binary
import EntityStore.Number.Digits

/-!
Decimal text of binary floating values: the fewest digits that read back as the same value, laid out
by a style, and the value nearest to a written decimal.
-/

set_option autoImplicit false

namespace EntityStore

/-- `coefficient · 10^exponent`. -/
structure Decimal where
  coefficient : Nat
  exponent : Int
deriving DecidableEq

/-- Which neighbour a value half way between two digit rows goes to. -/
inductive Tie where
  | up
  | even
deriving DecidableEq

namespace Decimal

/-- Moves zeros at the end of the coefficient into the exponent. -/
def trim (d : Decimal) : Decimal :=
  let zeros := ((natDigits d.coefficient).reverse.takeWhile (· == '0')).length
  if d.coefficient = 0 then ⟨0, 0⟩ else ⟨d.coefficient / Nat.pow 10 zeros, d.exponent + zeros⟩

/-- The power of ten of the first digit of the ratio `n / d`. -/
def leadingExponent (n d : Nat) : Int :=
  let guess : Int := (natDigits n).length - (natDigits d).length
  let (num, den) := scaleTen d guess
  if n * den ≥ num then guess else guess - 1

/-- The reals that round to the finite value `m · 2^q`, counted in quarters of `2^q`: the two ends,
and whether they belong to it. -/
def roundingInterval (layout : Layout) (m : Nat) (q : Int) : Nat × Nat × Bool :=
  let below := if 2 * m = layout.carry ∧ q > layout.lowest then 1 else 2
  (4 * m - below, 4 * m + 2, m % 2 == 0)

/-- The grid point of step `10^step` nearest to `m · 2^q`, if it reads back as that value. -/
def onGrid (layout : Layout) (tie : Tie) (m : Nat) (q : Int) (step : Int) : Option Decimal :=
  let (low, high, closed) := roundingInterval layout m q
  let (num, den) := scaleTwo m (q - 2)
  let (stepNum, stepDen) := scaleTen 1 step
  -- the value counted in steps is `4 * num * stepDen / (den * stepNum)`
  let top := 4 * num * stepDen
  let bottom := den * stepNum
  let floor := top / bottom
  let reads (c : Nat) : Bool :=
    -- quarters of `2^q` in `c` steps, as the ratio `left / right`
    let (quarterNum, quarterDen) := scaleTwo 1 (q - 2)
    let left := c * stepNum * quarterDen
    let right := stepDen * quarterNum
    if closed then low * right ≤ left && left ≤ high * right
    else low * right < left && left < high * right
  let twice := 2 * (top % bottom)
  let upFirst : Bool :=
    if twice = bottom then tie == .up || floor % 2 == 1 else decide (twice > bottom)
  let (first, second) := if upFirst then (floor + 1, floor) else (floor, floor + 1)
  if first ≠ 0 && reads first then some ⟨first, step⟩
  else if second ≠ 0 && reads second then some ⟨second, step⟩
  else none

/-- Tries grids of one digit, two digits and so on. -/
def firstOnGrid (layout : Layout) (tie : Tie) (m : Nat) (q : Int) (lead : Int) : Nat → Nat → Decimal
  | 0, digits => (onGrid layout tie m q (lead + 1 - digits)).getD ⟨m, 0⟩
  | more + 1, digits =>
    match onGrid layout tie m q (lead + 1 - digits) with
    | some d => d
    | none => firstOnGrid layout tie m q lead more (digits + 1)

/-- The fewest digits that read back as the finite value `m · 2^q`, and of those the nearest.
Seventeen digits always read back. -/
def shortest (layout : Layout) (tie : Tie) (m : Nat) (q : Int) : Decimal :=
  if m = 0 then ⟨0, 0⟩
  else
    let (n, d) := scaleTwo m q
    trim (firstOnGrid layout tie m q (leadingExponent n d) 17 1)

end Decimal

/-- How a decimal is laid out: in positions while the power of ten of its first digit lies between
two bounds, and with an exponent beyond them. -/
structure DecimalStyle where
  positionalFrom : Option Int
  positionalTo : Option Int
  exponentPlus : Bool
  wholePoint : Bool
  tie : Tie
  nan : String
  infinity : String
  negativeInfinity : String

namespace DecimalStyle

/-- Text shown to a reader of a value: in positions from 1e-4 to below 1e16. -/
def shown : DecimalStyle where
  positionalFrom := some (-4)
  positionalTo := some 15
  exponentPlus := false
  wholePoint := true
  tie := .up
  nan := "NaN"
  infinity := "inf"
  negativeInfinity := "-inf"

/-- All digits in positions, without a point after a whole number. -/
def positional : DecimalStyle :=
  { shown with positionalFrom := none, positionalTo := none, wholePoint := false }

/-- Numbers of a stored container of 64-bit values. -/
def storedDouble : DecimalStyle where
  positionalFrom := some (-5)
  positionalTo := some 15
  exponentPlus := true
  wholePoint := true
  tie := .even
  nan := "null"
  infinity := "null"
  negativeInfinity := "null"

/-- Numbers of a stored container of 32-bit values. -/
def storedSingle : DecimalStyle :=
  { storedDouble with positionalFrom := some (-6), positionalTo := some 12 }

/-- Lays out `0.d₁d₂…` times a power of ten by moving the point. -/
def layPositional (wholePoint : Bool) (digits : List Char) (exponent : Int) : List Char :=
  if exponent ≥ 0 then
    digits ++ List.replicate exponent.toNat '0' ++ (if wholePoint then ['.', '0'] else [])
  else
    let places := exponent.natAbs
    if digits.length > places then
      digits.take (digits.length - places) ++ '.' :: digits.drop (digits.length - places)
    else '0' :: '.' :: List.replicate (places - digits.length) '0' ++ digits

def layScientific (exponentPlus : Bool) (digits : List Char) (lead : Int) : List Char :=
  let fraction := if digits.length > 1 then '.' :: digits.drop 1 else []
  let power := if exponentPlus && lead ≥ 0 then '+' :: intDigits lead else intDigits lead
  digits.take 1 ++ fraction ++ 'e' :: power

def lay (style : DecimalStyle) (d : Decimal) : List Char :=
  let digits := natDigits d.coefficient
  let lead := d.exponent + digits.length - 1
  let low := style.positionalFrom.all (· ≤ lead)
  let high := style.positionalTo.all (lead ≤ ·)
  if d.coefficient = 0 || (low && high) then layPositional style.wholePoint digits d.exponent
  else layScientific style.exponentPlus digits lead

def write (style : DecimalStyle) (layout : Layout) : Binary → List Char
  | .nan => style.nan.toList
  | .infinite s => (if s then style.negativeInfinity else style.infinity).toList
  | .finite s m q =>
    let text := style.lay (Decimal.shortest layout style.tie m q)
    if s then '-' :: text else text

end DecimalStyle

namespace Binary

/-- Reads `digits[.digits][e[sign]digits]`, all of the text; at least one digit stands before the
exponent. -/
def ofNumeral? (layout : Layout) (negative : Bool) (cs : List Char) : Option Binary :=
  let (whole, rest) := spanDigits cs
  let (fraction, rest) := match rest with
    | '.' :: more => spanDigits more
    | _ => ([], rest)
  let m := digitsValue (whole ++ fraction)
  let shift : Int := fraction.length
  if whole.isEmpty && fraction.isEmpty then none
  else match rest with
    | [] => some (ofDecimal layout negative m (-shift))
    | e :: more =>
      if e ≠ 'e' ∧ e ≠ 'E' then none
      else
        let (minus, more) := match more with
          | '+' :: more => (false, more)
          | '-' :: more => (true, more)
          | _ => (false, more)
        let (power, rest) := spanDigits more
        if power.isEmpty || !rest.isEmpty then none
        else
          let power : Int := digitsValue power
          some (ofDecimal layout negative m ((if minus then -power else power) - shift))

/-- Reads a numeral with an optional sign, or the name of an infinite or undefined value in any
case. -/
def ofText? (layout : Layout) (text : String) : Option Binary :=
  let (negative, cs) := match text.toList with
    | '-' :: cs => (true, cs)
    | '+' :: cs => (false, cs)
    | cs => (false, cs)
  let name := String.ofList (cs.map Char.toLower)
  if name = "nan" then some .nan
  else if name = "inf" ∨ name = "infinity" then some (.infinite negative)
  else ofNumeral? layout negative cs

end Binary

end EntityStore
