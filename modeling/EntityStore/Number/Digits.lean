/-!
Decimal digits of integers, as lists of characters. Main statements: the digits of a number are read
back as that number, with or without zeros in front.
-/

set_option autoImplicit false

namespace EntityStore

/-- The decimal digits of a number, most significant first. -/
def natDigits (n : Nat) : List Char :=
  Nat.toDigits 10 n

/-- The number that a row of digits spells. -/
def digitsValue (cs : List Char) : Nat :=
  Nat.ofDigitChars 10 cs 0

def intDigits (n : Int) : List Char :=
  if n < 0 then '-' :: natDigits n.natAbs else natDigits n.natAbs

/-- Digits filled up with zeros on the left to a least width. -/
def paddedDigits (width n : Nat) : List Char :=
  let digits := natDigits n
  List.replicate (width - digits.length) '0' ++ digits

/-- Splits off the digits a text starts with. -/
def spanDigits (cs : List Char) : List Char × List Char :=
  (cs.takeWhile Char.isDigit, cs.dropWhile Char.isDigit)

theorem digitsValue_natDigits (n : Nat) : digitsValue (natDigits n) = n :=
  Nat.ofDigitChars_ten_toDigits

theorem digitsValue_paddedDigits (width n : Nat) : digitsValue (paddedDigits width n) = n := by
  simp [digitsValue, paddedDigits, natDigits, Nat.ofDigitChars_append,
    Nat.ofDigitChars_replicate_zero, Nat.ofDigitChars_ten_toDigits]

theorem isDigit_of_mem_natDigits {c : Char} {n : Nat} (h : c ∈ natDigits n) : c.isDigit :=
  Nat.isDigit_of_mem_toDigits (by decide) (by decide) h

end EntityStore
