import EntityStore.Number.Digits

/-!
Dates of the proleptic Gregorian calendar and times of day, with their written forms. A fraction of
one second or more stands in a leap second, which may come after any second of the day and is
written as the next one: after second 59 as second 60.
-/

set_option autoImplicit false

namespace EntityStore

namespace Calendar

def isLeap (year : Int) : Bool :=
  year % 4 == 0 && (year % 100 != 0 || year % 400 == 0)

def monthLength (year : Int) (month : Nat) : Nat :=
  if month = 2 then (if isLeap year then 29 else 28)
  else if month = 4 ∨ month = 6 ∨ month = 9 ∨ month = 11 then 30
  else 31

/-- The days that exist, in the years that a date may name. -/
def isDay (year : Int) (month day : Nat) : Bool :=
  -262143 ≤ year && year ≤ 262142 && 1 ≤ month && month ≤ 12 && 1 ≤ day &&
    day ≤ monthLength year month

/-- The seconds of a day, each with a fraction that may go on through a leap second. -/
def isClock (hour minute second nano : Nat) : Bool :=
  hour ≤ 23 && minute ≤ 59 && second ≤ 59 && nano ≤ 1999999999

end Calendar

structure Date where
  year : Int
  month : Nat
  day : Nat
  valid : Calendar.isDay year month day = true
deriving DecidableEq

structure TimeOfDay where
  hour : Nat
  minute : Nat
  second : Nat
  nano : Nat
  valid : Calendar.isClock hour minute second nano = true
deriving DecidableEq

structure DateTime where
  date : Date
  time : TimeOfDay
deriving DecidableEq

namespace Date

def of? (year : Int) (month day : Nat) : Option Date :=
  if h : Calendar.isDay year month day = true then some ⟨year, month, day, h⟩ else none

/-- Years of four digits stand plain, all others carry their sign. -/
def yearText (year : Int) : List Char :=
  if 0 ≤ year ∧ year ≤ 9999 then paddedDigits 4 year.toNat
  else (if year < 0 then '-' else '+') :: paddedDigits 4 year.natAbs

def chars (d : Date) : List Char :=
  yearText d.year ++ '-' :: paddedDigits 2 d.month ++ '-' :: paddedDigits 2 d.day

end Date

namespace TimeOfDay

def of? (hour minute second nano : Nat) : Option TimeOfDay :=
  if h : Calendar.isClock hour minute second nano = true then some ⟨hour, minute, second, nano, h⟩
  else none

/-- The fraction of a second in three, six or nine digits, whichever is first exact. -/
def fractionText (nano : Nat) : List Char :=
  if nano = 0 then []
  else if nano % 1000000 = 0 then '.' :: paddedDigits 3 (nano / 1000000)
  else if nano % 1000 = 0 then '.' :: paddedDigits 6 (nano / 1000)
  else '.' :: paddedDigits 9 nano

/-- The second that the written form names. -/
def writtenSecond (t : TimeOfDay) : Nat :=
  t.second + t.nano / 1000000000

/-- The fraction that the written form names. -/
def writtenNano (t : TimeOfDay) : Nat :=
  t.nano % 1000000000

def chars (t : TimeOfDay) : List Char :=
  paddedDigits 2 t.hour ++ ':' :: paddedDigits 2 t.minute ++
    ':' :: paddedDigits 2 t.writtenSecond ++ fractionText t.writtenNano

end TimeOfDay

namespace DateTime

/-- The written form, with a mark of choice between date and time. -/
def chars (mark : Char) (t : DateTime) : List Char :=
  t.date.chars ++ mark :: t.time.chars

end DateTime

end EntityStore
