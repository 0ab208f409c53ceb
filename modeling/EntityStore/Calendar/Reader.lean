import EntityStore.Calendar.Basic
import EntityStore.Number.Word
import EntityStore.Text.Blank

/-!
Readers of dates and times, driven by a list of items. A number may have blanks in front and fewer
digits than its written form; a year may carry a sign and then have any number of digits.
-/

set_option autoImplicit false

namespace EntityStore

inductive CalendarError where
  | outOfRange
  | invalid
  | tooShort
  | tooLong
deriving DecidableEq

namespace CalendarError

def message : CalendarError → String
  | .outOfRange => "input is out of range"
  | .invalid => "input contains invalid characters"
  | .tooShort => "premature end of input"
  | .tooLong => "trailing input"

end CalendarError

namespace Calendar

inductive Item where
  | year
  | month
  | day
  | hour
  | minute
  | second
  | fraction
  | blanks
  | mark (c : Char)
deriving DecidableEq

/-- What the items have read so far. -/
structure Reading where
  year : Int
  month : Nat
  day : Nat
  hour : Nat
  minute : Nat
  second : Nat
  nano : Nat

def Reading.start : Reading := ⟨0, 0, 0, 0, 0, 0, 0⟩

/-- One digit at least and no more than `most`. -/
def readNumber (most : Nat) (cs : List Char) : Except CalendarError (Nat × List Char) :=
  let digits := (cs.take most).takeWhile Char.isDigit
  if cs.isEmpty then .error .tooShort
  else if digits.isEmpty then .error .invalid
  else if Int64.maxValue.toInt < digitsValue digits then .error .outOfRange
  else .ok (digitsValue digits, cs.drop digits.length)

def readYear (cs : List Char) : Except CalendarError (Int × List Char) := do
  let (year, rest) ← match skipBlanks cs with
    | '-' :: cs => (readNumber cs.length cs).map fun (n, rest) ↦ (-(n : Int), rest)
    | '+' :: cs => (readNumber cs.length cs).map fun (n, rest) ↦ ((n : Int), rest)
    | cs => (readNumber 4 cs).map fun (n, rest) ↦ ((n : Int), rest)
  if (int32? year).isSome then .ok (year, rest) else .error .outOfRange

def readPart (low high : Nat) (cs : List Char) : Except CalendarError (Nat × List Char) := do
  let (n, rest) ← readNumber 2 (skipBlanks cs)
  if low ≤ n ∧ n ≤ high then .ok (n, rest) else .error .outOfRange

/-- Nine digits count, all further ones are dropped. -/
def readFraction (cs : List Char) : Except CalendarError (Nat × List Char) := do
  let (n, rest) ← readNumber 9 cs
  let digits := cs.length - rest.length
  .ok (n * Nat.pow 10 (9 - digits), rest.dropWhile Char.isDigit)

def readItem (r : Reading) (cs : List Char) : Item → Except CalendarError (Reading × List Char)
  | .year => (readYear cs).map fun (n, rest) ↦ ({ r with year := n }, rest)
  | .month => (readPart 1 12 cs).map fun (n, rest) ↦ ({ r with month := n }, rest)
  | .day => (readPart 1 31 cs).map fun (n, rest) ↦ ({ r with day := n }, rest)
  | .hour => (readPart 0 23 cs).map fun (n, rest) ↦ ({ r with hour := n }, rest)
  | .minute => (readPart 0 59 cs).map fun (n, rest) ↦ ({ r with minute := n }, rest)
  | .second => (readPart 0 60 cs).map fun (n, rest) ↦ ({ r with second := n }, rest)
  | .fraction => match cs with
    | '.' :: cs => (readFraction cs).map fun (n, rest) ↦ ({ r with nano := n }, rest)
    | _ => .ok (r, cs)
  | .blanks => .ok (r, skipBlanks cs)
  | .mark c => match cs with
    | [] => .error .tooShort
    | d :: rest => if c = d then .ok (r, rest) else .error .invalid

def readItems (items : List Item) (r : Reading) (cs : List Char) :
    Except CalendarError (Reading × List Char) :=
  items.foldlM (fun (r, cs) item ↦ readItem r cs item) (r, cs)

/-- Reads the items from all of the text. -/
def readAll (items : List Item) (cs : List Char) : Except CalendarError Reading := do
  let (r, rest) ← readItems items .start cs
  if rest.isEmpty then .ok r else .error .tooLong

def Reading.date (r : Reading) : Except CalendarError Date :=
  match Date.of? r.year r.month r.day with
  | some d => .ok d
  | none => .error .outOfRange

/-- The second of the day that a written second and its fraction stand for: second 60 is the leap
second after second 59. -/
def ofWritten (second nano : Nat) : Nat × Nat :=
  if second = 60 then (59, 1000000000 + nano) else (second, nano)

def Reading.time (r : Reading) : Except CalendarError TimeOfDay :=
  let (second, nano) := ofWritten r.second r.nano
  match TimeOfDay.of? r.hour r.minute second nano with
  | some t => .ok t
  | none => .error .outOfRange

def dateItems : List Item :=
  [.year, .mark '-', .month, .mark '-', .day]

def timeItems : List Item :=
  [.hour, .mark ':', .minute, .mark ':', .second, .fraction]

end Calendar

open Calendar

namespace TimeOfDay

def read (cs : List Char) : Except CalendarError TimeOfDay := do
  (← readAll timeItems cs).time

/-- Reads a stored column: the seconds may be missing. -/
def readColumn (cs : List Char) : Except CalendarError TimeOfDay := do
  let items := match (String.ofList cs).utf8ByteSize with
    | 5 => timeItems.take 3
    | 8 => timeItems.take 5
    | _ => timeItems
  (← readAll items cs).time

/-- Reads a time inside a stored container: blanks may stand around the marks, the seconds may be
missing. -/
def readStored (cs : List Char) : Except CalendarError TimeOfDay := do
  let (r, rest) ← readItems [.hour, .blanks, .mark ':', .minute] .start cs
  let (r, rest) :=
    match readItems [.blanks, .mark ':', .second, .fraction, .blanks] r rest with
    | .ok found => found
    | .error _ => (r, rest)
  if (skipBlanks rest).isEmpty then r.time else .error .tooLong

end TimeOfDay

namespace Date

def read (cs : List Char) : Except CalendarError Date := do
  (← readAll dateItems cs).date

def readStored (cs : List Char) : Except CalendarError Date := do
  let items := [.year, .blanks, .mark '-', .month, .blanks, .mark '-', .day, .blanks]
  (← readAll items cs).date

end Date

namespace DateTime

def ofReading (r : Reading) : Except CalendarError DateTime := do
  .ok ⟨← r.date, ← r.time⟩

def read (cs : List Char) : Except CalendarError DateTime := do
  ofReading (← readAll (dateItems ++ .mark 'T' :: timeItems) cs)

/-- Reads a stored column: a `T` right after ten bytes is the mark, else blanks are. -/
def readColumn (cs : List Char) : Except CalendarError DateTime := do
  let bytes := (String.ofList cs).toUTF8
  let mark := if bytes[10]? = some 'T'.toUInt8 then Item.mark 'T' else .blanks
  ofReading (← readAll (dateItems ++ mark :: timeItems) cs)

def readStored (cs : List Char) : Except CalendarError DateTime := do
  let items := [.year, .blanks, .mark '-', .month, .blanks, .mark '-', .day, .blanks, .mark 'T',
    .hour, .blanks, .mark ':', .minute, .blanks, .mark ':', .second, .fraction, .blanks]
  ofReading (← readAll items cs)

end DateTime

end EntityStore
