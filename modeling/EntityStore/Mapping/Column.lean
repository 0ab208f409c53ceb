import EntityStore.Store.Cell
import EntityStore.Value.Reader

/-!
Values as cells of the row store, and cells read back as values of a field's type.
-/

set_option autoImplicit false

namespace EntityStore

inductive ColumnError where
  | invalidType (type : FieldType)
  | outOfRange (type : FieldType) (n : Int64)
  | calendar (type : FieldType) (e : CalendarError)
  | stored (e : StoredError)
deriving DecidableEq

namespace ColumnError

def message : ColumnError → String
  | .invalidType t => s!"reading a {t.name}: Invalid type"
  | .outOfRange t n => s!"reading a {t.name}: Value {n.toInt} out of range"
  | .calendar t e => s!"reading a {t.name}: {e.message}"
  | .stored e => e.message

end ColumnError

namespace Value

/-- The cell that a statement is given for a value. -/
def cell : Value → Cell
  | .null => .null
  | .text s => .text s
  | .int n => .integer n.toInt64
  | .long n => .integer n
  | .float x => .ofBinary (x.toLayout .double)
  | .double x => .ofBinary x
  | .bool b => .integer (if b then 1 else 0)
  | .time t => .text (String.ofList t.chars)
  | .date d => .text (String.ofList d.chars)
  | .dateTime t => .text (String.ofList (t.chars ' '))
  | .list items => .text (String.ofList (Value.list items).stored)
  | .map entries => .text (String.ofList (Value.map entries).stored)

end Value

namespace FieldType

def affinity : FieldType → Affinity
  | .int | .long | .bool => .integer
  | .float | .double => .real
  | _ => .text

/-- The value written to a column: whatever a list or map field holds is written as its stored
text. -/
def column (t : FieldType) (v : Value) : Value :=
  if v.isNull then .null
  else if t.isContainer then .text (String.ofList v.stored)
  else v

/-- Reads a cell as a value of the type; null is read as null. -/
def readCell (t : FieldType) (c : Cell) : Except ColumnError Value :=
  match t, c with
  | _, .null => .ok .null
  | .text, .text s => .ok (.text s)
  | .int, .integer n =>
    match int32? n.toInt with
    | some n => .ok (.int n)
    | none => .error (.outOfRange t n)
  | .long, .integer n => .ok (.long n)
  | .float, .integer n => .ok (.float ((Binary.ofInt .double n.toInt).toLayout .single))
  | .float, .real x => .ok (.float (x.toLayout .single))
  | .double, .integer n => .ok (.double (Binary.ofInt .double n.toInt))
  | .double, .real x => .ok (.double x)
  | .bool, .integer n => .ok (.bool (n != 0))
  | .time, .text s => match TimeOfDay.readColumn s.toList with
    | .ok a => .ok (.time a)
    | .error e => .error (.calendar t e)
  | .date, .text s => match Date.read s.toList with
    | .ok a => .ok (.date a)
    | .error e => .error (.calendar t e)
  | .dateTime, .text s => match DateTime.readColumn s.toList with
    | .ok a => .ok (.dateTime a)
    | .error e => .error (.calendar t e)
  | .list, .text s | .map, .text s => match Value.readStored s with
    | .ok v => .ok v
    | .error e => .error (.stored e)
  | _, _ => .error (.invalidType t)

end FieldType

end EntityStore
