import EntityStore.Calendar.Basic
import EntityStore.Number.Decimal
import EntityStore.Number.Word

/-!
The values that fields hold and parameters are bound to, and the types of fields.
-/

set_option autoImplicit false

namespace EntityStore

inductive FieldType where
  | text
  | int
  | long
  | float
  | double
  | bool
  | time
  | date
  | dateTime
  | list
  | map
deriving DecidableEq, Repr

namespace FieldType

def name : FieldType → String
  | .text => "text"
  | .int => "int"
  | .long => "long"
  | .float => "float"
  | .double => "double"
  | .bool => "bool"
  | .time => "time"
  | .date => "date"
  | .dateTime => "datetime"
  | .list => "list"
  | .map => "map"

/-- Lists and maps hold any nested value. -/
def isContainer : FieldType → Bool
  | .list | .map => true
  | _ => false

end FieldType

/-- The entries of a map are sorted by key and no key stands twice; `Value.ofEntries` builds them
so. -/
inductive Value where
  | null
  | text (s : String)
  | int (n : Int32)
  | long (n : Int64)
  | float (x : Binary)
  | double (x : Binary)
  | bool (b : Bool)
  | time (t : TimeOfDay)
  | date (d : Date)
  | dateTime (t : DateTime)
  | list (items : List Value)
  | map (entries : List (String × Value))
deriving Inhabited, BEq

/-- Puts an entry into a list sorted by key; a later entry replaces an earlier one of the same
key. -/
def putSorted {α : Type} (key : String) (a : α) : List (String × α) → List (String × α)
  | [] => [(key, a)]
  | (k, b) :: rest =>
    if key < k then (key, a) :: (k, b) :: rest
    else if key = k then (key, a) :: rest
    else (k, b) :: putSorted key a rest

/-- Sorts entries by key; of two with the same key the later one stays. -/
def sortEntries {α : Type} (entries : List (String × α)) : List (String × α) :=
  entries.foldl (fun sorted (k, a) ↦ putSorted k a sorted) []

namespace Value

def ofEntries (entries : List (String × Value)) : Value :=
  .map (sortEntries entries)

def isNull : Value → Bool
  | .null => true
  | _ => false

def asLong? : Value → Option Int64
  | .int n => some n.toInt64
  | .long n => some n
  | _ => none

def asText? : Value → Option String
  | .text s => some s
  | _ => none

/-- The type of a value; null has none. -/
def type? : Value → Option FieldType
  | .null => none
  | .text _ => some .text
  | .int _ => some .int
  | .long _ => some .long
  | .float _ => some .float
  | .double _ => some .double
  | .bool _ => some .bool
  | .time _ => some .time
  | .date _ => some .date
  | .dateTime _ => some .dateTime
  | .list _ => some .list
  | .map _ => some .map

/-- A value of exactly the given type. -/
def hasType (t : FieldType) (v : Value) : Bool :=
  v.type? == some t

mutual

/-- Equality of values, in which numbers are compared as numbers: an undefined one equals
nothing. -/
def same : Value → Value → Bool
  | .null, .null => true
  | .text s, .text t => s == t
  | .int m, .int n => m == n
  | .long m, .long n => m == n
  | .float x, .float y => x.sameNumber y
  | .double x, .double y => x.sameNumber y
  | .bool a, .bool b => a == b
  | .time t, .time u => t == u
  | .date d, .date e => d == e
  | .dateTime t, .dateTime u => t == u
  | .list xs, .list ys => sameItems xs ys
  | .map xs, .map ys => sameEntries xs ys
  | _, _ => false

def sameItems : List Value → List Value → Bool
  | [], [] => true
  | x :: xs, y :: ys => x.same y && sameItems xs ys
  | _, _ => false

def sameEntries : List (String × Value) → List (String × Value) → Bool
  | [], [] => true
  | (k, x) :: xs, (l, y) :: ys => k == l && x.same y && sameEntries xs ys
  | _, _ => false

end

end Value

end EntityStore
