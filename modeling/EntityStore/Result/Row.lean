import EntityStore.Schema.Basic
import EntityStore.Value.Stored

/-!
The nested rows that a query answers, as text and as JSON.
-/

set_option autoImplicit false

namespace EntityStore

/-- What a row holds under a name: a value, one related row or a list of related rows. -/
inductive Data where
  | value (v : Value)
  | one (row : List (String × Data))
  | many (rows : List (List (String × Data)))
deriving Inhabited

/-- The entries of a row in order, the row number first. -/
abbrev Row := List (String × Data)

namespace Row

/-- What stands first under a name. -/
def get? (r : Row) (name : String) : Option Data :=
  r.lookup name

def id? (r : Row) : Option Int64 :=
  match r.get? idName with
  | some (.value v) => v.asLong?
  | _ => none

def one? (r : Row) (name : String) : Option Row :=
  match r.get? name with
  | some (.one row) => some row
  | _ => none

/-- Changes what stands first under a name. -/
def modify (name : String) (f : Data → Data) : Row → Row
  | [] => []
  | (n, d) :: rest => if n = name then (n, f d) :: rest else (n, d) :: modify name f rest

/-- Replaces what stands first under a name, or adds it at the end. -/
def set (r : Row) (name : String) (d : Data) : Row :=
  if (r.get? name).isSome then r.modify name fun _ ↦ d else r ++ [(name, d)]

/-- The row that a path of single relations leads to. -/
def at? (r : Row) : List String → Option Row
  | [] => some r
  | name :: path => (r.one? name).bind fun inner ↦ at? inner path

/-- Changes the row that a path of single relations leads to, if there is one. -/
def modifyAt (f : Row → Row) : List String → Row → Row
  | [], r => f r
  | name :: path, r => r.modify name fun
    | .one inner => .one (modifyAt f path inner)
    | d => d

end Row

namespace Data

mutual

def chars : Data → List Char
  | .value v => v.chars
  | .one row => '{' :: joinChars [',', ' '] (entryChars row) ++ ['}']
  | .many rows => '[' :: joinChars [',', ' '] (rowChars rows) ++ [']']

def entryChars : List (String × Data) → List (List Char)
  | [] => []
  | (name, d) :: rest => (name.toList ++ '=' :: d.chars) :: entryChars rest

def rowChars : List (List (String × Data)) → List (List Char)
  | [] => []
  | row :: rest => ('{' :: joinChars [',', ' '] (entryChars row) ++ ['}']) :: rowChars rest

end

end Data

namespace Value

mutual

/-- A value as plain JSON: a time or date is a string, an undefined or infinite number is null. -/
def json : Value → List Char
  | .null => "null".toList
  | .text s => Json.string s.toList
  | .int n => intDigits n.toInt
  | .long n => intDigits n.toInt
  | .float x => DecimalStyle.storedSingle.write .single x
  | .double x => DecimalStyle.storedDouble.write .double x
  | .bool b => (if b then "true" else "false").toList
  | .time t => Json.string t.chars
  | .date d => Json.string d.chars
  | .dateTime t => Json.string (t.chars 'T')
  | .list items => Json.array (jsonItems items)
  | .map entries => Json.object (jsonEntries entries)

def jsonItems : List Value → List (List Char)
  | [] => []
  | v :: vs => v.json :: jsonItems vs

def jsonEntries : List (String × Value) → List (List Char)
  | [] => []
  | (k, v) :: es => Json.member k.toList v.json :: jsonEntries es

end

end Value

namespace Data

mutual

def json : Data → List Char
  | .value v => v.json
  | .one row => Json.object (jsonEntries row)
  | .many rows => Json.array (jsonRows rows)

def jsonEntries : List (String × Data) → List (List Char)
  | [] => []
  | (name, d) :: rest => Json.member name.toList d.json :: jsonEntries rest

def jsonRows : List (List (String × Data)) → List (List Char)
  | [] => []
  | row :: rest => Json.object (jsonEntries row) :: jsonRows rest

end

def text (d : Data) : String := String.ofList d.chars

def jsonText (d : Data) : String := String.ofList d.json

end Data

end EntityStore
