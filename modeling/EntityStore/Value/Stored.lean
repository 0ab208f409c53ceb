import EntityStore.Value.Text

/-!
The stored text of a value inside a list or map column: JSON in which every value but null is an
object of one member, named by its type.
-/

set_option autoImplicit false

namespace EntityStore

namespace Json

def hexPair (n : Nat) : List Char :=
  [Nat.digitChar (n / 16), Nat.digitChar (n % 16)]

def escape (c : Char) : List Char :=
  if c = '"' then ['\\', '"']
  else if c = '\\' then ['\\', '\\']
  else if c = '\x08' then ['\\', 'b']
  else if c = '\x0c' then ['\\', 'f']
  else if c = '\n' then ['\\', 'n']
  else if c = '\r' then ['\\', 'r']
  else if c = '\t' then ['\\', 't']
  else if c.toNat < 0x20 then ['\\', 'u', '0', '0'] ++ hexPair c.toNat
  else [c]

def string (cs : List Char) : List Char :=
  '"' :: cs.flatMap escape ++ ['"']

def object (members : List (List Char)) : List Char :=
  '{' :: joinChars [','] members ++ ['}']

def array (items : List (List Char)) : List Char :=
  '[' :: joinChars [','] items ++ [']']

def member (name : List Char) (value : List Char) : List Char :=
  string name ++ ':' :: value

end Json

namespace Value

/-- The name of a value's kind. -/
def tag (v : Value) : String :=
  match v.type? with
  | some t => t.name
  | none => "null"

def tagged (v : Value) (content : List Char) : List Char :=
  Json.object [Json.member v.tag.toList content]

mutual

def stored : Value → List Char
  | .null => Json.string "null".toList
  | .text s => tagged (.text s) (Json.string s.toList)
  | .int n => tagged (.int n) (intDigits n.toInt)
  | .long n => tagged (.long n) (intDigits n.toInt)
  | .float x => tagged (.float x) (DecimalStyle.storedSingle.write .single x)
  | .double x => tagged (.double x) (DecimalStyle.storedDouble.write .double x)
  | .bool b => tagged (.bool b) (if b then "true" else "false").toList
  | .time t => tagged (.time t) (Json.string t.chars)
  | .date d => tagged (.date d) (Json.string d.chars)
  | .dateTime t => tagged (.dateTime t) (Json.string (t.chars 'T'))
  | .list items => tagged (.list []) (Json.array (storedItems items))
  | .map entries => tagged (.map []) (Json.object (storedEntries entries))

def storedItems : List Value → List (List Char)
  | [] => []
  | v :: vs => v.stored :: storedItems vs

def storedEntries : List (String × Value) → List (List Char)
  | [] => []
  | (k, v) :: es => Json.member k.toList v.stored :: storedEntries es

end

end Value

end EntityStore
