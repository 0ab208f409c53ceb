import EntityStore.Value.Basic

/-!
The text of a value as it is shown to a reader.
-/

set_option autoImplicit false

namespace EntityStore

/-- Joins texts with a separator between them. -/
def joinChars (separator : List Char) (parts : List (List Char)) : List Char :=
  separator.intercalate parts

namespace Value

mutual

def chars : Value → List Char
  | .null => "null".toList
  | .text s => s.toList
  | .int n => intDigits n.toInt
  | .long n => intDigits n.toInt
  | .float x => DecimalStyle.shown.write .single x
  | .double x => DecimalStyle.shown.write .double x
  | .bool b => (if b then "true" else "false").toList
  | .time t => t.chars
  | .date d => d.chars
  | .dateTime t => t.chars 'T'
  | .list items => '[' :: joinChars [',', ' '] (itemChars items) ++ [']']
  | .map entries => '{' :: joinChars [',', ' '] (entryChars entries) ++ ['}']

def itemChars : List Value → List (List Char)
  | [] => []
  | v :: vs => v.chars :: itemChars vs

def entryChars : List (String × Value) → List (List Char)
  | [] => []
  | (k, v) :: es => (k.toList ++ '=' :: v.chars) :: entryChars es

end

def shown (v : Value) : String :=
  String.ofList v.chars

end Value

end EntityStore
