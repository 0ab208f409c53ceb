import EntityStore.Calendar.Reader
import EntityStore.Text.Quoted
import EntityStore.Value.Stored

/-!
Reads the stored text of a container back. The reader stops at the first fault and places it by line
and column, a column being one byte; it refuses texts that nest 128 arrays and objects or more.
-/

set_option autoImplicit false

namespace EntityStore

inductive StoredFault where
  | endOfValue
  | endOfList
  | endOfObject
  | endOfString
  | expectedColon
  | expectedListEnd
  | expectedObjectEnd
  | expectedIdent
  | expectedValue
  | invalidEscape
  | invalidNumber
  | numberOutOfRange
  | controlCharacter
  | keyNotString
  | loneSurrogate
  | endOfEscape
  | trailingComma
  | trailingCharacters
  | tooDeep
  | unknownKind (name : String)
  | bareKind
  | invalidType (found expected : String)
  | invalidValue (found expected : String)
  | calendar (e : CalendarError)
deriving DecidableEq

namespace StoredFault

/-- The kinds of values, as the text of an unknown one lists them. -/
def kinds : List String :=
  ["null", "text", "int", "long", "float", "double", "bool", "time", "date",
    "datetime", "list", "map"]

def quoted (s : String) : String :=
  "\x60" ++ s ++ "\x60"

def message : StoredFault → String
  | .endOfValue => "EOF while parsing a value"
  | .endOfList => "EOF while parsing a list"
  | .endOfObject => "EOF while parsing an object"
  | .endOfString => "EOF while parsing a string"
  | .expectedColon => "expected " ++ quoted ":"
  | .expectedListEnd => "expected " ++ quoted "," ++ " or " ++ quoted "]"
  | .expectedObjectEnd => "expected " ++ quoted "," ++ " or " ++ quoted "\x7d"
  | .expectedIdent => "expected ident"
  | .expectedValue => "expected value"
  | .invalidEscape => "invalid escape"
  | .invalidNumber => "invalid number"
  | .numberOutOfRange => "number out of range"
  | .controlCharacter => "control character (\\u0000-\\u001F) found while parsing a string"
  | .keyNotString => "key must be a string"
  | .loneSurrogate => "lone leading surrogate in hex escape"
  | .endOfEscape => "unexpected end of hex escape"
  | .trailingComma => "trailing comma"
  | .trailingCharacters => "trailing characters"
  | .tooDeep => "recursion limit exceeded"
  | .unknownKind name =>
    "unknown variant " ++ quoted name ++ ", expected one of " ++ ", ".intercalate (kinds.map quoted)
  | .bareKind => "invalid type: unit variant, expected newtype variant"
  | .invalidType found expected => s!"invalid type: {found}, expected {expected}"
  | .invalidValue found expected => s!"invalid value: {found}, expected {expected}"
  | .calendar e => e.message

end StoredFault

structure StoredError where
  fault : StoredFault
  place : Option (Nat × Nat)
deriving DecidableEq

def StoredError.message (e : StoredError) : String :=
  match e.place with
  | some (line, column) => s!"{e.fault.message} at line {line} column {column}"
  | none => e.fault.message

namespace Stored

structure Cursor where
  line : Nat
  column : Nat
  rest : List Char

def Cursor.after (c : Cursor) (d : Char) (rest : List Char) : Cursor :=
  if d = '\n' then ⟨c.line + 1, 0, rest⟩ else ⟨c.line, c.column + d.utf8Size, rest⟩

abbrev Reader := StateT Cursor (Except StoredError)

/-- Fails at the last character read. -/
def fail {α : Type} (fault : StoredFault) : Reader α :=
  fun c ↦ .error ⟨fault, some (c.line, c.column)⟩

/-- Fails at the first byte of the next character. -/
def failNext {α : Type} (fault : StoredFault) : Reader α :=
  fun c ↦ match c.rest with
    | [] => .error ⟨fault, some (c.line, c.column)⟩
    | '\n' :: _ => .error ⟨fault, some (c.line + 1, 0)⟩
    | _ :: _ => .error ⟨fault, some (c.line, c.column + 1)⟩

def peek : Reader (Option Char) :=
  fun c ↦ .ok (c.rest.head?, c)

def next : Reader (Option Char) :=
  fun c ↦ match c.rest with
    | [] => .ok (none, c)
    | d :: rest => .ok (some d, c.after d rest)

def remaining : Reader Nat :=
  fun c ↦ .ok (c.rest.length, c)

def isSpace (c : Char) : Bool :=
  c == ' ' || c == '\n' || c == '\t' || c == '\r'

/-- Reads the characters of a class, as many as there are. -/
def takeWhile (p : Char → Bool) : Reader (List Char) :=
  fun c ↦
    let taken := c.rest.takeWhile p
    .ok (taken, taken.foldl (fun c d ↦ c.after d (c.rest.drop 1)) c)

/-- Skips spaces and shows the next character. -/
def peekToken : Reader (Option Char) := do
  let _ ← takeWhile isSpace
  peek

/-- Reads the rest of a word such as `true`, its first letter being known. -/
def word : List Char → Reader Unit
  | [] => pure ()
  | c :: cs => do
    match ← peek with
    | none => fail .endOfValue
    | some d =>
      if c = d then
        let _ ← next
        word cs
      else failNext .expectedIdent

def hexValue? (c : Char) : Option Nat :=
  if c.isDigit then some (c.toNat - '0'.toNat)
  else if 'a' ≤ c && c ≤ 'f' then some (c.toNat - 'a'.toNat + 10)
  else if 'A' ≤ c && c ≤ 'F' then some (c.toNat - 'A'.toNat + 10)
  else none

/-- Line and column after a number of bytes of a text, or at its end. -/
def placeAfter (line column : Nat) : Nat → List Char → Nat × Nat
  | 0, _ => (line, column)
  | _, [] => (line, column)
  | n, c :: cs =>
    if c = '\n' then placeAfter (line + 1) 0 (n - 1) cs
    else if c.utf8Size ≤ n then placeAfter line (column + c.utf8Size) (n - c.utf8Size) cs
    else (line, column + n)

/-- A number of four digits; its place is four bytes long, whatever stands in it. -/
def hexEscape : Reader Nat :=
  fun c ↦ match (c.rest.take 4).mapM hexValue? with
    | some [h, i, j, k] =>
      .ok (((h * 16 + i) * 16 + j) * 16 + k, ⟨c.line, c.column + 4, c.rest.drop 4⟩)
    | _ =>
      let fault := if (String.ofList c.rest).utf8ByteSize < 4 then .endOfString else .invalidEscape
      .error ⟨fault, some (placeAfter c.line c.column 4 c.rest)⟩

/-- The character that has to follow within an escape. -/
def escapePart (d : Char) : Reader Unit := do
  match ← peek with
  | none => fail .endOfString
  | some c =>
    if c = d then
      let _ ← next
      pure ()
    else failNext .endOfEscape

/-- A character given by its number; two halves of a pair stand for one character. -/
def unicodeEscape : Reader Char := do
  let n ← hexEscape
  if 0xDC00 ≤ n ∧ n < 0xE000 then fail .loneSurrogate
  else if 0xD800 ≤ n ∧ n < 0xDC00 then
    escapePart '\\'
    escapePart 'u'
    let low ← hexEscape
    if 0xDC00 ≤ low ∧ low < 0xE000 then
      pure (Char.ofNat (0x10000 + (n - 0xD800) * 0x400 + (low - 0xDC00)))
    else fail .loneSurrogate
  else pure (Char.ofNat n)

/-- What a letter after a backslash stands for. -/
def escapeLetter? : Char → Option Char
  | '"' => some '"'
  | '\\' => some '\\'
  | '/' => some '/'
  | 'b' => some '\x08'
  | 'f' => some '\x0c'
  | 'n' => some '\n'
  | 'r' => some '\r'
  | 't' => some '\t'
  | _ => none

def escaped : Reader Char := do
  match ← peek with
  | none => fail .endOfString
  | some 'u' => let _ ← next; unicodeEscape
  | some c => match escapeLetter? c with
    | some d => let _ ← next; pure d
    | none => failNext .invalidEscape

/-- The characters up to the closing quote; the number bounds how many there can be. -/
def stringRest : Nat → Reader (List Char)
  | 0 => fail .endOfString
  | k + 1 => do
    match ← next with
    | none => fail .endOfString
    | some '"' => pure []
    | some '\\' =>
      let c ← escaped
      let cs ← stringRest k
      pure (c :: cs)
    | some c =>
      if c.toNat < 0x20 then fail .controlCharacter
      else
        let cs ← stringRest k
        pure (c :: cs)

/-- A string whose opening quote is the next character. -/
def quotedString : Reader (List Char) := do
  let _ ← next
  stringRest ((← remaining) + 1)

inductive Number where
  | natural (n : Nat)
  | negative (n : Int)
  | decimal (x : Binary)

def Number.describe : Number → String
  | .natural n => "integer " ++ StoredFault.quoted (toString n)
  | .negative n => "integer " ++ StoredFault.quoted (toString n)
  | .decimal x =>
    "floating point " ++
      StoredFault.quoted (String.ofList (DecimalStyle.storedDouble.write .double x))

/-- The digits that fit into 64 bits; all further ones are dropped and counted. -/
def significand (n : Nat) : List Char → Nat × Nat
  | [] => (n, 0)
  | c :: cs =>
    let more := n * 10 + digitsValue [c]
    if more < UInt64.size then significand more cs else (n, cs.length + 1)

/-- A significand times a power of ten, rounded once when it is read and once for every factor. -/
def scaled (x : Binary) : Nat → Int → Option Binary
  | 0, _ => some x
  | k + 1, e =>
    if x.sameNumber (Binary.zero .double false) then some x
    else if e.natAbs ≤ 308 then
      let power := Binary.ofDecimal .double false 1 e.natAbs
      let y := if e ≥ 0 then x.mul .double power else x.div .double power
      if y.isFinite then some y else none
    else if e ≥ 0 then none
    else scaled (x.div .double (Binary.ofDecimal .double false 1 308)) k (e + 308)

def decimalOf (negative : Bool) (n : Nat) (e : Int) : Reader Number := do
  match scaled (Binary.ofInt .double n) (e.natAbs / 308 + 1) e with
  | some x => pure (.decimal (if negative then x.mul .double (Binary.ofInt .double (-1)) else x))
  | none => fail .numberOutOfRange

/-- Reads the digits of an exponent until none is left or their number is too large for 32 bits. -/
def exponentDigits : Nat → Nat → Reader Nat
  | 0, power => pure power
  | k + 1, power => do
    match ← peek with
    | some c =>
      if c.isDigit && power ≤ Int32.maxValue.toInt then
        let _ ← next
        exponentDigits k (power * 10 + digitsValue [c])
      else pure power
    | none => pure power

def exponentPart (negative : Bool) (n : Nat) (start : Int) : Reader Number := do
  let _ ← next
  let minus ← match ← peek with
    | some '+' => do let _ ← next; pure false
    | some '-' => do let _ ← next; pure true
    | _ => pure false
  match ← peek with
  | none => fail .endOfValue
  | some c =>
    if !c.isDigit then failNext .invalidNumber
    else
      let power ← exponentDigits (← remaining) 0
      if Int32.maxValue.toInt < power then
        if n ≠ 0 && !minus then fail .numberOutOfRange
        else
          let _ ← takeWhile Char.isDigit
          decimalOf negative 0 0
      else decimalOf negative n (start + if minus then -(power : Int) else power)

def fractionPart (negative : Bool) (n : Nat) (dropped : Nat) : Reader Number := do
  let _ ← next
  let digits ← takeWhile Char.isDigit
  if digits.isEmpty then
    match ← peek with
    | none => failNext .endOfValue
    | some _ => failNext .invalidNumber
  else
    let (m, left) := significand n digits
    let start : Int := (dropped : Int) - ((digits.length - left : Nat) : Int)
    match ← peek with
    | some 'e' | some 'E' => exponentPart negative m start
    | _ => decimalOf negative m start

/-- A number whose sign has been read. -/
def number (negative : Bool) : Reader Number := do
  match ← peek with
  | none => fail .endOfValue
  | some c =>
    if !c.isDigit then failNext .invalidNumber
    else
      let digits ← if c = '0' then (do let _ ← next; pure ['0']) else takeWhile Char.isDigit
      match ← peek with
      | some d =>
        if c = '0' && d.isDigit then failNext .invalidNumber
      | none => pure ()
      let (n, dropped) := significand 0 digits
      match ← peek with
      | some '.' => fractionPart negative n dropped
      | some 'e' | some 'E' => exponentPart negative n dropped
      | _ =>
        if dropped ≠ 0 then decimalOf negative n dropped
        else if !negative then pure (.natural n)
        else if n = 0 || (int64? (-(n : Int))).isNone then decimalOf true n 0
        else pure (.negative (-(n : Int)))

def signedNumber : Reader Number := do
  match ← peek with
  | some '-' => do let _ ← next; number true
  | _ => number false

/-- Fails because the next value is of another kind than expected. -/
def failType {α : Type} (expected : String) : Reader α := do
  match ← peekToken with
  | none => failNext .endOfValue
  | some 'n' => let _ ← next; word ['u', 'l', 'l']; fail (.invalidType "null" expected)
  | some 't' =>
    let _ ← next; word ['r', 'u', 'e']
    fail (.invalidType ("boolean " ++ StoredFault.quoted "true") expected)
  | some 'f' =>
    let _ ← next; word ['a', 'l', 's', 'e']
    fail (.invalidType ("boolean " ++ StoredFault.quoted "false") expected)
  | some '"' =>
    let cs ← quotedString
    fail (.invalidType ("string " ++ quotedText cs) expected)
  | some '[' => fail (.invalidType "sequence" expected)
  | some '{' => fail (.invalidType "map" expected)
  | some c =>
    if c = '-' || c.isDigit then
      let n ← signedNumber
      fail (.invalidType n.describe expected)
    else failNext .expectedValue

def stringValue (expected : String) : Reader (List Char) := do
  match ← peekToken with
  | some '"' => quotedString
  | _ => failType expected

def numberValue (expected : String) : Reader Number := do
  match ← peekToken with
  | some c => if c = '-' || c.isDigit then signedNumber else failType expected
  | none => failType expected

/-- An integer that is a word. -/
def integerValue {α : Type} (word? : Int → Option α) (expected : String) : Reader α := do
  let found ← numberValue expected
  let n : Int ← match found with
    | .natural n => pure (n : Int)
    | .negative n => pure n
    | .decimal _ => fail (.invalidType found.describe expected)
  match word? n with
  | some n => pure n
  | none => fail (.invalidValue found.describe expected)

def decimalValue (layout : Layout) (expected : String) : Reader Binary := do
  match ← numberValue expected with
  | .natural n => pure (Binary.ofInt layout n)
  | .negative n => pure (Binary.ofInt layout n)
  | .decimal x => pure (x.toLayout layout)

def boolValue : Reader Bool := do
  match ← peekToken with
  | some 't' => let _ ← next; word ['r', 'u', 'e']; pure true
  | some 'f' => let _ ← next; word ['a', 'l', 's', 'e']; pure false
  | _ => failType "a boolean"

def calendarValue {α : Type} (read : List Char → Except CalendarError α)
    (expected : String) : Reader α := do
  match read (← stringValue expected) with
  | .ok a => pure a
  | .error e => fail (.calendar e)

def colon : Reader Unit := do
  match ← peekToken with
  | some ':' => let _ ← next; pure ()
  | some _ => failNext .expectedColon
  | none => failNext .endOfObject

/-- The elements of an array up to its closing bracket; the number bounds how many there can be. -/
def elements (item : Reader Value) : Nat → Bool → Reader (List Value)
  | 0, _ => failNext .endOfList
  | k + 1, first => do
    let element : Reader (List Value) := do
      let v ← item
      let vs ← elements item k false
      pure (v :: vs)
    match ← peekToken with
    | none => failNext .endOfList
    | some ']' => let _ ← next; pure []
    | some c =>
      if first then element
      else if c = ',' then
        let _ ← next
        match ← peekToken with
        | some ']' => failNext .trailingComma
        | some _ => element
        | none => failNext .endOfValue
      else failNext .expectedListEnd

/-- The members of an object up to its closing brace. -/
def members (item : Reader Value) : Nat → Bool → Reader (List (String × Value))
  | 0, _ => failNext .endOfObject
  | k + 1, first => do
    let entry : Reader (List (String × Value)) := do
      let key ← quotedString
      colon
      let v ← item
      let rest ← members item k false
      pure ((String.ofList key, v) :: rest)
    match ← peekToken with
    | none => failNext .endOfObject
    | some '}' => let _ ← next; pure []
    | some c =>
      if first then (if c = '"' then entry else failNext .keyNotString)
      else if c = ',' then
        let _ ← next
        match ← peekToken with
        | some '"' => entry
        | some '}' => failNext .trailingComma
        | some _ => failNext .keyNotString
        | none => failNext .endOfValue
      else failNext .expectedObjectEnd

/-- The name of a kind of values. -/
def kind : Reader String := do
  let name := String.ofList (← stringValue "variant identifier")
  if name ∈ StoredFault.kinds then pure name else fail (.unknownKind name)

def nullValue : Reader Unit := do
  match ← peekToken with
  | some 'n' => let _ ← next; word ['u', 'l', 'l']
  | _ => failType "unit"

/-- A kind without a content inside an array: the fault is placed after the end of the array, as far
as it follows. -/
def bareInArray : Reader Value := do
  match ← peekToken with
  | some ']' => let _ ← next
  | some ',' =>
    let _ ← next
    let _ ← peekToken
  | _ => pure ()
  fail .bareKind

/-- A kind without a content inside an object. -/
def bareInObject : Reader Value := do
  match ← peekToken with
  | some '}' => let _ ← next
  | _ => pure ()
  fail .bareKind

/-- A kind without a content that nothing encloses; its fault has no place. -/
def bareAlone : Reader Value :=
  fun _ ↦ .error ⟨.bareKind, none⟩

/-- The content of a tagged value; `item` reads nested values unless they would lie too deep. -/
def content (item : Option (Reader Value → Reader Value)) : String → Reader Value
  | "null" => do nullValue; pure .null
  | "text" => do pure (.text (String.ofList (← stringValue "a string")))
  | "int" => do pure (.int (← integerValue int32? "i32"))
  | "long" => do pure (.long (← integerValue int64? "i64"))
  | "float" => do pure (.float (← decimalValue .single "f32"))
  | "double" => do pure (.double (← decimalValue .double "f64"))
  | "bool" => do pure (.bool (← boolValue))
  | "time" => do pure (.time (← calendarValue TimeOfDay.readStored "a formatted time string"))
  | "date" => do pure (.date (← calendarValue Date.readStored "a formatted date string"))
  | "datetime" => do
    pure (.dateTime (← calendarValue DateTime.readStored "a formatted date and time string"))
  | "list" => do
    match ← peekToken with
    | some '[' => match item with
      | none => failNext .tooDeep
      | some item =>
        let _ ← next
        pure (.list (← elements (item bareInArray) ((← remaining) + 1) true))
    | _ => failType "a sequence"
  | _ => do
    match ← peekToken with
    | some '{' => match item with
      | none => failNext .tooDeep
      | some item =>
        let _ ← next
        pure (.ofEntries (← members (item bareInObject) ((← remaining) + 1) true))
    | _ => failType "a map"

/-- A value; `inside` reads the content of an object unless it would lie too deep, `bare` tells what
becomes of a kind other than null that has no content. -/
def tagged (inside : Option (String → Reader Value)) (bare : Reader Value) : Reader Value := do
  match ← peekToken with
  | none => failNext .endOfValue
  | some '"' =>
    let name ← kind
    if name = "null" then pure .null else bare
  | some '{' => match inside with
    | none => failNext .tooDeep
    | some inside =>
      let _ ← next
      let name ← kind
      colon
      let v ← inside name
      match ← peekToken with
      | some '}' => let _ ← next; pure v
      | some _ => fail .expectedValue
      | none => fail .endOfObject
  | some _ => failNext .expectedValue

/-- Reads a value in which a given number of arrays and objects may still be opened inside one
another. -/
def value : Nat → Reader Value → Reader Value
  | 0 => tagged none
  | 1 => tagged (some (content none))
  | depth + 2 => tagged (some (content (some (value depth))))

def document : Reader Value := do
  let v ← value 127 bareAlone
  match ← peekToken with
  | none => pure v
  | some _ => failNext .trailingCharacters

end Stored

def Value.readStored (text : String) : Except StoredError Value :=
  match Stored.document ⟨1, 0, text.toList⟩ with
  | .ok (v, _) => .ok v
  | .error e => .error e

end EntityStore
