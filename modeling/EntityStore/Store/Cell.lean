import EntityStore.Number.Decimal
import EntityStore.Number.Word

/-!
The cells of stored rows, their order, and the conversions that the declared type of a column makes.
-/

set_option autoImplicit false

namespace EntityStore

inductive Cell where
  | null
  | integer (n : Int64)
  | real (x : Binary)
  | text (s : String)
  | blob (bytes : List UInt8)
deriving DecidableEq, Inhabited

/-- The declared type of a column. -/
inductive Affinity where
  | integer
  | real
  | text
deriving DecidableEq

namespace Affinity

def name : Affinity → String
  | .integer => "integer"
  | .real => "real"
  | .text => "text"

end Affinity

namespace Cell

def typeName : Cell → String
  | .null => "Null"
  | .integer _ => "Integer"
  | .real _ => "Real"
  | .text _ => "Text"
  | .blob _ => "Blob"

/-- A real cell; an undefined number is stored as null. -/
def ofBinary (x : Binary) : Cell :=
  if x.isNaN then .null else .real x

def ofInt? (n : Int) : Option Cell :=
  (int64? n).map .integer

/-- Null comes first, then numbers, texts and blobs. -/
def rank : Cell → Nat
  | .null => 0
  | .integer _ => 1
  | .real _ => 1
  | .text _ => 2
  | .blob _ => 3

/-- The order of sorting: numbers by size, texts and blobs by their bytes. -/
def order (a b : Cell) : Ordering :=
  match a, b with
  | .integer m, .integer n => compare m.toInt n.toInt
  | .integer m, .real y => (Binary.finite (m.toInt < 0) m.toInt.natAbs 0).order y
  | .real x, .integer n => x.order (Binary.finite (n.toInt < 0) n.toInt.natAbs 0)
  | .real x, .real y => x.order y
  | .text s, .text t => compare s t
  | .blob s, .blob t => compare s t
  | a, b => compare a.rank b.rank

/-- Whether a comparison of two cells holds; with null it is unknown. -/
def compare? (a b : Cell) : Option Ordering :=
  match a, b with
  | .null, _ => none
  | _, .null => none
  | a, b => some (a.order b)

def isAsciiSpace (c : Char) : Bool :=
  c == ' ' || ('\t' ≤ c && c ≤ '\r')

/-- The number a text spells, with blanks around it and a sign in front. -/
def numberOf? (s : String) : Option Cell :=
  let trimmed := (s.toList.dropWhile isAsciiSpace).reverse.dropWhile isAsciiSpace |>.reverse
  let (negative, cs) := match trimmed with
    | '-' :: cs => (true, cs)
    | '+' :: cs => (false, cs)
    | cs => (false, cs)
  let whole := if cs.all Char.isDigit && !cs.isEmpty then
      let n : Int := digitsValue cs
      ofInt? (if negative then -n else n)
    else none
  whole <|> (Binary.ofNumeral? .double negative cs).map .real

/-- A real without fraction as an integer, where it is one of 64 bits. -/
def wholeReal (x : Binary) : Cell :=
  match x.toInt? with
  | some n =>
    if Int64.minValue.toInt < n ∧ n < Int64.maxValue.toInt then
      .integer (Int64.ofInt n) else .real x
  | none => .real x

/-- The text of a real in a text column: fifteen digits. Zero has no sign. -/
def realText (x : Binary) : String :=
  match x with
  | .nan => ""
  | .infinite s => if s then "-Inf" else "Inf"
  | .finite s m q =>
    let (n, d) := scaleTwo m q
    let lead := if m = 0 then 0 else Decimal.leadingExponent n d
    let (stepNum, stepDen) := scaleTen 1 (lead - 14)
    let rounded := Decimal.trim ⟨roundHalfEven (n * stepDen) (d * stepNum), lead - 14⟩
    let digits := natDigits rounded.coefficient
    let lead := rounded.exponent + digits.length - 1
    let text :=
      if -4 ≤ lead ∧ lead ≤ 14 then DecimalStyle.layPositional true digits rounded.exponent
      else
        let fraction := if digits.length > 1 then digits.drop 1 else ['0']
        digits.take 1 ++ '.' :: fraction ++ 'e' :: (if lead < 0 then '-' else '+') ::
          paddedDigits 2 lead.natAbs
    String.ofList (if s && m ≠ 0 then '-' :: text else text)

/-- What a column of a type stores for a cell. A real column has one zero. -/
def stored (affinity : Affinity) (c : Cell) : Cell :=
  match affinity, c with
  | .integer, .text s => match numberOf? s with
    | some (.real x) => wholeReal x
    | some n => n
    | none => c
  | .integer, .real x => wholeReal x
  | .real, .integer n => .real (Binary.ofInt .double n.toInt)
  | .real, .real x => .real x.plainZero
  | .real, .text s => match numberOf? s with
    | some (.integer n) => .real (Binary.ofInt .double n.toInt)
    | some (.real x) => .real x.plainZero
    | _ => c
  | .text, .integer n => .text (String.ofList (intDigits n.toInt))
  | .text, .real x => .text (realText x)
  | _, c => c

/-- What a cell without a declared type is compared as with a column of a type. -/
def compared (affinity : Affinity) (c : Cell) : Cell :=
  match affinity, c with
  | .text, .integer n => .text (String.ofList (intDigits n.toInt))
  | .text, .real x => .text (realText x)
  | .text, c => c
  | _, .text s => (numberOf? s).getD c
  | _, c => c

end Cell

end EntityStore
