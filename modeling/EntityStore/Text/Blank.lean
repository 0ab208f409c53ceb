/-!
The blank characters of Unicode (its property `White_Space`) and the words of a text between them.
-/

set_option autoImplicit false

namespace EntityStore

/-- The ranges of the property `White_Space`. -/
def blankRanges : List (Nat × Nat) :=
  [(0x9, 0xD), (0x20, 0x20), (0x85, 0x85), (0xA0, 0xA0), (0x1680, 0x1680), (0x2000, 0x200A),
    (0x2028, 0x2029), (0x202F, 0x202F), (0x205F, 0x205F), (0x3000, 0x3000)]

def isBlank (c : Char) : Bool :=
  blankRanges.any fun (low, high) ↦ low ≤ c.toNat && c.toNat ≤ high

def skipBlanks (cs : List Char) : List Char :=
  cs.dropWhile isBlank

/-- The runs of characters that are not blank. -/
def words (cs : List Char) : List (List Char) :=
  (cs.splitBy fun c d ↦ isBlank c == isBlank d).filter fun run ↦ !run.all isBlank

/-- The text with every run of blanks made one space and none at its ends. -/
def collapseBlanks (text : String) : String :=
  String.ofList ([' '].intercalate (words text.toList))

end EntityStore
