import EntityStore.Text.Blank

/-!
Texts between quotation marks, as messages show them: characters that cannot be seen are written by
their numbers.
-/

set_option autoImplicit false

namespace EntityStore

/-- Ranges of characters that are not seen by themselves: controls, format characters, marks that
combine with the character before, private characters and what lies beyond all scripts. Places that
a script leaves unassigned and the marks of single scripts beyond Arabic are not listed. -/
def unseenRanges : List (Nat × Nat) :=
  [(0x0, 0x1F), (0x7F, 0x9F), (0xAD, 0xAD), (0x300, 0x36F), (0x483, 0x489), (0x591, 0x5BD),
    (0x600, 0x605), (0x610, 0x61A), (0x61C, 0x61C), (0x64B, 0x65F), (0x6DD, 0x6DD), (0x70F, 0x70F),
    (0x180B, 0x180F), (0x1AB0, 0x1ACE), (0x1DC0, 0x1DFF), (0x200B, 0x200F), (0x202A, 0x202E),
    (0x2060, 0x206F), (0x20D0, 0x20F0), (0x302A, 0x302F), (0x3099, 0x309A), (0xE000, 0xF8FF),
    (0xFE00, 0xFE0F), (0xFE20, 0xFE2F), (0xFEFF, 0xFEFF), (0xFFF0, 0xFFFB), (0xFFFE, 0xFFFF),
    (0xE0000, 0x10FFFF)]

/-- A space is seen, every other blank is not. -/
def isSeen (c : Char) : Bool :=
  c == ' ' || !(isBlank c || unseenRanges.any fun (low, high) ↦ low ≤ c.toNat && c.toNat ≤ high)

/-- A character as it stands between quotation marks. -/
def quotedChar (c : Char) : List Char :=
  if c = '"' then ['\\', '"']
  else if c = '\\' then ['\\', '\\']
  else if c = '\n' then ['\\', 'n']
  else if c = '\r' then ['\\', 'r']
  else if c = '\t' then ['\\', 't']
  else if c.toNat = 0 then ['\\', '0']
  else if isSeen c then [c]
  else ['\\', 'u', '\x7b'] ++ Nat.toDigits 16 c.toNat ++ ['\x7d']

def quotedText (cs : List Char) : String :=
  String.ofList ('"' :: cs.flatMap quotedChar ++ ['"'])

end EntityStore
