import EntityStore.Calendar.Reader
import EntityStore.Language.Grammar
import EntityStore.Value.Basic

/-!
Reads the texts of the data language into syntax trees over values. A text outside the grammar is
refused at the furthest place a rule was tried; a literal outside its range where it starts.
-/

set_option autoImplicit false

namespace EntityStore.Language

inductive SyntaxFault where
  | expected (rules : List Rule)
  | integerRange (text : String)
  | invalidTime (text : String)
  | invalidDate (text : String)
  | invalidDateTime (text : String)
deriving DecidableEq

structure SyntaxError where
  fault : SyntaxFault
  line : Nat
  column : Nat
deriving DecidableEq

namespace SyntaxFault

/-- Sorted in the order of the grammar, without repetition. -/
def sortRules (rules : List Rule) : List Rule :=
  ((rules.mergeSort fun a b ↦ a.ctorIdx ≤ b.ctorIdx)).eraseDups

def enumerate : List String → String
  | [] => ""
  | [a] => a
  | [a, b] => s!"{a} or {b}"
  | names => ", ".intercalate names.dropLast ++ ", or " ++ names.getLastD ""

def message : SyntaxFault → String
  | .expected [] => "unknown parsing error"
  | .expected rules => s!"expected {enumerate (rules.map Rule.label)}"
  | .integerRange text => s!"integer '{text}' out of range"
  | .invalidTime text => s!"invalid time '{text}'"
  | .invalidDate text => s!"invalid date '{text}'"
  | .invalidDateTime text => s!"invalid datetime '{text}'"

end SyntaxFault

def SyntaxError.message (e : SyntaxError) : String :=
  s!"{e.fault.message} at {e.line}:{e.column}"

/-- Line and column, from 1, of the place after a number of characters. -/
def lineColumn (text : List Char) (offset : Nat) : Nat × Nat :=
  let before := text.take offset
  let lastLine := before.reverse.takeWhile (· != '\n')
  (before.count '\n' + 1, lastLine.length + 1)

def SyntaxError.at (text : List Char) (offset : Nat) (fault : SyntaxFault) : SyntaxError :=
  let (line, column) := lineColumn text offset
  ⟨fault, line, column⟩

/-- Replaces every backslash and the character after it by the character they stand for. -/
def unescape : List Char → List Char
  | '\\' :: 'n' :: cs => '\n' :: unescape cs
  | '\\' :: 'r' :: cs => '\r' :: unescape cs
  | '\\' :: 't' :: cs => '\t' :: unescape cs
  | '\\' :: c :: cs => c :: unescape cs
  | ['\\'] => []
  | c :: cs => c :: unescape cs
  | [] => []

namespace Token

/-- The integer that a token spells, if it has 64 bits. -/
def value? (cs : List Char) : Option Int64 :=
  let n : Int := match cs with
    | '-' :: cs => -(digitsValue cs)
    | cs => digitsValue cs
  int64? n

def integer (text : List Char) (t : Token) : Except SyntaxError Int64 :=
  match value? t.chars with
  | some n => .ok n
  | none => .error (.at text t.offset (.integerRange (String.ofList t.chars)))

def calendar {α : Type} (text : List Char) (t : Token) (read : List Char → Except CalendarError α)
    (fault : String → SyntaxFault) : Except SyntaxError α :=
  match read (t.chars.drop 1) with
  | .ok a => .ok a
  | .error _ => .error (.at text t.offset (fault (String.ofList t.chars)))

def value (text : List Char) (t : Token) : Except SyntaxError Value :=
  match t.kind with
  | .null => .ok .null
  | .boolean => .ok (.bool (t.chars == "true".toList))
  | .integer => (t.integer text).map .long
  | .float => .ok (.double ((Binary.ofText? .double (String.ofList t.chars)).getD .nan))
  | .text => .ok (.text (String.ofList (unescape t.chars)))
  | .time => (t.calendar text TimeOfDay.read .invalidTime).map .time
  | .date => (t.calendar text Date.read .invalidDate).map .date
  | .dateTime => (t.calendar text DateTime.read .invalidDateTime).map .dateTime

end Token

section Resolve

variable {α β ε : Type} (f : α → Except ε β)

mutual

/-- Replaces every literal, the first fault in the order of the text winning. -/
def Node.resolve : Node α → Except ε (Node β)
  | .literal a => (f a).map .literal
  | .param name => .ok (.param name)
  | .list items => (resolveItems items).map .list
  | .object entries => (resolveEntries entries).map .object

def Node.resolveItems : List (Node α) → Except ε (List (Node β))
  | [] => .ok []
  | n :: ns => do
    let n ← n.resolve
    let ns ← resolveItems ns
    pure (n :: ns)

def Node.resolveEntries : List (String × Node α) → Except ε (List (String × Node β))
  | [] => .ok []
  | (key, n) :: es => do
    let n ← n.resolve
    let es ← resolveEntries es
    pure ((key, n) :: es)

end

def UpdateEntry.resolve : UpdateEntry α → Except ε (UpdateEntry β)
  | .set n => (n.resolve f).map .set
  | .link op n => (n.resolve f).map (.link op)

def Target.resolve : Target α → Except ε (Target β)
  | .id n => (f n).map .id
  | .param name => .ok (.param name)

def Bound.resolve : Bound α → Except ε (Bound β)
  | .literal n => (f n).map .literal
  | .param name => .ok (.param name)

def resolveOption {γ δ : Type} (g : γ → Except ε δ) : Option γ → Except ε (Option δ)
  | none => .ok none
  | some c => (g c).map some

def Expr.resolve : Expr α → Except ε (Expr β)
  | .and l r => do pure (.and (← l.resolve) (← r.resolve))
  | .or l r => do pure (.or (← l.resolve) (← r.resolve))
  | .predicate path comparator operand =>
    (operand.resolve f).map (.predicate path comparator)

end Resolve

section ResolveLevel

variable {α β ι κ ε : Type} (f : α → Except ε β) (g : ι → Except ε κ)

mutual

def Item.resolve : Item α ι → Except ε (Item β κ)
  | .all => .ok .all
  | .field name none => .ok (.field name none)
  | .field name (some (direction, n)) => do pure (.field name (some (direction, ← g n)))
  | .relation name filter limit page items => do
    let filter ← resolveOption (Expr.resolve f) filter
    let limit ← resolveOption (Bound.resolve g) limit
    let page ← resolveOption (Bound.resolve g) page
    let items ← resolveItems items
    pure (.relation name filter limit page items)

def Item.resolveItems : List (Item α ι) → Except ε (List (Item β κ))
  | [] => .ok []
  | i :: is => do
    let i ← i.resolve
    let is ← resolveItems is
    pure (i :: is)

end

def Level.resolve (l : Level α ι) : Except ε (Level β κ) := do
  let filter ← resolveOption (Expr.resolve f) l.filter
  let limit ← resolveOption (Bound.resolve g) l.limit
  let page ← resolveOption (Bound.resolve g) l.page
  let items ← Item.resolveItems f g l.items
  pure ⟨filter, limit, page, items⟩

end ResolveLevel

/-- Runs a rule of the grammar; nothing nests deeper than the text is long. -/
def parse {α : Type} (rule : Nat → Parser α) (text : List Char) : Except SyntaxError α :=
  match (rule (text.length + 1)).run text with
  | .ok x => .ok x
  | .error a => .error (.at text a.place (.expected (SyntaxFault.sortRules a.rules)))

def readCreate (text : String) : Except SyntaxError (CreateForm Value) := do
  let cs := text.toList
  let form ← parse Grammar.create cs
  let body ← Node.resolveEntries (Token.value cs) form.body
  pure ⟨form.entity, body⟩

/-- The literals of the body are read before the one of the target. -/
def readUpdate (text : String) : Except SyntaxError (UpdateForm Value Int64) := do
  let cs := text.toList
  let form ← parse Grammar.update cs
  let body ← form.body.mapM fun (key, entry) ↦ do
    pure (key, ← entry.resolve (Token.value cs))
  let target ← form.target.resolve (Token.integer cs)
  pure ⟨form.entity, target, body⟩

def readDelete (text : String) : Except SyntaxError (DeleteForm Int64) := do
  let cs := text.toList
  let form ← parse (fun _ ↦ Grammar.delete) cs
  let target ← form.target.resolve (Token.integer cs)
  pure ⟨form.entity, target⟩

def readQuery (text : String) : Except SyntaxError (QueryForm Value Int64) := do
  let cs := text.toList
  let form ← parse Grammar.query cs
  let body ← form.body.resolve (Token.value cs) (Token.integer cs)
  pure ⟨form.entity, body⟩

end EntityStore.Language
