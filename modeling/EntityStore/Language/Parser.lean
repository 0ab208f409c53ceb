/-!
Parsers with ordered choice. A parser works on the rest of the text and on a record of the rules
that were tried at the furthest place any rule was tried; the record outlives failures, and is what
a failure reports.
-/

set_option autoImplicit false

namespace EntityStore.Language

/-- The rules of the grammar, in its order, after the end of the text. -/
inductive Rule where
  | endOfText
  | name
  | ident
  | null
  | boolean
  | float
  | integer
  | text
  | dateTime
  | date
  | time
  | param
  | list
  | object
  | entry
  | value
  | target
  | create
  | linkOp
  | linkValue
  | updateEntry
  | updateBody
  | update
  | delete
  | orOp
  | andOp
  | comparator
  | path
  | operand
  | predicate
  | andExpr
  | expr
  | filter
  | limit
  | page
  | direction
  | sort
  | all
  | fieldItem
  | relation
  | item
  | selection
  | query
deriving DecidableEq, Repr

namespace Rule

def label : Rule → String
  | .endOfText => "EOI"
  | .name => "name"
  | .ident => "ident"
  | .null => "null"
  | .boolean => "boolean"
  | .float => "float"
  | .integer => "integer"
  | .text => "text"
  | .dateTime => "datetime"
  | .date => "date"
  | .time => "time"
  | .param => "param"
  | .list => "list"
  | .object => "object"
  | .entry => "entry"
  | .value => "value"
  | .target => "target"
  | .create => "create"
  | .linkOp => "link_op"
  | .linkValue => "link_value"
  | .updateEntry => "update_entry"
  | .updateBody => "update_body"
  | .update => "update"
  | .delete => "delete"
  | .orOp => "or_op"
  | .andOp => "and_op"
  | .comparator => "comparator"
  | .path => "path"
  | .operand => "operand"
  | .predicate => "predicate"
  | .andExpr => "and_expr"
  | .expr => "expr"
  | .filter => "filter"
  | .limit => "limit"
  | .page => "page"
  | .direction => "direction"
  | .sort => "sort"
  | .all => "all"
  | .fieldItem => "field_item"
  | .relation => "relation"
  | .item => "item"
  | .selection => "selection"
  | .query => "query"

end Rule

/-- The rest of the text and the number of characters before it. -/
structure Cursor where
  offset : Nat
  rest : List Char
deriving DecidableEq

/-- The furthest place at which a rule was tried, and the rules that failed there. -/
structure Attempts where
  place : Nat
  rules : List Rule
deriving DecidableEq

/-- Between the parts of a spaced rule blanks and comments are skipped; the parts of an atomic rule
are not recorded. -/
inductive Mode where
  | spaced
  | compound
  | atomic
deriving DecidableEq

namespace Attempts

def start : Attempts := ⟨0, []⟩

/-- How many rules are recorded at a place. -/
def countAt (a : Attempts) (place : Nat) : Nat :=
  if a.place = place then a.rules.length else 0

/-- Records that a rule failed at a place where `before` rules had been recorded when it started. If
exactly one of its parts was recorded there, that part tells more. -/
def record (a : Attempts) (rule : Rule) (place before : Nat) : Attempts :=
  if a.countAt place - before = 1 then a
  else if place = a.place then ⟨place, a.rules.take before ++ [rule]⟩
  else if place > a.place then ⟨place, [rule]⟩
  else a

end Attempts

def Parser (α : Type) : Type :=
  Mode → Cursor → Attempts → Option (α × Cursor) × Attempts

namespace Parser

variable {α β : Type}

def succeed (x : α) : Parser α :=
  fun _ c a ↦ (some (x, c), a)

def fail : Parser α :=
  fun _ _ a ↦ (none, a)

def andThen (p : Parser α) (f : α → Parser β) : Parser β :=
  fun m c a ↦ match p m c a with
    | (some (x, c), a) => f x m c a
    | (none, a) => (none, a)

/-- Tries the second parser where the first one fails. -/
def orElse (p : Parser α) (q : Unit → Parser α) : Parser α :=
  fun m c a ↦ match p m c a with
    | (some r, a) => (some r, a)
    | (none, a) => q () m c a

instance : Monad Parser where
  pure := succeed
  bind := andThen

instance : OrElse (Parser α) where
  orElse := orElse

def optional (p : Parser α) : Parser (Option α) :=
  (some <$> p) <|> pure none

def char (p : Char → Bool) : Parser Char :=
  fun _ c a ↦ match c.rest with
    | d :: rest => if p d then (some (d, ⟨c.offset + 1, rest⟩), a) else (none, a)
    | [] => (none, a)

/-- Succeeds, reading nothing, unless the next character is of a class. -/
def notNext (p : Char → Bool) : Parser Unit :=
  fun _ c a ↦ match c.rest with
    | d :: _ => if p d then (none, a) else (some ((), c), a)
    | [] => (some ((), c), a)

def atEnd : Parser Unit :=
  fun _ c a ↦ (if c.rest.isEmpty then some ((), c) else none, a)

/-- Reads exactly the given characters. -/
def symbol : List Char → Parser Unit
  | [] => pure ()
  | d :: ds => do
    let _ ← char (· == d)
    symbol ds

def word (s : String) : Parser Unit :=
  symbol s.toList

/-- Repeats a parser while it succeeds; the number bounds how often that can be. -/
def repeated (p : Parser α) : Nat → Parser (List α)
  | 0 => pure []
  | n + 1 => (do
      let x ← p
      let xs ← repeated p n
      pure (x :: xs)) <|> pure []

/-- Repeats a parser that reads at least one character each time. It is tried once more where the
text ends, for what its failure records there. -/
def many (p : Parser α) : Parser (List α) :=
  fun m c a ↦ repeated p (c.rest.length + 1) m c a

def many₁ (p : Parser α) : Parser (List α) := do
  let x ← p
  let xs ← many p
  pure (x :: xs)

def exactly (p : Parser α) : Nat → Parser (List α)
  | 0 => pure []
  | n + 1 => do
    let x ← p
    let xs ← exactly p n
    pure (x :: xs)

/-- Runs a parser and gives the place where it started and the characters it read. -/
def captured (p : Parser α) : Parser (Nat × List Char) :=
  fun m c a ↦ match p m c a with
    | (some (_, c'), a) => (some ((c.offset, c.rest.take (c'.offset - c.offset)), c'), a)
    | (none, a) => (none, a)

def isSpace (c : Char) : Bool :=
  c == ' ' || c == '\t' || c == '\r' || c == '\n'

/-- The text after blanks and after comments, which run from two slashes to the end of the line. The
flag tells that a comment is being read. -/
def skipSpace : Bool → List Char → List Char
  | true, '\n' :: cs => skipSpace false cs
  | true, _ :: cs => skipSpace true cs
  | false, '/' :: '/' :: cs => skipSpace true cs
  | false, c :: cs => if isSpace c then skipSpace false cs else c :: cs
  | _, [] => []

/-- Skips blanks and comments in a spaced rule. -/
def skip : Parser Unit :=
  fun m c a ↦ match m with
    | .spaced =>
      let rest := skipSpace false c.rest
      (some ((), ⟨c.offset + (c.rest.length - rest.length), rest⟩), a)
    | _ => (some ((), c), a)

/-- Repeats a parser, with blanks between its parts. -/
def star (p : Parser α) : Parser (List α) :=
  (do
    let x ← p
    let xs ← many (do skip; p)
    pure (x :: xs)) <|> pure []

/-- Runs the body of a rule in a mode and records a failure, unless the rule is a part of an atomic
one. -/
def ruleIn (inner : Mode → Mode) (rule : Rule) (body : Parser α) : Parser α :=
  fun m c a ↦ match body (inner m) c a with
    | (some r, a') => (some r, a')
    | (none, a') => (none, if m = .atomic then a' else a'.record rule c.offset (a.countAt c.offset))

def spaced (rule : Rule) (body : Parser α) : Parser α :=
  ruleIn id rule body

def atomic (rule : Rule) (body : Parser α) : Parser α :=
  ruleIn (fun _ ↦ .atomic) rule body

def compound (rule : Rule) (body : Parser α) : Parser α :=
  ruleIn (fun _ ↦ .compound) rule body

/-- Runs a parser on a text from its start. -/
def run (p : Parser α) (text : List Char) : Except Attempts α :=
  match p .spaced ⟨0, text⟩ .start with
  | (some (x, _), _) => .ok x
  | (none, a) => .error a

end Parser

end EntityStore.Language
