import EntityStore.Language.Grammar

/-!
The grammar of the data language once more, giving pieces of the text instead of syntax trees. Every
rule gives a pair: the characters it read, where they stand, and the pairs of the rules inside of
it. The rules of lexemes have no pairs inside and read what the rules of `Grammar` read.
-/

set_option autoImplicit false

namespace EntityStore.Language

/-- What a pair is a piece of: a rule, or the row of characters between the quotes of a text. -/
inductive Part where
  | rule (r : Rule)
  | inner
deriving DecidableEq

def Part.label : Part → String
  | .rule r => r.label
  | .inner => "inner"

/-- A piece of a text and the pieces it is made of, in their order. -/
structure Pair where
  part : Part
  offset : Nat
  chars : List Char
  inner : List Pair

namespace Pair

def text (P : Pair) : String :=
  String.ofList P.chars

/-- The operators between the operands of an expression and the end of the text: pairs that stand
for nothing. -/
def isMark (P : Pair) : Bool :=
  P.part == .rule .andOp || P.part == .rule .orOp || P.part == .rule .endOfText

end Pair

namespace Parser

/-- Runs a parser and gives the pair of what it read, around the pairs that it gives. -/
def paired (part : Part) (p : Parser (List Pair)) : Parser Pair :=
  fun m c a ↦ match p m c a with
    | (some (inner, c'), a) =>
      (some (⟨part, c.offset, c.rest.take (c'.offset - c.offset), inner⟩, c'), a)
    | (none, a) => (none, a)

/-- The pair of a lexeme. -/
def leaf {α : Type} (rule : Rule) (p : Parser α) : Parser Pair :=
  paired (.rule rule) do
    let _ ← p
    pure []

/-- The pair of a rule that is made of other rules. -/
def branch (rule : Rule) (body : Parser (List Pair)) : Parser Pair :=
  spaced rule (paired (.rule rule) body)

end Parser

namespace Pairs

open EntityStore.Language.Parser

def name : Parser Pair := leaf .name Grammar.name

def ident : Parser Pair := leaf .ident Grammar.ident

def integer : Parser Pair := leaf .integer Grammar.integer

def text : Parser Pair :=
  compound .text <| paired (.rule .text) do
    word "\""
    let inner ← paired .inner do
      let _ ← many Grammar.textChar
      pure []
    word "\""
    pure [inner]

def param : Parser Pair :=
  compound .param <| paired (.rule .param) do
    word "?"
    let name ← name
    pure [name]

def scalar : Parser Pair :=
  leaf .null Grammar.null <|> leaf .boolean Grammar.boolean <|> leaf .dateTime Grammar.dateTime <|>
    leaf .date Grammar.date <|> leaf .time Grammar.time <|> leaf .float Grammar.float
      <|> integer <|> text

def list (value : Parser Pair) : Parser Pair :=
  branch .list (Grammar.enclosed "[" "]" value)

def entry (value : Parser Pair) : Parser Pair :=
  branch .entry do
    let key ← ident
    skip
    word ":"
    skip
    let v ← value
    pure [key, v]

def object (value : Parser Pair) : Parser Pair :=
  branch .object (Grammar.enclosed "\x7b" "\x7d" (entry value))

/-- The pair of a rule that is one of other rules. -/
def choice (rule : Rule) (p : Parser Pair) : Parser Pair :=
  branch rule do
    let P ← p
    pure [P]

def value : Nat → Parser Pair
  | 0 => fail
  | depth + 1 => choice .value (scalar <|> param <|> list (value depth) <|> object (value depth))

def target : Parser Pair :=
  branch .target do
    word "@id"
    skip
    word "==" <|> word "="
    skip
    let P ← integer <|> param
    pure [P]

def endOfText : Parser Pair :=
  branch .endOfText do
    atEnd
    pure []

def create (depth : Nat) : Parser Pair :=
  branch .create do
    skip
    let entity ← name
    skip
    let body ← object (value depth)
    skip
    let ending ← endOfText
    pure [entity, body, ending]

def linkValue (depth : Nat) : Parser Pair :=
  choice .linkValue (integer <|> param <|> list (value depth))

def updateEntry (depth : Nat) : Parser Pair :=
  branch .updateEntry do
    let key ← ident
    skip
    word ":"
    skip
    let entry ← (do
        let op ← leaf .linkOp Grammar.linkOp
        skip
        let v ← linkValue depth
        pure [op, v]) <|> List.singleton <$> value depth
    pure (key :: entry)

def updateBody (depth : Nat) : Parser Pair :=
  branch .updateBody (Grammar.enclosed "\x7b" "\x7d" (updateEntry depth))

def update (depth : Nat) : Parser Pair :=
  branch .update do
    skip
    let entity ← name
    skip
    let target ← target
    skip
    let body ← updateBody depth
    skip
    let ending ← endOfText
    pure [entity, target, body, ending]

def delete : Parser Pair :=
  branch .delete do
    skip
    let entity ← name
    skip
    let target ← target
    skip
    let ending ← endOfText
    pure [entity, target, ending]

def operand (depth : Nat) : Parser Pair :=
  choice .operand (scalar <|> param <|> list (value depth))

def predicate (depth : Nat) : Parser Pair :=
  branch .predicate do
    let path ← leaf .path Grammar.path
    skip
    let comparator ← leaf .comparator Grammar.comparator
    skip
    let operand ← operand depth
    pure [path, comparator, operand]

/-- Operands with the pair of an operator before each but the first. -/
def joined (op : Parser Pair) (operand : Parser Pair) : Parser (List Pair) := do
  let first ← operand
  skip
  let more ← star do
    let op ← op
    skip
    let next ← operand
    pure [op, next]
  pure (first :: more.flatten)

def andExpr (term : Parser Pair) : Parser Pair :=
  branch .andExpr (joined (leaf .andOp Grammar.andOp) term)

def expr : Nat → Parser Pair
  | 0 => fail
  | depth + 1 =>
    let term := (do
      word "("
      skip
      let e ← expr depth
      skip
      word ")"
      pure e) <|> predicate depth
    branch .expr (joined (leaf .orOp Grammar.orOp) (andExpr term))

def filter (depth : Nat) : Parser Pair :=
  branch .filter do
    word "|"
    skip
    let e ← expr depth
    skip
    word "|"
    pure [e]

/-- The pair of a word and what bounds the rows. -/
def bound (rule : Rule) (first : String) : Parser Pair :=
  branch rule do
    word first
    skip
    let P ← integer <|> param
    pure [P]

def sort : Parser Pair :=
  branch .sort do
    word "("
    skip
    let direction ← leaf .direction Grammar.direction
    skip
    let order ← integer
    skip
    word ")"
    pure [direction, order]

def all : Parser Pair :=
  branch .all do
    word "*"
    pure []

def fieldItem : Parser Pair :=
  branch .fieldItem do
    let sort ← optional sort
    skip
    let name ← ident
    pure (sort.toList ++ [name])

/-- The pairs of a level. -/
def level (depth : Nat) (selection : Parser Pair) : Parser (List Pair) := do
  let filter ← optional (filter depth)
  skip
  let limit ← optional (bound .limit "limit")
  skip
  let page ← optional (bound .page "page")
  skip
  let selection ← selection
  pure (filter.toList ++ limit.toList ++ page.toList ++ [selection])

def relation (depth : Nat) (selection : Parser Pair) : Parser Pair :=
  branch .relation do
    let name ← ident
    skip
    let body ← level depth selection
    pure (name :: body)

def item (depth : Nat) (selection : Parser Pair) : Parser Pair :=
  choice .item (all <|> relation depth selection <|> fieldItem)

def selection (depth : Nat) : Nat → Parser Pair
  | 0 => fail
  | more + 1 =>
    branch .selection (Grammar.enclosed "\x7b" "\x7d" (item depth (selection depth more)))

def query (depth : Nat) : Parser Pair :=
  branch .query do
    skip
    let entity ← name
    skip
    let body ← level depth (selection depth depth)
    skip
    let ending ← endOfText
    pure (entity :: body ++ [ending])

end Pairs

end EntityStore.Language
