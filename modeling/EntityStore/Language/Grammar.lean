import EntityStore.Language.Parser
import EntityStore.Language.Syntax

/-!
The grammar of the data language. Every parser here is one rule of the grammar and gives the syntax
tree of what it reads, with tokens for literals. Numbers bound how deep texts nest.
-/

set_option autoImplicit false

namespace EntityStore.Language

inductive LiteralKind where
  | null
  | boolean
  | dateTime
  | date
  | time
  | float
  | integer
  | text
deriving DecidableEq

/-- A literal as it stands in the text; the characters of a text are those between its quotes. -/
structure Token where
  kind : LiteralKind
  offset : Nat
  chars : List Char
deriving DecidableEq

namespace Grammar

open EntityStore.Language.Parser

def isLetter (c : Char) : Bool :=
  c.isAlpha || c == '_'

def isNameChar (c : Char) : Bool :=
  c.isAlphanum || c == '_'

def isIdentChar (c : Char) : Bool :=
  c.isAlphanum || c == '_' || c == '-'

/-- A word that no further character of an identifier follows. -/
def keyword (s : String) : Parser Unit := do
  word s
  notNext isIdentChar

def nameText : Parser String := do
  let (_, cs) ← captured do
    let _ ← char isLetter
    many (char isNameChar)
  pure (String.ofList cs)

def identText : Parser (List Char) := do
  let (_, cs) ← captured do
    let _ ← char fun c ↦ c == '@' || isLetter c
    many (char isIdentChar)
  pure cs

def name : Parser String :=
  atomic .name nameText

def ident : Parser String :=
  atomic .ident (String.ofList <$> identText)

def token (kind : LiteralKind) (body : Parser Unit) : Parser Token := do
  let (offset, cs) ← captured body
  pure ⟨kind, offset, cs⟩

def digits : Parser Unit := do
  let _ ← many₁ (char Char.isDigit)

def digitsOf (n : Nat) : Parser Unit := do
  let _ ← exactly (char Char.isDigit) n

def null : Parser Token :=
  atomic .null (token .null (keyword "null"))

def boolean : Parser Token :=
  atomic .boolean (token .boolean do
    word "true" <|> word "false"
    notNext isIdentChar)

def minus : Parser Unit := do
  let _ ← optional (word "-")

def float : Parser Token :=
  atomic .float (token .float do
    minus
    digits
    word "."
    digits
    let _ ← optional do
      let _ ← char fun c ↦ c == 'e' || c == 'E'
      let _ ← optional (word "+" <|> word "-")
      digits)

def integer : Parser Token :=
  atomic .integer (token .integer do
    minus
    digits)

def textChar : Parser Unit :=
  (do let _ ← char fun c ↦ c != '"' && c != '\\') <|>
  (do
    word "\\"
    let _ ← char fun c ↦ ['"', '\\', '/', 'n', 'r', 't'].contains c)

def text : Parser Token :=
  compound .text do
    let start ← captured (word "\"")
    let (_, cs) ← captured (many textChar)
    word "\""
    pure ⟨.text, start.1, cs⟩

def datePart : Parser Unit := do
  digitsOf 4
  word "-"
  digitsOf 2
  word "-"
  digitsOf 2

def timePart : Parser Unit := do
  digitsOf 2
  word ":"
  digitsOf 2
  word ":"
  digitsOf 2
  let _ ← optional do
    word "."
    digits

def dateTime : Parser Token :=
  atomic .dateTime (token .dateTime do
    word "#"
    datePart
    word "T"
    timePart)

def date : Parser Token :=
  atomic .date (token .date do
    word "#"
    datePart)

def time : Parser Token :=
  atomic .time (token .time do
    word "#"
    timePart)

def param : Parser String :=
  compound .param do
    word "?"
    name

def scalar : Parser Token :=
  null <|> boolean <|> dateTime <|> date <|> time <|> float <|> integer <|> text

/-- Items between two marks, with commas between them and perhaps one after the last. -/
def enclosed {α : Type} (opening closing : String) (item : Parser α) : Parser (List α) := do
  word opening
  skip
  let items ← optional do
    let x ← item
    skip
    let xs ← star do
      word ","
      skip
      item
    pure (x :: xs)
  skip
  let _ ← optional (word ",")
  skip
  word closing
  pure (items.getD [])

def list (value : Parser (Node Token)) : Parser (List (Node Token)) :=
  spaced .list (enclosed "[" "]" value)

def entry (value : Parser (Node Token)) : Parser (String × Node Token) :=
  spaced .entry do
    let key ← ident
    skip
    word ":"
    skip
    let v ← value
    pure (key, v)

def object (value : Parser (Node Token)) : Parser (List (String × Node Token)) :=
  spaced .object (enclosed "\x7b" "\x7d" (entry value))

def value : Nat → Parser (Node Token)
  | 0 => fail
  | depth + 1 =>
    spaced .value
      (Node.literal <$> scalar <|> Node.param <$> param <|> Node.list <$> list (value depth) <|>
        Node.object <$> object (value depth))

def target : Parser (Target Token) :=
  spaced .target do
    word "@id"
    skip
    word "==" <|> word "="
    skip
    Target.id <$> integer <|> Target.param <$> param

def create (depth : Nat) : Parser (CreateForm Token) :=
  spaced .create do
    skip
    let entity ← name
    skip
    let body ← object (value depth)
    skip
    spaced .endOfText atEnd
    pure ⟨entity, body⟩

def linkOp : Parser LinkOp :=
  atomic .linkOp
    ((do word "@add"; pure .add) <|> (do word "@del"; pure .del))

def integerNode : Parser (Node Token) :=
  Node.literal <$> integer

def linkValue (depth : Nat) : Parser (Node Token) :=
  spaced .linkValue
    (integerNode <|> Node.param <$> param <|> Node.list <$> list (value depth))

def updateEntry (depth : Nat) : Parser (String × UpdateEntry Token) :=
  spaced .updateEntry do
    let key ← ident
    skip
    word ":"
    skip
    let entry ← (do
        let op ← linkOp
        skip
        let v ← linkValue depth
        pure (UpdateEntry.link op v)) <|> UpdateEntry.set <$> value depth
    pure (key, entry)

def updateBody (depth : Nat) : Parser (List (String × UpdateEntry Token)) :=
  spaced .updateBody (enclosed "\x7b" "\x7d" (updateEntry depth))

def update (depth : Nat) : Parser (UpdateForm Token Token) :=
  spaced .update do
    skip
    let entity ← name
    skip
    let target ← target
    skip
    let body ← updateBody depth
    skip
    spaced .endOfText atEnd
    pure ⟨entity, target, body⟩

def delete : Parser (DeleteForm Token) :=
  spaced .delete do
    skip
    let entity ← name
    skip
    let target ← target
    skip
    spaced .endOfText atEnd
    pure ⟨entity, target⟩

def orOp : Parser Unit :=
  atomic .orOp (keyword "or")

def andOp : Parser Unit :=
  atomic .andOp (keyword "and")

def comparator : Parser Comparator :=
  atomic .comparator
    ((do word "=="; pure (.compare .eq)) <|> (do word "!="; pure (.compare .ne)) <|>
      (do word ">="; pure (.compare .ge)) <|> (do word "<="; pure (.compare .le)) <|>
      (do word ">"; pure (.compare .gt)) <|> (do word "<"; pure (.compare .lt)) <|>
      (do keyword "in"; pure .isIn))

def path : Parser (List String) :=
  atomic .path do
    let first ← identText
    let more ← star do
      word "."
      identText
    pure ((first :: more).map String.ofList)

def operand (depth : Nat) : Parser (Node Token) :=
  spaced .operand
    (Node.literal <$> scalar <|> Node.param <$> param <|> Node.list <$> list (value depth))

def predicate (depth : Nat) : Parser (Expr Token) :=
  spaced .predicate do
    let path ← path
    skip
    let comparator ← comparator
    skip
    let operand ← operand depth
    pure (.predicate path comparator operand)

def andExpr (term : Parser (Expr Token)) : Parser (Expr Token) :=
  spaced .andExpr do
    let first ← term
    skip
    let more ← star do
      andOp
      skip
      term
    pure (more.foldl Expr.and first)

def expr : Nat → Parser (Expr Token)
  | 0 => fail
  | depth + 1 =>
    let term := (do
      word "("
      skip
      let e ← expr depth
      skip
      word ")"
      pure e) <|> predicate depth
    spaced .expr do
      let first ← andExpr term
      skip
      let more ← star do
        orOp
        skip
        andExpr term
      pure (more.foldl Expr.or first)

def filter (depth : Nat) : Parser (Expr Token) :=
  spaced .filter do
    word "|"
    skip
    let e ← expr depth
    skip
    word "|"
    pure e

def bound : Parser (Bound Token) :=
  Bound.literal <$> integer <|> Bound.param <$> param

def limit : Parser (Bound Token) :=
  spaced .limit do
    word "limit"
    skip
    bound

def page : Parser (Bound Token) :=
  spaced .page do
    word "page"
    skip
    bound

def direction : Parser Direction :=
  atomic .direction
    ((do word "asc"; pure .ascending) <|> (do word "dsc"; pure .descending))

def sort : Parser (Direction × Token) :=
  spaced .sort do
    word "("
    skip
    let direction ← direction
    skip
    let order ← integer
    skip
    word ")"
    pure (direction, order)

def all : Parser (Item Token Token) :=
  spaced .all do
    word "*"
    pure .all

def fieldItem : Parser (Item Token Token) :=
  spaced .fieldItem do
    let sort ← optional sort
    skip
    let name ← ident
    pure (.field name sort)

/-- Filter, limit, page and selection of a level, whatever its selection is. -/
def level (depth : Nat) (selection : Parser (List (Item Token Token))) :
    Parser (Level Token Token) := do
  let filter ← optional (filter depth)
  skip
  let limit ← optional limit
  skip
  let page ← optional page
  skip
  let items ← selection
  pure ⟨filter, limit, page, items⟩

def relation (depth : Nat) (selection : Parser (List (Item Token Token))) :
    Parser (Item Token Token) :=
  spaced .relation do
    let name ← ident
    skip
    let body ← level depth selection
    pure (.relation name body.filter body.limit body.page body.items)

def item (depth : Nat) (selection : Parser (List (Item Token Token))) : Parser (Item Token Token) :=
  spaced .item (all <|> relation depth selection <|> fieldItem)

/-- A selection; the first number bounds how deep filters nest, the second how deep selections
do. -/
def selection (depth : Nat) : Nat → Parser (List (Item Token Token))
  | 0 => fail
  | more + 1 =>
    spaced .selection (enclosed "\x7b" "\x7d" (item depth (selection depth more)))

def query (depth : Nat) : Parser (QueryForm Token Token) :=
  spaced .query do
    skip
    let entity ← name
    skip
    let body ← level depth (selection depth depth)
    skip
    spaced .endOfText atEnd
    pure ⟨entity, body⟩

end Grammar

end EntityStore.Language
