import EntityStore.Language.Pairs.Grammar
import EntityStore.Language.Reader

/-!
Builds syntax trees from the pairs of a text. A builder takes pairs by their places and their rules
and asks for what it needs of them: it stops at the first pair that is not as it expects, and notes
the pairs that it passes over.
-/

set_option autoImplicit false

namespace EntityStore.Language

/-- Besides the faults of a text, the faults of pairs that no text has. -/
inductive BuildFault where
  | ofText (fault : SyntaxFault)
  | expecting (what : String)
  | unexpected (part : Part)
  | emptyInput
  | endOfInput
  | invalidFloat (text : String)
deriving DecidableEq

def BuildFault.message : BuildFault → String
  | .ofText fault => fault.message
  | .expecting what => s!"expecting {what}"
  | .unexpected part => s!"unexpected {part.label}"
  | .emptyInput => "empty input"
  | .endOfInput => "unexpected end of input"
  | .invalidFloat text => s!"invalid float '{text}'"

structure BuildError where
  fault : BuildFault
  line : Nat
  column : Nat
deriving DecidableEq

def SyntaxError.built (e : SyntaxError) : BuildError :=
  ⟨.ofText e.fault, e.line, e.column⟩

/-- A step of a builder: a result or an error, and the pairs passed over so far. -/
abbrev Building (α : Type) : Type :=
  ExceptT BuildError (StateM (List Pair)) α

/-- Reads a sign, which may be missing, and digits as a word of 64 bits, all of the text. -/
def long? (cs : List Char) : Option Int64 :=
  let (negative, digits) := match cs with
    | '-' :: digits => (true, digits)
    | '+' :: digits => (false, digits)
    | digits => (false, digits)
  if digits.isEmpty || !digits.all Char.isDigit then none
  else int64? (if negative then -(digitsValue digits) else digitsValue digits)

namespace Building

variable {α β : Type}

/-- Notes pairs that are left out of the tree. -/
def pass (pairs : List Pair) : Building Unit :=
  modify (· ++ pairs)

/-- Stops at the first character of a pair. -/
def refuse (text : List Char) (offset : Nat) (fault : BuildFault) : Building α :=
  let (line, column) := lineColumn text offset
  throw ⟨fault, line, column⟩

/-- What a row of pairs spans. -/
def span (text : List Char) : List Pair → List Char
  | [] => []
  | P :: rest =>
    let last := rest.getLastD P
    (text.drop P.offset).take (last.offset + last.chars.length - P.offset)

section Parts

variable (text : List Char)

/-! ### Literals -/

def integer (P : Pair) : Building Int64 :=
  match long? P.chars with
  | some n => pure n
  | none => refuse text P.offset (.ofText (.integerRange P.text))

def calendar (P : Pair) (read : List Char → Except CalendarError α) (fault : String → SyntaxFault) :
    Building α :=
  match read (P.chars.drop 1) with
  | .ok a => pure a
  | .error _ => refuse text P.offset (.ofText (fault P.text))

def literal (P : Pair) : Building Value :=
  match P.part with
  | .rule .null => pure .null
  | .rule .boolean => pure (.bool (P.chars == "true".toList))
  | .rule .integer => Value.long <$> integer text P
  | .rule .float =>
    match Binary.ofText? .double P.text with
    | some x => pure (.double x)
    | none => refuse text P.offset (.invalidFloat P.text)
  | .rule .text => pure (.text (String.ofList (unescape (span text P.inner))))
  | .rule .time => Value.time <$> calendar text P TimeOfDay.read .invalidTime
  | .rule .date => Value.date <$> calendar text P Date.read .invalidDate
  | .rule .dateTime => Value.dateTime <$> calendar text P DateTime.read .invalidDateTime
  | part => refuse text P.offset (.unexpected part)

/-! ### Values -/

def paramName (cs : List Char) : String :=
  String.ofList (cs.dropWhile (· == '?'))

mutual

def node : Pair → Building (Node Value)
  | ⟨part, offset, cs, inner⟩ =>
    match part with
    | .rule .value | .rule .operand => value offset inner
    | .rule .param => pure (.param (paramName cs))
    | .rule .list => Node.list <$> values inner
    | .rule .object => Node.object <$> entries inner
    | _ => Node.literal <$> literal text ⟨part, offset, cs, inner⟩

/-- The value that stands in a pair, by the place of that pair and the pairs inside of it. -/
def value (offset : Nat) : List Pair → Building (Node Value)
  | [] => refuse text offset (.expecting "a value")
  | P :: rest => do
    pass rest
    node P

def values : List Pair → Building (List (Node Value))
  | [] => pure []
  | ⟨_, offset, _, inner⟩ :: rest => do
    let n ← value offset inner
    let ns ← values rest
    pure (n :: ns)

def entries : List Pair → Building (List (String × Node Value))
  | [] => pure []
  | ⟨_, _, _, key :: ⟨_, offset, _, inner⟩ :: more⟩ :: rest => do
    pass more
    let n ← value offset inner
    let es ← entries rest
    pure ((key.text, n) :: es)
  | P :: rest => do
    pass [P]
    entries rest

end

/-- A number or a parameter in a pair. -/
def bound (what : String) (P : Pair) (number : Int64 → β) (param : String → β) : Building β :=
  match P.inner with
  | [] => refuse text P.offset (.expecting what)
  | Q :: rest => do
    pass rest
    match Q.part with
    | .rule .param => pure (param (paramName Q.chars))
    | _ => number <$> integer text Q

def target (P : Pair) : Building (Target Int64) :=
  bound text "an @id target" P .id .param

/-! ### Changes of rows -/

def linkOp (cs : List Char) : LinkOp :=
  if cs = "@add".toList then .add else .del

/-- What an entry sets or links, from the pairs that follow its name. -/
def change (first : Pair) (more : List Pair) : Building (UpdateEntry Value) :=
  if first.part = .rule .linkOp then
    match more with
    | ⟨_, _, _, P :: others⟩ :: rest => do
      pass (others ++ rest)
      UpdateEntry.link (linkOp first.chars) <$> node text P
    | _ => refuse text first.offset (.expecting "a link value")
  else do
    pass more
    UpdateEntry.set <$> value text first.offset first.inner

def changes : List Pair → Building (List (String × UpdateEntry Value))
  | [] => pure []
  | ⟨_, _, _, key :: first :: more⟩ :: rest => do
    let entry ← change text first more
    let es ← changes rest
    pure ((key.text, entry) :: es)
  | P :: rest => do
    pass [P]
    changes rest

/-! ### Expressions -/

def comparator (cs : List Char) : Comparator :=
  if cs = "==".toList then .compare .eq
  else if cs = "!=".toList then .compare .ne
  else if cs = ">=".toList then .compare .ge
  else if cs = "<=".toList then .compare .le
  else if cs = ">".toList then .compare .gt
  else if cs = "<".toList then .compare .lt
  else .isIn

def predicate (P : Pair) : Building (Expr Value) :=
  match P.inner with
  | path :: sign :: operand :: more => do
    pass more
    let n ← node text operand
    pure (.predicate ((path.chars.splitOn '.').map String.ofList) (comparator sign.chars) n)
  | _ => refuse text P.offset (.expecting "<path> <comparator> <value>")

/-- What was built, if there is anything. -/
def required (offset : Nat) (what : String) : Option α → Building α
  | some a => pure a
  | none => refuse text offset (.expecting what)

/-- Joins an expression to the ones before it. -/
def joinTo (op : Expr Value → Expr Value → Expr Value) (left : Option (Expr Value))
    (next : Expr Value) :
    Option (Expr Value) :=
  some (match left with
    | some left => op left next
    | none => next)

mutual

/-- Disjuncts from left to right, joined to what stands left of them. -/
def disjuncts (left : Option (Expr Value)) : List Pair → Building (Option (Expr Value))
  | [] => pure left
  | ⟨part, offset, cs, inner⟩ :: rest =>
    match part with
    | .rule .andExpr => do
      let next ← conjuncts none inner
      let next ← required text offset "a predicate" next
      disjuncts (joinTo .or left next) rest
    | _ => do
      pass [⟨part, offset, cs, inner⟩]
      disjuncts left rest

def conjuncts (left : Option (Expr Value)) : List Pair → Building (Option (Expr Value))
  | [] => pure left
  | ⟨part, offset, cs, inner⟩ :: rest =>
    match part with
    | .rule .expr => do
      let next ← disjuncts none inner
      let next ← required text offset "a filter expression" next
      conjuncts (joinTo .and left next) rest
    | .rule .predicate => do
      let next ← predicate text ⟨part, offset, cs, inner⟩
      conjuncts (joinTo .and left next) rest
    | _ => do
      pass [⟨part, offset, cs, inner⟩]
      conjuncts left rest

end

def expr (P : Pair) : Building (Expr Value) := do
  let e ← disjuncts text none P.inner
  required text P.offset "a filter expression" e

/-! ### Selections -/

def direction (cs : List Char) : Direction :=
  if cs = "asc".toList then .ascending else .descending

/-- A field and how it sorts, from the pairs of its item. -/
def field (name : String) (sort : Option (Direction × Int64)) :
    List Pair → Building (Item Value Int64)
  | [] => pure (.field name sort)
  | P :: rest =>
    match P.part with
    | .rule .sort =>
      match P.inner with
      | sign :: order :: more => do
        pass more
        let n ← integer text order
        field name (some (direction sign.chars, n)) rest
      | _ => refuse text P.offset (.expecting "(asc|dsc N)")
    | _ => field P.text sort rest

def limit (P : Pair) : Building (Bound Int64) :=
  bound text "an integer or a parameter" P .literal .param

mutual

/-- The clauses of a level, added to what stands before them. -/
def level (body : Level Value Int64) : List Pair → Building (Level Value Int64)
  | [] => pure body
  | ⟨part, offset, cs, inner⟩ :: rest =>
    match part with
    | .rule .filter =>
      match inner with
      | [] => do
        pass [⟨part, offset, cs, inner⟩]
        level body rest
      | P :: more => do
        pass more
        let e ← expr text P
        level { body with filter := some e } rest
    | .rule .limit => do
      let n ← limit text ⟨part, offset, cs, inner⟩
      level { body with limit := some n } rest
    | .rule .page => do
      let n ← limit text ⟨part, offset, cs, inner⟩
      level { body with page := some n } rest
    | .rule .selection => do
      let more ← items inner
      level { body with items := body.items ++ more } rest
    | _ => do
      pass [⟨part, offset, cs, inner⟩]
      level body rest

def items : List Pair → Building (List (Item Value Int64))
  | [] => pure []
  | ⟨_, _, _, P :: more⟩ :: rest => do
    pass more
    let i ← item P
    let is ← items rest
    pure (i :: is)
  | P :: rest => do
    pass [P]
    items rest

def item : Pair → Building (Item Value Int64)
  | ⟨part, offset, _, inner⟩ =>
    match part with
    | .rule .all => pure .all
    | .rule .relation =>
      match inner with
      | [] => refuse text offset (.expecting "a relation name")
      | name :: clauses => do
        let body ← level ⟨none, none, none, []⟩ clauses
        pure (.relation name.text body.filter body.limit body.page body.items)
    | _ => field text "" none inner

end

/-! ### Forms -/

/-- The pair of a whole text. -/
def root : List Pair → Building Pair
  | [] => throw ⟨.emptyInput, 1, 1⟩
  | P :: rest => do
    pass rest
    pure P

/-- The next of some pairs, and the rest. -/
def next : List Pair → Building (Pair × List Pair)
  | [] => throw ⟨.endOfInput, 1, 1⟩
  | P :: rest => pure (P, rest)

def create (pairs : List Pair) : Building (CreateForm Value) := do
  let (entity, rest) ← next (← root pairs).inner
  let (body, rest) ← next rest
  pass rest
  let body ← entries text body.inner
  pure ⟨entity.text, body⟩

/-- The entries are built before the target. -/
def update (pairs : List Pair) : Building (UpdateForm Value Int64) := do
  let (entity, rest) ← next (← root pairs).inner
  let (row, rest) ← next rest
  let (body, rest) ← next rest
  pass rest
  let body ← changes text body.inner
  let row ← target text row
  pure ⟨entity.text, row, body⟩

def delete (pairs : List Pair) : Building (DeleteForm Int64) := do
  let (entity, rest) ← next (← root pairs).inner
  let (row, rest) ← next rest
  pass rest
  let row ← target text row
  pure ⟨entity.text, row⟩

def query (pairs : List Pair) : Building (QueryForm Value Int64) := do
  let (entity, clauses) ← next (← root pairs).inner
  let body ← level text ⟨none, none, none, []⟩ clauses
  pure ⟨entity.text, body⟩

end Parts

end Building

end EntityStore.Language
