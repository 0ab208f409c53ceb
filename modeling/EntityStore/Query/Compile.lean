import EntityStore.Compile.Error
import EntityStore.Query.Basic

/-!
Compiling a query against a schema. Compiling notes down the properties it touches, the parameters
it declares and the errors it meets, in their order; from the notes follow the parameters, of which
no two may have one name, and all errors.
-/

set_option autoImplicit false

namespace EntityStore.Query

open EntityStore.Language (Bound Comparator Expr Item Node)

inductive Note where
  | error (e : CompileError)
  | parameter (p : Parameter)
  | access (k : PropertyKey)

/-- A result with the notes taken on the way to it. -/
structure Noted (α : Type) where
  notes : List Note
  result : α

namespace Noted

protected def pure {α : Type} (a : α) : Noted α := ⟨[], a⟩

protected def bind {α β : Type} (x : Noted α) (f : α → Noted β) : Noted β :=
  let y := f x.result
  ⟨x.notes ++ y.notes, y.result⟩

instance : Monad Noted where
  pure := Noted.pure
  bind := Noted.bind

def note (n : Note) : Noted Unit := ⟨[n], ()⟩

/-- Notes an error in place of a result. -/
def fail {α : Type} (e : CompileError) : Noted (Option α) := ⟨[.error e], none⟩

def ofExcept {α : Type} : Except CompileError α → Noted (Option α)
  | .ok a => ⟨[], some a⟩
  | .error e => fail e

end Noted

/-- Where a filter path ends. -/
structure Place where
  steps : List Step
  entity : String
  name : String
  field : Field

/-- The last name of a path, which has to be a field that can be compared. -/
def lastPlace (s : Schema) (full : List String) (e : Entity) (name : String) :
    Noted (Option Place) := do
  match e.get? name with
  | none => .fail (.unknownProperty e.name name)
  | some p =>
    match p.kind, p.relation? with
    | .field f, _ =>
      .note (.access ⟨e.name, name⟩)
      if f.type.isContainer then .fail (.invalidValue ⟨e.name, name⟩ (.containerFilter f.type))
      else pure (some ⟨[], e.name, name, f⟩)
    | _, some (target, _) =>
      let fields := ((s.get? target).map Entity.fields).getD []
      .fail (.invalidPath full (fields.map fun (field, _) ↦ [name, field]))
    | _, none => .fail (.invalidPath full [])

/-- Follows a path over relations to its field. -/
def place (s : Schema) (full : List String) (e : Entity) : List String → Noted (Option Place)
  | [] => pure none
  | [name] => lastPlace s full e name
  | name :: rest => do
    match e.get? name with
    | none => .fail (.unknownProperty e.name name)
    | some p =>
      match p.relation? with
      | none => .fail (.invalidPath full (e.relationNames.map fun r ↦ [r]))
      | some (target, kind) =>
        .note (.access ⟨e.name, name⟩)
        match s.get? target with
        | none => .fail (.unknownEntity target)
        | some next =>
          let found ← place s full next rest
          pure (found.map fun p ↦ { p with steps := ⟨name, kind, e.name, next.name⟩ :: p.steps })

/-- A literal of a field's type. -/
def literal (target : PropertyKey) (type : FieldType) (v : Value) : Except CompileError Value :=
  (type.fit v).mapError (CompileError.unfit target)

/-- An element of the list after `in`, which is a literal other than null. -/
def listElement (target : PropertyKey) (type : FieldType) (n : Node Value) :
    Except CompileError Value :=
  match n with
  | .literal v =>
    if v.isNull then .error (.shape target (.listElement .null)) else literal target type v
  | n => .error (.shape target (.listElement (.ofNode n)))

/-- What a field is compared with. Only equality can be asked of null. -/
def operand (target : PropertyKey) (type : FieldType) (c : Comparator) (n : Node Value) :
    Except CompileError Operand :=
  match c, n with
  | _, .param name => .ok (.param name)
  | .isIn, .list items => (items.mapM (listElement target type)).map .list
  | .isIn, n => .error (.shape target (.listOperand (.ofNode n)))
  | .compare c, .literal .null =>
    if c = .eq ∨ c = .ne then .ok (.value .null) else .error (.shape target (.operand .null))
  | .compare _, .literal v => (literal target type v).map .value
  | .compare _, n => .error (.shape target (.operand (.ofNode n)))

def parameter? (type : FieldType) (c : Comparator) : Operand → Option Parameter
  | .param name => some ⟨name, type, if c = .isIn then .list else .operand⟩
  | _ => none

def predicate (s : Schema) (e : Entity) (path : List String) (c : Comparator) (n : Node Value) :
    Noted (Option Predicate) := do
  let some p ← place s path e path | pure none
  let some o ← .ofExcept (operand ⟨p.entity, p.name⟩ p.field.type c n) | pure none
  if let some parameter := parameter? p.field.type c o then .note (.parameter parameter)
  pure (some ⟨p.steps, p.name, p.field.type, c, o⟩)

def filter (s : Schema) (e : Entity) : Expr Value → Noted (Option Filter)
  | .and l r => do
    let l ← filter s e l
    let r ← filter s e r
    pure (do pure (.and (← l) (← r)))
  | .or l r => do
    let l ← filter s e l
    let r ← filter s e r
    pure (do pure (.or (← l) (← r)))
  | .predicate path c n => do
    let p ← predicate s e path c n
    pure (p.map .predicate)

/-- A limit or page, which only a level of several rows may have, and which counts from one. -/
def bound (e : Entity) (paged : Bool) (clause : PageClause) (b : Bound Int64) :
    Noted (Option (Bound Int64)) :=
  if !paged then .fail (.pagination (.notAllowed clause e.name))
  else match b with
    | .literal n => if n < 1 then .fail (.pagination (.tooSmall clause n)) else pure (some b)
    | .param name => do
      .note (.parameter ⟨name, .long, .bound⟩)
      pure (some b)

/-- Applies a compilation to what is given. -/
def optionally {α β : Type} (f : α → Noted (Option β)) : Option α → Noted (Option β)
  | none => pure none
  | some a => f a

/-- Filter and page of a level, without its fields. -/
def levelStart (s : Schema) (e : Entity) (paged : Bool) (expr : Option (Expr Value))
    (limit page : Option (Bound Int64)) : Noted Level := do
  .note (.access ⟨e.name, idName⟩)
  let f ← optionally (filter s e) expr
  let limit ← optionally (bound e paged .limit) limit
  let page ← optionally (bound e paged .page) page
  if page.isSome && limit.isNone then .note (.error (.pagination (.withoutLimit e.name)))
  pure ⟨e.name, f, limit, page, []⟩

/-- What a level selects so far, and the ranks of sorting used. -/
structure Selection where
  fields : List SelectedField
  relations : List (Relation × Tree)
  ranks : List Int64

namespace Selection

def start : Selection := ⟨[⟨idName, .long, none⟩], [], []⟩

def hasField (sel : Selection) (name : String) : Bool :=
  sel.fields.any fun f ↦ f.name == name

/-- Selects a field; one selected again keeps its place and takes the later sorting. -/
def addField (sel : Selection) (f : SelectedField) : Selection :=
  if sel.hasField f.name then
    let fields := sel.fields.map fun g ↦
      if g.name = f.name then { g with sort := f.sort.or g.sort } else g
    { sel with fields := fields }
  else { sel with fields := sel.fields ++ [f] }

def addRelation (sel : Selection) (r : Relation) (t : Tree) : Selection :=
  { sel with relations := sel.relations ++ [(r, t)] }

def tree (level : Level) (sel : Selection) : Tree :=
  .node { level with fields := sel.fields } sel.relations

end Selection

/-- Selects the declared fields that are not selected yet. -/
def selectAll (e : Entity) (sel : Selection) : Noted Selection :=
  let added := e.userFields.filter fun (name, _) ↦ !sel.hasField name
  ⟨added.map fun (name, _) ↦ .access ⟨e.name, name⟩,
    { sel with fields := sel.fields ++ added.map fun (name, f) ↦ ⟨name, f.type, none⟩ }⟩

/-- The sorting of a field; a rank counts from one and is used once in a level. -/
def sorting (e : Entity) (name : String) (ranks : List Int64) :
    Option (Direction × Int64) → Noted (Option (Direction × Int64))
  | none => pure none
  | some (direction, rank) =>
    if rank < 1 then .fail (.invalidValue ⟨e.name, name⟩ (.sortOrder rank))
    else do
      if ranks.contains rank then .note (.error (.duplicateOrder e.name rank))
      pure (some (direction, rank))

def selectField (e : Entity) (sel : Selection) (name : String) (sort : Option (Direction × Int64)) :
    Noted Selection := do
  match e.get? name with
  | none =>
    .note (.error (.unknownProperty e.name name))
    pure sel
  | some p =>
    match p.field? with
    | none =>
      .note (.error (.shape ⟨e.name, name⟩ .relationUnselected))
      pure sel
    | some f =>
      let sort ← sorting e name sel.ranks sort
      .note (.access ⟨e.name, name⟩)
      let sel := sel.addField ⟨name, f.type, sort⟩
      pure { sel with ranks := (sort.map Prod.snd).toList ++ sel.ranks }

/-- The relation of a name, with the entity it leads to. -/
def related (s : Schema) (e : Entity) (name : String) : Noted (Option (Relation × Entity)) := do
  match e.get? name with
  | none => .fail (.unknownProperty e.name name)
  | some p =>
    match p.relation? with
    | none => .fail (.shape ⟨e.name, name⟩ .fieldSelected)
    | some (target, kind) =>
      match s.get? target with
      | none => .fail (.unknownEntity target)
      | some child =>
        .note (.access ⟨e.name, name⟩)
        let many := match p.kind with
          | .collection _ => true
          | _ => false
        pure (some (⟨name, kind, many⟩, child))

mutual

def selectItem (s : Schema) (e : Entity) (sel : Selection) : Item Value Int64 → Noted Selection
  | .all => selectAll e sel
  | .field name sort => selectField e sel name sort
  | .relation name expr limit page inner => do
    let found ← related s e name
    match found with
    | none => pure sel
    | some (relation, child) =>
      let level ← levelStart s child relation.many expr limit page
      let chosen ← selectItems s child .start inner
      pure (sel.addRelation relation (chosen.tree level))

def selectItems (s : Schema) (e : Entity) (sel : Selection) :
    List (Item Value Int64) → Noted Selection
  | [] => pure sel
  | i :: is => do
    let sel ← selectItem s e sel i
    selectItems s e sel is

end

/-- Compiles the topmost level, which may be paged. -/
def top (s : Schema) (e : Entity) (body : Language.Level Value Int64) : Noted Tree := do
  let level ← levelStart s e true body.filter body.limit body.page
  let chosen ← selectItems s e .start body.items
  pure (chosen.tree level)

/-- The parameters, the properties and the errors that notes tell of. -/
structure Findings where
  errors : List CompileError
  parameters : List Parameter
  accessed : Accessed

namespace Findings

def none : Findings := ⟨[], [], []⟩

/-- Adds a note; of two parameters of one name the later is an error. -/
def add (f : Findings) : Note → Findings
  | .error e => { f with errors := f.errors ++ [e] }
  | .access k => { f with accessed := .insert k f.accessed }
  | .parameter p =>
    if f.parameters.any fun q ↦ q.name == p.name then
      { f with errors := f.errors ++ [.parameterCollision p.name] }
    else { f with parameters := f.parameters ++ [p] }

def ofNotes (notes : List Note) : Findings :=
  notes.foldl add none

end Findings

end EntityStore.Query

namespace EntityStore.Schema

def compileQuery (s : Schema) (form : Language.QueryForm Value Int64) :
    Except (List CompileError) Query.Compiled :=
  match s.get? form.entity with
  | none => .error [.unknownEntity form.entity]
  | some e =>
    let t := Query.top s e form.body
    let f := Query.Findings.ofNotes t.notes
    if f.errors.isEmpty then .ok ⟨t.result, f.parameters, f.accessed⟩ else .error f.errors

end EntityStore.Schema
