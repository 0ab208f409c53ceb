import EntityStore.Instruction.RowRef
import EntityStore.Number.Digits

/-!
The references of a nested create: those of the single rows and of the collections an object owns,
each with the tree below it, addressed by paths such as `address.city` or `lines[1]`.
-/

set_option autoImplicit false

namespace EntityStore

inductive RefTree where
  | node (root : RowRef) (singles : List (String × RefTree))
      (collections : List (String × List RefTree))

/-- One part of a path: a name, and the position in a collection. -/
structure PathSegment where
  name : String
  index : Option Nat
deriving DecidableEq

namespace PathSegment

def isStart (c : Char) : Bool :=
  c == '@' || c == '_' || c.isAlpha

def isPart (c : Char) : Bool :=
  c == '_' || c == '-' || c.isAlphanum

/-- Reads a name and, between square brackets after it, an index. -/
def read? (cs : List Char) : Option PathSegment :=
  match cs with
  | [] => none
  | c :: rest =>
    if !isStart c then none
    else
      let name := String.ofList (c :: rest.takeWhile isPart)
      match rest.dropWhile isPart with
      | [] => some ⟨name, none⟩
      | '[' :: rest =>
        match spanDigits rest with
        | ([], _) => none
        | (digits, [']']) => some ⟨name, some (digitsValue digits)⟩
        | _ => none
      | _ => none

end PathSegment

namespace RefTree

def root : RefTree → RowRef
  | .node root _ _ => root

def singles : RefTree → List (String × RefTree)
  | .node _ singles _ => singles

def collections : RefTree → List (String × List RefTree)
  | .node _ _ collections => collections

/-- The elements of an owned collection. -/
def elements (t : RefTree) (name : String) : List RefTree :=
  (t.collections.lookup name).getD []

/-- The tree one step below. A collection without an index stands for its first element. -/
def step? (t : RefTree) (s : PathSegment) : Option RefTree :=
  match s.index with
  | some i => (t.elements s.name)[i]?
  | none => (t.singles.lookup s.name).or (t.elements s.name)[0]?

def follow? (t : RefTree) : List PathSegment → Option RefTree
  | [] => some t
  | s :: ss => (t.step? s).bind fun t ↦ t.follow? ss

/-- The parts of a path between its dots. -/
def segments (path : List Char) : List (List Char) :=
  path.splitOn '.'

def subtree? (t : RefTree) (parts : List (List Char)) : Option RefTree := do
  t.follow? (← parts.mapM PathSegment.read?)

def find? (t : RefTree) (path : String) : Option RowRef :=
  (t.subtree? (segments path.toList)).map root

/-- The element of the collection at a path. -/
def findAt? (t : RefTree) (path : String) (index : Nat) : Option RowRef := do
  let parts := segments path.toList
  let owner ← if parts.length ≤ 1 then some t else t.subtree? parts.dropLast
  let element ← (owner.elements (String.ofList (parts.getLast?.getD [])))[index]?
  pure element.root

def count (t : RefTree) (name : String) : Nat :=
  (t.elements name).length

end RefTree

end EntityStore
