import EntityStore.Comparison

/-!
Syntax trees of the data language. They are built over the form of their literals: tokens of the
text while it is being read, values afterwards.
-/

set_option autoImplicit false

namespace EntityStore.Language

/-- What may stand where a value is given. -/
inductive Node (α : Type) where
  | literal (a : α)
  | param (name : String)
  | list (items : List (Node α))
  | object (entries : List (String × Node α))
deriving Inhabited

/-- The row that an update or a delete addresses. -/
inductive Target (ι : Type) where
  | id (n : ι)
  | param (name : String)
deriving DecidableEq

inductive LinkOp where
  | add
  | del
deriving DecidableEq

inductive UpdateEntry (α : Type) where
  | set (node : Node α)
  | link (op : LinkOp) (node : Node α)

structure CreateForm (α : Type) where
  entity : String
  body : List (String × Node α)

structure UpdateForm (α ι : Type) where
  entity : String
  target : Target ι
  body : List (String × UpdateEntry α)

structure DeleteForm (ι : Type) where
  entity : String
  target : Target ι

inductive Comparator where
  | compare (c : Comparison)
  | isIn
deriving DecidableEq

/-- A limit or a page. -/
inductive Bound (ι : Type) where
  | literal (n : ι)
  | param (name : String)
deriving DecidableEq

inductive Expr (α : Type) where
  | and (l r : Expr α)
  | or (l r : Expr α)
  | predicate (path : List String) (comparator : Comparator) (operand : Node α)

inductive Item (α ι : Type) where
  | all
  | field (name : String) (sort : Option (Direction × ι))
  | relation (name : String) (filter : Option (Expr α)) (limit page : Option (Bound ι))
      (items : List (Item α ι))

/-- Filter, pagination and selection of one level of a query. -/
structure Level (α ι : Type) where
  filter : Option (Expr α)
  limit : Option (Bound ι)
  page : Option (Bound ι)
  items : List (Item α ι)

structure QueryForm (α ι : Type) where
  entity : String
  body : Level α ι

def LinkOp.text : LinkOp → String
  | .add => "@add"
  | .del => "@del"

def Comparator.text : Comparator → String
  | .compare c => c.text
  | .isIn => "IN"

end EntityStore.Language
