/-!
Which properties an instruction or a query touches, and in which way; policies that deny the access
to some.
-/

set_option autoImplicit false

namespace EntityStore

inductive AccessKind where
  | create
  | update
  | delete
  | query
deriving DecidableEq

namespace AccessKind

def name : AccessKind → String
  | .create => "create"
  | .update => "update"
  | .delete => "delete"
  | .query => "query"

end AccessKind

/-- A property of an entity. -/
structure PropertyKey where
  entity : String
  property : String
deriving DecidableEq

namespace PropertyKey

def text (k : PropertyKey) : String :=
  s!"{k.entity}::{k.property}"

/-- The order of keys: by entity, then by property. -/
def precedes (a b : PropertyKey) : Bool :=
  a.entity < b.entity || (a.entity == b.entity && a.property < b.property)

end PropertyKey

/-- A set of properties, kept in order. -/
abbrev Accessed := List PropertyKey

namespace Accessed

def insert (k : PropertyKey) : Accessed → Accessed
  | [] => [k]
  | l :: ls => if k = l then l :: ls else if k.precedes l then k :: l :: ls else l :: insert k ls

def ofNames (entity : String) (names : List String) : Accessed :=
  names.foldl (fun keys name ↦ insert ⟨entity, name⟩ keys) []

theorem mem_insert {j k : PropertyKey} {keys : Accessed} :
    j ∈ insert k keys ↔ j = k ∨ j ∈ keys := by
  induction keys with
  | nil => simp [insert]
  | cons l ls ih =>
    rw [insert]
    split
    · simp_all
    · split
      · simp
      · simp only [List.mem_cons, ih]
        constructor <;> intro h <;> rcases h with h | h | h <;> simp [h]

end Accessed

/-- Denies the access to single properties. -/
structure Policy where
  denied : List (AccessKind × PropertyKey)

namespace Policy

/-- The first property whose access is denied. -/
def denied? (p : Policy) (kind : AccessKind) (accessed : Accessed) : Option PropertyKey :=
  accessed.find? fun k ↦ p.denied.contains (kind, k)

end Policy

end EntityStore
