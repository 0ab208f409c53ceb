import EntityStore.Mapping.Condition

/-!
What filters mean, told over the rows of the store without any statement. A filter is true or false
of a row: whatever is compared with null is false.
-/

set_option autoImplicit false

namespace EntityStore

open EntityStore.Language (Comparator)

/-- A row with the table it stands in. -/
structure Record where
  table : Table
  row : StoredRow

namespace Record

def cell (r : Record) (name : String) : Cell :=
  r.table.cellOf r.row name

/-- Whether a column stands in an order to a cell, which is taken as the column's type would take
it. -/
def compares (r : Record) (name : String) (op : Comparison) (c : Cell) : Bool :=
  ((r.cell name).compare? (c.compared (r.table.affinityOf name))).any op.holds

/-- Whether a column holds a cell. -/
def equals (r : Record) (name : String) (c : Cell) : Bool :=
  r.compares name .eq c

/-- Whether a field of a row stands to a value as a comparator says. Null is asked for by equality
alone. -/
def satisfies (r : Record) (field : String) : Comparator → Value → Bool
  | .isIn, .list items => items.any fun v ↦ r.equals field v.cell
  | .isIn, _ => false
  | .compare .eq, .null => r.cell field == .null
  | .compare .ne, .null => r.cell field != .null
  | .compare op, v => r.compares field op v.cell

theorem compares_null {r : Record} {name : String} {op : Comparison} {c : Cell}
    (h : r.cell name = .null ∨ c = .null) : r.compares name op c = false := by
  unfold compares
  rcases h with h | rfl
  · rw [h]
    rfl
  · have hnull : Cell.compared (r.table.affinityOf name) .null = .null := by
      cases r.table.affinityOf name <;> rfl
    rw [hnull]
    cases r.cell name <;> rfl

end Record

namespace Store

/-- The rows of a table; one that is not there has none. -/
def records (s : Store) (table : String) : List Record :=
  match s.table? table with
  | some t => t.rows.map fun r ↦ ⟨t, r⟩
  | none => []

/-- Whether a relation of an entity leads from one row to another: to the owner that `@parent`
names, to a row whose `@parent` names this one, or to a row that some link leads to. -/
def leads (s : Store) (source relation : String) (kind : RelationKind) (a b : Record) : Bool :=
  if relation == parentName then a.equals parentName (b.cell idName)
  else match kind with
    | .owned => a.equals idName (b.cell parentName)
    | .linked => (s.records (Mapping.linkTableName source relation)).any fun link ↦
      (b.cell idName).compare? (link.cell Mapping.targetColumn) == some .eq &&
        a.equals idName (link.cell Mapping.ownerColumn)

/-- Whether some row at the end of a path satisfies a test. -/
def reaches (s : Store) (test : Record → Bool) : List Query.Step → Record → Bool
  | [], r => test r
  | step :: rest, r => (s.records step.target).any fun next ↦
    s.leads step.source step.relation step.kind r next && s.reaches test rest next

end Store

namespace Query

/-- The value of an operand; a parameter without argument stands for null. -/
def Operand.meaning (bindings : Bindings) : Operand → Value
  | .value v => v
  | .list vs => .list vs
  | .param name => (bindings.lookup name).getD .null

/-- Whether a filter is true of a row. Every predicate looks for rows of its own. -/
def Filter.holds (s : Store) (bindings : Bindings) : Filter → Record → Bool
  | .and l r, a => l.holds s bindings a && r.holds s bindings a
  | .or l r, a => l.holds s bindings a || r.holds s bindings a
  | .predicate p, a =>
    s.reaches (fun r ↦ r.satisfies p.field p.comparator (p.operand.meaning bindings)) p.steps a

end Query

end EntityStore
