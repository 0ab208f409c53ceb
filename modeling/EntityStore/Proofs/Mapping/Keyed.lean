import EntityStore.Proofs.Mapping.View
import EntityStore.Proofs.Store.Order

/-!
What every table of the library keeps: its rows stand in the order of their numbers, no two have the
same, no two clash on a constraint, and the columns `@parent`, `@inv` and `@ref` hold numbers of
rows or nothing. So comparing such columns tells whether they name the same row.
-/

set_option autoImplicit false

namespace EntityStore

namespace Mapping

/-- The columns that name rows of other tables. -/
def keyNames : List String := [parentName, ownerColumn, targetColumn]

/-- Whether a column has the name of one that names rows, in any case of letters. -/
def isKey (name : String) : Bool :=
  keyNames.any (sameName name)

end Mapping

open Mapping (keyNames isKey ownerColumn targetColumn)

namespace Cell

/-- Whether a cell names a row or is empty. -/
def isNumber : Cell → Bool
  | .null | .integer _ => true
  | _ => false

theorem isNumber_iff {c : Cell} : c.isNumber ↔ c = .null ∨ ∃ n, c = .integer n := by
  cases c <;> simp [isNumber]

end Cell

/-- The numbers of rows ascend, those that are shown are positive and shown as `@id`; rows have
cells of their table's columns only; columns that name rows are declared integer and hold integers
or nothing; no two rows clash on a constraint. -/
structure Table.Keyed (t : Table) : Prop where
  rowColumn : t.rowColumn = none ∨ t.rowColumn = some idName
  other : ∀ c ∈ t.columns, sameName c.name idName = false
  integer : ∀ c ∈ t.columns, isKey c.name → c.affinity = .integer
  known : ∀ r ∈ t.rows, ∀ x ∈ r.cells, ∃ c ∈ t.columns, c.name = x.1
  cells : ∀ r ∈ t.rows, ∀ x ∈ r.cells, isKey x.1 → x.2.isNumber
  ascending : t.rows.Pairwise fun r s ↦ r.id < s.id
  positive : t.rowColumn.isSome → ∀ r ∈ t.rows, 0 < r.id
  unique : ∀ columns ∈ t.unique, ∀ r ∈ t.rows, ∀ s ∈ t.rows, r.id ≠ s.id →
    t.clash columns r s = false

def Store.Keyed (s : Store) : Prop :=
  ∀ t ∈ s.tables, t.Keyed

theorem Table.keyed_iff {t : Table} : t.Keyed ↔
    (t.rowColumn = none ∨ t.rowColumn = some idName) ∧
      (∀ c ∈ t.columns, sameName c.name idName = false) ∧
      (∀ c ∈ t.columns, isKey c.name → c.affinity = .integer) ∧
      (∀ r ∈ t.rows, ∀ x ∈ r.cells, ∃ c ∈ t.columns, c.name = x.1) ∧
      (∀ r ∈ t.rows, ∀ x ∈ r.cells, isKey x.1 → x.2.isNumber) ∧
      (t.rows.Pairwise fun r s ↦ r.id < s.id) ∧ (t.rowColumn.isSome → ∀ r ∈ t.rows, 0 < r.id) ∧
      ∀ columns ∈ t.unique, ∀ r ∈ t.rows, ∀ s ∈ t.rows, r.id ≠ s.id → t.clash columns r s = false :=
  ⟨fun ⟨h₁, h₂, h₃, h₄, h₅, h₆, h₇, h₈⟩ ↦ ⟨h₁, h₂, h₃, h₄, h₅, h₆, h₇, h₈⟩,
    fun ⟨h₁, h₂, h₃, h₄, h₅, h₆, h₇, h₈⟩ ↦ ⟨h₁, h₂, h₃, h₄, h₅, h₆, h₇, h₈⟩⟩

instance (t : Table) : Decidable t.Keyed :=
  decidable_of_iff _ Table.keyed_iff.symm

instance (s : Store) : Decidable s.Keyed :=
  inferInstanceAs (Decidable (∀ t ∈ s.tables, t.Keyed))

/-! ### Columns of rows -/

theorem StoredRow.cell_eq (r : StoredRow) (name : String) :
    r.cell name = ((r.cells.find? (·.1 == name)).map Prod.snd).getD .null :=
  rfl

theorem StoredRow.cell_cases (r : StoredRow) (name : String) :
    r.cell name = .null ∨ (name, r.cell name) ∈ r.cells := by
  rw [cell_eq]
  cases hfind : r.cells.find? (·.1 == name) with
  | none => exact .inl rfl
  | some x =>
    have hname : x.1 = name := by simpa using List.find?_some hfind
    rw [← hname]
    exact .inr (List.mem_of_find?_eq_some hfind)

theorem Table.Keyed.cell_isNumber {t : Table} (h : t.Keyed) {r : StoredRow}
    (hr : r ∈ t.rows) {name : String} (hname : isKey name) : (r.cell name).isNumber := by
  rcases r.cell_cases name with hnull | hcell
  · rw [hnull]
    rfl
  · exact h.cells r hr _ hcell hname

theorem mem_records {s : Store} {table : String} {a : Record} :
    a ∈ s.records table ↔ s.table? table = some a.table ∧ a.row ∈ a.table.rows := by
  unfold Store.records
  cases ht : s.table? table with
  | none => simp
  | some t =>
    simp only [List.mem_map, Option.some.injEq]
    constructor
    · rintro ⟨r, hr, rfl⟩
      exact ⟨rfl, hr⟩
    · rintro ⟨rfl, hr⟩
      exact ⟨a.row, hr, rfl⟩

namespace Record

/-- A record that stands in a table that keeps its keys. -/
structure Keyed (a : Record) : Prop where
  table : a.table.Keyed
  row : a.row ∈ a.table.rows

variable {a b : Record} {name other : String}

theorem Keyed.cell_key (h : a.Keyed) (hname : name ∈ keyNames) :
    a.cell name = .null ∨ ∃ n, a.cell name = .integer n := by
  unfold cell Table.cellOf
  split
  · exact .inr ⟨_, rfl⟩
  · split
    · next c hc =>
      have hkey : isKey c.name := by
        refine List.any_eq_true.mpr ⟨name, hname, ?_⟩
        simpa using List.find?_some hc
      exact Cell.isNumber_iff.mp (h.table.cell_isNumber h.row hkey)
    · exact .inl rfl

theorem Keyed.cell_id (h : a.Keyed) :
    a.cell idName = .null ∨ a.cell idName = .integer a.row.id ∧ 0 < a.row.id := by
  have hcolumn : a.table.column? idName = none := by
    refine List.find?_eq_none.mpr fun c hc ↦ ?_
    rw [h.table.other c hc]
    simp
  unfold cell Table.cellOf
  rw [hcolumn]
  split
  · next hrow =>
    refine .inr ⟨rfl, h.table.positive ?_ a.row h.row⟩
    unfold Table.isRowColumn at hrow
    cases hsome : a.table.rowColumn with
    | none => simp [hsome] at hrow
    | some c => rfl
  · exact .inl rfl

/-- Columns that name rows, the row itself among them. -/
def names : List String := idName :: keyNames

theorem Keyed.cell_cases (h : a.Keyed) (hname : name ∈ names) :
    a.cell name = .null ∨ ∃ n, a.cell name = .integer n := by
  rcases List.mem_cons.mp hname with rfl | hname
  · exact h.cell_id.imp id fun hid ↦ ⟨_, hid.1⟩
  · exact h.cell_key hname

theorem Keyed.affinity (h : a.Keyed) (hname : name ∈ names) :
    a.table.affinityOf name = .integer := by
  unfold Table.affinityOf
  split
  · next c hc =>
    have hmem := List.mem_of_find?_eq_some hc
    have hsame : sameName c.name name := by simpa using List.find?_some hc
    rcases List.mem_cons.mp hname with rfl | hname
    · rw [h.table.other c hmem] at hsame
      contradiction
    · exact h.table.integer c hmem (List.any_eq_true.mpr ⟨name, hname, hsame⟩)
  · rfl

/-! ### Comparing columns -/

theorem compare?_integer {c : Cell} (hc : c = .null ∨ ∃ n, c = .integer n) (n : Int64) :
    (c.compare? (.integer n) == some .eq) = true ↔ c = .integer n := by
  rcases hc with rfl | ⟨m, rfl⟩
  · exact iff_of_false nofun nofun
  · simp [Cell.compare?, Cell.order, Int64.toInt_inj]

/-- A column holds a number exactly if that is its cell. -/
theorem Keyed.equals_iff (h : a.Keyed) (hname : name ∈ names) (n : Int64) :
    a.equals name (.integer n) ↔ a.cell name = .integer n := by
  rw [← compare?_integer (h.cell_cases hname) n]
  unfold equals compares
  rw [h.affinity hname]
  simp only [Cell.compared]
  cases (a.cell name).compare? (.integer n) with
  | none => simp
  | some o => cases o <;> simp [Comparison.holds]

theorem Keyed.equals_cell_iff (ha : a.Keyed) (hb : b.Keyed) (hname : name ∈ names)
    (hother : other ∈ names) :
    a.equals name (b.cell other) ↔ ∃ n, a.cell name = .integer n ∧ b.cell other = .integer n := by
  rcases hb.cell_cases hother with heq | ⟨n, heq⟩ <;> rw [heq]
  · have hnull : a.equals name .null = false := compares_null (.inr rfl)
    simp [hnull]
  · rw [ha.equals_iff hname]
    exact ⟨fun hn ↦ ⟨n, hn, rfl⟩, fun ⟨m, hm, heq⟩ ↦ heq ▸ hm⟩

/-- A record that is there keeps its keys. -/
def KeyedIf (a : Option Record) : Prop :=
  ∀ r, a = some r → r.Keyed

theorem cell?_cases {a : Option Record} (h : KeyedIf a) (hname : name ∈ names) :
    cell? a name = .null ∨ ∃ n, cell? a name = .integer n := by
  cases a with
  | none => exact .inl rfl
  | some r => exact (h r rfl).cell_cases hname

/-- Two columns meet where both name the same row. -/
theorem meet_iff {a b : Option Record} (ha : KeyedIf a) (hb : KeyedIf b) (hname : name ∈ names)
    (hother : other ∈ names) :
    meet a name b other ↔ ∃ n, cell? a name = .integer n ∧ cell? b other = .integer n := by
  unfold meet
  rcases cell?_cases hb hother with heq | ⟨n, heq⟩ <;> rw [heq]
  · cases cell? a name <;> simp [Cell.compare?]
  · rw [compare?_integer (cell?_cases ha hname)]
    exact ⟨fun hn ↦ ⟨n, hn, rfl⟩, fun ⟨m, hm, heq⟩ ↦ heq ▸ hm⟩

end Record

/-! ### Rows of tables -/

namespace Store

variable {s : Store} {table : String} {a b : Record}

theorem Keyed.table? (h : s.Keyed) {t : Table} (ht : s.table? table = some t) : t.Keyed :=
  h t (List.mem_of_find?_eq_some ht)

theorem Keyed.record (h : s.Keyed) (ha : a ∈ s.records table) : a.Keyed :=
  ⟨h.table? (mem_records.mp ha).1, (mem_records.mp ha).2⟩

/-- The rows of a table ascend by their numbers. -/
theorem Keyed.pairwise_records (h : s.Keyed) (table : String) :
    (s.records table).Pairwise fun a b ↦ a.row.id < b.row.id := by
  unfold records
  split
  · next t ht =>
    rw [List.pairwise_map]
    exact (h.table? ht).ascending
  · exact .nil

/-- The number tells a row of a table. -/
theorem Keyed.record_ext (h : s.Keyed) (ha : a ∈ s.records table) (hb : b ∈ s.records table)
    (hid : a.row.id = b.row.id) : a = b := by
  have hlt := h.pairwise_records table
  refine List.Pairwise.forall_of_forall_of_flip (R := fun a b ↦ a.row.id = b.row.id →
      a = b) (fun _ _ _ ↦ rfl)
    (hlt.imp fun hab heq ↦ ?_) (hlt.imp fun hab heq ↦ ?_) ha hb hid
  · exact absurd heq (Int64.ne_of_lt hab)
  · exact absurd heq.symm (Int64.ne_of_lt hab)

/-- So do the numbers in the columns of a constraint. -/
theorem Keyed.record_unique (h : s.Keyed) (ha : a ∈ s.records table) (hb : b ∈ s.records table)
    {columns : List String} (hcolumns : columns ∈ a.table.unique)
    (hsame : ∀ c ∈ columns, ∃ n, a.cell c = .integer n ∧ b.cell c = .integer n) : a = b := by
  obtain ⟨htable, hrow⟩ := mem_records.mp ha
  obtain ⟨htable', hrow'⟩ := mem_records.mp hb
  obtain ⟨t, r⟩ := a
  obtain ⟨t', r'⟩ := b
  obtain rfl : t' = t := Option.some.inj (htable'.symm.trans htable)
  have hclash : t'.clash columns r r' := by
    refine List.all_eq_true.mpr fun c hc ↦ ?_
    obtain ⟨n, hr, hr'⟩ : ∃ n, t'.cellOf r c = .integer n ∧ t'.cellOf r' c = .integer n :=
      hsame c hc
    rw [hr, hr']
    exact (Record.compare?_integer (.inr ⟨n, rfl⟩) n).mpr rfl
  have hid : r.id = r'.id := by
    by_contra hne
    have hdiffer := (h.table? htable).unique columns hcolumns r hrow r' hrow' hne
    rw [hclash] at hdiffer
    cases hdiffer
  exact h.record_ext ha hb hid

end Store

end EntityStore
