import EntityStore.Proofs.Store.Statement
import Mathlib.Data.List.Pairwise

/-!
Rows by their numbers, and the cells of rows, before and after a change. The rows of a table ascend
by their numbers, so that a number finds one row, and no two columns have one name.
-/

set_option autoImplicit false

namespace EntityStore.Table

variable {t : Table} {r : StoredRow} {rows : List StoredRow} {id n : Int64}
  {values sets : List (String × Cell)} {name : String}

/-! ### Rows by number -/

theorem find?_id_eq_some_iff (h : rows.Pairwise fun r s ↦ r.id < s.id) :
    rows.find? (fun s ↦ s.id == id) = some r ↔ r ∈ rows ∧ r.id = id := by
  constructor
  · intro hfind
    exact ⟨List.mem_of_find?_eq_some hfind, by simpa using List.find?_some hfind⟩
  · rintro ⟨hr, rfl⟩
    induction rows with
    | nil => cases hr
    | cons s rows ih =>
      obtain ⟨hs, hrows⟩ := List.pairwise_cons.mp h
      rcases List.mem_cons.mp hr with rfl | hr
      · simp
      · have hne : s.id ≠ r.id := fun heq ↦ Int64.lt_irrefl (heq ▸ hs r hr)
        rw [List.find?_cons_of_neg (by simpa using hne), ih hrows hr]

theorem row?_eq_some_iff (h : t.rows.Pairwise fun r s ↦ r.id < s.id) :
    t.row? id = some r ↔ r ∈ t.rows ∧ r.id = id :=
  find?_id_eq_some_iff h

/-- Rows are found alike if they are the same but for some numbers. -/
theorem find?_id_congr {rows' : List StoredRow} (h : rows.Pairwise fun r s ↦ r.id < s.id)
    (h' : rows'.Pairwise fun r s ↦ r.id < s.id) (hsame : ∀ r, r.id = id → (r ∈ rows ↔ r ∈ rows')) :
    rows.find? (fun s ↦ s.id == id) = rows'.find? fun s ↦ s.id == id := by
  ext r
  rw [find?_id_eq_some_iff h, find?_id_eq_some_iff h']
  exact and_congr_left fun hid ↦ hsame r hid

/-- An added row is found by its number, every other one as before. -/
theorem row?_withRow (h : t.rows.Pairwise fun r s ↦ r.id < s.id)
    (hnew : ∀ s ∈ t.rows, s.id ≠ r.id) :
    (t.withRow r).row? n = if n = r.id then some r else t.row? n := by
  have hrows := pairwise_insertRow h hnew
  split
  · next heq => exact (find?_id_eq_some_iff hrows).mpr ⟨mem_insertRow.mpr (.inl rfl), heq.symm⟩
  · next hne =>
    refine find?_id_congr hrows h fun s hs ↦ mem_insertRow.trans (or_iff_right ?_)
    rintro rfl
    exact hne hs.symm

/-- The rows after a change of one of them. -/
theorem withChanged_rows (hid : r.id = id) :
    (t.withChanged id r).rows = t.rows.map fun s ↦ if s.id == id then r else s := by
  unfold withChanged
  rw [if_pos hid]

theorem row?_withChanged (hid : r.id = id) :
    (t.withChanged id r).row? n = if n = id then (t.row? n).map fun _ ↦ r else t.row? n := by
  have hsame (s : StoredRow) :
      ((fun s ↦ s.id == n) ∘ fun s ↦ if s.id == id then r else s) s = (s.id == n) := by
    by_cases heq : s.id = id
    · simp [heq, hid]
    · simp [heq]
  unfold row?
  rw [withChanged_rows hid, List.find?_map, funext hsame]
  cases hfind : t.rows.find? fun s ↦ s.id == n with
  | none => simp
  | some s =>
    have hs : s.id = n := by simpa using List.find?_some hfind
    by_cases heq : n = id <;> simp [hs, heq]

/-- Rows that stay are found as before, others not at all. -/
theorem row?_filter (h : t.rows.Pairwise fun r s ↦ r.id < s.id) (p : StoredRow → Bool) :
    { t with rows := t.rows.filter p : Table }.row? n = (t.row? n).filter p := by
  ext r
  rw [row?_eq_some_iff (h.filter p), Option.filter_eq_some_iff, row?_eq_some_iff h, List.mem_filter]
  exact and_right_comm

/-- A row with a greater number than all comes last. -/
theorem insertRow_eq_append (h : ∀ s ∈ rows, s.id < r.id) : insertRow r rows = rows ++ [r] := by
  induction rows with
  | nil => rfl
  | cons s rows ih =>
    obtain ⟨hs, hrows⟩ := List.forall_mem_cons.mp h
    unfold insertRow
    rw [if_neg (Int64.not_lt.mpr (Int64.le_of_lt hs)), ih hrows]
    rfl

/-- The next number is greater than those of all rows. -/
theorem lt_nextId (h : t.rows.Pairwise fun r s ↦ r.id < s.id) (hnext : t.nextId = .ok id) :
    ∀ s ∈ t.rows, s.id < id := by
  intro s hs
  obtain ⟨-, hlast, -⟩ := nextId_eq_ok hnext
  cases hrows : t.rows.getLast? with
  | none =>
    rw [List.getLast?_eq_none_iff.mp hrows] at hs
    cases hs
  | some last =>
    have hlt : last.id < id := hlast last.id (by simp [lastId, hrows])
    obtain ⟨before, hbefore⟩ := List.getLast?_eq_some_iff.mp hrows
    rw [hbefore, List.pairwise_append] at h
    rw [hbefore] at hs
    rcases List.mem_append.mp hs with hs | hs
    · exact Int64.lt_trans (h.2.2 s hs last List.mem_cons_self) hlt
    · rwa [List.mem_singleton.mp hs]

/-! ### Cells -/

/-- The names of columns differ, also in more than the case of letters. -/
def Distinct (columns : List Column) : Prop :=
  columns.Pairwise fun c d ↦ sameName c.name d.name = false

theorem sameName_refl (a : String) : sameName a a := by
  simp [sameName]

/-- The cell of a row that holds for each column what a function gives. -/
theorem cell_filterMap {columns : List Column} (h : Distinct columns)
    {f : Column → Option (String × Cell)} (hf : ∀ c ∈ columns, ∀ x ∈ f c, x.1 = c.name) {c : Column}
    (hc : c ∈ columns) :
    StoredRow.cell ⟨id, columns.filterMap f⟩ c.name = ((f c).map Prod.snd).getD .null := by
  unfold StoredRow.cell
  congr 2
  induction columns with
  | nil => cases hc
  | cons d columns ih =>
    obtain ⟨hd, hcolumns⟩ := List.pairwise_cons.mp h
    obtain ⟨hfd, hrest⟩ := List.forall_mem_cons.mp hf
    rcases List.mem_cons.mp hc with rfl | hc
    · cases hfc : f c with
      | some x => simp [hfc, hfd x hfc]
      | none =>
        rw [List.filterMap_cons_none hfc, List.find?_eq_none]
        intro x hx
        obtain ⟨d, hdin, hfx⟩ := List.mem_filterMap.mp hx
        intro heq
        have heq : d.name = c.name := (hrest d hdin x hfx).symm.trans (beq_iff_eq.mp heq)
        have hdiff := hd d hdin
        rw [heq, sameName_refl] at hdiff
        cases hdiff
    · have hne : d.name ≠ c.name := fun heq ↦ by
        have hdiff := hd c hc
        rw [heq, sameName_refl] at hdiff
        cases hdiff
      rw [List.filterMap_cons]
      split
      · exact ih hcolumns hrest hc
      · next x hfx =>
        have hx : x.1 ≠ c.name := by rwa [hfd x hfx]
        rw [List.find?_cons_of_neg (by simpa using hx)]
        exact ih hcolumns hrest hc

theorem cell_eq_null (h : ∀ x ∈ r.cells, x.1 ≠ name) : r.cell name = .null := by
  unfold StoredRow.cell
  rw [List.find?_eq_none.mpr fun x hx ↦ by simpa using h x hx]
  rfl

theorem cell_newRow (h : Distinct t.columns) {c : Column} (hc : c ∈ t.columns) :
    (t.newRow values id).cell c.name =
      ((given values c.name).map (Cell.stored c.affinity)).getD .null := by
  unfold newRow
  rw [cell_filterMap h (fun d _ x hx ↦ ?_) hc, Option.map_map]
  · rfl
  · obtain ⟨v, -, rfl⟩ := Option.map_eq_some_iff.mp hx
    rfl

theorem cell_newRow_other (h : ∀ c ∈ t.columns, c.name ≠ name) :
    (t.newRow values id).cell name = .null := by
  refine cell_eq_null fun x hx ↦ ?_
  obtain ⟨c, hc, hx⟩ := List.mem_filterMap.mp hx
  obtain ⟨v, -, rfl⟩ := Option.map_eq_some_iff.mp hx
  exact h c hc

theorem cell_changedRow (h : Distinct t.columns) {c : Column} (hc : c ∈ t.columns) :
    (t.changedRow sets r id).cell c.name =
      ((given sets.reverse c.name).map (Cell.stored c.affinity)).getD (r.cell c.name) := by
  unfold changedRow setCells
  rw [cell_filterMap h (fun d _ x hx ↦ ?_) hc]
  · cases given sets.reverse c.name with
    | some v => rfl
    | none => rfl
  · split at hx
    · cases hx
      rfl
    · simpa using List.find?_some hx

theorem cell_changedRow_other (h : ∀ c ∈ t.columns, c.name ≠ name) :
    (t.changedRow sets r id).cell name = .null := by
  refine cell_eq_null fun x hx ↦ ?_
  obtain ⟨c, hc, hx⟩ := List.mem_filterMap.mp hx
  split at hx
  · cases hx
    exact h c hc
  · have hname : x.1 = c.name := by simpa using List.find?_some hx
    rw [hname]
    exact h c hc

/-- Among names that are the same only if they are equal, a look-up ignores the case of letters. -/
theorem given_eq_lookup (h : ∀ x ∈ values, sameName x.1 name → x.1 = name) :
    given values name = values.lookup name := by
  induction values with
  | nil => rfl
  | cons x values ih =>
    obtain ⟨hx, hvalues⟩ := List.forall_mem_cons.mp h
    obtain ⟨other, v⟩ := x
    have ih := ih hvalues
    unfold given at ih ⊢
    rw [List.lookup_cons]
    by_cases heq : name = other
    · subst heq
      simp [sameName_refl]
    · have hdiff : sameName other name = false :=
        Bool.eq_false_iff.mpr fun hsame ↦ heq (hx hsame).symm
      rw [List.find?_cons_of_neg (by simp [hdiff]), beq_eq_false_iff_ne.mpr heq]
      exact ih

end EntityStore.Table
