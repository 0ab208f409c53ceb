import EntityStore.Proofs.Outcome
import EntityStore.Proofs.Store.Order

/-!
What changes leave of a table: which checks a change that succeeds has passed, and the rows after
it.
-/

set_option autoImplicit false

namespace EntityStore

/-- Two cells are equal in either order of them. -/
theorem Cell.compare?_eq_comm {a b : Cell} : a.compare? b = some .eq ↔ b.compare? a = some .eq := by
  have hswap : b.order a = (a.order b).swap := Std.OrientedCmp.eq_swap
  unfold compare?
  cases a <;> cases b <;> simp [hswap]

namespace Table

variable {t t' : Table} {named : String} {values sets : List (String × Cell)}
  {id : Int64} {r s : StoredRow} {rows : List StoredRow} {count : Nat} {columns : List String}

/-! ### Rows in their order -/

theorem mem_insertRow : s ∈ insertRow r rows ↔ s = r ∨ s ∈ rows := by
  induction rows with
  | nil => simp [insertRow]
  | cons x rows ih =>
    unfold insertRow
    split
    · exact List.mem_cons
    · rw [List.mem_cons, ih, List.mem_cons, or_left_comm]

theorem pairwise_insertRow (h : rows.Pairwise fun r s ↦ r.id < s.id)
    (hnew : ∀ s ∈ rows, s.id ≠ r.id) :
    (insertRow r rows).Pairwise fun r s ↦ r.id < s.id := by
  induction rows with
  | nil => exact List.pairwise_singleton _ _
  | cons x rows ih =>
    obtain ⟨hx, hrows⟩ := List.pairwise_cons.mp h
    unfold insertRow
    split
    · next hlt =>
      refine List.pairwise_cons.mpr ⟨fun s hs ↦ ?_, h⟩
      rcases List.mem_cons.mp hs with rfl | hs
      · exact hlt
      · exact Int64.lt_trans hlt (hx s hs)
    · next hge =>
      have hlt : x.id < r.id :=
        Int64.lt_of_le_of_ne (Int64.not_lt.mp hge) (hnew x List.mem_cons_self)
      refine List.pairwise_cons.mpr ⟨fun s hs ↦ ?_,
        ih hrows fun s hs ↦ hnew s (List.mem_cons_of_mem _ hs)⟩
      rcases mem_insertRow.mp hs with rfl | hs
      · exact hlt
      · exact hx s hs

theorem row?_eq_some (h : t.row? id = some r) : r ∈ t.rows ∧ r.id = id :=
  ⟨List.mem_of_find?_eq_some h, by simpa using List.find?_some h⟩

/-! ### Checks -/

theorem clash_comm : t.clash columns r s = t.clash columns s r := by
  unfold clash
  congr 1
  funext c
  rw [Bool.eq_iff_iff, beq_iff_eq, beq_iff_eq]
  exact Cell.compare?_eq_comm

theorem checkRequired_eq_ok :
    t.checkRequired r = .ok () ↔ ∀ c ∈ t.columns, c.required → r.cell c.name ≠ .null := by
  have hnone : (t.columns.find? fun c ↦ c.required && r.cell c.name == .null) = none ↔
      ∀ c ∈ t.columns, c.required → r.cell c.name ≠ .null := by
    simp [List.find?_eq_none]
  rw [← hnone]
  unfold checkRequired
  cases t.columns.find? fun c ↦ c.required && r.cell c.name == .null <;> simp

theorem checkUnique_eq_ok : t.checkUnique rows r = .ok () ↔
    (∀ s ∈ rows, s.id ≠ r.id) ∧ ∀ columns ∈ t.unique, ∀ s ∈ rows, t.clash columns r s = false := by
  have hnone : (t.unique.find? fun columns ↦ rows.any (t.clash columns r)) = none ↔
      ∀ columns ∈ t.unique, ∀ s ∈ rows, t.clash columns r s = false := by
    simp [List.find?_eq_none]
  rw [← hnone]
  unfold checkUnique
  split
  · next hany =>
    obtain ⟨s, hs, hid⟩ : ∃ s ∈ rows, s.id = r.id := by simpa using hany
    exact iff_of_false nofun fun h ↦ h.1 s hs hid
  · next hany =>
    rw [and_iff_right (by simpa using hany)]
    cases t.unique.find? fun columns ↦ rows.any (t.clash columns r) <;> simp

/-! ### The number of a new row -/

theorem le_max_left (a b : Int64) : a ≤ max a b := by
  change a ≤ if a ≤ b then b else a
  split
  · assumption
  · exact Int64.le_refl a

theorem le_max_right (a b : Int64) : b ≤ max a b := by
  change b ≤ if a ≤ b then b else a
  split
  · exact Int64.le_refl b
  · next h => exact Int64.le_of_lt (Int64.not_le.mp h)

theorem lt_succ {n : Int64} (h : n ≠ Int64.maxValue) : n < n + 1 := by
  have hne : n.toInt ≠ 2 ^ 63 - 1 := fun heq ↦ h (Int64.toInt_inj.mp heq)
  have hlt := Int64.toInt_lt n
  have hle := Int64.le_toInt n
  rw [Int64.lt_iff_toInt_lt, Int64.toInt_add, show (1 : Int64).toInt = 1 from
    rfl, Int.bmod_eq_of_le] <;> omega

/-- The next number is above those of all rows and, where numbers are not given twice, above all
given. -/
theorem nextId_eq_ok (h : t.nextId = .ok id) :
    0 < id ∧ (∀ n, t.lastId = some n → n < id) ∧ (t.rowColumn.isSome → t.last < id) := by
  unfold nextId at h
  generalize htop : (if t.rowColumn.isSome && t.lastId.getD 0 < t.last then t.last else
    t.lastId.getD 0) = top at h
  dsimp only at h
  rw [htop] at h
  split at h
  · cases h
  · next hmax =>
    cases h
    have hbelow {n : Int64} (hn : n ≤ top) : n < max 1 (top + 1) :=
      Int64.lt_of_lt_of_le (Int64.lt_of_le_of_lt hn (lt_succ hmax)) (le_max_right 1 (top + 1))
    refine ⟨Int64.lt_of_lt_of_le (by decide) (le_max_left 1 (top + 1)), fun n hn ↦ hbelow ?_,
      fun hsome ↦ hbelow ?_⟩
    · rw [← htop, hn]
      split
      · next hlt => exact Int64.le_of_lt (by simpa using (Bool.and_eq_true_iff.mp hlt).2)
      · exact Int64.le_refl n
    · rw [← htop, hsome]
      split
      · exact Int64.le_refl _
      · next hge => exact Int64.not_lt.mp (by simpa using hge)

/-! ### Adding a row -/

/-- The number that an insert gives its row: the one that it sets, else the next. -/
def idFor (t : Table) (values : List (String × Cell)) : Except StoreError Int64 := do
  let wanted ← match t.rowColumn.bind (given values) with
    | some c => givenId c
    | none => pure none
  match wanted with
  | some id => pure id
  | none => t.nextId

/-- The row that an insert adds. -/
def newRow (t : Table) (values : List (String × Cell)) (id : Int64) : StoredRow :=
  ⟨id, t.columns.filterMap fun c ↦ (given values c.name).map fun v ↦ (c.name, v.stored c.affinity)⟩

/-- The table with a row added. -/
def withRow (t : Table) (r : StoredRow) : Table :=
  { t with
    rows := insertRow r t.rows
    last := if t.rowColumn.isSome then max t.last r.id else t.last }

theorem find?_unknown_eq_none : (values.find? fun (c, _) ↦ !t.hasColumn c) = none ↔
    ∀ x ∈ values, t.hasColumn x.1 := by
  simp [List.find?_eq_none]

theorem insert_eq (h : ∀ x ∈ values, t.hasColumn x.1) : t.insert named values = (do
    let id ← t.idFor values
    t.checkRequired (t.newRow values id)
    t.checkUnique t.rows (t.newRow values id)
    pure (t.withRow (t.newRow values id), id)) := by
  unfold insert idFor
  rw [find?_unknown_eq_none.mpr h]
  cases t.rowColumn.bind (given values) with
  | none => rfl
  | some c =>
    dsimp only
    cases givenId c with
    | error e => rfl
    | ok wanted => cases wanted <;> rfl

/-- An insert succeeds if its columns are there, there is a number for the row, and the row passes
the checks. -/
theorem insert_eq_ok : t.insert named values = .ok (t', id) ↔
    (∀ x ∈ values, t.hasColumn x.1) ∧ t.idFor values = .ok id ∧
      t.checkRequired (t.newRow values id) = .ok () ∧
        t.checkUnique t.rows (t.newRow values id) = .ok () ∧
        t' = t.withRow (t.newRow values id) := by
  by_cases hnamed : ∀ x ∈ values, t.hasColumn x.1
  · rw [insert_eq hnamed, and_iff_right hnamed]
    simp only [Except.bind_eq_ok]
    constructor
    · rintro ⟨_, hid, _, hrequired, _, hunique, heq⟩
      cases heq
      exact ⟨hid, hrequired, hunique, rfl⟩
    · rintro ⟨hid, hrequired, hunique, rfl⟩
      exact ⟨id, hid, (), hrequired, (), hunique, rfl⟩
  · refine iff_of_false (fun h ↦ hnamed (find?_unknown_eq_none.mp ?_)) fun h ↦ hnamed h.1
    unfold insert at h
    cases hfind : values.find? fun (c, _) ↦ !t.hasColumn c with
    | none => rfl
    | some x =>
      rw [hfind] at h
      cases h
/-! ### Changing a row -/

/-- The row of a number, where numbers are shown. -/
def target (t : Table) (id : Int64) : Option StoredRow :=
  if t.rowColumn.isSome then t.row? id else none

theorem target_eq_some (h : t.target id = some r) : t.row? id = some r := by
  unfold target at h
  split at h
  · exact h
  · cases h

/-- The number that an update leaves its row. -/
def idAfter (t : Table) (sets : List (String × Cell)) (id : Int64) : Except StoreError Int64 :=
  match t.rowColumn.bind (given sets.reverse) with
  | some .null => .error .mismatch
  | some c => (givenId c).map fun wanted ↦ wanted.getD id
  | none => .ok id

/-- The row after an update. -/
def changedRow (t : Table) (sets : List (String × Cell)) (old : StoredRow)
    (id : Int64) : StoredRow :=
  { t.setCells sets old with id := id }

/-- The table with another row in place of the one of a number. -/
def withChanged (t : Table) (id : Int64) (r : StoredRow) : Table :=
  { t with rows := if r.id = id then t.rows.map fun s ↦ if s.id == id then r else s
      else insertRow r (t.rows.filter fun s ↦ s.id != id) }

theorem update_eq (h : ∀ x ∈ sets, t.hasColumn x.1) : t.update sets id = match t.target id with
    | none => .ok (t, 0)
    | some old => (do
      let new ← t.idAfter sets id
      t.checkRequired (t.changedRow sets old new)
      t.checkUnique (t.rows.filter fun s ↦ s.id != id) (t.changedRow sets old new)
      pure (t.withChanged id (t.changedRow sets old new), 1)) := by
  unfold update target idAfter
  rw [find?_unknown_eq_none.mpr h]
  cases if t.rowColumn.isSome then t.row? id else none with
  | none => rfl
  | some old =>
    cases t.rowColumn.bind (given sets.reverse) with
    | none => rfl
    | some c =>
      cases c with
      | null => rfl
      | _ =>
        dsimp only
        generalize givenId _ = wanted
        cases wanted <;> rfl

/-- An update that finds no row changes nothing; else the row passes the checks against the
others. -/
theorem update_eq_ok : t.update sets id = .ok (t', count) ↔ (∀ x ∈ sets, t.hasColumn x.1) ∧
    (t.target id = none ∧ t' = t ∧ count = 0 ∨
      ∃ old new, t.target id = some old ∧ t.idAfter sets id = .ok new ∧
        t.checkRequired (t.changedRow sets old new) = .ok () ∧
        t.checkUnique (t.rows.filter fun s ↦ s.id != id) (t.changedRow sets old new) = .ok () ∧
        t' = t.withChanged id (t.changedRow sets old new) ∧ count = 1) := by
  by_cases hnamed : ∀ x ∈ sets, t.hasColumn x.1
  · rw [update_eq hnamed, and_iff_right hnamed]
    cases t.target id with
    | none => simp [eq_comm]
    | some old =>
      simp only [Except.bind_eq_ok]
      constructor
      · rintro ⟨new, hid, _, hrequired, _, hunique, heq⟩
        cases heq
        exact .inr ⟨old, new, rfl, hid, hrequired, hunique, rfl, rfl⟩
      · rintro (⟨⟨⟩, -⟩ | ⟨_, new, ⟨⟩, hid, hrequired, hunique, rfl, rfl⟩)
        exact ⟨new, hid, (), hrequired, (), hunique, rfl⟩
  · refine iff_of_false (fun h ↦ hnamed (find?_unknown_eq_none.mp ?_)) fun h ↦ hnamed h.1
    unfold update at h
    cases hfind : sets.find? fun (c, _) ↦ !t.hasColumn c with
    | none => rfl
    | some x =>
      rw [hfind] at h
      cases h

/-! ### Adding a column -/

theorem addColumn_eq_ok {c : Column} {foreign : List ForeignKey} : t.addColumn c foreign = .ok t' ↔
    t.hasColumn c.name = false ∧
    t' = { t with columns := t.columns ++ [c], foreign := t.foreign ++ foreign } := by
  unfold addColumn
  cases t.hasColumn c.name <;> simp [eq_comm]

end Table

end EntityStore
