import EntityStore.Proofs.Mapping.Growth

/-!
Tables that take and refuse the same rows, though their columns are not declared alike. A column may
have another type where its cells are not compared, may not be required where it is filled anyhow,
and there may be others that are empty.
-/

set_option autoImplicit false

namespace EntityStore

open Mapping

/-- Errors of the same kind: a required cell or a constraint of the same table, or the same
error. -/
inductive StoreError.Alike : StoreError → StoreError → Prop
  | refl (e : StoreError) : Alike e e
  | notNull (table c d : String) : Alike (.notNull table c) (.notNull table d)
  | unique (table : String) (cs ds : List String) : Alike (.unique table cs) (.unique table ds)

theorem Cell.numberOf?_ne_null (s : String) : numberOf? s ≠ some .null := by
  unfold numberOf?
  dsimp only
  intro h
  rw [Option.orElse_eq_orElse, Option.orElse_eq_or, Option.or_eq_some_iff] at h
  rcases h with hwhole | ⟨-, hreal⟩
  · obtain ⟨-, hwhole⟩ := Option.ite_none_right_eq_some.mp hwhole
    obtain ⟨_, -, heq⟩ := Option.map_eq_some_iff.mp hwhole
    cases heq
  · obtain ⟨_, -, heq⟩ := Option.map_eq_some_iff.mp hreal
    cases heq

theorem Cell.stored_eq_null {a : Affinity} {c : Cell} : c.stored a = .null ↔ c = .null := by
  refine ⟨fun h ↦ ?_, fun h ↦ by rw [h]; cases a <;> rfl⟩
  unfold stored at h
  split at h
  · next s =>
    split at h
    · unfold wholeReal at h
      split at h
      · split at h <;> cases h
      · cases h
    · next hnumber =>
      rw [h] at hnumber
      exact absurd hnumber (numberOf?_ne_null s)
    · cases h
  · unfold wholeReal at h
    split at h
    · split at h <;> cases h
    · cases h
  · cases h
  · cases h
  · split at h <;> cases h
  · cases h
  · cases h
  · exact h

namespace Table

variable {A : String → Prop} {t u : Table} {r s : StoredRow} {name named : String}
  {values sets : List (String × Cell)} {id : Int64} {others others' : List StoredRow}

/-- The cells of a column are compared, with those of other rows or with numbers of rows. -/
def Compares (t : Table) (name : String) : Prop :=
  isKey name ∨ ∃ columns ∈ t.unique, name ∈ columns

/-- A table that takes and refuses what another one does, if certain columns are filled anyhow. -/
structure Mirrored (A : String → Prop) (t u : Table) : Prop where
  name : u.name = t.name
  rowColumn : u.rowColumn = t.rowColumn
  foreign : u.foreign = t.foreign
  keys : ∀ key ∈ t.foreign, isKey key.column ∧ ∃ c ∈ t.columns, c.name = key.column
  column : ∀ c ∈ t.columns, ∃ d ∈ u.columns, d.name = c.name ∧ (d.required → c.required) ∧
    (c.required → d.required ∨ A c.name) ∧ (t.Compares c.name → d.affinity = c.affinity)
  other : ∀ d ∈ u.columns, (∃ c ∈ t.columns, c.name = d.name) ∨ d.required = false ∧
    t.hasColumn d.name = false
  named : ∀ columns ∈ t.unique, ∀ name ∈ columns, ∃ c ∈ t.columns, c.name = name
  kept : ∀ columns ∈ t.unique, columns ∈ u.unique
  unique : ∀ columns ∈ u.unique, columns ∈ t.unique ∨ ∃ name ∈ columns, t.hasColumn name = false

/-- Rows of the two tables with the same cells, as far as these count. -/
structure RowMirrored (t u : Table) (r s : StoredRow) : Prop where
  id : s.id = r.id
  null : ∀ c ∈ t.columns, s.cell c.name = .null ↔ r.cell c.name = .null
  same : ∀ c ∈ t.columns, t.Compares c.name → s.cell c.name = r.cell c.name
  other : ∀ d ∈ u.columns, t.hasColumn d.name = false → s.cell d.name = .null

/-- The two tables hold the same rows. -/
structure Mirrors (A : String → Prop) (t u : Table) : Prop where
  shape : Mirrored A t u
  last : u.last = t.last
  rows : List.Forall₂ (RowMirrored t u) t.rows u.rows

/-- A row has more than null in the columns that are filled anyhow. -/
def Assured (A : String → Prop) (t : Table) (r : StoredRow) : Prop :=
  ∀ c ∈ t.columns, c.required → A c.name → r.cell c.name ≠ .null

theorem hasColumn_of_named (h : ∃ c ∈ t.columns, c.name = name) : t.hasColumn name := by
  obtain ⟨c, hc, rfl⟩ := h
  exact hasColumn_of_mem hc

/-! ### Rows in their order -/

theorem forall₂_insertRow {R : StoredRow → StoredRow → Prop} (hid : ∀ r s, R r s → s.id = r.id)
    {rows rows' : List StoredRow} (h : List.Forall₂ R rows rows') (hrs : R r s) :
    List.Forall₂ R (insertRow r rows) (insertRow s rows') := by
  induction h with
  | nil => exact .cons hrs .nil
  | @cons x y rows rows' hxy hrows ih =>
    unfold insertRow
    rw [hid _ _ hrs, hid _ _ hxy]
    split
    · exact .cons hrs (.cons hxy hrows)
    · exact .cons hxy ih

namespace RowMirrored

theorem ids (h : List.Forall₂ (RowMirrored t u) others others') :
    others'.map StoredRow.id = others.map StoredRow.id := by
  induction h with
  | nil => rfl
  | cons hrs _ ih => rw [List.map_cons, List.map_cons, hrs.id, ih]

theorem find? (h : List.Forall₂ (RowMirrored t u) others others') (id : Int64) :
    others.find? (fun r ↦ r.id == id) = none ∧ others'.find? (fun r ↦ r.id == id) = none ∨
      ∃ r s, others.find? (fun r ↦ r.id == id) = some r ∧
        others'.find? (fun r ↦ r.id == id) = some s ∧ RowMirrored t u r s := by
  induction h with
  | nil => exact .inl ⟨rfl, rfl⟩
  | @cons r s others others' hrs _ ih =>
    rw [List.find?_cons, List.find?_cons, hrs.id]
    split
    · exact .inr ⟨r, s, rfl, rfl, hrs⟩
    · exact ih

theorem filter {p q : StoredRow → Bool} (h : List.Forall₂ (RowMirrored t u) others others')
    (hpq : ∀ r ∈ others, ∀ s, RowMirrored t u r s → q s = p r) :
    List.Forall₂ (RowMirrored t u) (others.filter p) (others'.filter q) := by
  induction h with
  | nil => exact .nil
  | @cons r s others others' hrs _ ih =>
    have hrest := ih fun r' hr' ↦ hpq r' (List.mem_cons_of_mem _ hr')
    rw [List.filter_cons, List.filter_cons, hpq r List.mem_cons_self s hrs]
    split
    · exact .cons hrs hrest
    · exact hrest

end RowMirrored

namespace Mirrored

variable (h : Mirrored A t u) (ht : t.Keyed) (hu : u.Keyed) (hdt : Distinct t.columns)
  (hdu : Distinct u.columns)

include h

theorem hasColumn (hname : ∃ c ∈ t.columns, c.name = name) : u.hasColumn name := by
  obtain ⟨c, hc, rfl⟩ := hname
  obtain ⟨d, hd, hname, -⟩ := h.column c hc
  exact hname ▸ hasColumn_of_mem hd

include ht hu hdt hdu

/-- A column that both tables have. -/
theorem cellOf_eq (hr : RowMirrored t u r s) {c : Column} (hc : c ∈ t.columns)
    (hcompares : t.Compares c.name) :
    u.cellOf s c.name = t.cellOf r c.name := by
  obtain ⟨d, hd, hname, -⟩ := h.column c hc
  have hcell : u.cellOf s d.name = s.cell d.name := hu.cellOf_name hdu hd
  rw [ht.cellOf_name hdt hc, ← hr.same c hc hcompares, ← hname, hcell]

omit ht hdt hu hdu in
theorem cellOf_null (hr : RowMirrored t u r s) (hnew : t.hasColumn name = false) :
    u.cellOf s name = .null := by
  obtain ⟨hrow, -⟩ := Bool.or_eq_false_iff.mp hnew
  unfold cellOf
  rw [show u.isRowColumn name = t.isRowColumn name by unfold isRowColumn; rw [h.rowColumn], hrow]
  rw [if_neg Bool.false_ne_true]
  split
  · next d hd =>
    have hsame : sameName d.name name := by simpa using List.find?_some hd
    exact hr.other d (List.mem_of_find?_eq_some hd) ((hasColumn_congr hsame).trans hnew)
  · rfl

/-! ### Checks -/

omit ht hu hdt in
theorem checkRequired_both (hr : RowMirrored t u r s) (hassured : Assured A t r) :
    Except.Both StoreError.Alike (fun _ _ ↦ True) (t.checkRequired r) (u.checkRequired s) := by
  have hiff : t.checkRequired r = .ok () ↔ u.checkRequired s = .ok () := by
    rw [checkRequired_eq_ok, checkRequired_eq_ok]
    refine ⟨fun hall d hd hrequired ↦ ?_, fun hall c hc hrequired ↦ ?_⟩
    · obtain ⟨c, hc, hname⟩ := (h.other d hd).resolve_right fun hnot ↦ by
        rw [hnot.1] at hrequired
        cases hrequired
      obtain ⟨d', hd', hname', hless, -⟩ := h.column c hc
      obtain rfl : d' = d :=
        hdu.eq_of_sameName hd' hd (by rw [hname', hname]; exact sameName_refl _)
      rw [← hname]
      exact fun hnull ↦ hall c hc (hless hrequired) ((hr.null c hc).mp hnull)
    · obtain ⟨d, hd, hname, -, hmore, -⟩ := h.column c hc
      rcases hmore hrequired with hrequired' | hfilled
      · exact fun hnull ↦ hall d hd hrequired' (hname ▸ (hr.null c hc).mpr hnull)
      · exact hassured c hc hrequired hfilled
  unfold checkRequired at hiff ⊢
  rw [h.name]
  split at hiff <;> split at hiff
  · exact .error (.notNull _ _ _)
  · exact absurd (hiff.mpr rfl) nofun
  · exact absurd (hiff.mp rfl) nofun
  · exact .ok trivial

theorem clash_eq (hr : RowMirrored t u r s) {x y : StoredRow} (hxy : RowMirrored t u x y)
    {columns : List String} (hcolumns : columns ∈ t.unique) :
    u.clash columns s y = t.clash columns r x := by
  unfold clash
  rw [Bool.eq_iff_iff, List.all_eq_true, List.all_eq_true]
  refine forall₂_congr fun name hname ↦ ?_
  obtain ⟨c, hc, rfl⟩ := h.named columns hcolumns name hname
  have hcompares : t.Compares c.name := .inr ⟨columns, hcolumns, hname⟩
  rw [h.cellOf_eq ht hu hdt hdu hr hc hcompares, h.cellOf_eq ht hu hdt hdu hxy hc hcompares]

theorem checkUnique_both (hr : RowMirrored t u r s)
    (hothers : List.Forall₂ (RowMirrored t u) others others') :
    Except.Both StoreError.Alike (fun _ _ ↦ True) (t.checkUnique others r)
      (u.checkUnique others' s) := by
  have hiff : t.checkUnique others r = .ok () ↔ u.checkUnique others' s = .ok () := by
    rw [checkUnique_eq_ok, checkUnique_eq_ok]
    refine and_congr ⟨fun hall y hy ↦ ?_, fun hall x hx ↦ ?_⟩ ⟨fun hall columns hcolumns y hy ↦ ?_,
      fun hall columns hcolumns x hx ↦ ?_⟩
    · obtain ⟨x, hx, hxy⟩ := List.forall₂_exists_right hothers y hy
      rw [hxy.id, hr.id]
      exact hall x hx
    · obtain ⟨y, hy, hxy⟩ := List.forall₂_exists_left hothers x hx
      rw [← hxy.id, ← hr.id]
      exact hall y hy
    · obtain ⟨x, hx, hxy⟩ := List.forall₂_exists_right hothers y hy
      rcases h.unique columns hcolumns with hin | ⟨name, hname, hnew⟩
      · rw [h.clash_eq ht hu hdt hdu hr hxy hin]
        exact hall columns hin x hx
      · -- a constraint over a column that is empty
        refine List.all_eq_false.mpr ⟨name, hname, ?_⟩
        rw [h.cellOf_null hr hnew]
        exact nofun
    · obtain ⟨y, hy, hxy⟩ := List.forall₂_exists_left hothers x hx
      rw [← h.clash_eq ht hu hdt hdu hr hxy hcolumns]
      exact hall columns (h.kept columns hcolumns) y hy
  have hcases (t : Table) (rows : List StoredRow) (r : StoredRow) : t.checkUnique rows r = .ok () ∨
      ∃ columns, t.checkUnique rows r = .error (.unique t.name columns) := by
    unfold checkUnique
    split
    · exact .inr ⟨_, rfl⟩
    · split
      · exact .inr ⟨_, rfl⟩
      · exact .inl rfl
  rcases hcases t others r with hok | ⟨columns, herror⟩
  · rw [hok, hiff.mp hok]
    exact .ok trivial
  · rcases hcases u others' s with hok | ⟨columns', herror'⟩
    · rw [hiff.mpr hok] at herror
      cases herror
    · rw [herror, herror', h.name]
      exact .error (.unique _ _ _)

/-! ### Rows that statements write -/

omit ht hu in
theorem newRow (id : Int64) (hvalues : ∀ x ∈ values, ∃ c ∈ t.columns, c.name = x.1) :
    RowMirrored t u (t.newRow values id) (u.newRow values id) where
  id := rfl
  null c hc := by
    obtain ⟨d, hd, hname, -⟩ := h.column c hc
    rw [cell_newRow hdt hc, ← hname, cell_newRow hdu hd]
    cases given values d.name with
    | none => exact Iff.rfl
    | some v => exact Cell.stored_eq_null.trans Cell.stored_eq_null.symm
  same c hc hcompares := by
    obtain ⟨d, hd, hname, -, -, haffinity⟩ := h.column c hc
    rw [cell_newRow hdt hc, ← hname, cell_newRow hdu hd, haffinity hcompares]
  other d hd hnew := by
    rw [cell_newRow hdu hd,
      given_eq_none_of_new (fun x hx ↦ hasColumn_of_named (hvalues x hx)) hnew]
    rfl

omit ht hu in
theorem changedRow (id : Int64) (hsets : ∀ x ∈ sets, ∃ c ∈ t.columns, c.name = x.1)
    (hr : RowMirrored t u r s) :
    RowMirrored t u (t.changedRow sets r id) (u.changedRow sets s id) where
  id := rfl
  null c hc := by
    obtain ⟨d, hd, hname, -⟩ := h.column c hc
    have hold := hr.null c hc
    rw [cell_changedRow hdt hc, ← hname, cell_changedRow hdu hd]
    rw [← hname] at hold
    cases given sets.reverse d.name with
    | none => exact hold
    | some v => exact Cell.stored_eq_null.trans Cell.stored_eq_null.symm
  same c hc hcompares := by
    obtain ⟨d, hd, hname, -, -, haffinity⟩ := h.column c hc
    have hold := hr.same c hc hcompares
    rw [cell_changedRow hdt hc, ← hname, cell_changedRow hdu hd, haffinity hcompares]
    rw [← hname] at hold
    rw [hold]
  other d hd hnew := by
    rw [cell_changedRow hdu hd,
      given_eq_none_of_new (fun x hx ↦ hasColumn_of_named (hsets x (List.mem_reverse.mp hx))) hnew]
    exact hr.other d hd hnew

/-- A column that names rows, or the row number. -/
theorem cellOf_key (hr : RowMirrored t u r s)
    (hname : t.isRowColumn name ∨ isKey name ∧ ∃ c ∈ t.columns, c.name = name) :
    u.cellOf s name = t.cellOf r name := by
  rcases hname with hrow | ⟨hkey, c, hc, rfl⟩
  · unfold cellOf
    rw [show u.isRowColumn name = t.isRowColumn name by
      unfold isRowColumn; rw [h.rowColumn], if_pos hrow, if_pos hrow, hr.id]
  · exact h.cellOf_eq ht hu hdt hdu hr hc (.inl hkey)

end Mirrored

/-! ### Statements -/

theorem RowMirrored.holding (h : RowMirrored t u r s) (t' u' : Table) : RowMirrored (t.holding t')
    (u.holding u') r s :=
  ⟨h.id, h.null, h.same, h.other⟩

namespace Mirrors

variable (h : Mirrors A t u)

include h

theorem holding (t' u' : Table) (hlast : u'.last = t'.last)
    (hrows : List.Forall₂ (RowMirrored t u) t'.rows u'.rows) :
    Mirrors A (t.holding t') (u.holding u') where
  shape := ⟨h.shape.name, h.shape.rowColumn, h.shape.foreign, h.shape.keys, h.shape.column,
    h.shape.other, h.shape.named, h.shape.kept, h.shape.unique⟩
  last := hlast
  rows := hrows.imp fun _ _ hrs ↦ hrs.holding t' u'

theorem nextId_eq : u.nextId = t.nextId := by
  unfold nextId lastId
  rw [← List.getLast?_map, ← List.getLast?_map, RowMirrored.ids h.rows, h.shape.rowColumn, h.last]

theorem row? (id : Int64) : t.row? id = none ∧ u.row? id = none ∨
    ∃ r s, t.row? id = some r ∧ u.row? id = some s ∧ RowMirrored t u r s :=
  RowMirrored.find? h.rows id

variable (ht : t.Keyed) (hu : u.Keyed) (hdt : Distinct t.columns) (hdu : Distinct u.columns)

include ht hu hdt hdu

theorem insert_both (named : String) (hvalues : ∀ x ∈ values, ∃ c ∈ t.columns, c.name = x.1)
    (hassured : ∀ id, Assured A t (t.newRow values id)) :
    Except.Both StoreError.Alike (fun x y ↦ y.2 = x.2 ∧ Mirrors A x.1 y.1) (t.insert named values)
      (u.insert named values) := by
  have hidFor : u.idFor values = t.idFor values := by
    unfold idFor
    rw [h.shape.rowColumn, h.nextId_eq]
  rw [insert_eq fun x hx ↦ hasColumn_of_named (hvalues x hx),
    insert_eq fun x hx ↦ h.shape.hasColumn (hvalues x hx), hidFor]
  cases t.idFor values with
  | error e => exact .error (.refl e)
  | ok id =>
    have hrow := h.shape.newRow hdt hdu id hvalues
    have hmirrors : Mirrors A (t.withRow (t.newRow values id))
        (u.withRow (u.newRow values id)) := by
      refine h.holding (t.withRow _) (u.withRow _) ?_
        (forall₂_insertRow (fun _ _ hrs ↦ hrs.id) h.rows hrow)
      unfold withRow
      dsimp only
      rw [h.shape.rowColumn, h.last]
      rfl
    refine .bind (Q := fun a b ↦ id = a ∧ id = b) (.ok ⟨rfl, rfl⟩) ?_
    rintro _ _ ⟨rfl, rfl⟩
    refine .bind (h.shape.checkRequired_both hdu hrow (hassured id)) fun _ _ _ ↦
      .bind (h.shape.checkUnique_both ht hu hdt hdu hrow h.rows) fun _ _ _ ↦ ?_
    exact .ok ⟨rfl, hmirrors⟩

theorem update_both (id : Int64) (hsets : ∀ x ∈ sets, ∃ c ∈ t.columns, c.name = x.1)
    (hassured : ∀ old ∈ t.rows, ∀ new, Assured A t (t.changedRow sets old new)) :
    Except.Both StoreError.Alike (fun x y ↦ y.2 = x.2 ∧ Mirrors A x.1 y.1) (t.update sets id)
      (u.update sets id) := by
  have hidAfter : u.idAfter sets id = t.idAfter sets id := by
    unfold idAfter
    rw [h.shape.rowColumn]
  rw [update_eq fun x hx ↦ hasColumn_of_named (hsets x hx),
    update_eq fun x hx ↦ h.shape.hasColumn (hsets x hx), hidAfter]
  have htarget : t.target id = none ∧ u.target id = none ∨
      ∃ r s, t.target id = some r ∧ u.target id = some s ∧ r ∈ t.rows ∧ RowMirrored t u r s := by
    unfold target
    rw [h.shape.rowColumn]
    split
    · refine (h.row? id).imp_right ?_
      rintro ⟨r, s, hr, hs, hrs⟩
      exact ⟨r, s, hr, hs, (row?_eq_some hr).1, hrs⟩
    · exact .inl ⟨rfl, rfl⟩
  rcases htarget with ⟨hnone, hnone'⟩ | ⟨r, s, hr, hs, hmem, hrs⟩
  · rw [hnone, hnone']
    exact .ok ⟨rfl, h⟩
  · rw [hr, hs]
    dsimp only
    cases t.idAfter sets id with
    | error e => exact .error (.refl e)
    | ok new =>
      have hrow := h.shape.changedRow hdt hdu new hsets hrs
      have hothers : List.Forall₂ (RowMirrored t u) (t.rows.filter fun x ↦ x.id != id)
          (u.rows.filter fun x ↦ x.id != id) :=
        RowMirrored.filter h.rows fun x _ y hxy ↦ by rw [hxy.id]
      have hmirrors : Mirrors A (t.withChanged id (t.changedRow sets r new))
          (u.withChanged id (u.changedRow sets s new)) := by
        refine h.holding (t.withChanged id _) (u.withChanged id _) h.last ?_
        unfold withChanged
        dsimp only
        rw [hrow.id]
        split
        · refine List.forall₂_map_left_iff.mpr
            (List.forall₂_map_right_iff.mpr (h.rows.imp fun x y hxy ↦ ?_))
          rw [hxy.id]
          split
          · exact hrow
          · exact hxy
        · exact forall₂_insertRow (fun _ _ hxy ↦ hxy.id) hothers hrow
      refine .bind (Q := fun a b ↦ new = a ∧ new = b) (.ok ⟨rfl, rfl⟩) ?_
      rintro _ _ ⟨rfl, rfl⟩
      refine .bind (h.shape.checkRequired_both hdu hrow (hassured r hmem new)) fun _ _ _ ↦
        .bind (h.shape.checkUnique_both ht hu hdt hdu hrow hothers) fun _ _ _ ↦ ?_
      exact .ok ⟨rfl, hmirrors⟩

theorem delete_both {keys : List (String × Int64)}
    (hkeys : ∀ x ∈ keys, t.isRowColumn x.1 ∨ isKey x.1 ∧ ∃ c ∈ t.columns, c.name = x.1) :
    Mirrors A (t.delete keys).1 (u.delete keys).1 ∧
    (u.delete keys).2.map StoredRow.id = (t.delete keys).2.map StoredRow.id := by
  have hgoes : ∀ r ∈ t.rows, ∀ s, RowMirrored t u r s →
      (keys.all fun key ↦ u.hasColumn key.1 &&
          (u.cellOf s key.1).compare? (.integer key.2) == some .eq) =
        keys.all fun key ↦ t.hasColumn key.1 &&
          (t.cellOf r key.1).compare? (.integer key.2) == some .eq := by
    intro r _ s hrs
    rw [Bool.eq_iff_iff, List.all_eq_true, List.all_eq_true]
    refine forall₂_congr fun x hx ↦ ?_
    have hhas : t.hasColumn x.1 = true ∧ u.hasColumn x.1 = true := by
      rcases hkeys x hx with hrow | ⟨-, hcolumn⟩
      · have hrow' : u.isRowColumn x.1 := by
          unfold isRowColumn at hrow ⊢
          rwa [h.shape.rowColumn]
        exact ⟨Bool.or_eq_true_iff.mpr (.inl hrow), Bool.or_eq_true_iff.mpr (.inl hrow')⟩
      · exact ⟨hasColumn_of_named hcolumn, h.shape.hasColumn hcolumn⟩
    rw [hhas.1, hhas.2, h.shape.cellOf_key ht hu hdt hdu hrs (hkeys x hx)]
  refine ⟨h.holding (t.delete keys).1 (u.delete keys).1 h.last ?_, ?_⟩
  · exact RowMirrored.filter h.rows fun r hr s hrs ↦ congrArg _ (hgoes r hr s hrs)
  · exact RowMirrored.ids (RowMirrored.filter h.rows hgoes)

end Mirrors

end Table

end EntityStore
