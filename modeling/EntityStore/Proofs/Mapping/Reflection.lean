import EntityStore.Proofs.Mapping.Interleaving
import EntityStore.Proofs.Mapping.Mirror

/-!
Stores whose tables mirror those of a schema. No statement that the schema declares tells such a
store from one that has the tables just as the schema asks for them: both take it and answer the
same, or both refuse it with errors of the same kind (`reflects_keeps`).
-/

set_option autoImplicit false

namespace EntityStore

open Mapping

/-- Errors of the same kind. -/
inductive Error.Alike : Error → Error → Prop
  | refl (e : Error) : Alike e e
  | store {e e' : StoreError} (h : e.Alike e') : Alike (Run.storeError e) (Run.storeError e')

namespace Table

variable {A : String → Prop} {t t' : Table} {r old : StoredRow}
  {values sets : List (String × Cell)} {id new : Int64}

/-- What is given for a column of the table, all values being for such. -/
theorem given_mem (hdistinct : Distinct t.columns)
    (hvalues : ∀ x ∈ values, ∃ c ∈ t.columns, c.name = x.1) {c : Column}
    (hc : c ∈ t.columns) {v : Cell} (h : given values c.name = some v) : (c.name, v) ∈ values := by
  obtain ⟨x, hx, hsame, rfl⟩ := given_eq_some h
  obtain ⟨d, hd, hname⟩ := hvalues x hx
  rw [← hname] at hsame
  rw [← hdistinct.eq_of_sameName hd hc hsame, hname]
  exact hx

theorem assured_newRow (hdistinct : Distinct t.columns)
    (hvalues : ∀ x ∈ values, ∃ c ∈ t.columns, c.name = x.1)
    (hgiven : ∀ name, A name → ∃ x ∈ values, x.1 = name)
    (hnull : ∀ x ∈ values, A x.1 → x.2 ≠ .null) :
    Assured A t (t.newRow values id) := by
  intro c hc _ hassured
  rw [cell_newRow hdistinct hc]
  cases h : given values c.name with
  | none =>
    obtain ⟨x, hx, hname⟩ := hgiven c.name hassured
    unfold given at h
    have hnot := List.find?_eq_none.mp (Option.map_eq_none_iff.mp h) x hx
    exact absurd (hname ▸ sameName_refl x.1) hnot
  | some v =>
    exact fun hstored ↦ hnull _ (given_mem hdistinct hvalues hc h) hassured
      (Cell.stored_eq_null.mp hstored)

theorem assured_changedRow (hdistinct : Distinct t.columns)
    (hsets : ∀ x ∈ sets, ∃ c ∈ t.columns, c.name = x.1) (hfilled : t.Filled) (hold : old ∈ t.rows)
    (hnull : ∀ x ∈ sets, A x.1 → x.2 ≠ .null) :
    Assured A t (t.changedRow sets old new) := by
  intro c hc hrequired hassured
  have hreverse : ∀ x ∈ sets.reverse, ∃ c ∈ t.columns, c.name = x.1 :=
    fun x hx ↦ hsets x (List.mem_reverse.mp hx)
  rw [cell_changedRow hdistinct hc]
  cases h : given sets.reverse c.name with
  | none => exact hfilled old hold c hc hrequired
  | some v =>
    have hmem := List.mem_reverse.mp (given_mem hdistinct hreverse hc h)
    exact fun hstored ↦ hnull _ hmem hassured (Cell.stored_eq_null.mp hstored)

/-- A row that takes its own place changes nothing. -/
theorem withChanged_self (hascending : t.rows.Pairwise fun r s ↦ r.id < s.id) (hr : r ∈ t.rows) :
    t.withChanged r.id r = t := by
  have hrows : (t.rows.map fun s ↦ if s.id == r.id then r else s) = t.rows := by
    refine (List.map_congr_left fun s hs ↦ ?_).trans (List.map_id _)
    split
    · next heq =>
      have hfound : t.rows.find? (·.id == r.id) = some r :=
        (find?_id_eq_some_iff hascending).mpr ⟨hr, rfl⟩
      have hfound' : t.rows.find? (·.id == r.id) = some s :=
        (find?_id_eq_some_iff hascending).mpr ⟨hs, beq_iff_eq.mp heq⟩
      exact Option.some.inj (hfound.symm.trans hfound')
    · rfl
  unfold withChanged
  rw [if_pos rfl, hrows]

end Table

namespace Store

variable {s : Schema} {store a b : Store} {t t' u u' : Table} {r x : StoredRow}
  {name other : String} {key : ForeignKey} {statement : Statement}

theorem Named.setTable_self (h : store.Named) (ht : t ∈ store.tables) :
    store.setTable t = store := by
  refine congrArg (Store.mk store.enforced)
    ((List.map_congr_left fun u hu ↦ ?_).trans (List.map_id _))
  split
  · next hname => exact (table?_of_name (h t ht) (h u hu) hname).symm
  · rfl

/-! ### Foreign keys -/

/-- A check of a row says no more than that a row referred to is missing. -/
theorem Counted.checkForeignKeys_cases (h : store.Counted) (ht : t ∈ store.tables) (r : StoredRow) :
    store.checkForeignKeys t r = .ok () ∨ store.checkForeignKeys t r = .error .foreignKey := by
  unfold checkForeignKeys
  split
  · refine Except.forM_cases fun key hkey ↦ ?_
    obtain ⟨w, hw, hcounted⟩ := h t ht key hkey
    unfold checkForeignKey
    rw [hw]
    dsimp only
    rw [if_neg (by simpa [Option.isSome_iff_ne_none] using hcounted)]
    split
    · exact .inl rfl
    · split
      · exact .inl rfl
      · exact .inr rfl
    · exact .inr rfl
  · exact .inl rfl

/-- The rows of a store pass their checks. -/
def Checked (store : Store) : Prop :=
  ∀ t ∈ store.tables, ∀ r ∈ t.rows, store.checkForeignKeys t r = .ok ()

theorem Refers.checked (h : store.enforced → store.Refers) (hkeyed : store.Keyed)
    (hcounted : store.Counted) (hkeys : ∀ t ∈ store.tables, Table.Distinct t.columns ∧
      ∀ key ∈ t.foreign, isKey key.column ∧ ∃ c ∈ t.columns, c.name = key.column) :
      store.Checked := by
  intro t ht r hr
  unfold checkForeignKeys
  split
  · next henforced =>
    refine Except.forM_eq_ok.mpr fun key hkey ↦ ?_
    obtain ⟨w, hw, hshows⟩ := hcounted t ht key hkey
    obtain ⟨hdistinct, hforeign⟩ := hkeys t ht
    obtain ⟨hisKey, c, hc, hname⟩ := hforeign key hkey
    have hnumber : (t.cellOf r key.column).isNumber := by
      rw [← hname, (hkeyed t ht).cellOf_name hdistinct hc]
      exact (hkeyed t ht).cell_isNumber hr (hname ▸ hisKey)
    unfold checkForeignKey
    rw [hw]
    dsimp only
    rw [if_neg (by simpa [Option.isSome_iff_ne_none] using hshows)]
    rcases Cell.isNumber_iff.mp hnumber with hnull | ⟨n, hn⟩
    · rw [hnull]
    · obtain ⟨w', hw', -, hrow⟩ := h henforced t ht key hkey r hr n hn
      obtain rfl := Option.some.inj (hw.symm.trans hw')
      rw [hn]
      dsimp only
      rw [if_pos hrow]
  · rfl

/-- After an update only the row that it has changed may fail its checks. -/
theorem Checked.update (h : store.Checked) (hkeyed : store.Keyed) (hnamed : store.Named)
    (ht : t ∈ store.tables) {sets : List (String × Cell)} {id : Int64} {count : Nat}
    (hsets : ∀ x ∈ sets, Settable x) (hupdate : t.update sets id = .ok (t', count)) :
    (∀ r ∈ t'.rows.filter fun r ↦ !t.rows.contains r,
      (store.setTable t').checkForeignKeys t' r = .ok ()) ↔
      ∀ r, t'.row? id = some r → (store.setTable t').checkForeignKeys t' r = .ok () := by
  have hunchanged : ∀ r ∈ t.rows, (store.setTable t).checkForeignKeys t r = .ok () := by
    rw [hnamed.setTable_self ht]
    exact h t ht
  rcases (hkeyed t ht).update_ok hsets hupdate with rfl | ⟨old, hold, hid, rfl⟩
  · refine ⟨fun _ r hr ↦ hunchanged r (Table.row?_eq_some hr).1,
      fun _ r hr ↦ hunchanged r (List.mem_filter.mp hr).1⟩
  · generalize t.changedRow sets old id = new at hid ⊢
    have hfound : (t.withChanged id new).row? id = some new := by
      rw [Table.row?_withChanged hid, if_pos rfl, hold]
      rfl
    constructor
    · intro hall r hr
      obtain rfl := Option.some.inj (hfound.symm.trans hr)
      by_cases hin : new ∈ t.rows
      · rw [← hid, Table.withChanged_self (hkeyed t ht).ascending hin]
        exact hunchanged new hin
      · exact hall new (List.mem_filter.mpr ⟨(Table.row?_eq_some hfound).1, by simpa using hin⟩)
    · intro hnew r hr
      obtain ⟨hr, hnot⟩ := List.mem_filter.mp hr
      have hnot : r ∉ t.rows := by simpa using hnot
      obtain rfl := (Table.mem_withChanged hr).resolve_right hnot
      exact hnew r hfound

/-! ### Mirrored stores -/

/-- The tables of two stores mirror each other. Other tables of the second store are empty. -/
structure Paired (s : Schema) (a b : Store) : Prop where
  regular : a.Regular
  counted : a.Counted
  distinct : ∀ t ∈ a.tables, Table.Distinct t.columns
  keyed : b.Keyed
  named : b.Named
  distinctRight : ∀ u ∈ b.tables, Table.Distinct u.columns
  enforced : b.enforced = a.enforced
  table : ∀ t ∈ a.tables, ∃ u, b.table? t.name = some u ∧ Table.Mirrors (s.Assures t.name) t u
  rows : ∀ u ∈ b.tables, (∃ t ∈ a.tables, Table.Mirrors (s.Assures t.name) t u) ∨ u.rows = []

namespace Paired

variable (h : a.Paired s b)

include h

theorem find (ht : a.table? name = some t) : ∃ u, b.table? name = some u ∧ Table.Mirrors
    (s.Assures t.name) t u := by
  obtain ⟨u, hu, htu⟩ := h.table t (List.mem_of_find?_eq_some ht)
  exact ⟨u, table?_congr (sameName_of_table? ht) ▸ hu, htu⟩

theorem setTable (ht : t ∈ a.tables) (hu : u ∈ b.tables)
    (htu : Table.Mirrors (s.Assures t.name) t u) (hshape : t' = t.holding t') (hkeyed : t'.Keyed)
    (hshape' : u' = u.holding u') (hkeyed' : u'.Keyed)
    (hmirrors : Table.Mirrors (s.Assures t.name) t' u') :
    (a.setTable t').Paired s (b.setTable u') := by
  have hname : t'.name = t.name := by rw [hshape]; rfl
  have hname' : u'.name = u.name := by rw [hshape']; rfl
  refine ⟨h.regular.setTable ht hshape hkeyed, ?_, ?_, h.keyed.setTable hkeyed',
    h.named.setTable hu hname', ?_, h.enforced, fun v hv ↦ ?_, fun w hw ↦ ?_⟩
  · rw [hshape]
    refine h.counted.setTable ht _ _ fun other w hw hsame ↦ ?_
    rw [table?_of_name (h.regular.named t ht) hw hsame]
  · refine forall_setTable h.distinct ?_
    rw [hshape]
    exact h.distinct t ht
  · refine forall_setTable h.distinctRight ?_
    rw [hshape']
    exact h.distinctRight u hu
  · rw [table?_setTable]
    rcases mem_setTable hv with rfl | ⟨hv, hne⟩
    · have hfound : b.table? v.name = some u := by
        rw [hname, ← htu.shape.name]
        exact h.named u hu
      rw [hfound, Option.map_some, if_pos hname'.symm, hname]
      exact ⟨u', rfl, hmirrors⟩
    · obtain ⟨w, hw, hvw⟩ := h.table v hv
      refine ⟨w, ?_, hvw⟩
      rw [hw, Option.map_some, if_neg]
      rw [hvw.shape.name, hname', htu.shape.name, ← hname]
      exact hne
  · rcases mem_setTable hw with rfl | ⟨hw, hne⟩
    · exact .inl ⟨t', mem_setTable_self ht hname.symm, hname.symm ▸ hmirrors⟩
    · refine (h.rows w hw).imp_left ?_
      rintro ⟨v, hv, hvw⟩
      refine ⟨v, mem_setTable_of_ne hv ?_, hvw⟩
      rw [← hvw.shape.name, hname, ← htu.shape.name, ← hname']
      exact hne

section

variable (ht : t ∈ a.tables) (hu : u ∈ b.tables) (htu : Table.Mirrors (s.Assures t.name) t u)

include ht hu htu

theorem checkForeignKeys_eq (hr : Table.RowMirrored t u r x) :
    b.checkForeignKeys u x = a.checkForeignKeys t r := by
  unfold checkForeignKeys
  rw [h.enforced, htu.shape.foreign, Except.forM_congr fun key hkey ↦ ?_]
  obtain ⟨w, hw⟩ := Option.isSome_iff_exists.mp (h.regular.closed t ht key hkey)
  obtain ⟨w', hw', hmirrors⟩ := h.find hw
  have hcell := htu.shape.cellOf_key (h.regular.keyed t ht) (h.keyed u hu) (h.distinct t ht)
    (h.distinctRight u hu) hr (.inr (htu.shape.keys key hkey))
  have hrow (n : Int64) : (w'.row? n).isSome = (w.row? n).isSome := by
    rcases hmirrors.row? n with ⟨hnone, hnone'⟩ | ⟨_, _, hsome, hsome', -⟩
    · rw [hnone, hnone']
    · rw [hsome, hsome']
      rfl
  unfold checkForeignKey
  rw [hw, hw']
  dsimp only
  rw [hmirrors.shape.rowColumn, hcell, htu.shape.name]
  simp only [hrow]

omit ht hu in
theorem isReferenced_eq (id : Int64) : b.isReferenced u id = a.isReferenced t id := by
  unfold isReferenced
  rw [htu.shape.name, Bool.eq_iff_iff]
  simp only [List.any_eq_true, Bool.and_eq_true, beq_iff_eq]
  have hcell {v w : Table} {r x : StoredRow} (hv : v ∈ a.tables) (hw : w ∈ b.tables)
      (hvw : Table.Mirrors (s.Assures v.name) v w)
      (hr : Table.RowMirrored v w r x) {key : ForeignKey} (hkey : key ∈ v.foreign) :
      w.cellOf x key.column = v.cellOf r key.column :=
    hvw.shape.cellOf_key (h.regular.keyed v hv) (h.keyed w hw) (h.distinct v hv)
      (h.distinctRight w hw) hr (.inr (hvw.shape.keys key hkey))
  constructor
  · rintro ⟨w, hw, key, hkey, hname, x, hx, heq⟩
    rcases h.rows w hw with ⟨v, hv, hvw⟩ | hempty
    · obtain ⟨r, hr, hrx⟩ := List.forall₂_exists_right hvw.rows x hx
      rw [hvw.shape.foreign] at hkey
      exact ⟨v, hv, key, hkey, hname, r, hr, (hcell hv hw hvw hrx hkey).symm.trans heq⟩
    · rw [hempty] at hx
      cases hx
  · rintro ⟨v, hv, key, hkey, hname, r, hr, heq⟩
    obtain ⟨w, hw, hvw⟩ := h.table v hv
    have hwb := List.mem_of_find?_eq_some hw
    obtain ⟨x, hx, hrx⟩ := List.forall₂_exists_left hvw.rows r hr
    exact ⟨w, hwb, key, hvw.shape.foreign ▸ hkey, hname, x, hx,
      (hcell hv hwb hvw hrx hkey).trans heq⟩

omit ht hu in
theorem checkUnreferenced_eq (ids : List Int64) :
    b.checkUnreferenced u ids = a.checkUnreferenced t ids := by
  unfold checkUnreferenced
  rw [h.enforced, htu.shape.rowColumn, funext (h.isReferenced_eq htu)]

end

/-- The rows of the second store pass their checks if those of the first do. -/
theorem checked (hchecked : a.Checked) : b.Checked := by
  intro u hu x hx
  rcases h.rows u hu with ⟨t, ht, htu⟩ | hempty
  · obtain ⟨r, hr, hrx⟩ := List.forall₂_exists_right htu.rows x hx
    rw [h.checkForeignKeys_eq ht hu htu hrx]
    exact hchecked t ht r hr
  · rw [hempty] at hx
    cases hx

/-! ### Statements -/

/-- What a change of a table on both stores leaves. -/
theorem after (statement : Statement) (hplain : statement.Plain)
    (ht : t ∈ a.tables) (hu : u ∈ b.tables) (htu : Table.Mirrors (s.Assures t.name) t u)
    (hbecomes : t.Becomes statement t') (hbecomes' : u.Becomes statement u')
    (hmirrors : Table.Mirrors (s.Assures t.name) t' u') : (a.setTable t').Paired s (b.setTable u') ∧
      t' ∈ (a.setTable t').tables ∧ u' ∈ (b.setTable u').tables ∧
      Table.Mirrors (s.Assures t'.name) t' u' := by
  have hshape := hbecomes.eq_withRows
  have hshape' := hbecomes'.eq_withRows
  have hname : t'.name = t.name := by rw [hshape]
  have hname' : u'.name = u.name := by rw [hshape']
  exact ⟨h.setTable ht hu htu hshape ((h.regular.keyed t ht).becomes hplain hbecomes) hshape'
    ((h.keyed u hu).becomes hplain hbecomes') hmirrors, mem_setTable_self ht hname.symm,
      mem_setTable_self hu hname'.symm, hname.symm ▸ hmirrors⟩

section

variable (ht : a.table? name = some t) (hu : b.table? name = some u)
  (htu : Table.Mirrors (s.Assures t.name) t u)

include ht hu htu

theorem insert_both {values : List (String × Cell)} (hplain : ∀ x ∈ values, Settable x)
    (hvalues : ∀ x ∈ values, ∃ c ∈ t.columns, c.name = x.1)
    (hfills : (Statement.insert name values).Fills (s.Assures t.name)) :
    Except.Both StoreError.Alike (fun left right ↦ left.store.Paired s right.store ∧
      left.affected = right.affected ∧ left.row = right.row) (a.run (.insert name values))
        (b.run (.insert name values)) := by
  have hta := List.mem_of_find?_eq_some ht
  have hub := List.mem_of_find?_eq_some hu
  have hboth := htu.insert_both (h.regular.keyed t hta) (h.keyed u hub) (h.distinct t hta)
    (h.distinctRight u hub) name hvalues fun id ↦ Table.assured_newRow
      (h.distinct t hta) hvalues hfills.1 hfills.2
  rw [run_insert ht, run_insert hu]
  refine .bind hboth.with_eq fun x y hxy ↦ ?_
  obtain ⟨t', id⟩ := x
  obtain ⟨u', id'⟩ := y
  obtain ⟨⟨hid, hmirrors⟩, hinsert, hinsert'⟩ := hxy
  obtain rfl : id' = id := hid
  obtain ⟨hpaired, hta', hub', hmirrors⟩ :=
    h.after (.insert name values) hplain hta hub htu ⟨id', hinsert⟩ ⟨id', hinsert'⟩ hmirrors
  have hcheck : (u'.row? id').elim (.ok ()) ((b.setTable u').checkForeignKeys u') =
      (t'.row? id').elim (.ok ()) ((a.setTable t').checkForeignKeys t') := by
    rcases hmirrors.row? id' with ⟨hnone, hnone'⟩ | ⟨r, x, hr, hx, hrx⟩
    · rw [hnone, hnone']
      rfl
    · rw [hr, hx]
      exact hpaired.checkForeignKeys_eq hta' hub' hmirrors hrx
  dsimp only
  rw [hcheck]
  exact .bind_same .refl fun _ _ ↦ .ok ⟨hpaired, rfl, rfl⟩

theorem update_both {sets : List (String × Cell)} {id : Int64} (hchecked : a.Checked)
    (hplain : ∀ x ∈ sets, Settable x) (hsets : ∀ x ∈ sets, ∃ c ∈ t.columns, c.name = x.1)
    (hfilled : t.Filled) (hfills : (Statement.update name sets id).Fills (s.Assures t.name)) :
    Except.Both StoreError.Alike (fun left right ↦ left.store.Paired s right.store ∧
      left.affected = right.affected ∧ left.row = right.row) (a.run (.update name sets id))
        (b.run (.update name sets id)) := by
  have hta := List.mem_of_find?_eq_some ht
  have hub := List.mem_of_find?_eq_some hu
  have hboth := htu.update_both (h.regular.keyed t hta) (h.keyed u hub) (h.distinct t hta)
    (h.distinctRight u hub) id hsets fun old hold new ↦ Table.assured_changedRow
      (h.distinct t hta) hsets hfilled hold hfills
  rw [run_update ht, run_update hu]
  refine .bind hboth.with_eq fun x y hxy ↦ ?_
  obtain ⟨t', count⟩ := x
  obtain ⟨u', count'⟩ := y
  obtain ⟨⟨hcount, hmirrors⟩, hupdate, hupdate'⟩ := hxy
  obtain rfl : count' = count := hcount
  obtain ⟨hpaired, hta', hub', hmirrors⟩ :=
    h.after (.update name sets id) hplain hta hub htu ⟨count', hupdate⟩ ⟨count', hupdate'⟩ hmirrors
  have hcheck {r x : StoredRow} (hrx : Table.RowMirrored t' u' r x) :
      (b.setTable u').checkForeignKeys u' x = (a.setTable t').checkForeignKeys t' r :=
    hpaired.checkForeignKeys_eq hta' hub' hmirrors hrx
  have hfound : (∀ r, t'.row? id = some r → (a.setTable t').checkForeignKeys t' r = .ok ()) ↔
      ∀ x, u'.row? id = some x → (b.setTable u').checkForeignKeys u' x = .ok () := by
    rcases hmirrors.row? id with ⟨hnone, hnone'⟩ | ⟨r, x, hr, hx, hrx⟩
    · rw [hnone, hnone']
      exact iff_of_true nofun nofun
    · rw [hr, hx]
      simp only [Option.some.injEq, forall_eq', hcheck hrx]
  -- different rows may have been changed by the update, but only the row of its number can fail the
  -- checks
  have hchanged : (t'.rows.filter fun r ↦ !t.rows.contains r).forM
      ((a.setTable t').checkForeignKeys t') = (u'.rows.filter fun r ↦ !u.rows.contains r).forM
        ((b.setTable u').checkForeignKeys u') := by
    refine Except.forM_eq_of_iff (e :=
      .foreignKey) (fun r _ ↦ hpaired.counted.checkForeignKeys_cases hta' r) (fun x hx ↦ ?_) ?_
    · obtain ⟨r, -, hrx⟩ := List.forall₂_exists_right hmirrors.rows x (List.mem_filter.mp hx).1
      rw [hcheck hrx]
      exact hpaired.counted.checkForeignKeys_cases hta' r
    · rw [hchecked.update h.regular.keyed h.regular.named hta hplain hupdate,
        (h.checked hchecked).update h.keyed h.named hub hplain hupdate']
      exact hfound
  have hgone : ((u.rows.map StoredRow.id).filter fun i ↦ (u'.row? i).isNone) =
      (t.rows.map StoredRow.id).filter fun i ↦ (t'.row? i).isNone := by
    rw [Table.RowMirrored.ids htu.rows]
    refine List.filter_congr fun i _ ↦ ?_
    rcases hmirrors.row? i with ⟨hnone, hnone'⟩ | ⟨r, x, hr, hx, -⟩
    · rw [hnone, hnone']
    · rw [hr, hx]
      rfl
  dsimp only
  rw [hchanged, hgone, hpaired.checkUnreferenced_eq hmirrors]
  exact .bind_same .refl fun _ _ ↦ .bind_same .refl fun _ _ ↦ .ok ⟨hpaired, rfl, rfl⟩

theorem delete_both {keys : List (String × Int64)}
    (hkeys : ∀ x ∈ keys, t.isRowColumn x.1 ∨ isKey x.1 ∧ ∃ c ∈ t.columns, c.name = x.1) :
    Except.Both StoreError.Alike (fun left right ↦ left.store.Paired s right.store ∧
      left.affected = right.affected ∧ left.row = right.row) (a.run (.delete name keys))
        (b.run (.delete name keys)) := by
  have hta := List.mem_of_find?_eq_some ht
  have hub := List.mem_of_find?_eq_some hu
  obtain ⟨hmirrors, hids⟩ :=
    htu.delete_both (h.regular.keyed t hta) (h.keyed u hub) (h.distinct t hta)
      (h.distinctRight u hub) hkeys
  obtain ⟨hpaired, -, -, hmirrors⟩ :=
    h.after (.delete name keys) trivial hta hub htu rfl rfl hmirrors
  have hlength : (t.delete keys).2.length = (u.delete keys).2.length := by
    have hlength := congrArg List.length hids
    rw [List.length_map, List.length_map] at hlength
    exact hlength.symm
  rw [run_delete ht, run_delete hu, hids, hpaired.checkUnreferenced_eq hmirrors]
  exact .bind_same .refl fun _ _ ↦ .ok ⟨hpaired, hlength, rfl⟩

end

end Paired

/-- A store that has the tables of a schema just as the schema asks for them, and one that reflects
it. -/
structure Reflects (s : Schema) (a b : Store) : Prop where
  shaped : a.Shaped s
  filled : ∀ t ∈ a.tables, t.Filled
  refers : a.enforced → a.Refers
  paired : a.Paired s b

/-- The statements of the schema do not tell the two stores apart. -/
theorem reflects_keeps : s.Keeps (Reflects s) Error.Alike := by
  intro statement hdeclared a b h
  obtain ⟨t, ht, hname, hnames⟩ := h.shaped.of_declared hdeclared
  have hta := List.mem_of_find?_eq_some ht
  obtain ⟨u, hu, htu⟩ := h.paired.find ht
  have hkeyed := h.shaped.keyed t hta
  have hchecked : a.Checked := by
    refine Refers.checked h.refers h.shaped.keyed h.paired.counted
      fun v hv ↦ ⟨h.paired.distinct v hv, ?_⟩
    obtain ⟨_, -, hmirrors⟩ := h.paired.table v hv
    exact hmirrors.shape.keys
  have hfills := hdeclared.fills
  rw [← hname] at hfills
  -- no value is for the row number
  have hcolumns {values : List (String × Cell)} (hplain : ∀ x ∈ values, Settable x)
      (hin : ∀ name ∈ values.map Prod.fst, t.isRowColumn name ∨ ∃ c ∈ t.columns, c.name = name) :
      ∀ x ∈ values, ∃ c ∈ t.columns, c.name = x.1 := by
    intro x hx
    refine (hin x.1 (List.mem_map_of_mem hx)).resolve_left fun hrow ↦ ?_
    unfold Table.isRowColumn at hrow
    rcases hkeyed.rowColumn with hnone | hsome
    · rw [hnone] at hrow
      cases hrow
    · rw [hsome, Option.any_some, sameName_comm, (hplain x hx).other] at hrow
      cases hrow
  have hboth : Except.Both StoreError.Alike (fun left right ↦ left.store.Paired s right.store ∧
      left.affected = right.affected ∧ left.row = right.row) (a.run statement)
        (b.run statement) := by
    cases statement with
    | insert table values =>
      exact h.paired.insert_both ht hu htu hdeclared.plain (hcolumns hdeclared.plain hnames) hfills
    | update table sets id =>
      exact h.paired.update_both ht hu htu hchecked hdeclared.plain
        (hcolumns hdeclared.plain hnames) (h.filled t hta) hfills
    | delete table keys =>
      refine h.paired.delete_both ht hu htu fun x hx ↦ ?_
      refine (hnames x.1 (List.mem_map_of_mem hx)).imp_right ?_
      rintro ⟨c, hc, hcolumn⟩
      refine ⟨?_, c, hc, hcolumn⟩
      rcases List.mem_cons.mp (hdeclared.keys x.1 (List.mem_map_of_mem hx)) with hid | hkey
      · have hother := hkeyed.other c hc
        rw [hcolumn, hid, Table.sameName_refl] at hother
        cases hother
      · exact List.any_eq_true.mpr ⟨x.1, hkey, Table.sameName_refl _⟩
  refine hboth.with_eq.imp (fun _ _ ↦ .store) fun left right heffects ↦ ?_
  obtain ⟨⟨hpaired, haffected, hrow⟩, hleft, -⟩ := heffects
  refine ⟨⟨h.shaped.run hdeclared.plain hleft, ?_, fun henforced ↦ ?_, hpaired⟩, haffected, hrow⟩
  · exact filled_keptByStatements statement a left hdeclared.plain h.filled hleft
  · have henforced : a.enforced := by rwa [← run_enforced hleft]
    exact (h.refers henforced).run henforced h.shaped.keyed hdeclared.plain hleft

end Store

end EntityStore
