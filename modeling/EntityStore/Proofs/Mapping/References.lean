import EntityStore.Proofs.Mapping.Cardinality

/-!
With foreign keys on, every number in a column of references is that of a row of the table referred
to: a statement that would leave another one fails.
-/

set_option autoImplicit false

namespace EntityStore

open Mapping

namespace Store

variable {store : Store} {statement : Statement} {effect : Effect} {t t' : Table}
  {key : ForeignKey} {n : Int64}

/-- A table has a row with a number. -/
def HasRow (store : Store) (table : String) (n : Int64) : Prop :=
  ∃ t, store.table? table = some t ∧ t.rowColumn.isSome ∧ (t.row? n).isSome

/-- Every number in a column of references is that of a row. -/
def Refers (store : Store) : Prop :=
  ∀ t ∈ store.tables, ∀ key ∈ t.foreign, ∀ r ∈ t.rows, ∀ n, t.cellOf r key.column = .integer n →
    store.HasRow key.target n

theorem hasRow_of_check {r : StoredRow} (h : store.checkForeignKey t r key = .ok ())
    (hcell : t.cellOf r key.column = .integer n) : store.HasRow key.target n := by
  unfold checkForeignKey at h
  split at h
  · cases h
  · next target htarget =>
    split at h
    · cases h
    · next hcounted =>
      rw [hcell] at h
      dsimp only at h
      split at h
      · next hrow =>
          exact ⟨target, htarget, by simpa [Option.isSome_iff_ne_none] using hcounted, hrow⟩
      · cases h

theorem checkForeignKey_of_checks {r : StoredRow} (henforced : store.enforced)
    (h : store.checkForeignKeys t r = .ok ()) :
    ∀ key ∈ t.foreign, store.checkForeignKey t r key = .ok () := by
  unfold checkForeignKeys at h
  rw [if_pos henforced] at h
  exact Except.forM_eq_ok.mp h

theorem isReferenced_of_check {ids : List Int64} (henforced : store.enforced)
    (hcounted : t.rowColumn.isSome) (h : store.checkUnreferenced t ids = .ok ()) (hn : n ∈ ids) :
    store.isReferenced t n = false := by
  unfold checkUnreferenced at h
  rw [henforced, hcounted] at h
  split at h
  · cases h
  · next hnone =>
    rw [Bool.true_and, Bool.true_and, Bool.not_eq_true, List.any_eq_false] at hnone
    exact Bool.eq_false_iff.mpr (hnone n hn)

theorem isReferenced_of_mem {u : Table} {r : StoredRow} (hu : u ∈ store.tables)
    (hkey : key ∈ u.foreign) (hname : sameName key.target t.name) (hr : r ∈ u.rows)
    (hcell : u.cellOf r key.column = .integer n) :
    store.isReferenced t n :=
  List.any_eq_true.mpr ⟨u, hu, List.any_eq_true.mpr ⟨key, hkey,
    Bool.and_eq_true_iff.mpr ⟨hname, List.any_eq_true.mpr ⟨r, hr, beq_iff_eq.mpr hcell⟩⟩⟩⟩

theorem sameName_of_table? {name : String} (ht : store.table? name = some t) :
    sameName t.name name := by
  unfold table? at ht
  exact List.find?_some (p := fun u : Table ↦ sameName u.name name) ht

theorem table?_congr {name other : String} (h : sameName name other) :
    store.table? name = store.table? other := by
  unfold table?
  rw [funext fun u : Table ↦ sameName_congr h u.name]

/-- Tables found under the name of one are that one. -/
theorem table?_of_name {u : Table} {name other : String} (ht : store.table? name = some t)
    (hu : store.table? other = some u) (hname : u.name = t.name) : u = t := by
  have htname := sameName_iff.mp (sameName_of_table? ht)
  have huname := sameName_iff.mp (sameName_of_table? hu)
  have hsame : sameName name other := sameName_iff.mpr (by rw [← htname, ← huname, hname])
  rw [← table?_congr hsame] at hu
  exact Option.some.inj (hu.symm.trans ht)

section

variable (hran : store.Ran t statement t' effect) (henforced : store.enforced)

include hran henforced

/-- The references of the rows that a statement wrote were checked. -/
theorem Ran.checked (hascending : t'.rows.Pairwise fun r s ↦ r.id < s.id)
    {r : StoredRow} (hr : r ∈ t'.rows) (hnew : r ∉ t.rows) (hkey : key ∈ t'.foreign) :
    (store.setTable t').checkForeignKey t' r key = .ok () := by
  have henforced : (store.setTable t').enforced := henforced
  cases hran with
  | @insert _ values _ id hinsert hcheck =>
    obtain ⟨-, -, -, -, rfl⟩ := Table.insert_eq_ok.mp hinsert
    obtain rfl := (Table.mem_insertRow.mp hr).resolve_right hnew
    exact checkForeignKey_of_checks henforced
      (hcheck _ ((Table.row?_eq_some_iff hascending).mpr ⟨hr, rfl⟩)) key hkey
  | update _ hcheck => exact checkForeignKey_of_checks henforced (hcheck r hr hnew) key hkey
  | delete => exact absurd (List.mem_filter.mp hr).1 hnew

/-- No row refers to one that a statement removed. -/
theorem Ran.unreferenced (hascending : t'.rows.Pairwise fun r s ↦ r.id < s.id)
    (hcounted : t'.rowColumn.isSome) {r : StoredRow} (hr : r ∈ t.rows)
    (hnone : t'.row? r.id = none) : (store.setTable t').isReferenced t' r.id = false := by
  -- so the row itself is not there any more
  have hgoes : r ∉ t'.rows := fun hstays ↦ by
    rw [(Table.row?_eq_some_iff hascending).mpr ⟨hstays, rfl⟩] at hnone
    cases hnone
  cases hran with
  | insert hinsert =>
    obtain ⟨-, -, -, -, rfl⟩ := Table.insert_eq_ok.mp hinsert
    exact absurd (Table.mem_insertRow.mpr (.inr hr)) hgoes
  | update _ _ hgone =>
    refine isReferenced_of_check henforced hcounted hgone
      (List.mem_filter.mpr ⟨List.mem_map_of_mem hr, ?_⟩)
    rw [hnone]
    rfl
  | delete hgone =>
    refine isReferenced_of_check henforced hcounted hgone
      (List.mem_map_of_mem (List.mem_filter.mpr ⟨hr, ?_⟩))
    by_contra hstays
    exact hgoes (List.mem_filter.mpr ⟨hr, by simpa using hstays⟩)

/-- A row that is referred to is there still. -/
theorem Ran.hasRow (ht : store.table? statement.table = some t)
    (hascending : t'.rows.Pairwise fun r s ↦ r.id < s.id) {u : Table} {r : StoredRow}
    (hu : u ∈ (store.setTable t').tables) (hkey : key ∈ u.foreign) (hr : r ∈ u.rows)
    (hcell : u.cellOf r key.column = .integer n) (hold : store.HasRow key.target n) :
    (store.setTable t').HasRow key.target n := by
  obtain ⟨target, htarget, hcounted, hrow⟩ := hold
  have hshape := hran.becomes.eq_withRows
  have hfound : (store.setTable t').table? key.target = (store.table? key.target).map _ :=
    table?_setTable key.target
  rw [htarget, Option.map_some] at hfound
  split at hfound
  · next hname =>
    obtain rfl := table?_of_name ht htarget (hname.trans (by rw [hshape]))
    have hcounted' : t'.rowColumn.isSome := by rwa [hshape]
    refine ⟨t', hfound, hcounted', ?_⟩
    by_contra hnone
    obtain ⟨stored, hstored⟩ := Option.isSome_iff_exists.mp hrow
    obtain ⟨hin, rfl⟩ := Table.row?_eq_some hstored
    have hunreferenced :=
      hran.unreferenced henforced hascending hcounted' hin (Option.not_isSome_iff_eq_none.mp hnone)
    have hsame : sameName key.target t'.name := by
      rw [← hname, sameName_comm]
      exact sameName_of_table? htarget
    rw [isReferenced_of_mem hu hkey hsame hr hcell] at hunreferenced
    cases hunreferenced
  · exact ⟨target, hfound, hcounted, hrow⟩

end

theorem Refers.run (h : store.Refers) (henforced : store.enforced) (hkeyed : store.Keyed)
    (hplain : statement.Plain) (hrun : store.run statement = .ok effect) : effect.store.Refers := by
  obtain ⟨t, t', ht, hran⟩ := run_eq_ok hrun
  have hshape := hran.becomes.eq_withRows
  have hascending := ((hkeyed.table? ht).becomes hplain hran.becomes).ascending
  rw [hran.store_eq]
  intro u hu key hkey r hr n hcell
  -- a row that the statement wrote has been checked, and another one referred to a row before
  obtain ⟨v, hv, heq⟩ := List.mem_map.mp hu
  split at heq
  · subst heq
    by_cases hold : r ∈ t.rows
    · refine hran.hasRow henforced ht hascending hu hkey hr hcell
        (h t (List.mem_of_find?_eq_some ht) key ?_ r hold n ?_)
      · rwa [hshape] at hkey
      · rwa [hshape] at hcell
    · exact hasRow_of_check (hran.checked henforced hascending hr hold hkey) hcell
  · subst heq
    exact hran.hasRow henforced ht hascending hu hkey hr hcell (h v hv key hkey r hr n hcell)

theorem run_enforced (hrun : store.run statement = .ok effect) :
    effect.store.enforced = store.enforced := by
  obtain ⟨t, t', -, -, hstore⟩ := run_cases hrun
  rw [hstore]
  rfl

theorem define_enforced {d : Definition} {store' : Store} (hdefine : store.define d = .ok store') :
    store'.enforced = store.enforced := by
  rcases define_cases hdefine with
    ⟨spec, rfl, ⟨-, rfl⟩ | ⟨-, rfl⟩⟩ | ⟨table, c, t, t', rfl, -, -, rfl⟩ <;> rfl

end Store

namespace Mapping

theorem enforced_keptByDefinitions : KeptByDefinitions fun store ↦ store.enforced :=
  fun _ _ _ _ hstore hdefine ↦ (Store.define_enforced hdefine).trans hstore

theorem refers_keptByStatements :
    KeptByStatements fun store ↦ store.enforced ∧ store.Keyed ∧ store.Refers := by
  rintro statement store effect hplain ⟨henforced, hkeyed, hrefers⟩ hrun
  exact ⟨(Store.run_enforced hrun).trans henforced, hkeyed.run hplain hrun,
    hrefers.run henforced hkeyed hplain hrun⟩

end Mapping

namespace Store

variable {s : Schema} {store : Store} {given : List (String × Int64)}

/-- With foreign keys on, the stores that batches lead to have no reference to a row that is not
there. -/
theorem Arises.refers (hs : s.WellFormed) (hdistinct : s.Distinct) (h : store.Arises s true given) :
    store.enforced ∧ store.Keyed ∧ store.Refers := by
  refine h.kept refers_keptByStatements hs fun t t' hempty hrun ↦ ?_
  have hon := enforced_keptByDefinitions.bootstrap hs t (show t.store.enforced by rw [hempty]; rfl)
  have hkeyed := keyed_keptByDefinitions.bootstrap hs t
    (show t.store.Keyed by rw [hempty]; exact fun t ht ↦ absurd ht List.not_mem_nil)
  rw [hrun] at hon hkeyed
  refine ⟨hon.1, hkeyed.1, ?_⟩
  unfold Refers
  rw [(bootstrap_ok hdistinct (by rw [hempty]; rfl) hrun).tables]
  intro u hu key _ r hr
  obtain ⟨spec, -, rfl⟩ := List.mem_map.mp hu
  exact absurd hr List.not_mem_nil

end Store

/-! ### Content -/

/-- Owners of rows, and rows linked to, are there. -/
structure Content.Closed (s : Schema) (c : Content) : Prop where
  owner : ∀ d ∈ s.entities, ∀ p ∈ d.properties, ∀ r, p.kind = .reference r →
    p.isParent → ∀ n x owner, c.row d.name n = some x → x.parent = some owner →
    (c.row r.target owner).isSome
  target : ∀ e ∈ s.entities, ∀ p ∈ e.properties, ∀ target kind, p.relation? = some (target, kind) →
    p.isLinked → ∀ owner, ∀ n ∈ c.links e.name p.name owner, (c.row target n).isSome

namespace Store

variable {s : Schema} {store : Store} {spec : TableSpec} {t : Table} {r : StoredRow} {n : Int64}

theorem Shaped.hasRow (hs : s.WellFormed) (hdistinct : Table.Distinct spec.table.columns)
    (hshapes : spec.Shapes t) (hkeyed : t.Keyed) (hrefers : store.Refers) (ht : t ∈ store.tables)
    {c : ColumnSpec} (hc : c ∈ spec.columns) {d : Entity} (hd : d ∈ s.entities)
    (htarget : c.references = some d.name) (hr : r ∈ t.rows) (hcell : r.number? c.name = some n) :
    ((store.content s).row d.name n).isSome := by
  have hkey : (⟨c.name, d.name⟩ : ForeignKey) ∈ t.foreign := by
    rw [hshapes]
    exact List.mem_flatMap.mpr ⟨c, hc, by
      unfold ColumnSpec.foreignKeys; rw [htarget]; exact List.mem_singleton.mpr rfl⟩
  have hcolumn : c.column ∈ t.columns := by
    rw [hshapes.columns_eq]
    exact List.mem_map_of_mem hc
  have hnumber : t.cellOf r c.name = .integer n :=
    (hkeyed.cellOf_name (hshapes.columns_eq ▸ hdistinct) hcolumn).trans
      (StoredRow.number?_eq_some_iff.mp hcell)
  obtain ⟨u, hu, -, hrow⟩ := hrefers t ht _ hkey r hr n hnumber
  rw [content_row hs hd hu, Option.isSome_map]
  exact hrow

theorem Shaped.closed (hs : s.WellFormed) (h : store.Shaped s) (hrefers : store.Refers) :
    (store.content s).Closed s where
  owner d hd p hp r hkind hparent n x owner hrow howner := by
    obtain ⟨t, ht, hshapes, hkeyed⟩ := h.entityTable? hd
    rw [content_row hs hd ht] at hrow
    obtain ⟨stored, hstored, rfl⟩ := Option.map_eq_some_iff.mp hrow
    obtain ⟨target, htarget, hname⟩ :=
      hs.target d hd p hp r.target r.kind (by simp [Property.relation?, hkind])
    have hcolumn : (⟨parentName, .integer, true, r.unique, some r.target⟩ : ColumnSpec) ∈
        Mapping.columns d := by
      refine List.mem_append_right _ (List.mem_filterMap.mpr ⟨p, hp, ?_⟩)
      unfold Mapping.parentColumn
      rw [hkind]
      exact if_pos hparent
    rw [← hname]
    exact Shaped.hasRow hs (h.columns _ (Schema.entityTable_mem hd)) hshapes hkeyed hrefers
      (List.mem_of_find?_eq_some ht) hcolumn htarget (congrArg some hname.symm)
      ((Table.row?_eq_some_iff hkeyed.ascending).mp hstored).1 howner
  target e he p hp target kind hrelation hlinked owner n hn := by
    obtain ⟨spec, t, hspec, hspecName, ht, hshapes, hkeyed⟩ := h.linkTable? he hp hlinked
    rw [content_links hs he hp hlinked ht] at hn
    obtain ⟨link, hlink, htarget⟩ := List.mem_filterMap.mp hn
    obtain ⟨d, hd, rfl⟩ := hs.target e he p hp target kind hrelation
    have hcolumns := h.columns spec (Schema.linkTable_mem he hp hspec)
    obtain ⟨other, unique, hother, rfl⟩ := linkTable_eq_some hspec
    obtain ⟨rfl, -⟩ := Prod.mk.inj (Option.some.inj (hrelation.symm.trans hother))
    exact Shaped.hasRow hs hcolumns hshapes hkeyed hrefers (List.mem_of_find?_eq_some ht)
      (c := ⟨targetColumn, .integer, true, false, some d.name⟩)
        (List.mem_cons_of_mem _ List.mem_cons_self) hd rfl
      (List.mem_filter.mp hlink).1 htarget

end Store

/-- In a store with foreign keys on that batches lead to, owners and the rows linked to are
there. -/
theorem Store.Arises.closed {s : Schema} {store : Store}
    {given : List (String × Int64)} (hs : s.WellFormed) (hdistinct : s.Distinct)
    (h : store.Arises s true given) : (store.content s).Closed s := by
  obtain ⟨c, top, -, hshows, -⟩ := h.shows hs hdistinct
  exact hshows.shaped.closed hs (h.refers hs hdistinct).2.2

end EntityStore
