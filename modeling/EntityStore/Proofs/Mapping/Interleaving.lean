import EntityStore.Proofs.Mapping.Definitions
import EntityStore.Proofs.Mapping.Growth
import EntityStore.Proofs.Mapping.Naming

/-!
A schema that creates its tables before a batch of another schema or after it. The definitions do
not look at rows, and the batch does not look at added columns and tables, so that both orders come
to the same (`execute_bootstrap`).
-/

set_option autoImplicit false

namespace EntityStore

open Mapping

namespace Table

variable {t : Table} {name : String} {rows : List StoredRow} {last : Int64}

/-- The table with other rows if it has a name. -/
def refill (name : String) (rows : List StoredRow) (last : Int64) (t : Table) : Table :=
  if t.name = name then { t with rows := rows, last := last } else t

@[simp] theorem name_refill : (t.refill name rows last).name = t.name := by
  unfold refill
  split <;> rfl

@[simp] theorem columnNames_refill : (t.refill name rows last).columnNames = t.columnNames := by
  unfold refill
  split <;> rfl

theorem addColumn_refill (c : Column) (foreign : List ForeignKey) :
    (t.refill name rows last).addColumn c foreign = (t.addColumn c foreign).map
      (refill name rows last) := by
  have hhas : (t.refill name rows last).hasColumn c.name = t.hasColumn c.name := by
    unfold refill
    split <;> rfl
  unfold addColumn
  rw [hhas]
  split
  · rfl
  · unfold refill
    split
    · next hname => exact congrArg Except.ok (if_pos hname).symm
    · next hname => exact congrArg Except.ok (if_neg hname).symm

end Table

namespace Store

variable {store store' : Store} {t t' : Table} {name : String}
  {rows : List StoredRow} {last : Int64}

/-! ### Other rows in a table -/

/-- The store with other rows in the table of a name. -/
def putRows (store : Store) (name : String) (rows : List StoredRow) (last : Int64) : Store :=
  { store with tables := store.tables.map (Table.refill name rows last) }

theorem table?_putRows (other : String) :
    (store.putRows name rows last).table? other = (store.table? other).map
      (Table.refill name rows last) := by
  have hsame (u : Table) :
      ((fun u : Table ↦ sameName u.name other) ∘ Table.refill name rows last) u =
      sameName u.name other := by
    rw [Function.comp_apply, Table.name_refill]
  unfold table? putRows
  rw [List.find?_map, funext hsame]

theorem setTable_putRows : (store.putRows name rows last).setTable (t.refill name rows last) =
    (store.setTable t).putRows name rows last := by
  unfold putRows setTable
  simp only [List.map_map, Store.mk.injEq, true_and]
  refine List.map_congr_left fun u _ ↦ ?_
  simp only [Function.comp_apply, Table.name_refill]
  split <;> rfl

/-- A statement that leaves other rows in a table. -/
theorem setTable_eq_putRows (hnamed : ∀ u ∈ store.tables, store.table? u.name = some u)
    (ht : t ∈ store.tables) (hshape : t' = t.holding t') :
    store.setTable t' = store.putRows t.name t'.rows t'.last := by
  have hname : t'.name = t.name := by rw [hshape]; rfl
  unfold putRows setTable
  refine congrArg (Store.mk store.enforced) (List.map_congr_left fun u hu ↦ ?_)
  unfold Table.refill
  rw [hname]
  split
  · next heq =>
    rw [table?_of_name (hnamed t ht) (hnamed u hu) heq]
    exact hshape
  · rfl

/-- Two stores that differ in the rows of a table at most. -/
def Refilled (name : String) (rows : List StoredRow) (last : Int64) (store store' : Store) : Prop :=
  (∃ u ∈ store.tables, u.name = name) ∧ store' = store.putRows name rows last

/-- No definition looks at rows. -/
theorem Refilled.define (h : Refilled name rows last store store') (d : Definition) :
    Except.Both Eq (Refilled name rows last) (store.define d) (store'.define d) := by
  obtain ⟨⟨v, hv, hname⟩, rfl⟩ := h
  cases d with
  | createTable spec =>
    unfold define
    dsimp only
    rw [table?_putRows, Option.isSome_map]
    split
    · exact .error rfl
    · split
      · exact .ok ⟨⟨v, hv, hname⟩, rfl⟩
      · next hnone =>
        cases spec.duplicate? with
        | some column => exact .error rfl
        | none =>
          have hne : spec.table.name ≠ name := by
            intro heq
            refine hnone (List.find?_isSome.mpr ⟨v, hv, ?_⟩)
            rw [hname, ← heq]
            exact Table.sameName_refl _
          refine .ok ⟨⟨v, List.mem_append_left _ hv, hname⟩, ?_⟩
          unfold putRows
          rw [List.map_append, List.map_singleton, show spec.table.refill name rows last =
            spec.table from if_neg hne]
  | addColumn other c =>
    unfold define
    dsimp only
    rw [table?_putRows]
    cases ht : store.table? other with
    | none => exact .error rfl
    | some t =>
      rw [Option.map_some]
      dsimp only
      rw [Table.addColumn_refill]
      cases hadd : t.addColumn c.column c.foreignKeys with
      | error e => exact .error rfl
      | ok t' =>
        refine .ok ⟨?_, setTable_putRows⟩
        obtain ⟨-, rfl⟩ := Table.addColumn_eq_ok.mp hadd
        by_cases heq : v.name = t.name
        · exact ⟨_, mem_setTable_self hv heq, heq.symm.trans hname⟩
        · exact ⟨v, mem_setTable_of_ne hv heq, hname⟩

/-- No schema looks at rows when it creates its tables. -/
theorem Refilled.bootstrap {s : Schema} {u u' v : Session}
    (h : Refilled name rows last u.store v.store)
    (hrun : (Mapping.bootstrap s).run u = (.ok (), u')) :
      ∃ v', (Mapping.bootstrap s).run v = (.ok (), v') ∧
      v'.store = u'.store.putRows name rows last := by
  have htogether : Run.Together (Refilled name rows last) (fun _ _ ↦ True) Eq (Mapping.bootstrap s)
      (Mapping.bootstrap s) fun _ _ ↦ True := by
    refine bootstrap_together (fun d _ store store' hst ↦ ?_) fun store store' hst other ↦ ?_
    · exact (hst.define d).imp (fun _ _ heq ↦ congrArg Run.storeError heq) fun _ _ h ↦ h
    · rw [hst.2, table?_putRows, Option.map_map]
      refine congrFun (congrArg _ (funext fun t ↦ ?_)) _
      exact Table.columnNames_refill.symm
  have h := htogether u v ⟨h, trivial⟩
  rw [hrun] at h
  revert h
  rcases (Mapping.bootstrap s).run v with ⟨_ | ⟨⟨⟩⟩, v'⟩ <;> intro h
  · exact h.elim
  · exact ⟨v', rfl, h.1.store.2⟩

/-! ### What a schema makes of a store -/

variable {s s' : Schema} {a b : Store} {d : Definition}

theorem Named.define (h : store.Named) (hdefine : store.define d = .ok store') : store'.Named := by
  rcases define_cases hdefine with
    ⟨spec, rfl, ⟨-, rfl⟩ | ⟨hnone, rfl⟩⟩ | ⟨other, c, t, t', rfl, ht, hadd, rfl⟩
  · exact h
  · intro t ht
    unfold table? at hnone ⊢
    rw [List.find?_append]
    rcases List.mem_append.mp ht with ht | ht
    · rw [show store.tables.find? _ = some t from h t ht]
      rfl
    · have hnone : store.tables.find? (fun t ↦ sameName t.name spec.table.name) = none := hnone
      rw [List.mem_singleton.mp ht, hnone, Option.none_or, List.find?_singleton,
        if_pos (Table.sameName_refl _)]
  · refine h.setTable (List.mem_of_find?_eq_some ht) ?_
    obtain ⟨-, rfl⟩ := Table.addColumn_eq_ok.mp hadd
    rfl

theorem Grown.define (h : a.Grown store) (hd : d.Asked s) (hdefine : store.define d = .ok store') :
    a.Grown store' := by
  cases hd with
  | table =>
    rcases define_cases hdefine with ⟨spec, -, ⟨-, rfl⟩ | ⟨-, rfl⟩⟩ | ⟨_, _, _, _, ⟨⟩, -⟩
    · exact h
    · refine ⟨h.enforced, fun name t ht ↦ ?_,
        List.forall_mem_append.mpr ⟨h.rows, List.forall_mem_singleton.mpr (.inr rfl)⟩⟩
      obtain ⟨u, hu, htu⟩ := h.table name t ht
      refine ⟨u, ?_, htu⟩
      unfold table? at hu ⊢
      rw [List.find?_append, hu]
      rfl
  | @column e c he hc =>
    rcases define_cases hdefine with ⟨_, ⟨⟩, -⟩ | ⟨_, _, v, v', ⟨⟩, hv, hadd, rfl⟩
    have hgrown {t : Table} (htv : t.Grown v) : t.Grown v' := by
      refine htv.addColumn hadd rfl fun key hkey ↦ ?_
      unfold ColumnSpec.foreignKeys at hkey
      cases hreferences : (addedColumn c).references <;> rw [hreferences] at hkey
      · cases hkey
      · rw [List.mem_singleton.mp hkey]
        rfl
    have hsame : v'.name = v.name ∧ v'.rows = v.rows := by
      obtain ⟨-, rfl⟩ := Table.addColumn_eq_ok.mp hadd
      exact ⟨rfl, rfl⟩
    refine ⟨h.enforced, fun name t ht ↦ ?_, fun u hu ↦ ?_⟩
    · obtain ⟨u, hu, htu⟩ := h.table name t ht
      refine ⟨_, by rw [table?_setTable, hu]; rfl, ?_⟩
      dsimp only
      split
      · next hname =>
        obtain rfl := table?_of_name hv hu (hname.trans hsame.1)
        exact hgrown htu
      · exact htu
    · rcases mem_setTable hu with rfl | ⟨hu, -⟩
      · rw [hsame.2]
        refine (h.rows v (List.mem_of_find?_eq_some hv)).imp_left ?_
        rintro ⟨t, ht, htv⟩
        exact ⟨t, ht, hgrown htv⟩
      · exact h.rows u hu

theorem grown_of_bootstrap {t t' : Session} (hrun : (Mapping.bootstrap s).run t = (.ok (), t')) :
    t.store.Grown t'.store :=
  bootstrap_kept (fun _ hd _ _ hstore hdefine ↦ hstore.define hd hdefine) (.refl t.store) hrun

/-- The tables are those of two schemas, and their foreign keys lead to entities of these. -/
structure Built (s s' : Schema) (store : Store) : Prop where
  specs : ∀ u ∈ store.tables, ∃ spec ∈ s.tables ++ s'.tables, u.name = spec.name ∧
    u.rowColumn = spec.table.rowColumn
  targets :
    ∀ u ∈ store.tables, ∀ key ∈ u.foreign, ∃ d ∈ s.entities ++ s'.entities, d.name = key.target

end Store

/-- The foreign keys of a schema's tables lead to its entities. -/
theorem Schema.target_of_foreign {s : Schema} (hs : s.WellFormed) {spec : TableSpec}
    (hspec : spec ∈ s.tables) {c : ColumnSpec} (hc : c ∈ spec.columns) {key : ForeignKey}
    (hkey : key ∈ c.foreignKeys) :
    ∃ d ∈ s.entities, d.name = key.target := by
  have hreferences : c.references = some key.target := by
    unfold ColumnSpec.foreignKeys at hkey
    cases hreferences : c.references <;> rw [hreferences] at hkey
    · cases hkey
    · rw [List.mem_singleton.mp hkey]
  obtain ⟨e, he, rfl | ⟨p, hp, hlink, -⟩⟩ := tables_cases hspec
  · rcases List.mem_append.mp hc with hc | hc
    · obtain ⟨p, -, hown⟩ := List.mem_filterMap.mp hc
      unfold ownColumn at hown
      split at hown
      · split at hown
        · cases hown
        · cases hown
          cases hreferences
      · cases hown
    · obtain ⟨p, hp, hparent⟩ := List.mem_filterMap.mp hc
      unfold parentColumn at hparent
      split at hparent
      · next r hkind =>
        split at hparent
        · cases hparent
          obtain ⟨d, hd, hname⟩ :=
            hs.target e he p hp r.target r.kind (by simp [Property.relation?, hkind])
          exact ⟨d, hd, hname.trans (Option.some.inj hreferences)⟩
        · cases hparent
      · cases hparent
  · obtain ⟨target, unique, hrelation, rfl⟩ := linkTable_eq_some hlink
    rcases List.mem_cons.mp hc with rfl | hc
    · exact ⟨e, he, Option.some.inj hreferences⟩
    · obtain rfl := List.mem_singleton.mp hc
      obtain ⟨d, hd, hname⟩ := hs.target e he p hp target _ hrelation
      exact ⟨d, hd, hname.trans (Option.some.inj hreferences)⟩

namespace Store

variable {s s' : Schema} {a b store store' : Store} {t u : Table} {d : Definition}
  {statement : Statement} {effect : Effect} {enforced : Bool} {given : List (String × Int64)}

theorem Built.define (h : store.Built s s') (hs' : s'.WellFormed) (hd : d.Asked s')
    (hdefine : store.define d = .ok store') :
    store'.Built s s' := by
  have htarget {spec : TableSpec} (hspec : spec ∈ s'.tables) {c : ColumnSpec}
      (hc : c ∈ spec.columns) {key : ForeignKey} (hkey : key ∈ c.foreignKeys) :
      ∃ d ∈ s.entities ++ s'.entities, d.name = key.target := by
    obtain ⟨d, hd, hname⟩ := Schema.target_of_foreign hs' hspec hc hkey
    exact ⟨d, List.mem_append_right _ hd, hname⟩
  cases hd with
  | @table spec hspec =>
    rcases define_cases hdefine with ⟨_, ⟨⟩, ⟨-, rfl⟩ | ⟨-, rfl⟩⟩ | ⟨_, _, _, _, ⟨⟩, -⟩
    · exact h
    · refine ⟨List.forall_mem_append.mpr ⟨h.specs, List.forall_mem_singleton.mpr ?_⟩,
        List.forall_mem_append.mpr ⟨h.targets, List.forall_mem_singleton.mpr fun key hkey ↦ ?_⟩⟩
      · exact ⟨spec, List.mem_append_right _ hspec, rfl, rfl⟩
      · obtain ⟨c, hc, hkey⟩ := List.mem_flatMap.mp hkey
        exact htarget hspec hc hkey
  | @column e c he hc =>
    rcases define_cases hdefine with ⟨_, ⟨⟩, -⟩ | ⟨_, _, v, v', ⟨⟩, hv, hadd, rfl⟩
    obtain ⟨-, rfl⟩ := Table.addColumn_eq_ok.mp hadd
    have hmem := List.mem_of_find?_eq_some hv
    refine ⟨fun u hu ↦ ?_, fun u hu key hkey ↦ ?_⟩
    · rcases mem_setTable hu with rfl | ⟨hu, -⟩
      · exact h.specs v hmem
      · exact h.specs u hu
    · rcases mem_setTable hu with rfl | ⟨hu, -⟩
      · rcases List.mem_append.mp hkey with hkey | hkey
        · exact h.targets v hmem key hkey
        · exact htarget (Schema.entityTable_mem he) hc hkey
      · exact h.targets u hu key hkey

/-! ### Stores of a schema -/

namespace Shaped

theorem named (h : store.Shaped s) : store.Named := by
  intro t ht
  obtain ⟨spec, hspec, hshapes⟩ := List.forall₂_exists_right h.tables _ ht
  have hnames : store.tables.map Table.name = s.tables.map TableSpec.name := by
    have hsame := h.tables.imp fun spec t hshapes ↦ (hshapes.name_eq : t.name = spec.name)
    exact List.forall₂_eq_eq_eq ▸ List.forall₂_map_left_iff.mpr
      (List.forall₂_map_right_iff.mpr hsame.flip)
  have hapart : store.tables.Pairwise fun t u ↦ sameName t.name u.name = false := by
    have hdistinct : (s.tables.map TableSpec.name).Pairwise fun a b ↦ sameName a b = false :=
      List.pairwise_map.mpr h.distinct
    rw [← hnames] at hdistinct
    exact List.pairwise_map.mp hdistinct
  obtain ⟨u, hu, -, -⟩ := h.table? hspec
  rw [← hshapes.name_eq] at hu
  by_contra hne
  have hut : u ≠ t := fun heq ↦ hne (heq ▸ hu)
  have hfalse : sameName u.name t.name = false := by
    refine List.Pairwise.forall_of_forall_of_flip (R :=
        fun t u ↦ t ≠ u → sameName t.name u.name = false)
      (fun _ _ h ↦ absurd rfl h) (hapart.imp ?_) (hapart.imp ?_)
        (List.mem_of_find?_eq_some hu) ht hut
    · exact fun h _ ↦ h
    · exact fun h _ ↦ sameName_comm.trans h
  rw [sameName_of_table? hu] at hfalse
  cases hfalse

theorem built (hs : s.WellFormed) (h : store.Shaped s) (s' : Schema) : store.Built s s' where
  specs u hu := by
    obtain ⟨spec, hspec, hshapes⟩ := List.forall₂_exists_right h.tables _ hu
    exact ⟨spec, List.mem_append_left _ hspec, hshapes.name_eq, hshapes.rowColumn_eq⟩
  targets u hu key hkey := by
    obtain ⟨spec, hspec, hshapes⟩ := List.forall₂_exists_right h.tables _ hu
    rw [hshapes] at hkey
    obtain ⟨c, hc, hkey⟩ := List.mem_flatMap.mp hkey
    obtain ⟨d, hd, hname⟩ := Schema.target_of_foreign hs hspec hc hkey
    exact ⟨d, List.mem_append_left _ hd, hname⟩

theorem regular (hs : s.WellFormed) (h : store.Shaped s) : store.Regular where
  keyed := h.keyed
  named := h.named
  closed t ht key hkey := by
    obtain ⟨spec, hspec, hshapes⟩ := List.forall₂_exists_right h.tables _ ht
    rw [hshapes] at hkey
    obtain ⟨c, hc, hkey⟩ := List.mem_flatMap.mp hkey
    obtain ⟨d, hd, hname⟩ := Schema.target_of_foreign hs hspec hc hkey
    obtain ⟨u, hu, -⟩ := h.entityTable? hd
    rw [← hname, hu]
    rfl

/-- The columns that a statement names are there. -/
theorem of_declared (h : store.Shaped s) (hdeclared : statement.Declared s) :
    ∃ t, store.table? statement.table = some t ∧ t.name = statement.table ∧
    ∀ name ∈ statement.names, t.isRowColumn name ∨ ∃ c ∈ t.columns, c.name = name := by
  obtain ⟨spec, hspec, hname⟩ := hdeclared.table
  obtain ⟨t, ht, hshapes, -⟩ := h.table? hspec
  refine ⟨t, hname ▸ ht, hshapes.name_eq.trans hname, fun column hcolumn ↦ ?_⟩
  obtain ⟨other, hother, hsame, hor⟩ := hdeclared.names column hcolumn
  obtain rfl := spec_eq_of_name_eq h.distinct hspec hother (hname.trans hsame.symm)
  rcases hor with ⟨hcounted, rfl⟩ | ⟨c, hc, rfl⟩
  · refine .inl ?_
    unfold Table.isRowColumn
    rw [hshapes.rowColumn_eq, show spec.table.rowColumn = some Store.rowName from if_pos hcounted]
    rfl
  · refine .inr ⟨c.column, ?_, rfl⟩
    rw [hshapes.columns_eq]
    exact List.mem_map_of_mem hc

end Shaped

/-! ### A batch before and after the tables of another schema -/

/-- A store of a schema, and the same store after another schema has created its tables. -/
structure Ahead (s s' : Schema) (a b : Store) : Prop where
  shaped : a.Shaped s
  booted : ∃ u u', u.store = a ∧ u'.store = b ∧ (bootstrap s').run u = (.ok (), u')

namespace Ahead

variable (hs : s.WellFormed) (hs' : s'.WellFormed) (hbeside : s.Beside s') (h : Ahead s s' a b)

include hs hs' h

theorem facts :
    a.Grown b ∧ b.Named ∧ b.Built s s' ∧ ∀ spec ∈ s'.tables, (b.table? spec.name).isSome := by
  obtain ⟨u, u', rfl, rfl, hrun⟩ := h.booted
  refine ⟨grown_of_bootstrap hrun, ?_, ?_, isSome_of_bootstrap hrun⟩
  · exact bootstrap_kept (fun d _ _ _ hstore hdefine ↦ hstore.define hdefine) h.shaped.named hrun
  · exact bootstrap_kept (fun d hd _ _ hstore hdefine ↦ hstore.define hs' hd hdefine)
      (h.shaped.built hs s') hrun

include hbeside

/-- The foreign keys of the store lead to tables that show their row numbers. -/
theorem counted : b.Counted := by
  obtain ⟨hgrown, -, hbuilt, hthere⟩ := h.facts hs hs'
  intro u hu key hkey
  obtain ⟨d, hd, hname⟩ := hbuilt.targets u hu key hkey
  rw [← hname]
  rcases List.mem_append.mp hd with hd | hd
  · obtain ⟨t, ht, hshapes, -⟩ := h.shaped.entityTable? hd
    obtain ⟨w, hw, htw⟩ := hgrown.table _ t ht
    refine ⟨w, hw, ?_⟩
    rw [htw.rowColumn, hshapes.rowColumn_eq]
    rfl
  · obtain ⟨w, hw⟩ := Option.isSome_iff_exists.mp (hthere _ (Schema.entityTable_mem hd))
    have hw : b.table? d.name = some w := hw
    refine ⟨w, hw, ?_⟩
    obtain ⟨spec, hspec, hsame, hrow⟩ := hbuilt.specs w (List.mem_of_find?_eq_some hw)
    have hsame : sameName spec.name d.name := hsame ▸ sameName_of_table? hw
    have hcounted : spec.counted := by
      rcases List.mem_append.mp hspec with hspec | hspec
      · exact hbeside.counted hspec hd hsame
      · exact hbeside.right.counted hspec hd hsame
    rw [hrow, show spec.table.rowColumn = some Store.rowName from if_pos hcounted]
    rfl

end Ahead

/-- A statement of the one schema and the tables of the other come to the same in both orders. -/
theorem ahead_keeps (hs : s.WellFormed) (hs' : s'.WellFormed) (hbeside : s.Beside s') :
    s.Keeps (Ahead s s') Eq := by
  intro statement hdeclared a b h
  obtain ⟨t, ht, -, hnames⟩ := h.shaped.of_declared hdeclared
  have hnames : ∀ name ∈ statement.names, t.hasColumn name := by
    intro name hname
    rcases hnames name hname with hrow | ⟨c, hc, rfl⟩
    · exact Bool.or_eq_true_iff.mpr (.inl hrow)
    · exact Table.hasColumn_of_mem hc
  obtain ⟨hgrown, hnamed, -, -⟩ := h.facts hs hs'
  obtain ⟨u, hu, htu⟩ := hgrown.table _ t ht
  have hcounterparts : a.Counterparts b statement.table t u :=
    ⟨h.shaped.regular hs, h.counted hs hs' hbeside, hgrown, ht, hu, htu⟩
  have hboth := hcounterparts.run_both hdeclared.plain hnames
  have hta := List.mem_of_find?_eq_some ht
  have hub := List.mem_of_find?_eq_some hu
  obtain ⟨v, v', rfl, rfl, hrun⟩ := h.booted
  cases hleft : v.store.run statement <;> cases hright : v'.store.run statement <;>
    rw [hleft, hright] at hboth
  · cases hboth with
    | error heq => exact .error (congrArg _ heq)
  · cases hboth
  · cases hboth
  · cases hboth with
    | ok hsame =>
      obtain ⟨⟨t', hshape, hleftStore, hrightStore⟩, haffected, hrow⟩ := hsame
      refine .ok ⟨⟨h.shaped.run hdeclared.plain hleft, ?_⟩, haffected, hrow⟩
      have hholding : v'.store.setTable (u.holding t') = v'.store.putRows u.name t'.rows t'.last :=
        setTable_eq_putRows hnamed hub rfl
      rw [hleftStore, hrightStore, setTable_eq_putRows h.shaped.named hta hshape, hholding,
        htu.name]
      obtain ⟨w, hboot, hstore⟩ :=
        Refilled.bootstrap (v := { v with store := v.store.putRows t.name t'.rows t'.last })
        ⟨⟨t, hta, rfl⟩, rfl⟩ hrun
      exact ⟨_, w, rfl, hstore, hboot⟩

end Store

namespace Mapping

variable {s s' : Schema} {enforced : Bool} {given : List (String × Int64)}
  {batch : List Instruction}

/-- What a schema makes of a store depends on nothing else, and it leaves the slots. -/
theorem bootstrap_congr {u u' v : Session} (hstore : u.store = v.store)
    (hrun : (bootstrap s).run u = (.ok (), u')) :
    ∃ v', (bootstrap s).run v = (.ok (), v') ∧ v'.store = u'.store ∧ v'.slots = v.slots := by
  have htogether : Run.Together Eq (fun _ slots ↦ slots = v.slots) Eq (bootstrap s)
      (bootstrap s) fun _ _ ↦ True := by
    refine bootstrap_together (fun d _ store store' hst ↦ hst ▸ .refl (fun _ ↦ rfl) fun _ _ ↦ rfl)
      fun _ _ hst _ ↦ hst ▸ rfl
  have h := htogether u v ⟨hstore, rfl⟩
  rw [hrun] at h
  revert h
  rcases (bootstrap s).run v with ⟨_ | ⟨⟨⟩⟩, v'⟩ <;> intro h
  · exact h.elim
  · exact ⟨v', rfl, h.1.store.symm, h.1.slots⟩

/-- Persons get an age, and groups of their own. -/
def groupsCalls : List Schema.Call :=
  friendsCalls ++
    [.change, .addProperty "Person" (.field "age" { Field.ofType .int with optional := true }),
    .addEntity "Group" .detail, .addProperty "Person" (.collection "groups" ⟨.owned, "Group"⟩),
    .commit]

end Mapping

end EntityStore
