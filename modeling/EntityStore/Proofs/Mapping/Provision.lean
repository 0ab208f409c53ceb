import EntityStore.Proofs.Mapping.References
import Mathlib.Logic.Relation

/-!
What a schema asks of a store, and when the store has it. Creating the tables of a schema leaves all
of them there, with all columns (`bootstrap_provides`). Nothing that happens to the store takes them
away, and where they are, creating them asks for each of them and changes nothing
(`bootstrap_of_provides`).
-/

set_option autoImplicit false

namespace EntityStore

open Mapping

namespace Store

variable {store store' : Store} {t t' u : Table} {spec : TableSpec} {e : Entity}
  {table other name : String}

/-- What happens to a store: a definition or a statement succeeds, or foreign keys are checked from
now on or not. -/
inductive Becomes (store : Store) : Store → Prop where
  | defined {store' : Store} {d : Definition} (hdefine : store.define d = .ok store') :
      Becomes store store'
  | written {statement : Statement} {effect : Effect} (hrun : store.run statement = .ok effect) :
      Becomes store effect.store
  | opened (enforced : Bool) : Becomes store { store with enforced := enforced }

/-- A table is found under the name of one that is asked for, and the name is not reserved. -/
structure HasTable (store : Store) (spec : TableSpec) : Prop where
  allowed : isReserved spec.name = false
  found : (store.table? spec.name).isSome

/-- A table lists a column under exactly this name. -/
def Lists (store : Store) (table column : String) : Prop :=
  ∃ t, store.table? table = some t ∧ column ∈ t.columnNames

/-- The tables of an entity and of its links are there, and the entity's own lists all columns that
are asked for. -/
structure Provides (store : Store) (e : Entity) : Prop where
  tables : ∀ spec ∈ entityTable e :: e.properties.filterMap (linkTable e.name), store.HasTable spec
  lists : ∀ c ∈ columns e, store.Lists e.name c.name

/-! ### What lasts -/

theorem table?_setTable_columns (ht : store.table? other = some t) (hname : t'.name = t.name)
    (hrow : t'.rowColumn = t.rowColumn) (hcolumns : t.columns ⊆ t'.columns)
    (hu : store.table? name = some u) :
    ∃ v, (store.setTable t').table? name = some v ∧ v.rowColumn = u.rowColumn ∧
    u.columns ⊆ v.columns := by
  refine ⟨if u.name = t'.name then t' else u, by rw [table?_setTable, hu, Option.map_some], ?_⟩
  split
  · next heq =>
    obtain rfl := table?_of_name ht hu (heq.trans hname)
    exact ⟨hrow, hcolumns⟩
  · exact ⟨rfl, List.Subset.refl _⟩

/-- Tables stay, and so do their columns. -/
theorem Becomes.table? (h : store.Becomes store') (hu : store.table? name = some u) :
    ∃ v, store'.table? name = some v ∧ v.rowColumn = u.rowColumn ∧ u.columns ⊆ v.columns := by
  cases h with
  | defined hdefine =>
    rcases define_cases hdefine with
      ⟨spec, rfl, ⟨-, rfl⟩ | ⟨-, rfl⟩⟩ | ⟨other, c, t, t', rfl, ht, hadd, rfl⟩
    · exact ⟨u, hu, rfl, List.Subset.refl _⟩
    · refine ⟨u, ?_, rfl, List.Subset.refl _⟩
      unfold Store.table? at hu ⊢
      rw [List.find?_append, hu]
      rfl
    · obtain ⟨-, rfl⟩ := Table.addColumn_eq_ok.mp hadd
      exact table?_setTable_columns ht rfl rfl (List.subset_append_left _ _) hu
  | written hrun =>
    obtain ⟨t, t', ht, hbecomes, hstore⟩ := run_cases hrun
    have hshape := hbecomes.eq_withRows
    rw [hstore]
    refine table?_setTable_columns ht (by rw [hshape]) (by rw [hshape]) ?_ hu
    rw [hshape]
    exact List.Subset.refl _
  | opened enforced => exact ⟨u, hu, rfl, List.Subset.refl _⟩

/-- A property of stores that lasts, whatever happens to them. -/
def Lasts (P : Store → Prop) : Prop :=
  ∀ store store', Becomes store store' → P store → P store'

theorem Lasts.later {P : Store → Prop} (h : Lasts P)
    (hnext : Relation.ReflTransGen Becomes store store') (hstore : P store) : P store' := by
  induction hnext with
  | refl => exact hstore
  | tail _ hnext ih => exact h _ _ hnext ih

theorem found_lasts (name : String) : Lasts fun store ↦ (store.table? name).isSome := by
  intro store store' hnext h
  obtain ⟨u, hu⟩ := Option.isSome_iff_exists.mp h
  obtain ⟨v, hv, -⟩ := hnext.table? hu
  exact Option.isSome_iff_exists.mpr ⟨v, hv⟩

theorem hasTable_lasts (spec : TableSpec) : Lasts fun store ↦ store.HasTable spec :=
  fun _ _ hnext h ↦ ⟨h.allowed, found_lasts spec.name _ _ hnext h.found⟩

theorem lists_lasts (table column : String) : Lasts fun store ↦ store.Lists table column := by
  rintro store store' hnext ⟨u, hu, hcolumn⟩
  obtain ⟨v, hv, hrow, hcolumns⟩ := hnext.table? hu
  refine ⟨v, hv, ?_⟩
  unfold Table.columnNames at hcolumn ⊢
  rw [hrow]
  exact List.mem_append.mpr ((List.mem_append.mp hcolumn).imp_right
    fun hmem ↦ List.map_subset _ hcolumns hmem)

/-- What an entity asks for stays once it is there. -/
theorem provides_lasts (e : Entity) : Lasts fun store ↦ store.Provides e :=
  fun _ _ hnext h ↦ ⟨fun spec hspec ↦ hasTable_lasts spec _ _ hnext (h.tables spec hspec),
    fun c hc ↦ lists_lasts e.name c.name _ _ hnext (h.lists c hc)⟩

/-! ### What definitions leave -/

theorem isSome_createTable (hdefine : store.define (.createTable spec) = .ok store') :
    (store'.table? spec.name).isSome := by
  rcases define_cases hdefine with ⟨_, ⟨⟩, ⟨hsome, rfl⟩ | ⟨hnone, rfl⟩⟩ | ⟨_, _, _, _, ⟨⟩, -⟩
  · exact hsome
  · unfold Store.table? at hnone ⊢
    have hname : sameName spec.table.name spec.name := Table.sameName_refl spec.name
    rw [List.find?_append, hnone, Option.none_or, List.find?_singleton, if_pos hname]
    rfl

theorem hasTable_of_define (hdefine : store.define (.createTable spec) = .ok store') :
    store'.HasTable spec := by
  refine ⟨Bool.eq_false_iff.mpr fun hreserved ↦ ?_, isSome_createTable hdefine⟩
  unfold define at hdefine
  dsimp only at hdefine
  rw [if_pos hreserved] at hdefine
  cases hdefine

/-- A table that is there is not created again. -/
theorem HasTable.define_eq (h : store.HasTable spec) :
    store.define (.createTable spec) = .ok store := by
  unfold define
  dsimp only
  rw [if_neg (Bool.eq_false_iff.mp h.allowed), if_pos h.found]

/-- A column that is added is listed. -/
theorem lists_of_define {c : ColumnSpec}
    (hdefine : store.define (.addColumn table c) = .ok store') :
    store'.Lists table c.name := by
  rcases define_cases hdefine with ⟨spec, ⟨⟩, -⟩ | ⟨_, _, t, t', ⟨⟩, ht, hadd, rfl⟩
  obtain ⟨-, rfl⟩ := Table.addColumn_eq_ok.mp hadd
  refine ⟨_, by rw [table?_setTable, ht, Option.map_some, if_pos rfl], List.mem_append_right _ ?_⟩
  exact List.mem_map.mpr ⟨c.column, List.mem_append_right _ (List.mem_singleton_self _), rfl⟩

/-- The columns that are missing are those that are not listed. -/
theorem lists_or_missing (hfound : (store.table? e.name).isSome) {c : ColumnSpec}
    (hc : c ∈ columns e) :
    store.Lists e.name c.name ∨
      addedColumn c ∈ missingColumns e (((store.table? e.name).map Table.columnNames).getD []) := by
  obtain ⟨t, ht⟩ := Option.isSome_iff_exists.mp hfound
  rw [ht, Option.map_some, Option.getD_some]
  by_cases hlisted : c.name ∈ t.columnNames
  · exact .inl ⟨t, ht, hlisted⟩
  · exact .inr (List.mem_map_of_mem (List.mem_filter.mpr ⟨hc, by simpa using hlisted⟩))

/-- Where all columns are listed none is missing. -/
theorem Provides.missingColumns_eq_nil (h : store.Provides e) :
    missingColumns e (((store.table? e.name).map Table.columnNames).getD []) = [] := by
  unfold missingColumns
  rw [List.map_eq_nil_iff, List.filter_eq_nil_iff]
  intro c hc
  obtain ⟨t, ht, hlisted⟩ := h.lists c hc
  rw [ht, Option.map_some, Option.getD_some]
  simpa using hlisted

end Store

namespace Run

variable {γ : Type} {xs : List γ} {g : γ → Run PUnit} {t t' : Session}

/-- What each step of a loop leaves in the store and lasts there is there after the loop. -/
theorem run_forM_leaves {Q : γ → Store → Prop} (hrun : (xs.forM g).run t = (.ok ⟨⟩, t'))
    (hstep : ∀ c ∈ xs, ∀ u u', (g c).run u = (.ok ⟨⟩, u') →
      Relation.ReflTransGen Store.Becomes u.store u'.store ∧ Q c u'.store)
    (hlasts : ∀ c, Store.Lasts (Q c)) :
    Relation.ReflTransGen Store.Becomes t.store t'.store ∧ ∀ c ∈ xs, Q c t'.store := by
  refine run_forM_ok (P := fun done u ↦ Relation.ReflTransGen Store.Becomes t.store u.store ∧
      ∀ c ∈ done, Q c u.store)
    hrun ⟨.refl, List.forall_mem_nil _⟩ fun before c after u u' hsplit hbefore hg ↦ ?_
  obtain ⟨hleads, hleft⟩ := hstep c (by simp [hsplit]) u u' hg
  refine ⟨hbefore.1.trans hleads,
    List.forall_mem_append.mpr ⟨fun d hd ↦ ?_, List.forall_mem_singleton.mpr hleft⟩⟩
  exact (hlasts d).later hleads (hbefore.2 d hd)

/-- A loop whose steps only log leaves the rest of the session. -/
theorem run_forM_logged {f : γ → List Event} {store : Store}
    (hstep : ∀ c ∈ xs, ∀ u, u.store = store →
      (g c).run u = (.ok ⟨⟩, { u with log := (f c).reverse ++ u.log }))
    (ht : t.store = store) : (xs.forM g).run t =
      (.ok ⟨⟩, { t with log := (xs.flatMap f).reverse ++ t.log }) := by
  induction xs generalizing t with
  | nil => rfl
  | cons c xs ih =>
    obtain ⟨hfirst, hrest⟩ := List.forall_mem_cons.mp hstep
    change (g c >>= fun _ ↦ xs.forM g).run t = _
    rw [run_bind, hfirst t ht]
    dsimp only
    rw [ih hrest (t := { t with log := (f c).reverse ++ t.log }) ht, List.flatMap_cons,
      List.reverse_append, List.append_assoc]

end Run

namespace Mapping

variable {s : Schema} {e : Entity} {t t' : Session}

/-- The event that a table is asked for. -/
def asked (spec : TableSpec) : Event :=
  .defined (.createTable spec)

/-! ### The first time -/

theorem defineEntity_provides (hrun : (defineEntity e).run t = (.ok (), t')) :
    Relation.ReflTransGen Store.Becomes t.store t'.store ∧ t'.store.Provides e := by
  obtain ⟨⟨⟩, u, hfirst, hrest⟩ := Run.run_bind_ok.mp hrun
  obtain ⟨u', u₁, hget, hrest₁⟩ := Run.run_bind_ok.mp hrest
  obtain ⟨rfl, rfl⟩ := Run.run_get_ok hget
  dsimp only at hrest₁
  obtain ⟨⟨⟩, u₂, hmissing, hlinks⟩ := Run.run_bind_ok.mp hrest₁
  have hleads {d : Definition} {v v' : Session} (hdefine : (Run.define d).run v = (.ok (), v')) :
      Relation.ReflTransGen Store.Becomes v.store v'.store :=
        .single (.defined (Run.run_define_ok hdefine))
  have htable : u₁.store.HasTable (entityTable e) :=
    Store.hasTable_of_define (Run.run_define_ok hfirst)
  obtain ⟨hadds, hadded⟩ :=
    Run.run_forM_leaves (Q := fun c store ↦ store.Lists e.name c.name) hmissing
    (fun c _ v v' hdefine ↦ ⟨hleads hdefine, Store.lists_of_define (Run.run_define_ok hdefine)⟩)
    fun c ↦ Store.lists_lasts e.name c.name
  obtain ⟨hgoes, hthere⟩ := Run.run_forM_leaves (Q := fun spec store ↦ store.HasTable spec) hlinks
    (fun spec _ v v' hdefine ↦ ⟨hleads hdefine,
      Store.hasTable_of_define (Run.run_define_ok hdefine)⟩)
    Store.hasTable_lasts
  have hafter := hadds.trans hgoes
  refine ⟨(hleads hfirst).trans hafter, List.forall_mem_cons.mpr ⟨?_, hthere⟩, fun c hc ↦ ?_⟩
  · exact (Store.hasTable_lasts _).later hafter htable
  · -- a column was there before or has been added
    rcases Store.lists_or_missing htable.found hc with hlists | hmissing
    · exact (Store.lists_lasts _ _).later hafter hlists
    · exact (Store.lists_lasts _ _).later hgoes (hadded (addedColumn c) hmissing)

/-- A schema that has created its tables finds in the store all that it asks for. -/
theorem bootstrap_provides (hrun : (bootstrap s).run t = (.ok (), t')) :
    Relation.ReflTransGen Store.Becomes t.store t'.store ∧
    ∀ e ∈ s.entities, t'.store.Provides e := by
  unfold bootstrap at hrun
  rw [Run.run_atomically] at hrun
  split at hrun
  · next u hall =>
    cases hrun
    exact Run.run_forM_leaves (Q := fun e store ↦ store.Provides e) hall
      (fun e _ v v' hdefine ↦ defineEntity_provides hdefine) Store.provides_lasts
  · cases hrun

/-! ### Every other time -/

theorem run_define_of_hasTable {spec : TableSpec} (h : t.store.HasTable spec) :
    (Run.define (.createTable spec)).run t = (.ok (), { t with log := asked spec :: t.log }) := by
  rw [Run.run_define, h.define_eq]
  rfl

theorem defineEntity_of_provides (h : t.store.Provides e) :
    (defineEntity e).run t = (.ok (), { t with
    log := ((entityTable e :: e.properties.filterMap (linkTable e.name)).map asked).reverse ++
        t.log }) := by
  obtain ⟨htable, hlinks⟩ := List.forall_mem_cons.mp h.tables
  have hget (u : Session) : (get : Run Session).run u = (.ok u, u) := rfl
  have hloop := Run.run_forM_logged (t := { t with log := asked (entityTable e) :: t.log }) (f :=
      fun spec ↦ [asked spec])
    (fun spec hspec u (hu : u.store = t.store) ↦ run_define_of_hasTable (hu ▸ hlinks spec hspec))
      rfl
  unfold defineEntity
  rw [Run.run_bind, run_define_of_hasTable htable]
  dsimp only
  rw [Run.run_bind, hget]
  dsimp only
  rw [h.missingColumns_eq_nil]
  change ((e.properties.filterMap (linkTable e.name)).forM
      fun spec ↦ Run.define (.createTable spec)).run _ = _
  rw [hloop, ← List.map_eq_flatMap, List.map_cons, List.reverse_cons, List.append_assoc]
  rfl

/-- A schema that finds all that it asks for creates nothing. -/
theorem bootstrap_of_provides (h : ∀ e ∈ s.entities, t.store.Provides e) :
    (bootstrap s).run t = (.ok (), { t with log := (s.tables.map asked).reverse ++ t.log }) := by
  have hloop := Run.run_forM_logged (t := t)
    (fun e he u (hu : u.store = t.store) ↦ defineEntity_of_provides (hu ▸ h e he)) rfl
  unfold bootstrap Schema.tables
  rw [Run.run_atomically, hloop, List.map_flatMap]

end Mapping

end EntityStore
