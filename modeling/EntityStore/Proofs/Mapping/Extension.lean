import EntityStore.Proofs.Mapping.Interleaving

/-!
A schema that creates its tables in a store of any past. The tables that are there are extended:
their rows stay, with their cells, and the cells of added columns are null. From then on the schema
creates nothing any more (`bootstrap_idempotent`).
-/

set_option autoImplicit false

namespace EntityStore

open Mapping

/-! ### Tables -/

namespace Table

variable {t t' u : Table} {r : StoredRow} {statement : Statement}

theorem Knows.of_columns (h : t.Knows r) (hcolumns : t.columns ⊆ u.columns) : u.Knows r := by
  intro x hx
  obtain ⟨c, hc, hname⟩ := h x hx
  exact ⟨c, hcolumns hc, hname⟩

/-- Statements write no cell outside the columns of their table. -/
theorem Becomes.knows (hbecomes : t.Becomes statement t') (h : ∀ r ∈ t.rows, t.Knows r) :
    ∀ r ∈ t'.rows, t'.Knows r := by
  have hrows : ∀ r ∈ t'.rows, t.Knows r := by
    intro r hr
    rcases hbecomes.mem_rows hr with hr | ⟨-, ⟨values, id, rfl⟩ | ⟨sets, id, old, hold, rfl⟩⟩
    · exact h r hr
    · exact knows_newRow
    · exact (h old hold).changedRow
  rw [hbecomes.eq_withRows]
  exact fun r hr ↦ (hrows r hr).of_columns (List.Subset.refl _)

/-- A table after columns were added to it, with the same cells in its rows and none in the added
columns. -/
structure Extends (t u : Table) : Prop where
  grown : t.Grown u
  cells : ∀ r ∈ t.rows, ∀ name, u.cellOf r name = t.cellOf r name
  added : ∀ c ∈ u.columns, c ∉ t.columns → ∀ r ∈ u.rows, u.cellOf r c.name = .null

theorem Grown.extends (h : t.Grown u) (hknown : ∀ r ∈ t.rows, t.Knows r) : t.Extends u where
  grown := h
  cells r hr name := h.cellOf_eq (hknown r hr) name
  added c hc hnew r hr := by
    obtain ⟨added, hcolumns, hnone⟩ := h.columns
    rw [h.rows] at hr
    rw [hcolumns] at hc
    rw [h.cellOf_eq (hknown r hr),
      cellOf_eq_null (hnone c ((List.mem_append.mp hc).resolve_left hnew)).2]

end Table

/-! ### Stores -/

namespace Store

variable {a b store store' : Store} {name : String}

/-- A store of any past: definitions and statements have led to it from an empty one. -/
def Formed (store : Store) : Prop :=
  ∃ enforced, Relation.ReflTransGen Becomes (.empty enforced) store

/-- Every table is found under its name, and all cells of its rows are in its columns. -/
structure Legible (store : Store) : Prop where
  named : store.Named
  known : ∀ t ∈ store.tables, ∀ r ∈ t.rows, t.Knows r

theorem legible_lasts : Lasts Legible := by
  intro store store' hnext h
  cases hnext with
  | defined hdefine =>
    refine ⟨h.named.define hdefine, ?_⟩
    rcases define_cases hdefine with
      ⟨spec, rfl, ⟨-, rfl⟩ | ⟨-, rfl⟩⟩ | ⟨name, c, t, t', rfl, ht, hadd, rfl⟩
    · exact h.known
    · exact List.forall_mem_append.mpr ⟨h.known,
        List.forall_mem_singleton.mpr (List.forall_mem_nil _)⟩
    · obtain ⟨-, rfl⟩ := Table.addColumn_eq_ok.mp hadd
      refine forall_setTable h.known fun r hr ↦ ?_
      exact (h.known t (List.mem_of_find?_eq_some ht) r hr).of_columns (List.subset_append_left _ _)
  | written hrun =>
    obtain ⟨t, t', ht, hbecomes, hstore⟩ := run_cases hrun
    have hmem := List.mem_of_find?_eq_some ht
    rw [hstore]
    exact ⟨h.named.setTable hmem (by rw [hbecomes.eq_withRows]),
      forall_setTable h.known (hbecomes.knows (h.known t hmem))⟩
  | opened enforced => exact ⟨h.named, h.known⟩

theorem Formed.later (h : store.Formed) (hnext : Relation.ReflTransGen Becomes store store') :
    store'.Formed := by
  obtain ⟨enforced, hbefore⟩ := h
  exact ⟨enforced, hbefore.trans hnext⟩

theorem Formed.legible (h : store.Formed) : store.Legible := by
  obtain ⟨enforced, hbefore⟩ := h
  exact legible_lasts.later hbefore ⟨List.forall_mem_nil _, List.forall_mem_nil _⟩

/-- The stores of databases are formed. -/
theorem formed_of_next {enforced : Bool} (h : Relation.ReflTransGen Next (.empty enforced) store) :
    store.Formed :=
  kept (fun _ _ _ _ hstore hdefine ↦ hstore.later (.single (.defined hdefine)))
    (fun _ _ _ _ hstore hrun ↦ hstore.later (.single (.written hrun))) h ⟨enforced, .refl⟩

/-- A store with the tables of another, extended, and new ones without rows. -/
structure Extends (a b : Store) : Prop where
  enforced : b.enforced = a.enforced
  named : b.Named
  table : ∀ name t, a.table? name = some t → ∃ u, b.table? name = some u ∧ t.Extends u
  others : ∀ u ∈ b.tables, (∃ t ∈ a.tables, t.Extends u) ∨ u.rows = []

theorem Grown.extends (h : a.Grown b) (ha : a.Legible) (hb : b.Named) : a.Extends b where
  enforced := h.enforced
  named := hb
  table name t ht := by
    obtain ⟨u, hu, htu⟩ := h.table name t ht
    exact ⟨u, hu, htu.extends (ha.known t (List.mem_of_find?_eq_some ht))⟩
  others u hu := by
    refine (h.rows u hu).imp_left ?_
    rintro ⟨t, ht, htu⟩
    exact ⟨t, ht, htu.extends (ha.known t ht)⟩

/-! ### Content -/

/-- The rows of the table of a name. -/
def rowsOf (store : Store) (name : String) : List StoredRow :=
  ((store.table? name).map Table.rows).getD []

theorem bind_row?_eq (id : Int64) :
    (store.table? name).bind (·.row? id) = (store.rowsOf name).find? fun r ↦ r.id == id := by
  unfold rowsOf
  cases store.table? name <;> rfl

theorem targets_eq (owner : Int64) : ((store.table? name).map (·.targets owner)).getD [] =
    ((store.rowsOf name).filter fun r ↦ r.number? ownerColumn == some owner).filterMap
      (·.number? targetColumn) := by
  unfold rowsOf
  cases store.table? name <;> rfl

/-- Stores with the same rows have the same content. -/
theorem content_congr (h : ∀ name, b.rowsOf name = a.rowsOf name) (s : Schema) :
    b.content s = a.content s := by
  unfold content
  simp only [bind_row?_eq, targets_eq, h]

theorem Grown.rowsOf_eq (h : a.Grown b) (name : String) : b.rowsOf name = a.rowsOf name := by
  unfold rowsOf
  cases ht : a.table? name with
  | some t =>
    obtain ⟨u, hu, htu⟩ := h.table name t ht
    rw [hu]
    exact htu.rows
  | none =>
    cases hu : b.table? name with
    | none => rfl
    | some u =>
      -- had the table been there before, it would have been found
      refine (h.rows u (List.mem_of_find?_eq_some hu)).resolve_left ?_
      rintro ⟨t, ht', htu⟩
      exact List.find?_eq_none.mp ht t ht' (htu.name ▸ sameName_of_table? hu)

end Store

namespace Mapping

variable {s : Schema} {t t' : Session}

/-- A schema that creates its tables in a store extends it with all that it asks for: no row and no
link changes. From then on, whatever is done to the store, it creates nothing any more. -/
theorem bootstrap_idempotent (hstore : t.store.Formed) (hrun : (bootstrap s).run t = (.ok (), t')) :
    (∀ e ∈ s.entities, t'.store.Provides e) ∧ t.store.Extends t'.store ∧
      (∀ d : Schema, t'.store.content d = t.store.content d) ∧
      ∀ u : Session, Relation.ReflTransGen Store.Becomes t'.store u.store →
        (bootstrap s).run u =
          (.ok (), { u with log := (s.tables.map asked).reverse ++ u.log }) := by
  obtain ⟨hleads, hprovides⟩ := bootstrap_provides hrun
  have hgrown := Store.grown_of_bootstrap hrun
  refine ⟨hprovides, hgrown.extends hstore.legible (hstore.later hleads).legible.named,
    Store.content_congr hgrown.rowsOf_eq, fun u hnext ↦ bootstrap_of_provides fun e he ↦ ?_⟩
  exact (Store.provides_lasts e).later hnext (hprovides e he)

theorem bootstrap_idempotent_of_groups : ∃ t t', t.store.Formed ∧
    (bootstrap (Schema.empty.after groupsCalls)).run t = (.ok (), t') ∧
      t.store.table? "Group" = none ∧ t'.store.Lists "Person" "age" ∧
      ((t'.store.content (Schema.empty.after groupsCalls)).row "Person" 1).isSome ∧
      (bootstrap (Schema.empty.after groupsCalls)).run t' = (.ok (), { t' with
        log := ((Schema.empty.after groupsCalls).tables.map asked).reverse ++ t'.log }) := by
  have hs : (Schema.empty.after friendsCalls).Reachable := ⟨friendsCalls, rfl⟩
  have hfirst : ((bootstrap (Schema.empty.after friendsCalls)).run (.start true)).1.isOk := by
    decide +kernel
  have hok : (have u := ((bootstrap (Schema.empty.after friendsCalls)).run (.start true)).2
      ((Schema.empty.after friendsCalls).compileCreate annForm [] u.slots).toOption.any fun c ↦
        have r := (execute (Schema.empty.after friendsCalls) c.instructions).run u
        r.1.isOk && ((bootstrap (Schema.empty.after groupsCalls)).run r.2).1.isOk &&
          (r.2.store.table? "Group").isNone &&
          ((r.2.store.content (Schema.empty.after groupsCalls)).row "Person" 1).isSome) := by
            decide +kernel
  have hperson : ∃ e ∈ (Schema.empty.after groupsCalls).entities, e.name = "Person" ∧
      ∃ c ∈ columns e, c.name = "age" := by
    decide +kernel
  -- from here on only these facts count, and nothing is computed any more
  generalize Schema.empty.after friendsCalls = s at hs hfirst hok ⊢
  generalize Schema.empty.after groupsCalls = s' at hok hperson ⊢
  obtain ⟨⟨⟩, hfirst⟩ := Except.isOk_iff.mp hfirst
  have hfirst := Run.run_eq_ok hfirst
  generalize ((bootstrap s).run (.start true)).2 = u at hfirst hok
  obtain ⟨c, hc, hok⟩ := (Option.any_eq_true _ _).mp hok
  simp only [Bool.and_eq_true, Option.isNone_iff_eq_none] at hok
  obtain ⟨⟨⟨hrun, hboot⟩, hnone⟩, hrow⟩ := hok
  obtain ⟨⟨⟩, hrun⟩ := Except.isOk_iff.mp hrun
  obtain ⟨⟨⟩, hboot⟩ := Except.isOk_iff.mp hboot
  have hnext : Relation.ReflTransGen Store.Next (.empty true)
      ((execute s c.instructions).run u).2.store :=
    .tail (.single (.defined hs hfirst))
      (.written hs (fun i hi ↦ .create (Except.toOption_eq_some_iff.mp hc) hi) (Run.run_eq_ok hrun))
  have hformed := Store.formed_of_next hnext
  obtain ⟨hprovides, -, hcontent, hagain⟩ := bootstrap_idempotent hformed (Run.run_eq_ok hboot)
  obtain ⟨e, he, hname, column, hcolumn, hage⟩ := hperson
  refine ⟨_, _, hformed, Run.run_eq_ok hboot, hnone, ?_, ?_, hagain _ .refl⟩
  · exact hname ▸ hage ▸ (hprovides e he).lists column hcolumn
  · rw [hcontent s']
    exact hrow

end Mapping

end EntityStore
