import EntityStore.Proofs.Mapping.Provision

/-!
The stores of databases. Schemas create their tables in them one after the other, and batches are
executed in between; what this keeps is true of every such store (`Store.Hosts.sound`), and the
columns of a schema that has created its tables stay (`Store.Hosts.covers`).
-/

set_option autoImplicit false

namespace EntityStore

open Mapping

namespace Store

/-- A schema creates the tables that it asks for, or a batch is executed; both also where they
fail. -/
inductive Next : Store → Store → Prop where
  | defined {s : Schema} {t t' : Session} {outcome : Except Error Unit} (hs : s.Reachable)
      (hrun : (bootstrap s).run t = (outcome, t')) : Next t.store t'.store
  | written {s : Schema} {batch : List Instruction} {t t' : Session}
      {outcome : Except Error Unit} (hs : s.Reachable) (hbatch : ∀ i ∈ batch, s.Compiles i)
      (hrun : (execute s batch).run t = (outcome, t')) : Next t.store t'.store

/-- A store of databases in which a schema has created its tables. -/
def Hosts (s : Schema) (store : Store) : Prop :=
  ∃ enforced t t', Relation.ReflTransGen Next (.empty enforced) t.store ∧
    (bootstrap s).run t = (.ok (), t') ∧ Relation.ReflTransGen Next t'.store store

/-- What every store of databases keeps: the names of columns differ, and the numbers of rows are
not greater than the greatest that was given, where numbers are not given twice. -/
structure Sound (store : Store) : Prop where
  keyed : store.Keyed
  distinct : ∀ t ∈ store.tables, Table.Distinct t.columns
  counted : ∀ t ∈ store.tables, t.rowColumn.isSome → ∀ r ∈ t.rows, r.id ≤ t.last

/-- A table has a column of exactly this name. -/
def Column (store : Store) (table column : String) : Prop :=
  ∃ t, store.table? table = some t ∧ ∃ c ∈ t.columns, c.name = column

end Store

/-! ### Tables -/

namespace Table

variable {t t' : Table} {statement : Statement}

theorem Distinct.addColumn (h : Distinct t.columns) {c : Column} {foreign : List ForeignKey}
    (hadd : t.addColumn c foreign = .ok t') : Distinct t'.columns := by
  obtain ⟨hnew, rfl⟩ := addColumn_eq_ok.mp hadd
  refine List.pairwise_append.mpr ⟨h, List.pairwise_singleton _ _, fun d hd c' hc ↦ ?_⟩
  obtain rfl := List.mem_singleton.mp hc
  refine Bool.eq_false_iff.mpr fun hsame ↦ ?_
  have hhas : t.hasColumn c'.name :=
    Bool.or_eq_true_iff.mpr (.inr (List.find?_isSome.mpr ⟨d, hd, hsame⟩))
  rw [hnew] at hhas
  cases hhas

/-- A row is changed in its place. -/
theorem Keyed.update_ok (h : t.Keyed) {sets : List (String × Cell)}
    (hsets : ∀ x ∈ sets, Settable x) {id : Int64} {count : Nat}
    (hupdate : t.update sets id = .ok (t', count)) : t' = t ∨
      ∃ old, t.row? id = some old ∧ (t.changedRow sets old id).id = id ∧
        t' = t.withChanged id (t.changedRow sets old id) := by
  obtain ⟨-, ⟨-, rfl, -⟩ | ⟨old, new, htarget, hnew, -, -, rfl, -⟩⟩ := update_eq_ok.mp hupdate
  · exact .inl rfl
  obtain rfl := h.idAfter_eq hsets hnew
  exact .inr ⟨old, target_eq_some htarget, rfl, rfl⟩

/-- The number of an added row is the next. -/
theorem Keyed.insert_ok (h : t.Keyed) {named : String} {values : List (String × Cell)} {id : Int64}
    (hvalues : ∀ x ∈ values, Settable x) (hinsert : t.insert named values = .ok (t', id)) :
    t.nextId = .ok id ∧ t' = t.withRow (t.newRow values id) := by
  obtain ⟨-, hid, -, -, rfl⟩ := insert_eq_ok.mp hinsert
  unfold idFor at hid
  rw [h.given_rowColumn hvalues] at hid
  exact ⟨hid, rfl⟩

/-- The numbers of rows stay below the greatest that was given. -/
theorem Becomes.counted (h : t.Becomes statement t') (hkeyed : t.Keyed) (hplain : statement.Plain)
    (hcounted : t.rowColumn.isSome → ∀ r ∈ t.rows, r.id ≤ t.last) :
    t'.rowColumn.isSome → ∀ r ∈ t'.rows, r.id ≤ t'.last := by
  cases statement with
  | insert named values =>
    obtain ⟨id, hinsert⟩ := h
    obtain ⟨-, rfl⟩ := hkeyed.insert_ok hplain hinsert
    intro hsome r hr
    have hsome : t.rowColumn.isSome := hsome
    change r.id ≤ if t.rowColumn.isSome then max t.last id else t.last
    rw [if_pos hsome]
    rcases mem_insertRow.mp hr with rfl | hr
    · exact le_max_right t.last id
    · exact Int64.le_trans (hcounted hsome r hr) (le_max_left t.last id)
  | update named sets id =>
    obtain ⟨count, hupdate⟩ := h
    rcases hkeyed.update_ok hplain hupdate with rfl | ⟨old, hold, hid, rfl⟩
    · exact hcounted
    · intro hsome r hr
      rw [withChanged_rows hid] at hr
      obtain ⟨old', hmem, rfl⟩ := List.mem_map.mp hr
      split
      · next heq =>
        rw [hid, ← beq_iff_eq.mp heq]
        exact hcounted hsome old' hmem
      · exact hcounted hsome old' hmem
  | delete named keys =>
    obtain rfl := h
    exact fun hsome r hr ↦ hcounted hsome r (List.mem_filter.mp hr).1

end Table

/-! ### What definitions and statements keep -/

namespace Store

variable {store store' : Store} {t t' : Table} {table column name : String}

theorem forall_setTable {P : Table → Prop} (h : ∀ t ∈ store.tables, P t) (ht : P t) :
    ∀ u ∈ (store.setTable t).tables, P u := by
  intro u hu
  obtain ⟨v, hv, rfl⟩ := List.mem_map.mp hu
  split
  · exact ht
  · exact h v hv

theorem Sound.run (h : store.Sound) {statement : Statement} {effect : Effect}
    (hplain : statement.Plain) (hrun : store.run statement = .ok effect) : effect.store.Sound := by
  obtain ⟨t, t', ht, hbecomes, hstore⟩ := run_cases hrun
  have hmem := List.mem_of_find?_eq_some ht
  refine ⟨h.keyed.run hplain hrun, ?_, ?_⟩ <;> rw [hstore]
  · refine forall_setTable h.distinct ?_
    rw [hbecomes.eq_withRows]
    exact h.distinct t hmem
  · exact forall_setTable h.counted (hbecomes.counted (h.keyed t hmem) hplain (h.counted t hmem))

theorem createTable_ok {spec : TableSpec}
    (hdefine : store.define (.createTable spec) = .ok store') :
    store' = store ∨ spec.duplicate? = none ∧
    store' = { store with tables := store.tables ++ [spec.table] } := by
  unfold define at hdefine
  dsimp only at hdefine
  split at hdefine
  · cases hdefine
  · split at hdefine
    · cases hdefine
      exact .inl rfl
    · split at hdefine
      · cases hdefine
      · next hduplicate =>
        cases hdefine
        exact .inr ⟨hduplicate, rfl⟩

theorem Sound.define (h : store.Sound) {d : Definition} (hplain : d.Plain)
    (hdefine : store.define d = .ok store') :
    store'.Sound := by
  have hkeyed := h.keyed.define hplain hdefine
  cases d with
  | createTable spec =>
    rcases createTable_ok hdefine with rfl | ⟨hduplicate, rfl⟩
    · exact h
    · exact ⟨hkeyed, List.forall_mem_append.mpr ⟨h.distinct, List.forall_mem_singleton.mpr
        (TableSpec.columns_distinct hduplicate)⟩, List.forall_mem_append.mpr ⟨h.counted,
          List.forall_mem_singleton.mpr fun _ ↦ List.forall_mem_nil _⟩⟩
  | addColumn table c =>
    rcases define_cases hdefine with ⟨spec, ⟨⟩, -⟩ | ⟨_, _, t, t', ⟨⟩, ht, hadd, rfl⟩
    have hmem := List.mem_of_find?_eq_some ht
    refine ⟨hkeyed, forall_setTable h.distinct ((h.distinct t hmem).addColumn hadd),
      forall_setTable h.counted ?_⟩
    obtain ⟨-, rfl⟩ := Table.addColumn_eq_ok.mp hadd
    exact h.counted t hmem

/-- Columns stay. -/
theorem column_lasts (table column : String) : Lasts fun store ↦ store.Column table column := by
  rintro store store' hnext ⟨u, hu, c, hc, hname⟩
  obtain ⟨v, hv, -, hcolumns⟩ := hnext.table? hu
  exact ⟨v, hv, c, hcolumns hc, hname⟩

/-- A property of stores that definitions and statements keep is kept by what databases do. -/
theorem Next.keeps {P : Store → Prop} (hdefinitions : KeptByDefinitions P)
    (hstatements : KeptByStatements P) (h : Next store store') (hstore : P store) : P store' := by
  cases h with
  | @defined s t t' outcome hs hrun =>
    have hkept := hdefinitions.bootstrap hs.wellFormed t hstore
    rw [hrun] at hkept
    cases outcome with
    | error e => exact hkept
    | ok => exact hkept.1
  | @written s batch t t' outcome hs hbatch hrun =>
    have hkept := hstatements.execute hs.wellFormed
      (fun i hi ↦ ((hbatch i hi).shaped hs.wellFormed).plain) t hstore
    rw [hrun] at hkept
    cases outcome with
    | error e => exact hkept
    | ok => exact hkept.1

theorem kept {P : Store → Prop} (hdefinitions : KeptByDefinitions P)
    (hstatements : KeptByStatements P) (h : Relation.ReflTransGen Next store store')
    (hstore : P store) : P store' := by
  induction h with
  | refl => exact hstore
  | tail _ hnext ih => exact hnext.keeps hdefinitions hstatements ih

theorem sound_keptByDefinitions : KeptByDefinitions Sound :=
  fun _ _ _ hplain hstore hdefine ↦ hstore.define hplain hdefine

theorem sound_keptByStatements : KeptByStatements Sound :=
  fun _ _ _ hplain hstore hrun ↦ hstore.run hplain hrun

theorem sound_empty (enforced : Bool) : (Store.empty enforced).Sound :=
  ⟨List.forall_mem_nil _, List.forall_mem_nil _, List.forall_mem_nil _⟩

/-! ### The columns of a schema -/

variable {s : Schema} {e : Entity} {t t' : Session} {u : Table}

/-- The table of an entity is there and has the columns that the entity asks for. -/
structure Covers (store : Store) (e : Entity) : Prop where
  table : (store.table? e.name).isSome
  column : ∀ c ∈ columns e, store.Column e.name c.name

theorem isSome_setTable : ((store.setTable u).table? name).isSome = (store.table? name).isSome := by
  rw [table?_setTable, Option.isSome_map]

theorem covers_lasts (e : Entity) : Lasts fun store ↦ store.Covers e :=
  fun _ _ hnext h ↦ ⟨found_lasts e.name _ _ hnext h.table,
    fun c hc ↦ column_lasts e.name c.name _ _ hnext (h.column c hc)⟩

theorem Covers.run (h : store.Covers e) {statement : Statement} {effect : Effect}
    (hrun : store.run statement = .ok effect) : effect.store.Covers e :=
  covers_lasts e _ _ (.written hrun) h

theorem covers_keptByDefinitions (e : Entity) : KeptByDefinitions fun store ↦ store.Covers e :=
  fun _ _ _ _ hstore hdefine ↦ covers_lasts e _ _ (.defined hdefine) hstore

theorem covers_keptByStatements (e : Entity) : KeptByStatements fun store ↦ store.Covers e :=
  fun _ _ _ _ hstore hrun ↦ hstore.run hrun

/-- No column that an entity asks for is that of the row numbers. -/
theorem Provides.covers (h : store.Provides e) (hs : s.WellFormed) (he : e ∈ s.entities)
    (hkeyed : store.Keyed) :
    store.Covers e := by
  refine ⟨(h.tables _ List.mem_cons_self).found, fun c hc ↦ ?_⟩
  obtain ⟨u, hu, hlisted⟩ := h.lists c hc
  rcases List.mem_append.mp hlisted with hrow | hcolumn
  · have hid := (hkeyed.table? hu).rowColumn
    rw [Option.mem_toList] at hrow
    rw [hrow] at hid
    have hother := (plain_columns hs he c hc).other
    rw [Option.some.inj (hid.resolve_left nofun), Table.sameName_refl] at hother
    cases hother
  · exact ⟨u, hu, List.mem_map.mp hcolumn⟩

theorem bootstrap_covers (hs : s.WellFormed) (hsound : t.store.Sound)
    (hrun : (bootstrap s).run t = (.ok (), t')) :
    ∀ e ∈ s.entities, t'.store.Covers e := by
  have hkeyed := keyed_keptByDefinitions.bootstrap hs t hsound.keyed
  rw [hrun] at hkeyed
  exact fun e he ↦ ((bootstrap_provides hrun).2 e he).covers hs he hkeyed.1

theorem Hosts.sound (h : store.Hosts s) (hs : s.Reachable) : store.Sound := by
  obtain ⟨enforced, t, t', hbefore, hrun, hafter⟩ := h
  refine kept sound_keptByDefinitions sound_keptByStatements (hbefore.trans ?_)
    (sound_empty enforced)
  exact .head (.defined hs hrun) hafter

/-- The columns of a schema stay once its tables have been created. -/
theorem Hosts.covers (h : store.Hosts s) (hs : s.Reachable) : ∀ e ∈ s.entities, store.Covers e := by
  obtain ⟨enforced, t, t', hbefore, hrun, hafter⟩ := h
  have hsound := kept sound_keptByDefinitions sound_keptByStatements hbefore (sound_empty enforced)
  intro e he
  exact kept (covers_keptByDefinitions e) (covers_keptByStatements e) hafter
    (bootstrap_covers hs.wellFormed hsound hrun e he)

/-- Schemas and batches lead on among the stores of databases. -/
theorem Hosts.next (h : store.Hosts s) (hnext : Next store store') : store'.Hosts s := by
  obtain ⟨enforced, t, t', hbefore, hrun, hafter⟩ := h
  exact ⟨enforced, t, t', hbefore, hrun, hafter.tail hnext⟩

end Store

end EntityStore
