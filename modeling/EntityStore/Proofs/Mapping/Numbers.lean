import EntityStore.Proofs.Mapping.Assigning
import EntityStore.Proofs.Mapping.Definitions
import EntityStore.Proofs.Mapping.Growth
import EntityStore.Proofs.Session.Database

/-!
The numbers that committed batches give to rows. A table counts its rows, and a number that it gave
is never given again: neither batches nor changes of the schema lower the count, and a batch that
fails leaves it as it was.
-/

set_option autoImplicit false

namespace EntityStore

open Mapping

/-- The count of a table does not go down. -/
theorem Table.Becomes.last_le {t t' : Table} {statement : Statement} (h : t.Becomes statement t') :
    t.last ≤ t'.last := by
  cases statement with
  | insert named values =>
    obtain ⟨id, hinsert⟩ := h
    obtain ⟨-, -, -, -, rfl⟩ := Table.insert_eq_ok.mp hinsert
    change t.last ≤ if t.rowColumn.isSome then max t.last id else t.last
    split
    · exact Table.le_max_left t.last id
    · exact Int64.le_refl t.last
  | update named sets id =>
    obtain ⟨count, hupdate⟩ := h
    obtain ⟨-, ⟨-, rfl, -⟩ | ⟨old, new, -, -, -, -, rfl, -⟩⟩ := Table.update_eq_ok.mp hupdate
    · exact Int64.le_refl _
    · exact Int64.le_refl _
  | delete named keys =>
    obtain rfl := h
    exact Int64.le_refl t.last

/-- A schema makes plain definitions. -/
theorem Definition.Asked.plain {s : Schema} {d : Definition} (hs : s.WellFormed)
    (hd : d.Asked s) : d.Plain := by
  cases hd with
  | table hspec =>
    obtain ⟨e, he, hspec⟩ := List.mem_flatMap.mp hspec
    rcases List.mem_cons.mp hspec with rfl | hlink
    · exact plain_columns hs he
    · obtain ⟨p, -, hp⟩ := List.mem_filterMap.mp hlink
      exact plain_linkTable hp
  | column he hc => exact ⟨(plain_columns hs he _ hc).other, (plain_columns hs he _ hc).integer⟩

namespace Store

variable {store store' : Store} {entity other name : String} {id n : Int64} {t t' : Table}

/-- The table of an entity counts its rows and has given the numbers up to one. -/
def Gave (store : Store) (entity : String) (id : Int64) : Prop :=
  ∃ t, store.table? entity = some t ∧ t.rowColumn.isSome ∧ id ≤ t.last

/-- Tables that do not count their rows are those of links, where the owner of a link is
required. -/
structure Counts (store : Store) : Prop where
  keyed : store.Keyed
  links : ∀ t ∈ store.tables, t.rowColumn = none →
    ∃ c ∈ t.columns, c.name = ownerColumn ∧ c.required

theorem Gave.congr (h : store.Gave entity id) (hsame : sameName entity other) :
    store.Gave other id := by
  obtain ⟨t, ht, hgave⟩ := h
  refine ⟨t, ?_, hgave⟩
  unfold table? at ht ⊢
  rwa [← funext fun u : Table ↦ sameName_congr hsame u.name]

theorem Gave.setTable (h : store.Gave entity id) (ht : store.table? name = some t)
    (hname : t'.name = t.name) (hcounted : t'.rowColumn = t.rowColumn) (hlast : t.last ≤ t'.last) :
    (store.setTable t').Gave entity id := by
  obtain ⟨u, hu, hsome, hle⟩ := h
  refine ⟨if u.name = t'.name then t' else u, by rw [table?_setTable, hu, Option.map_some], ?_⟩
  split
  · next heq =>
    obtain rfl := table?_of_name ht hu (heq.trans hname)
    exact ⟨hcounted ▸ hsome, Int64.le_trans hle hlast⟩
  · exact ⟨hsome, hle⟩

theorem Gave.run (h : store.Gave entity id) {statement : Statement} {effect : Effect}
    (hrun : store.run statement = .ok effect) : effect.store.Gave entity id := by
  obtain ⟨t, t', ht, hbecomes, hstore⟩ := run_cases hrun
  rw [hstore]
  refine h.setTable ht ?_ ?_ hbecomes.last_le <;> rw [hbecomes.eq_withRows]

theorem Gave.define (h : store.Gave entity id) {d : Definition}
    (hdefine : store.define d = .ok store') :
    store'.Gave entity id := by
  rcases define_cases hdefine with
    ⟨spec, rfl, ⟨-, rfl⟩ | ⟨-, rfl⟩⟩ | ⟨other, c, t, t', rfl, ht, hadd, rfl⟩
  · exact h
  · obtain ⟨u, hu, hgave⟩ := h
    refine ⟨u, ?_, hgave⟩
    unfold table? at hu ⊢
    rw [List.find?_append, hu]
    rfl
  · obtain ⟨-, rfl⟩ := Table.addColumn_eq_ok.mp hadd
    exact h.setTable ht rfl rfl (Int64.le_refl t.last)

theorem Counts.run (h : store.Counts) {statement : Statement} {effect : Effect}
    (hplain : statement.Plain) (hrun : store.run statement = .ok effect) : effect.store.Counts := by
  obtain ⟨t, t', ht, hbecomes, hstore⟩ := run_cases hrun
  refine ⟨h.keyed.run hplain hrun, ?_⟩
  rw [hstore]
  refine forall_setTable h.links ?_
  rw [hbecomes.eq_withRows]
  exact h.links t (List.mem_of_find?_eq_some ht)

theorem Counts.define {s : Schema} (hs : s.WellFormed) (h : store.Counts)
    {d : Definition} (hd : d.Asked s) (hdefine : store.define d = .ok store') : store'.Counts := by
  refine ⟨h.keyed.define (hd.plain hs) hdefine, ?_⟩
  rcases define_cases hdefine with
    ⟨spec, rfl, ⟨-, rfl⟩ | ⟨-, rfl⟩⟩ | ⟨other, c, t, t', rfl, ht, hadd, rfl⟩
  · exact h.links
  · refine List.forall_mem_append.mpr ⟨h.links, List.forall_mem_singleton.mpr fun hnone ↦ ?_⟩
    cases hd with
    | table hspec =>
      obtain ⟨e, -, hspec⟩ := List.mem_flatMap.mp hspec
      rcases List.mem_cons.mp hspec with rfl | hlink
      · cases hnone
      · obtain ⟨p, -, hp⟩ := List.mem_filterMap.mp hlink
        obtain ⟨target, unique, -, rfl⟩ := linkTable_eq_some hp
        exact ⟨_, List.mem_cons_self, rfl, rfl⟩
  · obtain ⟨-, rfl⟩ := Table.addColumn_eq_ok.mp hadd
    refine forall_setTable h.links fun hnone ↦ ?_
    obtain ⟨d, hd, howner⟩ := h.links t (List.mem_of_find?_eq_some ht) hnone
    exact ⟨d, List.mem_append_left _ hd, howner⟩

theorem gave_keptByStatements (entity : String) (id : Int64) :
    KeptByStatements fun store ↦ store.Gave entity id :=
  fun _ _ _ _ hstore hrun ↦ hstore.run hrun

theorem counts_keptByStatements : KeptByStatements Counts :=
  fun _ _ _ hplain hstore hrun ↦ hstore.run hplain hrun

/-- An added row gets a number that its entity was not given before. -/
theorem Counts.insert (h : store.Counts) {values : List (String × Cell)} {effect : Effect}
    (hvalues : ∀ x ∈ values, Settable x) (howner : ∀ x ∈ values, sameName x.1 ownerColumn = false)
    (hrun : store.run (.insert name values) = .ok effect) :
    (∀ n, store.Gave name n → n < effect.row) ∧ effect.store.Gave name effect.row := by
  obtain ⟨t, t', ht, hran⟩ := run_eq_ok hrun
  have ht : store.table? name = some t := ht
  have hmem := List.mem_of_find?_eq_some ht
  obtain @⟨_, _, _, id, hinsert, -⟩ := hran
  have hcounted : t.rowColumn.isSome := by
    by_contra hnone
    obtain ⟨c, hc, hname, hrequired⟩ := h.links t hmem (Option.not_isSome_iff_eq_none.mp hnone)
    obtain ⟨-, -, hcells, -, -⟩ := Table.insert_eq_ok.mp hinsert
    refine Table.checkRequired_eq_ok.mp hcells c hc hrequired (Table.cell_eq_null fun x hx heq ↦ ?_)
    obtain ⟨d, hd, hx⟩ := List.mem_filterMap.mp hx
    obtain ⟨v, hv, rfl⟩ := Option.map_eq_some_iff.mp hx
    obtain ⟨y, hy, hsame, -⟩ := Table.given_eq_some hv
    have hnot := howner y hy
    rw [← hname, ← heq, hsame] at hnot
    cases hnot
  obtain ⟨rfl, -, -, hlast⟩ := (h.keyed t hmem).insert_cases hvalues hinsert
  refine ⟨fun n hgave ↦ ?_, ?_⟩
  · obtain ⟨u, hu, -, hle⟩ := hgave
    obtain rfl := Option.some.inj (ht.symm.trans hu)
    exact Int64.lt_of_le_of_lt hle (hlast hcounted)
  · have htable : (store.setTable (t.withRow (t.newRow values id))).table? name =
        some (t.withRow (t.newRow values id)) := by
      rw [table?_setTable, ht, Option.map_some]
      exact congrArg some (if_pos rfl)
    refine ⟨_, htable, hcounted, ?_⟩
    change id ≤ if t.rowColumn.isSome then max t.last id else t.last
    rw [if_pos hcounted]
    exact Table.le_max_right t.last id

end Store

end EntityStore
