import EntityStore.Proofs.Mapping.Batches

/-!
A new store of a schema: it has the tables that the schema asks for, and they are empty.
-/

set_option autoImplicit false

namespace EntityStore

open Mapping

theorem Run.run_define_ok {d : Definition} {s s' : Session} (h : (define d).run s = (.ok (), s')) :
    s.store.define d = .ok s'.store := by
  rw [run_define] at h
  cases hdefine : s.store.define d with
  | error e =>
    rw [hdefine] at h
    cases h
  | ok store =>
    rw [hdefine] at h
    cases h
    rfl

namespace TableSpec

variable {spec : TableSpec}

/-- In a table that can be created no name of a column repeats another. -/
theorem names_distinct (h : spec.duplicate? = none) :
    ((if spec.counted then [Store.rowName] else []) ++ spec.columns.map ColumnSpec.name).Pairwise
      fun a b ↦ sameName a b = false := by
  unfold duplicate? at h
  dsimp only at h
  generalize (if spec.counted then [Store.rowName] else []) ++
    spec.columns.map ColumnSpec.name = names at h ⊢
  rw [Option.map_eq_none_iff, List.find?_eq_none] at h
  refine List.pairwise_iff_getElem.mpr fun i j hi hj hij ↦ ?_
  have hnone := h (names[j], j) (List.mk_mem_zipIdx_iff_getElem?.mpr (List.getElem?_eq_getElem hj))
  rw [List.any_eq_true] at hnone
  have hmem : names[i] ∈ names.take j := List.mem_take_iff_getElem.mpr ⟨i, by omega, rfl⟩
  exact Bool.eq_false_iff.mpr fun hsame ↦ hnone ⟨_, hmem, hsame⟩

theorem columns_distinct (h : spec.duplicate? = none) : Table.Distinct spec.table.columns := by
  have hnames := (List.pairwise_append.mp (names_distinct h)).2.1
  exact List.pairwise_map.mpr (List.pairwise_map.mp hnames)

end TableSpec

namespace Store

variable {store store' : Store} {specs : List TableSpec} {spec : TableSpec}

/-- The tables of a new store. -/
structure New (specs : List TableSpec) (store : Store) : Prop where
  tables : store.tables = specs.map TableSpec.table
  columns : ∀ spec ∈ specs, Table.Distinct spec.table.columns

theorem New.createTable (h : store.New specs)
    (hother : ∀ other ∈ specs, sameName other.name spec.name = false)
    (hdefine : store.define (.createTable spec) = .ok store') : store'.New (specs ++ [spec]) := by
  unfold define at hdefine
  have hnone : store.table? spec.name = none := by
    unfold table?
    rw [h.tables, List.find?_eq_none]
    intro t ht
    obtain ⟨other, hmem, rfl⟩ := List.mem_map.mp ht
    exact Bool.eq_false_iff.mp (hother other hmem)
  dsimp only at hdefine
  split at hdefine
  · cases hdefine
  · rw [hnone, Option.isSome_none, if_neg Bool.false_ne_true] at hdefine
    split at hdefine
    · cases hdefine
    · next hduplicate =>
      cases hdefine
      refine ⟨by simp [h.tables], fun other hmem ↦ ?_⟩
      rcases List.mem_append.mp hmem with hmem | hmem
      · exact h.columns other hmem
      · rw [List.mem_singleton.mp hmem]
        exact TableSpec.columns_distinct hduplicate

theorem New.shapes (h : store.New specs) : List.Forall₂ TableSpec.Shapes specs store.tables := by
  rw [h.tables, List.forall₂_map_right_iff, List.forall₂_same]
  exact fun spec _ ↦ spec.shapes_table

end Store

namespace Mapping

variable {s : Schema} {e : Entity} {t t' : Session} {specs : List TableSpec}

/-- The table of an entity lacks none of its columns. -/
theorem missingColumns_eq_nil {table : Table} (h : (entityTable e).Shapes table) :
    missingColumns e table.columnNames = [] := by
  unfold missingColumns
  rw [List.map_eq_nil_iff, List.filter_eq_nil_iff]
  intro c hc
  have hmem : c.name ∈ table.columnNames := by
    refine List.mem_append_right _ (List.mem_map.mpr ⟨c.column, ?_, rfl⟩)
    rw [h.columns_eq]
    exact List.mem_map_of_mem hc
  simp [hmem]

theorem defineEntity_ok (h : t.store.New specs)
    (hdistinct : (specs ++ entityTable e :: e.properties.filterMap (linkTable e.name)).Pairwise
      fun a b ↦ sameName a.name b.name = false) (hrun : (defineEntity e).run t = (.ok (), t')) :
    t'.store.New (specs ++ entityTable e :: e.properties.filterMap (linkTable e.name)) := by
  have hother {before after : List TableSpec} {spec : TableSpec}
      (hsplit : specs ++ entityTable e :: e.properties.filterMap (linkTable e.name) =
        before ++ spec :: after) :
      ∀ other ∈ before, sameName other.name spec.name = false := by
    rw [hsplit] at hdistinct
    exact fun other hmem ↦ (List.pairwise_append.mp hdistinct).2.2 other hmem
      spec List.mem_cons_self
  obtain ⟨⟨⟩, u, htable, hrest⟩ := Run.run_bind_ok.mp hrun
  have hu := h.createTable (hother rfl) (Run.run_define_ok htable)
  obtain ⟨u', u₁, hget, hrest₁⟩ := Run.run_bind_ok.mp hrest
  obtain ⟨rfl, rfl⟩ := Run.run_get_ok hget
  dsimp only at hrest₁
  obtain ⟨table, hfound, hshapes⟩ := Store.find?_of_forall₂ hu.shapes
    (List.pairwise_append.mp (by simpa using hdistinct)).1 (show entityTable e ∈ specs ++
      [entityTable e] by simp)
  have hexisting : ((u₁.store.table? e.name).map Table.columnNames).getD [] =
      table.columnNames := by
    rw [show u₁.store.table? e.name = some table from hfound]
    rfl
  rw [hexisting, missingColumns_eq_nil hshapes] at hrest₁
  obtain ⟨⟨⟩, u₂, hnone, hloop⟩ := Run.run_bind_ok.mp hrest₁
  obtain ⟨-, rfl⟩ := Run.run_pure_ok.mp hnone
  refine Run.run_forM_ok (P :=
    fun done v ↦ v.store.New (specs ++ entityTable e :: done)) hloop hu ?_
  intro before spec after v v' hsplit hv hdefine
  have hbefore : specs ++ entityTable e :: e.properties.filterMap (linkTable e.name) =
      (specs ++ entityTable e :: before) ++ spec :: after := by simp [hsplit]
  simpa using hv.createTable (hother hbefore) (Run.run_define_ok hdefine)

/-- A new store has the tables of its schema. -/
theorem bootstrap_ok (hdistinct : s.Distinct) (hnew : t.store.tables = [])
    (hrun : (bootstrap s).run t = (.ok (), t')) :
    t'.store.New s.tables := by
  unfold bootstrap at hrun
  rw [Run.run_atomically] at hrun
  split at hrun
  · next u hall =>
    cases hrun
    refine Run.run_forM_ok (P := fun done v ↦ v.store.New
      (done.flatMap fun e ↦ entityTable e :: e.properties.filterMap (linkTable e.name)))
        hall ⟨hnew, nofun⟩ ?_
    intro before e after v v' hsplit hv hdefine
    rw [List.flatMap_append, List.flatMap_singleton]
    refine defineEntity_ok hv ?_ hdefine
    unfold Schema.Distinct Schema.tables at hdistinct
    rw [hsplit, List.flatMap_append, List.flatMap_cons, ← List.append_assoc] at hdistinct
    exact (List.pairwise_append.mp hdistinct).1
  · cases hrun

end Mapping

/-- No rows and no links. -/
def Content.empty : Content where
  row _ _ := none
  links _ _ _ := []

theorem Content.given_empty : Content.empty.Given [] fun _ ↦ 0 where
  row _ _ := nofun
  links _ _ _ := absurd rfl
  top _ _ := nofun

/-- A new store is empty. -/
theorem Store.New.shows {s : Schema} (hs : s.WellFormed) (hdistinct : s.Distinct) {store : Store}
    (h : store.New s.tables) (hkeyed : store.Keyed) : store.Shows s .empty fun _ ↦ 0 := by
  have hshaped : store.Shaped s := ⟨hdistinct, h.shapes, h.columns, hkeyed⟩
  have hempty {name : String} {t : Table} (ht : store.table? name = some t) :
      t.rows = [] ∧ t.last = 0 := by
    have hmem : t ∈ store.tables := List.mem_of_find?_eq_some ht
    rw [h.tables] at hmem
    obtain ⟨spec, -, rfl⟩ := List.mem_map.mp hmem
    exact ⟨rfl, rfl⟩
  refine ⟨hshaped,
    Store.content_ext hs (fun d hd id ↦ ?_) (fun d hd p hp hlinked owner ↦ ?_) (fun _ _ _ ↦ rfl)
    fun _ _ _ _ ↦ rfl, fun d hd ↦ ?_⟩
  · obtain ⟨t, ht, -⟩ := hshaped.entityTable? hd
    rw [Store.content_row hs hd ht, Table.row?, (hempty ht).1]
    rfl
  · obtain ⟨-, t, -, -, ht, -⟩ := hshaped.linkTable? hd hp hlinked
    rw [Store.content_links hs hd hp hlinked ht, Table.targets, (hempty ht).1]
    rfl
  · obtain ⟨t, ht, -⟩ := hshaped.entityTable? hd
    unfold Store.top
    rw [ht]
    exact (hempty ht).2

end EntityStore
