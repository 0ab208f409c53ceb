import EntityStore.Proofs.Lookup
import EntityStore.Proofs.Query.Bound

/-!
No level of a compiled query selects a field twice: a field that is named again, and one that `*`
would add again, keeps the place it has.
-/

set_option autoImplicit false

namespace EntityStore.Query

open EntityStore.Language (Item)

/-- The fields that a level selects have different names. -/
def Level.Distinct (level : Level) : Prop :=
  (level.fields.map SelectedField.name).Nodup

variable {s : Schema} {e : Entity}

/-- The declared fields of an entity have different names. -/
theorem nodup_userFields (he : e.WellFormed) : (e.userFields.map Prod.fst).Nodup := by
  have hfields : (e.fields.map Prod.fst).Sublist (e.properties.map Property.name) := by
    have hsub := sublist_filterMap (l := e.properties.map fun p ↦ (p.name, p))
      (f := fun x ↦ x.2.field?.map (x.1, ·)) fun x _ y hy ↦ by
        obtain ⟨f, -, rfl⟩ := Option.map_eq_some_iff.mp hy
        rfl
    rw [List.filterMap_map, List.map_map] at hsub
    exact hsub
  exact ((List.filter_sublist.map Prod.fst).trans hfields).nodup he.indexed.nodup

namespace Selection

/-- The fields selected so far have different names, and so have those of every level below. -/
structure Distinct (sel : Selection) : Prop where
  fields : (sel.fields.map SelectedField.name).Nodup
  below : ∀ r t, (r, t) ∈ sel.relations → ∀ u ∈ t.nodes, u.level.Distinct

variable {sel : Selection}

theorem hasField_iff {name : String} :
    sel.hasField name ↔ name ∈ sel.fields.map SelectedField.name := by
  simp [hasField]

theorem Distinct.start : Selection.start.Distinct :=
  ⟨List.nodup_singleton _, nofun⟩

theorem Distinct.addField (h : sel.Distinct) (f : SelectedField) : (sel.addField f).Distinct := by
  unfold Selection.addField
  split
  · -- only the sorting of the field changes
    refine ⟨?_, h.below⟩
    have hsame : SelectedField.name ∘ (fun g : SelectedField ↦ if g.name = f.name then
        { g with sort := f.sort.or g.sort } else g) = SelectedField.name := by
      funext g
      dsimp only [Function.comp_apply]
      split <;> rfl
    rw [List.map_map, hsame]
    exact h.fields
  · next hnew =>
    refine ⟨?_, h.below⟩
    rw [List.map_append, List.map_singleton]
    refine h.fields.append (List.nodup_singleton _) (List.disjoint_singleton.mpr fun hmem ↦ ?_)
    exact hnew (hasField_iff.mpr hmem)

theorem selectAll_names : (selectAll e sel).result.fields.map SelectedField.name =
    sel.fields.map SelectedField.name ++
      (e.userFields.filter fun x ↦ !sel.hasField x.1).map Prod.fst := by
  unfold selectAll
  rw [List.map_append, List.map_map]
  rfl

theorem Distinct.selectAll (he : e.WellFormed) (h : sel.Distinct) :
    (selectAll e sel).result.Distinct := by
  refine ⟨?_, h.below⟩
  rw [selectAll_names]
  refine h.fields.append ((List.filter_sublist.map Prod.fst).nodup (nodup_userFields he))
    fun name hold hnew ↦ ?_
  obtain ⟨x, hx, rfl⟩ := List.mem_map.mp hnew
  have hfree := (List.mem_filter.mp hx).2
  rw [hasField_iff.mpr hold] at hfree
  contradiction

theorem Distinct.selectField (h : sel.Distinct) (name : String)
    (sort : Option (Direction × Int64)) :
    (selectField e sel name sort).result.Distinct := by
  unfold Query.selectField
  split
  · exact h
  · split
    · exact h
    · next f _ =>
      have hadd := h.addField ⟨name, f.type, (sorting e name sel.ranks sort).result⟩
      exact ⟨hadd.fields, hadd.below⟩

theorem Distinct.tree (h : sel.Distinct) (level : Level) :
    ∀ u ∈ (sel.tree level).nodes, u.level.Distinct := by
  intro u hu
  obtain rfl | ⟨r, t, hmem, hu⟩ := Tree.mem_nodes.mp hu
  · exact h.fields
  · exact h.below r t hmem u hu

theorem Distinct.addRelation (h : sel.Distinct) (r : Relation) {t : Tree}
    (ht : ∀ u ∈ t.nodes, u.level.Distinct) :
    (sel.addRelation r t).Distinct := by
  refine ⟨h.fields, fun r' u hu ↦ ?_⟩
  rcases List.mem_append.mp hu with hu | hu
  · exact h.below r' u hu
  · cases List.mem_singleton.mp hu
    exact ht

end Selection

mutual

theorem selectItem_distinct (h : s.WellFormed) {e : Entity} (he : e ∈ s.entities) {sel : Selection}
    (hsel : sel.Distinct) (i : Item Value Int64) : (selectItem s e sel i).result.Distinct := by
  cases i with
  | all => exact hsel.selectAll (h.entity e he)
  | field name sort => exact hsel.selectField name sort
  | relation name x limit page inner =>
    unfold selectItem
    simp only [Noted.bind_result]
    split
    · exact hsel
    · next r child hrelated =>
      obtain ⟨hchild, -⟩ := related_result h he hrelated
      exact hsel.addRelation r ((selectItems_distinct h hchild .start inner).tree _)

theorem selectItems_distinct (h : s.WellFormed) {e : Entity} (he : e ∈ s.entities) {sel : Selection}
    (hsel : sel.Distinct) (is : List (Item Value Int64)) :
    (selectItems s e sel is).result.Distinct := by
  cases is with
  | nil => exact hsel
  | cons i is =>
    unfold selectItems
    exact selectItems_distinct h he (selectItem_distinct h he hsel i) is

end

/-- At every level of a compiled query the selected fields have different names. -/
theorem compileQuery_distinct (h : s.WellFormed)
    {form : Language.QueryForm Value Int64} {q : Compiled} (hq : s.compileQuery form = .ok q) :
    ∀ u ∈ q.tree.nodes, u.level.Distinct := by
  obtain ⟨e, he, -, rfl⟩ := compileQuery_ok_iff.mp hq
  obtain ⟨hmem, -⟩ := (Schema.get?_eq_some_iff h).mp he
  exact (selectItems_distinct h hmem .start form.body.items).tree _

end EntityStore.Query
