import Mathlib.Data.List.Nodup

/-!
Looking up entries by their names.
-/

set_option autoImplicit false

namespace EntityStore

variable {α β : Type} {l : List (String × α)} {f : String × α → Option (String × β)} {name : String}

/-- Looking up among what keeps its names. -/
theorem lookup_filterMap (hname : ∀ x ∈ l, ∀ y, f x = some y → y.1 = x.1)
    (hsome : ∀ x ∈ l, x.1 = name → (f x).isSome) :
    (l.filterMap f).lookup name = (l.lookup name).bind fun a ↦ (f (name, a)).map Prod.snd := by
  induction l with
  | nil => rfl
  | cons x l ih =>
    obtain ⟨key, a⟩ := x
    obtain ⟨hx, hl⟩ := List.forall_mem_cons.mp hname
    obtain ⟨hfirst, hrest⟩ := List.forall_mem_cons.mp hsome
    have ih := ih hl hrest
    rw [List.lookup_cons]
    by_cases heq : name = key
    · subst heq
      obtain ⟨y, hy⟩ := Option.isSome_iff_exists.mp (hfirst rfl)
      have hkey : y.1 = name := hx y hy
      obtain ⟨key, b⟩ := y
      subst hkey
      simp [hy]
    · rw [beq_eq_false_iff_ne.mpr heq]
      cases hy : f (key, a) with
      | none => rw [List.filterMap_cons_none hy, ih]
      | some y =>
        obtain ⟨other, b⟩ := y
        obtain rfl : other = key := hx _ hy
        rw [List.filterMap_cons_some hy, List.lookup_cons, beq_eq_false_iff_ne.mpr heq, ih]

theorem sublist_filterMap (hname : ∀ x ∈ l, ∀ y, f x = some y → y.1 = x.1) :
    ((l.filterMap f).map Prod.fst).Sublist (l.map Prod.fst) := by
  induction l with
  | nil => exact .slnil
  | cons x l ih =>
    obtain ⟨hx, hl⟩ := List.forall_mem_cons.mp hname
    cases hy : f x with
    | none =>
      rw [List.filterMap_cons_none hy]
      exact (ih hl).cons _
    | some y =>
      rw [List.filterMap_cons_some hy, List.map_cons, List.map_cons, hx y hy]
      exact (ih hl).cons_cons _

theorem lookup_eq_some_iff (h : (l.map Prod.fst).Nodup) {a : α} :
    l.lookup name = some a ↔ (name, a) ∈ l := by
  induction l with
  | nil => simp
  | cons x l ih =>
    obtain ⟨key, b⟩ := x
    obtain ⟨hkey, hl⟩ := List.nodup_cons.mp h
    rw [List.lookup_cons, List.mem_cons]
    by_cases heq : name = key
    · subst heq
      have hnot : (name, a) ∉ l := fun hmem ↦ hkey (List.mem_map.mpr ⟨_, hmem, rfl⟩)
      simp [hnot, eq_comm]
    · rw [beq_eq_false_iff_ne.mpr heq, ih hl]
      simp [heq]

theorem lookup_reverse (h : (l.map Prod.fst).Nodup) (name : String) :
    l.reverse.lookup name = l.lookup name := by
  ext a
  rw [lookup_eq_some_iff (by rwa [List.map_reverse, List.nodup_reverse]),
    lookup_eq_some_iff h, List.mem_reverse]

theorem mem_of_lookup {κ : Type} [BEq κ] [LawfulBEq κ] {l : List (κ × α)} {key : κ} {a : α}
    (h : l.lookup key = some a) :
    (key, a) ∈ l := by
  obtain ⟨before, after, rfl, -⟩ := List.lookup_eq_some_iff.mp h
  exact List.mem_append_right _ List.mem_cons_self

end EntityStore
