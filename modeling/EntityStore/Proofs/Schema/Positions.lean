import EntityStore.Schema.Positions

/-!
An index stays exact when an item is added, changed under its name or taken out. A look-up through
an exact index finds the one item of a name.
-/

set_option autoImplicit false

namespace EntityStore

namespace Positions

theorem lookup_cons_eq (m : String) (i : Nat) (ps : Positions) (n : String) :
    List.lookup n ((m, i) :: ps) = if n = m then some i else ps.lookup n := by
  by_cases hn : n = m
  · simp [hn]
  · have hbeq : (n == m) = false := beq_eq_false_iff_ne.mpr hn
    simp [List.lookup_cons, hbeq, hn]

theorem lookup_erase (ps : Positions) (name n : String) :
    (ps.erase name).lookup n = if n = name then none else ps.lookup n := by
  induction ps with
  | nil => simp [erase]
  | cons p ps ih =>
    obtain ⟨m, i⟩ := p
    simp only [erase] at ih
    by_cases hm : m = name
    · subst hm
      simp only [erase, bne_self_eq_false, Bool.false_eq_true, not_false_eq_true,
        List.filter_cons_of_neg, ih, lookup_cons_eq]
      by_cases hn : n = m <;> simp [hn]
    · by_cases hn : n = m
      · simp [erase, hm, hn]
      · simp [erase, ih, hm, hn, lookup_cons_eq]

theorem lookup_insert (ps : Positions) (name : String) (i : Nat) (n : String) :
    (ps.insert name i).lookup n = if n = name then some i else ps.lookup n := by
  by_cases hn : n = name <;> simp [insert, lookup_cons_eq, lookup_erase, hn]

theorem lookup_close (ps : Positions) (i : Nat) (n : String) :
    (ps.close i).lookup n = (ps.lookup n).map fun j ↦ if i < j then j - 1 else j := by
  induction ps with
  | nil => simp [close]
  | cons p ps ih =>
    obtain ⟨m, j⟩ := p
    simp only [close] at ih
    by_cases hn : n = m <;> simp [close, lookup_cons_eq, hn, ih]

end Positions

namespace Indexed

variable {α : Type} {name : α → String} {items : List α} {ps : Positions}

theorem nil (name : α → String) : Indexed name [] [] := by
  constructor <;> simp

/-- Through an exact index one finds the item of a name. -/
theorem bind_lookup_eq_some_iff (h : Indexed name items ps) {n : String} {a : α} :
    ((ps.lookup n).bind fun i ↦ items[i]?) = some a ↔ a ∈ items ∧ name a = n := by
  simp only [Option.bind_eq_some_iff, h.lookup, Option.map_eq_some_iff]
  constructor
  · rintro ⟨i, ⟨b, hb, hname⟩, ha⟩
    obtain rfl : b = a := Option.some.inj (hb.symm.trans ha)
    exact ⟨List.mem_of_getElem? ha, hname⟩
  · rintro ⟨ha, hname⟩
    obtain ⟨i, hi⟩ := List.mem_iff_getElem?.mp ha
    exact ⟨i, ⟨a, hi, hname⟩, hi⟩

theorem lookup_eq_none_iff (h : Indexed name items ps) {n : String} :
    ps.lookup n = none ↔ ∀ a ∈ items, name a ≠ n := by
  rw [Option.eq_none_iff_forall_ne_some]
  constructor
  · intro hnone a ha hname
    obtain ⟨i, hi⟩ := List.mem_iff_getElem?.mp ha
    exact hnone i ((h.lookup n i).mpr (by simp [hi, hname]))
  · intro hall i hi
    obtain ⟨a, ha, hname⟩ := Option.map_eq_some_iff.mp ((h.lookup n i).mp hi)
    exact hall a (List.mem_of_getElem? ha) hname

theorem bind_lookup_eq_none_iff (h : Indexed name items ps) {n : String} :
    ((ps.lookup n).bind fun i ↦ items[i]?) = none ↔ ∀ a ∈ items, name a ≠ n := by
  simp only [Option.eq_none_iff_forall_ne_some, ne_eq, h.bind_lookup_eq_some_iff, not_and]

theorem eq_of_name_eq (h : Indexed name items ps) {a b : α} (ha : a ∈ items) (hb : b ∈ items)
    (hname : name a = name b) : a = b := by
  have hfound := h.bind_lookup_eq_some_iff.mpr ⟨ha, hname⟩
  exact Option.some.inj (hfound.symm.trans (h.bind_lookup_eq_some_iff.mpr ⟨hb, rfl⟩))

theorem push (h : Indexed name items ps) (b : α) (hnew : ∀ a ∈ items, name a ≠ name b) :
    Indexed name (items ++ [b]) (ps.insert (name b) items.length) := by
  refine ⟨?_, fun n i ↦ ?_⟩
  · rw [List.map_append, List.nodup_append]
    refine ⟨h.nodup, by simp, fun n hn m hm ↦ ?_⟩
    obtain ⟨a, ha, rfl⟩ := List.mem_map.mp hn
    obtain rfl : m = name b := by simpa using hm
    exact hnew a ha
  · rw [Positions.lookup_insert]
    by_cases hn : n = name b
    · subst hn
      simp only [↓reduceIte, Option.some.injEq]
      constructor
      · rintro rfl
        simp
      · intro hi
        obtain ⟨a, ha, hname⟩ := Option.map_eq_some_iff.mp hi
        rw [List.getElem?_append] at ha
        split at ha
        · exact absurd hname (hnew a (List.mem_of_getElem? ha))
        · have hlt := (List.getElem?_eq_some_iff.mp ha).1
          simp only [List.length_singleton] at hlt
          omega
    · simp only [hn, ↓reduceIte, h.lookup, List.getElem?_append]
      split
      · rfl
      · next hle =>
        have hnone : items[i]? = none := List.getElem?_eq_none (by omega)
        cases hi : [b][i - items.length]? with
        | none => simp [hnone]
        | some c =>
          obtain rfl : c = b := by simpa using List.mem_of_getElem? hi
          simp [hnone, Ne.symm hn]

/-- Items change in place as long as they keep their names. -/
theorem map (h : Indexed name items ps) (f : α → α) (hf : ∀ a ∈ items, name (f a) = name a) :
    Indexed name (items.map f) ps := by
  refine ⟨?_, fun n i ↦ ?_⟩
  · rw [List.map_map, List.map_congr_left (g := name) (by simpa using hf)]
    exact h.nodup
  · rw [h.lookup, List.getElem?_map, Option.map_map]
    cases hi : items[i]? with
    | none => rfl
    | some a => simp [hf a (List.mem_of_getElem? hi)]

/-- The item of a name is changed where the index says it stands. -/
theorem modify_eq_map (h : Indexed name items ps) {n : String} {i : Nat} (hi : ps.lookup n = some i)
    (f : α → α) : items.modify i f = items.map fun a ↦ if name a = n then f a else a := by
  refine List.ext_getElem? fun j ↦ ?_
  rw [List.getElem?_modify, List.getElem?_map]
  cases hj : items[j]? with
  | none => rfl
  | some a =>
    have hiff : i = j ↔ name a = n := by
      rw [← Option.some.injEq, ← hi, h.lookup, hj]
      simp
    by_cases hij : i = j <;> simp [hij, ← hiff]

/-- Taking an item out leaves the others in their order. -/
theorem eraseIdx_eq_filter (h : Indexed name items ps) {n : String} {i : Nat}
    (hi : ps.lookup n = some i) : items.eraseIdx i = items.filter fun a ↦ name a != n := by
  obtain ⟨a, ha, hname⟩ := Option.map_eq_some_iff.mp ((h.lookup n i).mp hi)
  obtain ⟨hlt, rfl⟩ := List.getElem?_eq_some_iff.mp ha
  have hsplit : items = items.take i ++ items[i] :: items.drop (i + 1) := by simp
  have hnodup := h.nodup
  rw [hsplit, List.map_append, List.map_cons, List.nodup_append] at hnodup
  have hbefore : (items.take i).filter (fun a ↦ name a != n) = items.take i := by
    refine List.filter_eq_self.mpr fun b hb ↦ ?_
    have hne := hnodup.2.2 (name b) (List.mem_map_of_mem hb) (name items[i]) (by simp)
    simpa [← hname] using hne
  have hafter : (items.drop (i + 1)).filter (fun a ↦ name a != n) = items.drop (i + 1) := by
    refine List.filter_eq_self.mpr fun b hb ↦ ?_
    have hne := (List.nodup_cons.mp hnodup.2.1).1
    rw [bne_iff_ne]
    intro heq
    exact hne (by rw [hname, ← heq]; exact List.mem_map_of_mem hb)
  conv =>
    rhs
    rw [hsplit, List.filter_append, List.filter_cons_of_neg (by simp [hname]), hbefore, hafter]
  exact List.eraseIdx_eq_take_drop_succ items i

theorem take (h : Indexed name items ps) {n : String} {i : Nat} (hi : ps.lookup n = some i) :
    Indexed name (items.eraseIdx i) ((ps.erase n).close i) := by
  refine ⟨?_, fun m j ↦ ?_⟩
  · exact h.nodup.sublist ((List.eraseIdx_sublist items i).map name)
  · rw [Positions.lookup_close, Positions.lookup_erase, List.getElem?_eraseIdx,
      Option.map_eq_some_iff]
    have hi' := (h.lookup n i).mp hi
    by_cases hm : m = n
    · subst hm
      simp only [↓reduceIte, reduceCtorEq, false_and, exists_false, false_iff]
      -- the name would stand at a second place
      intro hj
      split at hj
      · have := (h.lookup m j).mpr hj
        rw [hi] at this
        cases this
        omega
      · have := (h.lookup m (j + 1)).mpr hj
        rw [hi] at this
        cases this
        omega
    · simp only [hm, ↓reduceIte]
      constructor
      · rintro ⟨k, hk, rfl⟩
        have hk' := (h.lookup m k).mp hk
        have hne : k ≠ i := by
          rintro rfl
          exact hm (Option.some.inj (hk'.symm.trans hi'))
        by_cases hik : i < k
        · simp only [hik, ↓reduceIte]
          rw [if_neg (by omega), Nat.sub_add_cancel (by omega)]
          exact hk'
        · simp only [hik, ↓reduceIte]
          rw [if_pos (by omega)]
          exact hk'
      · intro hj
        split at hj
        · next hlt => exact ⟨j, (h.lookup m j).mpr hj, by simp [Nat.not_lt.mpr (Nat.le_of_lt hlt)]⟩
        · exact ⟨j + 1, (h.lookup m (j + 1)).mpr hj, by rw [if_pos (by omega)]; omega⟩

end Indexed

end EntityStore
