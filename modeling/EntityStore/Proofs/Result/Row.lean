import EntityStore.Result.Row

/-!
Nested rows change at a path only: what a change leaves under every name, changes at the same path
one after the other, and the rows that a path leads to.
-/

set_option autoImplicit false

namespace EntityStore

/-- Changes a related row and leaves everything else as it is. -/
def Data.mapOne (f : Row → Row) : Data → Data
  | .one row => .one (f row)
  | d => d

/-- Changes a list of related rows and leaves everything else as it is. -/
def Data.mapMany (f : List Row → List Row) : Data → Data
  | .many rows => .many (f rows)
  | d => d

namespace Row

variable {name other : String} {f g : Row → Row} {row inner : Row} {path : List String}

@[simp] theorem get?_nil (name : String) : get? [] name = none := rfl

theorem get?_cons (n : String) (d : Data) (row : Row) (name : String) :
    get? ((n, d) :: row) name = if n = name then some d else row.get? name := by
  by_cases h : n = name
  · simp [get?, h]
  · have hne : (name == n) = false := beq_eq_false_iff_ne.mpr (Ne.symm h)
    simp [get?, List.lookup_cons, hne, h]

theorem get?_append (a b : Row) (name : String) :
    get? (a ++ b) name = (a.get? name).or (b.get? name) := by
  induction a with
  | nil => rfl
  | cons x a ih =>
    rw [List.cons_append, get?_cons, get?_cons, ih]
    split <;> rfl

theorem get?_modify (f : Data → Data) (row : Row) :
    (row.modify name f).get? other = if name = other then (row.get? name).map f else
      row.get? other := by
  induction row with
  | nil => simp [modify]
  | cons x row ih =>
    obtain ⟨n, d⟩ := x
    unfold modify
    by_cases hn : n = name
    · subst hn
      rw [if_pos rfl, get?_cons, get?_cons, get?_cons]
      split <;> simp
    · rw [if_neg hn, get?_cons, ih, get?_cons, get?_cons, if_neg hn]
      by_cases hother : name = other
      · subst hother
        simp [hn]
      · simp [hother]

theorem modify_modify (f g : Data → Data) (row : Row) :
    (row.modify name f).modify name g = row.modify name (g ∘ f) := by
  induction row with
  | nil => rfl
  | cons x row ih =>
    obtain ⟨n, d⟩ := x
    by_cases hn : n = name <;> simp [modify, hn, ih]

/-- Only what stands first under the name matters to a change. -/
theorem modify_congr {f g : Data → Data} (h : ∀ d, row.get? name = some d → f d = g d) :
    row.modify name f = row.modify name g := by
  induction row with
  | nil => rfl
  | cons x row ih =>
    obtain ⟨n, d⟩ := x
    unfold modify
    by_cases hn : n = name
    · rw [if_pos hn, if_pos hn, h d (by rw [get?_cons, if_pos hn])]
    · rw [if_neg hn, if_neg hn, ih fun d hd ↦ h d (by rwa [get?_cons, if_neg hn])]

theorem modify_id (row : Row) : row.modify name id = row := by
  induction row with
  | nil => rfl
  | cons x row ih =>
    obtain ⟨n, d⟩ := x
    by_cases hn : n = name <;> simp [modify, hn, ih]

theorem modify_eq_self {f : Data → Data} (h : row.get? name = none) : row.modify name f = row := by
  refine (modify_congr fun d hd ↦ ?_).trans (modify_id row)
  rw [h] at hd
  cases hd

theorem modify_append {f : Data → Data} {before : Row} (h : before.get? name = none) (row : Row) :
    modify name f (before ++ row) = before ++ row.modify name f := by
  induction before with
  | nil => rfl
  | cons x before ih =>
    obtain ⟨n, d⟩ := x
    rw [get?_cons] at h
    split at h
    · cases h
    · next hn => rw [List.cons_append, modify, if_neg hn, ih h, List.cons_append]

theorem set_append {before : Row} (h : before.get? name = none) (old d : Data) (row : Row) :
    set (before ++ (name, old) :: row) name d = before ++ (name, d) :: row := by
  have hsome : (get? (before ++ (name, old) :: row) name).isSome := by
    rw [get?_append, h, get?_cons, if_pos rfl]
    rfl
  rw [set, if_pos hsome, modify_append h, modify, if_pos rfl]

theorem id?_append {before : Row} {n : Int64} (h : before.id? = some n) (row : Row) :
    id? (before ++ row) = some n := by
  rw [← h]
  unfold id? at h ⊢
  rw [get?_append]
  cases hget : before.get? idName with
  | none =>
    rw [hget] at h
    cases h
  | some d => rfl

/-- What stands under a name after it was set. -/
theorem get?_set (d : Data) (row : Row) :
    (row.set name d).get? other = if name = other then some d else row.get? other := by
  unfold set
  split
  · next h =>
    rw [get?_modify]
    obtain ⟨old, hold⟩ := Option.isSome_iff_exists.mp h
    rw [hold]
    rfl
  · next h =>
    have hnone : row.get? name = none := by simpa using h
    rw [get?_append, get?_cons, get?_nil]
    by_cases hname : name = other
    · subst hname
      simp [hnone]
    · simp [hname]

/-! ### Changes under different names -/

theorem modify_comm (hname : name ≠ other) (f g : Data → Data) (row : Row) :
    (row.modify name f).modify other g = (row.modify other g).modify name f := by
  induction row with
  | nil => rfl
  | cons x row ih =>
    obtain ⟨n, d⟩ := x
    by_cases hn : n = name
    · have hother : ¬n = other := fun heq ↦ hname (hn.symm.trans heq)
      simp [modify, hn, hname]
    · by_cases hother : n = other
      · simp [modify, hother, Ne.symm hname]
      · simp [modify, hn, hother, ih]

theorem modify_snoc (hname : name ≠ other) (f : Data → Data) (d : Data) (row : Row) :
    modify other f (row ++ [(name, d)]) = row.modify other f ++ [(name, d)] := by
  induction row with
  | nil => simp [modify, hname]
  | cons x row ih =>
    obtain ⟨n, e⟩ := x
    by_cases hother : n = other <;> simp [modify, hother, ih]

theorem set_modify_comm (hname : name ≠ other) (d : Data) (f : Data → Data) (row : Row) :
    (row.modify other f).set name d = (row.set name d).modify other f := by
  unfold set
  rw [get?_modify, if_neg (Ne.symm hname)]
  split
  · exact (modify_comm hname _ f row).symm
  · exact (modify_snoc hname f d row).symm

/-- Setting and then changing what stands under a name. -/
theorem set_modify (d : Data) (f : Data → Data) (row : Row) :
    (row.set name d).modify name f = row.set name (f d) := by
  unfold set
  split
  · exact modify_modify _ _ row
  · next hnone =>
    have hnone : row.get? name = none := by simpa using hnone
    rw [modify_append hnone, modify, if_pos rfl]

/-! ### Paths -/

theorem one?_eq_some : row.one? name = some inner ↔ row.get? name = some (.one inner) := by
  unfold one?
  split
  · next r hr => simp [hr]
  · next hne =>
    refine iff_of_false nofun fun h ↦ hne inner h

theorem modifyAt_cons (f : Row → Row) (name : String) (path : List String) (row : Row) :
    modifyAt f (name :: path) row = row.modify name (Data.mapOne (modifyAt f path)) := by
  rw [modifyAt]
  congr 1

theorem mapOne_comp (f g : Row → Row) : Data.mapOne g ∘ Data.mapOne f = Data.mapOne (g ∘ f) := by
  funext d
  cases d <;> rfl

/-- A change one step further along a path is a change at the path. -/
theorem modifyAt_append (f : Row → Row) (path : List String) (name : String) (row : Row) :
    modifyAt f (path ++ [name]) row = modifyAt
      (fun r ↦ r.modify name (Data.mapOne f)) path row := by
  induction path generalizing row with
  | nil => exact modifyAt_cons f name [] row
  | cons n path ih =>
    rw [List.cons_append, modifyAt_cons, modifyAt_cons]
    congr 2
    exact funext ih

theorem modifyAt_modifyAt (f g : Row → Row) (path : List String) (row : Row) :
    modifyAt g path (modifyAt f path row) = modifyAt (g ∘ f) path row := by
  induction path generalizing row with
  | nil => rfl
  | cons n path ih =>
    rw [modifyAt_cons, modifyAt_cons, modifyAt_cons, modify_modify, mapOne_comp]
    congr 2
    exact funext ih

theorem at?_cons_eq_some : row.at? (name :: path) = some inner ↔
    ∃ next, row.one? name = some next ∧ next.at? path = some inner :=
  Option.bind_eq_some_iff

/-- Only the row at a path matters to a change there. -/
theorem modifyAt_congr (h : ∀ inner, row.at? path = some inner → f inner = g inner) :
    modifyAt f path row = modifyAt g path row := by
  induction path generalizing row with
  | nil => exact h row rfl
  | cons n path ih =>
    rw [modifyAt_cons, modifyAt_cons]
    refine modify_congr fun d hd ↦ ?_
    cases d with
    | one next =>
      have hnext : row.one? n = some next := one?_eq_some.mpr hd
      exact congrArg Data.one
        (ih fun inner hinner ↦ h inner (at?_cons_eq_some.mpr ⟨next, hnext, hinner⟩))
    | value v => rfl
    | many rows => rfl

theorem modifyAt_id (path : List String) (row : Row) : modifyAt id path row = row := by
  induction path generalizing row with
  | nil => rfl
  | cons n path ih =>
    have hid : Data.mapOne (modifyAt id path) = id := by
      funext d
      cases d with
      | one next => exact congrArg Data.one (ih next)
      | value v => rfl
      | many rows => rfl
    rw [modifyAt_cons, hid, modify_id]

theorem one?_modify (row : Row) : (row.modify name (Data.mapOne f)).one? other =
    if name = other then (row.one? name).map f else row.one? other := by
  unfold one?
  rw [get?_modify]
  by_cases h : name = other
  · rw [if_pos h, if_pos h]
    rcases row.get? name with _ | _ | _ | _ <;> rfl
  · rw [if_neg h, if_neg h]

theorem at?_modifyAt (f : Row → Row) (path : List String) (row : Row) :
    (modifyAt f path row).at? path = (row.at? path).map f := by
  induction path generalizing row with
  | nil => rfl
  | cons n path ih =>
    rw [modifyAt_cons, at?, at?, one?_modify, if_pos rfl]
    cases row.one? n with
    | none => rfl
    | some next => exact ih next

theorem at?_append_path (path rest : List String) (row : Row) :
    row.at? (path ++ rest) = (row.at? path).bind fun inner ↦ inner.at? rest := by
  induction path generalizing row with
  | nil => rfl
  | cons n path ih =>
    rw [List.cons_append, at?, at?, Option.bind_assoc]
    exact Option.bind_congr fun next _ ↦ ih next

theorem at?_append (path : List String) (name : String) (row : Row) :
    row.at? (path ++ [name]) = (row.at? path).bind fun r ↦ r.one? name := by
  rw [at?_append_path]
  exact Option.bind_congr fun inner _ ↦ Option.bind_fun_some (inner.one? name)

/-! ### Numbers of rows -/

/-- The row and all related rows along paths have numbers from zero on. -/
def Numbered (row : Row) : Prop :=
  ∀ path inner, row.at? path = some inner → ∃ id, inner.id? = some id ∧ 0 ≤ id

theorem numbered_iff : row.Numbered ↔ (∃ id, row.id? = some id ∧ 0 ≤ id) ∧
    ∀ name next, row.one? name = some next → next.Numbered := by
  constructor
  · intro h
    exact ⟨h [] row rfl, fun name next hnext path inner hinner ↦
      h (name :: path) inner (at?_cons_eq_some.mpr ⟨next, hnext, hinner⟩)⟩
  · rintro ⟨hself, hbelow⟩ path inner hinner
    cases path with
    | nil =>
      obtain rfl : row = inner := Option.some.inj hinner
      exact hself
    | cons name path =>
      obtain ⟨next, hnext, hinner⟩ := at?_cons_eq_some.mp hinner
      exact hbelow name next hnext path inner hinner

theorem Numbered.at? (h : row.Numbered) (hinner : row.at? path = some inner) : inner.Numbered := by
  intro path' inner' hinner'
  refine h (path ++ path') inner' ?_
  clear h
  induction path generalizing row with
  | nil =>
    obtain rfl : row = inner := Option.some.inj hinner
    exact hinner'
  | cons name path ih =>
    obtain ⟨next, hnext, hinner⟩ := at?_cons_eq_some.mp hinner
    exact at?_cons_eq_some.mpr ⟨next, hnext, ih hinner⟩

theorem id?_modify_ne (hname : name ≠ idName) (f : Data → Data) (row : Row) :
    (row.modify name f).id? = row.id? := by
  unfold id?
  rw [get?_modify, if_neg hname]

theorem id?_modify (row : Row) : (row.modify name (Data.mapOne f)).id? = row.id? := by
  unfold id?
  rw [get?_modify]
  by_cases h : name = idName
  · rw [if_pos h, h]
    rcases row.get? idName with _ | _ | _ | _ <;> rfl
  · rw [if_neg h]

/-- Changing a related row to one that has its numbers keeps the numbers. -/
theorem Numbered.modify (h : row.Numbered)
    (hf : ∀ inner, row.one? name = some inner → (f inner).Numbered) :
    (row.modify name (Data.mapOne f)).Numbered := by
  obtain ⟨hself, hbelow⟩ := numbered_iff.mp h
  refine numbered_iff.mpr ⟨by rwa [id?_modify], fun other next hnext ↦ ?_⟩
  rw [one?_modify] at hnext
  split at hnext
  · obtain ⟨inner, hinner, rfl⟩ := Option.map_eq_some_iff.mp hnext
    exact hf inner hinner
  · exact hbelow other next hnext

/-- A list under another name than the row number's keeps the numbers. -/
theorem Numbered.set (h : row.Numbered) (hname : name ≠ idName) (rows : List Row) :
    (row.set name (.many rows)).Numbered := by
  obtain ⟨hself, hbelow⟩ := numbered_iff.mp h
  refine numbered_iff.mpr ⟨?_, fun other next hnext ↦ ?_⟩
  · unfold id? at hself ⊢
    rwa [get?_set, if_neg hname]
  · rw [one?_eq_some, get?_set] at hnext
    split at hnext
    · cases hnext
    · exact hbelow other next (one?_eq_some.mpr hnext)

theorem Numbered.modifyAt (h : row.Numbered)
    (hf : ∀ inner, row.at? path = some inner → (f inner).Numbered) :
    (modifyAt f path row).Numbered := by
  induction path generalizing row with
  | nil => exact hf row rfl
  | cons name path ih =>
    rw [modifyAt_cons]
    refine h.modify fun next hnext ↦ ?_
    refine ih ((numbered_iff.mp h).2 name next hnext) fun inner hinner ↦ ?_
    exact hf inner (at?_cons_eq_some.mpr ⟨next, hnext, hinner⟩)

end Row

end EntityStore
