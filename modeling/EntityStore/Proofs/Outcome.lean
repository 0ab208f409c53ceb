import Mathlib.Data.List.Forall2

/-!
When a computation that may fail succeeds, every step of it did.
-/

set_option autoImplicit false

namespace Except

variable {ε ε' α β : Type}

theorem bind_eq_ok {x : Except ε α} {f : α → Except ε β} {b : β} :
    x >>= f = .ok b ↔ ∃ a, x = .ok a ∧ f a = .ok b := by
  cases x <;> simp [bind, Except.bind]

theorem toOption_eq_some_iff {x : Except ε α} {a : α} : x.toOption = some a ↔ x = .ok a := by
  cases x <;> simp [Except.toOption]

theorem toOption_bind (x : Except ε α) (f : α → Except ε β) :
    (x >>= f).toOption = x.toOption.bind fun a ↦ (f a).toOption := by
  cases x <;> rfl

theorem toOption_map (x : Except ε α) (f : α → β) : (x.map f).toOption = x.toOption.map f := by
  cases x <;> rfl

theorem toOption_mapError (x : Except ε α) (f : ε → ε') : (x.mapError f).toOption = x.toOption := by
  cases x <;> rfl

theorem isOk_iff {x : Except ε α} : x.isOk ↔ ∃ a, x = .ok a := by
  cases x <;> simp [isOk, Except.toBool]

theorem exists_eq_ok {x : Except ε α} (h : ∀ e, x ≠ .error e) : ∃ a, x = .ok a := by
  cases x with
  | ok a => exact ⟨a, rfl⟩
  | error e => exact absurd rfl (h e)

theorem map_eq_ok {x : Except ε α} {f : α → β} {b : β} :
    x.map f = .ok b ↔ ∃ a, x = .ok a ∧ f a = b := by
  cases x <;> simp [Except.map]

theorem map_eq_error {x : Except ε α} {f : α → β} {e : ε} : x.map f = .error e ↔ x = .error e := by
  cases x <;> simp [Except.map]

theorem bind_eq_error {x : Except ε α} {f : α → Except ε β} {e : ε} :
    x >>= f = .error e ↔ x = .error e ∨ ∃ a, x = .ok a ∧ f a = .error e := by
  cases x <;> simp [bind, Except.bind]

theorem map_bind {γ : Type} (x : Except ε α) (f : α → Except ε β) (g : β → γ) :
    (x >>= f).map g = x >>= fun a ↦ (f a).map g := by
  cases x <;> rfl

theorem bind_map {γ : Type} (x : Except ε α) (f : α → β) (g : β → Except ε γ) :
    x.map f >>= g = x >>= fun a ↦ g (f a) := by
  cases x <;> rfl

theorem mapError_eq_ok {x : Except ε α} {f : ε → ε'} {a : α} :
    x.mapError f = .ok a ↔ x = .ok a := by
  cases x <;> simp [Except.mapError]

theorem mapM_eq_ok {xs : List α} {f : α → Except ε β} {ys : List β} :
    xs.mapM f = .ok ys ↔ List.Forall₂ (fun x y ↦ f x = .ok y) xs ys := by
  induction xs generalizing ys with
  | nil => simp [pure, Except.pure, eq_comm]
  | cons x xs ih =>
    simp only [List.mapM_cons, bind_eq_ok, pure, Except.pure, Except.ok.injEq,
      List.forall₂_cons_left_iff]
    constructor
    · rintro ⟨y, hy, ys', hys, rfl⟩
      exact ⟨y, ys', hy, ih.mp hys, rfl⟩
    · rintro ⟨y, ys', hy, hys, rfl⟩
      exact ⟨y, hy, ys', ih.mpr hys, rfl⟩

/-- Steps all succeed if each of them does. -/
theorem exists_mapM_ok {xs : List α} {f : α → Except ε β} :
    (∃ ys, xs.mapM f = .ok ys) ↔ ∀ x ∈ xs, ∃ y, f x = .ok y := by
  induction xs with
  | nil => exact iff_of_true ⟨[], rfl⟩ (List.forall_mem_nil _)
  | cons x xs ih =>
    rw [List.forall_mem_cons, ← ih]
    simp only [mapM_eq_ok, List.forall₂_cons_left_iff]
    constructor
    · rintro ⟨_, y, ys, hy, hys, rfl⟩
      exact ⟨⟨y, hy⟩, ys, hys⟩
    · rintro ⟨⟨y, hy⟩, ys, hys⟩
      exact ⟨_, y, ys, hy, hys, rfl⟩

/-- A check of all succeeds if it does for each. -/
theorem forM_eq_ok {xs : List α} {f : α → Except ε Unit} :
    xs.forM f = .ok () ↔ ∀ x ∈ xs, f x = .ok () := by
  induction xs with
  | nil => exact iff_of_true rfl nofun
  | cons x xs ih =>
    have hcons : (x :: xs).forM f = f x >>= fun _ ↦ xs.forM f := rfl
    rw [hcons, bind_eq_ok, List.forall_mem_cons, ← ih]
    exact ⟨fun ⟨_, hx, hxs⟩ ↦ ⟨hx, hxs⟩, fun ⟨hx, hxs⟩ ↦ ⟨(), hx, hxs⟩⟩

theorem forM_congr {xs : List α} {f g : α → Except ε Unit} (h : ∀ x ∈ xs, f x = g x) :
    xs.forM f = xs.forM g := by
  induction xs with
  | nil => rfl
  | cons x xs ih =>
    change (f x >>= fun _ ↦ xs.forM f) = g x >>= fun _ ↦ xs.forM g
    rw [h x List.mem_cons_self, ih fun y hy ↦ h y (List.mem_cons_of_mem _ hy)]

theorem forM_append_ok {xs ys : List α} {f : α → Except ε Unit} (h : ys.forM f = .ok ()) :
    (xs ++ ys).forM f = xs.forM f := by
  induction xs with
  | nil => exact h
  | cons x xs ih =>
    change (f x >>= fun _ ↦ (xs ++ ys).forM f) = f x >>= fun _ ↦ xs.forM f
    rw [ih]

theorem forM_cases {xs : List α} {f : α → Except ε Unit} {e : ε}
    (h : ∀ x ∈ xs, f x = .ok () ∨ f x = .error e) :
    xs.forM f = .ok () ∨ xs.forM f = .error e := by
  induction xs with
  | nil => exact .inl rfl
  | cons x xs ih =>
    change (f x >>= fun _ ↦ xs.forM f) = .ok () ∨ (f x >>= fun _ ↦ xs.forM f) = .error e
    rcases h x List.mem_cons_self with hx | hx <;> rw [hx]
    · exact ih fun y hy ↦ h y (List.mem_cons_of_mem _ hy)
    · exact .inr rfl

/-- Checks that fail in one way only, of which the ones succeed if the others do. -/
theorem forM_eq_of_iff {xs ys : List α} {f g : α → Except ε Unit} {e : ε}
    (hf : ∀ x ∈ xs, f x = .ok () ∨ f x = .error e) (hg : ∀ y ∈ ys, g y = .ok () ∨ g y = .error e)
    (hiff : (∀ x ∈ xs, f x = .ok ()) ↔ ∀ y ∈ ys, g y = .ok ()) : xs.forM f = ys.forM g := by
  rw [← forM_eq_ok, ← forM_eq_ok] at hiff
  rcases forM_cases hf with hx | hx
  · rw [hx, hiff.mp hx]
  · rcases forM_cases hg with hy | hy
    · rw [hiff.mpr hy] at hx
      cases hx
    · rw [hx, hy]

/-- If some steps succeed, so do those that a test takes, with the results that belong to them. -/
theorem mapM_filter_ok {f : α → Except ε (Option β)} {p : α → Bool} {q : β → Bool}
    {xs : List α} {ys : List (Option β)} (h : xs.mapM f = .ok ys)
    (hpq : ∀ x ∈ xs, ∀ y, f x = .ok (some y) → q y = p x) :
    ∃ zs, (xs.filter p).mapM f = .ok zs ∧ zs.filterMap id = (ys.filterMap id).filter q := by
  have hall := mapM_eq_ok.mp h
  clear h
  induction hall with
  | nil => exact ⟨[], rfl, rfl⟩
  | @cons x y xs ys hxy _ ih =>
    obtain ⟨zs, hzs, heq⟩ := ih fun x' hx' ↦ hpq x' (List.mem_cons_of_mem _ hx')
    by_cases hx : p x
    · refine ⟨y :: zs, ?_, ?_⟩
      · rw [List.filter_cons_of_pos hx, List.mapM_cons, hxy, hzs]
        rfl
      · cases y with
        | none => exact heq
        | some y =>
          have hy : q y := (hpq x List.mem_cons_self y hxy).trans hx
          simpa [hy] using heq
    · refine ⟨zs, ?_, ?_⟩
      · rwa [List.filter_cons_of_neg hx]
      · cases y with
        | none => exact heq
        | some y =>
          have hy : ¬q y := fun hq ↦ hx ((hpq x List.mem_cons_self y hxy).symm.trans hq)
          simpa [hy] using heq

theorem mapM_ok_mem {f : α → Except ε β} {xs : List α} {ys : List β} {y : β}
    (h : xs.mapM f = .ok ys) (hy : y ∈ ys) : ∃ x ∈ xs, f x = .ok y := by
  have hall := mapM_eq_ok.mp h
  clear h
  induction hall with
  | nil => cases hy
  | @cons x z xs ys hxz _ ih =>
    rcases List.mem_cons.mp hy with rfl | hy
    · exact ⟨x, List.mem_cons_self, hxz⟩
    · obtain ⟨x', hx', heq⟩ := ih hy
      exact ⟨x', List.mem_cons_of_mem _ hx', heq⟩

theorem mapM_error_mem {f : α → Except ε β} {xs : List α} {e : ε} (h : xs.mapM f = .error e) :
    ∃ x ∈ xs, f x = .error e := by
  induction xs with
  | nil => cases h
  | cons x xs ih =>
    rw [List.mapM_cons] at h
    rcases bind_eq_error.mp h with hx | ⟨y, -, hrest⟩
    · exact ⟨x, List.mem_cons_self, hx⟩
    · rcases bind_eq_error.mp hrest with hxs | ⟨ys, -, hnil⟩
      · obtain ⟨x', hx', heq⟩ := ih hxs
        exact ⟨x', List.mem_cons_of_mem _ hx', heq⟩
      · cases hnil

/-- Two computations both succeed, with results that are related, or both fail, with errors that
are. -/
inductive Both (E : ε → ε' → Prop) (Q : α → β → Prop) : Except ε α → Except ε' β → Prop
  | ok {a : α} {b : β} (h : Q a b) : Both E Q (.ok a) (.ok b)
  | error {e : ε} {e' : ε'} (h : E e e') : Both E Q (.error e) (.error e')

namespace Both

variable {γ δ : Type} {E : ε → ε' → Prop} {Q : α → β → Prop} {x : Except ε α} {y : Except ε' β}

theorem bind {f : α → Except ε γ} {g : β → Except ε' δ} {Q₂ : γ → δ → Prop} (hx : Both E Q x y)
    (hf : ∀ a b, Q a b → Both E Q₂ (f a) (g b)) : Both E Q₂ (x >>= f) (y >>= g) := by
  cases hx with
  | ok h => exact hf _ _ h
  | error h => exact .error h

theorem toOption_bind {f : α → Except ε γ} {g : β → Except ε' γ} (hx : Both E Q x y)
    (hf : ∀ a b, Q a b → (f a).toOption = (g b).toOption) :
    (x >>= f).toOption = (y >>= g).toOption := by
  cases hx with
  | ok h => exact hf _ _ h
  | error _ => rfl

theorem imp {E' : ε → ε' → Prop} {Q' : α → β → Prop} (h : Both E Q x y)
    (he : ∀ e e', E e e' → E' e e') (hq : ∀ a b, Q a b → Q' a b) : Both E' Q' x y := by
  cases h with
  | ok h => exact .ok (hq _ _ h)
  | error h => exact .error (he _ _ h)

theorem refl {E : ε → ε → Prop} {Q : α → α → Prop} {x : Except ε α} (hE : ∀ e, E e e)
    (hQ : ∀ a, x = .ok a → Q a a) :
    Both E Q x x := by
  cases x with
  | ok a => exact .ok (hQ a rfl)
  | error e => exact .error (hE e)

/-- Two computations that begin in the same way. -/
theorem bind_same {E : ε → ε → Prop} {x : Except ε α} {f : α → Except ε γ}
    {g : α → Except ε δ} {Q : γ → δ → Prop} (hE : ∀ e, E e e)
    (hf : ∀ a, x = .ok a → Both E Q (f a) (g a)) : Both E Q (x >>= f) (x >>= g) := by
  cases x with
  | ok a => exact hf a rfl
  | error e => exact .error (hE e)

theorem with_eq (h : Both E Q x y) : Both E (fun a b ↦ Q a b ∧ x = .ok a ∧ y = .ok b) x y := by
  cases h with
  | ok h => exact .ok ⟨h, rfl, rfl⟩
  | error h => exact .error h

end Both

end Except

namespace List

variable {α β γ : Type} {R : α → β → Prop} {xs : List α} {ys : List β}

theorem flatMap_of_forall₂ {f : α → List γ} {g : β → List γ} (h : Forall₂ R xs ys)
    (hfg : ∀ x y, R x y → g y = f x) :
    ys.flatMap g = xs.flatMap f := by
  induction h with
  | nil => rfl
  | cons hxy _ ih => rw [flatMap_cons, flatMap_cons, hfg _ _ hxy, ih]

theorem forall_of_forall₂ {P : α → Prop} (h : Forall₂ R xs ys) (hP : ∀ x y, R x y → P x) :
    ∀ x ∈ xs, P x := by
  induction h with
  | nil => exact nofun
  | cons hxy _ ih => exact forall_mem_cons.mpr ⟨hP _ _ hxy, ih⟩

theorem forall₂_exists_left (h : Forall₂ R xs ys) : ∀ x ∈ xs, ∃ y ∈ ys, R x y := by
  induction h with
  | nil => exact nofun
  | cons hxy _ ih =>
    exact forall_mem_cons.mpr
      ⟨⟨_, mem_cons_self, hxy⟩, fun x hx ↦ (ih x hx).imp fun _ ↦ And.imp_left (mem_cons_of_mem _)⟩

theorem forall₂_exists_right (h : Forall₂ R xs ys) : ∀ y ∈ ys, ∃ x ∈ xs, R x y :=
  forall₂_exists_left h.flip

theorem forall₂_getElem? (h : Forall₂ R xs ys) {k : Nat} {x : α} (hk : xs[k]? = some x) :
    ∃ y, ys[k]? = some y ∧ R x y := by
  induction h generalizing k with
  | nil => cases hk
  | cons hxy _ ih =>
    cases k with
    | zero =>
      cases hk
      exact ⟨_, rfl, hxy⟩
    | succ k => exact ih hk

/-- If each element has something to do with some other, there are such others for all in their
order. -/
theorem exists_forall₂ (h : ∀ x ∈ xs, ∃ y, R x y) :
    ∃ ys, Forall₂ R xs ys := by
  induction xs with
  | nil => exact ⟨[], .nil⟩
  | cons x xs ih =>
    obtain ⟨⟨y, hy⟩, hxs⟩ := forall_mem_cons.mp h
    obtain ⟨ys, hys⟩ := ih hxs
    exact ⟨y :: ys, .cons hy hys⟩

/-- What two lists have to do with a third, place by place, they have to do with each other. -/
theorem forall₂_of_left {S : α → γ → Prop} {zs : List γ} (h : Forall₂ R xs ys)
    (h' : Forall₂ S xs zs) :
    Forall₂ (fun y z ↦ ∃ x, R x y ∧ S x z) ys zs := by
  induction h generalizing zs with
  | nil =>
    cases h'
    exact .nil
  | cons hxy _ ih =>
    cases h' with
    | cons hxz h' => exact .cons ⟨_, hxy, hxz⟩ (ih h')

end List
