import EntityStore.Proofs.Outcome
import EntityStore.Proofs.Session.Run

/-!
Two actions on two sessions, side by side. What relates the stores before the actions relates them
afterwards, and both actions succeed or both fail (`Run.Together`). Of two loops over one list it is
enough to know the steps.
-/

set_option autoImplicit false

namespace EntityStore.Run

variable {α β γ δ ε : Type}

/-- Sessions whose stores and whose slots are related. What was logged does not count. -/
structure Paired (T : Store → Store → Prop) (S : Slots → Slots → Prop) (s t : Session) : Prop where
  store : T s.store t.store
  slots : S s.slots t.slots

/-- From related sessions two actions succeed with related answers or fail with related errors, and
leave related sessions. -/
def Together (T : Store → Store → Prop) (S : Slots → Slots → Prop) (E : Error → Error → Prop)
    (x : Run α) (y : Run β) (Q : α → β → Prop) : Prop :=
  ∀ s t, Paired T S s t → match x.run s, y.run t with
    | (.ok a, s'), (.ok b, t') => Paired T S s' t' ∧ Q a b
    | (.error e, s'), (.error e', t') => Paired T S s' t' ∧ E e e'
    | _, _ => False

variable {T : Store → Store → Prop} {S : Slots → Slots → Prop} {E : Error → Error → Prop}
  {x : Run α} {y : Run β} {Q : α → β → Prop} {f : α → Run γ} {g : β → Run δ} {Q₂ : γ → δ → Prop}
  {s t s' t' : Session}

namespace Together

theorem pure {a : α} {b : β} (h : Q a b) : Together T S E (pure a) (pure b) Q :=
  fun _ _ hst ↦ ⟨hst, h⟩

theorem throw {e e' : Error} (h : E e e') : Together T S E (throw e : Run α) (throw e' : Run β) Q :=
  fun _ _ hst ↦ ⟨hst, h⟩

theorem bind (hx : Together T S E x y Q) (hf : ∀ a b, Q a b → Together T S E (f a) (g b) Q₂) :
    Together T S E (x >>= f) (y >>= g) Q₂ := by
  intro s t hst
  have hx := hx s t hst
  rw [run_bind, run_bind]
  revert hx
  rcases x.run s with ⟨_ | a, s'⟩ <;> rcases y.run t with ⟨_ | b, t'⟩ <;> intro hx
  · exact hx
  · exact hx.elim
  · exact hx.elim
  · exact hf a b hx.2 s' t' hx.1

theorem get : Together T S E (get : Run Session) (get : Run Session) (Paired T S) :=
  fun _ _ hst ↦ ⟨hst, hst⟩

theorem modify {g h : Session → Session} (hgh : ∀ s t, Paired T S s t → Paired T S (g s) (h t)) :
    Together T S E (modify g : Run PUnit) (modify h : Run PUnit) fun _ _ ↦ True :=
  fun s t hst ↦ ⟨hgh s t hst, trivial⟩

theorem log (e e' : Event) : Together T S E (log e) (log e') fun _ _ ↦ True :=
  modify fun _ _ hst ↦ ⟨hst.store, hst.slots⟩

theorem forM {xs : List ε} {g h : ε → Run PUnit}
    (hstep : ∀ c ∈ xs, Together T S E (g c) (h c) fun _ _ ↦ True) :
    Together T S E (xs.forM g) (xs.forM h) fun _ _ ↦ True := by
  induction xs with
  | nil => exact pure trivial
  | cons c xs ih =>
    exact bind (hstep c List.mem_cons_self) fun _ _ _ ↦ ih
      fun d hd ↦ hstep d (List.mem_cons_of_mem _ hd)

/-- Steps with equal answers, of which each is known for what it is the answer to. -/
theorem mapM {xs : List ε} {g h : ε → Run α} {R : ε → α → Prop}
    (hstep : ∀ c ∈ xs, Together T S E (g c) (h c) fun a b ↦ a = b ∧ R c a) :
    Together T S E (xs.mapM g) (xs.mapM h) fun as bs ↦ as = bs ∧ List.Forall₂ R xs as := by
  induction xs with
  | nil => exact pure ⟨rfl, .nil⟩
  | cons c xs ih =>
    rw [List.mapM_cons, List.mapM_cons]
    refine bind (hstep c List.mem_cons_self) fun a b hab ↦ ?_
    refine bind (ih fun d hd ↦ hstep d (List.mem_cons_of_mem _ hd))
      fun as bs has ↦ pure ⟨?_, .cons hab.2 has.2⟩
    rw [hab.1, has.1]

theorem tryCatch {g : Error → Run α} {h : Error → Run β} (hx : Together T S E x y Q)
    (hcatch : ∀ e e', E e e' → Together T S E (g e) (h e') Q) :
    Together T S E (tryCatch x g) (tryCatch y h) Q := by
  intro s t hst
  have hx := hx s t hst
  rw [run_tryCatch, run_tryCatch]
  revert hx
  rcases x.run s with ⟨e | a, s'⟩ <;> rcases y.run t with ⟨e' | b, t'⟩ <;> intro hx
  · exact hcatch e e' hx.2 s' t' hx.1
  · exact hx.elim
  · exact hx.elim
  · exact hx

theorem atomically (hx : Together T S E x y Q) : Together T S E (atomically x)
    (atomically y) Q := by
  intro s t hst
  have hx := hx s t hst
  rw [run_atomically, run_atomically]
  revert hx
  rcases x.run s with ⟨e | a, s'⟩ <;> rcases y.run t with ⟨e' | b, t'⟩ <;> intro hx
  · exact ⟨⟨hst.store, hx.1.slots⟩, hx.2⟩
  · exact hx.elim
  · exact hx.elim
  · exact hx

theorem single (change : RowChange) (affected : Nat) (hrefl : ∀ e, E e e) :
    Together T S E (single change affected) (single change affected) fun _ _ ↦ True := by
  unfold Run.single
  split
  · exact pure trivial
  · exact throw (hrefl _)

theorem rowOf (row : RowRef) (what : RowUse) (hslots : ∀ a b, S a b → a.id? row = b.id? row)
    (hrefl : ∀ e, E e e) :
    Together T S E (rowOf row what) (rowOf row what) Eq := by
  intro s t hst
  rw [run_rowOf, run_rowOf, hslots _ _ hst.slots]
  cases t.slots.id? row with
  | none => exact ⟨hst, hrefl _⟩
  | some id => exact ⟨hst, rfl⟩

/-- A definition on both stores. -/
theorem define {d : Definition} (h : ∀ store store', T store store' →
    Except.Both (fun e e' ↦ E (storeError e) (storeError e')) T (store.define d)
      (store'.define d)) :
    Together T S E (define d) (define d) fun _ _ ↦ True := by
  intro s t hst
  have h := h _ _ hst.store
  rw [run_define, run_define]
  generalize s.store.define d = left, t.store.define d = right at h ⊢
  cases h with
  | ok h => exact ⟨⟨h, hst.slots⟩, trivial⟩
  | error h => exact ⟨⟨hst.store, hst.slots⟩, h⟩

/-- A statement on both stores. -/
theorem statement {statement : Statement} (h : ∀ store store', T store store' →
    Except.Both (fun e e' ↦ E (storeError e) (storeError e'))
      (fun left right ↦ T left.store right.store ∧ left.affected = right.affected ∧
        left.row = right.row)
      (store.run statement) (store'.run statement)) :
    Together T S E (Run.statement statement) (Run.statement statement) fun left right ↦
      left.affected = right.affected ∧ left.row = right.row := by
  intro s t hst
  have h := h _ _ hst.store
  rw [run_statement, run_statement]
  generalize s.store.run statement = left, t.store.run statement = right at h ⊢
  cases h with
  | ok h => exact ⟨⟨h.1, hst.slots⟩, h.2⟩
  | error h => exact ⟨⟨hst.store, hst.slots⟩, h⟩

end Together

end EntityStore.Run
