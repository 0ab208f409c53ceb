import EntityStore.Proofs.Session.Run

/-!
What actions do to slots. A property of the slots that every step keeps is kept by an action, also
where it fails (`KeepsSlots`); what is lost when a batch is rolled back are rows, and slots only
gain numbers (`Slots.Grows`).
-/

set_option autoImplicit false

namespace EntityStore

/-- References keep their numbers, and none but those of a kind get one. -/
structure Slots.Grows (fresh : RowRef → Prop) (a b : Slots) : Prop where
  kept : ∀ r id, a.id? r = some id → b.id? r = some id
  only : ∀ r, ¬fresh r → b.id? r = a.id? r

namespace Slots.Grows

variable {fresh : RowRef → Prop} {a b c : Slots}

theorem refl (a : Slots) : a.Grows fresh a :=
  ⟨fun _ _ h ↦ h, fun _ _ ↦ rfl⟩

theorem trans (h : a.Grows fresh b) (h' : b.Grows fresh c) : a.Grows fresh c :=
  ⟨fun r id hid ↦ h'.kept r id (h.kept r id hid), fun r hr ↦ (h'.only r hr).trans (h.only r hr)⟩

end Slots.Grows

namespace Run

variable {α β γ ε : Type} {x : Run α} {Q : Slots → Prop}

/-- An action keeps what is true of the slots. -/
def KeepsSlots (Q : Slots → Prop) (x : Run α) : Prop :=
  Ends (fun t ↦ Q t.slots) x (fun _ t ↦ Q t.slots) fun t ↦ Q t.slots

namespace KeepsSlots

theorem pure (a : α) : KeepsSlots Q (pure a) :=
  Ends.pure fun _ h ↦ h

theorem throw (e : Error) : KeepsSlots Q (throw e : Run α) :=
  Ends.throw fun _ h ↦ h

theorem bind {f : α → Run β} (hx : KeepsSlots Q x) (hf : ∀ a, KeepsSlots Q (f a)) :
    KeepsSlots Q (x >>= f) :=
  Ends.bind hx hf

theorem forM {xs : List γ} {g : γ → Run PUnit} (h : ∀ c ∈ xs, KeepsSlots Q (g c)) :
    KeepsSlots Q (xs.forM g) :=
  Ends.forM h

theorem mapM {xs : List γ} {g : γ → Run α} (h : ∀ c ∈ xs, KeepsSlots Q (g c)) :
    KeepsSlots Q (xs.mapM g) := by
  induction xs with
  | nil => exact pure []
  | cons c xs ih =>
    rw [List.mapM_cons]
    exact bind (h c List.mem_cons_self) fun a ↦ bind (ih fun d hd ↦ h d (List.mem_cons_of_mem _ hd))
      fun as ↦ pure _

theorem tryCatch {g : Error → Run α} (hx : KeepsSlots Q x) (hg : ∀ e, KeepsSlots Q (g e)) :
    KeepsSlots Q (tryCatch x g) :=
  Ends.tryCatch hx hg

theorem get : KeepsSlots Q (get : Run Session) :=
  Ends.get fun _ h ↦ h

theorem modify {g : Session → Session} (hg : ∀ t, (g t).slots = t.slots) :
    KeepsSlots Q (modify g : Run PUnit) :=
  Ends.modify fun t h ↦ (hg t).symm ▸ h

theorem log (e : Event) : KeepsSlots Q (log e) :=
  modify fun _ ↦ rfl

theorem orFail (g : ε → Error) (o : Except ε α) : KeepsSlots Q (orFail g o) := by
  cases o with
  | ok a => exact pure a
  | error e => exact throw _

theorem single (change : RowChange) (affected : Nat) : KeepsSlots Q (single change affected) := by
  unfold Run.single
  split
  · exact pure ()
  · exact throw _

theorem rowOf (row : RowRef) (what : RowUse) : KeepsSlots Q (rowOf row what) := by
  intro t h
  rw [run_rowOf]
  cases t.slots.id? row <;> exact h

theorem define (d : Definition) : KeepsSlots Q (define d) := by
  intro t h
  rw [run_define]
  cases t.store.define d <;> exact h

theorem statement (statement : Statement) : KeepsSlots Q (Run.statement statement) := by
  intro t h
  rw [run_statement]
  cases t.store.run statement <;> exact h

theorem atomically (hx : KeepsSlots Q x) : KeepsSlots Q (atomically x) := by
  intro t h
  have hx := hx t h
  rw [run_atomically]
  rcases hrun : x.run t with ⟨_ | a, t'⟩ <;> rw [hrun] at hx <;> exact hx

/-- What an action keeps holds however it ends. -/
theorem run (hx : KeepsSlots Q x) {t t' : Session} {outcome : Except Error α}
    (hrun : x.run t = (outcome, t')) (h : Q t.slots) : Q t'.slots := by
  have hx := hx t h
  rw [hrun] at hx
  cases outcome <;> exact hx

end KeepsSlots

end Run

end EntityStore
