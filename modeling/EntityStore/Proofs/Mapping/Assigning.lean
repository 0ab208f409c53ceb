import EntityStore.Proofs.Mapping.Batches
import EntityStore.Proofs.Session.Slots

/-!
A batch assigns numbers to the references of its creates, to each that had none, and changes no slot
otherwise. What it assigned before it fails stays, though the rows are rolled back.
-/

set_option autoImplicit false

namespace EntityStore

open Mapping

/-- Whether an instruction adds a row. -/
def Action.creates : Action → Bool
  | .create _ => true
  | _ => false

namespace Slots

variable {slots : Slots} {ref row : RowRef}

theorem id?_assign_other (hne : row ≠ ref) (id : Int64) :
    (slots.assign ref id).id? row = slots.id? row := by
  cases ref with
  | known k => rfl
  | pending slot =>
    cases row with
    | known n => rfl
    | pending other =>
      have hother : (other == slot) = false :=
        beq_eq_false_iff_ne.mpr fun h ↦ hne (congrArg RowRef.pending h)
      change List.lookup other ((slot, id) :: slots.assigned) = List.lookup other slots.assigned
      rw [List.lookup_cons, hother]

/-- A reference without a number gets one. -/
theorem Grows.assign {fresh : RowRef → Prop} (hnew : slots.id? ref = none)
    (hfresh : fresh ref) (id : Int64) :
    slots.Grows fresh (slots.assign ref id) where
  kept _ _ hrow := id?_assign hnew hrow
  only row hrow := id?_assign_other (fun heq : row = ref ↦ hrow (heq ▸ hfresh)) id

end Slots

namespace Mapping

variable {Q : Slots → Prop} {s : Schema} {e : Entity} {ref : RowRef} {fresh : RowRef → Prop}

theorem inserted_keepsSlots (e : Entity) (name : String) (v : InputValue) :
    Run.KeepsSlots Q (inserted e name v) := by
  unfold inserted
  dsimp only
  split
  · exact .pure _
  · split
    · exact .bind (.rowOf _ _) fun _ ↦ .pure _
    · split <;> exact .pure _
  · split <;> exact .pure _
  · split
    · exact .pure _
    · exact .bind .get fun _ ↦ .throw _

theorem addLink_keepsSlots (entity relation : String) (owner target : Int64) :
    Run.KeepsSlots Q (addLink entity relation owner target) :=
  .bind (.statement _) fun _ ↦ .single _ _

theorem removeLinks_keepsSlots (entity relation : String) (owner : Int64) :
    Run.KeepsSlots Q (removeLinks entity relation owner) :=
  .bind (.statement _) fun _ ↦ .pure _

theorem changeLink_keepsSlots (entity relation : String) (owner : Int64)
    (op : Language.LinkOp) (r : RowRef) :
    Run.KeepsSlots Q (changeLink entity relation owner op r) := by
  refine .bind (.rowOf _ _) fun target ↦ ?_
  cases op with
  | add => exact addLink_keepsSlots _ _ _ _
  | del => exact .bind (.statement _) fun _ ↦ .single _ _

theorem changeLinks_keepsSlots (entity relation : String) (owner : Int64) (v : InputValue) :
    Run.KeepsSlots Q (changeLinks entity relation owner v) := by
  unfold changeLinks
  split
  · exact removeLinks_keepsSlots _ _ _
  · exact .bind (.rowOf _ _) fun _ ↦ .bind (removeLinks_keepsSlots _ _ _)
      fun _ ↦ addLink_keepsSlots _ _ _ _
  · exact changeLink_keepsSlots _ _ _ _ _
  · exact .forM fun _ _ ↦ changeLink_keepsSlots _ _ _ _ _
  · exact .pure _

theorem assigned_keepsSlots (e : Entity) (name : String) (v : InputValue) :
    Run.KeepsSlots Q (assigned e name v) := by
  unfold assigned
  split
  · split
    · exact .pure _
    · exact .throw _
  · split
    · exact .bind (.rowOf _ _) fun _ ↦ .pure _
    · exact .pure _
  · exact .pure _

theorem update_keepsSlots (e : Entity) (ref : RowRef) (inputs : Inputs) :
    Run.KeepsSlots Q (update e ref inputs) :=
  .bind (.rowOf _ _) fun _ ↦ .bind (.mapM fun _ _ ↦ assigned_keepsSlots _ _ _) fun _ ↦ .bind
      (.statement _) fun _ ↦
    .bind (.single _ _) fun _ ↦ .forM fun _ _ ↦ changeLinks_keepsSlots _ _ _ _

theorem delete_keepsSlots (e : Entity) (ref : RowRef) : Run.KeepsSlots Q (delete e ref) :=
  .bind (.rowOf _ _) fun _ ↦ .bind (.statement _) fun _ ↦ .single _ _

theorem addLinks_keepsSlots (entity : String) (owner : Int64) (links : List (String × RowRef)) :
    Run.KeepsSlots Q (links.forM fun (relation, target) ↦ do
      let target ← Run.rowOf target (.related ⟨entity, relation⟩)
      addLink entity relation owner target) :=
  .forM fun _ _ ↦ .bind (.rowOf _ _) fun _ ↦ addLink_keepsSlots _ _ _ _

/-- Slots that are kept by assigning a number to a reference that has none are kept by a create of
it. -/
theorem create_keepsSlots
    (hassign : ∀ slots id, Q slots → slots.id? ref = none → Q (slots.assign ref id)) (e : Entity)
    (inputs : Inputs) : Run.KeepsSlots Q (create e ref inputs) := by
  refine .bind (.mapM fun _ _ ↦ inserted_keepsSlots _ _ _) fun parts ↦ .bind
      (.statement _) fun effect ↦
    .bind (.single _ _) fun _ ↦ ?_
  -- the session that is looked at is the one that goes on, so that the reference has no number
  -- there
  have hget : Run.Ends (fun t ↦ Q t.slots)
      (get : Run Session) (fun u t ↦ u = t ∧ Q t.slots) fun t ↦ Q t.slots :=
    .get fun _ h ↦ ⟨rfl, h⟩
  refine Run.Ends.bind hget fun u ↦ ?_
  dsimp only
  split
  · next id hid =>
    exact .bind (q := fun _ _ ↦ False) (.throw fun _ h ↦ h.2) fun _ _ h ↦ h.elim
  · next hnone =>
    have hnew : u.slots.id? ref = none := Option.eq_none_iff_forall_ne_some.mpr hnone
    refine .bind (q := fun _ t ↦ Q t.slots) (.modify fun t h ↦ ?_) fun _ ↦ addLinks_keepsSlots _ _ _
    obtain ⟨rfl, hQ⟩ := h
    exact hassign u.slots effect.row hQ hnew

/-- Writing an instruction lets the slots grow by the reference of a create. -/
theorem write_grows (slots : Slots) {i : Instruction} (hi : i.action.creates → fresh i.ref) :
    Run.KeepsSlots (slots.Grows fresh) (write s i) := by
  refine .bind (.orFail _ _) fun e ↦ ?_
  cases haction : i.action with
  | create inputs =>
    have hfresh : fresh i.ref := hi (by rw [haction]; rfl)
    exact create_keepsSlots (fun a id h hnew ↦ h.trans (.assign hnew hfresh id)) e inputs
  | update inputs => exact update_keepsSlots _ _ _
  | delete => exact delete_keepsSlots _ _

theorem writeAll_grows (slots : Slots) {batch : List Instruction}
    (h : ∀ i ∈ batch, i.action.creates → fresh i.ref) :
    Run.KeepsSlots (slots.Grows fresh) (batch.forM (writeInBatch s)) :=
  .forM fun i hi ↦ .tryCatch (write_grows slots (h i hi)) fun _ ↦ .bind .get
    fun _ ↦ .bind (.log _) fun _ ↦ .throw _

/-- A batch lets the slots grow by the references of its creates, also where it fails. -/
theorem execute_grows (slots : Slots) {batch : List Instruction}
    (h : ∀ i ∈ batch, i.action.creates → fresh i.ref) :
    Run.KeepsSlots (slots.Grows fresh) (execute s batch) :=
  .bind (.log _) fun _ ↦ .bind (.atomically (writeAll_grows slots h)) fun _ ↦ .log _

theorem bootstrap_keepsSlots (s : Schema) : Run.KeepsSlots Q (bootstrap s) :=
  .atomically (.forM fun _ _ ↦ .bind (.define _) fun _ ↦ .bind .get fun _ ↦
    .bind (.forM fun _ _ ↦ .define _) fun _ ↦ .forM fun _ _ ↦ .define _)

end Mapping

end EntityStore
