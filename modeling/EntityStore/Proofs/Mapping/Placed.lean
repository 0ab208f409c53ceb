import EntityStore.Proofs.Compile.Scope
import EntityStore.Proofs.Mapping.References

/-!
What a run of creates leaves in the content: every new row stands under its number as its create
says, earlier rows and their links stay as they were, and there are no other rows (`Steps.placed`,
`Steps.kept`, `Steps.row_cases`).
-/

set_option autoImplicit false

namespace EntityStore

open Mapping (execute writeInBatch)

/-! ### Numbers that stay -/

/-- Slots that keep all numbers of others. -/
def Slots.Extends (slots slots' : Slots) : Prop :=
  ∀ r n, slots.id? r = some n → slots'.id? r = some n

theorem Slots.Extends.owner?_eq {slots slots' : Slots} (h : slots.Extends slots')
    {e : Entity} {inputs : Inputs} (hsettled : e.Settled inputs slots) :
    slots'.owner? inputs = slots.owner? inputs := by
  unfold owner?
  split
  · next r hlookup =>
    obtain ⟨n, hn⟩ := Option.isSome_iff_exists.mp
      (hsettled _ (mem_of_lookup hlookup) (.inl rfl) r List.mem_cons_self)
    rw [hn, h r n hn]
  · rfl

theorem InputValue.targets_eq {slots slots' : Slots} (h : slots.Extends slots') {v : InputValue}
    (hsettled : ∀ r ∈ v.rows, (slots.id? r).isSome) : v.targets slots' = v.targets slots := by
  have hsame {r : RowRef} (hr : r ∈ v.rows) : slots'.id? r = slots.id? r := by
    obtain ⟨n, hn⟩ := Option.isSome_iff_exists.mp (hsettled r hr)
    rw [hn, h r n hn]
  cases v with
  | ref r => exact congrArg Option.toList (hsame List.mem_cons_self)
  | refs rs => exact List.filterMap_congr fun r hr ↦ hsame hr
  | _ => rfl

namespace Content

/-- A row as a create of it says, with its owner and its links. -/
structure Placed (c : Content) (slots : Slots) (e : Entity) (ref : RowRef) (inputs : Inputs)
    (id : Int64) : Prop where
  number : slots.id? ref = some id
  row : c.row e.name id = some ⟨fun name ↦ (e.given inputs name).getD .null, slots.owner? inputs⟩
  links : ∀ r, e.links r → c.links e.name r id = ((inputs.lookup r).map (·.targets slots)).getD []
  settled : e.Settled inputs slots

variable {s : Schema} {given : List (String × Int64)} {batch : List Instruction} {c c₁ c' : Content}
  {slots slots₁ slots' : Slots} {e : Entity} {i : Instruction} {inputs : Inputs}
  {d : String} {n id : Int64}

/-! ### Steps -/

theorem Steps.extends (h : c.Steps s given batch slots c' slots') : slots.Extends slots' :=
  fun _ _ hr ↦ h.id?_eq_some hr

/-- The step of a create. -/
theorem Step.create (h : Step given e i c slots c₁ slots₁) (haction : i.action = .create inputs) :
    ∃ id, slots.id? i.ref = none ∧ slots₁ = slots.assign i.ref id ∧
      (∀ n, (e.name, n) ∈ given → n < id) ∧ e.Settled inputs slots₁ ∧
      c₁ = c.create e inputs slots₁ id := by
  unfold Step at h
  rw [haction] at h
  exact h

/-- A create changes nothing of rows that were given numbers before. -/
theorem Step.kept (h : Step given e i c slots c₁ slots₁) (hcreates : i.creates)
    (hgiven : (d, n) ∈ given) :
    c₁.row d n = c.row d n ∧ ∀ r, c₁.links d r n = c.links d r n := by
  obtain ⟨inputs, haction⟩ := Instruction.creates_iff.mp hcreates
  obtain ⟨id, -, -, hless, -, rfl⟩ := h.create haction
  have hother : ¬(d = e.name ∧ n = id) := by
    rintro ⟨rfl, rfl⟩
    exact Int64.lt_irrefl (hless n hgiven)
  exact ⟨if_neg hother, fun r ↦ if_neg fun hthis ↦ hother ⟨hthis.1, hthis.2.1⟩⟩

theorem Steps.kept (h : c.Steps s given batch slots c' slots') (hcreates : ∀ i ∈ batch, i.creates)
    (hgiven : (d, n) ∈ given) : c'.row d n = c.row d n ∧ ∀ r, c'.links d r n = c.links d r n := by
  induction h with
  | nil => exact ⟨rfl, fun _ ↦ rfl⟩
  | cons _ _ hstep _ ih =>
    obtain ⟨hi, hbatch⟩ := List.forall_mem_cons.mp hcreates
    obtain ⟨hrow, hlinks⟩ := hstep.kept hi hgiven
    obtain ⟨hrow', hlinks'⟩ := ih hbatch (List.mem_append_left _ hgiven)
    exact ⟨hrow'.trans hrow, fun r ↦ (hlinks' r).trans (hlinks r)⟩

/-- The number of the row that a step creates is among those given afterwards. -/
theorem Step.numbered (h : Step given e i c slots c₁ slots₁) (haction : i.action = .create inputs) :
    ∃ id, c₁.Placed slots₁ e i.ref inputs id ∧ (∀ n, (e.name, n) ∈ given → n < id) ∧
      i.numbered slots₁ = [(i.entity, id)] := by
  obtain ⟨id, hnew, rfl, hless, hsettled, rfl⟩ := h.create haction
  have hid : (slots.assign i.ref id).id? i.ref = some id := Mapping.id?_assign_self hnew
  refine ⟨id, ⟨hid, if_pos ⟨rfl, rfl⟩, fun r hr ↦ if_pos ⟨rfl, rfl, hr⟩, hsettled⟩, hless, ?_⟩
  unfold Instruction.numbered
  rw [haction, hid]
  rfl

theorem Placed.steps (h : c.Placed slots e i.ref inputs id)
    (hsteps : c.Steps s given batch slots c' slots') (hcreates : ∀ i ∈ batch, i.creates)
    (hgiven : (e.name, id) ∈ given) : c'.Placed slots' e i.ref inputs id := by
  obtain ⟨hrow, hlinks⟩ := hsteps.kept hcreates hgiven
  refine ⟨hsteps.extends _ _ h.number, ?_, fun r hr ↦ ?_, fun x hx hor r hr ↦ ?_⟩
  · rw [hrow, h.row, hsteps.extends.owner?_eq h.settled]
  · rw [hlinks, h.links r hr]
    cases hlookup : inputs.lookup r with
    | none => rfl
    | some v =>
      exact (InputValue.targets_eq hsteps.extends
        (h.settled _ (mem_of_lookup hlookup) (.inr hr))).symm
  · obtain ⟨n, hn⟩ := Option.isSome_iff_exists.mp (h.settled x hx hor r hr)
    rw [hsteps.extends r n hn]
    rfl

/-- Every create of a batch of creates places its row, under a number greater than all that its
entity was given before. -/
theorem Steps.placed (h : c.Steps s given batch slots c' slots')
    (hcreates : ∀ i ∈ batch, i.creates) (hi : i ∈ batch) (haction : i.action = .create inputs) :
      ∃ e ∈ s.entities, e.name = i.entity ∧ ∃ id, c'.Placed slots' e i.ref inputs id ∧
      ∀ n, (i.entity, n) ∈ given → n < id := by
  induction h with
  | nil => cases hi
  | @cons given j batch c c₁ c' slots slots₁ slots' e he hname hstep hrest ih =>
    obtain ⟨hj, hbatch⟩ := List.forall_mem_cons.mp hcreates
    rcases List.mem_cons.mp hi with rfl | hi
    · obtain ⟨id, hplaced, hless, hnumbered⟩ := hstep.numbered haction
      refine ⟨e, he, hname, id, hplaced.steps hrest hbatch (List.mem_append_right _ ?_),
        hname ▸ hless⟩
      rw [hnumbered, hname]
      exact List.mem_singleton_self _
    · obtain ⟨d, hd, hdname, id, hplaced, hless⟩ := ih hbatch hi
      exact ⟨d, hd, hdname, id, hplaced, fun n hn ↦ hless n (List.mem_append_left _ hn)⟩

/-- Behind a batch of creates there are the rows of before and those that it placed. -/
theorem Steps.row_cases (h : c.Steps s given batch slots c' slots')
    (hcreates : ∀ i ∈ batch, i.creates) {x : Entry} (hrow : c'.row d n = some x) :
    c.row d n = some x ∨ ∃ i ∈ batch, i.entity = d ∧ slots'.id? i.ref = some n := by
  induction h with
  | nil => exact .inl hrow
  | @cons given j batch c c₁ c' slots slots₁ slots' e he hname hstep hrest ih =>
    obtain ⟨hj, hbatch⟩ := List.forall_mem_cons.mp hcreates
    rcases ih hbatch hrow with hold | ⟨i, hi, hentity, hid⟩
    · obtain ⟨inputs, haction⟩ := Instruction.creates_iff.mp hj
      obtain ⟨id, hnew, rfl, -, -, rfl⟩ := hstep.create haction
      by_cases hthis : d = e.name ∧ n = id
      · obtain ⟨rfl, rfl⟩ := hthis
        exact .inr ⟨j, List.mem_cons_self, hname.symm,
          hrest.id?_eq_some (Mapping.id?_assign_self hnew)⟩
      · exact .inl ((if_neg hthis).symm.trans hold)
    · exact .inr ⟨i, List.mem_cons_of_mem _ hi, hentity, hid⟩

/-- The numbers of an entity ascend in the order of its creates. -/
theorem Steps.ascending (h : c.Steps s given batch slots c' slots')
    (hcreates : ∀ i ∈ batch, i.creates) :
    batch.Pairwise fun i j ↦ i.entity = j.entity → ∀ n m, slots'.id? i.ref = some n →
      slots'.id? j.ref = some m → n < m := by
  induction h with
  | nil => exact .nil
  | @cons given i batch c c₁ c' slots slots₁ slots' e he hname hstep hrest ih =>
    obtain ⟨hi, hbatch⟩ := List.forall_mem_cons.mp hcreates
    refine List.pairwise_cons.mpr ⟨fun j hj hentity n m hn hm ↦ ?_, ih hbatch⟩
    obtain ⟨inputs, haction⟩ := Instruction.creates_iff.mp hi
    obtain ⟨inputs', haction'⟩ := Instruction.creates_iff.mp (hbatch j hj)
    obtain ⟨id, hplaced, -, hnumbered⟩ := hstep.numbered haction
    obtain ⟨d, hd, hdname, id', hplaced', hless⟩ := hrest.placed hbatch hj haction'
    obtain rfl := Option.some.inj ((hrest.id?_eq_some hplaced.number).symm.trans hn)
    obtain rfl := Option.some.inj (hplaced'.number.symm.trans hm)
    refine hless _ (List.mem_append_right _ ?_)
    rw [hnumbered, hentity]
    exact List.mem_singleton_self _

end Content

end EntityStore
