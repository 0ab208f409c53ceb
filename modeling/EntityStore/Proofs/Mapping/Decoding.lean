import EntityStore.Proofs.Mapping.Listing
import EntityStore.Proofs.Value.Restored

/-!
What is stored can be read. Where the instructions of committed batches give lists and maps only
values that these can hold, every row of the store has in the column of each field what reads under
the type of the field (`Store.ArisesBy.decodes`).
-/

set_option autoImplicit false

namespace EntityStore

open Mapping (bootstrap execute)
open Query (HasField)

/-! ### Stores that batches of some kind lead to -/

/-- The stores that batches lead to from a new store, each instruction of a committed batch being of
a kind. -/
inductive Store.ArisesBy (P : Instruction → Prop) (s : Schema) (enforced : Bool) :
    List (String × Int64) → Store → Prop where
  | new {t t' : Session} (hempty : t.store = .empty enforced)
      (hrun : (bootstrap s).run t = (.ok (), t')) :
      ArisesBy P s enforced [] t'.store
  | committed {given : List (String × Int64)} {batch : List Instruction} {t t' : Session}
      (h : ArisesBy P s enforced given t.store) (hbatch : ∀ i ∈ batch, s.Compiles i)
      (hkind : ∀ i ∈ batch, P i) (hrun : (execute s batch).run t = (.ok (), t')) :
      ArisesBy P s enforced (given ++ batch.flatMap (·.numbered t'.slots)) t'.store
  | failed {given : List (String × Int64)} {batch : List Instruction}
      {t t' : Session} {error : Error} (h : ArisesBy P s enforced given t.store)
      (hbatch : ∀ i ∈ batch, s.Compiles i) (hrun : (execute s batch).run t = (.error error, t')) :
      ArisesBy P s enforced given t'.store

variable {P : Instruction → Prop} {s : Schema} {enforced : Bool}
  {given : List (String × Int64)} {store : Store}

theorem Store.ArisesBy.arises (h : store.ArisesBy P s enforced given) :
    store.Arises s enforced given := by
  induction h with
  | new hempty hrun => exact .new hempty hrun
  | committed _ hbatch _ hrun ih => exact .committed ih hbatch hrun
  | failed _ hbatch hrun ih => exact .failed ih hbatch hrun

/-! ### Rows that can be read -/

/-- An input that a list or map can hold. -/
def InputValue.Storable : InputValue → Prop
  | .value v => v.Storable
  | _ => True

instance (x : InputValue) : Decidable x.Storable :=
  match x with
  | .value v => inferInstanceAs (Decidable v.Storable)
  | .ref _ | .refs _ | .link .. | .links _ => isTrue trivial

/-- Inputs give lists and maps only values that these can hold. -/
def Entity.Stores (e : Entity) (inputs : Inputs) : Prop :=
  ∀ p ∈ e.properties, ∀ f ∈ p.field?, f.type.isContainer → ∀ x ∈ inputs, x.1 = p.name → x.2.Storable

instance (e : Entity) (inputs : Inputs) : Decidable (e.Stores inputs) :=
  inferInstanceAs
    (Decidable (∀ p ∈ e.properties, ∀ f ∈ p.field?, f.type.isContainer →
    ∀ x ∈ inputs, x.1 = p.name → x.2.Storable))

/-- An instruction gives lists and maps only values that these can hold. -/
def Instruction.Storable (s : Schema) (i : Instruction) : Prop :=
  ∀ e ∈ s.entities, e.name = i.entity → e.Stores i.action.inputs

instance (s : Schema) (i : Instruction) : Decidable (i.Storable s) :=
  inferInstanceAs (Decidable (∀ e ∈ s.entities, e.name = i.entity → e.Stores i.action.inputs))

/-- A row holds for every field of its entity what reads under the type of the field. -/
def Entry.Decodes (e : Entity) (x : Entry) : Prop :=
  ∀ p ∈ e.properties, ∀ f, p.kind = .field f → ∃ v, f.type.readCell (x.value p.name) = .ok v

namespace Content

/-- All rows can be read. -/
def Decodes (s : Schema) (c : Content) : Prop :=
  ∀ e ∈ s.entities, ∀ id x, c.row e.name id = some x → x.Decodes e

variable {e : Entity} {p : Property} {f : Field} {inputs : Inputs} {i : Instruction}
  {batch : List Instruction} {c c' : Content} {slots slots' : Slots}

/-- What inputs give a field can be read. -/
theorem given_decodes (hs : s.WellFormed) (he : e ∈ s.entities) (hsets : e.Sets inputs)
    (hstores : e.Stores inputs) (hp : p ∈ e.properties) (hkind : p.kind = .field f) {cell : Cell}
    (hcell : e.given inputs p.name = some cell) :
    ∃ v, f.type.readCell cell = .ok v := by
  have hget : (e.get? p.name).bind Property.field? = some f := by
    rw [(Entity.get?_eq_some_iff (hs.entity e he)).mpr ⟨hp, rfl⟩]
    exact Property.field?_eq_some_iff.mpr hkind
  unfold Entity.given at hcell
  rw [hget] at hcell
  split at hcell
  · next g w hg hlookup =>
    obtain rfl := Option.some.inj hg
    obtain rfl := Option.some.inj hcell
    have hmem := mem_of_lookup hlookup
    rcases Mapping.sets_of_lookup hs he hsets hp hmem with ⟨g, v, hg, hv, hholds⟩ | ⟨-, hvalue, -⟩
    · cases hkind.symm.trans hg
      cases hv
      exact FieldType.exists_readCell hholds fun hcontainer ↦
        hstores p hp f (Property.field?_eq_some_iff.mpr hkind) hcontainer _ hmem rfl
    · cases hvalue
  · cases hcell

theorem Decodes.step (hs : s.WellFormed) (h : c.Decodes s) (he : e ∈ s.entities)
    (hname : e.name = i.entity) (hshaped : i.Shaped s) (hstorable : i.Storable s)
    (hstep : Step given e i c slots c' slots') : c'.Decodes s := by
  obtain ⟨d, hd, hdname, hinputs⟩ := hshaped.entity
  obtain rfl := hs.eq_of_name_eq hd he (hdname.trans hname.symm)
  have hstores := hstorable d he hname
  intro e' he' n x hx
  unfold Step at hstep
  cases haction : i.action with
  | create inputs =>
    rw [haction] at hstep hinputs hstores
    obtain ⟨id, -, -, -, -, rfl⟩ := hstep
    unfold create at hx
    dsimp only at hx
    split at hx
    · next hnew =>
      obtain rfl := hs.eq_of_name_eq he' he hnew.1
      obtain rfl := Option.some.inj hx
      intro p hp f hkind
      dsimp only
      cases hgiven : e'.given inputs p.name with
      | none => exact ⟨.null, by cases f.type <;> rfl⟩
      | some cell => exact given_decodes hs he (hinputs.sets hs he) hstores hp hkind hgiven
    · exact h e' he' n x hx
  | update inputs =>
    rw [haction] at hstep hinputs hstores
    obtain ⟨id, -, -, -, -, rfl⟩ := hstep
    unfold update at hx
    dsimp only at hx
    split at hx
    · next hold =>
      obtain rfl := hs.eq_of_name_eq he' he hold.1
      obtain ⟨y, hy, rfl⟩ := Option.map_eq_some_iff.mp hx
      intro p hp f hkind
      dsimp only
      cases hgiven : e'.given inputs p.name with
      | none => exact h e' he n y hy p hp f hkind
      | some cell => exact given_decodes hs he (hinputs.sets hs he) hstores hp hkind hgiven
    · exact h e' he' n x hx
  | delete =>
    rw [haction] at hstep
    obtain ⟨id, -, -, -, rfl⟩ := hstep
    rw [putRow_row] at hx
    split at hx
    · cases hx
    · exact h e' he' n x hx

theorem Decodes.steps (hs : s.WellFormed) (h : c.Decodes s) (hshaped : ∀ i ∈ batch, i.Shaped s)
    (hstorable : ∀ i ∈ batch, i.Storable s) (hsteps : c.Steps s given batch slots c' slots') :
    c'.Decodes s := by
  induction hsteps with
  | nil => exact h
  | cons he hname hstep _ ih =>
    obtain ⟨hfirst, hshaped⟩ := List.forall_mem_cons.mp hshaped
    obtain ⟨hfirst', hstorable⟩ := List.forall_mem_cons.mp hstorable
    exact ih (h.step hs he hname hfirst hfirst' hstep) hshaped hstorable

end Content

namespace Store

/-- Every row of the store can be read. -/
def Decodes (s : Schema) (store : Store) : Prop :=
  ∀ e ∈ s.entities, ∀ a ∈ store.records e.name, ∀ p ∈ e.properties, ∀ f, p.kind = .field f →
    ∃ v, f.type.readCell (a.cell p.name) = .ok v

theorem ArisesBy.content (hs : s.WellFormed) (hdistinct : s.Distinct)
    (h : store.ArisesBy (·.Storable s) s enforced given) : (store.content s).Decodes s := by
  induction h with
  | new hempty hrun =>
    rw [(shows_bootstrap hs hdistinct hempty hrun).content]
    exact fun _ _ _ _ ↦ nofun
  | committed hbefore hbatch hstorable hrun ih =>
    obtain ⟨c, top, -, hshows, hgiven⟩ := hbefore.arises.shows hs hdistinct
    have hshaped := fun i hi ↦ (hbatch i hi).shaped hs
    obtain ⟨c', top', hsteps, hshows', -⟩ := Mapping.execute_ok hs hshaped hshows hgiven hrun
    rw [hshows.content] at ih
    rw [hshows'.content]
    exact ih.steps hs hshaped hstorable hsteps
  | failed _ _ hrun ih =>
    rw [Mapping.execute_error hrun]
    exact ih

/-- Rows that committed batches leave can be read, if these give lists and maps only values that
they can hold. -/
theorem ArisesBy.decodes (hs : s.WellFormed) (hdistinct : s.Distinct)
    (h : store.ArisesBy (·.Storable s) s enforced given) : store.Decodes s := by
  obtain ⟨c, top, -, hshows, -⟩ := h.arises.shows hs hdistinct
  intro e he a ha p hp f hkind
  by_cases hname : p.name = idName
  · obtain rfl := (hs.entity e he).eq_id hp hname
    cases hkind
    rw [Property.id, (h.arises.models hs hdistinct).cell_id he ha]
    exact ⟨_, rfl⟩
  · rw [hshows.shaped.field_cell hs he hp hkind hname ha]
    have hrow := (hshows.shaped.row_iff hs he).mpr ⟨a, ha, rfl, rfl⟩
    exact h.content hs hdistinct e he a.row.id a.row.entry hrow p hp f hkind

end Store

end EntityStore
