import EntityStore.Proofs.Mapping.Writing

/-!
Writing a batch makes the steps of its instructions one after the other, or leaves the store as it
was.
-/

set_option autoImplicit false

namespace EntityStore

open Mapping

/-- The number that a create gave its row. -/
def Instruction.numbered (slots : Slots) (i : Instruction) : List (String × Int64) :=
  match i.action with
  | .create _ => ((slots.id? i.ref).map (i.entity, ·)).toList
  | _ => []

namespace Content

/-- What a batch does to content and slots, step by step. -/
inductive Steps (s : Schema) :
    List (String × Int64) → List Instruction → Content → Slots → Content → Slots → Prop where
  | nil {given : List (String × Int64)} {c : Content} {slots : Slots} :
      Steps s given [] c slots c slots
  | cons {given : List (String × Int64)} {i : Instruction}
      {batch : List Instruction} {c c₁ c' : Content} {slots slots₁ slots' : Slots} {e : Entity}
      (he : e ∈ s.entities) (hname : e.name = i.entity) (hstep : Step given e i c slots c₁ slots₁)
      (hrest : Steps s (given ++ i.numbered slots₁) batch c₁ slots₁ c' slots') :
      Steps s given (i :: batch) c slots c' slots'

/-- Rows and owners of links were given numbers, the greatest of which are known. -/
structure Given (given : List (String × Int64)) (top : String → Int64) (c : Content) : Prop where
  row : ∀ d n, (c.row d n).isSome → (d, n) ∈ given
  links : ∀ d r o, c.links d r o ≠ [] → (d, o) ∈ given
  top : ∀ d n, (d, n) ∈ given → n ≤ top d

namespace Given

variable {given : List (String × Int64)} {top : String → Int64} {c : Content}
  {e : Entity} {inputs : Inputs} {slots : Slots} {id : Int64}

theorem create (h : c.Given given top) (hless : top e.name < id) :
    (c.create e inputs slots id).Given (given ++ [(e.name, id)]) fun d ↦ if d =
      e.name then id else top d where
  row d n hrow := by
    unfold Content.create at hrow
    dsimp only at hrow
    split at hrow
    · next hnew => simp [hnew]
    · exact List.mem_append_left _ (h.row d n hrow)
  links d r o hlinks := by
    unfold Content.create at hlinks
    dsimp only at hlinks
    split at hlinks
    · next hnew => simp [hnew]
    · exact List.mem_append_left _ (h.links d r o hlinks)
  top d n hmem := by
    rcases List.mem_append.mp hmem with hmem | hmem
    · have hle := h.top d n hmem
      split
      · next hd =>
        rw [hd] at hle
        exact Int64.le_of_lt (Int64.lt_of_le_of_lt hle hless)
      · exact hle
    · obtain ⟨rfl, rfl⟩ := Prod.mk.inj (List.mem_singleton.mp hmem)
      rw [if_pos rfl]
      exact Int64.le_refl n

theorem update (h : c.Given given top) (hsome : (c.row e.name id).isSome) :
    (c.update e inputs slots id).Given given top where
  row d n hrow := by
    unfold Content.update at hrow
    dsimp only at hrow
    split at hrow
    · next hold =>
      rw [hold.1, hold.2]
      exact h.row _ _ hsome
    · exact h.row d n hrow
  links d r o hlinks := by
    unfold Content.update at hlinks
    dsimp only at hlinks
    split at hlinks
    · next hold =>
      rw [hold.1, hold.2.1]
      exact h.row _ _ hsome
    · exact h.links d r o hlinks
  top := h.top

theorem delete (h : c.Given given top) : (c.putRow e.name id none).Given given top where
  row d n hrow := by
    rw [putRow_row] at hrow
    split at hrow
    · cases hrow
    · exact h.row d n hrow
  links := h.links
  top := h.top

end Given

section

variable {s : Schema} {i : Instruction} {batch : List Instruction} {c c₁ c' : Content}
  {slots slots₁ slots' : Slots} {given : List (String × Int64)}

/-- Numbers that a batch gave are kept to its end. -/
theorem Steps.id?_eq_some (h : Steps s given batch c slots c' slots')
    {row : RowRef} {n : Int64} (hrow : slots.id? row = some n) : slots'.id? row = some n := by
  induction h with
  | nil => exact hrow
  | @cons given i batch c c₁ c' slots slots₁ slots' e he hname hstep hrest ih =>
    refine ih ?_
    unfold Step at hstep
    split at hstep
    · obtain ⟨id, hnew, rfl, -⟩ := hstep
      exact id?_assign hnew hrow
    · obtain ⟨id, -, rfl, -⟩ := hstep
      exact hrow
    · obtain ⟨id, -, rfl, -⟩ := hstep
      exact hrow

/-- The number that a step gave its row is kept to the end of the batch. -/
theorem Steps.numbered_eq {e : Entity} {others : List (String × Int64)}
    (hstep : Step given e i c slots c₁ slots₁) (hrest : Steps s others batch c₁ slots₁ c' slots') :
    i.numbered slots' = i.numbered slots₁ := by
  unfold Step at hstep
  unfold Instruction.numbered
  cases haction : i.action with
  | create inputs =>
    rw [haction] at hstep
    obtain ⟨id, hnew, rfl, -⟩ := hstep
    have hid : (slots.assign i.ref id).id? i.ref = some id := id?_assign_self hnew
    rw [hid, hrest.id?_eq_some hid]
  | update inputs => rfl
  | delete => rfl

end

end Content

namespace Mapping

variable {s : Schema} {i : Instruction} {c : Content} {top : String → Int64} {t t' : Session}
  {given : List (String × Int64)} {batch : List Instruction}

/-- Writing an instruction makes its step. -/
theorem write_ok (hs : s.WellFormed) (hshaped : i.Shaped s) (h : t.store.Shows s c top)
    (hgiven : c.Given given top) (hrun : (write s i).run t = (.ok (), t')) :
      ∃ e ∈ s.entities, e.name = i.entity ∧ ∃ c' top',
      c.Step given e i t.slots c' t'.slots ∧ t'.store.Shows s c' top' ∧
      c'.Given (given ++ i.numbered t'.slots) top' := by
  obtain ⟨e, he, hname, hinputs⟩ := hshaped.entity
  refine ⟨e, he, hname, ?_⟩
  rw [write_eq hs he hname] at hrun
  unfold Content.Step Instruction.numbered
  cases haction : i.action with
  | create inputs =>
    rw [haction] at hrun hinputs
    obtain ⟨id, hnew, hslots, hless, hsettled, hshows⟩ := create_ok hs he hinputs h
      (fun r o hgreater ↦ not_imp_comm.mp (hgiven.links e.name r o) fun hmem ↦
        Int64.not_lt.mpr (hgiven.top _ _ hmem) hgreater) hrun
    refine ⟨_, _,
      ⟨id, hnew, hslots, fun n hn ↦ Int64.lt_of_le_of_lt (hgiven.top _ _ hn) hless, hsettled, rfl⟩,
      hshows, ?_⟩
    rw [hslots, id?_assign_self hnew, ← hname]
    exact hgiven.create hless
  | update inputs =>
    rw [haction] at hrun hinputs
    obtain ⟨id, hid, hslots, hsome, hsettled, hshows⟩ := update_ok hs he hinputs h hrun
    refine ⟨_, _, ⟨id, hid, hslots, hsome, hsettled, rfl⟩, hshows, ?_⟩
    rw [List.append_nil]
    exact hgiven.update hsome
  | delete =>
    rw [haction] at hrun
    obtain ⟨id, hid, hslots, hsome, hshows⟩ := delete_ok hs he h hrun
    refine ⟨_, _, ⟨id, hid, hslots, hsome, rfl⟩, hshows, ?_⟩
    rw [List.append_nil]
    exact hgiven.delete

theorem writeInBatch_ok (hrun : (writeInBatch s i).run t = (.ok (), t')) :
    (write s i).run t = (.ok (), t') := by
  unfold writeInBatch at hrun
  rw [Run.run_tryCatch] at hrun
  rcases hwrite : (write s i).run t with ⟨e | ⟨⟨⟩⟩, u⟩
  · rw [hwrite] at hrun
    obtain ⟨_, _, -, hrest⟩ := Run.run_bind_ok.mp hrun
    obtain ⟨_, _, -, hthrow⟩ := Run.run_bind_ok.mp hrest
    exact absurd hthrow Run.run_throw_ne_ok
  · rw [hwrite] at hrun
    exact hrun

/-- Writing the instructions of a batch makes their steps. -/
theorem writeAll_ok (hs : s.WellFormed) (hshaped : ∀ i ∈ batch, i.Shaped s)
    (h : t.store.Shows s c top) (hgiven : c.Given given top)
    (hrun : (batch.forM (writeInBatch s)).run t = (.ok (), t')) : ∃ c' top',
      c.Steps s given batch t.slots c' t'.slots ∧ t'.store.Shows s c' top' ∧
      c'.Given (given ++ batch.flatMap (·.numbered t'.slots)) top' := by
  induction batch generalizing t c top given with
  | nil =>
    obtain ⟨-, rfl⟩ := Run.run_pure_ok.mp hrun
    exact ⟨c, top, .nil, h, by simpa using hgiven⟩
  | cons i batch ih =>
    obtain ⟨⟨⟩, u, hfirst, hrest⟩ := Run.run_bind_ok.mp
      (show (writeInBatch s i >>= fun _ ↦ batch.forM (writeInBatch s)).run t = _ from hrun)
    obtain ⟨hi, hbatch⟩ := List.forall_mem_cons.mp hshaped
    obtain ⟨e, he, hname, c₁, top₁, hstep, hshows, hgiven₁⟩ :=
      write_ok hs hi h hgiven (writeInBatch_ok hfirst)
    obtain ⟨c', top', hsteps, hshows', hgiven'⟩ := ih hbatch hshows hgiven₁ hrest
    refine ⟨c', top', .cons he hname hstep hsteps, hshows', ?_⟩
    rwa [List.flatMap_cons, Content.Steps.numbered_eq hstep hsteps, ← List.append_assoc]

theorem run_execute (s : Schema) (batch : List Instruction) (t : Session) :
    (execute s batch).run t =
      match (batch.forM (writeInBatch s)).run
        { t with log := .executing batch.length :: t.log } with
      | (.ok _, t') => (.ok (), { t' with log := .committed batch.length :: t'.log })
      | (.error e, t') => (.error e, { t' with store := t.store }) := by
  have hlog (e : Event) (u : Session) :
    (Run.log e).run u = (.ok (), { u with log := e :: u.log }) := rfl
  unfold execute
  rw [Run.run_bind, hlog]
  dsimp only
  rw [Run.run_bind, Run.run_atomically]
  rcases (batch.forM (writeInBatch s)).run { t with log := .executing batch.length :: t.log } with
    ⟨_ | _, u⟩
  · rfl
  · rfl

/-- Writing a batch that succeeds makes its steps. -/
theorem execute_ok (hs : s.WellFormed) (hshaped : ∀ i ∈ batch, i.Shaped s)
    (h : t.store.Shows s c top) (hgiven : c.Given given top)
    (hrun : (execute s batch).run t = (.ok (), t')) : ∃ c' top',
      c.Steps s given batch t.slots c' t'.slots ∧ t'.store.Shows s c' top' ∧
      c'.Given (given ++ batch.flatMap (·.numbered t'.slots)) top' := by
  rw [run_execute] at hrun
  split at hrun
  · next u hall =>
    cases hrun
    have hsteps :=
      writeAll_ok hs hshaped (t := { t with log := .executing batch.length :: t.log }) h hgiven hall
    exact hsteps
  · cases hrun

/-- Writing a batch that fails leaves the store as it was. -/
theorem execute_error {error : Error} (hrun : (execute s batch).run t = (.error error, t')) :
    t'.store = t.store := by
  rw [run_execute] at hrun
  split at hrun
  · cases hrun
  · cases hrun
    rfl

end Mapping

end EntityStore
