import EntityStore.Proofs.Compile.Transaction

/-!
Compiled instructions tell the policy every property that they write: the inputs of a create, those
that were derived and the owner of a nested row among them, and the inputs of an update.
-/

set_option autoImplicit false

namespace EntityStore

theorem Accessed.mem_ofNames {entity : String} {names : List String} {k : PropertyKey} :
    k ∈ ofNames entity names ↔ k.entity = entity ∧ k.property ∈ names := by
  suffices h : ∀ keys : Accessed, k ∈ names.foldl
      (fun keys name ↦ insert ⟨entity, name⟩ keys) keys ↔
      k ∈ keys ∨ k.entity = entity ∧ k.property ∈ names from
    (h []).trans (or_iff_right List.not_mem_nil)
  induction names with
  | nil => simp
  | cons name names ih =>
    intro keys
    rw [List.foldl_cons, ih, mem_insert, List.mem_cons]
    obtain ⟨d, p⟩ := k
    simp only [PropertyKey.mk.injEq]
    constructor
    · rintro ((⟨rfl, rfl⟩ | h) | ⟨rfl, h⟩)
      · exact .inr ⟨rfl, .inl rfl⟩
      · exact .inl h
      · exact .inr ⟨rfl, .inr h⟩
    · rintro (h | ⟨rfl, rfl | h⟩)
      · exact .inl (.inr h)
      · exact .inl (.inl ⟨rfl, rfl⟩)
      · exact .inr ⟨rfl, h⟩

/-- The properties that an instruction writes. -/
def Instruction.Writes (i : Instruction) (name : String) : Prop :=
  ∃ x ∈ i.action.inputs, x.1 = name

/-- An instruction tells the policy all that it writes. -/
def Instruction.Tells (i : Instruction) : Prop :=
  ∀ name, i.Writes name → ⟨i.entity, name⟩ ∈ i.accessed

theorem Draft.Place.instruction_tells (x : Place) : x.instruction.Tells := by
  rintro name ⟨y, hy, rfl⟩
  refine Accessed.mem_ofNames.mpr ⟨rfl, List.mem_append.mpr ?_⟩
  rcases List.mem_append.mp hy with hy | hy
  · exact .inl (List.mem_map_of_mem hy)
  · obtain ⟨d, next, hentry, -⟩ := mem_numberRow_entry hy
    exact .inr (List.mem_map.mpr ⟨_, hentry, rfl⟩)

/-- The outcomes of the entries of an update stand under their names. -/
theorem Update.mem_entries {args : Args} {e : Entity} {named : List String}
    {body : List (String × Language.UpdateEntry Value)} {x : String × InputValue}
    (hx : x ∈ (entries args e named body).filterMap Except.toOption) : x.1 ∈ body.map Prod.fst := by
  induction body generalizing named with
  | nil => cases hx
  | cons y body ih =>
    obtain ⟨name, change⟩ := y
    rw [entries_cons] at hx
    obtain ⟨outcome, hmem, hx⟩ := List.mem_filterMap.mp hx
    rcases List.mem_cons.mp hmem with rfl | hmem
    · obtain ⟨p, -, hentry⟩ := Except.bind_eq_ok.mp (Except.toOption_eq_some_iff.mp hx)
      obtain ⟨v, -, hentry⟩ := Except.bind_eq_ok.mp hentry
      cases hentry
      exact List.mem_cons_self
    · exact List.mem_cons_of_mem _ (ih (List.mem_filterMap.mpr ⟨outcome, hmem, hx⟩))

theorem Schema.Compiles.tells {s : Schema} (hs : s.WellFormed) {i : Instruction}
    (h : s.Compiles i) : i.Tells := by
  cases h with
  | create h hi =>
    obtain ⟨x, -, -, -, -, -, hinstructions, -⟩ := compileCreate_place hs h
    rw [hinstructions] at hi
    obtain ⟨y, -, rfl⟩ := List.mem_map.mp hi
    exact y.instruction_tells
  | update h =>
    obtain ⟨e, ref, -, -, -, rfl⟩ := Schema.compileUpdate_ok_iff.mp h
    rintro name ⟨x, hx, rfl⟩
    exact Accessed.mem_ofNames.mpr ⟨rfl, List.mem_cons_of_mem _ (Update.mem_entries hx)⟩
  | delete h =>
    obtain ⟨e, ref, -, -, rfl⟩ := Schema.compileDelete_ok_iff.mp h
    rintro name ⟨x, hx, rfl⟩
    cases hx

end EntityStore
