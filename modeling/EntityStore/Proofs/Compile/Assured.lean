import EntityStore.Proofs.Compile.Acceptance

/-!
Properties that compiling alone fills: whatever the store demands, no compiled create leaves them
out and no compiled instruction sets them to null (`Schema.Compiles.assured`).
-/

set_option autoImplicit false

namespace EntityStore

open EntityStore.Language (Node UpdateEntry)

/-- A property that has to be given and whose column holds more than null then: the owner, or a
field. A number with fraction may be undefined, which is stored as null, and a derivation may yield
null. -/
def Property.isAssured (p : Property) : Bool :=
  p.input && match p.kind with
    | .field f => !f.optional && f.derive.isNone && f.type.affinity != .real
    | .reference r => p.isParent && !r.optional
    | .collection _ => false

/-- What inputs say of the properties that are assured. -/
def Entity.SetsNoNull (e : Entity) (inputs : Inputs) : Prop :=
  ∀ p ∈ e.properties, p.isAssured → ∀ v, (p.name, .value v) ∈ inputs → ¬v.isNull

/-- A create gives every property that is assured, and no instruction sets one to null. -/
def Instruction.Assured (s : Schema) (i : Instruction) : Prop :=
  ∃ e ∈ s.entities, e.name = i.entity ∧ match i.action with
    | .create inputs =>
      e.SetsNoNull inputs ∧ ∀ p ∈ e.properties, p.isAssured → ∃ v, (p.name, v) ∈ inputs
    | .update inputs => e.SetsNoNull inputs
    | .delete => True

namespace Property

variable {p : Property}

theorem isAssured_cases (h : p.isAssured) : p.input ∧ ¬p.isOptional ∧
    ((∃ f, p.kind = .field f ∧ ¬f.optional ∧ f.derive = none ∧ f.type.affinity ≠ .real) ∨
      ∃ r, p.kind = .reference r ∧ p.isParent) := by
  obtain ⟨name, input, kind, entity⟩ := p
  unfold isAssured at h
  obtain ⟨hinput, h⟩ := Bool.and_eq_true_iff.mp h
  cases kind with
  | field f =>
    simp only [Bool.and_eq_true, Bool.not_eq_true', Option.isNone_iff_eq_none, bne_iff_ne] at h
    have hrequired : ¬f.optional := Bool.eq_false_iff.mp h.1.1
    exact ⟨hinput, hrequired, .inl ⟨f, rfl, hrequired, h.1.2, h.2⟩⟩
  | reference r =>
    simp only [Bool.and_eq_true, Bool.not_eq_true'] at h
    exact ⟨hinput, Bool.eq_false_iff.mp h.2, .inr ⟨r, rfl, h.1⟩⟩
  | collection c => cases h

theorem affinity_of_isAssured {f : Field} (h : p.isAssured) (hkind : p.kind = .field f) :
    f.type.affinity ≠ .real := by
  obtain ⟨-, -, ⟨g, hg, -, -, hreal⟩ | ⟨r, hr, -⟩⟩ := isAssured_cases h
  · cases hkind.symm.trans hg
    exact hreal
  · cases hkind.symm.trans hr

/-- The owner is the only relation that is assured. -/
theorem isParent_of_isAssured (h : p.isAssured) (hrelation : p.relation? ≠ none) : p.isParent := by
  obtain ⟨-, -, ⟨f, hkind, -⟩ | ⟨r, -, hparent⟩⟩ := isAssured_cases h
  · exact absurd (by simp [relation?, hkind]) hrelation
  · exact hparent

/-- Only an optional field is without a value. -/
theorem not_isAssured {f : Field} (hkind : p.kind = .field f) (h : f.optional ∨ f.derive.isSome) :
    ¬p.isAssured := by
  intro hassured
  obtain ⟨-, -, ⟨g, hg, hrequired, hderive, -⟩ | ⟨r, hr, -⟩⟩ := isAssured_cases hassured
  · cases hkind.symm.trans hg
    rcases h with h | h
    · exact hrequired h
    · rw [hderive] at h
      cases h
  · cases hkind.symm.trans hr

end Property

/-- A value that is not null is not stored as null, unless it is a number with fraction. -/
theorem FieldType.cell_ne_null {t : FieldType} {v : Value} (hholds : t.Holds v) (hnull : ¬v.isNull)
    (hreal : t.affinity ≠ .real) : (t.column v).cell ≠ .null := by
  unfold column
  rw [if_neg hnull]
  split
  · exact nofun
  · next hcontainer =>
    have htype := (hholds.resolve_left hnull).resolve_left hcontainer
    cases v <;> cases htype <;> first | exact absurd rfl hreal | (intro h; cases h)

namespace Update

variable {s : Schema} {args : Args} {e : Entity} {p : Property} {key : PropertyKey}
  {change : UpdateEntry Value} {v : Value} {named : List String}
  {body : List (String × UpdateEntry Value)}

theorem entry_optional (h : entry args key p change = .ok (.value v)) (hnull : v.isNull) :
    ∃ f, p.kind = .field f ∧ f.optional := by
  unfold entry at h
  split at h
  · next f n hkind =>
    obtain ⟨w, hw, heq⟩ := Except.map_eq_ok.mp h
    cases heq
    obtain ⟨raw, -, htakes⟩ := Node.fieldValue_eq_ok.mp hw
    exact ⟨f, hkind, htakes.optional hnull⟩
  · cases h
  · cases h
  · cases h
  · split at h
    · obtain ⟨w, -, heq⟩ := Except.map_eq_ok.mp h
      cases heq
    · split at h <;> cases h
  · cases h
  · split at h
    · cases h
    · split at h
      · cases h
      · obtain ⟨w, -, heq⟩ := Except.map_eq_ok.mp h
        cases heq
  · obtain ⟨rows, heq⟩ := links_ok h
    cases heq

theorem entries_assured (he : e.WellFormed) :
    e.SetsNoNull ((entries args e named body).filterMap Except.toOption) := by
  induction body generalizing named with
  | nil => exact fun _ _ _ _ ↦ nofun
  | cons x body ih =>
    obtain ⟨name, change⟩ := x
    intro p hp hassured v hv hnull
    rw [entries_cons] at hv
    obtain ⟨outcome, houtcome, hv⟩ := List.mem_filterMap.mp hv
    rcases List.mem_cons.mp houtcome with rfl | houtcome
    · obtain ⟨q, hadmitted, h⟩ := Except.bind_eq_ok.mp (Except.toOption_eq_some_iff.mp hv)
      obtain ⟨w, hentry, h⟩ := Except.bind_eq_ok.mp h
      cases h
      obtain ⟨hq, hname, -⟩ := admitted_ok he hadmitted
      obtain rfl := he.indexed.eq_of_name_eq hq hp hname
      obtain ⟨f, hkind, hoptional⟩ := entry_optional hentry hnull
      exact Property.not_isAssured hkind (.inl hoptional) hassured
    · exact ih p hp hassured v (List.mem_filterMap.mpr ⟨outcome, houtcome, hv⟩) hnull

end Update

namespace Schema

variable {s : Schema} {i : Instruction}

/-- What is assured is given and not null in every compiled instruction. -/
theorem Compiles.assured (hs : s.WellFormed) (h : s.Compiles i) : i.Assured s := by
  cases h with
  | create h hi =>
    have hshaped := compileCreate_shaped hs h i hi
    obtain ⟨x, e, hfits, -, -, -, hinstructions, -⟩ := compileCreate_place hs h
    rw [hinstructions] at hi
    obtain ⟨y, hy, rfl⟩ := List.mem_map.mp hi
    obtain ⟨d, hd⟩ := hfits.places y hy
    have hfilled := hd.filled hs
    obtain ⟨d', hd', hname, hcreates⟩ := hshaped.entity
    obtain rfl : d' = d := hs.indexed.eq_of_name_eq hd' hd.mem (hname.trans hd.name.symm)
    refine ⟨_, hd', hname, fun p hp hassured v hv hnull ↦ ?_, fun p hp hassured ↦ ?_⟩
    · obtain ⟨-, -, ⟨f, hkind, -⟩ | ⟨r, hkind, -⟩⟩ := Property.isAssured_cases hassured
      · obtain ⟨w, heq, hor, -⟩ := hfilled.value p hp f hkind _ hv
        cases heq
        exact Property.not_isAssured hkind (hor hnull) hassured
      · obtain ⟨-, q, hq, hname, f, hf, -⟩ := hcreates.property _ hv
        obtain rfl := (hs.entity _ hd').indexed.eq_of_name_eq hq hp hname
        cases hkind.symm.trans hf
    · obtain ⟨hinput, hrequired, -⟩ := Property.isAssured_cases hassured
      obtain ⟨v, hv, -⟩ := hfilled.complete p (List.mem_filter.mpr ⟨hp, hinput⟩) hrequired
      exact ⟨v, hv⟩
  | update h =>
    obtain ⟨e, ref, hget, -, -, rfl⟩ := compileUpdate_ok_iff.mp h
    obtain ⟨he, -⟩ := (get?_eq_some_iff hs).mp hget
    exact ⟨e, he, rfl, Update.entries_assured (hs.entity e he)⟩
  | delete h =>
    obtain ⟨e, ref, hget, -, rfl⟩ := compileDelete_ok_iff.mp h
    exact ⟨e, ((get?_eq_some_iff hs).mp hget).1, rfl, trivial⟩

end Schema

end EntityStore
