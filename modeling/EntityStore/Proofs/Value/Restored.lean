import EntityStore.Proofs.Value.Numeral

/-!
Which values can be read back from what is stored of them: those without an infinite or undefined
number inside a list or map, unless they are nested too deep (`FieldType.exists_readCell`).
-/

set_option autoImplicit false

namespace EntityStore

/-! ### Numbers -/

namespace Binary

open Stored (Answers decimalValue decimalValue_write stores_double stores_single)

/-- What is stored of a number of 64 bits is read as a number. -/
theorem Fits.answers_double {x : Binary} (h : x.Fits .double) (expected : String) :
    Answers (decimalValue .double expected) (DecimalStyle.storedDouble.write .double x) := by
  cases x with
  | nan => exact h.elim
  | infinite s => exact h.elim
  | finite s m q =>
    obtain ⟨hm, hlow, hhigh⟩ : m < Layout.double.carry ∧ Layout.double.lowest ≤ q ∧
      q ≤ Layout.double.highest := h
    exact decimalValue_write stores_double rfl (Decimal.scales_shortest hm hlow hhigh (.inl rfl))

/-- What is stored of a number of 32 bits is read as a number. -/
theorem Fits.answers_single {x : Binary} (h : x.Fits .single) (expected : String) :
    Answers (decimalValue .single expected) (DecimalStyle.storedSingle.write .single x) := by
  cases x with
  | nan => exact h.elim
  | infinite s => exact h.elim
  | finite s m q =>
    obtain ⟨hm, hlow, hhigh⟩ : m < Layout.single.carry ∧ Layout.single.lowest ≤ q ∧
      q ≤ Layout.single.highest := h
    have hless : q < Layout.double.highest := hhigh.trans_lt (by decide)
    refine decimalValue_write stores_single rfl
      (Decimal.scales_shortest (hm.trans (by decide)) ?_ hless.le (.inr ?_))
    · exact Int.le_trans (show Layout.double.lowest ≤ Layout.single.lowest by decide) hlow
    · exact fun heq ↦ hless.ne (Prod.mk.inj heq).2

end Binary

/-! ### Values -/

namespace Value

mutual

/-- A value all of whose numbers are finite. -/
def Finite : Value → Prop
  | .float x => x.Fits .single
  | .double x => x.Fits .double
  | .list items => FiniteItems items
  | .map entries => FiniteEntries entries
  | _ => True

def FiniteItems : List Value → Prop
  | [] => True
  | v :: vs => v.Finite ∧ FiniteItems vs

def FiniteEntries : List (String × Value) → Prop
  | [] => True
  | (_, v) :: es => v.Finite ∧ FiniteEntries es

end

mutual

def decidableFinite : ∀ v : Value, Decidable v.Finite
  | .float x => inferInstanceAs (Decidable (x.Fits .single))
  | .double x => inferInstanceAs (Decidable (x.Fits .double))
  | .list vs => decidableFiniteItems vs
  | .map es => decidableFiniteEntries es
  | .null | .text _ | .int _ | .long _ | .bool _ | .time _ | .date _ | .dateTime _ => isTrue trivial

def decidableFiniteItems : ∀ vs : List Value, Decidable (FiniteItems vs)
  | [] => isTrue trivial
  | v :: vs => @instDecidableAnd _ _ v.decidableFinite (decidableFiniteItems vs)

def decidableFiniteEntries : ∀ es : List (String × Value), Decidable (FiniteEntries es)
  | [] => isTrue trivial
  | (_, v) :: es => @instDecidableAnd _ _ v.decidableFinite (decidableFiniteEntries es)

end

instance (v : Value) : Decidable v.Finite :=
  v.decidableFinite

/-- A value that a list or map can hold: its numbers are finite, and it is not nested too deep. -/
structure Storable (v : Value) : Prop where
  finite : v.Finite
  nesting : v.nesting ≤ 127

instance (v : Value) : Decidable v.Storable :=
  decidable_of_iff (v.Finite ∧ v.nesting ≤ 127) ⟨fun h ↦ ⟨h.1, h.2⟩, fun h ↦ ⟨h.1, h.2⟩⟩

end Value

namespace Stored

mutual

/-- A value whose numbers are finite is read wherever it may be nested as deep. -/
theorem exists_readsBack : ∀ (v : Value) (d : Nat) (bare : Reader Value), v.Finite → v.nesting ≤ d →
    ∃ w, ReadsBack (value d bare) v w
  | .float x, d, bare, h, hd => by
    obtain ⟨y, hy⟩ := Binary.Fits.answers_single h "f32"
    exact ⟨.float y,
      reads_scalar (v := .float x) hd (show "float" ∈ StoredFault.kinds by decide) rfl
      (fun _ rest ↦ (hy rest).answer Value.float) bare⟩
  | .double x, d, bare, h, hd => by
    obtain ⟨y, hy⟩ := Binary.Fits.answers_double h "f64"
    exact ⟨.double y,
      reads_scalar (v := .double x) hd (show "double" ∈ StoredFault.kinds by decide) rfl
      (fun _ rest ↦ (hy rest).answer Value.double) bare⟩
  | .list vs, d, bare, h, hd => by
    obtain ⟨d, rfl⟩ := Nat.exists_eq_add_of_le' (Nat.le_trans (Nat.le_add_left 2 _) hd)
    obtain ⟨ws, hws⟩ := exists_readsBack_items vs d bareInArray h (Nat.le_of_add_le_add_right hd)
    exact ⟨_, reads_list hws⟩
  | .map es, d, bare, h, hd => by
    obtain ⟨d, rfl⟩ := Nat.exists_eq_add_of_le' (Nat.le_trans (Nat.le_add_left 2 _) hd)
    obtain ⟨fs, hfs⟩ := exists_readsBack_entries es d bareInObject h (Nat.le_of_add_le_add_right hd)
    exact ⟨_, reads_map hfs⟩
  | .null, d, bare, _, hd => ⟨_, reads_value .null d bare trivial hd⟩
  | .text s, d, bare, _, hd => ⟨_, reads_value (.text s) d bare trivial hd⟩
  | .int n, d, bare, _, hd => ⟨_, reads_value (.int n) d bare trivial hd⟩
  | .long n, d, bare, _, hd => ⟨_, reads_value (.long n) d bare trivial hd⟩
  | .bool b, d, bare, _, hd => ⟨_, reads_value (.bool b) d bare trivial hd⟩
  | .time t, d, bare, _, hd => ⟨_, reads_value (.time t) d bare trivial hd⟩
  | .date t, d, bare, _, hd => ⟨_, reads_value (.date t) d bare trivial hd⟩
  | .dateTime t, d, bare, _, hd => ⟨_, reads_value (.dateTime t) d bare trivial hd⟩

theorem exists_readsBack_items :
    ∀ (vs : List Value) (d : Nat) (bare : Reader Value), Value.FiniteItems vs →
    Value.nestingItems vs ≤ d → ∃ ws, List.Forall₂ (ReadsBack (value d bare)) vs ws
  | [], _, _, _, _ => ⟨[], .nil⟩
  | v :: vs, d, bare, h, hd => by
    obtain ⟨w, hw⟩ := exists_readsBack v d bare h.1 (Nat.le_trans (Nat.le_max_left _ _) hd)
    obtain ⟨ws, hws⟩ :=
      exists_readsBack_items vs d bare h.2 (Nat.le_trans (Nat.le_max_right _ _) hd)
    exact ⟨w :: ws, .cons hw hws⟩

theorem exists_readsBack_entries : ∀ (es : List (String × Value)) (d : Nat) (bare : Reader Value),
    Value.FiniteEntries es → Value.nestingEntries es ≤ d →
    ∃ fs, List.Forall₂ (EntryReadsBack (value d bare)) es fs
  | [], _, _, _, _ => ⟨[], .nil⟩
  | (key, v) :: es, d, bare, h, hd => by
    obtain ⟨w, hw⟩ := exists_readsBack v d bare h.1 (Nat.le_trans (Nat.le_max_left _ _) hd)
    obtain ⟨fs, hfs⟩ :=
      exists_readsBack_entries es d bare h.2 (Nat.le_trans (Nat.le_max_right _ _) hd)
    exact ⟨(key, w) :: fs, .cons ⟨rfl, hw⟩ hfs⟩

end

end Stored

/-- The stored text of a value that a list or map can hold is read back. -/
theorem Value.Storable.exists_readStored {v : Value} (h : v.Storable) :
    ∃ w, Value.readStored (String.ofList v.stored) = .ok w := by
  obtain ⟨w, hw⟩ := Stored.exists_readsBack v 127 Stored.bareAlone h.finite h.nesting
  exact ⟨w, Value.readStored_eq hw⟩

namespace FieldType

/-- A number is stored as a number, or as null if it is undefined, and a field of numbers reads
both. -/
theorem exists_readCell_number {t : FieldType} {v : Value} {x : Binary}
    (ht : t = .float ∨ t = .double) (hcolumn : t.column v = v) (hv : v.cell = .ofBinary x) :
    ∃ w, t.readCell (t.cell v) = .ok w := by
  unfold cell
  rw [hcolumn, hv]
  unfold Cell.ofBinary
  cases x.isNaN <;> rcases ht with rfl | rfl <;> exact ⟨_, rfl⟩

/-- What a field holds of a value can be read, if in a list or map the value is one that these can
hold. -/
theorem exists_readCell {t : FieldType} {v : Value} (h : t.Holds v)
    (hstorable : t.isContainer → v.Storable) :
    ∃ w, t.readCell (t.cell v) = .ok w := by
  by_cases hnull : v.isNull
  · exact ⟨_, readCell_null hnull⟩
  by_cases hcontainer : t.isContainer
  · obtain ⟨w, hread⟩ := (hstorable hcontainer).exists_readStored
    have hcell : t.cell v = .text (String.ofList v.stored) := by
      unfold cell column
      rw [if_neg hnull, if_pos hcontainer]
      rfl
    refine ⟨w, ?_⟩
    rw [hcell]
    cases t <;> cases hcontainer
    all_goals
      unfold readCell
      dsimp only
      rw [hread]
  · have htype : v.type? = some t := (h.resolve_left hnull).resolve_left hcontainer
    cases v with
    | null => exact absurd rfl hnull
    | list => cases htype; exact absurd rfl hcontainer
    | map => cases htype; exact absurd rfl hcontainer
    | float x =>
      cases htype
      exact exists_readCell_number (.inl rfl) rfl rfl
    | double x =>
      cases htype
      exact exists_readCell_number (.inr rfl) rfl rfl
    | text | int | long | bool | time | date | dateTime =>
      exact ⟨_, readCell_cell h trivial fun hc ↦ absurd hc hcontainer⟩

end FieldType

end EntityStore
