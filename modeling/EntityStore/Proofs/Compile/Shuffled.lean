import EntityStore.Proofs.Compile.Acceptance
import EntityStore.Proofs.Compile.Scope
import Mathlib.Data.Multiset.AddSub

/-!
Drafts of rows with their entries in another order, at any depth. Such a draft gives its rows the
same inputs but other slots: the instructions are the same up to their order, the order of their
inputs and a renaming of the slots that they fill (`Draft.Shuffled.numbered`).
-/

set_option autoImplicit false

namespace EntityStore

/-! ### Names in another order -/

namespace PropertyKey

variable {j k l : PropertyKey}

theorem precedes_iff : j.precedes k ↔ j.entity < k.entity ∨ j.entity = k.entity ∧
    j.property < k.property := by
  simp [precedes]

theorem precedes_trans (h : j.precedes k) (h' : k.precedes l) : j.precedes l := by
  rw [precedes_iff] at *
  grind

theorem precedes_asymm (h : j.precedes k) : ¬k.precedes j := by
  rw [precedes_iff] at *
  grind

theorem precedes_total (h : j ≠ k) (h' : ¬j.precedes k) : k.precedes j := by
  obtain ⟨d, p⟩ := j
  obtain ⟨e, q⟩ := k
  rw [precedes_iff] at *
  grind

end PropertyKey

namespace Accessed

theorem insert_comm (j k : PropertyKey) (keys : Accessed) : insert j (insert k keys) = insert k
    (insert j keys) := by
  induction keys with
  | nil =>
    simp only [insert]
    grind [PropertyKey.precedes_trans, PropertyKey.precedes_asymm, PropertyKey.precedes_total]
  | cons l ls ih =>
    simp only [insert]
    grind [insert, PropertyKey.precedes_trans, PropertyKey.precedes_asymm,
      PropertyKey.precedes_total]

theorem ofNames_perm {names names' : List String} (h : names.Perm names') (entity : String) :
    ofNames entity names = ofNames entity names' :=
  h.foldl_eq' (fun _ _ _ _ keys ↦ insert_comm _ _ keys) []

end Accessed

theorem putSorted_comm {α : Type} {k l : String} (h : k ≠ l) (a b : α)
    (entries : List (String × α)) :
    putSorted k a (putSorted l b entries) = putSorted l b (putSorted k a entries) := by
  induction entries with
  | nil =>
    simp only [putSorted]
    grind
  | cons x entries ih =>
    obtain ⟨m, c⟩ := x
    simp only [putSorted]
    grind [putSorted]

/-! ### Renaming slots -/

def RowRef.rename (σ : Nat → Nat) : RowRef → RowRef
  | .known id => .known id
  | .pending slot => .pending (σ slot)

/-- A reference to a row that is known, or that gets its number in a slot below a bound. -/
def RowRef.Below (next : Nat) (r : RowRef) : Prop :=
  ∀ slot, r = .pending slot → slot < next

def InputValue.rename (σ : Nat → Nat) : InputValue → InputValue
  | .value v => .value v
  | .ref r => .ref (r.rename σ)
  | .refs rs => .refs (rs.map (RowRef.rename σ))
  | .link op r => .link op (r.rename σ)
  | .links ls => .links (ls.map fun l ↦ (l.1, l.2.rename σ))

def Inputs.rename (σ : Nat → Nat) (inputs : Inputs) : Inputs :=
  inputs.map fun x ↦ (x.1, x.2.rename σ)

namespace RowRef

variable {σ : Nat → Nat} {next : Nat} {r : RowRef}

theorem rename_rename (σ τ : Nat → Nat) (r : RowRef) :
    (r.rename σ).rename τ = r.rename (τ ∘ σ) := by
  cases r <;> rfl

theorem Below.mono {next' : Nat} (h : r.Below next) (hle : next ≤ next') : r.Below next' :=
  fun slot hslot ↦ Nat.lt_of_lt_of_le (h slot hslot) hle

theorem Below.rename_eq (h : r.Below next) (hσ : ∀ slot < next, σ slot = slot) :
    r.rename σ = r := by
  cases r with
  | known id => rfl
  | pending slot => exact congrArg pending (hσ slot (h slot rfl))

end RowRef

namespace InputValue

theorem rename_rename (σ τ : Nat → Nat) (v : InputValue) :
    (v.rename σ).rename τ = v.rename (τ ∘ σ) := by
  cases v <;> simp [rename, RowRef.rename_rename, Function.comp_def]

theorem rename_eq {σ : Nat → Nat} {v : InputValue} (h : ∀ r ∈ v.rows, r.rename σ = r) :
    v.rename σ = v := by
  cases v with
  | value v => rfl
  | ref r => exact congrArg ref (h r (List.mem_singleton_self r))
  | refs rs => exact congrArg refs ((List.map_congr_left h).trans (List.map_id' rs))
  | link op r => exact congrArg (link op) (h r (List.mem_singleton_self r))
  | links ls =>
    refine congrArg links ((List.map_congr_left fun l hl ↦ ?_).trans (List.map_id' ls))
    rw [h l.2 (List.mem_map_of_mem hl)]

end InputValue

namespace Inputs

variable {inputs inputs' : Inputs} {σ τ : Nat → Nat}

theorem rename_rename : rename τ (rename σ inputs) = rename (τ ∘ σ) inputs := by
  simp [rename, InputValue.rename_rename, Function.comp_def]

theorem rename_append : rename σ (inputs ++ inputs') = rename σ inputs ++ rename σ inputs' :=
  List.map_append

theorem rename_perm (h : inputs.Perm inputs') : (rename σ inputs).Perm (rename σ inputs') :=
  h.map _

end Inputs

namespace Instruction

/-- Instructions do the same, once the slots of the first are renamed. Their inputs may stand in
another order. -/
structure Matches (σ : Nat → Nat) (i j : Instruction) : Prop where
  entity : i.entity = j.entity
  ref : i.ref.rename σ = j.ref
  kind : i.action.kind = j.action.kind
  inputs : (Inputs.rename σ i.action.inputs).Perm j.action.inputs
  accessed : i.accessed = j.accessed

/-- Instructions match one by one, in any order. -/
def AllMatch (σ : Nat → Nat) (batch batch' : List Instruction) : Prop :=
  Multiset.Rel (Matches σ) batch batch'

variable {σ τ : Nat → Nat} {i j k : Instruction} {as bs as' bs' cs : List Instruction}

theorem Matches.trans (h : i.Matches σ j) (h' : j.Matches τ k) : i.Matches (τ ∘ σ) k where
  entity := h.entity.trans h'.entity
  ref := by rw [← RowRef.rename_rename, h.ref, h'.ref]
  kind := h.kind.trans h'.kind
  inputs := by
    rw [← Inputs.rename_rename]
    exact (Inputs.rename_perm h.inputs).trans h'.inputs
  accessed := h.accessed.trans h'.accessed

namespace AllMatch

theorem nil : AllMatch σ [] [] := .zero

theorem cons (hi : i.Matches σ j) (h : AllMatch σ as bs) : AllMatch σ (i :: as) (j :: bs) :=
  Multiset.Rel.cons hi h

theorem append (h : AllMatch σ as bs) (h' : AllMatch σ as' bs') :
    AllMatch σ (as ++ as') (bs ++ bs') :=
  Multiset.Rel.add h h'

theorem of_perm (h : AllMatch σ as bs) (hperm : bs.Perm cs) : AllMatch σ as cs := by
  unfold AllMatch
  rw [← Multiset.coe_eq_coe.mpr hperm]
  exact h

theorem trans (h : AllMatch σ as bs) (h' : AllMatch τ bs cs) : AllMatch (τ ∘ σ) as cs := by
  unfold AllMatch at *
  -- an element of a multiset is taken off in any order, as one of a list is not
  generalize (as : Multiset Instruction) = s at h
  generalize (bs : Multiset Instruction) = t at h h'
  generalize (cs : Multiset Instruction) = u at h'
  induction h generalizing u with
  | zero =>
    rw [Multiset.rel_zero_left] at h'
    subst h'
    exact .zero
  | cons hij h ih =>
    obtain ⟨k, u, hjk, hu, rfl⟩ := Multiset.rel_cons_left.mp h'
    exact .cons (hij.trans hjk) (ih u hu)

end AllMatch

end Instruction

namespace Draft

mutual

/-- The number of rows that an entry stands for, those below them included. -/
def size : Draft → Nat
  | .input _ => 0
  | .absent => 0
  | .single _ row => entriesSize row + 1
  | .several _ rows => rowsSize rows

def entriesSize : List (String × Draft) → Nat
  | [] => 0
  | (_, d) :: rest => d.size + entriesSize rest

def rowsSize : List (List (String × Draft)) → Nat
  | [] => 0
  | row :: rest => entriesSize row + 1 + rowsSize rest

end

mutual

theorem numberEntry_next (owner next : Nat) (name : String) : ∀ d : Draft,
    (numberEntry owner next name d).next = next + d.size
  | .input _ => rfl
  | .absent => rfl
  | .single _ row => by
    rw [numberEntry, size, numberRow_next next (next + 1) row]
    omega
  | .several entity rows => numberRows_next entity owner next rows

theorem numberRow_next (owner next : Nat) : ∀ row : List (String × Draft),
    (numberRow owner next row).next = next + entriesSize row
  | [] => rfl
  | (name, d) :: rest => by
    rw [numberRow_cons, Numbered.append, entriesSize, numberRow_next owner _ rest,
      numberEntry_next owner next name d]
    omega

theorem numberRows_next (entity : String) (owner next : Nat) :
    ∀ rows : List (List (String × Draft)), (numberRows entity owner next rows).next =
      next + rowsSize rows
  | [] => rfl
  | row :: rest => by
    rw [numberRows, rowsSize, numberRows_next entity owner _ rest,
      numberRow_next next (next + 1) row]
    omega

end

/-- What entries come to matches, once slots are renamed. -/
structure Numbered.Matches (σ : Nat → Nat) (n n' : Numbered) : Prop where
  inputs : (Inputs.rename σ n.inputs).Perm n'.inputs
  owned : Instruction.AllMatch σ n.owned n'.owned

/-- What the elements of a collection come to matches. Unlike inputs, elements keep their order. -/
structure NumberedRows.Matches (σ : Nat → Nat) (n n' : NumberedRows) : Prop where
  roots : (n.trees.map RefTree.root).map (RowRef.rename σ) = n'.trees.map RefTree.root
  instructions : Instruction.AllMatch σ n.instructions n'.instructions

section

variable {σ τ : Nat → Nat} {owner owner' next next' : Nat} {n n' m m' : Numbered}
  {entity name : String} {row row' : RowDraft} {rows rows' : List RowDraft}

theorem Numbered.Matches.append (h : n.Matches σ n') (h' : m.Matches σ m') :
    (n.append m).Matches σ (n'.append m') where
  inputs := by
    rw [Numbered.append, Inputs.rename_append]
    exact h.inputs.append h'.inputs
  owned := h.owned.append h'.owned

/-- Neighbours may change places. -/
theorem Numbered.Matches.comm {a b c : Numbered} (h : n.Matches σ (a.append (b.append c))) :
    n.Matches σ (b.append (a.append c)) where
  inputs := h.inputs.trans (List.perm_append_comm_assoc _ _ _)
  owned := h.owned.of_perm (List.perm_append_comm_assoc _ _ _)

theorem Numbered.Matches.trans (h : n.Matches σ n') (h' : n'.Matches τ m) :
    n.Matches (τ ∘ σ) m where
  inputs := by
    rw [← Inputs.rename_rename]
    exact (Inputs.rename_perm h.inputs).trans h'.inputs
  owned := h.owned.trans h'.owned

theorem instructions_match (h : n.Matches σ n')
    (hnames : (row.map Prod.fst).Perm (row'.map Prod.fst)) {owner owner' : Option RowRef}
    (howner : owner.map (RowRef.rename σ) = owner') {slot slot' : Nat} (hslot : σ slot = slot') :
    Instruction.AllMatch σ (instructions entity owner slot row n)
      (instructions entity owner' slot' row' n') := by
  subst howner hslot
  refine .cons ⟨rfl, rfl, rfl, ?_, ?_⟩ h.owned
  · cases owner with
    | none => exact h.inputs
    | some r => exact h.inputs.cons _
  · refine Accessed.ofNames_perm ?_ entity
    cases owner with
    | none => exact hnames
    | some r => exact hnames.cons _

theorem rename_pending (howner : σ owner = owner') :
    (some (RowRef.pending owner)).map (RowRef.rename σ) = some (.pending owner') :=
  congrArg (fun slot ↦ some (RowRef.pending slot)) howner

theorem single_matches (howner : σ owner = owner') (hslot : σ next = next')
    (h : (numberRow next (next + 1) row).Matches σ (numberRow next' (next' + 1) row'))
    (hnames : (row.map Prod.fst).Perm (row'.map Prod.fst)) :
    (numberEntry owner next name (.single entity row)).Matches σ
      (numberEntry owner' next' name (.single entity row')) where
  inputs := .of_eq (by
    simp only [numberEntry, Inputs.rename, InputValue.rename, RowRef.rename, List.map_cons,
      List.map_nil, hslot])
  owned := instructions_match h hnames (rename_pending howner) hslot

theorem several_matches
    (h : (numberRows entity owner next rows).Matches σ (numberRows entity owner' next' rows')) :
    (numberEntry owner next name (.several entity rows)).Matches σ
      (numberEntry owner' next' name (.several entity rows')) where
  inputs := .of_eq (by
    simp only [numberEntry, Inputs.rename, InputValue.rename, List.map_cons, List.map_nil, h.roots])
  owned := h.instructions

theorem rows_match (howner : σ owner = owner') (hslot : σ next = next')
    (h : (numberRow next (next + 1) row).Matches σ (numberRow next' (next' + 1) row'))
    (hnames : (row.map Prod.fst).Perm (row'.map Prod.fst))
    (hrest : (numberRows entity owner (numberRow next (next + 1) row).next rows).Matches σ
      (numberRows entity owner' (numberRow next' (next' + 1) row').next rows')) :
    (numberRows entity owner next (row :: rows)).Matches σ
      (numberRows entity owner' next' (row' :: rows')) where
  roots := congrArg₂ (RowRef.pending · :: ·) hslot hrest.roots
  instructions :=
    (instructions_match h hnames (rename_pending howner) hslot).append hrest.instructions

end

mutual

/-- The rows of an entry may be numbered from any slot: it is a renaming, if it shifts their slots
and keeps the rows that they refer to. -/
theorem numberEntry_matches {σ : Nat → Nat} {owner owner' next next' : Nat}
    (howner : σ owner = owner') (name : String) :
    ∀ d : Draft, (∀ i < d.size, σ (next + i) = next' + i) → (∀ r ∈ d.refs, r.rename σ = r) →
      (numberEntry owner next name d).Matches σ (numberEntry owner' next' name d)
  | .input v, _, hrefs =>
    ⟨.of_eq (congrArg (fun v ↦ [(name, v)]) (InputValue.rename_eq hrefs)), .nil⟩
  | .absent, _, _ => ⟨.nil, .nil⟩
  | .single entity row, hσ, hrefs => by
    have hslot : σ next = next' := hσ 0 (Nat.succ_pos _)
    refine single_matches howner hslot (numberRow_matches hslot row (fun i hi ↦ ?_) hrefs) (.refl _)
    have hi := hσ (1 + i) (by rw [size]; omega)
    rwa [← Nat.add_assoc, ← Nat.add_assoc] at hi
  | .several entity rows, hσ, hrefs =>
    several_matches (numberRows_matches entity howner rows hσ hrefs)

theorem numberRow_matches {σ : Nat → Nat} {owner owner' next next' : Nat}
    (howner : σ owner = owner') :
    ∀ row : List (String × Draft), (∀ i < entriesSize row, σ (next + i) = next' + i) →
      (∀ r ∈ entriesRefs row, r.rename σ = r) →
      (numberRow owner next row).Matches σ (numberRow owner' next' row)
  | [], _, _ => ⟨.nil, .nil⟩
  | (name, d) :: rest, hσ, hrefs => by
    have hsize : entriesSize ((name, d) :: rest) = d.size + entriesSize rest := rfl
    obtain ⟨hfirst, hrest⟩ := List.forall_mem_append.mp hrefs
    refine (numberEntry_matches howner name d (fun i hi ↦ hσ i (by omega)) hfirst).append ?_
    refine numberRow_matches howner rest (fun i hi ↦ ?_) hrest
    rw [numberEntry_next, numberEntry_next, Nat.add_assoc, Nat.add_assoc]
    exact hσ (d.size + i) (by omega)

theorem numberRows_matches {σ : Nat → Nat} (entity : String) {owner owner' next next' : Nat}
    (howner : σ owner = owner') :
    ∀ rows : List (List (String × Draft)), (∀ i < rowsSize rows, σ (next + i) = next' + i) →
      (∀ r ∈ rowsRefs rows, r.rename σ = r) →
        (numberRows entity owner next rows).Matches σ (numberRows entity owner' next' rows)
  | [], _, _ => ⟨rfl, .nil⟩
  | row :: rest, hσ, hrefs => by
    have hsize : rowsSize (row :: rest) = entriesSize row + 1 + rowsSize rest := rfl
    obtain ⟨hfirst, hrest⟩ := List.forall_mem_append.mp hrefs
    have hslot : σ next = next' := hσ 0 (by omega)
    refine rows_match howner hslot (numberRow_matches hslot row (fun i hi ↦ ?_) hfirst) (.refl _) ?_
    · have hi := hσ (1 + i) (by omega)
      rwa [← Nat.add_assoc, ← Nat.add_assoc] at hi
    · refine numberRows_matches entity howner rest (fun i hi ↦ ?_) hrest
      have hi := hσ (1 + (entriesSize row + i)) (by omega)
      rw [numberRow_next, numberRow_next]
      rwa [← Nat.add_assoc, ← Nat.add_assoc, ← Nat.add_assoc, ← Nat.add_assoc] at hi

end

/-! ### Entries in another order -/

/-- Drafts with entries in another order, also in the rows that they own. Entries of the same name
keep theirs, and so do the elements of collections. -/
inductive Shuffled : RowDraft → RowDraft → Prop where
  | refl (row : RowDraft) : Shuffled row row
  | cons (x : String × Draft) {row row' : RowDraft} (h : Shuffled row row') :
      Shuffled (x :: row) (x :: row')
  | swap {x y : String × Draft} (h : x.1 ≠ y.1) (row : RowDraft) :
      Shuffled (x :: y :: row) (y :: x :: row)
  | trans {row row' row'' : RowDraft} (h : Shuffled row row') (h' : Shuffled row' row'') :
      Shuffled row row''
  | single (name entity : String) {row row' : RowDraft} (h : Shuffled row row') (rest : RowDraft) :
    Shuffled ((name, .single entity row) :: rest) ((name, .single entity row') :: rest)
  | several (name entity : String) (before after : List RowDraft) {row row' : RowDraft}
    (h : Shuffled row row') (rest : RowDraft) :
    Shuffled ((name, .several entity (before ++ row :: after)) :: rest)
      ((name, .several entity (before ++ row' :: after)) :: rest)

theorem entriesSize_cons (x : String × Draft) (row : RowDraft) :
    entriesSize (x :: row) = x.2.size + entriesSize row :=
  rfl

theorem rowsSize_append (rows rows' : List RowDraft) :
    rowsSize (rows ++ rows') = rowsSize rows + rowsSize rows' := by
  induction rows with
  | nil => exact (Nat.zero_add _).symm
  | cons row rows ih =>
    rw [List.cons_append, rowsSize, rowsSize, ih]
    omega

/-- A permutation of slots that moves only some of them. -/
def Within (first last : Nat) (σ : Equiv.Perm Nat) : Prop :=
  ∀ slot, slot < first ∨ last ≤ slot → σ slot = slot

namespace Within

variable {first first' last last' : Nat} {σ τ : Equiv.Perm Nat}

theorem refl (first last : Nat) : Within first last (Equiv.refl Nat) :=
  fun _ _ ↦ rfl

theorem trans (h : Within first last σ) (h' : Within first last τ) :
    Within first last (σ.trans τ) := by
  intro slot hslot
  rw [Equiv.trans_apply, h slot hslot, h' slot hslot]

theorem mono (h : Within first last σ) (hfirst : first' ≤ first) (hlast : last ≤ last') :
    Within first' last' σ :=
  fun slot hslot ↦ h slot (hslot.imp (fun hlt ↦ Nat.lt_of_lt_of_le hlt hfirst)
    fun hle ↦ Nat.le_trans hlast hle)

theorem rename_eq (h : Within first last σ) {r : RowRef} (hr : r.Below first) : r.rename σ = r :=
  hr.rename_eq fun slot hslot ↦ h slot (.inl hslot)

end Within

/-- Lets two neighbouring blocks of slots, of the sizes `a` and `b`, change places. -/
def swapBlocks (next a b : Nat) : Equiv.Perm Nat where
  toFun slot := if slot < next then slot else if slot < next + a then slot + b
    else if slot < next + a + b then slot - a else slot
  invFun slot := if slot < next then slot else if slot < next + b then slot + a
    else if slot < next + a + b then slot - b else slot
  left_inv slot := by
    dsimp only
    split_ifs <;> omega
  right_inv slot := by
    dsimp only
    split_ifs <;> omega

theorem swapBlocks_within (next a b : Nat) : Within next (next + a + b) (swapBlocks next a b) := by
  intro slot hslot
  change ite _ _ _ = slot
  split_ifs <;> omega

theorem swapBlocks_first {next a b i : Nat} (hi : i < a) :
    swapBlocks next a b (next + i) = next + b + i := by
  change ite _ _ _ = _
  split_ifs <;> omega

theorem swapBlocks_second {next a b i : Nat} (hi : i < b) :
    swapBlocks next a b (next + a + i) = next + i := by
  change ite _ _ _ = _
  split_ifs <;> omega

namespace Shuffled

variable {row row' : RowDraft}

theorem names (h : Shuffled row row') : (row.map Prod.fst).Perm (row'.map Prod.fst) := by
  induction h with
  | refl row => exact .refl _
  | cons x h ih => exact ih.cons _
  | swap h row => exact .swap _ _ _
  | trans h h' ih ih' => exact ih.trans ih'
  | single name entity h rest ih => exact .refl _
  | several name entity before after h rest ih => exact .refl _

theorem size (h : Shuffled row row') : entriesSize row = entriesSize row' := by
  induction h with
  | refl row => rfl
  | cons x h ih => rw [entriesSize_cons, entriesSize_cons, ih]
  | swap h row => exact Nat.add_left_comm _ _ _
  | trans h h' ih ih' => exact ih.trans ih'
  | single name entity h rest ih =>
    rw [entriesSize_cons, entriesSize_cons, Draft.size, Draft.size, ih]
  | several name entity before after h rest ih =>
    rw [entriesSize_cons, entriesSize_cons, Draft.size, Draft.size, rowsSize_append,
      rowsSize_append, rowsSize, rowsSize, ih]

theorem mem_refs (h : Shuffled row row') {r : RowRef} :
    r ∈ entriesRefs row ↔ r ∈ entriesRefs row' := by
  induction h with
  | refl row => rfl
  | cons x h ih => simp only [entriesRefs, List.mem_append, ih]
  | swap h row =>
    simp only [entriesRefs, List.mem_append]
    exact or_left_comm
  | trans h h' ih ih' => exact ih.trans ih'
  | single name entity h rest ih => simp only [entriesRefs, refs, List.mem_append, ih]
  | several name entity before after h rest ih =>
    simp only [entriesRefs, refs, List.mem_append, mem_rowsRefs, List.mem_cons,
      or_and_right, exists_or, exists_eq_left, ih]

theorem append_right (h : Shuffled row row') (more : RowDraft) :
    Shuffled (row ++ more) (row' ++ more) := by
  induction h with
  | refl row => exact .refl _
  | cons x h ih => exact ih.cons x
  | swap h row => exact .swap h _
  | trans h h' ih ih' => exact ih.trans ih'
  | single name entity h rest ih => exact .single name entity h _
  | several name entity before after h rest ih => exact .several name entity before after h _

/-- Derived fields do not depend on the order of the entries. -/
theorem values (h : Shuffled row row') : Draft.values row = Draft.values row' := by
  rw [values_eq, values_eq]
  unfold sortEntries
  -- each value is put among those of the entries before it, whichever they are
  generalize ([] : List (String × Value)) = sorted
  induction h generalizing sorted with
  | refl row => rfl
  | cons x h ih =>
    obtain ⟨name, d⟩ := x
    cases hvalue : d.value? with
    | none => simpa [given, hvalue] using ih sorted
    | some v => simpa [given, hvalue] using ih (putSorted name v sorted)
  | @swap x y h row =>
    obtain ⟨name, d⟩ := x
    obtain ⟨name', d'⟩ := y
    cases hvalue : d.value? <;> cases hvalue' : d'.value?
    case some.some v v' => simp [given, hvalue, hvalue', putSorted_comm h]
    all_goals simp [given, hvalue, hvalue']
  | trans h h' ih ih' => exact (ih sorted).trans (ih' sorted)
  | single name entity h rest ih => rfl
  | several name entity before after h rest ih => rfl

end Shuffled

/-! ### The rows of a draft in another order -/

section

variable {σ : Equiv.Perm Nat} {owner next first last : Nat} {entity name : String} {d : Draft}
  {row row' rest : RowDraft}

/-- What stands before all that is moved stays. -/
theorem numberEntry_before (hσ : Within first last σ) (howner : owner < next)
    (hnext : next + d.size ≤ first) (hrefs : ∀ r ∈ d.refs, r.Below next) :
    (numberEntry owner next name d).Matches σ (numberEntry owner next name d) :=
  numberEntry_matches (hσ owner (.inl (by omega))) name d (fun i hi ↦ hσ _ (.inl (by omega)))
    fun r hr ↦ hσ.rename_eq ((hrefs r hr).mono (by omega))

/-- What stands behind all that is moved stays. -/
theorem numberRow_behind (hσ : Within first last σ) (howner : owner < first) (hnext : last ≤ next)
    (hrefs : ∀ r ∈ entriesRefs rest, r.Below first) :
    (numberRow owner next rest).Matches σ (numberRow owner next rest) :=
  numberRow_matches (hσ owner (.inl howner)) rest (fun i _ ↦ hσ _ (.inr (by omega)))
    fun r hr ↦ hσ.rename_eq (hrefs r hr)

theorem numberRows_behind (hσ : Within first last σ) (howner : owner < first) (hnext : last ≤ next)
    {rows : List RowDraft} (hrefs : ∀ r ∈ rowsRefs rows, r.Below first) :
    (numberRows entity owner next rows).Matches σ (numberRows entity owner next rows) :=
  numberRows_matches entity (hσ owner (.inl howner)) rows (fun i _ ↦ hσ _ (.inr (by omega)))
    fun r hr ↦ hσ.rename_eq (hrefs r hr)

end

/-- Drafts are numbered alike in the slots from a given one on. -/
def Renumbered (owner next : Nat) (row row' : RowDraft) : Prop :=
  ∃ σ, Within next (next + entriesSize row) σ ∧
    (numberRow owner next row).Matches σ (numberRow owner next row')

namespace Renumbered

variable {owner next : Nat} {entity name : String} {x y : String × Draft}
  {row row' row'' rest : RowDraft} {rows rows' : List RowDraft}

theorem refl (owner next : Nat) (row : RowDraft) : Renumbered owner next row row := by
  refine ⟨.refl Nat, .refl _ _, numberRow_matches rfl row (fun i _ ↦ rfl) fun r _ ↦ ?_⟩
  cases r <;> rfl

theorem trans (h : Renumbered owner next row row') (h' : Renumbered owner next row' row'')
    (hsize : entriesSize row = entriesSize row') : Renumbered owner next row row'' := by
  obtain ⟨σ, hσ, hmatches⟩ := h
  obtain ⟨τ, hτ, hmatches'⟩ := h'
  exact ⟨σ.trans τ, hσ.trans (hsize ▸ hτ), hmatches.trans hmatches'⟩

theorem cons (h : Renumbered owner (next + x.2.size) row row') (howner : owner < next)
    (hrefs : ∀ r ∈ x.2.refs, r.Below next) : Renumbered owner next (x :: row) (x :: row') := by
  obtain ⟨name, d⟩ := x
  obtain ⟨σ, hσ, hmatches⟩ := h
  refine ⟨σ, hσ.mono (Nat.le_add_right _ _) (by rw [entriesSize_cons]; omega), ?_⟩
  rw [numberRow_cons, numberRow_cons, numberEntry_next]
  exact (numberEntry_before hσ howner (Nat.le_refl _) hrefs).append hmatches

/-- Two neighbours that change places take the slots of each other, and what is behind them
stays. -/
theorem swap (howner : owner < next) (hrefs : ∀ r ∈ entriesRefs (x :: y :: row), r.Below next) :
    Renumbered owner next (x :: y :: row) (y :: x :: row) := by
  obtain ⟨name, d⟩ := x
  obtain ⟨name', d'⟩ := y
  have hwithin := swapBlocks_within next d.size d'.size
  have howner' : swapBlocks next d.size d'.size owner = owner := hwithin owner (.inl howner)
  have hkeeps : ∀ r ∈ entriesRefs ((name, d) :: (name', d') :: row), r.rename
      (swapBlocks next d.size d'.size) = r :=
    fun r hr ↦ hwithin.rename_eq (hrefs r hr)
  simp only [entriesRefs, List.forall_mem_append] at hrefs hkeeps
  have hfirst := numberEntry_matches howner' name d (fun i hi ↦ swapBlocks_first hi) hkeeps.1
  have hsecond := numberEntry_matches howner' name' d' (fun i hi ↦ swapBlocks_second hi) hkeeps.2.1
  have hrest := numberRow_behind hwithin howner (Nat.le_refl _) hrefs.2.2
  refine ⟨swapBlocks next d.size d'.size, hwithin.mono (Nat.le_refl _) ?_, ?_⟩
  · simp only [entriesSize_cons]
    omega
  simp only [numberRow_cons, numberEntry_next]
  rw [Nat.add_right_comm next d'.size d.size]
  exact (hfirst.append (hsecond.append hrest)).comm

theorem single (h : Renumbered next (next + 1) row row')
    (hnames : (row.map Prod.fst).Perm (row'.map Prod.fst))
    (hsize : entriesSize row = entriesSize row') (howner : owner < next)
    (hrefs : ∀ r ∈ entriesRefs rest, r.Below next) :
    Renumbered owner next ((name, .single entity row) :: rest)
      ((name, .single entity row') :: rest) := by
  obtain ⟨σ, hσ, hmatches⟩ := h
  have hslot : σ next = next := hσ next (.inl (Nat.lt_succ_self _))
  have howner' : σ owner = owner := hσ owner (.inl (by omega))
  refine ⟨σ, hσ.mono (Nat.le_succ _) (by rw [entriesSize_cons, size]; omega), ?_⟩
  rw [numberRow_cons, numberRow_cons, numberEntry_next, numberEntry_next, size, size, hsize]
  exact (single_matches howner' hslot hmatches hnames).append
    (numberRow_behind hσ (by omega) (by omega) fun r hr ↦ (hrefs r hr).mono (Nat.le_succ _))

theorem several (hrows : ∃ σ, Within next (next + rowsSize rows) σ ∧
      (numberRows entity owner next rows).Matches σ (numberRows entity owner next rows'))
    (hsize : rowsSize rows = rowsSize rows') (howner : owner < next)
    (hrefs : ∀ r ∈ entriesRefs rest, r.Below next) :
    Renumbered owner next ((name, .several entity rows) :: rest)
      ((name, .several entity rows') :: rest) := by
  obtain ⟨σ, hσ, hmatches⟩ := hrows
  refine ⟨σ, hσ.mono (Nat.le_refl _) (by rw [entriesSize_cons, size]; omega), ?_⟩
  rw [numberRow_cons, numberRow_cons, numberEntry_next, numberEntry_next, size, size, ← hsize]
  exact (several_matches hmatches).append (numberRow_behind hσ howner (Nat.le_refl _) hrefs)

/-- In a collection the elements before and behind the one whose entries change places keep their
slots. -/
theorem element
    (h : ∀ next, (∀ r ∈ entriesRefs row, r.Below next) → Renumbered next (next + 1) row row')
    (hnames : (row.map Prod.fst).Perm (row'.map Prod.fst))
    (hsize : entriesSize row = entriesSize row') (before after : List RowDraft)
    (howner : owner < next) (hrefs : ∀ r ∈ rowsRefs (before ++ row :: after), r.Below next) :
    ∃ σ, Within next (next + rowsSize (before ++ row :: after)) σ ∧
      (numberRows entity owner next (before ++ row :: after)).Matches σ
        (numberRows entity owner next (before ++ row' :: after)) := by
  induction before generalizing next with
  | nil =>
    obtain ⟨hrow, hafter⟩ := List.forall_mem_append.mp hrefs
    obtain ⟨σ, hσ, hmatches⟩ := h next hrow
    refine ⟨σ, hσ.mono (Nat.le_succ _) (by rw [List.nil_append, rowsSize]; omega), ?_⟩
    refine rows_match (hσ owner (.inl (by omega)))
      (hσ next (.inl (Nat.lt_succ_self _))) hmatches hnames ?_
    rw [numberRow_next, numberRow_next, ← hsize]
    exact numberRows_behind hσ (by omega) (Nat.le_refl _)
      fun r hr ↦ (hafter r hr).mono (Nat.le_succ _)
  | cons first before ih =>
    obtain ⟨hfirst, hrest⟩ := List.forall_mem_append.mp hrefs
    have hnext : owner < next + 1 + entriesSize first := by omega
    obtain ⟨σ, hσ, hmatches⟩ := ih hnext fun r hr ↦ (hrest r hr).mono (by omega)
    have hslot : σ next = next := hσ next (.inl (by omega))
    refine ⟨σ, hσ.mono (by omega) (by rw [List.cons_append, rowsSize]; omega), ?_⟩
    refine rows_match (hσ owner (.inl (by omega))) hslot ?_ (.refl _) (by rwa [numberRow_next])
    exact numberRow_matches hslot first (fun i hi ↦ hσ _ (.inl (by omega)))
      fun r hr ↦ hσ.rename_eq ((hfirst r hr).mono (by omega))

end Renumbered

/-- Drafts with entries in another order come to the same instructions, but for the slots from the
first free one on. -/
theorem Shuffled.numbered {row row' : RowDraft} (h : Shuffled row row') {owner next : Nat}
    (howner : owner < next) (hrefs : ∀ r ∈ entriesRefs row, r.Below next) :
    Renumbered owner next row row' := by
  induction h generalizing owner next with
  | refl row => exact .refl owner next row
  | cons x h ih =>
    obtain ⟨hfirst, hrest⟩ := List.forall_mem_append.mp hrefs
    exact .cons (ih (by omega) fun r hr ↦ (hrest r hr).mono (by omega)) howner hfirst
  | swap h row => exact .swap howner hrefs
  | trans h h' ih ih' =>
    exact (ih howner hrefs).trans (ih' howner fun r hr ↦ hrefs r (h.mem_refs.mpr hr)) h.size
  | single name entity h rest ih =>
    obtain ⟨hfirst, hrest⟩ := List.forall_mem_append.mp hrefs
    exact .single (ih (Nat.lt_succ_self _) fun r hr ↦ (hfirst r hr).mono (Nat.le_succ _))
      h.names h.size howner hrest
  | @several name entity before after row row' h rest ih =>
    obtain ⟨hfirst, hrest⟩ := List.forall_mem_append.mp hrefs
    have hsize : rowsSize (before ++ row :: after) = rowsSize (before ++ row' :: after) := by
      rw [rowsSize_append, rowsSize_append, rowsSize, rowsSize, h.size]
    refine .several
      (Renumbered.element (fun next hnext ↦ ih (Nat.lt_succ_self _) fun r hr ↦ ?_)
        h.names h.size before
      after howner hfirst) hsize howner hrest
    exact (hnext r hr).mono (Nat.le_succ _)

end Draft

end EntityStore
