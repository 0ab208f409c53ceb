import EntityStore.Compile.Create
import EntityStore.Compile.Update
import EntityStore.Proofs.Schema.Ownership
import EntityStore.Proofs.Value.Typing

/-!
What the inputs of compiled instructions are: the kind of an input follows from its property, and no
relation is set twice.
-/

set_option autoImplicit false

namespace EntityStore

open EntityStore.Language (LinkOp Node Target UpdateEntry)

/-- The instructions that creates, updates and deletes are compiled to. -/
inductive Schema.Compiles (s : Schema) : Instruction → Prop where
  | create {form : Language.CreateForm Value} {args : Args} {slots : Slots}
      {c : Creation} {i : Instruction} (h : s.compileCreate form args slots = .ok c)
      (hi : i ∈ c.instructions) : Compiles s i
  | update {form : Language.UpdateForm Value Int64} {args : Args} {i : Instruction}
      (h : s.compileUpdate form args = .ok i) : Compiles s i
  | delete {form : Language.DeleteForm Int64} {args : Args} {i : Instruction}
      (h : s.compileDelete form args = .ok i) : Compiles s i

def InputValue.isValue : InputValue → Bool
  | .value _ => true
  | _ => false

/-- What a create may set a property to. -/
def Property.Creates (p : Property) : InputValue → Prop
  | .value v => ∃ f, p.kind = .field f ∧ f.type.Holds v
  | .ref _ => ∃ r, p.kind = .reference r
  | .refs _ => ∃ c, p.kind = .collection c
  | _ => False

/-- What an update may set a property to. A required reference keeps a link. -/
def Property.Updates (p : Property) : InputValue → Prop
  | .value v => ∃ f, p.kind = .field f ∧ f.type.Holds v
  | .ref _ => p.isParent
  | .refs rs => rs = [] ∧ p.isLinked ∧ ∃ r, p.kind = .reference r ∧ r.optional
  | .link op _ => p.isLinked ∧ ∃ r, p.kind = .reference r ∧ (op = .del → r.optional)
  | .links ls =>
    p.isLinked ∧ (∃ c, p.kind = .collection c) ∧
      ∃ op, ∃ rs : List RowRef, ls = rs.map fun r ↦ (op, r)

namespace Entity

/-- The inputs of a compiled create: only fields may be set twice, of which the first value counts,
and every required reference is set. -/
structure Creates (e : Entity) (inputs : Inputs) : Prop where
  property : ∀ x ∈ inputs, x.1 ≠ idName ∧ ∃ p ∈ e.properties, p.name = x.1 ∧ p.Creates x.2
  once : inputs.Pairwise fun x y ↦ x.1 = y.1 → x.2.isValue
  complete : ∀ p ∈ e.inputs, ∀ r, p.kind = .reference r → ¬r.optional →
    ∃ row, (p.name, .ref row) ∈ inputs

/-- The inputs of a compiled update. -/
structure Updates (e : Entity) (inputs : Inputs) : Prop where
  property : ∀ x ∈ inputs, x.1 ≠ idName ∧ ∃ p ∈ e.properties, p.name = x.1 ∧ p.Updates x.2
  once : (inputs.map Prod.fst).Nodup

end Entity

/-- An instruction for an entity of a schema with inputs for its properties. -/
structure Instruction.Shaped (s : Schema) (i : Instruction) : Prop where
  entity : ∃ e ∈ s.entities, e.name = i.entity ∧ match i.action with
    | .create inputs => e.Creates inputs
    | .update inputs => e.Updates inputs
    | .delete => True

namespace Property

variable {p : Property}

theorem isLinked_of_reference {r : Reference} (hkind : p.kind = .reference r)
    (howned : ∀ target optional unique, r = ⟨.owned, target, optional, unique⟩ → False)
    (hparent : ¬p.isParent) :
    p.isLinked := by
  obtain ⟨kind, target, optional, unique⟩ := r
  cases kind with
  | owned => exact (howned _ _ _ rfl).elim
  | linked => exact isLinked_iff.mpr ⟨⟨target, by simp [relation?, hkind]⟩, hparent⟩

theorem isLinked_of_collection {c : Collection} (hkind : p.kind = .collection c)
    (howned : ∀ target, c = ⟨.owned, target⟩ → False) (hparent : ¬p.isParent) : p.isLinked := by
  obtain ⟨kind, target⟩ := c
  cases kind with
  | owned => exact (howned _ rfl).elim
  | linked => exact isLinked_iff.mpr ⟨⟨target, by simp [relation?, hkind]⟩, hparent⟩

theorem isLinked_of_isOwned (howned : p.isOwned) : p.isLinked = false := by
  unfold isOwned at howned
  unfold isLinked
  rcases hrelation : p.relation? with _ | ⟨target, kind⟩
  · rfl
  · rw [hrelation] at howned
    obtain rfl : kind = .owned := eq_of_beq howned
    rfl

end Property

namespace Node

theorem fieldValue_holds {args : Args} {target : PropertyKey} {f : Field}
    {n : Node Value} {v : Value} (h : fieldValue args target f n = .ok v) : f.type.Holds v := by
  unfold fieldValue at h
  obtain ⟨given, -, h⟩ := Except.bind_eq_ok.mp h
  split at h
  · split at h
    · cases h
      exact .inl rfl
    · cases h
  · obtain ⟨w, hfit, h⟩ := Except.bind_eq_ok.mp h
    split at h
    · cases h
      exact FieldType.holds_of_fit (Except.mapError_eq_ok.mp hfit)
    · cases h

end Node

/-! ### Updates and deletes -/

namespace Update

variable {s : Schema} {args : Args} {e : Entity} {p : Property} {key : PropertyKey}
  {change : UpdateEntry Value} {v : InputValue} {named : List String}
  {body : List (String × UpdateEntry Value)} {name : String}

theorem links_ok {op : LinkOp} {n : Node Value} (h : links args key op n = .ok v) :
    ∃ rs : List RowRef, v = .links (rs.map fun r ↦ (op, r)) := by
  unfold links at h
  dsimp only at h
  split at h <;>
  · obtain ⟨rows, -, h⟩ := Except.bind_eq_ok.mp h
    cases h
    exact ⟨rows, rfl⟩

theorem entry_updates (hparent : p.isParent → ∃ r, p.kind = .reference r)
    (h : entry args key p change = .ok v) : p.Updates v := by
  unfold entry at h
  split at h
  · next f n hkind =>
    obtain ⟨w, hw, rfl⟩ := Except.map_eq_ok.mp h
    exact ⟨f, hkind, Node.fieldValue_holds hw⟩
  · cases h
  · cases h
  · cases h
  · next r n howned hkind =>
    split at h
    · next hparent =>
      obtain ⟨w, -, rfl⟩ := Except.map_eq_ok.mp h
      exact hparent
    · next hparent =>
      split at h
      · next hnull =>
        cases h
        exact ⟨rfl, Property.isLinked_of_reference hkind howned hparent, r, hkind,
          (Bool.and_eq_true_iff.mp hnull).1⟩
      · cases h
  · cases h
  · next r op n howned hkind =>
    split at h
    · cases h
    · next hparent =>
      split at h
      · cases h
      · next hrequired =>
        obtain ⟨w, -, rfl⟩ := Except.map_eq_ok.mp h
        refine ⟨Property.isLinked_of_reference hkind howned hparent, r, hkind, fun hdel ↦ ?_⟩
        simpa [hdel] using hrequired
  · next c op n howned hkind =>
    obtain ⟨rows, rfl⟩ := links_ok h
    refine ⟨Property.isLinked_of_collection hkind howned fun hp ↦ ?_, ⟨c, hkind⟩, op, rows, rfl⟩
    obtain ⟨r, hr⟩ := hparent hp
    cases hkind.symm.trans hr

theorem isParent_reference (hs : s.WellFormed) (he : e ∈ s.entities) (hp : p ∈ e.properties)
    (hparent : p.isParent) :
    ∃ r, p.kind = .reference r := by
  obtain ⟨own, hown⟩ := hs.ownership e he
  obtain ⟨o, q, -, rfl⟩ := hown.eq_parent hp (Property.isParent_iff.mp hparent)
  exact ⟨_, rfl⟩

theorem admitted_ok (he : e.WellFormed) (h : admitted e named name = .ok p) :
    p ∈ e.properties ∧ p.name = name ∧ name ∉ named ∧ p.input := by
  unfold admitted at h
  split at h
  · cases h
  · next q hget =>
    obtain ⟨hp, hname⟩ := (Entity.get?_eq_some_iff he).mp hget
    split at h
    · cases h
    · next hnamed =>
      split at h
      · next hinput =>
        cases h
        exact ⟨hp, hname, by simpa using hnamed, hinput⟩
      · cases h

/-- An entry that may be set is not the row number. -/
theorem input_ne_id (he : e.WellFormed) (hp : p ∈ e.properties) (hinput : p.input) :
    p.name ≠ idName := by
  intro hname
  rw [he.eq_id hp hname] at hinput
  cases hinput

theorem entries_cons :
    entries args e named ((name, change) :: body) = (admitted e named name >>= fun p ↦
    entry args ⟨e.name, name⟩ p change >>= fun v ↦ pure (name, v)) :: entries args e
        (name :: named) body :=
  rfl

/-- Entries without an error set properties of the entity, none of them twice. -/
theorem entries_updates (hs : s.WellFormed) (he : e ∈ s.entities)
    (h : (entries args e named body).filterMap error? = []) :
    (∀ x ∈ (entries args e named body).filterMap Except.toOption, x.1 ∉ named ∧ x.1 ≠ idName ∧
        ∃ p ∈ e.properties, p.name = x.1 ∧ p.Updates x.2) ∧
      (((entries args e named body).filterMap Except.toOption).map Prod.fst).Nodup := by
  induction body generalizing named with
  | nil => exact ⟨nofun, .nil⟩
  | cons x body ih =>
    obtain ⟨name, change⟩ := x
    rw [entries_cons] at h ⊢
    generalize houtcome : admitted e named name >>= _ = outcome at h ⊢
    cases outcome with
    | error err => cases h
    | ok y =>
      obtain ⟨hrest, hnodup⟩ := ih h
      obtain ⟨p, hadmitted, hy⟩ := Except.bind_eq_ok.mp houtcome
      obtain ⟨v, hentry, hy⟩ := Except.bind_eq_ok.mp hy
      cases hy
      obtain ⟨hp, rfl, hnew, hinput⟩ := admitted_ok (hs.entity e he) hadmitted
      have hupdates := entry_updates (isParent_reference hs he hp) hentry
      refine ⟨List.forall_mem_cons.mpr
        ⟨⟨hnew, input_ne_id (hs.entity e he) hp hinput, p, hp, rfl, hupdates⟩,
        fun x hx ↦ ?_⟩, List.nodup_cons.mpr ⟨fun hmem ↦ ?_, hnodup⟩⟩
      · exact (hrest x hx).imp_left fun hnew hnamed ↦ hnew (List.mem_cons_of_mem _ hnamed)
      · obtain ⟨x, hx, hname⟩ := List.mem_map.mp hmem
        exact (hrest x hx).1 (hname ▸ List.mem_cons_self)

end Update

namespace Schema

variable {s : Schema} {args : Args} {i : Instruction}

/-- An update compiles to what its entries come to if its target is a row and none of them is an
error. -/
theorem compileUpdate_ok_iff {form : Language.UpdateForm Value Int64} :
    s.compileUpdate form args = .ok i ↔ ∃ e ref, s.get? form.entity = some e ∧
      Update.target e.name args form.target = .ok ref ∧
      (Update.entries args e [] form.body).filterMap Update.error? = [] ∧
      i = ⟨e.name, ref, .update ((Update.entries args e [] form.body).filterMap Except.toOption),
        .ofNames e.name (idName :: form.body.map Prod.fst)⟩ := by
  unfold compileUpdate
  cases s.get? form.entity with
  | none => exact iff_of_false nofun nofun
  | some e =>
    dsimp only
    constructor
    · intro h
      split at h
      · next ref htarget herrors =>
        cases h
        exact ⟨e, ref, rfl, htarget, (List.append_eq_nil_iff.mp herrors).2, rfl⟩
      · cases h
    · rintro ⟨_, ref, ⟨⟩, htarget, herrors, rfl⟩
      rw [htarget, herrors]
      rfl

theorem compileDelete_ok_iff {form : Language.DeleteForm Int64} :
    s.compileDelete form args = .ok i ↔ ∃ e ref, s.get? form.entity = some e ∧
      Update.target e.name args form.target = .ok ref ∧
      i = ⟨e.name, ref, .delete, .ofNames e.name [idName]⟩ := by
  unfold compileDelete
  cases s.get? form.entity with
  | none => exact iff_of_false nofun nofun
  | some e =>
    dsimp only
    constructor
    · intro h
      split at h
      · next ref htarget =>
        cases h
        exact ⟨e, ref, rfl, htarget, rfl⟩
      · cases h
    · rintro ⟨_, ref, ⟨⟩, htarget, rfl⟩
      rw [htarget]

theorem compileUpdate_shaped (hs : s.WellFormed) {form : Language.UpdateForm Value Int64}
    (h : s.compileUpdate form args = .ok i) : i.Shaped s := by
  obtain ⟨e, ref, hget, -, herrors, rfl⟩ := compileUpdate_ok_iff.mp h
  obtain ⟨he, -⟩ := (get?_eq_some_iff hs).mp hget
  obtain ⟨hproperty, hnodup⟩ := Update.entries_updates hs he herrors
  exact ⟨e, he, rfl, fun x hx ↦ (hproperty x hx).2, hnodup⟩

theorem compileDelete_shaped (hs : s.WellFormed) {form : Language.DeleteForm Int64}
    (h : s.compileDelete form args = .ok i) : i.Shaped s := by
  obtain ⟨e, ref, hget, -, rfl⟩ := compileDelete_ok_iff.mp h
  exact ⟨e, ((get?_eq_some_iff hs).mp hget).1, rfl, trivial⟩

end Schema

end EntityStore
