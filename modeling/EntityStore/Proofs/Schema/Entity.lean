import EntityStore.Proofs.Schema.Positions
import EntityStore.Schema.Change

/-!
Well-formed entities: their index is exact, the row number comes first, every property is bound to
the entity and all but the row number and the reference to the owner have names. Adding and taking
properties keeps this.
-/

set_option autoImplicit false

namespace EntityStore

namespace Property

/-- The reference to the owner is linked, so that it owns nothing itself. -/
@[simp] theorem owned?_parent (entity owner : String) (single : Bool) :
    (parent entity owner single).owned? = none :=
  rfl

@[simp] theorem relation?_id (entity : String) : (id entity).relation? = none :=
  rfl

theorem owned?_eq_some_iff {p : Property} {target : String} :
    p.owned? = some target ↔ p.relation? = some (target, .owned) := by
  unfold owned?
  split <;> simp_all

theorem field?_eq_some_iff {p : Property} {f : Field} : p.field? = some f ↔ p.kind = .field f := by
  unfold field?
  split <;> simp_all

theorem isParent_iff {p : Property} : p.isParent ↔ p.name = parentName :=
  beq_iff_eq

theorem isLinked_iff {p : Property} :
    p.isLinked ↔ (∃ target, p.relation? = some (target, .linked)) ∧ ¬p.isParent := by
  unfold isLinked
  rcases p.relation? with _ | ⟨target, kind⟩ <;> simp

theorem name_ne_of_isLinked {p : Property} (h : p.isLinked) : p.name ≠ parentName :=
  mt isParent_iff.mpr (isLinked_iff.mp h).2

end Property

theorem isName_ne_parent {name : String} (h : isName name) : name ≠ parentName := by
  rintro rfl
  exact absurd h (by decide)

namespace Entity

structure WellFormed (e : Entity) : Prop where
  indexed : Indexed Property.name e.properties e.positions
  first : e.properties.head? = some (.id e.name)
  bound : ∀ p ∈ e.properties, p.entity = some e.name
  named : ∀ p ∈ e.properties, isName p.name ∨ p.name = idName ∨ p.name = parentName

variable {e : Entity} {name : String} {p : Property}

theorem get?_eq_some_iff (h : e.WellFormed) :
    e.get? name = some p ↔ p ∈ e.properties ∧ p.name = name :=
  h.indexed.bind_lookup_eq_some_iff

theorem get?_eq_none_iff (h : e.WellFormed) :
    e.get? name = none ↔ ∀ p ∈ e.properties, p.name ≠ name :=
  h.indexed.bind_lookup_eq_none_iff

theorem WellFormed.id_mem (h : e.WellFormed) : .id e.name ∈ e.properties :=
  List.mem_of_head? h.first

/-- No other property has the name of the row number. -/
theorem WellFormed.eq_id (h : e.WellFormed) (hp : p ∈ e.properties) (hname : p.name = idName) :
    p = .id e.name :=
  h.indexed.eq_of_name_eq hp h.id_mem hname

theorem WellFormed.fresh (name : String) (kind : EntityKind) : (fresh name kind).WellFormed where
  indexed := (Indexed.nil Property.name).push (.id name) (by simp)
  first := rfl
  bound := by simp [Entity.fresh, push, Property.id]
  named := by simp [Entity.fresh, push, Property.id]

theorem mem_push {q : Property} : q ∈ (e.push p).properties ↔ q ∈ e.properties ∨ q = p := by
  simp [Entity.push]

theorem WellFormed.push (h : e.WellFormed) (hbound : p.entity = some e.name)
    (hname : isName p.name ∨ p.name = idName ∨ p.name = parentName)
    (hnew : ∀ q ∈ e.properties, q.name ≠ p.name) : (e.push p).WellFormed where
  indexed := h.indexed.push p hnew
  first := by
    rw [Entity.push, List.head?_append, h.first]
    rfl
  bound := by
    intro q hq
    rcases mem_push.mp hq with hq | rfl
    · exact h.bound q hq
    · exact hbound
  named := by
    intro q hq
    rcases mem_push.mp hq with hq | rfl
    · exact h.named q hq
    · exact hname

theorem WellFormed.adopt (h : e.WellFormed) {owner : String} (relation : Property)
    (hfree : ∀ q ∈ e.properties, q.name ≠ parentName) : (e.adopt owner relation).WellFormed :=
  have hpush : (e.push (.parent e.name owner relation.isSingle)).WellFormed :=
    h.push rfl (.inr (.inr rfl)) hfree
  ⟨hpush.indexed, hpush.first, hpush.bound, hpush.named⟩

/-- What taking a property out leaves: the other properties in their order. -/
theorem take_cases (h : e.WellFormed) {rest : Entity} (htake : e.take name = some (p, rest)) :
    p ∈ e.properties ∧ p.name = name ∧
      rest = { e with
        properties := e.properties.filter fun q ↦ q.name != name
        positions := rest.positions } ∧
      Indexed Property.name rest.properties rest.positions := by
  simp only [take, Option.bind_eq_bind, Option.bind_eq_some_iff, Option.pure_def,
    Option.some.injEq, Prod.mk.injEq] at htake
  obtain ⟨i, hi, q, hq, rfl, rfl⟩ := htake
  have hfound : e.get? name = some q := by simp [get?, hi, hq]
  obtain ⟨hmem, hname⟩ := (get?_eq_some_iff h).mp hfound
  refine ⟨hmem, hname, ?_, h.indexed.take hi⟩
  rw [h.indexed.eraseIdx_eq_filter hi]

theorem WellFormed.take (h : e.WellFormed) (hname : name ≠ idName) {rest : Entity}
    (htake : e.take name = some (p, rest)) : rest.WellFormed := by
  obtain ⟨-, -, hrest, hindexed⟩ := take_cases h htake
  rw [hrest] at hindexed ⊢
  refine ⟨hindexed, ?_, fun q hq ↦ h.bound q (List.mem_filter.mp hq).1,
    fun q hq ↦ h.named q (List.mem_filter.mp hq).1⟩
  obtain ⟨tail, htail⟩ := List.head?_eq_some_iff.mp h.first
  simp [htail, Property.id, Ne.symm hname]

/-- Releasing an entity takes away the reference to its owner, if there is one. -/
theorem release_cases (h : e.WellFormed) :
    e.release = { e with
      ownedBy := none
      properties := e.properties.filter fun q ↦ q.name != parentName
      positions := e.release.positions } ∧ e.release.WellFormed := by
  unfold release
  cases htake : e.take parentName with
  | some taken =>
    obtain ⟨p, rest⟩ := taken
    have hrest := (take_cases h htake).2.2.1
    have hwf := h.take (by decide) htake
    refine ⟨?_, hwf.indexed, hwf.first, hwf.bound, hwf.named⟩
    simp only [Option.elim_some]
    rw [hrest]
  | none =>
    have hfree : e.get? parentName = none := by
      cases hget : e.get? parentName with
      | none => rfl
      | some p =>
        obtain ⟨i, hi, hp⟩ := Option.bind_eq_some_iff.mp hget
        simp [take, hi, hp] at htake
    have hfilter : (e.properties.filter fun q ↦ q.name != parentName) = e.properties :=
      List.filter_eq_self.mpr fun q hq ↦ by simpa using (get?_eq_none_iff h).mp hfree q hq
    exact ⟨by simp [hfilter], h.indexed, h.first, h.bound, h.named⟩

end Entity

end EntityStore
