import EntityStore.Proofs.Schema.Editing
import EntityStore.Proofs.Schema.Ownership

/-!
Adding entities and properties keeps schemas well-formed. An owned relation changes two entities at
once, or one entity twice, if it owns itself.
-/

set_option autoImplicit false

namespace EntityStore.Schema

variable {s : Schema} {d e : Entity} {name entity : String} {p : Property}

/-! ### Adding an entity -/

theorem WellFormed.push_fresh (h : s.WellFormed) (kind : EntityKind) (hnew : s.get? name = none) :
    (s.push (.fresh name kind)).WellFormed := by
  have hnew := (get?_eq_none_iff h).mp hnew
  have hmem {e : Entity} : e ∈ (s.push (.fresh name kind)).entities ↔
      e ∈ s.entities ∨ e = .fresh name kind := by
    simp [Schema.push]
  have howns (o : String) (q : Property) (t : String) :
      (s.push (.fresh name kind)).Owns o q t ↔ s.Owns o q t := by
    refine and_congr_left fun hq ↦ ⟨?_, fun ⟨e, he, hin⟩ ↦ ⟨e, hmem.mpr (.inl he), hin⟩⟩
    rintro ⟨e, he, hname, hin⟩
    rcases hmem.mp he with he | rfl
    · exact ⟨e, he, hname, hin⟩
    · obtain rfl : q = .id name := by simpa [Entity.fresh, Entity.push] using hin
      simp [Property.owned?] at hq
  refine ⟨h.indexed.push _ hnew, fun e he ↦ ?_, fun e he p hp t k hrel ↦ ?_, fun d hd ↦ ?_⟩
  · rcases hmem.mp he with he | rfl
    · exact h.entity e he
    · exact .fresh name kind
  · rcases hmem.mp he with he | rfl
    · obtain ⟨d, hd, hname⟩ := h.target e he p hp t k hrel
      exact ⟨d, hmem.mpr (.inl hd), hname⟩
    · obtain rfl : p = .id name := by simpa [Entity.fresh, Entity.push] using hp
      simp at hrel
  · rcases hmem.mp hd with hd | rfl
    · obtain ⟨own, hown⟩ := h.ownership d hd
      exact ⟨own, hown.congr rfl rfl rfl (fun _ _ ↦ .rfl) fun o q ↦ howns o q d.name⟩
    · refine ⟨none, .free rfl (fun o q hq ↦ ?_) fun q hq ↦ ?_⟩
      · -- a relation to the new entity would have had a target before
        obtain ⟨⟨e, he, -, hin⟩, howned⟩ := (howns o q name).mp hq
        obtain ⟨d, hd, hname⟩ := h.target e he q hin name .owned
          (Property.owned?_eq_some_iff.mp howned)
        exact hnew d hd hname
      · obtain rfl : q = .id name := by simpa [Entity.fresh, Entity.push] using hq
        exact fun hname ↦ absurd hname (by decide : idName ≠ parentName)

/-! ### Adding a property -/

theorem relate_eq_ok (h : s.WellFormed) {owned : Option String}
    (hrelate : s.relate entity p = .ok owned) :
    owned = p.owned? ∧
      (∀ t k, p.relation? = some (t, k) → ∃ d ∈ s.entities, d.name = t) ∧
      ∀ t, p.owned? = some t → ∃ d ∈ s.entities, d.name = t ∧ d.kind = .detail ∧
      d.ownedBy = none := by
  unfold relate at hrelate
  cases hrel : p.relation? with
  | none =>
    obtain rfl : none = owned := by simpa [hrel] using hrelate
    simp [Property.owned?, hrel]
  | some relation =>
    obtain ⟨t, k⟩ := relation
    simp only [hrel] at hrelate
    cases hget : s.get? t with
    | none => simp [hget] at hrelate
    | some child =>
      obtain ⟨hchild, hname⟩ := (get?_eq_some_iff h).mp hget
      simp only [hget] at hrelate
      cases k with
      | linked =>
        obtain rfl : none = owned := by simpa using hrelate
        refine ⟨by simp [Property.owned?, hrel], ?_, by simp [Property.owned?, hrel]⟩
        rintro t' k' ⟨rfl, rfl⟩
        exact ⟨child, hchild, hname⟩
      | owned =>
        simp only [reduceCtorEq, ↓reduceIte] at hrelate
        split at hrelate
        · cases hrelate
        · next hkind =>
          cases howner : child.ownedBy with
          | some owner => simp [howner] at hrelate
          | none =>
            obtain rfl : some t = owned := by simpa [howner] using hrelate
            refine ⟨by simp [Property.owned?, hrel], ?_, ?_⟩
            · rintro t' k' ⟨rfl, rfl⟩
              exact ⟨child, hchild, hname⟩
            · intro t' ht'
              obtain rfl : t = t' := by simpa [Property.owned?, hrel] using ht'
              exact ⟨child, hchild, hname, Decidable.not_not.mp hkind, howner⟩

/-- An entity that a property may make owned. -/
def adopted (entity : String) (p : Property) (e : Entity) : Entity :=
  if p.owned? = some e.name then e.adopt entity p else e

theorem name_adopted (entity : String) (p : Property) (e : Entity) :
    (adopted entity p e).name = e.name := by
  unfold adopted
  split <;> rfl

theorem mem_adopted {q : Property} : q ∈ (adopted entity p e).properties ↔
    q ∈ e.properties ∨ p.owned? = some e.name ∧ q = .parent e.name entity p.isSingle := by
  unfold adopted
  by_cases howned : p.owned? = some e.name <;> simp [howned, Entity.adopt, Entity.push]

/-- An entity after a property was added to some entity: it may be the one owned now, the one the
property was added to, or both. -/
def withProperty (entity : String) (p : Property) (e : Entity) : Entity :=
  if e.name = entity then (adopted entity p e).push { p with entity := some entity }
  else adopted entity p e

theorem name_withProperty (entity : String) (p : Property) (e : Entity) :
    (withProperty entity p e).name = e.name := by
  unfold withProperty adopted
  split <;> split <;> rfl

theorem kind_withProperty (entity : String) (p : Property) (e : Entity) :
    (withProperty entity p e).kind = e.kind := by
  unfold withProperty adopted
  split <;> split <;> rfl

theorem ownedBy_withProperty (entity : String) (p : Property) (e : Entity) :
    (withProperty entity p e).ownedBy =
      if p.owned? = some e.name then some (entity, p.name) else e.ownedBy := by
  unfold withProperty adopted
  split <;> split <;> rfl

theorem mem_withProperty {q : Property} :
    q ∈ (withProperty entity p e).properties ↔
      q ∈ e.properties ∨
        p.owned? = some e.name ∧ q = .parent e.name entity p.isSingle ∨
        e.name = entity ∧ q = { p with entity := some entity } := by
  unfold withProperty
  split
  · next hname => simp [Entity.push, mem_adopted, hname, or_assoc]
  · next hname => simp [mem_adopted, hname]

theorem addProperty_eq (h : s.WellFormed) (entity : String) (p : Property) :
    (p.owned?.elim s fun target ↦ s.modify target fun child ↦ child.adopt entity p).modify entity
        (fun e ↦ e.push { p with entity := some entity }) =
      s.mapEntities (withProperty entity p) := by
  cases howned : p.owned? with
  | none =>
    simp only [Option.elim_none, modify_eq h.indexed, Schema.mapEntities]
    congr 1
    refine List.map_congr_left fun e _ ↦ ?_
    simp [withProperty, adopted, howned]
  | some target =>
    have hindexed := indexed_modify (f := fun child ↦ child.adopt entity p) h.indexed
      fun e _ (_ : e.name = target) ↦ rfl
    rw [Option.elim_some, modify_eq hindexed, modify_eq h.indexed, List.map_map]
    unfold Schema.mapEntities
    congr 1
    refine List.map_congr_left fun e _ ↦ ?_
    by_cases htarget : e.name = target
    · simp [withProperty, adopted, howned, htarget, Entity.adopt, Entity.push]
    · simp [withProperty, adopted, howned, htarget, Ne.symm htarget]

section

variable {owner : Entity} {owned : Option String}

/-- The entity that a new property comes to own is free up to now. -/
theorem free_of_relate (h : s.WellFormed) (hrelate : s.relate entity p = .ok owned)
    (hd : d ∈ s.entities) (howned : p.owned? = some d.name) :
    s.Ownership d none ∧ d.kind = .detail := by
  obtain ⟨d', hd', hname, hkind, hnone⟩ := (relate_eq_ok h hrelate).2.2 d.name howned
  obtain rfl := h.eq_of_name_eq hd' hd hname
  obtain ⟨own, hown⟩ := h.ownership d' hd
  cases hown with
  | free howner howns hparent => exact ⟨.free howner howns hparent, hkind⟩
  | owned howner _ _ _ => rw [hnone] at howner; cases howner

/-- To what there was, a new property adds that its entity owns what it leads to. -/
theorem owns_withProperty (howner : owner ∈ s.entities) (o : String) (q : Property) (t : String) :
    (s.mapEntities (withProperty owner.name p)).Owns o q t ↔
      s.Owns o q t ∨ o = owner.name ∧ q = { p with entity := some owner.name } ∧
      p.owned? = some t := by
  simp only [owns_mapEntities fun e _ ↦ name_withProperty owner.name p e, mem_withProperty]
  constructor
  · rintro ⟨⟨e, he, rfl, hq | ⟨-, rfl⟩ | ⟨hname, rfl⟩⟩, howned⟩
    · exact .inl ⟨⟨e, he, rfl, hq⟩, howned⟩
    · cases howned
    · exact .inr ⟨hname, rfl, howned⟩
  · rintro (⟨⟨e, he, hname, hq⟩, howned⟩ | ⟨rfl, rfl, howned⟩)
    · exact ⟨⟨e, he, hname, .inl hq⟩, howned⟩
    · exact ⟨⟨owner, howner, rfl, .inr (.inr ⟨rfl, rfl⟩)⟩, howned⟩

theorem wellFormed_withProperty (he : e.WellFormed) (hname : isName p.name)
    (hfresh : e.name = entity → ∀ q ∈ e.properties, q.name ≠ p.name)
    (hunparented : p.owned? = some e.name → ∀ q ∈ e.properties, q.name ≠ parentName) :
    (withProperty entity p e).WellFormed := by
  have hadopted : (adopted entity p e).WellFormed := by
    unfold adopted
    split
    · next howned => exact he.adopt p (hunparented howned)
    · exact he
  unfold withProperty
  split
  · next hsame =>
    refine hadopted.push (by rw [name_adopted, hsame]) (.inl hname) fun q hq ↦ ?_
    rcases mem_adopted.mp hq with hq | ⟨-, rfl⟩
    · exact hfresh hsame q hq
    · exact (isName_ne_parent hname).symm
  · exact hadopted

/-- The entity that a new property leads to and owns has the entity of the property as its owner. -/
theorem ownership_adopted (howner : owner ∈ s.entities) (hname : isName p.name)
    (hfree : s.Ownership d none) (hkind : d.kind = .detail) (howned : p.owned? = some d.name) :
    (s.mapEntities (withProperty owner.name p)).Ownership (withProperty owner.name p d)
      (some (owner.name, { p with entity := some owner.name })) := by
  cases hfree with
  | free _ howns hparent =>
    refine .owned (by rw [ownedBy_withProperty, if_pos howned]) (fun o q ↦ ?_) (fun q ↦ ?_)
      (by rw [kind_withProperty, hkind])
    · rw [name_withProperty, owns_withProperty howner]
      simp [howns, howned]
    · rw [name_withProperty, mem_withProperty]
      constructor
      · rintro ⟨hq | ⟨-, rfl⟩ | ⟨-, rfl⟩, hqname⟩
        · exact absurd hqname (hparent q hq)
        · rfl
        · exact absurd hqname (isName_ne_parent hname)
      · rintro rfl
        exact ⟨.inr (.inl ⟨howned, rfl⟩), rfl⟩

theorem Ownership.withProperty {own : Option (String × Property)} (h : s.Ownership d own)
    (howner : owner ∈ s.entities) (hname : isName p.name) (hother : p.owned? ≠ some d.name) :
    (s.mapEntities (Schema.withProperty owner.name p)).Ownership
      (Schema.withProperty owner.name p d) own := by
  refine h.congr (name_withProperty ..) (kind_withProperty ..)
    (by rw [ownedBy_withProperty, if_neg hother]) (fun q hqname ↦ ?_) fun o q ↦ ?_
  · rw [mem_withProperty]
    constructor
    · rintro (hq | ⟨howned, -⟩ | ⟨-, rfl⟩)
      · exact hq
      · exact absurd howned hother
      · exact absurd hqname (isName_ne_parent hname)
    · exact .inl
  · rw [owns_withProperty howner]
    simp [hother]

theorem WellFormed.withProperty (h : s.WellFormed) (hadd : Editing.Addable s entity p owner)
    (hrelate : s.relate entity p = .ok owned) :
    (s.mapEntities (withProperty entity p)).WellFormed := by
  obtain ⟨-, htarget, -⟩ := relate_eq_ok h hrelate
  obtain ⟨howner, rfl⟩ := (get?_eq_some_iff h).mp hadd.entity
  refine h.mapEntities (fun e _ ↦ name_withProperty owner.name p e) (fun e he ↦ ?_)
    (fun e he q hq hnew t k hrel ↦ ?_) fun d hd ↦ ?_
  · refine wellFormed_withProperty (h.entity e he) hadd.name (fun hname ↦ ?_) fun howned ↦ ?_
    · obtain rfl := h.eq_of_name_eq he howner hname
      exact (Entity.get?_eq_none_iff (h.entity e he)).mp hadd.fresh
    · cases (free_of_relate h hrelate he howned).1 with
      | free _ _ hparent => exact hparent
  · rcases mem_withProperty.mp hq with hq | ⟨howned, rfl⟩ | ⟨hname, rfl⟩
    · exact absurd hq hnew
    · obtain ⟨rfl, -⟩ : owner.name = t ∧ RelationKind.linked = k := by
        simpa [Property.relation?, Property.parent] using hrel
      exact ⟨owner, howner, rfl⟩
    · exact htarget t k hrel
  · by_cases howned : p.owned? = some d.name
    · obtain ⟨hfree, hkind⟩ := free_of_relate h hrelate hd howned
      exact ⟨_, ownership_adopted howner hadd.name hfree hkind howned⟩
    · obtain ⟨own, hown⟩ := h.ownership d hd
      exact ⟨own, hown.withProperty howner hadd.name howned⟩

end

end EntityStore.Schema
