import EntityStore.Proofs.Schema.Entity

/-!
The invariant of schemas. The index finds the entities, every relation has its target, and the three
places that tell of an owner agree: the owned relation of the owner, the owner noted at the entity,
and its reference `@parent`. `Ownership` says for one entity that all three are free, or name one
and the same owner.
-/

set_option autoImplicit false

namespace EntityStore

namespace Schema

/-- Some entity of a name has an owned relation that leads to an entity. -/
def Owns (s : Schema) (owner : String) (p : Property) (target : String) : Prop :=
  (∃ e ∈ s.entities, e.name = owner ∧ p ∈ e.properties) ∧ p.owned? = some target

/-- Who owns an entity, told the same by its owner, by itself and by its reference `@parent`. -/
inductive Ownership (s : Schema) (d : Entity) : Option (String × Property) → Prop where
  | free (howner : d.ownedBy = none) (howns : ∀ o p, ¬s.Owns o p d.name)
      (hparent : ∀ q ∈ d.properties, q.name ≠ parentName) : Ownership s d none
  | owned {o : String} {p : Property} (howner : d.ownedBy = some (o, p.name))
      (howns : ∀ o' p', s.Owns o' p' d.name ↔ o' = o ∧ p' = p)
      (hparent : ∀ q, q ∈ d.properties ∧ q.name = parentName ↔ q = .parent d.name o p.isSingle)
      (hkind : d.kind = .detail) : Ownership s d (some (o, p))

structure WellFormed (s : Schema) : Prop where
  indexed : Indexed Entity.name s.entities s.positions
  entity : ∀ e ∈ s.entities, e.WellFormed
  target : ∀ e ∈ s.entities, ∀ p ∈ e.properties, ∀ t k, p.relation? = some (t, k) →
    ∃ d ∈ s.entities, d.name = t
  ownership : ∀ d ∈ s.entities, ∃ own, s.Ownership d own

variable {s : Schema} {d e : Entity} {name entity : String} {p : Property}

theorem get?_eq_some_iff (h : s.WellFormed) :
    s.get? name = some e ↔ e ∈ s.entities ∧ e.name = name :=
  h.indexed.bind_lookup_eq_some_iff

theorem find_eq_ok_iff (h : s.WellFormed) :
    s.find name = .ok e ↔ e ∈ s.entities ∧ e.name = name := by
  rw [← get?_eq_some_iff h]
  unfold find
  cases s.get? name <;> simp

theorem get?_eq_none_iff (h : s.WellFormed) :
    s.get? name = none ↔ ∀ e ∈ s.entities, e.name ≠ name :=
  h.indexed.bind_lookup_eq_none_iff

theorem WellFormed.eq_of_name_eq (h : s.WellFormed) (hd : d ∈ s.entities) (he : e ∈ s.entities)
    (hname : d.name = e.name) : d = e :=
  h.indexed.eq_of_name_eq hd he hname

/-- A property under the name `@parent` is the reference of an owned entity to its owner. -/
theorem Ownership.eq_parent {own : Option (String × Property)} (h : s.Ownership d own)
    (hp : p ∈ d.properties) (hname : p.name = parentName) :
    ∃ o r, own = some (o, r) ∧ p = .parent d.name o r.isSingle := by
  cases h with
  | free _ _ hparent => exact absurd hname (hparent p hp)
  | owned _ _ hparent _ => exact ⟨_, _, rfl, (hparent p).mp ⟨hp, hname⟩⟩

/-- A reference `@parent` owns nothing. -/
theorem WellFormed.owned?_parent (h : s.WellFormed) (he : e ∈ s.entities) (hp : p ∈ e.properties)
    (hname : p.name = parentName) : p.owned? = none := by
  obtain ⟨own, hown⟩ := h.ownership e he
  obtain ⟨o, r, -, rfl⟩ := hown.eq_parent hp hname
  rfl

/-- Ownership stays when neither the entity nor the relations that lead to it change. -/
theorem Ownership.congr {s' : Schema} {d' : Entity} {own : Option (String × Property)}
    (h : s.Ownership d own) (hname : d'.name = d.name) (hkind : d'.kind = d.kind)
    (howner : d'.ownedBy = d.ownedBy)
    (hparent : ∀ q, q.name = parentName → (q ∈ d'.properties ↔ q ∈ d.properties))
    (howns : ∀ o q, s'.Owns o q d.name ↔ s.Owns o q d.name) : s'.Ownership d' own := by
  cases h with
  | free howner₀ howns₀ hparent₀ =>
    refine .free (howner.trans howner₀) (fun o q hq ↦ ?_) fun q hq hqname ↦ ?_
    · rw [hname, howns] at hq
      exact howns₀ o q hq
    · exact hparent₀ q ((hparent q hqname).mp hq) hqname
  | owned howner₀ howns₀ hparent₀ hkind₀ =>
    refine .owned (howner.trans howner₀) (fun o q ↦ ?_) (fun q ↦ ?_) (hkind.trans hkind₀)
    · rw [hname, howns, howns₀]
    · rw [hname, ← hparent₀]
      exact and_congr_left (hparent q)

/-! ### Changing entities in place -/

theorem modify_eq (h : Indexed Entity.name s.entities s.positions) (name : String)
    (f : Entity → Entity) :
    s.modify name f =
      { s with entities := s.entities.map fun e ↦ if e.name = name then f e else e } := by
  unfold modify
  cases hi : s.positions.lookup name with
  | some i => simp only [h.modify_eq_map hi]
  | none =>
    have hsame : (s.entities.map fun e ↦ if e.name = name then f e else e) = s.entities := by
      refine (List.map_congr_left fun e he ↦ ?_).trans (List.map_id _)
      simp [h.lookup_eq_none_iff.mp hi e he]
    simp [hsame]

theorem indexed_modify (h : Indexed Entity.name s.entities s.positions) {f : Entity → Entity}
    (hf : ∀ e ∈ s.entities, e.name = name → (f e).name = e.name) :
    Indexed Entity.name (s.modify name f).entities (s.modify name f).positions := by
  rw [modify_eq h]
  refine h.map _ fun e he ↦ ?_
  split
  · next hname => exact hf e he hname
  · rfl

theorem mem_entities_modify (h : Indexed Entity.name s.entities s.positions) {f : Entity → Entity} :
    d ∈ (s.modify name f).entities ↔ ∃ e ∈ s.entities, d = if e.name = name then f e else e := by
  rw [modify_eq h]
  simp [eq_comm]

/-- The schema with every entity changed, none of them in its name. -/
def mapEntities (s : Schema) (f : Entity → Entity) : Schema :=
  { s with entities := s.entities.map f }

theorem mem_mapEntities {f : Entity → Entity} :
    d ∈ (s.mapEntities f).entities ↔ ∃ e ∈ s.entities, f e = d :=
  List.mem_map

theorem get?_mapEntities (f : Entity → Entity) (n : String) :
    (s.mapEntities f).get? n = (s.get? n).map f := by
  unfold get? mapEntities
  cases s.positions.lookup n <;> simp

theorem owns_mapEntities {f : Entity → Entity} (hname : ∀ e ∈ s.entities, (f e).name = e.name)
    {o t : String} {q : Property} :
    (s.mapEntities f).Owns o q t ↔
      (∃ e ∈ s.entities, e.name = o ∧ q ∈ (f e).properties) ∧ q.owned? = some t := by
  refine and_congr_left fun _ ↦ ⟨?_, ?_⟩
  · rintro ⟨d, hd, rfl, hq⟩
    obtain ⟨e, he, rfl⟩ := mem_mapEntities.mp hd
    exact ⟨e, he, (hname e he).symm, hq⟩
  · rintro ⟨e, he, rfl, hq⟩
    exact ⟨f e, mem_mapEntities.mpr ⟨e, he, rfl⟩, hname e he, hq⟩

theorem WellFormed.mapEntities (h : s.WellFormed) {f : Entity → Entity}
    (hname : ∀ e ∈ s.entities, (f e).name = e.name) (hentity : ∀ e ∈ s.entities, (f e).WellFormed)
    (htarget : ∀ e ∈ s.entities, ∀ q ∈ (f e).properties, q ∉ e.properties → ∀ t k,
      q.relation? = some (t, k) → ∃ d ∈ s.entities, d.name = t)
    (hownership : ∀ d ∈ s.entities, ∃ own, (s.mapEntities f).Ownership (f d) own) :
    (s.mapEntities f).WellFormed := by
  refine ⟨h.indexed.map f hname, fun d hd ↦ ?_, fun d hd q hq t k hrel ↦ ?_, fun d hd ↦ ?_⟩
  · obtain ⟨e, he, rfl⟩ := mem_mapEntities.mp hd
    exact hentity e he
  · obtain ⟨e, he, rfl⟩ := mem_mapEntities.mp hd
    have hd : ∃ d ∈ s.entities, d.name = t := by
      by_cases hold : q ∈ e.properties
      · exact h.target e he q hold t k hrel
      · exact htarget e he q hq hold t k hrel
    obtain ⟨d, hd, rfl⟩ := hd
    exact ⟨f d, mem_mapEntities.mpr ⟨d, hd, rfl⟩, hname d hd⟩
  · obtain ⟨e, he, rfl⟩ := mem_mapEntities.mp hd
    exact hownership e he

end Schema

end EntityStore
