import EntityStore.Proofs.Schema.Addition
import EntityStore.Proofs.Schema.Removal
import Mathlib.Data.List.Nodup
import Mathlib.Data.List.TFAE
import Mathlib.Tactic.TFAE

/-!
A call fails and leaves a schema alone, or does all of its work (`WellFormed.call_cases`). Every
call keeps a schema well-formed, so that every reachable schema is well-formed
(`Reachable.wellFormed`) and its entities have proper names (`Reachable.named`). `after_consistent`
says what this means for names, indexes, row numbers and owners.
-/

set_option autoImplicit false

namespace EntityStore.Schema

variable {s s' : Schema}

theorem WellFormed.empty : empty.WellFormed where
  indexed := .nil Entity.name
  entity := by simp [Schema.empty]
  target := by simp [Schema.empty]
  ownership := by simp [Schema.empty]

theorem WellFormed.setCommitted (h : s.WellFormed) (committed : Bool) :
    { s with committed := committed : Schema }.WellFormed := by
  refine ⟨h.indexed, h.entity, h.target, fun d hd ↦ ?_⟩
  obtain ⟨own, hown⟩ := h.ownership d hd
  exact ⟨own, hown.congr rfl rfl rfl (fun _ _ ↦ .rfl) fun _ _ ↦ .rfl⟩

/-! ### The outcomes of a call -/

/-- What a call that succeeds makes of a schema, and what was checked before. -/
inductive Succeeds (s : Schema) : Call → Schema → Prop where
  | addEntity {name : String} (kind : EntityKind) (hname : isName name)
    (hnew : s.get? name = none) :
    Succeeds s (.addEntity name kind) (s.push (.fresh name kind))
  | addProperty {entity : String} {p : Property} {owner : Entity} {owned : Option String}
    (hadd : Editing.Addable s entity p owner) (hrelate : s.relate entity p = .ok owned) :
    Succeeds s (.addProperty entity p) (s.mapEntities (withProperty entity p))
  | removeProperty {owner rest : Entity} {name : String} {p : Property} (hid : name ≠ idName)
    (hparent : name ≠ parentName) (howner : owner ∈ s.entities)
    (htake : owner.take name = some (p, rest)) :
    Succeeds s (.removeProperty owner.name name) (s.mapEntities (withoutProperty owner.name p rest))
  | removeEntity {name : String} {e : Entity} (hget : s.get? name = some e)
    (hunused : ∀ other ∈ s.entities, other.name ≠ name → other.refersTo name = false) :
    Succeeds s (.removeEntity name) (s.withoutEntity name)
  | change : Succeeds s .change { s with committed := false }
  | commit : Succeeds s .commit { s with committed := true }

/-- A call either fails and changes nothing, or does all of its work. -/
theorem WellFormed.call_cases (h : s.WellFormed) (c : Call) :
    (∃ e, s.call c = (.error e, s)) ∨ ∃ s', s.call c = (.ok (), s') ∧ s.Succeeds c s' := by
  cases c with
  | addEntity name kind =>
    rcases Editing.addEntity_cases s name kind with hfail | ⟨hname, hnew, hrun⟩
    · exact .inl hfail
    · exact .inr ⟨_, hrun, .addEntity kind hname hnew⟩
  | addProperty entity p =>
    rcases Editing.addProperty_cases s entity p with hfail | ⟨owner, owned, hadd, hrelate, hrun⟩
    · exact .inl hfail
    · rw [(relate_eq_ok h hrelate).1, addProperty_eq h] at hrun
      exact .inr ⟨_, hrun, .addProperty hadd hrelate⟩
  | removeProperty entity name =>
    rcases Editing.removeProperty_cases s entity name with
      hfail | ⟨owner, p, rest, hid, hparent, hget, htake, hrun⟩
    · exact .inl hfail
    · obtain ⟨howner, rfl⟩ := (get?_eq_some_iff h).mp hget
      rw [removeProperty_eq h howner htake] at hrun
      exact .inr ⟨_, hrun, .removeProperty hid hparent howner htake⟩
  | removeEntity name =>
    rcases Editing.removeEntity_cases s name with hfail | ⟨⟨e, hget⟩, hunused, hrun⟩
    · exact .inl hfail
    · rw [removeEntity_eq h] at hrun
      exact .inr ⟨_, hrun, .removeEntity hget hunused⟩
  | change => exact .inr ⟨_, rfl, .change⟩
  | commit => exact .inr ⟨_, rfl, .commit⟩

theorem WellFormed.succeeds (h : s.WellFormed) {c : Call} (hrun : s.call c = (.ok (), s')) :
    s.Succeeds c s' := by
  rcases h.call_cases c with ⟨e, hfail⟩ | ⟨_, hrun', hsucceeds⟩
  · cases hrun.symm.trans hfail
  · cases hrun.symm.trans hrun'
    exact hsucceeds

theorem Succeeds.wellFormed {c : Call} (hsucceeds : s.Succeeds c s')
    (h : s.WellFormed) : s'.WellFormed := by
  cases hsucceeds with
  | addEntity kind _ hnew => exact h.push_fresh kind hnew
  | addProperty hadd hrelate => exact h.withProperty hadd hrelate
  | removeProperty hid hparent howner htake => exact h.withoutProperty howner htake hid hparent
  | removeEntity _ hunused => exact h.withoutEntity hunused
  | change => exact h.setCommitted false
  | commit => exact h.setCommitted true

theorem WellFormed.call (h : s.WellFormed) (c : Call) : (s.call c).2.WellFormed := by
  rcases h.call_cases c with ⟨e, hfail⟩ | ⟨s', hrun, hsucceeds⟩
  · rwa [hfail]
  · rw [hrun]
    exact hsucceeds.wellFormed h

theorem WellFormed.after (h : s.WellFormed) (calls : List Call) : (s.after calls).WellFormed := by
  induction calls generalizing s with
  | nil => exact h
  | cons c calls ih => exact ih (h.call c)

theorem Reachable.wellFormed (h : s.Reachable) : s.WellFormed := by
  obtain ⟨calls, rfl⟩ := h
  exact .after .empty calls

theorem Succeeds.named {c : Call} (hsucceeds : s.Succeeds c s') (h : s.WellFormed)
    (hnamed : ∀ e ∈ s.entities, isName e.name) : ∀ d ∈ s'.entities, isName d.name := by
  intro d hd
  cases hsucceeds with
  | addEntity kind hname _ =>
    rcases List.mem_append.mp hd with hd | hd
    · exact hnamed d hd
    · exact List.mem_singleton.mp hd ▸ hname
  | addProperty =>
    obtain ⟨e, he, rfl⟩ := mem_mapEntities.mp hd
    rw [name_withProperty]
    exact hnamed e he
  | removeProperty hid _ howner htake =>
    obtain ⟨e, he, rfl⟩ := mem_mapEntities.mp hd
    rw [(withoutProperty_cases h howner htake hid he).1]
    exact hnamed e he
  | removeEntity =>
    obtain ⟨e, he, -, rfl⟩ := (mem_withoutEntity h).mp hd
    rw [(releasedIf_cases (h.entity e he) _).1]
    exact hnamed e he
  | change => exact hnamed d hd
  | commit => exact hnamed d hd

theorem WellFormed.call_named (h : s.WellFormed)
    (hnamed : ∀ e ∈ s.entities, isName e.name) (c : Call) :
    ∀ e ∈ (s.call c).2.entities, isName e.name := by
  rcases h.call_cases c with ⟨e, hfail⟩ | ⟨s', hrun, hsucceeds⟩
  · rwa [hfail]
  · rw [hrun]
    exact hsucceeds.named h hnamed

theorem WellFormed.after_named (h : s.WellFormed) (hnamed : ∀ e ∈ s.entities, isName e.name)
    (calls : List Call) :
    ∀ e ∈ (s.after calls).entities, isName e.name := by
  induction calls generalizing s with
  | nil => exact hnamed
  | cons c calls ih => exact ih (h.call c) (h.call_named hnamed c)

/-- The names of entities are found fit when they are added, and stay. -/
theorem Reachable.named (h : s.Reachable) : ∀ e ∈ s.entities, isName e.name := by
  obtain ⟨calls, rfl⟩ := h
  exact WellFormed.empty.after_named (List.forall_mem_nil _) calls

/-! ### What the invariant says -/

/-- Names are unique and found through the indexes; the row number comes first and is the only
property of its name; properties are bound and relations have targets; and who owns an entity is
told the same by the entity, by the relations that lead to it and by its references `@parent`. -/
structure Consistent (s : Schema) : Prop where
  names : (s.entities.map Entity.name).Nodup
  index : ∀ name i, s.positions.lookup name = some i ↔ s.entities[i]?.map Entity.name = some name
  propertyNames : ∀ e ∈ s.entities, (e.properties.map Property.name).Nodup
  propertyIndex : ∀ e ∈ s.entities, ∀ name i,
    e.positions.lookup name = some i ↔ e.properties[i]?.map Property.name = some name
  id : ∀ e ∈ s.entities, e.properties.head? = some (.id e.name) ∧
    ∀ p ∈ e.properties, p.name = idName → p = .id e.name
  bound : ∀ e ∈ s.entities, ∀ p ∈ e.properties, p.entity = some e.name
  target : ∀ e ∈ s.entities, ∀ p ∈ e.properties, ∀ t k, p.relation? = some (t, k) →
    ∃ d ∈ s.entities, d.name = t
  owner : ∀ d ∈ s.entities, ∀ o,
    [∃ r, d.ownedBy = some (o, r), ∃ p, s.Owns o p d.name,
      ∃ single, d.properties.filter Property.isParent = [.parent d.name o single]].TFAE
  relation : ∀ d ∈ s.entities, ∀ o r, d.ownedBy = some (o, r) ↔ ∃ p, s.Owns o p d.name ∧ p.name = r
  parent : ∀ d ∈ s.entities, ∀ o p, s.Owns o p d.name → d.kind = .detail ∧
    d.properties.filter Property.isParent = [.parent d.name o p.isSingle]
  unique : ∀ d ∈ s.entities, ∀ o p o' p', s.Owns o p d.name → s.Owns o' p' d.name → o = o' ∧ p = p'

/-- The references `@parent` of an entity: one if it is owned, else none. -/
theorem Ownership.filter_isParent {d : Entity} (hd : d.WellFormed)
    {own : Option (String × Property)} (h : s.Ownership d own) :
    d.properties.filter Property.isParent =
      (own.map fun (o, p) ↦ .parent d.name o p.isSingle).toList := by
  cases h with
  | free _ _ hparent =>
    refine List.filter_eq_nil_iff.mpr fun q hq ↦ ?_
    exact mt Property.isParent_iff.mp (hparent q hq)
  | @owned o p _ _ hparent _ =>
    have hnodup : (d.properties.filter Property.isParent).Nodup :=
      (List.Nodup.of_map Property.name hd.indexed.nodup).filter _
    refine List.perm_singleton.mp ((List.perm_ext_iff_of_nodup hnodup (by simp)).mpr fun q ↦ ?_)
    have hq := hparent q
    simpa [Property.isParent] using hq

theorem Ownership.owns_iff {d : Entity} {own : Option (String × Property)}
    (h : s.Ownership d own) {o : String} {p : Property} :
    s.Owns o p d.name ↔ own = some (o, p) := by
  cases h with
  | free _ howns _ => simp [howns o p]
  | @owned o' p' _ howns _ _ =>
    rw [howns, Option.some.injEq, Prod.mk.injEq]
    exact ⟨fun ⟨h₁, h₂⟩ ↦ ⟨h₁.symm, h₂.symm⟩, fun ⟨h₁, h₂⟩ ↦ ⟨h₁.symm, h₂.symm⟩⟩

theorem Ownership.ownedBy_eq {d : Entity} {own : Option (String × Property)}
    (h : s.Ownership d own) : d.ownedBy = own.map fun (o, p) ↦ (o, p.name) := by
  cases h with
  | free howner _ _ => exact howner
  | owned howner _ _ _ => exact howner

theorem WellFormed.consistent (h : s.WellFormed) : s.Consistent where
  names := h.indexed.nodup
  index := h.indexed.lookup
  propertyNames e he := (h.entity e he).indexed.nodup
  propertyIndex e he := (h.entity e he).indexed.lookup
  id e he := ⟨(h.entity e he).first, fun _ hp ↦ (h.entity e he).eq_id hp⟩
  bound e he := (h.entity e he).bound
  target := h.target
  owner d hd o := by
    obtain ⟨own, hown⟩ := h.ownership d hd
    rw [hown.ownedBy_eq, hown.filter_isParent (h.entity d hd)]
    simp only [hown.owns_iff]
    cases own with
    | none => simp
    | some own =>
      obtain ⟨o', p'⟩ := own
      tfae_have 1 → 2 := by
        rintro ⟨r, hr⟩
        obtain ⟨rfl, -⟩ : o' = o ∧ p'.name = r := by simpa using hr
        exact ⟨p', rfl⟩
      tfae_have 2 → 3 := by
        rintro ⟨p, hp⟩
        obtain ⟨rfl, rfl⟩ : o' = o ∧ p' = p := by simpa using hp
        exact ⟨p'.isSingle, rfl⟩
      tfae_have 3 → 1 := by
        rintro ⟨single, hsingle⟩
        obtain ⟨rfl, -⟩ : o' = o ∧ p'.isSingle = single := by simpa [Property.parent] using hsingle
        exact ⟨p'.name, rfl⟩
      tfae_finish
  relation d hd o r := by
    obtain ⟨own, hown⟩ := h.ownership d hd
    simp only [hown.ownedBy_eq, hown.owns_iff, Option.map_eq_some_iff, Prod.mk.injEq]
    constructor
    · rintro ⟨⟨o', p⟩, hown, rfl, rfl⟩
      exact ⟨p, hown, rfl⟩
    · rintro ⟨p, hown, rfl⟩
      exact ⟨(o, p), hown, rfl, rfl⟩
  parent d hd o p howns := by
    obtain ⟨own, hown⟩ := h.ownership d hd
    obtain rfl := hown.owns_iff.mp howns
    refine ⟨?_, hown.filter_isParent (h.entity d hd)⟩
    cases hown with
    | owned _ _ _ hkind => exact hkind
  unique d hd o p o' p' howns howns' := by
    obtain ⟨own, hown⟩ := h.ownership d hd
    have heq := (hown.owns_iff.mp howns).symm.trans (hown.owns_iff.mp howns')
    simpa using heq

/-- After any calls from the empty schema, whether they succeeded or failed, the schema is
consistent, and a further call either succeeds or leaves it exactly as it is. -/
theorem after_consistent (calls : List Call) :
    (empty.after calls).Consistent ∧
      ∀ c, (∃ s', (empty.after calls).call c = (.ok (), s')) ∨
        ∃ e, (empty.after calls).call c = (.error e, empty.after calls) := by
  have hwf : (empty.after calls).WellFormed := .after .empty calls
  refine ⟨hwf.consistent, fun c ↦ ?_⟩
  rcases hwf.call_cases c with hfail | ⟨s', hrun, -⟩
  · exact .inr hfail
  · exact .inl ⟨s', hrun⟩

/-- An entity may own itself; removing the relation releases it. -/
example :
    let calls : List Call := [.addEntity "Part" .detail, .addEntity "Unit" .master,
      .addProperty "Part" (.collection "parts" ⟨.owned, "Part"⟩)]
    ((empty.after calls).entities.map Entity.ownedBy = [some ("Part", "parts"), none]) ∧
      (empty.after (calls ++ [.removeProperty "Part" "parts"])).entities.map
        (fun e ↦ e.properties.map Property.name) = [["@id"], ["@id"]] := by
  decide

end EntityStore.Schema
