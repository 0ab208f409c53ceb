import EntityStore.Proofs.Schema.Invariant
import Mathlib.Data.List.Induction
import Mathlib.Logic.Relation

/-!
The graph of owners. Every call but one keeps it a forest, in which following the owners from any
entity ends at an entity without one: the exception is a call that adds an owned relation from an
entity to itself or to one of those above it, which the checks of a new relation let pass
(`details_owning_each_other`). `after_forest_iff` says that nothing else closes a cycle.
-/

set_option autoImplicit false

namespace EntityStore.Schema

open Relation

variable {s s' : Schema} {name owner entity target : String} {p : Property}

/-- The owner noted at an entity. -/
def HasOwner (s : Schema) (name owner : String) : Prop :=
  ∃ e ∈ s.entities, e.name = name ∧ ∃ r, e.ownedBy = some (owner, r)

/-- Following the owners from an entity ends after finitely many steps, at an entity without
owner. -/
inductive Rooted (s : Schema) : String → Prop where
  | root {e : Entity} (he : e ∈ s.entities) (hfree : e.ownedBy = none) : Rooted s e.name
  | owned {name owner : String} (howner : s.HasOwner name owner) (h : Rooted s owner) :
    Rooted s name

/-- Following the owners ends everywhere, and no entity owns itself, be it through others. -/
structure Forest (s : Schema) : Prop where
  rooted : ∀ e ∈ s.entities, s.Rooted e.name
  acyclic : ∀ name, ¬TransGen (fun o d ↦ ∃ p, s.Owns o p d) name name

/-- A call succeeds and makes an entity own itself or one of those above it. -/
def Closes (s : Schema) (c : Call) : Prop :=
  (s.call c).1 = .ok () ∧ ∃ entity p target, c = .addProperty entity p ∧ p.owned? = some target ∧
    ReflTransGen s.HasOwner entity target

/-! ### Owners of a well-formed schema -/

/-- The owner noted at an entity is the one that has a relation leading to it. -/
theorem hasOwner_iff_owns (h : s.WellFormed) :
    s.HasOwner name owner ↔ ∃ p, s.Owns owner p name := by
  constructor
  · rintro ⟨d, hd, rfl, r, hr⟩
    obtain ⟨p, howns, -⟩ := (h.consistent.relation d hd owner r).mp hr
    exact ⟨p, howns⟩
  · rintro ⟨p, howns⟩
    have ⟨⟨e, he, _, hp⟩, howned⟩ := howns
    obtain ⟨d, hd, rfl⟩ := h.target e he p hp name .owned (Property.owned?_eq_some_iff.mp howned)
    exact ⟨d, hd, rfl, p.name, (h.consistent.relation d hd owner p.name).mpr ⟨p, howns, rfl⟩⟩

theorem transGen_owns_iff (h : s.WellFormed) :
    TransGen (fun o d ↦ ∃ p, s.Owns o p d) name name ↔ TransGen s.HasOwner name name := by
  have hswap : (fun o d ↦ ∃ p, s.Owns o p d) = Function.swap s.HasOwner := by
    funext o d
    exact propext (hasOwner_iff_owns h).symm
  rw [hswap, transGen_swap]

theorem HasOwner.unique (h : s.WellFormed) {owner' : String} (howner : s.HasOwner name owner)
    (howner' : s.HasOwner name owner') : owner = owner' := by
  obtain ⟨d, hd, rfl, r, hr⟩ := howner
  obtain ⟨d', hd', hname, r', hr'⟩ := howner'
  obtain rfl := h.eq_of_name_eq hd' hd hname
  rw [hr, Option.some.injEq, Prod.mk.injEq] at hr'
  exact hr'.1

theorem not_hasOwner (h : s.WellFormed) {e : Entity} (he : e ∈ s.entities)
    (hfree : e.ownedBy = none) :
    ¬s.HasOwner e.name owner := by
  rintro ⟨d, hd, hname, r, hr⟩
  obtain rfl := h.eq_of_name_eq hd he hname
  rw [hfree] at hr
  cases hr

/-- The owner is an entity of the schema. -/
theorem HasOwner.exists_owner (h : s.WellFormed) (howner : s.HasOwner name owner) :
    ∃ e ∈ s.entities, e.name = owner := by
  obtain ⟨p, ⟨e, he, hname, -⟩, -⟩ := (hasOwner_iff_owns h).mp howner
  exact ⟨e, he, hname⟩

/-- Where following the owners ends, it did not come back before. -/
theorem Rooted.not_transGen (h : s.WellFormed) (hname : s.Rooted name) :
    ¬TransGen s.HasOwner name name := by
  induction hname with
  | root he hfree =>
    intro hcycle
    obtain ⟨o, howner, -⟩ := TransGen.head'_iff.mp hcycle
    exact not_hasOwner h he hfree howner
  | owned howner _ ih =>
    intro hcycle
    obtain ⟨o, howner', hback⟩ := TransGen.head'_iff.mp hcycle
    obtain rfl := howner'.unique h howner
    exact ih (.tail' hback howner')

/-- The two things that a forest is follow from the first. -/
theorem forest_iff_rooted (h : s.WellFormed) : s.Forest ↔ ∀ e ∈ s.entities, s.Rooted e.name := by
  refine ⟨Forest.rooted, fun hrooted ↦ ⟨hrooted, fun name hcycle ↦ ?_⟩⟩
  rw [transGen_owns_iff h] at hcycle
  obtain ⟨o, ⟨e, he, rfl, -⟩, -⟩ := TransGen.head'_iff.mp hcycle
  exact (hrooted e he).not_transGen h hcycle

/-! ### Calls that give no entity an owner -/

/-- Every entity has no owner now, or the one it had before. -/
def Loosens (s s' : Schema) : Prop :=
  ∀ d ∈ s'.entities, d.ownedBy = none ∨ ∃ e ∈ s.entities, e.name = d.name ∧ e.ownedBy = d.ownedBy

theorem Rooted.loosens (h : s.WellFormed) (h' : s'.WellFormed) (hloose : s.Loosens s')
    (hname : s.Rooted name) {d : Entity} (hd : d ∈ s'.entities) (hdname : d.name = name) :
    s'.Rooted name := by
  induction hname generalizing d with
  | @root e he hfree =>
    rw [← hdname]
    rcases hloose d hd with hnone | ⟨e', he', hsame, howner⟩
    · exact .root hd hnone
    · obtain rfl := h.eq_of_name_eq he' he (hsame.trans hdname)
      exact .root hd (howner.symm.trans hfree)
  | @owned n o howner _ ih =>
    rcases hloose d hd with hnone | ⟨e, he, hsame, hkept⟩
    · exact hdname ▸ .root hd hnone
    · obtain ⟨e', he', hname', r, hr⟩ := howner
      obtain rfl := h.eq_of_name_eq he he' ((hsame.trans hdname).trans hname'.symm)
      have howner' : s'.HasOwner n o := ⟨d, hd, hdname, r, hkept.symm.trans hr⟩
      obtain ⟨d', hd', hdname'⟩ := howner'.exists_owner h'
      exact .owned howner' (ih hd' hdname')

theorem Forest.loosens (hforest : s.Forest) (h : s.WellFormed) (h' : s'.WellFormed)
    (hloose : s.Loosens s') : s'.Forest := by
  refine (forest_iff_rooted h').mpr fun d hd ↦ ?_
  rcases hloose d hd with hfree | ⟨e, he, hname, -⟩
  · exact .root hd hfree
  · exact hname ▸ (hforest.rooted e he).loosens h h' hloose hd hname.symm

/-! ### Calls that give an entity an owner -/

theorem hasOwner_withProperty (hfree : ∀ o, ¬s.HasOwner target o)
    (hd : ∃ d ∈ s.entities, d.name = target) (howned : p.owned? = some target) {n o : String} :
    (s.mapEntities (withProperty entity p)).HasOwner n o ↔
      s.HasOwner n o ∨ n = target ∧ o = entity := by
  constructor
  · rintro ⟨d, hd, rfl, r, hr⟩
    obtain ⟨e, he, rfl⟩ := mem_mapEntities.mp hd
    rw [ownedBy_withProperty] at hr
    rw [name_withProperty]
    split at hr
    · next htarget =>
      rw [howned, Option.some.injEq] at htarget
      rw [Option.some.injEq, Prod.mk.injEq] at hr
      exact .inr ⟨htarget.symm, hr.1.symm⟩
    · exact .inl ⟨e, he, rfl, r, hr⟩
  · rintro (⟨e, he, rfl, r, hr⟩ | ⟨rfl, rfl⟩)
    · refine ⟨_, mem_mapEntities.mpr ⟨e, he, rfl⟩, name_withProperty .., r, ?_⟩
      have hother : p.owned? ≠ some e.name := by
        rintro hsame
        rw [howned, Option.some.injEq] at hsame
        exact hfree o ⟨e, he, hsame.symm, r, hr⟩
      rw [ownedBy_withProperty, if_neg hother, hr]
    · obtain ⟨d, hd, rfl⟩ := hd
      refine ⟨_, mem_mapEntities.mpr ⟨d, hd, rfl⟩, name_withProperty .., p.name, ?_⟩
      rw [ownedBy_withProperty, if_pos howned]

/-- The entity that becomes owned leads to its owner's root, if the way there does not come back to
it. -/
theorem Rooted.withProperty (hfree : ∀ o, ¬s.HasOwner target o)
    (hd : ∃ d ∈ s.entities, d.name = target) (howned : p.owned? = some target)
    (hname : s.Rooted name)
    (hway : ¬ReflTransGen s.HasOwner name target ∨
      (s.mapEntities (withProperty entity p)).Rooted entity) :
    (s.mapEntities (withProperty entity p)).Rooted name := by
  induction hname with
  | @root e he hnone =>
    by_cases htarget : e.name = target
    · rcases hway with hway | hentity
      · exact absurd (htarget ▸ .refl) hway
      · exact .owned ((hasOwner_withProperty hfree hd howned).mpr (.inr ⟨htarget, rfl⟩)) hentity
    · have hother : p.owned? ≠ some e.name := by
        rw [howned, ne_eq, Option.some.injEq]
        exact Ne.symm htarget
      have hroot := Rooted.root (mem_mapEntities.mpr ⟨e, he, rfl⟩)
        (by rw [ownedBy_withProperty, if_neg hother, hnone] :
          (Schema.withProperty entity p e).ownedBy = none)
      rwa [name_withProperty] at hroot
  | owned howner _ ih =>
    refine .owned ((hasOwner_withProperty hfree hd howned).mpr (.inl howner)) (ih ?_)
    exact hway.imp_left fun hway hback ↦ hway (hback.head howner)

/-- A new owner keeps the forest exactly if it is not the owned entity itself or one below it. -/
theorem forest_withProperty_iff (hforest : s.Forest)
    (h' : (s.mapEntities (withProperty entity p)).WellFormed) (hfree : ∀ o, ¬s.HasOwner target o)
    (hentity : ∃ e ∈ s.entities, e.name = entity) (hd : ∃ d ∈ s.entities, d.name = target)
    (howned : p.owned? = some target) :
    (s.mapEntities (withProperty entity p)).Forest ↔ ¬ReflTransGen s.HasOwner entity target := by
  constructor
  · intro hforest' hway
    have hgrown : ReflTransGen (s.mapEntities (withProperty entity p)).HasOwner entity target :=
      ReflTransGen.mono (fun _ _ howner ↦ (hasOwner_withProperty hfree hd howned).mpr (.inl howner))
        _ _ hway
    have hnew : (s.mapEntities (withProperty entity p)).HasOwner target entity :=
      (hasOwner_withProperty hfree hd howned).mpr (.inr ⟨rfl, rfl⟩)
    exact hforest'.acyclic target ((transGen_owns_iff h').mpr (.head' hnew hgrown))
  · intro hway
    obtain ⟨e, he, rfl⟩ := hentity
    have hroot : (s.mapEntities (withProperty e.name p)).Rooted e.name :=
      (hforest.rooted e he).withProperty hfree hd howned (.inl hway)
    refine (forest_iff_rooted h').mpr fun d hd' ↦ ?_
    obtain ⟨e', he', rfl⟩ := mem_mapEntities.mp hd'
    rw [name_withProperty]
    exact (hforest.rooted e' he').withProperty hfree hd howned (.inr hroot)

/-! ### Calls -/

/-- A call that adds no owned relation gives no entity an owner. -/
theorem Succeeds.loosens (h : s.WellFormed) {c : Call} (hsucceeds : s.Succeeds c s')
    (hother : ∀ entity p, c = .addProperty entity p → p.owned? = none) : s.Loosens s' := by
  intro d hd
  cases hsucceeds with
  | addEntity =>
    rcases List.mem_append.mp hd with hd | hd
    · exact .inr ⟨d, hd, rfl, rfl⟩
    · rw [List.mem_singleton.mp hd]
      exact .inl rfl
  | @addProperty entity p _ _ _ _ =>
    obtain ⟨e, he, rfl⟩ := mem_mapEntities.mp hd
    refine .inr ⟨e, he, (name_withProperty ..).symm, ?_⟩
    rw [ownedBy_withProperty, hother entity p rfl, if_neg nofun]
  | removeProperty hid _ howner htake =>
    obtain ⟨e, he, rfl⟩ := mem_mapEntities.mp hd
    obtain ⟨hname, -, hownedBy, -⟩ := withoutProperty_cases h howner htake hid he
    rw [hname, hownedBy]
    split
    · exact .inl rfl
    · exact .inr ⟨e, he, rfl, rfl⟩
  | @removeEntity name _ _ _ =>
    obtain ⟨e, he, -, rfl⟩ := (mem_withoutEntity h).mp hd
    obtain ⟨hname, -, hownedBy, -⟩ := releasedIf_cases (h.entity e he) (isOwnedBy name e)
    rw [hname, hownedBy]
    split
    · exact .inl rfl
    · exact .inr ⟨e, he, rfl, rfl⟩
  | change => exact .inr ⟨d, hd, rfl, rfl⟩
  | commit => exact .inr ⟨d, hd, rfl, rfl⟩

/-- A call that adds an owned relation keeps the forest exactly if the relation does not lead
back. -/
theorem forest_addProperty_iff (h : s.WellFormed) (hforest : s.Forest) {owner : Entity}
    {owned : Option String} (hadd : Editing.Addable s entity p owner)
    (hrelate : s.relate entity p = .ok owned) (howned : p.owned? = some target) :
    (s.mapEntities (withProperty entity p)).Forest ↔ ¬ReflTransGen s.HasOwner entity target := by
  obtain ⟨d, hd, rfl, -, hfree⟩ := (relate_eq_ok h hrelate).2.2 target howned
  exact forest_withProperty_iff hforest (h.withProperty hadd hrelate)
    (fun o ↦ not_hasOwner h hd hfree) ⟨owner,
      (get?_eq_some_iff h).mp hadd.entity⟩ ⟨d, hd, rfl⟩ howned

/-- From a forest, a call leads to a forest exactly if it closes no cycle. -/
theorem forest_call_iff (h : s.WellFormed) (hforest : s.Forest) (c : Call) :
    (s.call c).2.Forest ↔ ¬s.Closes c := by
  rcases h.call_cases c with ⟨e, hfail⟩ | ⟨s', hrun, hsucceeds⟩
  · rw [Closes, hfail]
    exact iff_of_true hforest fun hclosed ↦ nomatch hclosed.1
  · rw [Closes, hrun]
    by_cases howns : ∃ entity p target, c = .addProperty entity p ∧ p.owned? = some target
    · obtain ⟨entity, p, target, rfl, howned⟩ := howns
      cases hsucceeds with
      | addProperty hadd hrelate =>
        rw [forest_addProperty_iff h hforest hadd hrelate howned, not_iff_not]
        constructor
        · exact fun hway ↦ ⟨rfl, entity, p, target, rfl, howned, hway⟩
        · rintro ⟨-, _, _, target', ⟨⟩, howned', hway⟩
          rw [howned, Option.some.injEq] at howned'
          exact howned' ▸ hway
    · refine iff_of_true
        (hforest.loosens h (hsucceeds.wellFormed h) (hsucceeds.loosens h fun entity p hc ↦ ?_)) ?_
      · exact Option.eq_none_iff_forall_not_mem.mpr fun target howned ↦ howns ⟨entity,
          p, target, hc, howned⟩
      · rintro ⟨-, entity, p, target, hc, howned, -⟩
        exact howns ⟨entity, p, target, hc, howned⟩

theorem after_concat (s : Schema) (calls : List Call) (c : Call) :
    s.after (calls ++ [c]) = ((s.after calls).call c).2 := by
  simp [after]

/-- All schemas that calls go through are forests exactly if no call that succeeds makes an entity
own itself or one of those above it. -/
theorem after_forest_iff (calls : List Call) :
    (∀ done, done <+: calls → (empty.after done).Forest) ↔
      ∀ done c, done ++ [c] <+: calls → ¬(empty.after done).Closes c := by
  have hwf (done : List Call) : (empty.after done).WellFormed := .after .empty done
  constructor
  · intro hforest done c hprefix
    have hbefore := hforest done ((List.prefix_append done [c]).trans hprefix)
    have hafter := hforest (done ++ [c]) hprefix
    rw [after_concat] at hafter
    exact (forest_call_iff (hwf done) hbefore c).mp hafter
  · intro hopen done hprefix
    induction done using List.reverseRecOn with
    | nil => exact (forest_iff_rooted .empty).mpr nofun
    | append_singleton done c ih =>
      rw [after_concat]
      have hbefore := ih ((List.prefix_append done [c]).trans hprefix)
      exact (forest_call_iff (hwf done) hbefore c).mpr (hopen done c hprefix)

/-- Two details may own each other, so that following the owners never ends. -/
theorem details_owning_each_other : ¬∀ calls, (empty.after calls).Forest := by
  intro hforest
  let calls : List Call := [.addEntity "Chapter" .detail, .addEntity "Section" .detail,
    .addProperty "Chapter" (.collection "sections" ⟨.owned, "Section"⟩),
    .addProperty "Section" (.collection "chapters" ⟨.owned, "Chapter"⟩)]
  have howners : (empty.after calls).entities.map (fun e ↦ (e.name, e.ownedBy)) =
      [("Chapter", some ("Section", "chapters")), ("Section", some ("Chapter", "sections"))] := by
    decide
  have howner {name owner relation : String} (hmem : (name, some (owner, relation)) ∈
      (empty.after calls).entities.map fun e ↦ (e.name, e.ownedBy)) :
      (empty.after calls).HasOwner name owner := by
    obtain ⟨e, he, heq⟩ := List.mem_map.mp hmem
    rw [Prod.mk.injEq] at heq
    exact ⟨e, he, heq.1, relation, heq.2⟩
  rw [howners] at howner
  have hchapter : (empty.after calls).HasOwner "Chapter" "Section" := howner (.head _)
  have hsection : (empty.after calls).HasOwner "Section" "Chapter" := howner (.tail _ (.head _))
  exact (hforest calls).acyclic "Chapter"
    ((transGen_owns_iff (.after .empty calls)).mpr (.tail (.single hchapter) hsection))

end EntityStore.Schema
