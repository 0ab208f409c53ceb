import EntityStore.Proofs.Schema.Editing
import EntityStore.Proofs.Schema.Ownership

/-!
Removing properties and entities keeps schemas well-formed: what the removed relation or entity
owned is released, and nothing else changes its owner.
-/

set_option autoImplicit false

namespace EntityStore.Schema

variable {s : Schema} {d e : Entity} {name entity : String} {p q : Property}

/-! ### Releasing entities -/

def releasedIf (b : Bool) (e : Entity) : Entity :=
  if b then e.release else e

theorem releasedIf_cases (h : e.WellFormed) (b : Bool) :
    (releasedIf b e).name = e.name ∧ (releasedIf b e).kind = e.kind ∧
      (releasedIf b e).ownedBy = (if b then none else e.ownedBy) ∧
      (∀ q, q ∈ (releasedIf b e).properties ↔ q ∈ e.properties ∧ ¬(b ∧ q.name = parentName)) ∧
      (releasedIf b e).WellFormed := by
  obtain ⟨hrelease, hwf⟩ := Entity.release_cases h
  cases b with
  | false => simp [releasedIf, h]
  | true =>
    simp only [releasedIf, ↓reduceIte, true_and]
    refine ⟨by rw [hrelease], by rw [hrelease], by rw [hrelease], fun q ↦ ?_, hwf⟩
    rw [hrelease]
    simp

/-! ### Removing a property -/

/-- An entity after a property was removed from some entity: it may have lost the property, its
owner, or both. -/
def withoutProperty (entity : String) (p : Property) (rest e : Entity) : Entity :=
  releasedIf (p.owned? = some e.name) (if e.name = entity then rest else e)

section

variable {owner rest : Entity} (h : s.WellFormed) (howner : owner ∈ s.entities)
  (htake : owner.take name = some (p, rest))

include h howner htake

theorem withoutProperty_cases (hname : name ≠ idName) (he : e ∈ s.entities) :
    (withoutProperty owner.name p rest e).name = e.name ∧
      (withoutProperty owner.name p rest e).kind = e.kind ∧
      (withoutProperty owner.name p rest e).ownedBy =
        (if p.owned? = some e.name then none else e.ownedBy) ∧
      (∀ q, q ∈ (withoutProperty owner.name p rest e).properties ↔
        q ∈ e.properties ∧ ¬(e.name = owner.name ∧ q.name = name) ∧
          ¬(p.owned? = some e.name ∧ q.name = parentName)) ∧
      (withoutProperty owner.name p rest e).WellFormed := by
  unfold withoutProperty
  by_cases hsame : e.name = owner.name
  · obtain rfl := h.eq_of_name_eq he howner hsame
    have hrest := (Entity.take_cases (h.entity e he) htake).2.2.1
    have hwf := (h.entity e he).take hname htake
    obtain ⟨h₁, h₂, h₃, h₄, h₅⟩ := releasedIf_cases hwf (decide (p.owned? = some e.name))
    simp only [↓reduceIte, true_and]
    refine ⟨?_, ?_, ?_, fun q ↦ ?_, h₅⟩
    · rw [h₁, hrest]
    · rw [h₂, hrest]
    · rw [h₃, hrest]
      simp
    · rw [h₄, hrest]
      simp [and_assoc]
  · obtain ⟨h₁, h₂, h₃, h₄, h₅⟩ :=
      releasedIf_cases (h.entity e he) (decide (p.owned? = some e.name))
    simp only [hsame, ↓reduceIte, false_and, not_false_eq_true, true_and]
    refine ⟨h₁, h₂, ?_, fun q ↦ ?_, h₅⟩
    · rw [h₃]
      simp
    · rw [h₄]
      simp

theorem removeProperty_eq :
    (p.owned?.elim (s.modify owner.name fun _ ↦ rest) fun target ↦
        (s.modify owner.name fun _ ↦ rest).modify target Entity.release) =
      s.mapEntities (withoutProperty owner.name p rest) := by
  have hrest := (Entity.take_cases (h.entity owner howner) htake).2.2.1
  have hsame : ∀ e ∈ s.entities, e.name = owner.name → rest.name = e.name := by
    intro e _ heq
    rw [hrest, heq]
  unfold mapEntities
  cases howned : p.owned? with
  | none => simp [modify_eq h.indexed, withoutProperty, releasedIf, howned]
  | some target =>
    have hindexed := indexed_modify (f := fun _ ↦ rest) h.indexed hsame
    rw [Option.elim_some, modify_eq hindexed, modify_eq h.indexed, List.map_map]
    congr 1
    refine List.map_congr_left fun e he ↦ ?_
    have hcomm : some target = some e.name ↔ e.name = target := by
      rw [Option.some.injEq, eq_comm]
    by_cases heq : e.name = owner.name
    · simp only [Function.comp_apply, withoutProperty, releasedIf, howned, if_pos heq,
        hsame e he heq, decide_eq_true_eq, hcomm]
    · simp only [Function.comp_apply, withoutProperty, releasedIf, howned, if_neg heq,
        decide_eq_true_eq, hcomm]

/-- Of the relations there were, only the removed one no longer owns. -/
theorem owns_withoutProperty (hname : name ≠ idName) (o : String) (q : Property) (t : String) :
    (s.mapEntities (withoutProperty owner.name p rest)).Owns o q t ↔
      s.Owns o q t ∧ ¬(o = owner.name ∧ q = p) := by
  obtain ⟨hin, hpname, -, -⟩ := Entity.take_cases (h.entity owner howner) htake
  have hcases {e : Entity} (he : e ∈ s.entities) := withoutProperty_cases h howner htake hname he
  rw [owns_mapEntities fun e he ↦ (hcases he).1]
  constructor
  · rintro ⟨⟨e, he, rfl, hq⟩, howned⟩
    obtain ⟨hq, hnot, -⟩ := ((hcases he).2.2.2.1 q).mp hq
    refine ⟨⟨⟨e, he, rfl, hq⟩, howned⟩, ?_⟩
    rintro ⟨heq, rfl⟩
    exact hnot ⟨heq, hpname⟩
  · rintro ⟨⟨⟨e, he, rfl, hq⟩, howned⟩, hnot⟩
    refine ⟨⟨e, he, rfl, ((hcases he).2.2.2.1 q).mpr ⟨hq, ?_, ?_⟩⟩, howned⟩
    · -- only the removed property stands under its name
      rintro ⟨heq, hqname⟩
      obtain rfl := h.eq_of_name_eq he howner heq
      exact hnot ⟨rfl, (h.entity e he).indexed.eq_of_name_eq hq hin (hqname.trans hpname.symm)⟩
    · rintro ⟨-, hqname⟩
      rw [h.owned?_parent he hq hqname] at howned
      cases howned

/-- The entity that the removed property owned is free. -/
theorem ownership_withoutProperty (hname : name ≠ idName) (hd : d ∈ s.entities)
    (howned : p.owned? = some d.name) :
    (s.mapEntities (withoutProperty owner.name p rest)).Ownership
      (withoutProperty owner.name p rest d) none := by
  obtain ⟨hin, -, -, -⟩ := Entity.take_cases (h.entity owner howner) htake
  obtain ⟨hdname, -, hdowner, hdmem, -⟩ := withoutProperty_cases h howner htake hname hd
  have hwas : s.Owns owner.name p d.name := ⟨⟨owner, howner, rfl, hin⟩, howned⟩
  obtain ⟨own, hown⟩ := h.ownership d hd
  cases hown with
  | free _ howns _ => exact absurd hwas (howns _ _)
  | owned _ howns _ _ =>
    obtain ⟨rfl, rfl⟩ := (howns _ _).mp hwas
    refine .free (by rw [hdowner, if_pos howned]) (fun o q hq ↦ ?_) fun q hq hqname ↦ ?_
    · rw [hdname, owns_withoutProperty h howner htake hname, howns] at hq
      exact hq.2 hq.1
    · exact ((hdmem q).mp hq).2.2 ⟨howned, hqname⟩

theorem Ownership.withoutProperty {own : Option (String × Property)} (hown : s.Ownership d own)
    (hname : name ≠ idName) (hparent : name ≠ parentName) (hd : d ∈ s.entities)
    (hother : p.owned? ≠ some d.name) :
    (s.mapEntities (Schema.withoutProperty owner.name p rest)).Ownership
      (Schema.withoutProperty owner.name p rest d) own := by
  obtain ⟨hdname, hdkind, hdowner, hdmem, -⟩ := withoutProperty_cases h howner htake hname hd
  refine hown.congr hdname hdkind (by rw [hdowner, if_neg hother]) (fun q hqname ↦ ?_) fun o q ↦ ?_
  · rw [hdmem]
    simp [hother, hqname, Ne.symm hparent]
  · rw [owns_withoutProperty h howner htake hname]
    refine ⟨And.left, fun hq ↦ ⟨hq, ?_⟩⟩
    rintro ⟨-, rfl⟩
    exact hother hq.2

theorem WellFormed.withoutProperty (hname : name ≠ idName) (hparent : name ≠ parentName) :
    (s.mapEntities (withoutProperty owner.name p rest)).WellFormed := by
  have hcases {e : Entity} (he : e ∈ s.entities) := withoutProperty_cases h howner htake hname he
  refine h.mapEntities (fun e he ↦ (hcases he).1) (fun e he ↦ (hcases he).2.2.2.2)
    (fun e he q hq hnew ↦ ?_) fun d hd ↦ ?_
  · exact absurd (((hcases he).2.2.2.1 q).mp hq).1 hnew
  · by_cases howned : p.owned? = some d.name
    · exact ⟨none, ownership_withoutProperty h howner htake hname hd howned⟩
    · obtain ⟨own, hown⟩ := h.ownership d hd
      exact ⟨own, hown.withoutProperty h howner htake hname hparent hd howned⟩

end

/-! ### Removing an entity -/

/-- Whether an entity names an owner. -/
def isOwnedBy (name : String) (e : Entity) : Bool :=
  e.ownedBy.any fun (owner, _) ↦ owner == name

theorem foldl_release_eq (h : s.WellFormed) {targets : List String} (hnodup : targets.Nodup) :
    targets.foldl (fun s target ↦ s.modify target Entity.release) s =
      s.mapEntities fun e ↦ releasedIf (targets.contains e.name) e := by
  -- the schema is not well-formed on the way, but its index stays exact
  suffices H : ∀ s' : Schema, Indexed Entity.name s'.entities s'.positions →
      (∀ e ∈ s'.entities, e.WellFormed) →
      targets.foldl (fun s target ↦ s.modify target Entity.release) s' =
        s'.mapEntities fun e ↦ releasedIf (targets.contains e.name) e from
    H s h.indexed h.entity
  induction targets with
  | nil =>
    intro s' _ _
    simp [mapEntities, releasedIf]
  | cons target targets ih =>
    intro s' hindexed hentity
    obtain ⟨hnew, hnodup⟩ := List.nodup_cons.mp hnodup
    have hsame : ∀ e ∈ s'.entities, e.name = target → e.release.name = e.name := by
      intro e he _
      rw [(Entity.release_cases (hentity e he)).1]
    have hentity' : ∀ e ∈ (s'.modify target Entity.release).entities, e.WellFormed := by
      intro d hd
      obtain ⟨e, he, rfl⟩ := (mem_entities_modify hindexed).mp hd
      split
      · exact (Entity.release_cases (hentity e he)).2
      · exact hentity e he
    rw [List.foldl_cons, ih hnodup _ (indexed_modify hindexed hsame) hentity',
      modify_eq hindexed]
    unfold mapEntities
    rw [List.map_map]
    congr 1
    refine List.map_congr_left fun e he ↦ ?_
    by_cases heq : e.name = target
    · have hrelease : e.release.name = target := (hsame e he heq).trans heq
      simp [releasedIf, heq, hrelease, hnew]
    · simp [releasedIf, heq]

theorem contains_ownedBy (h : s.WellFormed) (he : e ∈ s.entities) :
    (s.ownedBy name).contains e.name = isOwnedBy name e := by
  rw [Bool.eq_iff_iff, List.contains_iff_mem]
  simp only [ownedBy, List.mem_map, List.mem_filter]
  constructor
  · rintro ⟨d, ⟨hd, howned⟩, hname⟩
    obtain rfl := h.eq_of_name_eq hd he hname
    exact howned
  · exact fun howned ↦ ⟨e, ⟨he, howned⟩, rfl⟩

theorem releaseOwned_eq (h : s.WellFormed) (name : String) :
    (s.ownedBy name).foldl (fun s target ↦ s.modify target Entity.release) s =
      s.mapEntities fun e ↦ releasedIf (isOwnedBy name e) e := by
  have hnodup : (s.ownedBy name).Nodup :=
    h.indexed.nodup.sublist (List.filter_sublist.map Entity.name)
  rw [foldl_release_eq h hnodup]
  unfold mapEntities
  congr 1
  exact List.map_congr_left fun e he ↦ by rw [contains_ownedBy h he]

theorem drop_cases (h : Indexed Entity.name s.entities s.positions) (name : String) :
    (∀ e, e ∈ (s.drop name).entities ↔ e ∈ s.entities ∧ e.name ≠ name) ∧
      Indexed Entity.name (s.drop name).entities (s.drop name).positions := by
  unfold drop
  cases hi : s.positions.lookup name with
  | some i =>
    refine ⟨fun e ↦ ?_, h.take hi⟩
    simp only [h.eraseIdx_eq_filter hi, List.mem_filter, bne_iff_ne]
  | none =>
    have hnone := h.lookup_eq_none_iff.mp hi
    exact ⟨fun e ↦ ⟨fun he ↦ ⟨he, hnone e he⟩, And.left⟩, h⟩

/-- A schema after an entity was removed and what it owned was released. -/
def withoutEntity (s : Schema) (name : String) : Schema :=
  (s.mapEntities fun e ↦ releasedIf (isOwnedBy name e) e).drop name

section

variable (h : s.WellFormed)

include h

theorem removeEntity_eq (name : String) :
    ((s.ownedBy name).foldl (fun s target ↦ s.modify target Entity.release) s).drop name =
      s.withoutEntity name := by
  rw [releaseOwned_eq h]
  rfl

theorem indexed_withoutEntity :
    Indexed Entity.name (s.withoutEntity name).entities (s.withoutEntity name).positions :=
  (drop_cases (s := s.mapEntities _)
    (h.indexed.map _ fun e he ↦ (releasedIf_cases (h.entity e he) _).1) name).2

theorem mem_withoutEntity : d ∈ (s.withoutEntity name).entities ↔
    ∃ e ∈ s.entities, e.name ≠ name ∧ releasedIf (isOwnedBy name e) e = d := by
  unfold withoutEntity
  rw [(drop_cases (s := s.mapEntities _)
    (h.indexed.map _ fun e he ↦ (releasedIf_cases (h.entity e he) _).1) name).1]
  constructor
  · rintro ⟨hd, hname⟩
    obtain ⟨e, he, rfl⟩ := mem_mapEntities.mp hd
    exact ⟨e, he, by rwa [(releasedIf_cases (h.entity e he) _).1] at hname, rfl⟩
  · rintro ⟨e, he, hname, rfl⟩
    exact ⟨mem_mapEntities.mpr ⟨e, he, rfl⟩, by rwa [(releasedIf_cases (h.entity e he) _).1]⟩

/-- Of the relations there were, only those of the removed entity no longer own. -/
theorem owns_withoutEntity (o : String) (q : Property) (t : String) :
    (s.withoutEntity name).Owns o q t ↔ s.Owns o q t ∧ o ≠ name := by
  constructor
  · rintro ⟨⟨d, hd, rfl, hin⟩, howned⟩
    obtain ⟨e, he, hname, rfl⟩ := (mem_withoutEntity h).mp hd
    obtain ⟨hsame, -, -, hmem, -⟩ := releasedIf_cases (h.entity e he) (isOwnedBy name e)
    rw [hsame]
    exact ⟨⟨⟨e, he, rfl, ((hmem q).mp hin).1⟩, howned⟩, hname⟩
  · rintro ⟨⟨⟨e, he, rfl, hin⟩, howned⟩, hname⟩
    obtain ⟨hsame, -, -, hmem, -⟩ := releasedIf_cases (h.entity e he) (isOwnedBy name e)
    refine ⟨⟨_, (mem_withoutEntity h).mpr ⟨e, he, hname, rfl⟩, hsame, (hmem q).mpr ⟨hin, ?_⟩⟩,
      howned⟩
    rintro ⟨-, hqname⟩
    rw [h.owned?_parent he hin hqname] at howned
    cases howned

/-- A reference to the removed owner is gone, and no other relation led there. -/
theorem target_withoutEntity
    (hunused : ∀ other ∈ s.entities, other.name ≠ name → other.refersTo name = false)
    (he : e ∈ s.entities) (hname : e.name ≠ name)
    (hq : q ∈ (releasedIf (isOwnedBy name e) e).properties) {t : String} {k : RelationKind}
    (hrel : q.relation? = some (t, k)) : t ≠ name := by
  obtain ⟨hin, hkept⟩ := ((releasedIf_cases (h.entity e he) _).2.2.2.1 q).mp hq
  rintro rfl
  by_cases hqname : q.name = parentName
  · obtain ⟨own, hown⟩ := h.ownership e he
    obtain ⟨o, r, rfl, rfl⟩ := hown.eq_parent hin hqname
    obtain ⟨rfl, -⟩ : o = t ∧ RelationKind.linked = k := by
      simpa [Property.relation?, Property.parent] using hrel
    cases hown with
    | owned howner _ _ _ => exact hkept ⟨by simp [isOwnedBy, howner], hqname⟩
  · have hrefers := hunused e he hname
    simp only [Entity.refersTo, List.any_eq_false] at hrefers
    exact hrefers q hin (by simp [Property.isParent, hqname, hrel])

theorem ownership_withoutEntity (he : e ∈ s.entities) :
    ∃ own, (s.withoutEntity name).Ownership (releasedIf (isOwnedBy name e) e) own := by
  obtain ⟨hsame, hkind, howner, hmem, -⟩ := releasedIf_cases (h.entity e he) (isOwnedBy name e)
  obtain ⟨own, hown⟩ := h.ownership e he
  by_cases hreleased : isOwnedBy name e
  · -- no other entity than the removed one owned it
    refine ⟨none, .free (by rw [howner, if_pos hreleased]) (fun o q hq ↦ ?_) fun q hq hqname ↦ ?_⟩
    · rw [hsame, owns_withoutEntity h] at hq
      cases hown with
      | free _ howns _ => exact howns o q hq.1
      | owned howner₀ howns _ _ =>
        obtain ⟨rfl, rfl⟩ := (howns o q).mp hq.1
        exact hq.2 (by simpa [isOwnedBy, howner₀] using hreleased)
    · exact ((hmem q).mp hq).2 ⟨hreleased, hqname⟩
  · refine ⟨own, hown.congr hsame hkind (by rw [howner, if_neg hreleased])
      (fun q _ ↦ ?_) fun o q ↦ ?_⟩
    · rw [hmem]
      simp [hreleased]
    · -- the owner is another entity than the removed one
      rw [owns_withoutEntity h]
      refine ⟨And.left, fun hq ↦ ⟨hq, ?_⟩⟩
      cases hown with
      | free _ howns _ => exact absurd hq (howns o q)
      | owned howner₀ howns _ _ =>
        obtain ⟨rfl, rfl⟩ := (howns o q).mp hq
        simpa [isOwnedBy, howner₀] using hreleased

theorem WellFormed.withoutEntity
    (hunused : ∀ other ∈ s.entities, other.name ≠ name → other.refersTo name = false) :
    (s.withoutEntity name).WellFormed where
  indexed := indexed_withoutEntity h
  entity d hd := by
    obtain ⟨e, he, -, rfl⟩ := (mem_withoutEntity h).mp hd
    exact (releasedIf_cases (h.entity e he) _).2.2.2.2
  target d hd q hq t k hrel := by
    obtain ⟨e, he, hname, rfl⟩ := (mem_withoutEntity h).mp hd
    have ht := target_withoutEntity h hunused he hname hq hrel
    obtain ⟨d, hd, rfl⟩ :=
      h.target e he q (((releasedIf_cases (h.entity e he) _).2.2.2.1 q).mp hq).1 t k hrel
    exact ⟨_, (mem_withoutEntity h).mpr ⟨d, hd, ht, rfl⟩, (releasedIf_cases (h.entity d hd) _).1⟩
  ownership d hd := by
    obtain ⟨e, he, -, rfl⟩ := (mem_withoutEntity h).mp hd
    exact ownership_withoutEntity h he

end

end EntityStore.Schema
