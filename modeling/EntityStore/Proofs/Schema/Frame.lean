import EntityStore.Proofs.Schema.Invariant

/-!
What the operations on a schema change, and that they change nothing else. `Call.patch` tells for
every entity which properties an operation takes from it, which ones it appends and who owns it
afterwards; an entity of which nothing of the kind is told is the same one as before
(`Patch.Makes`). `call_changes` says that this is all: every other entity and every other property
is found under its name as before, and both keep their order.
-/

set_option autoImplicit false

namespace EntityStore.Schema

/-- A change of one entity. -/
structure Patch where
  removed : List String
  added : List Property
  owner : Option (String × String)

/-- The entity after a change: it keeps its name, its kind and the order of the properties it keeps;
the ones it gains follow them, and each is found under its name. -/
structure Patch.Makes (d : Patch) (e e' : Entity) : Prop where
  name : e'.name = e.name
  kind : e'.kind = e.kind
  owner : e'.ownedBy = d.owner
  properties : e'.properties = (e.properties.filter fun p ↦ p.name ∉ d.removed) ++ d.added
  gained : ∀ p ∈ d.added, e'.get? p.name = some p
  lost : ∀ n ∈ d.removed, n ∉ d.added.map Property.name → e'.get? n = none
  kept : ∀ n p, e.get? n = some p → n ∉ d.removed → e'.get? n = some p
  absent : ∀ n, e.get? n = none → n ∉ d.added.map Property.name → e'.get? n = none
  same : d.removed = [] → d.added = [] → d.owner = e.ownedBy → e' = e

namespace Call

/-- Whether an operation takes the owner of an entity away: the relation that is removed owns it, or
the entity that is removed does. -/
def releases (s : Schema) (e : Entity) : Call → Bool
  | .removeProperty entity name =>
    (((s.get? entity).bind (Entity.get? · name)).bind Property.owned?) = some e.name
  | .removeEntity name => e.ownedBy.any fun (owner, _) ↦ owner == name
  | _ => false

/-- What an operation does to an entity. A property is appended to the entity it is added to, and an
owned one also gives its target the reference `@parent`; these are taken away together with the
owner. -/
def patch (s : Schema) (e : Entity) (c : Call) : Patch :=
  let parent := if c.releases s e then [parentName] else []
  match c with
  | .addProperty entity p =>
    let reference := if p.owned? = some e.name then [.parent e.name entity p.isSingle] else []
    let appended := if e.name = entity then [{ p with entity := some entity }] else []
    ⟨[], reference ++ appended, if p.owned? = some e.name then some (entity, p.name) else e.ownedBy⟩
  | .removeProperty entity name =>
    ⟨(if e.name = entity then [name] else []) ++ parent, [], if c.releases s e then
      none else e.ownedBy⟩
  | .removeEntity _ => ⟨parent, [], if c.releases s e then none else e.ownedBy⟩
  | _ => ⟨[], [], e.ownedBy⟩

/-- The entity that an operation adds. -/
def added? : Call → Option Entity
  | .addEntity name kind => some (.fresh name kind)
  | _ => none

/-- The name of the entity that an operation removes. -/
def removed? : Call → Option String
  | .removeEntity name => some name
  | _ => none

/-- Whether the schema is committed after an operation. -/
def commits (s : Schema) : Call → Bool
  | .commit => true
  | .change => false
  | _ => s.committed

end Call

/-- What an operation leaves: the entities but the one removed, in their order, before the one
added, each found under its name and changed as is told of it. -/
structure Changes (s : Schema) (c : Call) (s' : Schema) : Prop where
  committed : s'.committed = c.commits s
  names : s'.entities.map Entity.name =
    ((s.entities.map Entity.name).filter fun n ↦ c.removed? ≠ some n) ++
      (c.added?.map Entity.name).toList
  added : ∀ e, c.added? = some e → s.get? e.name = none ∧ s'.get? e.name = some e
  removed : ∀ n, c.removed? = some n → (s.get? n).isSome ∧ s'.get? n = none
  kept : ∀ n e, s.get? n = some e → c.removed? ≠ some n → ∃ e', s'.get? n = some e' ∧
    (c.patch s e).Makes e e'
  absent : ∀ n, s.get? n = none → c.added?.map Entity.name ≠ some n → s'.get? n = none

variable {s s' : Schema} {e e' : Entity} {d : Patch}

/-! ### Changes of an entity -/

/-- An entity that nothing happens to. -/
theorem Patch.Makes.refl (e : Entity) : Patch.Makes ⟨[], [], e.ownedBy⟩ e e where
  name := rfl
  kind := rfl
  owner := rfl
  properties := by simp
  gained := nofun
  lost := nofun
  kept _ _ h _ := h
  absent _ h _ := h
  same _ _ _ := rfl

/-- The properties tell what is found under each name. -/
theorem Patch.Makes.of_properties (h : e.WellFormed) (h' : e'.WellFormed) (hname : e'.name = e.name)
    (hkind : e'.kind = e.kind) (howner : e'.ownedBy = d.owner)
    (hproperties : e'.properties = (e.properties.filter fun p ↦ p.name ∉ d.removed) ++ d.added)
    (hsame : d.removed = [] → d.added = [] → d.owner = e.ownedBy → e' = e) : d.Makes e e' where
  name := hname
  kind := hkind
  owner := howner
  properties := hproperties
  gained p hp := (Entity.get?_eq_some_iff h').mpr ⟨by simp [hproperties, hp], rfl⟩
  lost n hn hnew := by
    refine (Entity.get?_eq_none_iff h').mpr fun p hp hpn ↦ ?_
    rw [hproperties, List.mem_append, List.mem_filter] at hp
    rcases hp with ⟨-, hp⟩ | hp
    · exact of_decide_eq_true hp (hpn ▸ hn)
    · exact hnew (hpn ▸ List.mem_map_of_mem hp)
  kept n p hget hn := by
    obtain ⟨hp, rfl⟩ := (Entity.get?_eq_some_iff h).mp hget
    refine (Entity.get?_eq_some_iff h').mpr ⟨?_, rfl⟩
    rw [hproperties]
    exact List.mem_append_left _ (List.mem_filter.mpr ⟨hp, decide_eq_true hn⟩)
  absent n hget hnew := by
    refine (Entity.get?_eq_none_iff h').mpr fun p hp hpn ↦ ?_
    rw [hproperties, List.mem_append, List.mem_filter] at hp
    rcases hp with ⟨hp, -⟩ | hp
    · exact (Entity.get?_eq_none_iff h).mp hget p hp hpn
    · exact hnew (hpn ▸ List.mem_map_of_mem hp)
  same := hsame

/-! ### Changes of the schema -/

/-- Operations that neither add nor remove an entity. -/
theorem Changes.of_mapEntities {f : Entity → Entity} {c : Call} (hadded : c.added? = none)
    (hremoved : c.removed? = none) (hcommitted : c.commits s = s.committed) (h : s.WellFormed)
    (hmakes : ∀ e ∈ s.entities, (c.patch s e).Makes e (f e)) : s.Changes c (s.mapEntities f) where
  committed := hcommitted.symm
  names := by
    have hnames : (s.entities.map f).map Entity.name = s.entities.map Entity.name := by
      rw [List.map_map]
      exact List.map_congr_left fun e he ↦ (hmakes e he).name
    simp [mapEntities, hadded, hremoved, hnames]
  added e he := by simp [hadded] at he
  removed n hn := by simp [hremoved] at hn
  kept n e hget _ :=
    ⟨f e, by rw [get?_mapEntities, hget]; rfl, hmakes e ((get?_eq_some_iff h).mp hget).1⟩
  absent n hget _ := by rw [get?_mapEntities, hget]; rfl

/-- Adding an entity. -/
theorem changes_push (h : s.WellFormed) {name : String} (kind : EntityKind)
    (hnew : s.get? name = none) :
    s.Changes (.addEntity name kind) (s.push (.fresh name kind)) := by
  have h' := h.push_fresh kind hnew
  have hmem {e : Entity} : e ∈ (s.push (.fresh name kind)).entities ↔ e ∈ s.entities ∨
      e = .fresh name kind := by
    simp [Schema.push]
  refine ⟨rfl, by
    simp [Schema.push, Call.removed?, Call.added?], ?_, ?_, fun n e hget _ ↦ ?_,
      fun n hget hne ↦ ?_⟩
  · rintro _ ⟨⟩
    exact ⟨hnew, (get?_eq_some_iff h').mpr ⟨hmem.mpr (.inr rfl), rfl⟩⟩
  · rintro _ ⟨⟩
  · obtain ⟨he, rfl⟩ := (get?_eq_some_iff h).mp hget
    exact ⟨e, (get?_eq_some_iff h').mpr ⟨hmem.mpr (.inl he), rfl⟩, .refl e⟩
  · refine (get?_eq_none_iff h').mpr fun d hd hdn ↦ ?_
    rcases hmem.mp hd with hd | rfl
    · exact (get?_eq_none_iff h).mp hget d hd hdn
    · exact hne (congrArg some hdn)

theorem properties_withProperty (entity : String) (p : Property) (e : Entity) :
    (withProperty entity p e).properties = e.properties ++
      ((if p.owned? = some e.name then [.parent e.name entity p.isSingle] else []) ++
        if e.name = entity then [{ p with entity := some entity }] else []) := by
  unfold withProperty adopted
  by_cases hname : e.name = entity
  · subst hname
    by_cases howned : p.owned? = some e.name <;> simp [howned, Entity.adopt, Entity.push]
  · by_cases howned : p.owned? = some e.name <;> simp [howned, hname, Entity.adopt, Entity.push]

/-- Adding a property. -/
theorem changes_withProperty (h : s.WellFormed) {entity : String} {p : Property} {owner : Entity}
    {owned : Option String} (hadd : Editing.Addable s entity p owner)
    (hrelate : s.relate entity p = .ok owned) :
    s.Changes (.addProperty entity p) (s.mapEntities (withProperty entity p)) := by
  have h' := h.withProperty hadd hrelate
  refine .of_mapEntities rfl rfl rfl h fun e he ↦ .of_properties (h.entity e he)
    (h'.entity _ (mem_mapEntities.mpr ⟨e, he, rfl⟩)) (name_withProperty entity p e)
      (kind_withProperty entity p e)
    (ownedBy_withProperty entity p e) ?_ fun _ hadded _ ↦ ?_
  · rw [properties_withProperty]
    simp [Call.patch]
  · obtain ⟨hreference, happended⟩ := List.append_eq_nil_iff.mp hadded
    have howned : p.owned? ≠ some e.name := fun howned ↦ by simp [howned] at hreference
    have hname : e.name ≠ entity := fun hname ↦ by simp [hname] at happended
    simp [withProperty, adopted, howned, hname]

theorem properties_releasedIf (h : e.WellFormed) (b : Bool) :
    (releasedIf b e).properties = e.properties.filter fun q ↦ q.name ∉ if b then
      [parentName] else [] := by
  cases b with
  | false => simp [releasedIf]
  | true =>
    rw [releasedIf, if_pos rfl, (Entity.release_cases h).1]
    simp [bne, BEq.beq]

/-- Removing a property. -/
theorem changes_withoutProperty (h : s.WellFormed) {name : String} {p : Property}
    {owner rest : Entity} (howner : owner ∈ s.entities) (htake : owner.take name = some (p, rest))
    (hid : name ≠ idName) (hparent : name ≠ parentName) :
    s.Changes (.removeProperty owner.name name)
      (s.mapEntities (withoutProperty owner.name p rest)) := by
  have h' := h.withoutProperty howner htake hid hparent
  obtain ⟨hin, hpname, hrest, -⟩ := Entity.take_cases (h.entity owner howner) htake
  have hreleases (e : Entity) :
      Call.releases s e (.removeProperty owner.name name) = decide (p.owned? = some e.name) := by
    have hget : s.get? owner.name = some owner := (get?_eq_some_iff h).mpr ⟨howner, rfl⟩
    have hfound : owner.get? name = some p :=
      (Entity.get?_eq_some_iff (h.entity owner howner)).mpr ⟨hin, hpname⟩
    simp [Call.releases, hget, hfound]
  refine .of_mapEntities rfl rfl rfl h fun e he ↦ ?_
  obtain ⟨hname, hkind, hownedBy, -, hwf⟩ := withoutProperty_cases h howner htake hid he
  refine .of_properties (h.entity e he) hwf hname hkind ?_ ?_ fun hremoved _ _ ↦ ?_
  · simp [hownedBy, Call.patch, hreleases]
  · unfold withoutProperty
    by_cases hsame : e.name = owner.name
    · obtain rfl := h.eq_of_name_eq he howner hsame
      have hkept : rest.properties = e.properties.filter fun q ↦ q.name ≠ name := by
        rw [hrest]
        simp [bne, BEq.beq]
      rw [if_pos rfl, properties_releasedIf ((h.entity e he).take hid htake),
        hkept, List.filter_filter]
      simp [Call.patch, hreleases, Bool.and_comm]
    · rw [if_neg hsame, properties_releasedIf (h.entity e he)]
      simp [Call.patch, hreleases, hsame]
  · -- an entity that loses no property is another one than the owner and the target
    obtain ⟨hproperty, hparents⟩ := List.append_eq_nil_iff.mp hremoved
    have hsame : e.name ≠ owner.name := fun hsame ↦ by simp [hsame] at hproperty
    have howned : p.owned? ≠ some e.name := fun howned ↦ by simp [hreleases, howned] at hparents
    simp [withoutProperty, releasedIf, hsame, howned]

theorem names_drop (h : Indexed Entity.name s.entities s.positions) (name : String) :
    (s.drop name).entities.map Entity.name =
      (s.entities.map Entity.name).filter fun n ↦ n ≠ name := by
  unfold drop
  cases hi : s.positions.lookup name with
  | some i => simp [h.eraseIdx_eq_filter hi, List.filter_map, Function.comp_def, bne, BEq.beq]
  | none =>
    refine (List.filter_eq_self.mpr fun n hn ↦ ?_).symm
    obtain ⟨e, he, rfl⟩ := List.mem_map.mp hn
    exact decide_eq_true (h.lookup_eq_none_iff.mp hi e he)

theorem names_withoutEntity (h : s.WellFormed) (name : String) :
    (s.withoutEntity name).entities.map Entity.name =
      (s.entities.map Entity.name).filter fun n ↦ n ≠ name := by
  have hreleased : ∀ e ∈ s.entities, (releasedIf (isOwnedBy name e) e).name = e.name := fun e he ↦
    (releasedIf_cases (h.entity e he) _).1
  unfold withoutEntity
  rw [names_drop (s := s.mapEntities _) (h.indexed.map _ hreleased), mapEntities, List.map_map]
  exact congrArg _ (List.map_congr_left hreleased)

/-- Removing an entity. -/
theorem changes_withoutEntity (h : s.WellFormed) {name : String} {e : Entity}
    (hget : s.get? name = some e)
    (hunused : ∀ other ∈ s.entities, other.name ≠ name → other.refersTo name = false) :
    s.Changes (.removeEntity name) (s.withoutEntity name) := by
  have h' := h.withoutEntity hunused
  refine ⟨?_, ?_, nofun, ?_, fun n e hfound hne ↦ ?_, fun n hnone _ ↦ ?_⟩
  · unfold withoutEntity drop
    split <;> rfl
  · rw [names_withoutEntity h]
    simp [Call.removed?, Call.added?, eq_comm]
  · rintro _ ⟨⟩
    refine ⟨by simp [hget], (get?_eq_none_iff h').mpr fun d hd ↦ ?_⟩
    obtain ⟨e, he, hname, rfl⟩ := (mem_withoutEntity h).mp hd
    exact (releasedIf_cases (h.entity e he) _).1 ▸ hname
  · obtain ⟨he, rfl⟩ := (get?_eq_some_iff h).mp hfound
    obtain ⟨hname, hkind, hownedBy, -, hwf⟩ := releasedIf_cases (h.entity e he) (isOwnedBy name e)
    have hkept := (mem_withoutEntity h).mpr ⟨e, he, fun heq ↦ hne (congrArg some heq.symm), rfl⟩
    refine ⟨_, (get?_eq_some_iff h').mpr ⟨hkept, hname⟩, ?_⟩
    refine .of_properties (h.entity e he) hwf hname hkind hownedBy ?_ fun hremoved _ _ ↦ ?_
    · exact (properties_releasedIf (h.entity e he) _).trans (List.append_nil _).symm
    · have howned : isOwnedBy name e = false := by
        cases howned : isOwnedBy name e with
        | false => rfl
        | true =>
          have hreleases : Call.releases s e (.removeEntity name) = true := howned
          simp [Call.patch, hreleases] at hremoved
      simp [releasedIf, howned]
  · refine (get?_eq_none_iff h').mpr fun d hd hdn ↦ ?_
    obtain ⟨e, he, -, rfl⟩ := (mem_withoutEntity h).mp hd
    exact (get?_eq_none_iff h).mp hnone e he ((releasedIf_cases (h.entity e he) _).1.symm.trans hdn)

/-- Freezing a schema or going on with a copy. -/
theorem changes_committed {c : Call} {committed : Bool} (hadded : c.added? = none)
    (hremoved : c.removed? = none) (hcommitted : c.commits s = committed)
    (hpatch : ∀ e, c.patch s e = ⟨[], [], e.ownedBy⟩) :
    s.Changes c { s with committed := committed } where
  committed := hcommitted.symm
  names := by simp [hadded, hremoved]
  added e he := by simp [hadded] at he
  removed n hn := by simp [hremoved] at hn
  kept n e hget _ := ⟨e, hget, hpatch e ▸ .refl e⟩
  absent n hget _ := hget

/-- An operation on a schema that some operations lead to, if it succeeds, changes what it names and
nothing else. -/
theorem call_changes (h : s.Reachable) {c : Call} (hrun : s.call c = (.ok (), s')) :
    s.Changes c s' := by
  have hs := h.wellFormed
  cases hs.succeeds hrun with
  | addEntity kind _ hnew => exact changes_push hs kind hnew
  | addProperty hadd hrelate => exact changes_withProperty hs hadd hrelate
  | removeProperty hid hparent howner htake =>
    exact changes_withoutProperty hs howner htake hid hparent
  | removeEntity hget hunused => exact changes_withoutEntity hs hget hunused
  | change => exact changes_committed rfl rfl rfl fun _ ↦ rfl
  | commit => exact changes_committed rfl rfl rfl fun _ ↦ rfl

/-- An entity that owns itself through one relation and is linked to by another entity. -/
def partCalls : List Call :=
  [.addEntity "Part" .detail, .addEntity "Bin" .master,
    .addProperty "Part" (.field "size" (.ofType .long)),
    .addProperty "Part" (.collection "parts" ⟨.owned, "Part"⟩),
    .addProperty "Part" (.field "label" (.ofType .text)),
    .addProperty "Bin" (.collection "content" ⟨.linked, "Part"⟩)]

theorem call_changes_of_parts :
    (empty.after partCalls).Changes (.removeProperty "Part" "parts")
        (empty.after (partCalls ++ [.removeProperty "Part" "parts"])) ∧
      ((empty.after (partCalls ++ [.removeProperty "Part" "parts"])).get? "Part").map
        (fun e ↦ (e.properties.map Property.name, e.ownedBy)) =
          some (["@id", "size", "label"], none) :=
  ⟨call_changes ⟨partCalls, rfl⟩ (Prod.ext (by rfl) (by rfl)), by decide⟩

end EntityStore.Schema
