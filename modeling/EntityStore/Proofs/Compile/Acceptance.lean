import EntityStore.Proofs.Compile.Transaction
import EntityStore.Proofs.Mapping.Refinement

/-!
The creates that compile. What an object may say is told by rules for its entries, apart from the
order in which they are looked at and from the errors; a create compiles if and only if its object
keeps to the rules, and then every row that it creates has all that its entity requires, and each
input once unless it is derived as well (`Schema.compileCreate_iff`).
-/

set_option autoImplicit false

namespace EntityStore

open EntityStore.Language (Node)

mutual

/-- What a property may be set to, and the value that a field gets by it. -/
inductive Schema.Admits (s : Schema) (args : Args) :
    Property → Node Value → Option Value → Prop where
  | field {p : Property} {f : Field} {node : Node Value} {raw v : Value} (hkind : p.kind = .field f)
      (hraw : Node.Spells args node raw) (htakes : f.Takes raw v) : Admits s args p node (some v)
  | absent {p : Property} {r : Reference} (hkind : p.kind = .reference r) (hoptional : r.optional) :
      Admits s args p (.literal .null) none
  | owned {p : Property} {r : Reference} {d : Entity} {body : List (String × Node Value)}
      (hkind : p.kind = .reference r) (hr : r.kind = .owned) (hd : d ∈ s.entities)
      (hname : d.name = r.target) (hbody : AdmitsRow s args d true body) :
      Admits s args p (.object body) none
  | linked {p : Property} {r : Reference} {node : Node Value} {row : RowRef}
      (hkind : p.kind = .reference r) (hr : r.kind = .linked)
      (hnode : Node.NamesRow args node row) : Admits s args p node none
  | ownedMany {p : Property} {c : Collection} {d : Entity}
      {bodies : List (List (String × Node Value))} (hkind : p.kind = .collection c)
      (hc : c.kind = .owned) (hd : d ∈ s.entities) (hname : d.name = c.target)
      (hbodies : ∀ body ∈ bodies, AdmitsRow s args d true body) :
      Admits s args p (.list (bodies.map .object)) none
  | linkedMany {p : Property} {c : Collection} {node : Node Value} {rows : List RowRef}
      (hkind : p.kind = .collection c) (hc : c.kind = .linked)
      (hnode : Node.NamesRows args node rows) :
      Admits s args p node none

/-- Entries that set inputs of an entity, and the values of the fields among them. -/
inductive Schema.AdmitsEntries (s : Schema) (args : Args) :
    Entity → List (String × Node Value) → List (String × Value) → Prop where
  | nil {e : Entity} : AdmitsEntries s args e [] []
  | cons {e : Entity} {p : Property} {node : Node Value} {v : Option Value}
      {rest : List (String × Node Value)} {given : List (String × Value)} (hp : p ∈ e.inputs)
      (hnode : Admits s args p node v) (hrest : AdmitsEntries s args e rest given) :
      AdmitsEntries s args e ((p.name, node) :: rest) ((v.map (p.name, ·)).toList ++ given)

/-- An object for a new row, which may be owned by another: its entries have distinct names, all
that is required is among them, and the derived values are of the types of their fields. -/
inductive Schema.AdmitsRow (s : Schema) (args : Args) :
    Entity → Bool → List (String × Node Value) → Prop where
  | intro {e : Entity} {owned : Bool} {body : List (String × Node Value)}
      {given : List (String × Value)} (hentries : AdmitsEntries s args e body given)
      (hdistinct : (body.map Prod.fst).Nodup) (hparent : owned → parentName ∉ body.map Prod.fst)
      (hcomplete : ∀ p ∈ e.inputs, p.isOptional ∨ p.name ∈ body.map Prod.fst ∨ owned ∧
        p.name = parentName)
      (hderived : ∀ p ∈ e.properties, ∀ f, p.kind = .field f → ∀ derive, f.derive = some derive →
        f.type.Holds (derive (sortEntries given))) : AdmitsRow s args e owned body

end

/-- The inputs of a row that has all its entity requires, with values of the types of the fields. -/
structure Entity.Filled (e : Entity) (inputs : Inputs) : Prop where
  complete : ∀ p ∈ e.inputs, ¬p.isOptional → ∃ v, (p.name, v) ∈ inputs ∧ p.Creates v
  value : ∀ p ∈ e.properties, ∀ f, p.kind = .field f →
    ∀ x, (p.name, x) ∈ inputs → ∃ v, x = .value v ∧ (v.isNull → f.optional ∨ f.derive.isSome) ∧
    (¬f.type.isContainer → v.isNull ∨ v.hasType f.type)

namespace Schema

variable {s : Schema} {args : Args} {p : Property} {node : Node Value} {v : Option Value}

theorem admitsEntries_cons {e : Entity} {name : String} {rest : List (String × Node Value)}
    {values : List (String × Value)} : s.AdmitsEntries args e ((name, node) :: rest) values ↔
      ∃ p ∈ e.inputs, p.name = name ∧ ∃ v given, s.Admits args p node v ∧
        s.AdmitsEntries args e rest given ∧ values = (v.map (name, ·)).toList ++ given := by
  constructor
  · rintro (_ | ⟨hp, hnode, hrest⟩)
    exact ⟨_, hp, rfl, _, _, hnode, hrest, rfl⟩
  · rintro ⟨p, hp, rfl, v, given, hnode, hrest, rfl⟩
    exact .cons hp hnode hrest

end Schema

namespace Draft

variable {s : Schema} {args : Args} {e d : Entity} {p : Property} {named : List String}
  {target : PropertyKey} {name : String}

/-- The value that an entry gives to a field. -/
def value? : Draft → Option Value
  | .input (.value v) => some v
  | _ => none

/-- The values among the inputs of a row in the order of its entries. -/
def given (row : RowDraft) : List (String × Value) :=
  row.filterMap fun (name, d) ↦ d.value?.map (name, ·)

theorem values_eq (row : RowDraft) : values row = sortEntries (given row) := by
  unfold values given
  refine congrArg sortEntries (List.filterMap_congr fun x _ ↦ ?_)
  obtain ⟨name, d⟩ := x
  cases d with
  | input v => cases v <;> rfl
  | _ => rfl

theorem given_cons (d : Option Draft) (row : RowDraft) : given ((d.map (name, ·)).toList ++ row) =
    ((d.bind value?).map (name, ·)).toList ++ given row := by
  cases d with
  | none => rfl
  | some d => cases hvalue : d.value? <;> simp [given, hvalue]

theorem admitted_eq_ok (he : e.WellFormed) :
    admitted e named name = .ok p ↔ p ∈ e.inputs ∧ p.name = name ∧ name ∉ named := by
  constructor
  · intro h
    obtain ⟨hp, hname, hnew, hinput⟩ := admitted_ok he h
    exact ⟨List.mem_filter.mpr ⟨hp, hinput⟩, hname, hnew⟩
  · rintro ⟨hp, hname, hnew⟩
    obtain ⟨hp, hinput⟩ := List.mem_filter.mp hp
    have hget : e.get? name = some p := (Entity.get?_eq_some_iff he).mpr ⟨hp, hname⟩
    simp [admitted, hnew, hget, hinput]

/-! ### Rows -/

theorem missing_eq_nil : missing e named = [] ↔ ∀ p ∈ e.inputs, p.isOptional ∨ p.name ∈ named := by
  unfold missing
  rw [List.map_eq_nil_iff, List.filter_eq_nil_iff]
  refine forall₂_congr fun p _ ↦ ?_
  cases p.isOptional <;> simp

theorem holds_iff {type : FieldType} {v : Value} :
    (v.isNull || type.isContainer || v.hasType type) = true ↔ type.Holds v := by
  simp [FieldType.Holds, Value.hasType, or_assoc]

/-- The derived fields of a row have values of their types. -/
theorem failed_eq_nil {values : List (String × Value)} :
    ((e.fields.filterMap fun (name, f) ↦ derived e.name values name f).filterMap fun
      | .error err => some err
      | .ok _ => none) = [] ↔
      ∀ p ∈ e.properties, ∀ f, p.kind = .field f → ∀ derive, f.derive = some derive →
        f.type.Holds (derive values) := by
  simp only [List.filterMap_eq_nil_iff, List.mem_filterMap]
  constructor
  · intro h p hp f hkind derive hderive
    have hfield : (p.name, f) ∈ e.fields :=
      List.mem_filterMap.mpr ⟨p, hp, by rw [Property.field?_eq_some_iff.mpr hkind]; rfl⟩
    by_contra hholds
    have herror : derived e.name values p.name f =
        some (.error (.invalidValue ⟨e.name, p.name⟩ (.derived (derive values) f.type))) := by
      unfold derived
      rw [hderive]
      exact congrArg some (if_neg fun h ↦ hholds (holds_iff.mp h))
    cases h _ ⟨_, hfield, herror⟩
  · rintro h outcome ⟨⟨name, f⟩, hfield, houtcome⟩
    obtain ⟨p, hp, hfield⟩ := List.mem_filterMap.mp hfield
    obtain ⟨f, hkind, ⟨⟩⟩ := Option.map_eq_some_iff.mp hfield
    obtain ⟨derive, hderive, houtcome⟩ := Option.map_eq_some_iff.mp houtcome
    have hholds := h p hp f (Property.field?_eq_some_iff.mp hkind) derive hderive
    dsimp only at houtcome
    rw [if_pos (holds_iff.mpr hholds)] at houtcome
    rw [← houtcome]

theorem complete_errors_iff {object : Checked RowDraft} : (complete e named object).errors = [] ↔
    object.errors = [] ∧ (∀ p ∈ e.inputs, p.isOptional ∨ p.name ∈ named) ∧
      ∀ p ∈ e.properties, ∀ f, p.kind = .field f → ∀ derive, f.derive = some derive →
        f.type.Holds (derive (sortEntries (given object.result))) := by
  unfold complete
  rw [← values_eq, ← missing_eq_nil, List.append_eq_nil_iff, List.append_eq_nil_iff, and_assoc]
  exact and_congr_right fun _ ↦ and_congr_right fun _ ↦ failed_eq_nil

theorem mem_taken {owned : Bool} : name ∈ taken owned ↔ owned ∧ name = parentName := by
  cases owned <;> simp [taken]

/-- The entries of an object are read without an error if they keep to the rules, and give the
values that the rules say. -/
def Exact (s : Schema) (args : Args) (e : Entity) (named : List String)
    (body : List (String × Node Value)) : Prop :=
  ∀ values, (entries s args e named body).errors = [] ∧
    given (entries s args e named body).result = values ↔
    s.AdmitsEntries args e body values ∧ (body.map Prod.fst).Nodup ∧
    ∀ name ∈ body.map Prod.fst, name ∉ named

/-- A row is complete if its object keeps to the rules. -/
theorem Exact.complete {owned : Bool} {body : List (String × Node Value)}
    (h : Exact s args e (taken owned) body) :
    (complete e (taken owned ++ body.map Prod.fst) (entries s args e (taken owned) body)).errors =
      [] ↔ s.AdmitsRow args e owned body := by
  rw [complete_errors_iff]
  constructor
  · rintro ⟨herrors, hmissing, hderived⟩
    obtain ⟨hentries, hdistinct, hfree⟩ := (h _).mp ⟨herrors, rfl⟩
    refine .intro hentries hdistinct (fun howned hmem ↦ hfree _ hmem (mem_taken.mpr ⟨howned, rfl⟩))
      (fun p hp ↦ ?_) hderived
    simpa [mem_taken, or_comm, or_assoc] using hmissing p hp
  · rintro ⟨hentries, hdistinct, hparent, hcomplete, hderived⟩
    obtain ⟨herrors, hgiven⟩ := (h _).mpr ⟨hentries, hdistinct, fun name hname htaken ↦ by
      obtain ⟨howned, rfl⟩ := mem_taken.mp htaken
      exact hparent howned hname⟩
    refine ⟨herrors, fun p hp ↦ ?_, hgiven ▸ hderived⟩
    simpa [mem_taken, or_comm, or_assoc] using hcomplete p hp

/-- An entry is read without an error if it keeps to the rules, if this is so of the rows below
it. -/
theorem entry_iff (hs : s.WellFormed) {node : Node Value} {v : Option Value}
    (hobject : ∀ body, node = .object body → ∀ d ∈ s.entities, Exact s args d (taken true) body)
    (hlist : ∀ items, node = .list items →
      ∀ d ∈ s.entities, (elements s args target d items).errors = [] ↔
      ∃ bodies : List (List (String × Node Value)), items = bodies.map .object ∧
        ∀ body ∈ bodies, s.AdmitsRow args d true body) :
    (entry s args target p node).errors = [] ∧ (entry s args target p node).result.bind value? = v ↔
      s.Admits args p node v := by
  constructor
  · rintro ⟨herrors, rfl⟩
    obtain ⟨d, hresult, hentered⟩ := entry_entered herrors
    rw [hresult, Option.bind_some]
    cases hentered with
    | field hkind hvalue =>
      obtain ⟨raw, hraw, htakes⟩ := Node.fieldValue_eq_ok.mp hvalue
      exact .field hkind hraw htakes
    | absent hkind hoptional => exact .absent hkind hoptional
    | owned hkind hr hget hbody =>
      obtain ⟨hd, hname⟩ := (Schema.get?_eq_some_iff hs).mp hget
      exact .owned hkind hr hd hname ((hobject _ rfl _ hd).complete.mp hbody)
    | linked hkind hr hrow => exact .linked hkind hr (Node.rowRef_eq_ok.mp hrow)
    | ownedMany hkind hc hget hitems =>
      obtain ⟨hd, hname⟩ := (Schema.get?_eq_some_iff hs).mp hget
      obtain ⟨bodies, rfl, hbodies⟩ := (hlist _ rfl _ hd).mp hitems
      exact .ownedMany hkind hc hd hname hbodies
    | linkedMany hkind hc hrows => exact .linkedMany hkind hc (Node.rowRefs_eq_ok.mp hrows)
  · intro h
    have hentered : ∃ d, Entered s args target p node d ∧ d.value? = v := by
      cases h with
      | field hkind hraw htakes =>
        exact ⟨_, .field hkind (Node.fieldValue_eq_ok.mpr ⟨_, hraw, htakes⟩), rfl⟩
      | absent hkind hoptional => exact ⟨_, .absent hkind hoptional, rfl⟩
      | owned hkind hr hd hname hbody =>
        have hget := (Schema.get?_eq_some_iff hs).mpr ⟨hd, hname⟩
        exact ⟨_, .owned hkind hr hget ((hobject _ rfl _ hd).complete.mpr hbody), rfl⟩
      | linked hkind hr hnode => exact ⟨_, .linked hkind hr (Node.rowRef_eq_ok.mpr hnode), rfl⟩
      | ownedMany hkind hc hd hname hbodies =>
        have hget := (Schema.get?_eq_some_iff hs).mpr ⟨hd, hname⟩
        exact ⟨_, .ownedMany hkind hc hget ((hlist _ rfl _ hd).mpr ⟨_, rfl, hbodies⟩), rfl⟩
      | linkedMany hkind hc hnode =>
        exact ⟨_, .linkedMany hkind hc (Node.rowRefs_eq_ok.mpr hnode), rfl⟩
    obtain ⟨d, hentered, rfl⟩ := hentered
    rw [hentered.entry_eq]
    exact ⟨rfl, rfl⟩

mutual

theorem entries_exact (hs : s.WellFormed) {e : Entity} (he : e ∈ s.entities) (named : List String) :
    ∀ body : List (String × Node Value), Exact s args e named body
  | [], values => by
    constructor
    · rintro ⟨-, rfl⟩
      exact ⟨.nil, .nil, nofun⟩
    · rintro ⟨⟨⟩, -⟩
      exact ⟨rfl, rfl⟩
  | (name, node) :: rest, values => by
    rw [Schema.admitsEntries_cons, List.map_cons, List.nodup_cons, List.forall_mem_cons]
    unfold entries
    dsimp only [put]
    rw [given_cons, List.append_eq_nil_iff]
    cases hadmitted : admitted e named name with
    | error err =>
      refine iff_of_false (fun h ↦ by cases h.1.1) ?_
      rintro ⟨⟨p, hp, hname, -⟩, -, hnew, -⟩
      rw [(admitted_eq_ok (hs.entity e he)).mpr ⟨hp, hname, hnew⟩] at hadmitted
      cases hadmitted
    | ok p =>
      obtain ⟨hp, rfl, hnew⟩ := (admitted_eq_ok (hs.entity e he)).mp hadmitted
      have hnode (v : Option Value) := node_iff hs p ⟨e.name, p.name⟩ node (v := v)
      have hrest (values : List (String × Value)) :=
        entries_exact hs he (p.name :: named) rest values
      simp only [List.mem_cons, not_or] at hrest
      constructor
      · rintro ⟨⟨hentry, herrors⟩, rfl⟩
        obtain ⟨hentries, hdistinct, hfree⟩ := (hrest _).mp ⟨herrors, rfl⟩
        exact ⟨⟨p, hp, rfl, _, _, (hnode _).mp ⟨hentry, rfl⟩, hentries, rfl⟩,
          ⟨fun hmem ↦ (hfree _ hmem).1 rfl, hdistinct⟩, hnew, fun name hname ↦ (hfree name hname).2⟩
      · rintro ⟨⟨q, hq, hname, v, values, hadmits, hentries, rfl⟩, ⟨honce, hdistinct⟩, -, hfree⟩
        obtain rfl := (hs.entity e he).indexed.eq_of_name_eq (List.mem_filter.mp hq).1
          (List.mem_filter.mp hp).1 hname
        obtain ⟨hentry, rfl⟩ := (hnode _).mpr hadmits
        obtain ⟨herrors, rfl⟩ := (hrest _).mpr
          ⟨hentries, hdistinct, fun name hname ↦ ⟨fun heq ↦ honce (heq ▸ hname), hfree name hname⟩⟩
        exact ⟨⟨hentry, herrors⟩, rfl⟩

theorem node_iff (hs : s.WellFormed) (p : Property) (target : PropertyKey) :
    ∀ (node : Node Value) {v : Option Value}, (entry s args target p node).errors = [] ∧
      (entry s args target p node).result.bind value? = v ↔ s.Admits args p node v
  | .literal _, _ => entry_iff hs nofun nofun
  | .param _, _ => entry_iff hs nofun nofun
  | .list items, _ => entry_iff hs nofun fun items' heq d hd ↦ by
    cases heq
    exact elements_iff hs hd target items
  | .object body, _ => entry_iff hs (fun body' heq d hd ↦ by
    cases heq
    exact entries_exact hs hd (taken true) body) nofun

theorem elements_iff (hs : s.WellFormed) {d : Entity} (hd : d ∈ s.entities) (target : PropertyKey) :
    ∀ items : List (Node Value), (elements s args target d items).errors = [] ↔
      ∃ bodies : List (List (String × Node Value)), items = bodies.map .object ∧
        ∀ body ∈ bodies, s.AdmitsRow args d true body
  | [] => iff_of_true rfl ⟨[], rfl, nofun⟩
  | .object body :: rest => by
    have hrow : Exact s args d (taken true) body := entries_exact hs hd (taken true) body
    unfold elements
    dsimp only
    rw [List.append_eq_nil_iff, hrow.complete, elements_iff hs hd target rest]
    constructor
    · rintro ⟨hbody, bodies, rfl, hbodies⟩
      exact ⟨body :: bodies, rfl, List.forall_mem_cons.mpr ⟨hbody, hbodies⟩⟩
    · rintro ⟨bodies, heq, hbodies⟩
      obtain ⟨body', bodies, rfl, ⟨⟩, rfl⟩ := List.map_eq_cons_iff.mp heq.symm
      exact ⟨hbodies _ List.mem_cons_self, bodies, rfl,
        fun body hbody ↦ hbodies _ (List.mem_cons_of_mem _ hbody)⟩
  | .literal v :: rest => by
    refine iff_of_false nofun ?_
    rintro ⟨bodies, heq, -⟩
    obtain ⟨_, _, _, ⟨⟩, _⟩ := List.map_eq_cons_iff.mp heq.symm
  | .param name :: rest => by
    refine iff_of_false nofun ?_
    rintro ⟨bodies, heq, -⟩
    obtain ⟨_, _, _, ⟨⟩, _⟩ := List.map_eq_cons_iff.mp heq.symm
  | .list items :: rest => by
    refine iff_of_false nofun ?_
    rintro ⟨bodies, heq, -⟩
    obtain ⟨_, _, _, ⟨⟩, _⟩ := List.map_eq_cons_iff.mp heq.symm

end

/-! ### The rows of a create -/

/-- The inputs of a row have the names of its entries. -/
theorem numberRow_names (owner next : Nat) (row : RowDraft) :
    ((numberRow owner next row).inputs.map Prod.fst).Sublist (row.map Prod.fst) := by
  induction row generalizing next with
  | nil => exact .slnil
  | cons x row ih =>
    obtain ⟨name, d⟩ := x
    have hentry : ((numberEntry owner next name d).inputs.map Prod.fst).Sublist [name] := by
      cases d with
      | absent => exact List.nil_sublist _
      | _ => exact List.Sublist.refl _
    rw [numberRow_cons, Numbered.append, List.map_append]
    exact hentry.append (ih _)

/-- A row has each of its inputs once, if no field is both given and derived. -/
theorem Place.Fits.distinct {x : Place} (h : x.Fits s e) (hnone : e.DerivesNoInput) :
    (x.inputs.map Prod.fst).Nodup := by
  have hrow : (x.numbered.inputs.map Prod.fst).Nodup :=
    (h.regular.distinct hnone).sublist (numberRow_names x.slot (x.slot + 1) x.row)
  unfold Place.inputs
  rw [List.map_append, List.nodup_append]
  refine ⟨?_, hrow, fun name hname name' hname' heq ↦ ?_⟩
  · unfold parentInput
    cases x.owner with
    | none => exact .nil
    | some r => exact List.nodup_singleton _
  · obtain ⟨y, hy, rfl⟩ := List.mem_map.mp hname
    obtain ⟨r, hr, rfl⟩ := mem_parentInput.mp hy
    obtain ⟨z, hz, rfl⟩ := List.mem_map.mp ((numberRow_names _ _ _).subset hname')
    exact h.regular.free z hz (mem_taken.mpr ⟨by rw [hr]; rfl, heq.symm⟩)

theorem Place.Fits.filled (hs : s.WellFormed) {x : Place} (h : x.Fits s e) : e.Filled x.inputs where
  complete p hp hrequired := by
    rcases List.mem_append.mp (h.regular.complete p hp hrequired) with hname | hname
    · obtain ⟨howner, hname⟩ := mem_taken.mp hname
      obtain ⟨r, hr⟩ := Option.isSome_iff_exists.mp howner
      refine ⟨.ref r, List.mem_append_left _ (mem_parentInput.mpr ⟨r, hr, by rw [hname]⟩), ?_⟩
      exact Update.isParent_reference hs h.mem (List.mem_filter.mp hp).1
        (Property.isParent_iff.mpr hname)
    · obtain ⟨y, hy, hname⟩ := List.mem_map.mp hname
      obtain ⟨q, hq, hqname, hor⟩ := numberRow_complete h.entries x.slot (x.slot + 1) hy
      obtain rfl := (hs.entity e h.mem).indexed.eq_of_name_eq hq (List.mem_filter.mp hp).1
        (hqname.trans hname)
      rcases hor with hoptional | ⟨v, hv, hcreates⟩
      · exact absurd hoptional hrequired
      · exact ⟨v, List.mem_append_right _ hv, hcreates⟩
  value p hp f hkind input hinput := by
    rcases List.mem_append.mp hinput with hinput | hinput
    · obtain ⟨r, -, heq⟩ := mem_parentInput.mp hinput
      obtain ⟨hname, -⟩ := Prod.mk.inj heq
      obtain ⟨r, hr⟩ := Update.isParent_reference hs h.mem hp (Property.isParent_iff.mpr hname)
      cases hkind.symm.trans hr
    · obtain ⟨d, next, hentry, hd⟩ := mem_numberRow_entry hinput
      obtain ⟨q, hq, hqname, hfits⟩ := entriesFit_iff.mp h.entries _ hentry
      obtain rfl := (hs.entity e h.mem).indexed.eq_of_name_eq hq hp hqname
      have hvalue := hfits.isValue hkind
      cases d with
      | input v =>
        obtain rfl : input = v := congrArg Prod.snd (List.mem_singleton.mp hd)
        cases input with
        | value v =>
          obtain ⟨⟨g, hg, hholds⟩, -, hnull⟩ := hfits
          cases hkind.symm.trans hg
          refine ⟨v, rfl, fun hv ↦ ?_, fun hcontainer ↦ ?_⟩
          · obtain ⟨g, hg, hor⟩ := hnull hv
            cases hkind.symm.trans hg
            exact hor
          · exact hholds.imp_right fun h ↦ by simpa [Value.hasType] using h.resolve_left hcontainer
        | _ => cases hvalue
      | _ => cases hvalue

end Draft

namespace Schema

/-- A create compiles if and only if its entity exists and its object keeps to the rules; and then
every row that it creates has what its entity requires, and each input once if none of the entity's
inputs is derived as well. -/
theorem compileCreate_iff {s : Schema} (h : s.Reachable) (form : Language.CreateForm Value)
    (args : Args) (slots : Slots) :
    ((s.compileCreate form args slots).isOk ↔
      ∃ e ∈ s.entities, e.name = form.entity ∧ s.AdmitsRow args e false form.body) ∧
    ∀ c, s.compileCreate form args slots = .ok c → ∀ i ∈ c.instructions,
      ∃ e ∈ s.entities, e.name = i.entity ∧ ∃ inputs, i.action = .create inputs ∧ e.Filled inputs ∧
        (e.DerivesNoInput → (inputs.map Prod.fst).Nodup) := by
  have hs := h.wellFormed
  refine ⟨?_, fun c hc i hi ↦ ?_⟩
  · have hrow {e : Entity} (he : e ∈ s.entities) : (Draft.row s args e form.body).errors = [] ↔
        s.AdmitsRow args e false form.body :=
      (Draft.entries_exact hs he (Draft.taken false) form.body).complete
    simp only [Except.isOk_iff, compileCreate_ok_iff]
    constructor
    · rintro ⟨c, e, n, hget, herrors, -, -⟩
      obtain ⟨he, hname⟩ := (get?_eq_some_iff hs).mp hget
      exact ⟨e, he, hname, (hrow he).mp herrors⟩
    · rintro ⟨e, he, hname, hadmits⟩
      exact ⟨_, e, _, (get?_eq_some_iff hs).mpr ⟨he, hname⟩, (hrow he).mpr hadmits, rfl, rfl⟩
  · obtain ⟨x, e, hfits, -, -, -, hinstructions, -⟩ := compileCreate_place hs hc
    rw [hinstructions] at hi
    obtain ⟨y, hy, rfl⟩ := List.mem_map.mp hi
    obtain ⟨d, hd⟩ := hfits.places y hy
    exact ⟨d, hd.mem, hd.name, y.inputs, rfl, hd.filled hs, hd.distinct⟩

/-- A person who is her own friend, with a note, but without the name that is required. -/
def namelessForm : Language.CreateForm Value :=
  ⟨"Person",
    [("friend", .literal (.long 1)), ("notes", .list [.object [("text", .literal (.text "tea"))]])]⟩

theorem compileCreate_iff_of_friends :
    (∃ c, (Schema.empty.after Mapping.friendsCalls).compileCreate Mapping.annForm [] .empty =
      .ok c ∧ c.instructions.length = 2 ∧
        ∀ i ∈ c.instructions, ∃ e ∈ (Schema.empty.after Mapping.friendsCalls).entities,
        e.name = i.entity ∧ ∃ inputs, i.action = .create inputs ∧ e.Filled inputs ∧
          (e.DerivesNoInput → (inputs.map Prod.fst).Nodup)) ∧
    ¬∃ e ∈ (Schema.empty.after Mapping.friendsCalls).entities, e.name = "Person" ∧
      (Schema.empty.after Mapping.friendsCalls).AdmitsRow [] e false namelessForm.body := by
  have hs : (Schema.empty.after Mapping.friendsCalls).Reachable := ⟨Mapping.friendsCalls, rfl⟩
  have hok :
      ((Schema.empty.after Mapping.friendsCalls).compileCreate Mapping.annForm []
        .empty).toOption.any fun c ↦
      c.instructions.length == 2 := by decide +kernel
  have hfails :
      ((Schema.empty.after Mapping.friendsCalls).compileCreate namelessForm [] .empty).isOk =
        false := by
    decide +kernel
  obtain ⟨c, hc, hlength⟩ := (Option.any_eq_true _ _).mp hok
  have hc := Except.toOption_eq_some_iff.mp hc
  refine ⟨⟨c, hc, eq_of_beq hlength, (compileCreate_iff hs Mapping.annForm [] .empty).2 c hc⟩,
    fun hadmits ↦ ?_⟩
  rw [(compileCreate_iff hs namelessForm [] .empty).1.mpr hadmits] at hfails
  cases hfails

/-- Clubs with members, and counts that are derived though they are inputs. -/
def clubsCalls : List Schema.Call :=
  [.addEntity "Person" .master, .addEntity "Club" .master,
    .addProperty "Club" (.collection "members" ⟨.linked, "Person"⟩), .addEntity "Tally" .master,
    .addProperty "Tally"
      { Property.field "count" { Field.ofType .long with derive := some fun _ ↦ .long 7 } with
        input := true },
    .commit]

def membersForm : Language.CreateForm Value :=
  ⟨"Club", [("members", .param "who")]⟩

def tallyForm : Language.CreateForm Value :=
  ⟨"Tally", [("count", .literal (.long 1))]⟩

/-- A parameter bound to the number of a row names a row, but not the members of a club; and an
input that is derived as well stands twice in what is created. -/
theorem number_refused_and_input_twice :
    (Node.NamesRow [("who", .value (.long 5))] (.param "who") (.known 5) ∧
      (∃ e ∈ (Schema.empty.after clubsCalls).entities, e.name = "Club" ∧ ∃ p c, e.inputs = [p] ∧
        p.name = "members" ∧ p.kind = .collection c ∧ c.kind = .linked) ∧
      ((Schema.empty.after clubsCalls).compileCreate membersForm [("who", .value (.long 5))]
        .empty).isOk = false) ∧
    ∃ c inputs, (Schema.empty.after clubsCalls).compileCreate tallyForm [] .empty = .ok c ∧
      c.instructions.map Instruction.action = [.create inputs] ∧
      inputs.map Prod.fst = ["count", "count"] := by
  have hnames : Node.NamesRow [("who", .value (.long 5))] (.param "who") (.known 5) :=
    .number rfl rfl
  have hclub : ∃ e ∈ (Schema.empty.after clubsCalls).entities, e.name = "Club" ∧
      ∃ p c, e.inputs = [p] ∧ p.name = "members" ∧ p.kind = .collection c ∧ c.kind = .linked :=
    ⟨_, List.mem_cons_of_mem _ List.mem_cons_self, rfl, _, _, rfl, rfl, rfl, rfl⟩
  exact ⟨⟨hnames, hclub, rfl⟩, _, _, rfl, rfl, rfl⟩

end Schema

end EntityStore
