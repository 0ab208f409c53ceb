import EntityStore.Proofs.Compile.Inputs
import EntityStore.Proofs.Compile.Operand
import EntityStore.Proofs.Mapping.Refinement

/-!
The updates that compile. What an entry may change is told by rules, one for each kind of change,
apart from the order in which the kinds are told from each other; an update compiles if and only if
its entries keep to the rules, and then to the changes that the rules say and in their order
(`Schema.compileUpdate_iff`).
-/

set_option autoImplicit false

namespace EntityStore

open EntityStore.Language (LinkOp Node Target UpdateEntry UpdateForm)

/-- What an entry may change of a property, and what is written for it. -/
inductive Property.Amends (args : Args) (p : Property) : UpdateEntry Value → InputValue → Prop where
  | field {f : Field} {node : Node Value} {raw v : Value} (hkind : p.kind = .field f)
      (hraw : Node.Spells args node raw) (htakes : f.Takes raw v) :
      Amends args p (.set node) (.value v)
  | parent {node : Node Value} {row : RowRef} (hparent : p.isParent)
      (hnode : Node.NamesRow args node row) :
      Amends args p (.set node) (.ref row)
  | cleared {r : Reference} (hkind : p.kind = .reference r) (hlinked : p.isLinked)
      (hoptional : r.optional) :
      Amends args p (.set (.literal .null)) (.refs [])
  | link {r : Reference} {op : LinkOp} {node : Node Value} {row : RowRef}
      (hkind : p.kind = .reference r) (hlinked : p.isLinked) (hkept : op = .del → r.optional)
      (hnode : Node.NamesRow args node row) :
      Amends args p (.link op node) (.link op row)
  | links {c : Collection} {op : LinkOp} {node : Node Value} {rows : List RowRef}
      (hkind : p.kind = .collection c) (hlinked : p.isLinked)
      (hnode : Node.NamesRows args node rows) :
      Amends args p (.link op node) (.links (rows.map fun r ↦ (op, r)))
  | single {c : Collection} {op : LinkOp} {node : Node Value} {row : RowRef}
      (hkind : p.kind = .collection c) (hlinked : p.isLinked)
      (hnode : Node.NamesRow args node row) :
      Amends args p (.link op node) (.links [(op, row)])

/-- The row that an update addresses: that of a number, or the one that a parameter names. -/
inductive Update.Addresses (args : Args) : Target Int64 → RowRef → Prop where
  | id (n : Int64) : Addresses args (.id n) (.known n)
  | param {name : String} {row : RowRef} (h : Node.NamesRow args (.param name) row) :
      Addresses args (.param name) row

/-- Entries for distinct inputs of an entity, each of which it may change, with what is written for
them in order. -/
structure Entity.Amends (e : Entity) (args : Args) (body : List (String × UpdateEntry Value))
    (inputs : Inputs) : Prop where
  distinct : (body.map Prod.fst).Nodup
  entries : List.Forall₂
    (fun x y ↦ ∃ p ∈ e.inputs, p.name = x.1 ∧ y.1 = x.1 ∧ p.Amends args x.2 y.2) body inputs

/-- What a text of an update says is the instruction for a row of an entity. -/
structure Entity.Updating (e : Entity) (args : Args) (form : UpdateForm Value Int64)
    (i : Instruction) : Prop where
  entity : i.entity = e.name
  target : Update.Addresses args form.target i.ref
  action : ∃ inputs, i.action = .update inputs ∧ e.Amends args form.body inputs
  accessed : i.accessed = .ofNames e.name (idName :: form.body.map Prod.fst)

/-- Only the literal null has the shape of a null. -/
theorem NodeShape.eq_null {n : Node Value} (h : NodeShape.ofNode n = .null) :
    n = .literal .null := by
  cases n with
  | literal v => cases v <;> first | rfl | cases h
  | _ => cases h

namespace Property

variable {p : Property}

theorem isLinked_reference_iff {r : Reference} (hkind : p.kind = .reference r) :
    p.isLinked ↔ r.kind = .linked ∧ ¬p.isParent := by
  simp [isLinked, relation?, hkind]

theorem isLinked_collection_iff {c : Collection} (hkind : p.kind = .collection c) :
    p.isLinked ↔ c.kind = .linked ∧ ¬p.isParent := by
  simp [isLinked, relation?, hkind]

end Property

namespace Update

variable {s : Schema} {args : Args} {e : Entity} {p : Property} {key : PropertyKey}
  {change : UpdateEntry Value} {v : InputValue} {named : List String} {name : String}

theorem target_eq_ok (name : String) {t : Target Int64} {row : RowRef} :
    target name args t = .ok row ↔ Addresses args t row := by
  cases t with
  | id n =>
    constructor
    · rintro ⟨⟩
      exact .id n
    · rintro ⟨⟩
      rfl
  | param param =>
    change Node.rowRef args ⟨name, idName⟩ (.param param) = .ok row ↔ _
    rw [Node.rowRef_eq_ok]
    constructor
    · exact .param
    · rintro (_ | h)
      exact h

/-- A node that is not many names no rows but a single one. -/
theorem isMany_of_namesRow {n : Node Value} {row : RowRef} (h : Node.NamesRow args n row) :
    Node.isMany args n = false := by
  cases h with
  | literal id => rfl
  | ref hlookup => simp [Node.isMany, hlookup]
  | @number _ v _ hlookup hid =>
    cases v with
    | list items => cases hid
    | _ => simp [Node.isMany, hlookup]

theorem namesRow_of_not_isMany {n : Node Value} {rows : List RowRef}
    (h : Node.NamesRows args n rows) (hmany : Node.isMany args n = false) :
    ∃ row, rows = [row] ∧ Node.NamesRow args n row := by
  cases h with
  | list _ => cases hmany
  | refs hlookup => simp [Node.isMany, hlookup] at hmany
  | ref hlookup => exact ⟨_, rfl, .ref hlookup⟩
  | numbers hlookup _ => simp [Node.isMany, hlookup] at hmany

theorem links_eq_ok {op : LinkOp} {n : Node Value} : links args key op n = .ok v ↔
    (∃ rows, Node.NamesRows args n rows ∧ v = .links (rows.map fun r ↦ (op, r))) ∨
      ∃ row, Node.NamesRow args n row ∧ v = .links [(op, row)] := by
  unfold links
  dsimp only
  cases hmany : Node.isMany args n with
  | true =>
    rw [if_pos rfl]
    simp only [Except.bind_eq_ok, Node.rowRefs_eq_ok]
    constructor
    · rintro ⟨rows, hrows, ⟨⟩⟩
      exact .inl ⟨rows, hrows, rfl⟩
    · rintro (⟨rows, hrows, rfl⟩ | ⟨row, hrow, rfl⟩)
      · exact ⟨rows, hrows, rfl⟩
      · cases hmany.symm.trans (isMany_of_namesRow hrow)
  | false =>
    rw [if_neg Bool.false_ne_true]
    simp only [Except.bind_eq_ok, Except.map_eq_ok, Node.rowRef_eq_ok]
    constructor
    · rintro ⟨_, ⟨row, hrow, rfl⟩, ⟨⟩⟩
      exact .inr ⟨row, hrow, rfl⟩
    · rintro (⟨rows, hrows, rfl⟩ | ⟨row, hrow, rfl⟩)
      · obtain ⟨row, rfl, hrow⟩ := namesRow_of_not_isMany hrows hmany
        exact ⟨_, ⟨row, hrow, rfl⟩, rfl⟩
      · exact ⟨_, ⟨row, hrow, rfl⟩, rfl⟩

theorem amends_of_entry (hs : s.WellFormed) (he : e ∈ s.entities) (hp : p ∈ e.properties)
    (h : entry args key p change = .ok v) : p.Amends args change v := by
  have hreference := isParent_reference hs he hp
  unfold entry at h
  split at h
  · next f n hkind =>
    obtain ⟨w, hw, rfl⟩ := Except.map_eq_ok.mp h
    obtain ⟨raw, hraw, htakes⟩ := Node.fieldValue_eq_ok.mp hw
    exact .field hkind hraw htakes
  · cases h
  · cases h
  · cases h
  · next r n howned hkind =>
    split at h
    · next hparent =>
      obtain ⟨row, hrow, rfl⟩ := Except.map_eq_ok.mp h
      exact .parent hparent (Node.rowRef_eq_ok.mp hrow)
    · next hparent =>
      split at h
      · next hnull =>
        cases h
        obtain ⟨hoptional, hnull⟩ := Bool.and_eq_true_iff.mp hnull
        obtain rfl := NodeShape.eq_null (eq_of_beq hnull)
        exact .cleared hkind (Property.isLinked_of_reference hkind howned hparent) hoptional
      · cases h
  · cases h
  · next r op n howned hkind =>
    split at h
    · cases h
    · next hparent =>
      split at h
      · cases h
      · next hrequired =>
        obtain ⟨row, hrow, rfl⟩ := Except.map_eq_ok.mp h
        refine .link hkind (Property.isLinked_of_reference hkind howned hparent) (fun hdel ↦ ?_)
          (Node.rowRef_eq_ok.mp hrow)
        simpa [hdel] using hrequired
  · next c op n howned hkind =>
    have hlinked : p.isLinked := Property.isLinked_of_collection hkind howned fun hparent ↦ by
      obtain ⟨r, hr⟩ := hreference hparent
      cases hkind.symm.trans hr
    rcases links_eq_ok.mp h with ⟨rows, hrows, rfl⟩ | ⟨row, hrow, rfl⟩
    · exact .links hkind hlinked hrows
    · exact .single hkind hlinked hrow

theorem entry_of_amends (hs : s.WellFormed) (he : e ∈ s.entities) (hp : p ∈ e.properties)
    (h : p.Amends args change v) : entry args key p change = .ok v := by
  cases h with
  | @field f node raw w hkind hraw htakes =>
    have hw : Node.fieldValue args key f node = .ok w :=
      Node.fieldValue_eq_ok.mpr ⟨raw, hraw, htakes⟩
    simp [entry, hkind, hw, Except.map]
  | @parent node row hparent hnode =>
    obtain ⟨own, hown⟩ := hs.ownership e he
    obtain ⟨o, q, -, rfl⟩ := hown.eq_parent hp (Property.isParent_iff.mp hparent)
    have hrow : Node.rowRef args key node = .ok row := Node.rowRef_eq_ok.mpr hnode
    simp [entry, Property.parent, Property.isParent, hrow, Except.map]
  | @cleared r hkind hlinked hoptional =>
    obtain ⟨kind, target, optional, unique⟩ := r
    obtain ⟨rfl, hparent⟩ := (Property.isLinked_reference_iff hkind).mp hlinked
    obtain rfl : optional = true := hoptional
    simp [entry, hkind, hparent, NodeShape.ofNode]
  | @link r op node row hkind hlinked hkept hnode =>
    obtain ⟨kind, target, optional, unique⟩ := r
    obtain ⟨rfl, hparent⟩ := (Property.isLinked_reference_iff hkind).mp hlinked
    have hrow : Node.rowRef args key node = .ok row := Node.rowRef_eq_ok.mpr hnode
    have hallowed : ¬(op = .del ∧ optional = false) :=
      fun h ↦ Bool.false_ne_true (h.2.symm.trans (hkept h.1))
    simp [entry, hkind, hparent, hallowed, hrow, Except.map]
  | @links c op node rows hkind hlinked hnode =>
    obtain ⟨kind, target⟩ := c
    obtain ⟨rfl, -⟩ := (Property.isLinked_collection_iff hkind).mp hlinked
    simp only [entry, hkind]
    exact links_eq_ok.mpr (.inl ⟨rows, hnode, rfl⟩)
  | @single c op node row hkind hlinked hnode =>
    obtain ⟨kind, target⟩ := c
    obtain ⟨rfl, -⟩ := (Property.isLinked_collection_iff hkind).mp hlinked
    simp only [entry, hkind]
    exact links_eq_ok.mpr (.inr ⟨row, hnode, rfl⟩)

/-- An entry is compiled to what the rules say of it. -/
theorem entry_eq_ok (hs : s.WellFormed) (he : e ∈ s.entities) (hp : p ∈ e.properties) :
    entry args key p change = .ok v ↔ p.Amends args change v :=
  ⟨amends_of_entry hs he hp, entry_of_amends hs he hp⟩

theorem admitted_eq_ok (he : e.WellFormed) :
    admitted e named name = .ok p ↔ p ∈ e.inputs ∧ p.name = name ∧ name ∉ named := by
  constructor
  · intro h
    obtain ⟨hp, hname, hnew, hinput⟩ := admitted_ok he h
    exact ⟨List.mem_filter.mpr ⟨hp, hinput⟩, hname, hnew⟩
  · rintro ⟨hp, hname, hnew⟩
    obtain ⟨hp, hinput⟩ := List.mem_filter.mp hp
    have hget : e.get? name = some p := (Entity.get?_eq_some_iff he).mpr ⟨hp, hname⟩
    simp [admitted, hget, hnew, hinput]

/-- The entries are compiled without an error to what the rules say of each, if their names are
distinct and new. -/
theorem entries_eq (hs : s.WellFormed) (he : e ∈ s.entities) (named : List String)
    {body : List (String × UpdateEntry Value)} {inputs : Inputs} :
    (entries args e named body).filterMap error? = [] ∧
      (entries args e named body).filterMap Except.toOption = inputs ↔
      e.Amends args body inputs ∧ ∀ name ∈ body.map Prod.fst, name ∉ named := by
  induction body generalizing named inputs with
  | nil =>
    constructor
    · rintro ⟨-, rfl⟩
      exact ⟨⟨.nil, .nil⟩, nofun⟩
    · rintro ⟨⟨-, ⟨⟩⟩, -⟩
      exact ⟨rfl, rfl⟩
  | cons x body ih =>
    obtain ⟨name, change⟩ := x
    rw [entries_cons]
    have houtcome (y : String × InputValue) : ((admitted e named name >>= fun p ↦
        entry args ⟨e.name, name⟩ p change >>= fun v ↦ pure (name, v)) = .ok y) ↔
        name ∉ named ∧ ∃ p ∈ e.inputs, p.name = name ∧ y.1 = name ∧ p.Amends args change y.2 := by
      simp only [Except.bind_eq_ok, admitted_eq_ok (hs.entity e he)]
      constructor
      · rintro ⟨p, ⟨hp, hname, hnew⟩, v, hv, ⟨⟩⟩
        exact ⟨hnew, p, hp, hname, rfl, (entry_eq_ok hs he (List.mem_filter.mp hp).1).mp hv⟩
      · rintro ⟨hnew, p, hp, hname, rfl, hamends⟩
        exact ⟨p, ⟨hp, hname, hnew⟩, y.2, (entry_eq_ok hs he (List.mem_filter.mp hp).1).mpr hamends,
          rfl⟩
    generalize (admitted e named name >>= fun p ↦
        entry args ⟨e.name, name⟩ p change >>= fun v ↦ pure (name, v)) = outcome at houtcome ⊢
    constructor
    · rintro ⟨herrors, rfl⟩
      cases outcome with
      | error err => cases herrors
      | ok y =>
        obtain ⟨hnew, hy⟩ := (houtcome y).mp rfl
        obtain ⟨⟨hdistinct, hentries⟩, hfree⟩ := (ih _).mp ⟨herrors, rfl⟩
        refine ⟨⟨List.nodup_cons.mpr ⟨fun hmem ↦ hfree name hmem List.mem_cons_self, hdistinct⟩,
            .cons hy hentries⟩,
          List.forall_mem_cons.mpr
            ⟨hnew, fun other hmem hnamed ↦ hfree other hmem (List.mem_cons_of_mem _ hnamed)⟩⟩
    · rintro ⟨⟨hdistinct, hentries⟩, hfree⟩
      obtain ⟨hnew, hfree⟩ := List.forall_mem_cons.mp hfree
      obtain ⟨hother, hdistinct⟩ := List.nodup_cons.mp hdistinct
      cases hentries with
      | @cons _ y _ inputs hy hentries =>
        obtain rfl := (houtcome y).mpr ⟨hnew, hy⟩
        obtain ⟨herrors, hinputs⟩ := (ih _).mpr ⟨⟨hdistinct, hentries⟩, fun other hmem hnamed ↦ by
          rcases List.mem_cons.mp hnamed with rfl | hnamed
          · exact hother hmem
          · exact hfree other hmem hnamed⟩
        exact ⟨herrors, congrArg (y :: ·) hinputs⟩

/-- What is written for an input does not touch an owned relation, and leaves a required reference
with a link. -/
theorem amends_keeps (hs : s.WellFormed) (he : e ∈ s.entities) (hp : p ∈ e.properties)
    (h : p.Amends args change v) :
    p.Updates v ∧ ¬p.isOwned ∧ ∀ r, p.kind = .reference r → p.isLinked → ¬r.optional →
    ∃ row, v = .link .add row := by
  have hcompiled : entry args ⟨e.name, p.name⟩ p change = .ok v := (entry_eq_ok hs he hp).mpr h
  refine ⟨entry_updates (isParent_reference hs he hp) hcompiled, ?_, ?_⟩
  · cases h with
    | field hkind => simp [Property.isOwned, Property.relation?, hkind]
    | parent hparent =>
      obtain ⟨own, hown⟩ := hs.ownership e he
      obtain ⟨o, q, -, rfl⟩ := hown.eq_parent hp (Property.isParent_iff.mp hparent)
      exact Bool.false_ne_true
    | cleared hkind hlinked =>
      have hr := ((Property.isLinked_reference_iff hkind).mp hlinked).1
      simp [Property.isOwned, Property.relation?, hkind, hr]
    | link hkind hlinked =>
      have hr := ((Property.isLinked_reference_iff hkind).mp hlinked).1
      simp [Property.isOwned, Property.relation?, hkind, hr]
    | links hkind hlinked =>
      have hc := ((Property.isLinked_collection_iff hkind).mp hlinked).1
      simp [Property.isOwned, Property.relation?, hkind, hc]
    | single hkind hlinked =>
      have hc := ((Property.isLinked_collection_iff hkind).mp hlinked).1
      simp [Property.isOwned, Property.relation?, hkind, hc]
  · intro r hr hlinked hrequired
    cases h with
    | field hkind => cases hr.symm.trans hkind
    | parent hparent => exact absurd hparent (Property.isLinked_iff.mp hlinked).2
    | cleared hkind _ hoptional =>
      cases hr.symm.trans hkind
      exact absurd hoptional hrequired
    | @link r' op _ row hkind _ hkept =>
      cases hr.symm.trans hkind
      cases op with
      | add => exact ⟨row, rfl⟩
      | del => exact absurd (hkept rfl) hrequired
    | links hkind => cases hr.symm.trans hkind
    | single hkind => cases hr.symm.trans hkind

end Update

namespace Schema

variable {s : Schema} {args : Args} {form : UpdateForm Value Int64} {i : Instruction}

/-- An update is compiled to the instruction that its text says. -/
theorem compileUpdate_eq_ok (hs : s.WellFormed) :
    s.compileUpdate form args = .ok i ↔ ∃ e ∈ s.entities, e.name = form.entity ∧
    e.Updating args form i := by
  rw [compileUpdate_ok_iff]
  constructor
  · rintro ⟨e, ref, hget, htarget, herrors, rfl⟩
    obtain ⟨he, hname⟩ := (get?_eq_some_iff hs).mp hget
    have hamends := ((Update.entries_eq hs he []).mp ⟨herrors, rfl⟩).1
    exact ⟨e, he, hname, rfl, (Update.target_eq_ok _).mp htarget, ⟨_, rfl, hamends⟩, rfl⟩
  · rintro ⟨e, he, hname, hentity, htarget, ⟨inputs, haction, hamends⟩, haccessed⟩
    obtain ⟨herrors, rfl⟩ := (Update.entries_eq hs he []).mpr ⟨hamends, fun _ _ ↦ List.not_mem_nil⟩
    refine ⟨e, i.ref, (get?_eq_some_iff hs).mpr ⟨he, hname⟩,
      (Update.target_eq_ok e.name).mpr htarget, herrors, ?_⟩
    rw [← haccessed, ← haction, ← hentity]

/-- An update compiles if and only if its entity exists, its target names a row, and its entries are
for distinct inputs of the entity that they may change; and then to just these changes in their
order, of which none touches an owned relation or leaves a required reference without a link. -/
theorem compileUpdate_iff {s : Schema} (h : s.Reachable)
    (form : UpdateForm Value Int64) (args : Args) :
    ((s.compileUpdate form args).isOk ↔ ∃ e ∈ s.entities, e.name = form.entity ∧
      (∃ row, Update.Addresses args form.target row) ∧ (form.body.map Prod.fst).Nodup ∧
        ∀ x ∈ form.body, ∃ p ∈ e.inputs, p.name = x.1 ∧ ∃ v, p.Amends args x.2 v) ∧
    (∀ i, s.compileUpdate form args = .ok i ↔ ∃ e ∈ s.entities, e.name = form.entity ∧
      e.Updating args form i) ∧
    ∀ i, s.compileUpdate form args = .ok i → ∃ e ∈ s.entities, e.name = i.entity ∧
      ∃ inputs, i.action = .update inputs ∧ ∀ x ∈ inputs, ∃ p ∈ e.inputs, p.name = x.1 ∧
        p.Updates x.2 ∧ ¬p.isOwned ∧ ∀ r, p.kind = .reference r → p.isLinked → ¬r.optional →
        ∃ row, x.2 = .link .add row := by
  have hs := h.wellFormed
  refine ⟨?_, fun i ↦ compileUpdate_eq_ok hs, fun i hi ↦ ?_⟩
  · rw [Except.isOk_iff]
    constructor
    · rintro ⟨i, hi⟩
      obtain ⟨e, he, hname, hupdating⟩ := (compileUpdate_eq_ok hs).mp hi
      obtain ⟨inputs, -, hdistinct, hentries⟩ := hupdating.action
      refine ⟨e, he, hname, ⟨i.ref, hupdating.target⟩, hdistinct, fun x hx ↦ ?_⟩
      obtain ⟨y, -, p, hp, hpname, -, hamends⟩ := List.forall₂_exists_left hentries x hx
      exact ⟨p, hp, hpname, y.2, hamends⟩
    · rintro ⟨e, he, hname, ⟨row, hrow⟩, hdistinct, hentries⟩
      obtain ⟨inputs, hinputs⟩ : ∃ inputs : Inputs, List.Forall₂
          (fun x y ↦ ∃ p ∈ e.inputs, p.name = x.1 ∧ y.1 = x.1 ∧
            p.Amends args x.2 y.2) form.body inputs := by
        refine List.exists_forall₂ fun x hx ↦ ?_
        obtain ⟨p, hp, hpname, v, hamends⟩ := hentries x hx
        exact ⟨(x.1, v), p, hp, hpname, rfl, hamends⟩
      exact ⟨⟨e.name, row, .update inputs, .ofNames e.name (idName :: form.body.map Prod.fst)⟩,
        (compileUpdate_eq_ok hs).mpr ⟨e, he, hname, rfl, hrow,
          ⟨inputs, rfl, hdistinct, hinputs⟩, rfl⟩⟩
  · obtain ⟨e, he, -, hupdating⟩ := (compileUpdate_eq_ok hs).mp hi
    obtain ⟨inputs, haction, -, hentries⟩ := hupdating.action
    refine ⟨e, he, hupdating.entity.symm, inputs, haction, fun y hy ↦ ?_⟩
    obtain ⟨x, -, p, hp, hpname, hyname, hamends⟩ := List.forall₂_exists_right hentries y hy
    exact ⟨p, hp, hpname.trans hyname.symm,
      Update.amends_keeps hs he (List.mem_filter.mp hp).1 hamends⟩

/-- The notes of a person are set from the side of the person. -/
def notesForm : UpdateForm Value Int64 :=
  ⟨"Person", .id 1,
    [("name", .set (.literal (.text "Ann"))), ("notes", .link .del (.literal (.long 1)))]⟩

theorem compileUpdate_iff_of_friends :
    (∃ i, (Schema.empty.after Mapping.friendsCalls).compileUpdate Mapping.annFriendForm [] = .ok i ∧
      ∃ e ∈ (Schema.empty.after Mapping.friendsCalls).entities, e.name = "Person" ∧
        e.Updating [] Mapping.annFriendForm i) ∧
    ¬∃ e ∈ (Schema.empty.after Mapping.friendsCalls).entities, e.name = "Person" ∧
      (∃ row, Update.Addresses [] (.id 1) row) ∧ (notesForm.body.map Prod.fst).Nodup ∧
        ∀ x ∈ notesForm.body, ∃ p ∈ e.inputs, p.name = x.1 ∧ ∃ v, p.Amends [] x.2 v := by
  have hs : (Schema.empty.after Mapping.friendsCalls).Reachable := ⟨Mapping.friendsCalls, rfl⟩
  have hok :
    ((Schema.empty.after Mapping.friendsCalls).compileUpdate Mapping.annFriendForm []).isOk := by
      decide +kernel
  have hfails : ((Schema.empty.after Mapping.friendsCalls).compileUpdate notesForm []).isOk =
    false := by decide +kernel
  obtain ⟨i, hi⟩ := Except.isOk_iff.mp hok
  refine ⟨⟨i, hi, ((compileUpdate_iff hs Mapping.annFriendForm []).2.1 i).mp hi⟩, fun hadmits ↦ ?_⟩
  rw [(compileUpdate_iff hs notesForm []).1.mpr hadmits] at hfails
  cases hfails

end Schema

end EntityStore
