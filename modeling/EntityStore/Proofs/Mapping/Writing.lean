import EntityStore.Proofs.Mapping.Step

/-!
Writing an instruction does what it means: every statement changes the content as it should, and
together they make one step.
-/

set_option autoImplicit false

namespace EntityStore

/-- A store of a schema, told by its content and the greatest numbers that its rows were given. -/
structure Store.Shows (s : Schema) (c : Content) (top : String → Int64) (store : Store) : Prop where
  shaped : store.Shaped s
  content : store.content s = c
  top : ∀ d ∈ s.entities, store.top d.name = top d.name

/-- A statement that gives no row a number. -/
theorem Store.Shows.run {s : Schema} {c c' : Content} {top : String → Int64} {store : Store}
    {statement : Statement} {effect : Effect} (h : store.Shows s c top)
    (hrun : store.run statement = .ok effect) (hplain : statement.Plain)
    (hcontent : effect.store.content s = c')
    (htop : ∀ d ∈ s.entities, effect.store.top d.name = store.top d.name) :
    effect.store.Shows s c' top :=
  ⟨h.shaped.run hplain hrun, hcontent, fun d hd ↦ (htop d hd).trans (h.top d hd)⟩

namespace Mapping

variable {s : Schema} {e : Entity} {p : Property} {c : Content}
  {top : String → Int64} {t t' : Session} {owner target id : Int64}
  {inputs : Inputs} {slots : Slots}

/-! ### Links -/

section

variable (hs : s.WellFormed) (he : e ∈ s.entities) (hp : p ∈ e.properties) (hlinked : p.isLinked)

include hs he hp hlinked

theorem addLink_ok (h : t.store.Shows s c top)
    (hrun : (addLink e.name p.name owner target).run t = (.ok (), t')) :
    t'.slots = t.slots ∧
      t'.store.Shows s
        (c.putLinks e.name p.name owner (c.links e.name p.name owner ++ [target])) top := by
  obtain ⟨effect, u, hstatement, hsingle⟩ := Run.run_bind_ok.mp hrun
  obtain ⟨hstore, hu, hslots⟩ := Run.run_statement_ok hstatement
  obtain ⟨-, rfl⟩ := Run.run_single_ok hsingle
  obtain ⟨hcontent, htop⟩ := Store.run_insert_link hs h.shaped he hp hlinked hstore
  rw [h.content] at hcontent
  exact ⟨hslots, hu ▸ h.run hstore (settable_link owner target) hcontent htop⟩

theorem removeLink_ok (h : t.store.Shows s c top)
    (hrun : (removeLink e.name p.name owner target).run t = (.ok (), t')) : t'.slots = t.slots ∧
      t'.store.Shows s (c.putLinks e.name p.name owner
        ((c.links e.name p.name owner).filter (· != target))) top := by
  obtain ⟨effect, u, hstatement, hsingle⟩ := Run.run_bind_ok.mp hrun
  obtain ⟨hstore, hu, hslots⟩ := Run.run_statement_ok hstatement
  obtain ⟨-, rfl⟩ := Run.run_single_ok hsingle
  obtain ⟨hcontent, htop⟩ := Store.run_delete_link hs h.shaped he hp hlinked hstore
  rw [h.content] at hcontent
  exact ⟨hslots, hu ▸ h.run hstore trivial hcontent htop⟩

theorem removeLinks_ok (h : t.store.Shows s c top)
    (hrun : (removeLinks e.name p.name owner).run t = (.ok (), t')) :
    t'.slots = t.slots ∧ t'.store.Shows s (c.putLinks e.name p.name owner []) top := by
  obtain ⟨effect, u, hstatement, hpure⟩ := Run.run_bind_ok.mp hrun
  obtain ⟨hstore, hu, hslots⟩ := Run.run_statement_ok hstatement
  obtain ⟨-, rfl⟩ := Run.run_pure_ok.mp hpure
  obtain ⟨hcontent, htop⟩ := Store.run_delete_links hs h.shaped he hp hlinked hstore
  rw [h.content] at hcontent
  exact ⟨hslots, hu ▸ h.run hstore trivial hcontent htop⟩

end

/-- The rows that links of a relation are to lead to. -/
def linkedTo (slots : Slots) (links : List (String × RowRef)) (relation : String) : List Int64 :=
  (links.filter (·.1 = relation)).filterMap fun x ↦ slots.id? x.2

/-- The content with links of an owner added. -/
def withLinks (c : Content) (entity : String) (owner : Int64) (slots : Slots)
    (links : List (String × RowRef)) : Content :=
  { c with links := fun d r o ↦
      if d = entity ∧ o = owner then c.links d r o ++ linkedTo slots links r else c.links d r o }

theorem withLinks_concat (entity relation : String) (owner : Int64)
    (links : List (String × RowRef)) {row : RowRef} (htarget : slots.id? row = some target) :
      withLinks c entity owner slots (links ++ [(relation, row)]) =
      (withLinks c entity owner slots links).putLinks entity relation owner
        ((withLinks c entity owner slots links).links entity relation owner ++ [target]) := by
  ext1
  · rfl
  · funext d r o
    rw [Content.putLinks_links]
    by_cases hd : d = entity ∧ o = owner
    · obtain ⟨rfl, rfl⟩ := hd
      by_cases hr : r = relation
      · simp [withLinks, linkedTo, hr, htarget]
      · simp [withLinks, linkedTo, hr, Ne.symm hr]
    · have hother : ¬(d = entity ∧ r = relation ∧ o = owner) := fun h ↦ hd ⟨h.1, h.2.2⟩
      simp only [withLinks, if_neg hd, if_neg hother]

@[simp] theorem withLinks_nil (entity : String) (owner : Int64) (slots : Slots) :
    withLinks c entity owner slots [] = c := by
  ext1
  · rfl
  · funext d r o
    simp [withLinks, linkedTo]

/-- The links of a new row are added in their order. -/
theorem addLinks_ok (hs : s.WellFormed) (he : e ∈ s.entities) {links : List (String × RowRef)}
    (hlinks : ∀ x ∈ links, e.links x.1) (h : t.store.Shows s c top)
    (hrun : (links.forM fun (relation, target) ↦ do
      let target ← Run.rowOf target (.related ⟨e.name, relation⟩)
      addLink e.name relation owner target).run t = (.ok (), t')) :
    t'.slots = t.slots ∧ (∀ x ∈ links, (t.slots.id? x.2).isSome) ∧
      t'.store.Shows s (withLinks c e.name owner t.slots links) top := by
  refine Run.run_forM_ok (P := fun done u ↦ u.slots = t.slots ∧
    (∀ x ∈ done, (t.slots.id? x.2).isSome) ∧
    u.store.Shows s (withLinks c e.name owner t.slots done) top) hrun ⟨rfl, nofun, ?_⟩ ?_
  · rwa [withLinks_nil]
  · rintro before ⟨relation, row⟩ after u u' hsplit ⟨hslots, hassigned, hshows⟩ hstep
    obtain ⟨target, v, hrow, hadd⟩ := Run.run_bind_ok.mp hstep
    obtain ⟨htarget, rfl⟩ := Run.run_rowOf_ok hrow
    rw [hslots] at htarget
    obtain ⟨p, hp, rfl, hlinked⟩ := (Entity.links_eq_true_iff (hs.entity e he)).mp
      (hlinks (relation, row) (by simp [hsplit]))
    obtain ⟨hslots', hshows'⟩ := addLink_ok hs he hp hlinked hshows hadd
    refine ⟨hslots'.trans hslots, ?_, ?_⟩
    · rintro x hx
      rcases List.mem_append.mp hx with hx | hx
      · exact hassigned x hx
      · rw [List.mem_singleton.mp hx, htarget]
        rfl
    · rwa [withLinks_concat _ _ _ _ htarget]

/-! ### Creates -/

/-- The links that an input asks for. -/
def linksOf (e : Entity) (x : String × InputValue) : List (String × RowRef) :=
  if e.links x.1 then x.2.rows.map (x.1, ·) else []

theorem linkedTo_append (links more : List (String × RowRef)) (relation : String) :
    linkedTo slots (links ++ more) relation = linkedTo slots links relation ++
      linkedTo slots more relation := by
  simp [linkedTo]

theorem linkedTo_linksOf_other {x : String × InputValue} {relation : String} (h : x.1 ≠ relation) :
    linkedTo slots (linksOf e x) relation = [] := by
  unfold linkedTo linksOf
  split <;> simp [h]

theorem linkedTo_linksOf {x : String × InputValue} (h : e.links x.1) :
    linkedTo slots (linksOf e x) x.1 = x.2.rows.filterMap slots.id? := by
  unfold linkedTo linksOf
  rw [if_pos h, List.filter_eq_self.mpr (by simp), List.filterMap_map]
  rfl

theorem linkedTo_flatMap_other {relation : String} (h : ∀ x ∈ inputs, x.1 ≠ relation) :
    linkedTo slots (inputs.flatMap (linksOf e)) relation = [] := by
  induction inputs with
  | nil => rfl
  | cons x inputs ih =>
    obtain ⟨hx, hinputs⟩ := List.forall_mem_cons.mp h
    rw [List.flatMap_cons, linkedTo_append, linkedTo_linksOf_other hx, ih hinputs, List.append_nil]

/-- Together the inputs link a new row as each relation's own input says. -/
theorem linkedTo_inputs (honce : inputs.Pairwise fun x y ↦ x.1 = y.1 → x.2.isValue)
    {relation : String} (hlinks : e.links relation)
    (hrelation : ∀ v, (relation, v) ∈ inputs → (∃ r, v = .ref r) ∨ ∃ rs, v = .refs rs) :
    linkedTo slots (inputs.flatMap (linksOf e)) relation =
      ((inputs.lookup relation).map (·.targets slots)).getD [] := by
  induction inputs with
  | nil => rfl
  | cons x inputs ih =>
    obtain ⟨name, v⟩ := x
    obtain ⟨hfirst, honce⟩ := List.pairwise_cons.mp honce
    rw [List.flatMap_cons, linkedTo_append, List.lookup_cons]
    by_cases hname : relation = name
    · subst hname
      have hv := hrelation v List.mem_cons_self
      have hnone : linkedTo slots (inputs.flatMap (linksOf e)) relation = [] := by
        refine linkedTo_flatMap_other fun y hy hsame ↦ ?_
        have hvalue : v.isValue := hfirst y hy hsame.symm
        rcases hv with ⟨r, rfl⟩ | ⟨rs, rfl⟩ <;> cases hvalue
      rw [hnone, List.append_nil, linkedTo_linksOf (x := (relation, v)) hlinks, beq_self_eq_true]
      rcases hv with ⟨r, rfl⟩ | ⟨rs, rfl⟩
      · cases hid : slots.id? r <;> simp [InputValue.rows, InputValue.targets, hid]
      · rfl
    · rw [linkedTo_linksOf_other (Ne.symm hname), List.nil_append, beq_eq_false_iff_ne.mpr hname,
        ih honce fun v hv ↦ hrelation v (List.mem_cons_of_mem _ hv)]

/-- What is done with an input of a create: a field and the owner have a column, a linked relation
its links, and an owned relation is left to the rows that it owns. -/
inductive Inserts (p : Property) : InputValue → Run Insertion → Prop where
  | field {f : Field} {v : Value} (hkind : p.kind = .field f) (hholds : f.type.Holds v) :
    Inserts p (.value v) (pure (.column p.name (f.type.column v).cell))
  | parent {q : Reference} {r : RowRef} (hkind : p.kind = .reference q)
    (hparent : p.name = parentName) :
    Inserts p (.ref r) (Run.rowOf r .parent >>= fun id ↦ pure (.column parentName (.integer id)))
  | links {v : InputValue} (hvalue : v.isValue = false) (hlinked : p.isLinked) :
    Inserts p v (pure (.link p.name v.rows))
  | owned {v : InputValue} (hvalue : v.isValue = false) (howned : p.isOwned)
    (hparent : p.name ≠ parentName) :
    Inserts p v (pure .none)

/-- An input of a create is of the kind of its property. -/
theorem inserted_inserts (hs : s.WellFormed) (he : e ∈ s.entities)
    (hp : p ∈ e.properties) {v : InputValue} (hv : p.Creates v) :
    Inserts p v (inserted e p.name v) := by
  have hget : e.get? p.name = some p := (Entity.get?_eq_some_iff (hs.entity e he)).mpr ⟨hp, rfl⟩
  unfold inserted
  dsimp only
  rw [hget, Option.map_some]
  cases v with
  | value v =>
    obtain ⟨f, hkind, hholds⟩ := hv
    rw [hkind]
    exact .field hkind hholds
  | ref r =>
    obtain ⟨q, hkind⟩ := hv
    rw [hkind]
    dsimp only
    split
    · next hparent => exact .parent hkind hparent
    · next hparent =>
      split
      · next howned =>
          exact .owned rfl (by simp [Property.isOwned, Property.relation?, hkind, howned]) hparent
      · next howned =>
        exact .links rfl (Property.isLinked_of_reference hkind (fun _ _ _ hq ↦ howned (by rw [hq]))
          (mt Property.isParent_iff.mp hparent))
  | refs rs =>
    obtain ⟨c, hkind⟩ := hv
    rw [hkind]
    dsimp only
    have hparent : ¬p.isParent := by
      intro hparent
      obtain ⟨q, hq⟩ := Update.isParent_reference hs he hp hparent
      cases hkind.symm.trans hq
    split
    · next howned =>
      exact .owned rfl (by simp [Property.isOwned, Property.relation?, hkind, howned])
        (mt Property.isParent_iff.mpr hparent)
    · next howned =>
      exact .links rfl
        (Property.isLinked_of_collection hkind (fun _ hc ↦ howned (by rw [hc])) hparent)
  | link op r => exact hv.elim
  | links ls => exact hv.elim

/-- Only the value of a field and the owner have a column. -/
theorem columnOf_eq_none {x : String × InputValue} (hvalue : x.2.isValue = false)
    (hparent : x.1 ≠ parentName) :
    e.columnOf slots x = none := by
  obtain ⟨name, v⟩ := x
  cases v with
  | value v => cases hvalue
  | ref r => exact if_neg hparent
  | _ => rfl

theorem links_eq_isLinked (he : e.WellFormed) (hp : p ∈ e.properties) :
    e.links p.name = p.isLinked := by
  unfold Entity.links
  rw [(Entity.get?_eq_some_iff he).mpr ⟨hp, rfl⟩]
  rfl

/-- What an input of a compiled create is written to. -/
theorem inserted_ok (hs : s.WellFormed) (he : e ∈ s.entities) (hcreates : e.Creates inputs)
    {x : String × InputValue} (hx : x ∈ inputs) {part : Insertion}
    (hrun : (inserted e x.1 x.2).run t = (.ok part, t')) : t' = t ∧
      part.columns = (e.columnOf t.slots x).toList ∧ part.links = linksOf e x ∧
      (x.1 = parentName → ∀ r ∈ x.2.rows, (t.slots.id? r).isSome) := by
  obtain ⟨-, p, hp, hname, hinput⟩ := hcreates.property x hx
  obtain ⟨name, v⟩ := x
  obtain rfl : p.name = name := hname
  have hlinks := links_eq_isLinked (hs.entity e he) hp
  have hinserts := inserted_inserts hs he hp hinput
  dsimp only at hrun
  generalize inserted e p.name v = action at hinserts hrun
  cases hinserts with
  | @field f v hkind =>
    obtain ⟨rfl, rfl⟩ := Run.run_pure_ok.mp hrun
    refine ⟨rfl, ?_, ?_, fun _ ↦ nofun⟩
    · simp [Entity.columnOf, (Entity.get?_eq_some_iff (hs.entity e he)).mpr ⟨hp, rfl⟩,
        Property.field?, hkind, Insertion.column]
    · simp [linksOf, InputValue.rows, Insertion.column]
  | @parent q r hkind hparent =>
    obtain ⟨id, u, hrow, hpure⟩ := Run.run_bind_ok.mp hrun
    obtain ⟨hid, rfl⟩ := Run.run_rowOf_ok hrow
    obtain ⟨rfl, rfl⟩ := Run.run_pure_ok.mp hpure
    have hnot : p.isLinked = false := by simp [Property.isLinked, Property.isParent, hparent]
    refine ⟨rfl, ?_, ?_, fun _ r' hr' ↦ ?_⟩
    · simp [Entity.columnOf, hparent, hid, Insertion.column]
    · simp [linksOf, hlinks, hnot, Insertion.column]
    · rw [List.mem_singleton.mp hr', hid]
      rfl
  | links hvalue hlinked =>
    obtain ⟨rfl, rfl⟩ := Run.run_pure_ok.mp hrun
    have hparent := Property.name_ne_of_isLinked hlinked
    refine ⟨rfl, ?_, ?_, fun h ↦ absurd h hparent⟩
    · rw [columnOf_eq_none hvalue hparent]
      rfl
    · simp [linksOf, hlinks, hlinked, Insertion.link]
  | owned hvalue howned hparent =>
    obtain ⟨rfl, rfl⟩ := Run.run_pure_ok.mp hrun
    refine ⟨rfl, ?_, ?_, fun h ↦ absurd h hparent⟩
    · rw [columnOf_eq_none hvalue hparent]
      rfl
    · simp [linksOf, hlinks, Property.isLinked_of_isOwned howned, Insertion.none]

/-- What the inputs of a compiled create are written to. -/
theorem insertion_ok (hs : s.WellFormed) (he : e ∈ s.entities) (hcreates : e.Creates inputs)
    {parts : List Insertion}
    (hrun : (inputs.mapM fun (name, v) ↦ inserted e name v).run t = (.ok parts, t')) : t' = t ∧
      (parts.foldl Insertion.append .none).columns = inputs.filterMap (e.columnOf t.slots) ∧
      (parts.foldl Insertion.append .none).links = inputs.flatMap (linksOf e) ∧
      ∀ x ∈ inputs, x.1 = parentName → ∀ r ∈ x.2.rows, (t.slots.id? r).isSome := by
  obtain ⟨rfl, hall⟩ :=
    Run.run_mapM_ok hrun fun x part u hx hstep ↦ inserted_ok hs he hcreates hx hstep
  refine ⟨rfl, ?_, ?_, List.forall_of_forall₂ hall fun x part h ↦ h.2.2⟩
  · rw [columns_foldl, List.filterMap_eq_flatMap_toList]
    exact List.flatMap_of_forall₂ hall fun x part h ↦ h.1
  · rw [links_foldl]
    exact List.flatMap_of_forall₂ hall fun x part h ↦ h.2.1

theorem columnOf_settable (hs : s.WellFormed) (he : e ∈ s.entities) {x : String × InputValue}
    (hid : x.1 ≠ idName) {y : String × Cell} (hy : e.columnOf slots x = some y) : Settable y := by
  unfold Entity.columnOf at hy
  split at hy
  · obtain ⟨f, hfield, rfl⟩ := Option.map_eq_some_iff.mp hy
    exact settable_field hs he hid hfield _
  · split at hy
    · next hparent =>
      obtain ⟨id, -, rfl⟩ := Option.map_eq_some_iff.mp hy
      rw [hparent]
      exact settable_parent id
    · cases hy
  · cases hy

theorem columns_settable (hs : s.WellFormed) (he : e ∈ s.entities) (hsets : e.Sets inputs) :
    ∀ x ∈ inputs.filterMap (e.columnOf slots), Settable x := by
  intro y hy
  obtain ⟨x, hx, hxy⟩ := List.mem_filterMap.mp hy
  exact columnOf_settable hs he (hsets.input x hx) hxy

/-- A reference that has a number keeps it. -/
theorem id?_assign {ref row : RowRef} (hnew : slots.id? ref = none) {n : Int64}
    (hrow : slots.id? row = some n) :
    (slots.assign ref id).id? row = some n := by
  cases ref with
  | known k => cases hnew
  | pending slot =>
    cases row with
    | known k => exact hrow
    | pending other =>
      have hne : other ≠ slot := by
        rintro rfl
        rw [hnew] at hrow
        cases hrow
      change List.lookup other ((slot, id) :: slots.assigned) = some n
      rw [List.lookup_cons, beq_eq_false_iff_ne.mpr hne]
      exact hrow

theorem id?_assign_self {ref : RowRef} (hnew : slots.id? ref = none) :
    (slots.assign ref id).id? ref = some id := by
  cases ref with
  | known k => cases hnew
  | pending slot =>
    change List.lookup slot ((slot, id) :: slots.assigned) = some id
    rw [List.lookup_cons, beq_self_eq_true]

theorem linkedTo_inputs_none {relation : String} (h : ¬e.links relation) :
    linkedTo slots (inputs.flatMap (linksOf e)) relation = [] := by
  induction inputs with
  | nil => rfl
  | cons x inputs ih =>
    rw [List.flatMap_cons, linkedTo_append, ih, List.append_nil]
    by_cases hname : x.1 = relation
    · unfold linksOf
      rw [hname, if_neg h]
      rfl
    · exact linkedTo_linksOf_other hname

theorem insertRow_shows (hs : s.WellFormed) (he : e ∈ s.entities)
    (hsets : e.Sets inputs) {store : Store} (h : store.Shows s c top) {effect : Effect}
    (hassigned : ∀ x ∈ inputs, x.1 = parentName → ∀ r ∈ x.2.rows, (slots.id? r).isSome)
    (hrun : store.run (.insert e.name (inputs.filterMap (e.columnOf slots))) = .ok effect) :
    top e.name < effect.row ∧ effect.store.Shows s (c.putRow e.name effect.row
      (some ⟨fun name ↦ (e.given inputs name).getD .null, slots.owner? inputs⟩))
        fun d ↦ if d = e.name then effect.row else top d := by
  have hplain : Statement.Plain (.insert e.name (inputs.filterMap (e.columnOf slots))) :=
    columns_settable hs he hsets
  obtain ⟨t, ht, -, hless, hcontent, htop⟩ := Store.run_insert_row hs h.shaped he hplain hrun
  obtain ⟨hshapes, -⟩ := h.shaped.of_table? (Schema.entityTable_mem he) ht
  have hdistinct := hshapes.columns_eq ▸ h.shaped.columns _ (Schema.entityTable_mem he)
  rw [h.content, entry_newRow hs he hsets hshapes hdistinct hassigned] at hcontent
  refine ⟨h.top e he ▸ hless, h.shaped.run hplain hrun, hcontent, fun d hd ↦ ?_⟩
  rw [htop d hd]
  split
  · rfl
  · exact h.top d hd

/-- Assigning a number to a new row changes no owner. -/
theorem owner?_assign {ref : RowRef} (hnew : slots.id? ref = none)
    (hassigned : ∀ x ∈ inputs, x.1 = parentName → ∀ r ∈ x.2.rows, (slots.id? r).isSome) :
    (slots.assign ref id).owner? inputs = slots.owner? inputs := by
  unfold Slots.owner?
  split
  · next r hlookup =>
    obtain ⟨n, hn⟩ := Option.isSome_iff_exists.mp
      (hassigned _ (mem_of_lookup hlookup) rfl r List.mem_cons_self)
    rw [hn, id?_assign hnew hn]
  · rfl

/-- The row and the links of a create, put in one after the other. -/
theorem withLinks_created (hs : s.WellFormed) (he : e ∈ s.entities) (hcreates : e.Creates inputs)
    (hlinks : ∀ r, c.links e.name r id = []) : withLinks (c.putRow e.name id
      (some ⟨fun name ↦ (e.given inputs name).getD .null, slots.owner? inputs⟩)) e.name id slots
        (inputs.flatMap (linksOf e)) = c.create e inputs slots id := by
  ext1
  · rfl
  · funext d r o
    unfold withLinks Content.create
    dsimp only
    by_cases hd : d = e.name ∧ o = id
    · obtain ⟨rfl, rfl⟩ := hd
      rw [if_pos ⟨rfl, rfl⟩, Content.putRow_links, hlinks, List.nil_append]
      by_cases hr : e.links r
      · rw [if_pos ⟨rfl, rfl, hr⟩, linkedTo_inputs hcreates.once hr fun v hv ↦ ?_]
        obtain ⟨-, p, hp, hname, hinput⟩ := hcreates.property _ hv
        obtain ⟨q, hq, hqname, hqlinked⟩ := (Entity.links_eq_true_iff (hs.entity e he)).mp hr
        obtain rfl := (hs.entity e he).indexed.eq_of_name_eq hp hq (hname.trans hqname.symm)
        cases v with
        | value v =>
          obtain ⟨f, hkind, -⟩ := hinput
          simp [Property.isLinked, Property.relation?, hkind] at hqlinked
        | ref row => exact .inl ⟨row, rfl⟩
        | refs rs => exact .inr ⟨rs, rfl⟩
        | link op row => exact hinput.elim
        | links ls => exact hinput.elim
      · rw [if_neg fun h ↦ hr h.2.2, linkedTo_inputs_none hr]
    · rw [if_neg hd, if_neg fun h ↦ hd ⟨h.1, h.2.1⟩, Content.putRow_links]

/-- A create that succeeds adds its row, assigns the row's number to the reference, which had none,
and adds the links. -/
theorem create_cases (hs : s.WellFormed) (he : e ∈ s.entities)
    (hcreates : e.Creates inputs) {ref : RowRef}
    (hrun : (create e ref inputs).run t = (.ok (), t')) :
    (∀ x ∈ inputs, x.1 = parentName → ∀ r ∈ x.2.rows, (t.slots.id? r).isSome) ∧
      t.slots.id? ref = none ∧
        ∃ effect log, t.store.run (.insert e.name (inputs.filterMap (e.columnOf t.slots))) =
          .ok effect ∧
        ((inputs.flatMap (linksOf e)).forM fun (relation, target) ↦ do
          let target ← Run.rowOf target (.related ⟨e.name, relation⟩)
          addLink e.name relation effect.row target).run ⟨effect.store,
              t.slots.assign ref effect.row, log⟩ =
            (.ok (), t') := by
  unfold create at hrun
  obtain ⟨parts, u, hparts, hrest⟩ := Run.run_bind_ok.mp hrun
  clear hrun
  dsimp only at hrest
  obtain ⟨rfl, hcolumns, hlinked, hparent⟩ := insertion_ok hs he hcreates hparts
  rw [hcolumns, hlinked] at hrest
  obtain ⟨effect, u₁, hstatement, hafter⟩ := Run.run_bind_ok.mp hrest
  obtain ⟨hstore, hu₁, hslots₁⟩ := Run.run_statement_ok hstatement
  obtain ⟨⟨⟩, u₂, hsingle, hafter₂⟩ := Run.run_bind_ok.mp hafter
  obtain ⟨-, rfl⟩ := Run.run_single_ok hsingle
  obtain ⟨u₃, u₄, hget, hafter₃⟩ := Run.run_bind_ok.mp hafter₂
  obtain ⟨rfl, rfl⟩ := Run.run_get_ok hget
  split at hafter₃
  · obtain ⟨_, _, hthrow, _⟩ := Run.run_bind_ok.mp hafter₃
    exact absurd hthrow Run.run_throw_ne_ok
  · next hnone =>
    obtain ⟨⟨⟩, u₅, hmodify, hloop⟩ := Run.run_bind_ok.mp hafter₃
    obtain rfl := Run.run_modify_ok hmodify
    rw [hu₁, hslots₁] at hloop
    rw [hslots₁] at hnone
    exact ⟨hparent, Option.eq_none_iff_forall_ne_some.mpr hnone, effect, _, hstore, hloop⟩

/-- A create makes the step that it means. -/
theorem create_ok (hs : s.WellFormed) (he : e ∈ s.entities)
    (hcreates : e.Creates inputs) {ref : RowRef} (h : t.store.Shows s c top)
    (hlinks : ∀ r o, top e.name < o → c.links e.name r o = [])
    (hrun : (create e ref inputs).run t = (.ok (), t')) : ∃ id, t.slots.id? ref = none ∧
      t'.slots = t.slots.assign ref id ∧ top e.name < id ∧ e.Settled inputs t'.slots ∧
      t'.store.Shows s (c.create e inputs t'.slots id) fun d ↦ if d =
        e.name then id else top d := by
  obtain ⟨hparent, hnew, effect, log, hstore, hloop⟩ := create_cases hs he hcreates hrun
  obtain ⟨hless, hshows⟩ := insertRow_shows hs he (hcreates.sets hs he) h hparent hstore
  have hlinksOf : ∀ x ∈ inputs.flatMap (linksOf e), e.links x.1 := by
    intro x hx
    obtain ⟨y, -, hy⟩ := List.mem_flatMap.mp hx
    unfold linksOf at hy
    split at hy
    · next hlink =>
      obtain ⟨r, -, rfl⟩ := List.mem_map.mp hy
      exact hlink
    · cases hy
  obtain ⟨hslots, hassigned, hfinal⟩ := addLinks_ok hs he hlinksOf hshows hloop
  replace hslots : t'.slots = t.slots.assign ref effect.row := hslots
  have howner : (t.slots.assign ref effect.row).owner? inputs = t.slots.owner? inputs :=
    owner?_assign hnew hparent
  rw [← howner, withLinks_created hs he hcreates fun r ↦ hlinks r _ hless, ← hslots] at hfinal
  refine ⟨effect.row, hnew, hslots, hless, fun x hx hor r hr ↦ ?_, hfinal⟩
  rw [hslots]
  rcases hor with hname | hlink
  · obtain ⟨n, hn⟩ := Option.isSome_iff_exists.mp (hparent x hx hname r hr)
    rw [id?_assign hnew hn]
    rfl
  · refine hassigned (x.1, r) (List.mem_flatMap.mpr ⟨x, hx, ?_⟩)
    unfold linksOf
    rw [if_pos hlink]
    exact List.mem_map_of_mem hr

/-! ### Updates -/

section

variable {before : List Int64} {links : List (Language.LinkOp × RowRef)} {row : RowRef}

theorem changed_concat (op op' : Language.LinkOp) (h : slots.id? row = some target) :
    InputValue.changed slots op (links ++ [(op', row)]) =
      InputValue.changed slots op links ++ if op' = op then [target] else [] := by
  by_cases hop : op' = op <;> simp [InputValue.changed, hop, h]

theorem relinked_add (h : slots.id? row = some target) :
    (InputValue.links (links ++ [(.add, row)])).relinked slots before =
      (InputValue.links links).relinked slots before ++ [target] := by
  unfold InputValue.relinked
  simp only [changed_concat _ _ h, reduceCtorEq, if_false, if_true,
    List.append_nil, List.append_assoc]

theorem relinked_del (hlinks : ∀ x ∈ links, x.1 = .del) (h : slots.id? row = some target) :
    (InputValue.links (links ++ [(.del, row)])).relinked slots before =
      ((InputValue.links links).relinked slots before).filter (· != target) := by
  have hadd : InputValue.changed slots .add links = [] := by
    unfold InputValue.changed
    rw [List.filter_eq_nil_iff.mpr fun x hx ↦ ?_]
    · rfl
    · rw [hlinks x hx]
      decide
  unfold InputValue.relinked
  simp only [changed_concat _ _ h, hadd, reduceCtorEq, if_false, if_true,
    List.append_nil, List.filter_filter]
  refine List.filter_congr fun n _ ↦ ?_
  rw [Bool.eq_iff_iff]
  simp [not_or, and_comm]

end

/-- The content with the links of a row changed as inputs say. -/
def relink (c : Content) (e : Entity) (inputs : Inputs) (slots : Slots) (id : Int64) : Content :=
  { c with links := (c.update e inputs slots id).links }

@[simp] theorem relink_nil : relink c e [] slots id = c := by
  ext1
  · rfl
  · funext d r o
    exact ite_self _

/-- The links of relations are changed one relation after the other. -/
theorem relink_concat {name : String} {v : InputValue} (hnew : name ∉ inputs.map Prod.fst) :
    relink c e (inputs ++ [(name, v)]) slots id = if e.links name then
      (relink c e inputs slots id).putLinks e.name name id
        (v.relinked slots ((relink c e inputs slots id).links e.name name id))
      else relink c e inputs slots id := by
  have hnone : inputs.lookup name = none := by
    refine List.lookup_eq_none_iff.mpr fun x hx ↦ bne_iff_ne.mpr ?_
    rintro rfl
    exact hnew (List.mem_map_of_mem hx)
  have hself : (relink c e inputs slots id).links e.name name id = c.links e.name name id := by
    unfold relink Content.update
    simp [hnone]
  have hother {r : String} (hr : r ≠ name) :
      (inputs ++ [(name, v)]).lookup r = inputs.lookup r := by
    rw [List.lookup_append, List.lookup_cons, beq_eq_false_iff_ne.mpr hr]
    exact Option.or_none
  rw [hself]
  ext1
  · split <;> rfl
  · funext d r o
    split
    · next hlinks =>
      rw [Content.putLinks_links]
      by_cases hr : r = name
      · subst hr
        by_cases hd : d = e.name ∧ o = id
        · obtain ⟨rfl, rfl⟩ := hd
          simp [relink, Content.update, hlinks, List.lookup_append, hnone]
        · rw [if_neg fun h ↦ hd ⟨h.1, h.2.2⟩]
          unfold relink Content.update
          dsimp only
          rw [if_neg fun h ↦ hd ⟨h.1, h.2.1⟩, if_neg fun h ↦ hd ⟨h.1, h.2.1⟩]
      · rw [if_neg fun h ↦ hr h.2.1]
        unfold relink Content.update
        dsimp only
        rw [hother hr]
    · next hlinks =>
      unfold relink Content.update
      dsimp only
      by_cases hr : r = name
      · rw [hr, if_neg fun h ↦ hlinks h.2.2, if_neg fun h ↦ hlinks h.2.2]
      · rw [hother hr]

/-- The links of a row have been changed as an input says, of which all rows have numbers. -/
structure Relinks (s : Schema) (c : Content) (top : String → Int64) (e : Entity)
    (p : Property) (owner : Int64) (v : InputValue) (t t' : Session) : Prop where
  slots : t'.slots = t.slots
  settled : ∀ r ∈ v.rows, (t.slots.id? r).isSome
  shows : t'.store.Shows s
    (c.putLinks e.name p.name owner (v.relinked t.slots (c.links e.name p.name owner))) top

section

variable (hs : s.WellFormed) (he : e ∈ s.entities) (hp : p ∈ e.properties) (hlinked : p.isLinked)

include hs he hp hlinked

/-- Links are added, or removed, one after the other. -/
theorem changeLinks_all_ok (op : Language.LinkOp) {ls : List (Language.LinkOp × RowRef)}
    (hsame : ∀ l ∈ ls, l.1 = op) (h : t.store.Shows s c top)
    (hrun : (changeLinks e.name p.name owner (.links ls)).run t = (.ok (), t')) :
    Relinks s c top e p owner (.links ls) t t' := by
  refine Run.run_forM_ok (P := fun done u ↦ Relinks s c top e p owner (.links done) t u)
    hrun ⟨rfl, nofun, ?_⟩ ?_
  · have hnil : (InputValue.links []).relinked t.slots (c.links e.name p.name owner) =
        c.links e.name p.name owner := by
      simp [InputValue.relinked, InputValue.changed]
    rwa [hnil, Content.putLinks_self]
  · rintro before ⟨op', row⟩ after u u' hsplit ⟨hslots, hsettled, hshows⟩ hstep
    obtain ⟨target, u₁, hrow, hchange⟩ := Run.run_bind_ok.mp hstep
    obtain ⟨htarget, rfl⟩ := Run.run_rowOf_ok hrow
    rw [hslots] at htarget
    obtain rfl : op' = op := hsame (op', row) (by simp [hsplit])
    have hsettled' : ∀ r ∈ (InputValue.links (before ++ [(op', row)])).rows,
        (t.slots.id? r).isSome := by
      have hrows : (InputValue.links (before ++ [(op', row)])).rows =
          (InputValue.links before).rows ++ [row] :=
        List.map_append
      rw [hrows, List.forall_mem_append, List.forall_mem_singleton, htarget]
      exact ⟨hsettled, rfl⟩
    cases op' with
    | add =>
      obtain ⟨hslots', hshows'⟩ := addLink_ok hs he hp hlinked hshows hchange
      refine ⟨hslots'.trans hslots, hsettled', ?_⟩
      rw [relinked_add htarget]
      simpa using hshows'
    | del =>
      obtain ⟨hslots', hshows'⟩ := removeLink_ok hs he hp hlinked hshows hchange
      refine ⟨hslots'.trans hslots, hsettled', ?_⟩
      rw [relinked_del (fun l hl ↦ hsame l (by simp [hsplit, hl])) htarget]
      simpa using hshows'

/-- A reference is replaced, or taken away. -/
theorem changeLinks_one_ok {op : Language.LinkOp} {r : RowRef} (h : t.store.Shows s c top)
    (hrun : (changeLinks e.name p.name owner (.link op r)).run t = (.ok (), t')) :
    Relinks s c top e p owner (.link op r) t t' := by
  cases op with
  | add =>
    obtain ⟨target, u, hrow, hrest⟩ := Run.run_bind_ok.mp hrun
    obtain ⟨htarget, rfl⟩ := Run.run_rowOf_ok hrow
    obtain ⟨⟨⟩, u₁, hremove, hadd⟩ := Run.run_bind_ok.mp hrest
    obtain ⟨hslots₁, hshows₁⟩ := removeLinks_ok hs he hp hlinked h hremove
    obtain ⟨hslots₂, hshows₂⟩ := addLink_ok hs he hp hlinked hshows₁ hadd
    refine ⟨hslots₂.trans hslots₁, List.forall_mem_singleton.mpr (Option.isSome_of_eq_some htarget),
      ?_⟩
    simpa [InputValue.relinked, htarget] using hshows₂
  | del =>
    obtain ⟨target, u, hrow, hremove⟩ := Run.run_bind_ok.mp hrun
    obtain ⟨htarget, rfl⟩ := Run.run_rowOf_ok hrow
    obtain ⟨hslots, hshows⟩ := removeLink_ok hs he hp hlinked h hremove
    refine ⟨hslots, List.forall_mem_singleton.mpr (Option.isSome_of_eq_some htarget), ?_⟩
    have hremoved : (InputValue.link .del r).relinked u.slots (c.links e.name p.name owner) =
        (c.links e.name p.name owner).filter (· != target) := by
      refine List.filter_congr fun n _ ↦ ?_
      rw [Bool.eq_iff_iff]
      simp [htarget]
    rwa [hremoved]

end

/-- What an input of a compiled update does to links. -/
theorem changeLinks_ok (hs : s.WellFormed) (he : e ∈ s.entities)
    (hp : p ∈ e.properties) {v : InputValue} (hupdates : p.Updates v) (h : t.store.Shows s c top)
    (hrun : (changeLinks e.name p.name owner v).run t = (.ok (), t')) : t'.slots = t.slots ∧
      (e.links p.name → ∀ r ∈ v.rows, (t.slots.id? r).isSome) ∧
      t'.store.Shows s (if e.links p.name then
        c.putLinks e.name p.name owner (v.relinked t.slots (c.links e.name p.name owner))
        else c) top := by
  rw [links_eq_isLinked (hs.entity e he) hp]
  have hrelinks (hlinked : p.isLinked) (hrelinks : Relinks s c top e p owner v t t') :
      t'.slots = t.slots ∧ (p.isLinked → ∀ r ∈ v.rows, (t.slots.id? r).isSome) ∧
      t'.store.Shows s (if p.isLinked then
        c.putLinks e.name p.name owner (v.relinked t.slots (c.links e.name p.name owner))
        else c) top := by
    rw [if_pos hlinked]
    exact ⟨hrelinks.slots, fun _ ↦ hrelinks.settled, hrelinks.shows⟩
  cases v with
  | value v =>
    obtain ⟨-, rfl⟩ := Run.run_pure_ok.mp hrun
    obtain ⟨f, hkind, -⟩ := hupdates
    have hnot : p.isLinked = false := by simp [Property.isLinked, Property.relation?, hkind]
    simpa [hnot] using h
  | ref r =>
    obtain ⟨-, rfl⟩ := Run.run_pure_ok.mp hrun
    have hparent : p.isParent := hupdates
    have hnot : p.isLinked = false := by simp [Property.isLinked, hparent]
    simpa [hnot] using h
  | refs rs =>
    obtain ⟨rfl, hlinked, -⟩ := hupdates
    obtain ⟨hslots, hshows⟩ := removeLinks_ok hs he hp hlinked h hrun
    exact hrelinks hlinked ⟨hslots, List.forall_mem_nil _, hshows⟩
  | link op r => exact hrelinks hupdates.1 (changeLinks_one_ok hs he hp hupdates.1 h hrun)
  | links ls =>
    obtain ⟨hlinked, -, op, rs, rfl⟩ := hupdates
    exact hrelinks hlinked (changeLinks_all_ok hs he hp hlinked op (by simp) h hrun)

/-- What an input of an update sets: the column of a field or of the owner. A change of links sets
none. -/
inductive Assigns (p : Property) : InputValue → Run (List (String × Cell)) → Prop where
  | field {f : Field} {v : Value} (hkind : p.kind = .field f) (hholds : f.type.Holds v) :
    Assigns p (.value v) (pure [(p.name, (f.type.column v).cell)])
  | parent {q : Reference} {r : RowRef} (hkind : p.kind = .reference q)
    (hparent : p.name = parentName) :
    Assigns p (.ref r) (Run.rowOf r .parent >>= fun id ↦ pure [(parentName, .integer id)])
  | links {v : InputValue} (hvalue : v.isValue = false) (hlinked : p.isLinked) :
      Assigns p v (pure [])

/-- An input of an update is of the kind of its property. -/
theorem assigned_assigns (hs : s.WellFormed) (he : e ∈ s.entities)
    (hp : p ∈ e.properties) {v : InputValue} (hv : p.Updates v) :
    Assigns p v (assigned e p.name v) := by
  unfold assigned
  cases v with
  | value v =>
    obtain ⟨f, hkind, hholds⟩ := hv
    rw [(Entity.get?_eq_some_iff (hs.entity e he)).mpr ⟨hp, rfl⟩, Option.bind_some,
      Property.field?_eq_some_iff.mpr hkind]
    exact .field hkind hholds
  | ref r =>
    obtain ⟨q, hkind⟩ := Update.isParent_reference hs he hp hv
    have hparent : p.name = parentName := Property.isParent_iff.mp hv
    dsimp only
    rw [if_pos hparent]
    exact .parent hkind hparent
  | refs rs => exact .links rfl hv.2.1
  | link op r => exact .links rfl hv.1
  | links ls => exact .links rfl hv.1

/-- What an input of a compiled update sets. -/
theorem assigned_ok (hs : s.WellFormed) (he : e ∈ s.entities) (hupdates : e.Updates inputs)
    {x : String × InputValue} (hx : x ∈ inputs) {sets : List (String × Cell)}
    (hrun : (assigned e x.1 x.2).run t = (.ok sets, t')) : t' = t ∧
      sets = (e.columnOf t.slots x).toList ∧
      (x.1 = parentName → ∀ r ∈ x.2.rows, (t.slots.id? r).isSome) := by
  obtain ⟨-, p, hp, hname, hinput⟩ := hupdates.property x hx
  obtain ⟨name, v⟩ := x
  obtain rfl : p.name = name := hname
  have hassigns := assigned_assigns hs he hp hinput
  dsimp only at hrun
  generalize assigned e p.name v = action at hassigns hrun
  cases hassigns with
  | @field f v hkind =>
    obtain ⟨rfl, rfl⟩ := Run.run_pure_ok.mp hrun
    refine ⟨rfl, ?_, fun _ _ h ↦ absurd h List.not_mem_nil⟩
    simp [Entity.columnOf, (Entity.get?_eq_some_iff (hs.entity e he)).mpr ⟨hp, rfl⟩,
      Property.field?, hkind]
  | @parent q r hkind hparent =>
    obtain ⟨id, u, hrow, hpure⟩ := Run.run_bind_ok.mp hrun
    obtain ⟨hid, rfl⟩ := Run.run_rowOf_ok hrow
    obtain ⟨rfl, rfl⟩ := Run.run_pure_ok.mp hpure
    refine ⟨rfl, ?_, fun _ r' hr' ↦ ?_⟩
    · simp [Entity.columnOf, hparent, hid]
    · rw [List.mem_singleton.mp hr', hid]
      rfl
  | links hvalue hlinked =>
    obtain ⟨rfl, rfl⟩ := Run.run_pure_ok.mp hrun
    have hparent := Property.name_ne_of_isLinked hlinked
    refine ⟨rfl, ?_, fun h ↦ absurd h hparent⟩
    rw [columnOf_eq_none hvalue hparent]
    rfl

/-- The links of an updated row change as the inputs say. -/
theorem changeLinks_inputs_ok (hs : s.WellFormed) (he : e ∈ s.entities)
    (hupdates : e.Updates inputs) (h : t.store.Shows s c top)
    (hrun : (inputs.forM fun (name, v) ↦ changeLinks e.name name id v).run t = (.ok (), t')) :
      t'.slots = t.slots ∧ (∀ x ∈ inputs, e.links x.1 → ∀ r ∈ x.2.rows, (t.slots.id? r).isSome) ∧
      t'.store.Shows s (relink c e inputs t.slots id) top := by
  refine Run.run_forM_ok (P := fun done u ↦ u.slots = t.slots ∧
    (∀ x ∈ done, e.links x.1 → ∀ r ∈ x.2.rows, (t.slots.id? r).isSome) ∧
    u.store.Shows s (relink c e done t.slots id) top) hrun ⟨rfl, nofun, by rwa [relink_nil]⟩ ?_
  rintro before ⟨name, v⟩ after u u' hsplit ⟨hslots, hassigned, hshows⟩ hstep
  have honce := hupdates.once
  obtain ⟨-, p, hp, hname, hinput⟩ := hupdates.property (name, v) (by simp [hsplit])
  obtain rfl : p.name = name := hname
  obtain ⟨hslots', hrows, hshows'⟩ := changeLinks_ok hs he hp hinput hshows hstep
  rw [hslots] at hslots' hrows hshows'
  refine ⟨hslots', fun x hx ↦ ?_, ?_⟩
  · rcases List.mem_append.mp hx with hx | hx
    · exact hassigned x hx
    · rw [List.mem_singleton.mp hx]
      exact hrows
  · rwa [relink_concat]
    rw [hsplit, List.map_append, List.map_cons] at honce
    exact fun hmem ↦ (List.nodup_append.mp honce).2.2 _ hmem _ List.mem_cons_self rfl

/-- A row changed as the inputs say, and then its links, is the row of an update. -/
theorem relink_putRow {x : Entry} (hrow : c.row e.name id = some x) :
    relink (c.putRow e.name id (some ⟨fun name ↦ (e.given inputs name).getD (x.value name),
      (slots.owner? inputs).or x.parent⟩)) e inputs slots id = c.update e inputs slots id := by
  ext1
  · funext d n
    unfold relink Content.update
    dsimp only
    rw [Content.putRow_row]
    split
    · next hsame =>
      obtain ⟨rfl, rfl⟩ := hsame
      rw [hrow]
      rfl
    · rfl
  · rfl

/-- An update makes the step that it means. -/
theorem update_ok (hs : s.WellFormed) (he : e ∈ s.entities)
    (hupdates : e.Updates inputs) {ref : RowRef} (h : t.store.Shows s c top)
    (hrun : (update e ref inputs).run t = (.ok (), t')) : ∃ id,
      t.slots.id? ref = some id ∧ t'.slots = t.slots ∧ (c.row e.name id).isSome ∧
      e.Settled inputs t.slots ∧ t'.store.Shows s (c.update e inputs t.slots id) top := by
  obtain ⟨id, u, hrow, hrest⟩ := Run.run_bind_ok.mp hrun
  obtain ⟨hid, rfl⟩ := Run.run_rowOf_ok hrow
  obtain ⟨sets, u₁, hsets, hrest₁⟩ := Run.run_bind_ok.mp hrest
  obtain ⟨rfl, hall⟩ :=
    Run.run_mapM_ok hsets fun x part u₁ hx hstep ↦ assigned_ok hs he hupdates hx hstep
  have hcolumns : sets.flatten = inputs.filterMap (e.columnOf u₁.slots) := by
    rw [List.filterMap_eq_flatMap_toList, ← List.flatMap_id]
    exact List.flatMap_of_forall₂ hall fun x part h ↦ h.1
  have hparent := List.forall_of_forall₂ hall fun x part h ↦ h.2
  rw [hcolumns] at hrest₁
  obtain ⟨effect, u₂, hstatement, hrest₂⟩ := Run.run_bind_ok.mp hrest₁
  obtain ⟨hstore, hu₂, hslots₂⟩ := Run.run_statement_ok hstatement
  obtain ⟨⟨⟩, u₃, hsingle, hloop⟩ := Run.run_bind_ok.mp hrest₂
  obtain ⟨hone, rfl⟩ := Run.run_single_ok hsingle
  have hplain : Statement.Plain (.update e.name (inputs.filterMap (e.columnOf u₁.slots)) id) :=
    columns_settable hs he (hupdates.sets hs he)
  obtain ⟨table, old, ht, hold, -, hcontent, htop⟩ :=
    Store.run_update_row hs h.shaped he hplain hstore hone
  obtain ⟨hshapes, hkeyed⟩ := h.shaped.of_table? (Schema.entityTable_mem he) ht
  have hdistinct := hshapes.columns_eq ▸ h.shaped.columns _ (Schema.entityTable_mem he)
  have hknown := hkeyed.known old (Table.row?_eq_some hold).1
  have hrow : c.row e.name id = some old.entry := by
    rw [← h.content, Store.content_row hs he ht, hold]
    rfl
  rw [entry_changedRow hs he (hupdates.sets hs he) hshapes hdistinct hparent hupdates.once hknown,
      h.content]
    at hcontent
  have hshows := h.run hstore hplain hcontent htop
  obtain ⟨hslots, hlinked, hfinal⟩ := changeLinks_inputs_ok hs he hupdates (hu₂ ▸ hshows) hloop
  rw [hslots₂] at hslots hlinked hfinal
  refine ⟨id, hid, hslots, by
    rw [hrow]; rfl, fun x hx hor ↦ hor.elim (hparent x hx) (hlinked x hx), ?_⟩
  rwa [relink_putRow hrow] at hfinal

/-- A delete makes the step that it means. -/
theorem delete_ok (hs : s.WellFormed) (he : e ∈ s.entities) {ref : RowRef}
    (h : t.store.Shows s c top) (hrun : (delete e ref).run t = (.ok (), t')) :
      ∃ id, t.slots.id? ref = some id ∧ t'.slots = t.slots ∧ (c.row e.name id).isSome ∧
      t'.store.Shows s (c.putRow e.name id none) top := by
  obtain ⟨id, u, hrow, hrest⟩ := Run.run_bind_ok.mp hrun
  obtain ⟨hid, rfl⟩ := Run.run_rowOf_ok hrow
  obtain ⟨effect, u₁, hstatement, hrest₁⟩ := Run.run_bind_ok.mp hrest
  obtain ⟨hstore, hu₁, hslots⟩ := Run.run_statement_ok hstatement
  obtain ⟨hone, rfl⟩ := Run.run_single_ok hrest₁
  obtain ⟨hsome, hcontent, htop⟩ := Store.run_delete_row hs h.shaped he hstore hone
  rw [h.content] at hsome hcontent
  exact ⟨id, hid, hslots, hsome, hu₁ ▸ h.run hstore trivial hcontent htop⟩


end Mapping

end EntityStore
