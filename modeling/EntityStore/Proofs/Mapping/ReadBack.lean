import EntityStore.Proofs.Compile.Asked
import EntityStore.Proofs.Mapping.Branch
import EntityStore.Proofs.Mapping.Created
import EntityStore.Proofs.Query.Wanted
import EntityStore.Proofs.Value.Stored

/-!
A nested create reads back as it was written (`read_created`).
-/

set_option autoImplicit false

namespace EntityStore

open Query (Leads Levels Tree Wanted allFields)

/-! ### What a create says -/

/-- Whether a relation of an entity leads to a list of rows. -/
def Schema.isMany (s : Schema) (entity relation : String) : Bool :=
  (s.get? entity).any fun e ↦ (e.get? relation).any fun p ↦ !p.isSingle

namespace Draft.Place

/-- The value that a create gives a field of a row, null if it gives none. -/
def value (x : Place) (field : String) : Value :=
  match x.inputs.lookup field with
  | some (.value v) => v
  | _ => .null

/-- The rows that a create links a row to. -/
def targets (slots : Slots) (x : Place) (relation : String) : List Int64 :=
  ((x.inputs.lookup relation).map fun v ↦ v.rows.map slots.number).getD []

/-- The declared fields of a row, as their values read back. -/
def fields (s : Schema) (x : Place) : Row :=
  ((s.get? x.entity).map fun e ↦ e.userFields.map
    fun f ↦ (f.1, Data.value (x.value f.1).readBack)).getD []

end Draft.Place

namespace Query.Wanted

section

variable (s : Schema) (slots : Slots)

mutual

/-- What is listed under a relation of a row of a create: the rows that it owns, in the order of its
body and with all that is asked for below them, or the numbers of the rows that it is linked to, in
their order. -/
def shown : Wanted → Draft.Place → Row
  | .owned relation below, x =>
    Row.entry relation (s.isMany x.entity relation) ((x.listed s slots relation).map fun y ↦
      (idName, .value (.long (y.number slots))) :: y.fields s ++ shownAll below y)
  | .linked relation, x =>
    Row.entry relation (s.isMany x.entity relation) ((x.targets slots relation).map fun n ↦
      [(idName, .value (.long n))])

def shownAll : List Wanted → Draft.Place → Row
  | [], _ => []
  | w :: ws, x => w.shown x ++ shownAll ws x

end

end

end Query.Wanted

/-- A row of a create with all that is asked for below it. -/
def Draft.Place.shown (s : Schema) (slots : Slots) (wanted : List Wanted) (x : Place) : Row :=
  (idName, .value (.long (x.number slots))) :: x.fields s ++ Wanted.shownAll s slots wanted x

/-! ### What is read of it -/

/-- The rows of a create stand in a store, with values that can be read. -/
structure Draft.Place.Written (s : Schema) (store : Store) (slots : Slots) (x : Place) : Prop where
  models : store.Models s
  shaped : store.Shaped s
  closed : (store.content s).Closed s
  created : x.Created s (store.content s) slots
  creates : ∀ y ∈ x.places, ∀ e, y.Fits s e → e.Creates y.inputs
  exact : ∀ y ∈ x.places, ∀ name v, (name, .value v) ∈ y.inputs → v.Exact ∧ v.nesting < 128

/-- No table of a schema takes the place of the function that lists the owners of a scope. -/
def Schema.ListsScopes (s : Schema) : Prop :=
  ∀ spec ∈ s.tables, sameName spec.name listingName = false

instance (s : Schema) : Decidable s.ListsScopes :=
  inferInstanceAs (Decidable (∀ spec ∈ s.tables, _))

theorem Store.Shaped.listsScopes {s : Schema} {store : Store} (h : store.Shaped s)
    (hlists : s.ListsScopes) : store.ListsScopes := by
  refine List.find?_eq_none.mpr fun t ht hsame ↦ ?_
  obtain ⟨spec, hspec, hshapes⟩ := List.forall₂_exists_right h.tables t ht
  rw [hshapes.name_eq, hlists spec hspec] at hsame
  cases hsame

namespace Mapping

variable {s : Schema} {store : Store} {bindings : Query.Bindings} {slots : Slots}
  {e d : Entity} {p : Property} {x y : Draft.Place} {a : Record} {wanted : List Wanted}
  {relations : List (Query.Relation × Tree)} {root : Tree} {notes : List Query.Note}

section

variable (hs : s.WellFormed) (h : x.Written s store slots) (hy : y ∈ x.places) (hfits : y.Fits s e)

include hs h hy hfits

/-- A row of a create has a record. -/
theorem exists_record : ∃ a ∈ store.records e.name, a.row.id = y.number slots := by
  obtain ⟨d, hd, hplaced⟩ := h.created.placed y hy
  obtain rfl := hs.eq_of_name_eq hd.mem hfits.mem (hd.name.trans hfits.name.symm)
  obtain ⟨a, ha, hid, -⟩ := (h.shaped.row_iff hs hd.mem).mp hplaced.row
  exact ⟨a, ha, hid⟩

/-- The fields of a record hold the values that the create gives them. -/
theorem cell_eq (ha : a ∈ store.records e.name) (hid : a.row.id = y.number slots)
    (hp : p ∈ e.properties) {f : Field} (hkind : p.kind = .field f) (hname : p.name ≠ idName) :
    a.cell p.name = f.type.cell (y.value p.name) := by
  obtain ⟨e', hd, hplaced⟩ := h.created.placed y hy
  obtain rfl := hs.eq_of_name_eq hd.mem hfits.mem (hd.name.trans hfits.name.symm)
  obtain ⟨a', ha', hid', hentry⟩ := (h.shaped.row_iff hs hd.mem).mp hplaced.row
  obtain rfl := h.models.keyed.record_ext ha ha' (hid.trans hid'.symm)
  have hcell : a.row.entry.value p.name = (e'.given y.inputs p.name).getD .null :=
    congrFun (congrArg Entry.value hentry) p.name
  refine (h.shaped.field_cell hs hd.mem hp hkind hname ha).trans (hcell.trans ?_)
  have hget : (e'.get? p.name).bind Property.field? = some f := by
    rw [(Entity.get?_eq_some_iff (hs.entity e' hd.mem)).mpr ⟨hp, rfl⟩]
    exact Property.field?_eq_some_iff.mpr hkind
  have hnull : Cell.null = f.type.cell .null := by
    cases f.type <;> rfl
  unfold Entity.given Draft.Place.value
  rw [hget]
  cases hlookup : y.inputs.lookup p.name with
  | none => exact hnull
  | some v =>
    cases v with
    | value v => rfl
    | _ => exact hnull

/-- The fields of a record read as what the values that the create gives them read back as. -/
theorem readFields_eq (ha : a ∈ store.records e.name) (hid : a.row.id = y.number slots)
    {level : Query.Level} (hlevel : level.fields = allFields e) :
    (Plan.ownFields level).mapM (entryOf a) = .ok (y.fields s) := by
  have hget : s.get? y.entity = some e := (Schema.get?_eq_some_iff hs).mpr ⟨hfits.mem, hfits.name⟩
  have hown : Plan.ownFields level = e.userFields.map fun f ↦ ⟨f.1, f.2.type, none⟩ := by
    unfold Plan.ownFields
    rw [hlevel, allFields, List.filter_cons_of_neg (by simp)]
    refine List.filter_eq_self.mpr fun f hf ↦ ?_
    obtain ⟨g, hg, rfl⟩ := List.mem_map.mp hf
    exact (List.mem_filter.mp hg).2
  unfold Draft.Place.fields
  rw [hown, hget]
  refine Except.mapM_eq_ok.mpr (List.forall₂_map_left_iff.mpr (List.forall₂_map_right_iff.mpr ?_))
  refine List.forall₂_same.mpr fun f hf ↦ ?_
  obtain ⟨hfield, hname⟩ := List.mem_filter.mp hf
  obtain ⟨p, hp, hfield⟩ := List.mem_filterMap.mp hfield
  obtain ⟨g, hkind, rfl⟩ := Option.map_eq_some_iff.mp hfield
  have hkind : p.kind = .field g := Property.field?_eq_some_iff.mp hkind
  have hcell := cell_eq hs h hy hfits ha hid hp hkind (by simpa using hname)
  have hvalue : g.type.Holds (y.value p.name) ∧ (y.value p.name).Exact ∧
      (y.value p.name).nesting < 128 := by
    unfold Draft.Place.value
    split
    · next v hlookup =>
      have hmem := mem_of_lookup hlookup
      obtain ⟨-, q, hq, hqname, k, hk, hholds⟩ := (h.creates y hy e hfits).property _ hmem
      obtain rfl := (hs.entity e hfits.mem).indexed.eq_of_name_eq hq hp hqname
      cases hkind.symm.trans hk
      exact ⟨hholds, h.exact y hy _ v hmem⟩
    · exact ⟨.inl rfl, trivial, by decide⟩
  obtain ⟨hholds, hexact, hnesting⟩ := hvalue
  unfold entryOf
  rw [hcell, FieldType.readCell_cell hholds hexact fun _ ↦ Nat.le_of_lt_succ hnesting]
  rfl

end

/-! ### Relations -/

/-- The rows that an input of a create links to have numbers. -/
theorem targets_eq_map {v : InputValue} (hcreates : p.Creates v)
    (hsettled : ∀ r ∈ v.rows, (slots.id? r).isSome) :
    v.targets slots = v.rows.map slots.number := by
  have hnumber {r : RowRef} (hr : r ∈ v.rows) : slots.id? r = some (slots.number r) := by
    obtain ⟨n, hn⟩ := Option.isSome_iff_exists.mp (hsettled r hr)
    rw [hn, Slots.number_eq hn]
  cases v with
  | value v => rfl
  | ref r => exact congrArg Option.toList (hnumber List.mem_cons_self)
  | refs rs =>
    exact (List.filterMap_congr fun r hr ↦ hnumber hr).trans (congrFun List.filterMap_eq_map' rs)
  | link op r => exact hcreates.elim
  | links ls => exact hcreates.elim

section

variable (hs : s.WellFormed) (h : x.Written s store slots) (hy : y ∈ x.places) (hfits : y.Fits s e)
  (hp : p ∈ e.properties)

include hs h hy hfits hp

/-- A row is linked to the rows that the create says, in their order. -/
theorem links_eq (hlinked : p.isLinked) :
    (store.content s).links e.name p.name (y.number slots) = y.targets slots p.name := by
  obtain ⟨e', hd, hplaced⟩ := h.created.placed y hy
  obtain rfl := hs.eq_of_name_eq hd.mem hfits.mem (hd.name.trans hfits.name.symm)
  have hlinks := (Entity.links_eq_true_iff (hs.entity e' hd.mem)).mpr ⟨p, hp, rfl, hlinked⟩
  rw [hplaced.links p.name hlinks]
  unfold Draft.Place.targets
  cases hlookup : y.inputs.lookup p.name with
  | none => rfl
  | some v =>
    have hmem := mem_of_lookup hlookup
    obtain ⟨-, q, -, -, hcreates⟩ := (h.creates y hy e' hfits).property _ hmem
    exact targets_eq_map hcreates (hplaced.settled _ hmem (.inr hlinks))

/-- The owner of a row is the one that the create says. -/
theorem owner_eq (hparent : p.name = parentName) :
    y.targets slots p.name = (slots.owner? y.inputs).toList := by
  obtain ⟨e', hd, hplaced⟩ := h.created.placed y hy
  obtain rfl := hs.eq_of_name_eq hd.mem hfits.mem (hd.name.trans hfits.name.symm)
  unfold Draft.Place.targets Slots.owner?
  rw [hparent]
  cases hlookup : y.inputs.lookup parentName with
  | none => rfl
  | some v =>
    have hmem := mem_of_lookup hlookup
    obtain ⟨-, q, hq, hname, hcreates⟩ := (h.creates y hy e' hfits).property _ hmem
    obtain ⟨r, hr⟩ := Update.isParent_reference hs hd.mem hq (beq_iff_eq.mpr hname)
    have htargets := targets_eq_map hcreates (hplaced.settled _ hmem (.inl rfl))
    cases v with
    | ref r => exact htargets.symm
    | value v =>
      obtain ⟨f, hf, -⟩ := hcreates
      cases hr.symm.trans hf
    | refs rs =>
      obtain ⟨q, hq⟩ := hcreates
      cases hr.symm.trans hq
    | link op r => exact hcreates.elim
    | links ls => exact hcreates.elim

variable (many : Bool) (hd : d ∈ s.entities)

include hd

/-- A linked relation, or the one to the owner, leads to the rows that the create says, which are
there. -/
theorem leads_linked (hrelation : p.relation? = some (d.name, .linked)) :
    (∀ m, (store.content s).Leads e.name ⟨p.name, .linked, many⟩ d.name (y.number slots) m ↔
      m ∈ y.targets slots p.name) ∧ (y.targets slots p.name).Nodup ∧
        ∀ m ∈ y.targets slots p.name, ∃ c ∈ store.records d.name, c.row.id = m := by
  have hrecord {m : Int64} (hrow : ((store.content s).row d.name m).isSome) :
      ∃ c ∈ store.records d.name, c.row.id = m := by
    obtain ⟨x, hx⟩ := Option.isSome_iff_exists.mp hrow
    obtain ⟨c, hc, hid, -⟩ := (h.shaped.row_iff hs hd).mp hx
    exact ⟨c, hc, hid⟩
  by_cases hparent : p.isParent
  · obtain ⟨e', hd', hplaced⟩ := h.created.placed y hy
    obtain rfl := hs.eq_of_name_eq hd'.mem hfits.mem (hd'.name.trans hfits.name.symm)
    have howner := owner_eq hs h hy hfits hp (beq_iff_eq.mp hparent)
    obtain ⟨r, hr⟩ := Update.isParent_reference hs hd'.mem hp hparent
    have htarget : r.target = d.name := by
      rw [Property.relation?, hr] at hrelation
      exact congrArg Prod.fst (Option.some.inj hrelation)
    rw [howner]
    refine ⟨fun m ↦ ?_, Option.toList_nodup _, fun m hm ↦ hrecord ?_⟩
    · rw [Content.leads_parent (r := ⟨p.name, .linked, many⟩) hparent, hplaced.row]
      simp
    · exact htarget ▸ h.closed.owner e' hd'.mem p hp r hr hparent _ _ m hplaced.row
        (Option.mem_toList.mp hm)
  · have hlinked : p.isLinked := Property.isLinked_iff.mpr ⟨⟨d.name, hrelation⟩, hparent⟩
    have hlinks := links_eq hs h hy hfits hp hlinked
    rw [← hlinks]
    exact ⟨fun m ↦ Content.leads_linked hparent rfl, h.shaped.links_nodup hs _ _ _, fun m hm ↦
      hrecord (h.closed.target e hfits.mem p hp d.name .linked hrelation hlinked _ m hm)⟩

/-- An owned relation leads to the rows that the create lists under it, whose numbers ascend. -/
theorem leads_owned (howned : p.relation? = some (d.name, .owned)) :
    (∀ m, (store.content s).Leads e.name ⟨p.name, .owned, many⟩ d.name (y.number slots) m ↔
      m ∈ (y.listed s slots p.name).map (·.number slots)) ∧
        ((y.listed s slots p.name).map (·.number slots)).Pairwise (· < ·) := by
  obtain ⟨hparent, -⟩ := hs.owned_apart hfits.mem hp howned
  refine ⟨fun m ↦ ?_, List.pairwise_map.mpr ?_⟩
  · rw [Content.leads_owned (r := ⟨p.name, .owned, many⟩)
      (fun heq ↦ hparent (beq_iff_eq.mp heq)) rfl, List.mem_map]
    exact h.created.owned y hy e hfits p hp d hd howned m
  have hsub : (y.listed s slots p.name).Sublist x.places :=
    (y.listed_sublist p.name).trans (Draft.Place.places_sublist hy)
  refine (h.created.ascending.sublist hsub).imp_of_mem fun {z w} hz hw hless ↦ hless ?_
  obtain ⟨-, hz⟩ := hfits.of_listed hs hp hd howned hy hz
  obtain ⟨-, hw⟩ := hfits.of_listed hs hp hd howned hy hw
  exact hz.name.symm.trans hw.name

end

/-! ### Rows with what hangs on them -/

/-- Of a row that is linked to the number is read. -/
theorem wholeRow_linked (c : Record) : wholeRow store bindings
    (.node (.plain d [⟨idName, .long, none⟩]) []) c = .ok [(idName, .value (.long c.row.id))] :=
  rfl

/-- A record reads as its row if what hangs on it does. -/
theorem wholeRow_of_related (hs : s.WellFormed) (h : x.Written s store slots) (hy : y ∈ x.places)
    (hfits : y.Fits s e) (ha : a ∈ store.records e.name) (hid : a.row.id = y.number slots)
    {level : Query.Level} (hentity : level.entity = e.name) (hfields : level.fields = allFields e)
    (hrelated : wholeRelated store bindings e.name relations a =
      .ok (Wanted.shownAll s slots wanted y)) :
    wholeRow store bindings (.node level relations) a = .ok (y.shown s slots wanted) := by
  unfold wholeRow
  rw [hentity]
  refine Except.bind_eq_ok.mpr ⟨_, readFields_eq hs h hy hfits ha hid hfields,
    Except.bind_eq_ok.mpr ⟨_, hrelated, ?_⟩⟩
  rw [hid]
  rfl

section

variable (hs : s.WellFormed) (hfits : y.Fits s e) (hp : p ∈ e.properties)

include hs hfits hp

theorem isMany_eq : s.isMany y.entity p.name = !p.isSingle := by
  unfold Schema.isMany
  rw [(Schema.get?_eq_some_iff hs).mpr ⟨hfits.mem, hfits.name⟩, Option.any_some,
    (Entity.get?_eq_some_iff (hs.entity e hfits.mem)).mpr ⟨hp, rfl⟩, Option.any_some]

variable {others : Row} (h : x.Written s store slots) (hy : y ∈ x.places) (hd : d ∈ s.entities)
  (ha : a ∈ store.records e.name) (hid : a.row.id = y.number slots)
  (hrest : wholeRelated store bindings e.name relations a = .ok others)

include h hy hd ha hid hrest

/-- Under an owned relation the rows are read that the create lists there, with what is read below
them. -/
theorem wholeRelated_owned {below : List Wanted} {t : Tree} (ht : t.Everywhere s notes)
    (hbound : ∀ u ∈ t.nodes, u.Bound bindings) (hunsorted : t.Unsorted)
    (hentity : t.level.entity = d.name) (hfilter : t.level.filter = none)
    (howned : p.relation? = some (d.name, .owned))
    (hrows : ∀ z ∈ y.listed s slots p.name, ∃ c ∈ store.records d.name,
    c.row.id = z.number slots ∧ wholeRow store bindings t c = .ok (z.shown s slots below)) :
    wholeRelated store bindings e.name ((⟨p.name, .owned, !p.isSingle⟩, t) :: relations) a =
      .ok ((Wanted.owned p.name below).shown s slots y ++ others) := by
  obtain ⟨hparent, -⟩ := hs.owned_apart hfits.mem hp howned
  obtain ⟨hmem, hascending⟩ := leads_owned hs h hy hfits hp (!p.isSingle) hd howned
  rw [← hid] at hmem
  have hleads := Query.leads_of_relation hp hd howned
  have hlist :=
    hits_owned h.models hs h.shaped hfits.mem hd hleads hentity hfilter ht hbound hunsorted
    (fun heq ↦ hparent (beq_iff_eq.mp heq)) rfl hascending hmem
  unfold Wanted.shown
  rw [isMany_eq hs hfits hp]
  exact wholeRelated_cons h.models hs h.shaped hfits.mem hd hleads hentity hfilter ha
    (fun _ ↦ hlist) hmem (hascending.imp Int64.ne_of_lt) hrows hrest

/-- Under another relation the numbers are read of the rows that the create links the row to. -/
theorem wholeRelated_linked {t : Tree} (ht : t.Everywhere s notes)
    (hbound : ∀ u ∈ t.nodes, u.Bound bindings) (hunsorted : t.Unsorted)
    (hentity : t.level.entity = d.name) (hfilter : t.level.filter = none)
    (hlinked : p.relation? = some (d.name, .linked))
    (hshown : ∀ c, wholeRow store bindings t c = .ok [(idName, .value (.long c.row.id))]) :
    wholeRelated store bindings e.name ((⟨p.name, .linked, !p.isSingle⟩, t) :: relations) a =
      .ok ((Wanted.linked p.name).shown s slots y ++ others) := by
  obtain ⟨hmem, hnodup, hthere⟩ := leads_linked hs h hy hfits hp (!p.isSingle) hd hlinked
  have hleads := Query.leads_of_relation hp hd hlinked
  have hlist : !p.isSingle →
      ((hits store bindings t (some ⟨e.name, ⟨p.name, .linked, !p.isSingle⟩, [a.row.id]⟩)).map
      fun f ↦ f.record.row.id) = y.targets slots p.name := by
    intro hsingle
    have hparent : ¬p.isParent := by
      intro hparent
      obtain ⟨r, hr⟩ := Update.isParent_reference hs hfits.mem hp hparent
      simp [Property.isSingle, hr] at hsingle
    rw [← links_eq hs h hy hfits hp (Property.isLinked_iff.mpr ⟨⟨d.name, hlinked⟩, hparent⟩), hid]
    exact hits_links h.models hs h.shaped hfits.mem hd hleads hentity hfilter ht hbound hunsorted
      hparent rfl h.closed
  have hrows : ∀ m ∈ y.targets slots p.name, ∃ c ∈ store.records d.name, c.row.id = id m ∧
      wholeRow store bindings t c = .ok [(idName, .value (.long m))] := by
    intro m hm
    obtain ⟨c, hc, rfl⟩ := hthere m hm
    exact ⟨c, hc, rfl, hshown c⟩
  unfold Wanted.shown
  rw [isMany_eq hs hfits hp]
  refine wholeRelated_cons h.models hs h.shaped hfits.mem hd hleads hentity hfilter ha
    ?_ ?_ ?_ hrows hrest
  all_goals rw [List.map_id]
  · exact hlist
  · exact hid ▸ hmem
  · exact hnodup

end

/-- What is read below a row of a create is what the create says. -/
theorem wholeRelated_eq (hs : s.WellFormed) (h : x.Written s store slots)
    (hroot : root.Everywhere s notes) (hbound : ∀ u ∈ root.nodes, u.Bound bindings)
    (hunsorted : root.Unsorted) (hlevels : Levels s e wanted relations)
    (hnodes : ∀ z ∈ relations, z.2 ∈ root.nodes) (hy : y ∈ x.places) (hfits : y.Fits s e)
    (ha : a ∈ store.records e.name) (hid : a.row.id = y.number slots) :
    wholeRelated store bindings e.name relations a = .ok (Wanted.shownAll s slots wanted y) := by
  have hbelow {u : Tree} (hu : u ∈ root.nodes) :
      u.Everywhere s notes ∧ (∀ v ∈ u.nodes, v.Bound bindings) ∧ u.Unsorted :=
    ⟨fun v hv ↦ hroot v (Tree.mem_nodes_trans hu hv),
      fun v hv ↦ hbound v (Tree.mem_nodes_trans hu hv),
      fun v hv ↦ hunsorted v (Tree.mem_nodes_trans hu hv)⟩
  induction hlevels generalizing y a with
  | nil => rfl
  | @owned e d p below wanted inner relations hp hd howned _ _ _ ihbelow ihrest =>
    obtain ⟨ht, hothers⟩ := List.forall_mem_cons.mp hnodes
    obtain ⟨heverywhere, htbound, htunsorted⟩ := hbelow ht
    refine wholeRelated_owned hs hfits hp h hy hd ha hid (ihrest hothers hy hfits ha hid)
      heverywhere htbound htunsorted rfl rfl howned fun z hz ↦ ?_
    obtain ⟨hzx, hzd⟩ := hfits.of_listed hs hp hd howned hy hz
    obtain ⟨c, hc, hcid⟩ := exists_record hs h hzx hzd
    have hinner : ∀ w ∈ inner, w.2 ∈ root.nodes := fun w hw ↦
      Tree.mem_nodes_trans ht (Tree.mem_nodes_relation (r := w.1) hw)
    exact ⟨c, hc, hcid, wholeRow_of_related hs h hzx hzd hc hcid rfl rfl
      (ihbelow hinner hzx hzd hc hcid)⟩
  | linked hp hd hlinked _ _ ihrest =>
    obtain ⟨ht, hothers⟩ := List.forall_mem_cons.mp hnodes
    obtain ⟨heverywhere, htbound, htunsorted⟩ := hbelow ht
    exact wholeRelated_linked hs hfits hp h hy hd ha hid (ihrest hothers hy hfits ha hid)
      heverywhere htbound htunsorted rfl rfl hlinked wholeRow_linked

/-! ### The query for a row -/

/-- The filter for a row number is true of the row with this number. -/
theorem passes_ofId (h : store.Models s) (he : e ∈ s.entities)
    (ha : a ∈ store.records e.name) {n : Int64} :
    passes store bindings (some (.ofId n)) a ↔ a.row.id = n := by
  change a.equals idName (.integer n) = true ↔ _
  rw [(h.keyed.record ha).equals_iff (by decide), h.cell_id he ha, Cell.integer.injEq]

/-- The query for a row lists this row alone. -/
theorem hits_ofId (h : store.Models s) (he : e ∈ s.entities) (ha : a ∈ store.records e.name)
    {fields : List Query.SelectedField} :
    hits store bindings (.node ⟨e.name, some (.ofId a.row.id), none, none, fields⟩ relations)
      none = [⟨a, none⟩] := by
  refine List.perm_singleton.mp
    ((List.perm_ext_iff_of_nodup (nodup_hits h.keyed) (List.nodup_singleton _)).mpr fun f ↦ ?_)
  rw [mem_hits h he rfl, List.mem_singleton]
  constructor
  · rintro ⟨hrecord, hreached, hpasses⟩
    have hid := (passes_ofId h he hrecord).mp hpasses
    obtain ⟨b, link⟩ := f
    obtain rfl : link = none := hreached
    exact congrArg (Hit.mk · none) (h.keyed.record_ext hrecord ha hid)
  · rintro rfl
    exact ⟨ha, rfl, (passes_ofId h he ha).mpr rfl⟩

/-- The query for the topmost row of a create answers this row with all that hangs on it. -/
theorem read_written (hs : s.Reachable) (h : x.Written s store slots) (hlists : s.ListsScopes)
    (hfits : x.Fits s e) (hlevels : Levels s e wanted relations) : ∃ q,
      s.compileQuery (Wanted.form x.entity (x.number slots) wanted) = .ok q ∧ q.parameters = [] ∧
        (read store [] q.tree).1 = .ok [x.shown s slots wanted] := by
  obtain ⟨a, ha, hid⟩ := exists_record hs.wellFormed h x.mem_places_self hfits
  obtain ⟨q, hq, hparameters, htree⟩ :=
    Query.compileQuery_form hs.wellFormed hfits.mem hlevels a.row.id
  refine ⟨q, by rwa [← hid, ← hfits.name], hparameters, ?_⟩
  have hnodes : ∀ u ∈ q.tree.nodes, (u.relations.map fun z ↦ z.1.name).Nodup ∧
      u.level.limit = none ∧ ∀ f ∈ u.level.fields, f.sort = none := by
    rw [htree]
    exact List.forall_mem_cons.mpr ⟨⟨hlevels.nodup, rfl, Query.allFields_unsorted e⟩, hlevels.nodes⟩
  have hbind : Query.bind q.parameters slots [] = .ok [] := by
    rw [hparameters]
    rfl
  obtain ⟨-, notes, hroot, -⟩ := Query.compileQuery_sound hs.wellFormed hq
  have hfillable := compileQuery_fillable hs hq (fun u hu ↦ (hnodes u hu).1) hbind
  have hbelow : ∀ z ∈ relations, z.2 ∈ q.tree.nodes := by
    intro z hz
    rw [htree]
    exact Tree.mem_nodes_relation (r := z.1) hz
  have hrelated := wholeRelated_eq hs.wellFormed h hroot hfillable.bound
    (fun u hu ↦ (hnodes u hu).2.2) hlevels hbelow x.mem_places_self hfits ha hid
  have hrow : wholeRow store []
      (.node ⟨e.name, some (.ofId a.row.id), none, none, allFields e⟩ relations) a =
      .ok (x.shown s slots wanted) :=
    wholeRow_of_related hs.wellFormed h x.mem_places_self hfits ha hid rfl rfl hrelated
  have hrows : ((hits store [] q.tree none).mapM fun f ↦ (wholeRow store [] q.tree f.record).map
        (f.owner none, ·)) =
      .ok [(0, x.shown s slots wanted)] := by
    rw [htree, hits_ofId h.models hfits.mem ha]
    exact Except.mapM_eq_ok.mpr (.cons (Except.map_eq_ok.mpr ⟨_, hrow, rfl⟩) .nil)
  have hreturns :=
    readLevel_wholeRow h.models hs.wellFormed (h.shaped.listsScopes hlists) hroot hfillable
      (fun u hu ↦ (hnodes u hu).2.1) q.tree.mem_nodes_self
      (show ScopedIn q.tree q.tree none from trivial) hrows
  have hread : (readTop store [] q.tree).Returns [x.shown s slots wanted] := hreturns.bind (.pure _)
  exact hread ⟨0, []⟩

/-- A batch that ends with a create leaves its rows written. -/
theorem written_of_execute (hs : s.Reachable) (hdistinct : s.Distinct)
    {given : List (String × Int64)} (hstore : store.Arises s true given) {before : List Instruction}
    (hbefore : ∀ i ∈ before, s.Compiles i) (hfits : x.Fits s e)
    (hcompiles : ∀ y ∈ x.places, s.Compiles y.instruction)
    (hexact : ∀ y ∈ x.places, ∀ name v, (name, .value v) ∈ y.inputs → v.Exact ∧ v.nesting < 128)
    {log : List Event} {t : Session}
    (hrun : (execute s (before ++ x.places.map Draft.Place.instruction)).run ⟨store, slots,
      log⟩ = (.ok (), t)) :
    x.Written s t.store t.slots := by
  have hwf := hs.wellFormed
  have hcreates : ∀ i ∈ x.places.map Draft.Place.instruction, s.Compiles i :=
    List.forall_mem_map.mpr hcompiles
  have hafter := Store.Arises.committed (t := ⟨store, slots, log⟩) hstore
    (List.forall_mem_append.mpr ⟨hbefore, hcreates⟩) hrun
  have hstands := hafter.stands hwf hdistinct
  rw [run_execute] at hrun
  split at hrun
  · next u hall =>
    cases hrun
    rw [List.forM_eq_forM, List.forM_append] at hall
    obtain ⟨⟨⟩, v, hfirst, hrest⟩ := Run.run_bind_ok.mp hall
    obtain ⟨hmiddle, -⟩ := Store.Stands.writeAll hwf (hstore.stands hwf hdistinct)
      (fun i hi ↦ (hbefore i hi).shaped hwf) hfirst
    have hcreated :=
      Draft.Place.created hwf hmiddle (fun i hi ↦ (hcreates i hi).shaped hwf) hrest hfits
    refine ⟨hafter.models hwf hdistinct, hstands.shaped, hstands.closed hwf, hcreated,
      fun y hy f hf ↦ ?_, hexact⟩
    obtain ⟨d, hd, hname, hinputs⟩ := ((hcompiles y hy).shaped hwf).entity
    obtain rfl := hwf.eq_of_name_eq hd hf.mem (hname.trans hf.name.symm)
    exact hinputs
  · cases hrun

/-- The rows of a create that ends a batch are written as its object and the first free slot
say. -/
theorem create_written (hs : s.Reachable) (hdistinct : s.Distinct) {given : List (String × Int64)}
    (hstore : store.Arises s true given) {before : List Instruction}
    (hbefore : ∀ i ∈ before, s.Compiles i) {form : Language.CreateForm Value} {args : Args}
    {slots₀ : Slots} {c : Creation} (hc : s.compileCreate form args slots₀ = .ok c)
    {log : List Event} {t : Session}
    (hrun : (execute s (before ++ c.instructions)).run ⟨store, slots, log⟩ = (.ok (), t))
    (hexact : ∀ i ∈ c.instructions, ∀ inputs, i.action = .create inputs →
      ∀ name v, (name, .value v) ∈ inputs → v.Exact ∧ v.nesting < 128) :
    ∃ (x : Draft.Place) (e : Entity), x.Fits s e ∧
      x = ⟨form.entity, none, (Draft.row s args e form.body).result, slots₀.next⟩ ∧
      c.instructions = x.places.map Draft.Place.instruction ∧
      t.slots.id? c.tree.root = some (x.number t.slots) ∧ x.Written s t.store t.slots := by
  obtain ⟨⟨entity, owner, row, slot⟩, e, hfits, rfl, rfl, rfl, hinstructions, htree, -, rfl, -⟩ :=
    s.compileCreate_place hs.wellFormed hc
  have hmem {y : Draft.Place} (hy : y ∈ _) : y.instruction ∈ c.instructions :=
    hinstructions ▸ List.mem_map_of_mem hy
  rw [hinstructions] at hrun
  have hwritten :=
    written_of_execute hs hdistinct hstore hbefore hfits (fun y hy ↦ .create hc (hmem hy))
      (fun y hy name v hv ↦ hexact _ (hmem hy) _ rfl name v hv) hrun
  obtain ⟨d, -, hplaced⟩ := hwritten.created.placed _ (Draft.Place.mem_places_self _)
  exact ⟨_, e, hfits, rfl, hinstructions, htree ▸ hplaced.number, hwritten⟩

/-- A create reads back as it was written: after a batch that ends with it has been committed, the
query for the number of its topmost row compiles, and answers exactly this row, unless the schema
has a table that hides the function which lists a scope. Whatever relations are asked for, every row
has its number, the values that the create gives its fields (each as it reads back: a leap second
within a minute as the second after it, all else as it is), the rows that it lists under it, in
their order, and the numbers of the rows that it is linked to. There is a query that asks for all
that is given. -/
theorem read_created (hs : s.Reachable) (hdistinct : s.Distinct) (hlists : s.ListsScopes)
    {given : List (String × Int64)} (hstore : store.Arises s true given) {before : List Instruction}
    (hbefore : ∀ i ∈ before, s.Compiles i) {form : Language.CreateForm Value} {args : Args}
    {slots₀ : Slots} {c : Creation} (hc : s.compileCreate form args slots₀ = .ok c)
    {log : List Event} {t : Session}
    (hrun : (execute s (before ++ c.instructions)).run ⟨store, slots, log⟩ = (.ok (), t))
    (hexact : ∀ i ∈ c.instructions, ∀ inputs, i.action = .create inputs →
      ∀ name v, (name, .value v) ∈ inputs → v.Exact ∧ v.nesting < 128) :
    ∃ e ∈ s.entities, e.name = form.entity ∧
      ∃ x : Draft.Place, x.entity = form.entity ∧ x.owner = none ∧
      x.row = (Draft.row s args e form.body).result ∧
      c.instructions = x.places.map Draft.Place.instruction ∧
      t.slots.id? c.tree.root = some (x.number t.slots) ∧
      (∃ wanted relations, Levels s e wanted relations ∧ Draft.RowAsked x.row wanted) ∧
      ∀ wanted relations, Levels s e wanted relations → ∃ q,
        s.compileQuery (Wanted.form form.entity (x.number t.slots) wanted) = .ok q ∧
          q.parameters = [] ∧ (read t.store [] q.tree).1 = .ok [x.shown s t.slots wanted] := by
  obtain ⟨x, e, hfits, hx, hinstructions, hnumber, hwritten⟩ :=
    create_written hs hdistinct hstore hbefore hc hrun hexact
  obtain ⟨wanted, relations, hlevels, hasked⟩ := Draft.exists_asked hs.wellFormed hfits.mem
    (List.forall_mem_singleton.mpr hfits.entries)
  have hentity : x.entity = form.entity := congrArg Draft.Place.entity hx
  refine ⟨e, hfits.mem, hfits.name.trans hentity, x, hentity, congrArg Draft.Place.owner hx,
    congrArg Draft.Place.row hx, hinstructions, hnumber,
    ⟨wanted, relations, hlevels, hasked _ (List.mem_singleton_self _)⟩,
    fun wanted relations hlevels ↦ ?_⟩
  exact hentity ▸ read_written hs hwritten hlists hfits hlevels

def bobForm : Language.CreateForm Value :=
  ⟨"Person", [("name", .literal (.text "Bob"))]⟩

/-- A person with a friend and two notes. -/
def annNotesForm : Language.CreateForm Value :=
  ⟨"Person", [("name", .literal (.text "Ann")), ("friend", .literal (.long 1)),
    ("notes",
      .list [.object [("text", .literal (.text "tea"))],
        .object [("text", .literal (.text "milk"))]])]⟩

/-- A create that gives no value but texts. -/
def givesTexts (i : Instruction) : Bool :=
  match i.action with
  | .create inputs => inputs.all fun x ↦ match x.2 with
    | .value (.text _) => true
    | .value _ => false
    | _ => true
  | _ => false

theorem exact_of_givesTexts {i : Instruction} (h : givesTexts i) {inputs : Inputs}
    (haction : i.action = .create inputs) {name : String} {v : Value}
    (hv : (name, .value v) ∈ inputs) : v.Exact ∧ v.nesting < 128 := by
  unfold givesTexts at h
  rw [haction] at h
  have hv := List.all_eq_true.mp h _ hv
  cases v with
  | text s => exact ⟨trivial, show 1 < 128 by decide⟩
  | _ => cases hv

theorem read_created_of_friends : ∃ t c₁ c₂ t',
    (bootstrap (Schema.empty.after friendsCalls)).run (.start true) = (.ok (), t) ∧
      (Schema.empty.after friendsCalls).compileCreate bobForm [] .empty = .ok c₁ ∧
      (Schema.empty.after friendsCalls).compileCreate annNotesForm [] c₁.slots = .ok c₂ ∧
      (execute (Schema.empty.after friendsCalls) (c₁.instructions ++ c₂.instructions)).run
        ⟨t.store, c₂.slots, t.log⟩ = (.ok (), t') ∧
      ∃ x : Draft.Place, x.number t'.slots = 2 ∧ ∃ wanted q, Draft.RowAsked x.row wanted ∧
        (Schema.empty.after friendsCalls).compileQuery (Wanted.form "Person" 2 wanted) = .ok q ∧
          (read t'.store [] q.tree).1 =
            .ok [x.shown (Schema.empty.after friendsCalls) t'.slots wanted] := by
  have hboot : ((bootstrap (Schema.empty.after friendsCalls)).run (.start true)).1.isOk := by
    decide +kernel
  have hok :
      (((Schema.empty.after friendsCalls).compileCreate bobForm [] .empty).toOption.any fun c₁ ↦
      ((Schema.empty.after friendsCalls).compileCreate annNotesForm []
          c₁.slots).toOption.any fun c₂ ↦
        have t := ((bootstrap (Schema.empty.after friendsCalls)).run (.start true)).2
        have r :=
          (execute (Schema.empty.after friendsCalls) (c₁.instructions ++ c₂.instructions)).run
          ⟨t.store, c₂.slots, t.log⟩
        r.1.isOk && (c₂.instructions.all givesTexts &&
          r.2.slots.id? c₂.tree.root == some 2)) := by decide +kernel
  obtain ⟨c₁, hc₁, hok⟩ := (Option.any_eq_true _ _).mp hok
  obtain ⟨c₂, hc₂, hok⟩ := (Option.any_eq_true _ _).mp hok
  obtain ⟨hrun, hok⟩ := Bool.and_eq_true_iff.mp hok
  obtain ⟨htexts, hid⟩ := Bool.and_eq_true_iff.mp hok
  obtain ⟨⟨⟩, hboot⟩ := Except.isOk_iff.mp hboot
  obtain ⟨⟨⟩, hrun⟩ := Except.isOk_iff.mp hrun
  have hc₁ := Except.toOption_eq_some_iff.mp hc₁
  have hc₂ := Except.toOption_eq_some_iff.mp hc₂
  have hnew : Store.Arises (Schema.empty.after friendsCalls) true [] _ :=
    .new rfl (Run.run_eq_ok hboot)
  obtain ⟨e, he, -, x, -, -, -, -, hnumber, ⟨wanted, relations, hlevels, hasked⟩, hread⟩ :=
    read_created ⟨friendsCalls, rfl⟩ (by decide +kernel) (by decide +kernel) hnew
      (fun i hi ↦ .create hc₁ hi) hc₂ (Run.run_eq_ok hrun)
      fun i hi _ haction _ _ ↦ exact_of_givesTexts (List.all_eq_true.mp htexts i hi) haction
  obtain ⟨q, hq, -, hrow⟩ := hread wanted relations hlevels
  have hnumber := Option.some.inj (hnumber.symm.trans (eq_of_beq hid))
  exact ⟨_, c₁, c₂, _, Run.run_eq_ok hboot, hc₁, hc₂, Run.run_eq_ok hrun, x, hnumber, wanted, q,
    hasked, hnumber ▸ hq, hrow⟩

/-! ### What does not read back as it was given -/

/-- Events with the time at which they start. -/
def eventCalls : List Schema.Call :=
  [.addEntity "Event" .master, .addProperty "Event" (.field "start" (.ofType .time)), .commit]

def eventForm : Language.CreateForm Value :=
  ⟨"Event", [("start", .param "start")]⟩

/-- Half a second into a leap second that does not end a minute. -/
def leapSecond : TimeOfDay :=
  ⟨12, 34, 5, 1500000000, rfl⟩

/-- The time that a row shows under a name. -/
def shownTime (name : String) (row : Row) : Option TimeOfDay :=
  match row.get? name with
  | some (.value (.time t)) => some t
  | _ => none

/-- A leap second within a minute is stored as the second after it. -/
theorem leap_second_stored : ∃ t c t' q rows,
    (bootstrap (Schema.empty.after eventCalls)).run (.start true) = (.ok (), t) ∧
      (Schema.empty.after eventCalls).compileCreate eventForm
        [("start", .value (.time leapSecond))] .empty = .ok c ∧
      (execute (Schema.empty.after eventCalls) c.instructions).run ⟨t.store, c.slots,
        t.log⟩ = (.ok (), t') ∧
      (Schema.empty.after eventCalls).compileQuery (Wanted.form "Event" 1 []) = .ok q ∧
      (read t'.store [] q.tree).1 = .ok rows ∧
      rows.map (shownTime "start") = [some ⟨12, 34, 6, 500000000, rfl⟩] := by
  have hboot : ((bootstrap (Schema.empty.after eventCalls)).run (.start true)).1.isOk := by
    decide +kernel
  have hok : (((Schema.empty.after eventCalls).compileCreate eventForm
      [("start", .value (.time leapSecond))] .empty).toOption.any fun c ↦
        ((Schema.empty.after eventCalls).compileQuery
            (Wanted.form "Event" 1 [])).toOption.any fun q ↦
          have t := ((bootstrap (Schema.empty.after eventCalls)).run (.start true)).2
          have r :=
            (execute (Schema.empty.after eventCalls) c.instructions).run ⟨t.store, c.slots, t.log⟩
          r.1.isOk && (read r.2.store [] q.tree).1.toOption.any fun rows ↦
            rows.map (shownTime "start") == [some ⟨12, 34, 6, 500000000, rfl⟩]) := by decide +kernel
  obtain ⟨c, hc, hok⟩ := (Option.any_eq_true _ _).mp hok
  obtain ⟨q, hq, hok⟩ := (Option.any_eq_true _ _).mp hok
  obtain ⟨hrun, hok⟩ := Bool.and_eq_true_iff.mp hok
  obtain ⟨rows, hrows, hstart⟩ := (Option.any_eq_true _ _).mp hok
  obtain ⟨⟨⟩, hboot⟩ := Except.isOk_iff.mp hboot
  obtain ⟨⟨⟩, hrun⟩ := Except.isOk_iff.mp hrun
  exact ⟨_, c, _, q, rows, Run.run_eq_ok hboot,
    Except.toOption_eq_some_iff.mp hc, Run.run_eq_ok hrun,
    Except.toOption_eq_some_iff.mp hq, Except.toOption_eq_some_iff.mp hrows, eq_of_beq hstart⟩

/-- Nodes that own nodes. -/
def nodesCalls : List Schema.Call :=
  [.addEntity "Node" .detail, .addProperty "Node" (.field "name" (.ofType .text)),
    .addProperty "Node" (.collection "children" ⟨.owned, "Node"⟩), .commit]

/-- A node with a child. The owner that it names is the first node that there will be, and so the
node itself. -/
def nodeForm : Language.CreateForm Value :=
  ⟨"Node", [("@parent", .literal (.long 1)), ("name", .literal (.text "a")),
    ("children", .list [.object [("name", .literal (.text "b"))]])]⟩

/-- The numbers of the rows that a row lists. -/
def listedNumbers (row : Row) (name : String) : List (Option Int64) :=
  match row.get? name with
  | some (.many rows) => rows.map Row.id?
  | _ => []

/-- A row that its create makes its own owner is listed among the rows that it owns, though the
create gives it one child only. -/
theorem own_owner_shown : ∃ t c t' q row, (Schema.empty.after nodesCalls).Distinct ∧
    (bootstrap (Schema.empty.after nodesCalls)).run (.start true) = (.ok (), t) ∧
      (Schema.empty.after nodesCalls).compileCreate nodeForm [] .empty = .ok c ∧
      (execute (Schema.empty.after nodesCalls) c.instructions).run ⟨t.store, c.slots, t.log⟩ =
        (.ok (), t') ∧
      t'.slots.id? c.tree.root = some 1 ∧ (c.tree.elements "children").length = 1 ∧
      (Schema.empty.after nodesCalls).compileQuery (Wanted.form "Node" 1 [.owned "children" []]) =
        .ok q ∧
      (read t'.store [] q.tree).1 = .ok [row] ∧
      listedNumbers row "children" = [some 1, some 2] := by
  have hs : (Schema.empty.after nodesCalls).Reachable := ⟨nodesCalls, rfl⟩
  have hdistinct : (Schema.empty.after nodesCalls).Distinct := by decide +kernel
  have hlists : (Schema.empty.after nodesCalls).ListsScopes := by decide +kernel
  have hboot : ((bootstrap (Schema.empty.after nodesCalls)).run (.start true)).1.isOk := by
    decide +kernel
  have hok :
      (((Schema.empty.after nodesCalls).compileCreate nodeForm [] .empty).toOption.any fun c ↦
      ((Schema.empty.after nodesCalls).get? "Node").any fun e ↦ (e.get? "children").any fun p ↦
        have t := ((bootstrap (Schema.empty.after nodesCalls)).run (.start true)).2
        have r :=
          (execute (Schema.empty.after nodesCalls) c.instructions).run ⟨t.store, c.slots, t.log⟩
        have x : Draft.Place :=
          ⟨"Node", none, (Draft.row (Schema.empty.after nodesCalls) [] e nodeForm.body).result, 0⟩
        r.1.isOk && (c.instructions.all givesTexts && (p.relation? == some ("Node", .owned) &&
          (r.2.slots.id? c.tree.root == some 1 && ((c.tree.elements "children").length == 1 &&
            listedNumbers (x.shown (Schema.empty.after nodesCalls) r.2.slots
              [.owned "children" []]) "children" == [some 1, some 2]))))) := by
    decide +kernel
  -- from here on only these facts count, and nothing is computed any more
  generalize Schema.empty.after nodesCalls = s at hs hdistinct hlists hboot hok ⊢
  obtain ⟨⟨⟩, hboot⟩ := Except.isOk_iff.mp hboot
  have hboot := Run.run_eq_ok hboot
  generalize ((bootstrap s).run (.start true)).2 = t at hboot hok
  obtain ⟨c, hc, hok⟩ := (Option.any_eq_true _ _).mp hok
  obtain ⟨e, he, hok⟩ := (Option.any_eq_true _ _).mp hok
  obtain ⟨p, hp, hok⟩ := (Option.any_eq_true _ _).mp hok
  obtain ⟨hrun, hok⟩ := Bool.and_eq_true_iff.mp hok
  obtain ⟨htexts, hok⟩ := Bool.and_eq_true_iff.mp hok
  obtain ⟨howned, hok⟩ := Bool.and_eq_true_iff.mp hok
  obtain ⟨hroot, hok⟩ := Bool.and_eq_true_iff.mp hok
  obtain ⟨hchild, hlisted⟩ := Bool.and_eq_true_iff.mp hok
  obtain ⟨⟨⟩, hrun⟩ := Except.isOk_iff.mp hrun
  have hrun := Run.run_eq_ok hrun
  have hc := Except.toOption_eq_some_iff.mp hc
  have hroot := eq_of_beq hroot
  obtain ⟨he, hname⟩ := (Schema.get?_eq_some_iff hs.wellFormed).mp he
  obtain ⟨hp, hrelation⟩ := (Entity.get?_eq_some_iff (hs.wellFormed.entity e he)).mp hp
  obtain ⟨relations, hlevels⟩ : ∃ relations, Levels s e [.owned "children" []] relations := by
    rw [← hrelation]
    exact ⟨_, .owned hp he (hname ▸ eq_of_beq howned) List.not_mem_nil .nil .nil⟩
  obtain ⟨x, d, hfits, hx, -, hnumber, hwritten⟩ :=
    create_written hs hdistinct (.new rfl hboot) (List.forall_mem_nil _) hc hrun
      fun i hi _ haction _ _ ↦ exact_of_givesTexts (List.all_eq_true.mp htexts i hi) haction
  have hentity : x.entity = "Node" := congrArg Draft.Place.entity hx
  obtain rfl :=
    hs.wellFormed.eq_of_name_eq hfits.mem he (hfits.name.trans (hentity.trans hname.symm))
  obtain ⟨q, hq, -, hread⟩ := read_written hs hwritten hlists hfits hlevels
  rw [hentity, Option.some.inj (hnumber.symm.trans hroot)] at hq
  exact ⟨t, c, _, q, _, hdistinct, hboot, hc, hrun, hroot, eq_of_beq hchild, hq, hread,
    hx ▸ eq_of_beq hlisted⟩

/-- A row that its create makes its own owner is listed among the rows that it owns, though the
create gives it one child only; and a leap second within a minute does not read back as itself. -/
theorem own_owner_listed : (∃ t c t' q row, (Schema.empty.after nodesCalls).Distinct ∧
    (bootstrap (Schema.empty.after nodesCalls)).run (.start true) = (.ok (), t) ∧
      (Schema.empty.after nodesCalls).compileCreate nodeForm [] .empty = .ok c ∧
      (execute (Schema.empty.after nodesCalls) c.instructions).run ⟨t.store, c.slots, t.log⟩ =
        (.ok (), t') ∧
      t'.slots.id? c.tree.root = some 1 ∧ (c.tree.elements "children").length = 1 ∧
      (Schema.empty.after nodesCalls).compileQuery (Wanted.form "Node" 1 [.owned "children" []]) =
        .ok q ∧
      (read t'.store [] q.tree).1 = .ok [row] ∧
      listedNumbers row "children" = [some 1, some 2]) ∧
    ∃ t c t' q rows, (bootstrap (Schema.empty.after eventCalls)).run (.start true) = (.ok (), t) ∧
      (Schema.empty.after eventCalls).compileCreate eventForm
        [("start", .value (.time leapSecond))] .empty = .ok c ∧
      (execute (Schema.empty.after eventCalls) c.instructions).run ⟨t.store, c.slots, t.log⟩ =
        (.ok (), t') ∧
      (Schema.empty.after eventCalls).compileQuery (Wanted.form "Event" 1 []) = .ok q ∧
      (read t'.store [] q.tree).1 = .ok rows ∧
      rows.map (shownTime "start") = [some ⟨12, 34, 6, 500000000, rfl⟩] :=
  ⟨own_owner_shown, leap_second_stored⟩

end Mapping

end EntityStore
