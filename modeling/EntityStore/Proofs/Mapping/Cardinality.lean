import EntityStore.Proofs.Mapping.Refinement

/-!
How often rows are linked. A required reference has one link, an optional one has one at most: a
create sets what is required, an update replaces the link of a reference and never takes a required
one away. The constraints of the tables keep pairs of rows from being linked twice, and rows from
sharing an owner that has one of them only.
-/

set_option autoImplicit false

namespace EntityStore

open Mapping

/-! ### Inputs -/

namespace Mapping

variable {s : Schema} {e : Entity} {p : Property} {r : Reference} {inputs : Inputs}
  {slots : Slots} {v : InputValue} {before : List Int64}

section

variable (hs : s.WellFormed) (he : e ∈ s.entities) (hp : p ∈ e.properties)
  (hkind : p.kind = .reference r)

include hs he hp hkind

/-- A create gives a reference one row. -/
theorem Creates.ref_of_lookup (hcreates : e.Creates inputs)
    (hlookup : inputs.lookup p.name = some v) :
    ∃ row, v = .ref row := by
  obtain ⟨-, q, hq, hname, hinput⟩ := hcreates.property _ (mem_of_lookup hlookup)
  obtain rfl := (hs.entity e he).indexed.eq_of_name_eq hq hp hname
  cases v with
  | value v =>
    obtain ⟨f, hfield, -⟩ := hinput
    cases hfield.symm.trans hkind
  | ref row => exact ⟨row, rfl⟩
  | refs rs =>
    obtain ⟨c, hcollection⟩ := hinput
    cases hcollection.symm.trans hkind
  | link op row => exact hinput.elim
  | links ls => exact hinput.elim

theorem created_links_le (hcreates : e.Creates inputs) :
    (((inputs.lookup p.name).map (·.targets slots)).getD []).length ≤ 1 := by
  cases hlookup : inputs.lookup p.name with
  | none => exact Nat.zero_le 1
  | some v =>
    obtain ⟨row, rfl⟩ := Creates.ref_of_lookup hs he hp hkind hcreates hlookup
    exact Option.length_toList_le

theorem created_links_eq (hcreates : e.Creates inputs) (hinput : p.input) (hrequired : ¬r.optional)
    (hsettled : ∀ row, (p.name, .ref row) ∈ inputs → (slots.id? row).isSome) :
    (((inputs.lookup p.name).map (·.targets slots)).getD []).length = 1 := by
  obtain ⟨row, hrow⟩ := hcreates.complete p (List.mem_filter.mpr ⟨hp, hinput⟩) r hkind hrequired
  cases hlookup : inputs.lookup p.name with
  | none =>
    have hne := List.lookup_eq_none_iff.mp hlookup _ hrow
    simp at hne
  | some v =>
    obtain ⟨row, rfl⟩ := Creates.ref_of_lookup hs he hp hkind hcreates hlookup
    obtain ⟨n, hn⟩ := Option.isSome_iff_exists.mp (hsettled row (mem_of_lookup hlookup))
    change (slots.id? row).toList.length = 1
    rw [hn]
    rfl

end

/-- An update leaves a reference one link at most. -/
theorem relinked_le (hkind : p.kind = .reference r) (hupdates : p.Updates v)
    (hbefore : before.length ≤ 1) : (v.relinked slots before).length ≤ 1 := by
  cases v with
  | value v => exact hbefore
  | ref row => exact hbefore
  | refs rs => exact Nat.zero_le 1
  | link op row =>
    cases op with
    | add => exact Option.length_toList_le
    | del => exact (List.length_filter_le _ _).trans hbefore
  | links ls =>
    obtain ⟨-, ⟨c, hcollection⟩, -⟩ := hupdates
    cases hcollection.symm.trans hkind

/-- An update leaves a required reference its link, or another one. -/
theorem relinked_eq (hkind : p.kind = .reference r) (hrequired : ¬r.optional)
    (hupdates : p.Updates v) (hsettled : ∀ row ∈ v.rows, (slots.id? row).isSome)
    (hbefore : before.length = 1) :
    (v.relinked slots before).length = 1 := by
  cases v with
  | value v => exact hbefore
  | ref row => exact hbefore
  | refs rs =>
    obtain ⟨-, -, q, hq, hoptional⟩ := hupdates
    cases hq.symm.trans hkind
    exact absurd hoptional hrequired
  | link op row =>
    cases op with
    | add =>
      obtain ⟨n, hn⟩ := Option.isSome_iff_exists.mp (hsettled row List.mem_cons_self)
      change (slots.id? row).toList.length = 1
      rw [hn]
      rfl
    | del =>
      obtain ⟨-, q, hq, hoptional⟩ := hupdates
      cases hq.symm.trans hkind
      exact absurd (hoptional rfl) hrequired
  | links ls =>
    obtain ⟨-, ⟨c, hcollection⟩, -⟩ := hupdates
    cases hcollection.symm.trans hkind

end Mapping

/-! ### Content -/

namespace Content

/-- A reference has one link at most, a required one of a row that is there has one. -/
structure Cardinal (s : Schema) (c : Content) : Prop where
  required : ∀ e ∈ s.entities, ∀ p ∈ e.inputs, ∀ r, p.kind = .reference r →
    p.isLinked → ¬r.optional → ∀ id, (c.row e.name id).isSome →
    (c.links e.name p.name id).length = 1
  single : ∀ e ∈ s.entities, ∀ p ∈ e.properties, ∀ r, p.kind = .reference r → p.isLinked →
    ∀ id, (c.links e.name p.name id).length ≤ 1

variable {s : Schema} {c c' : Content} {e : Entity} {i : Instruction} {slots slots' : Slots}
  {given : List (String × Int64)} {batch : List Instruction} {inputs : Inputs} {id : Int64}

theorem cardinal_empty : Content.empty.Cardinal s where
  required _ _ _ _ _ _ _ _ _ := nofun
  single _ _ _ _ _ _ _ _ := Nat.zero_le 1

section

variable {d : Entity} {p : Property} {r : Reference} (hs : s.WellFormed) (he : e ∈ s.entities)

include hs he

theorem Cardinal.create (h : c.Cardinal s) (hcreates : e.Creates inputs)
    (hsettled : e.Settled inputs slots) :
    (c.create e inputs slots id).Cardinal s := by
  have hnew {p : Property} (hp : p ∈ e.properties) (hlinked : p.isLinked) :
      (c.create e inputs slots id).links e.name p.name id =
        ((inputs.lookup p.name).map (·.targets slots)).getD [] :=
    if_pos ⟨rfl, rfl, (Entity.links_eq_true_iff (hs.entity e he)).mpr ⟨p, hp, rfl, hlinked⟩⟩
  have hold {d r : String} {n : Int64} (hother : ¬(d = e.name ∧ n = id)) :
      (c.create e inputs slots id).links d r n = c.links d r n := if_neg fun h ↦ hother ⟨h.1, h.2.1⟩
  constructor
  · intro d hd p hp r hkind hlinked hrequired n hrow
    have hproperty := (List.mem_filter.mp hp).1
    by_cases hthis : d.name = e.name ∧ n = id
    · obtain ⟨hname, rfl⟩ := hthis
      obtain rfl := hs.eq_of_name_eq hd he hname
      rw [hnew hproperty hlinked]
      refine created_links_eq hs hd hproperty hkind hcreates (List.mem_filter.mp hp).2 hrequired
        fun row hrow ↦ ?_
      have hlinks := (Entity.links_eq_true_iff (hs.entity d hd)).mpr ⟨p, hproperty, rfl, hlinked⟩
      exact hsettled _ hrow (.inr hlinks) row List.mem_cons_self
    · rw [hold hthis]
      have hrow' : (c.row d.name n).isSome := by
        unfold Content.create at hrow
        dsimp only at hrow
        rwa [if_neg hthis] at hrow
      exact h.required d hd p hp r hkind hlinked hrequired n hrow'
  · intro d hd p hp r hkind hlinked n
    by_cases hthis : d.name = e.name ∧ n = id
    · obtain ⟨hname, rfl⟩ := hthis
      obtain rfl := hs.eq_of_name_eq hd he hname
      rw [hnew hp hlinked]
      exact created_links_le hs hd hp hkind hcreates
    · rw [hold hthis]
      exact h.single d hd p hp r hkind hlinked n

theorem Cardinal.update (h : c.Cardinal s) (hupdates : e.Updates inputs)
    (hsettled : e.Settled inputs slots) :
    (c.update e inputs slots id).Cardinal s := by
  have hsome {d : String} {n : Int64} (hrow : ((c.update e inputs slots id).row d n).isSome) :
      (c.row d n).isSome := by
    unfold Content.update at hrow
    dsimp only at hrow
    split at hrow
    · simpa using hrow
    · exact hrow
  -- a relation that the inputs name changes as its input says, and every other one not at all
  have hcases {d : Entity} (hd : d ∈ s.entities) {p : Property}
      (hp : p ∈ d.properties) (n : Int64) :
      (c.update e inputs slots id).links d.name p.name n = c.links d.name p.name n ∨
        ∃ v, p.Updates v ∧ (∀ row ∈ v.rows, (slots.id? row).isSome) ∧
          (c.update e inputs slots id).links d.name p.name n = v.relinked slots
            (c.links d.name p.name n) := by
    unfold Content.update
    dsimp only
    split
    · next hthis =>
      cases hlookup : inputs.lookup p.name with
      | none => exact .inl rfl
      | some v =>
        obtain rfl := hs.eq_of_name_eq hd he hthis.1
        have hmem := mem_of_lookup hlookup
        obtain ⟨-, q, hq, hname, hinput⟩ := hupdates.property _ hmem
        obtain rfl := (hs.entity d hd).indexed.eq_of_name_eq hq hp hname
        exact .inr ⟨v, hinput, hsettled _ hmem (.inr hthis.2.2), rfl⟩
    · exact .inl rfl
  constructor
  · intro d hd p hp r hkind hlinked hrequired n hrow
    have hbefore := h.required d hd p hp r hkind hlinked hrequired n (hsome hrow)
    rcases hcases hd (List.mem_filter.mp hp).1 n with heq | ⟨v, hinput, hrows, heq⟩
    · rwa [heq]
    · rw [heq]
      exact relinked_eq hkind hrequired hinput hrows hbefore
  · intro d hd p hp r hkind hlinked n
    have hbefore := h.single d hd p hp r hkind hlinked n
    rcases hcases hd hp n with heq | ⟨v, hinput, -, heq⟩
    · rwa [heq]
    · rw [heq]
      exact relinked_le hkind hinput hbefore

end

theorem Cardinal.delete (h : c.Cardinal s) : (c.putRow e.name id none).Cardinal s where
  required d hd p hp r hkind hlinked hrequired n hrow := by
    rw [putRow_row] at hrow
    split at hrow
    · cases hrow
    · exact h.required d hd p hp r hkind hlinked hrequired n hrow
  single := h.single

/-- Every step of a compiled instruction keeps the numbers of links. -/
theorem Cardinal.step (hs : s.WellFormed) (he : e ∈ s.entities) (hname : e.name = i.entity)
    (hshaped : i.Shaped s) (h : c.Cardinal s) (hstep : Step given e i c slots c' slots') :
    c'.Cardinal s := by
  obtain ⟨d, hd, hdname, hinputs⟩ := hshaped.entity
  obtain rfl := hs.eq_of_name_eq hd he (hdname.trans hname.symm)
  unfold Step at hstep
  cases haction : i.action with
  | create inputs =>
    rw [haction] at hstep hinputs
    obtain ⟨id, -, -, -, hsettled, rfl⟩ := hstep
    exact h.create hs hd hinputs hsettled
  | update inputs =>
    rw [haction] at hstep hinputs
    obtain ⟨id, -, rfl, -, hsettled, rfl⟩ := hstep
    exact h.update hs hd hinputs hsettled
  | delete =>
    rw [haction] at hstep
    obtain ⟨id, -, -, -, rfl⟩ := hstep
    exact h.delete

theorem Cardinal.steps (hs : s.WellFormed) (h : c.Cardinal s)
    (hsteps : c.Steps s given batch slots c' slots') (hshaped : ∀ i ∈ batch, i.Shaped s) :
    c'.Cardinal s := by
  induction hsteps with
  | nil => exact h
  | cons he hname hstep _ ih =>
    obtain ⟨hi, hbatch⟩ := List.forall_mem_cons.mp hshaped
    exact ih (h.step hs he hname hi hstep) hbatch

theorem Arises.cardinal (hs : s.WellFormed) (h : c.Arises s given) : c.Cardinal s := by
  induction h with
  | empty => exact cardinal_empty
  | steps _ hbatch hsteps ih => exact ih.steps hs hsteps fun i hi ↦ (hbatch i hi).shaped hs

end Content

/-! ### Tables -/

/-- No cell of a required column is null. -/
def Table.Filled (t : Table) : Prop :=
  ∀ r ∈ t.rows, ∀ c ∈ t.columns, c.required → r.cell c.name ≠ .null

namespace Table

variable {t t' : Table} {statement : Statement}

theorem Filled.becomes (h : t.Filled) (hbecomes : t.Becomes statement t') : t'.Filled := by
  have hshape := hbecomes.eq_withRows
  intro r hr
  rw [hshape]
  rcases hbecomes.mem_rows hr with hr | ⟨hrequired, -⟩
  · exact h r hr
  · exact checkRequired_eq_ok.mp hrequired

/-- The rows of a table of links that an owner has. -/
def linkRows (t : Table) (owner : Int64) : List StoredRow :=
  t.rows.filter fun r ↦ r.cell ownerColumn = .integer owner

section

variable {entity : String} {p : Property} {spec : TableSpec} {r : StoredRow}
  (hspec : linkTable entity p = some spec) (ht : spec.Shapes t) (hkeyed : t.Keyed)
  (hfilled : t.Filled)

include hspec ht hkeyed hfilled

/-- A link names both its rows. -/
theorem link_cells (hr : r ∈ t.rows) : ∃ o n, r.cell ownerColumn = .integer o ∧
    r.cell targetColumn = .integer n := by
  obtain ⟨-, hcolumns, -⟩ := link_columns hspec ht
  have hcell {name : String} (hkey : isKey name)
      (hc : (⟨name, .integer, true⟩ : Column) ∈ t.columns) :
      ∃ n, r.cell name = .integer n :=
    (Cell.isNumber_iff.mp (hkeyed.cell_isNumber hr hkey)).resolve_left (hfilled r hr _ hc rfl)
  obtain ⟨o, ho⟩ := hcell (by decide : isKey ownerColumn) (by rw [hcolumns]; decide)
  obtain ⟨n, hn⟩ := hcell (by decide : isKey targetColumn) (by rw [hcolumns]; decide)
  exact ⟨o, n, ho, hn⟩

theorem length_targets (o : Int64) : (t.targets o).length = (t.linkRows o).length := by
  have howner : t.linkRows o = t.rows.filter fun r ↦ r.number? ownerColumn == some o := by
    refine List.filter_congr fun r _ ↦ ?_
    rw [Bool.eq_iff_iff, decide_eq_true_iff, beq_iff_eq, StoredRow.number?_eq_some_iff]
  unfold targets
  rw [howner, List.length_filterMap_eq_countP, List.countP_eq_length]
  intro r hr
  obtain ⟨-, n, -, hn⟩ := link_cells hspec ht hkeyed hfilled (List.mem_filter.mp hr).1
  rw [StoredRow.number?_eq_some_iff.mpr hn]
  rfl

/-- No two rows are linked twice. -/
theorem pairs_nodup : (t.rows.map fun r ↦ (r.cell ownerColumn, r.cell targetColumn)).Nodup := by
  refine List.pairwise_map.mpr (hkeyed.ascending.imp_of_mem fun {r s} hr hs hless hsame ↦ ?_)
  obtain ⟨o, n, ho, hn⟩ := link_cells hspec ht hkeyed hfilled hr
  obtain ⟨howner, htarget⟩ := Prod.mk.inj hsame
  exact Int64.ne_of_lt hless (hkeyed.id_eq_of_link hspec ht hr hs
    ⟨StoredRow.number?_eq_some_iff.mpr ho, StoredRow.number?_eq_some_iff.mpr (howner ▸ ho)⟩
    ⟨StoredRow.number?_eq_some_iff.mpr hn, StoredRow.number?_eq_some_iff.mpr (htarget ▸ hn)⟩)

end

end Table

theorem filled_keptByStatements : KeptByStatements fun store ↦ ∀ t ∈ store.tables, t.Filled := by
  intro statement store effect _ hfilled hrun u hu
  obtain ⟨t, t', ht, hbecomes, hstore⟩ := Store.run_cases hrun
  rw [hstore] at hu
  obtain ⟨v, hv, rfl⟩ := List.mem_map.mp hu
  split
  · exact (hfilled t (List.mem_of_find?_eq_some ht)).becomes hbecomes
  · exact hfilled v hv

/-! ### Stores -/

namespace Store

/-- How often rows of a store are linked and owned, the numbers that committed batches gave to rows
being known. -/
structure Cardinality (s : Schema) (given : List (String × Int64)) (store : Store) : Prop where
  required : ∀ e ∈ s.entities, ∀ p ∈ e.inputs, ∀ r, p.kind = .reference r →
    p.isLinked → ¬r.optional → ∀ t, store.table? e.name = some t → ∀ row ∈ t.rows,
      ∃ links, store.table? (linkTableName e.name p.name) = some links ∧
      (links.linkRows row.id).length = 1
  optional : ∀ e ∈ s.entities, ∀ p ∈ e.properties, ∀ r, p.kind = .reference r → p.isLinked →
    ∀ t, store.table? e.name = some t → ∀ row ∈ t.rows,
      ∃ links, store.table? (linkTableName e.name p.name) = some links ∧
      (links.linkRows row.id).length ≤ 1
  pairs : ∀ e ∈ s.entities, ∀ p ∈ e.properties, p.isLinked →
    ∃ links, store.table? (linkTableName e.name p.name) = some links ∧
      (links.rows.map fun l ↦ (l.cell ownerColumn, l.cell targetColumn)).Nodup ∧
      ∀ l ∈ links.rows, ∃ owner, l.cell ownerColumn = .integer owner ∧ (e.name, owner) ∈ given
  single : ∀ e ∈ s.entities, ∀ p ∈ e.properties, ∀ r, p.kind = .reference r → ∀ d ∈ s.entities,
    p.owned? = some d.name → ∃ t, store.table? d.name = some t ∧
      ∀ row ∈ t.rows, ∀ other ∈ t.rows, ∀ owner, row.cell parentName = .integer owner →
        other.cell parentName = .integer owner → row = other

variable {s : Schema} {enforced : Bool} {given : List (String × Int64)} {store : Store}

theorem Arises.filled (hs : s.WellFormed) (hdistinct : s.Distinct)
    (h : store.Arises s enforced given) :
    ∀ t ∈ store.tables, t.Filled := by
  refine h.kept filled_keptByStatements hs fun t t' hempty hrun ↦ ?_
  rw [(bootstrap_ok hdistinct (by rw [hempty]; rfl) hrun).tables]
  intro u hu
  obtain ⟨spec, -, rfl⟩ := List.mem_map.mp hu
  exact nofun

/-- The table of a relation has the links of the content. -/
theorem Shaped.linkRows (hs : s.WellFormed) (h : store.Shaped s)
    (hfilled : ∀ t ∈ store.tables, t.Filled) {e : Entity} (he : e ∈ s.entities) {p : Property}
    (hp : p ∈ e.properties) (hlinked : p.isLinked) :
    ∃ spec links, linkTable e.name p = some spec ∧
      store.table? (linkTableName e.name p.name) = some links ∧
      spec.Shapes links ∧ links.Keyed ∧ links.Filled ∧
      ∀ o, (links.linkRows o).length = ((store.content s).links e.name p.name o).length := by
  obtain ⟨spec, links, hspec, -, ht, hshapes, hkeyed⟩ := h.linkTable? he hp hlinked
  have hlinks := hfilled links (List.mem_of_find?_eq_some ht)
  refine ⟨spec, links, hspec, ht, hshapes, hkeyed, hlinks, fun o ↦ ?_⟩
  rw [content_links hs he hp hlinked ht, Table.length_targets hspec hshapes hkeyed hlinks]

/-- Where an owner has one row only, no other row names it. -/
theorem Shaped.eq_of_parent (hs : s.WellFormed) (h : store.Shaped s) {e d : Entity}
    (he : e ∈ s.entities) (hd : d ∈ s.entities) {p : Property} (hp : p ∈ e.properties)
    {r : Reference} (hkind : p.kind = .reference r) (howned : p.owned? = some d.name) {t : Table}
    (ht : store.table? d.name = some t) {row other : StoredRow} (hrow : row ∈ t.rows)
    (hother : other ∈ t.rows) {owner : Int64} (hrow' : row.cell parentName = .integer owner)
    (hother' : other.cell parentName = .integer owner) : row = other := by
  obtain ⟨hshapes, hkeyed⟩ := h.of_table? (Schema.entityTable_mem hd) ht
  have hdistinct := hshapes.columns_eq ▸ h.columns _ (Schema.entityTable_mem hd)
  obtain ⟨own, hown⟩ := hs.ownership d hd
  have hparent : .parent d.name e.name true ∈ d.properties := by
    have howns : s.Owns e.name p d.name := ⟨⟨e, he, rfl, hp⟩, howned⟩
    cases hown with
    | free _ hnone _ => exact absurd howns (hnone _ _)
    | owned _ honly hreference _ =>
      obtain ⟨rfl, rfl⟩ := (honly _ _).mp howns
      have hsingle : p.isSingle = true := by
        unfold Property.isSingle
        rw [hkind]
      exact hsingle ▸ ((hreference _).mpr rfl).1
  have hcolumn :
      (⟨parentName, .integer, true, true, some e.name⟩ : ColumnSpec) ∈ Mapping.columns d :=
    List.mem_append_right _ (List.mem_filterMap.mpr ⟨_, hparent, rfl⟩)
  have hunique : [parentName] ∈ t.unique := by
    rw [hshapes.unique_eq]
    refine List.mem_reverse.mpr (List.mem_append_left _ (List.mem_append_left _ ?_))
    exact List.mem_map.mpr ⟨_, List.mem_filter.mpr ⟨hcolumn, rfl⟩, rfl⟩
  have hid : row.id = other.id := by
    refine hkeyed.id_eq_of_unique hdistinct hunique (fun name hname ↦ ?_) hrow hother
      fun name hname ↦ ?_
    · rw [List.mem_singleton.mp hname, hshapes.columns_eq]
      exact ⟨_, List.mem_map_of_mem hcolumn, rfl⟩
    · rw [List.mem_singleton.mp hname]
      exact ⟨owner, StoredRow.number?_eq_some_iff.mpr hrow',
        StoredRow.number?_eq_some_iff.mpr hother'⟩
  have hfound := (Table.row?_eq_some_iff hkeyed.ascending).mpr ⟨hrow, hid⟩
  rw [(Table.row?_eq_some_iff hkeyed.ascending).mpr ⟨hother, rfl⟩] at hfound
  exact (Option.some.inj hfound).symm

end Store

namespace Mapping

/-- In every store that batches lead to from a new one, committed or failed, rows are linked as
often as their relations allow. -/
theorem links_cardinality {s : Schema} (hs : s.Reachable) (hdistinct : s.Distinct) {enforced : Bool}
    {given : List (String × Int64)} {store : Store} (h : store.Arises s enforced given) :
    store.Cardinality s given := by
  have hwf := hs.wellFormed
  obtain ⟨c, top, harises, ⟨hshaped, hcontent, -⟩, hgiven⟩ := h.shows hwf hdistinct
  have hcardinal := harises.cardinal hwf
  have hfilled := h.filled hwf hdistinct
  have hrow {e : Entity} (he : e ∈ s.entities) {t : Table}
      (ht : store.table? e.name = some t) {row : StoredRow} (hrow : row ∈ t.rows) :
      (c.row e.name row.id).isSome := by
    obtain ⟨-, hkeyed⟩ := hshaped.of_table? (Schema.entityTable_mem he) ht
    rw [← hcontent, Store.content_row hwf he ht,
      (Table.row?_eq_some_iff hkeyed.ascending).mpr ⟨hrow, rfl⟩]
    rfl
  refine ⟨fun e he p hp r hkind hlinked hrequired t ht row hmem ↦ ?_,
    fun e he p hp r hkind hlinked t ht row hmem ↦ ?_, fun e he p hp hlinked ↦ ?_,
    fun e he p hp r hkind d hd howned ↦ ?_⟩
  · obtain ⟨-, links, -, hlinks, -, -, -, hlength⟩ :=
      hshaped.linkRows hwf hfilled he (List.mem_filter.mp hp).1 hlinked
    refine ⟨links, hlinks, ?_⟩
    rw [hlength, hcontent]
    exact hcardinal.required e he p hp r hkind hlinked hrequired row.id (hrow he ht hmem)
  · obtain ⟨-, links, -, hlinks, -, -, -, hlength⟩ := hshaped.linkRows hwf hfilled he hp hlinked
    refine ⟨links, hlinks, ?_⟩
    rw [hlength, hcontent]
    exact hcardinal.single e he p hp r hkind hlinked row.id
  · obtain ⟨spec, links, hspec, hlinks, hshapes, hkeyed, hlinksFilled, hlength⟩ :=
      hshaped.linkRows hwf hfilled he hp hlinked
    refine ⟨links, hlinks, Table.pairs_nodup hspec hshapes hkeyed hlinksFilled, fun l hl ↦ ?_⟩
    obtain ⟨o, -, ho, -⟩ := Table.link_cells hspec hshapes hkeyed hlinksFilled hl
    refine ⟨o, ho, hgiven.links e.name p.name o fun hnil ↦ ?_⟩
    have hmem : l ∈ links.linkRows o := List.mem_filter.mpr ⟨hl, by simp [ho]⟩
    have hempty := hlength o
    rw [hcontent, hnil] at hempty
    rw [List.length_eq_zero_iff.mp hempty] at hmem
    cases hmem
  · obtain ⟨t, ht, -⟩ := hshaped.entityTable? hd
    exact ⟨t, ht,
      fun row hrow other hother owner ↦ hshaped.eq_of_parent hwf he hd hp hkind
        howned ht hrow hother⟩

/-- Teams, led by a person each, and persons with a badge. -/
def teamsCalls : List Schema.Call :=
  [.addEntity "Person" .master, .addEntity "Badge" .detail, .addEntity "Team" .master,
    .addProperty "Badge" (.field "text" (.ofType .text)),
    .addProperty "Person" (.reference "badge" ⟨.owned, "Badge", true, false⟩),
    .addProperty "Team" (.reference "lead" ⟨.linked, "Person", false, false⟩), .commit]

/-- A person with a badge, and the team that the person leads. -/
def teamsForms : List (Language.CreateForm Value) :=
  [⟨"Person", [("badge", .object [("text", .literal (.text "red"))])]⟩,
    ⟨"Team", [("lead", .literal (.long 1))]⟩]

theorem links_cardinality_of_teams : ∃ given, ∃ store : Store,
    store.Arises (Schema.empty.after teamsCalls) true given ∧
      given = [("Person", 1), ("Badge", 1), ("Team", 1)] ∧
      store.Cardinality (Schema.empty.after teamsCalls) given := by
  have hboot : ((bootstrap (Schema.empty.after teamsCalls)).run (.start true)).1.isOk := by
    decide +kernel
  have hok :
      (((Schema.empty.after teamsCalls).compileCreate teamsForms[0] [] .empty).toOption.any fun c ↦
      ((Schema.empty.after teamsCalls).compileCreate teamsForms[1] [] c.slots).toOption.any fun d ↦
        have t := ((bootstrap (Schema.empty.after teamsCalls)).run (.start true)).2
        have batch := c.instructions ++ d.instructions
        have r := (execute (Schema.empty.after teamsCalls) batch).run ⟨t.store, d.slots, t.log⟩
        r.1.isOk && batch.flatMap (·.numbered r.2.slots) == [("Person", 1),
            ("Badge", 1), ("Team", 1)]) := by
    decide +kernel
  obtain ⟨c, hc, hok⟩ := (Option.any_eq_true _ _).mp hok
  obtain ⟨d, hd, hok⟩ := (Option.any_eq_true _ _).mp hok
  obtain ⟨hrun, hgiven⟩ := Bool.and_eq_true_iff.mp hok
  obtain ⟨⟨⟩, hboot⟩ := Except.isOk_iff.mp hboot
  obtain ⟨⟨⟩, hrun⟩ := Except.isOk_iff.mp hrun
  have hbatch : ∀ i ∈ c.instructions ++ d.instructions,
      (Schema.empty.after teamsCalls).Compiles i :=
    fun i hi ↦ (List.mem_append.mp hi).elim (.create (Except.toOption_eq_some_iff.mp hc))
      (.create (Except.toOption_eq_some_iff.mp hd))
  have hnew : Store.Arises (Schema.empty.after teamsCalls) true [] _ :=
    .new rfl (Run.run_eq_ok hboot)
  have harises := Store.Arises.committed (t := ⟨_, d.slots, _⟩) hnew hbatch (Run.run_eq_ok hrun)
  exact ⟨_, _, harises, eq_of_beq hgiven,
    links_cardinality ⟨teamsCalls, rfl⟩ (by decide +kernel) harises⟩

end Mapping

end EntityStore
