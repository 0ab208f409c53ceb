import EntityStore.Proofs.Mapping.Reflection

/-!
A store in which two schemas have created their tables one after the other, and one that has those
of the second schema only. The first keeps the columns it has, and those added to it are neither
required nor unique. Where these do what the second schema asks for (`Schema.Carries`), no batch of
the second schema tells the two stores apart (`execute_migrated`).
-/

set_option autoImplicit false

namespace EntityStore

open Mapping

/-- A column of a table takes the place of one that is asked for, which is filled anyhow or not. -/
structure ColumnSpec.DoesFor (d c : ColumnSpec) (assured : Bool) : Prop where
  unique : d.unique = c.unique
  references : d.references = c.references
  less : d.required → c.required
  more : c.required → d.required ∨ assured
  affinity : c.unique → d.affinity = c.affinity

theorem ColumnSpec.doesFor_iff {d c : ColumnSpec} {assured : Bool} : d.DoesFor c assured ↔
    d.unique = c.unique ∧ d.references = c.references ∧ (d.required → c.required) ∧
      (c.required → d.required ∨ assured) ∧ (c.unique → d.affinity = c.affinity) :=
  ⟨fun h ↦ ⟨h.unique, h.references, h.less, h.more, h.affinity⟩,
    fun h ↦ ⟨h.1, h.2.1, h.2.2.1, h.2.2.2.1, h.2.2.2.2⟩⟩

instance (d c : ColumnSpec) (assured : Bool) : Decidable (d.DoesFor c assured) :=
  decidable_of_iff _ ColumnSpec.doesFor_iff.symm

namespace Entity

/-- The column of an entity's table that stands where another schema asks for one: its own, or else
an added one. -/
def standing (e : Entity) (c : ColumnSpec) : ColumnSpec :=
  ((columns e).find? (·.name == c.name)).getD (addedColumn c)

/-- A property of this name is filled in every row that is created. -/
def assures (e : Entity) (name : String) : Bool :=
  e.properties.any fun p ↦ p.name == name && p.isAssured

/-- The table of an entity does for the entity of the same name in another schema. -/
structure Carries (e e' : Entity) : Prop where
  column : ∀ c ∈ columns e', (e.standing c).DoesFor c (e'.assures c.name)
  /-- No column is required that the other entity does not have. -/
  dropped : ∀ d ∈ columns e, d.required → ∃ c ∈ columns e', c.name = d.name

theorem carries_iff {e e' : Entity} : e.Carries e' ↔
    (∀ c ∈ columns e', (e.standing c).DoesFor c (e'.assures c.name)) ∧
      ∀ d ∈ columns e, d.required → ∃ c ∈ columns e', c.name = d.name :=
  ⟨fun h ↦ ⟨h.column, h.dropped⟩, fun h ↦ ⟨h.1, h.2⟩⟩

instance (e e' : Entity) : Decidable (e.Carries e') :=
  decidable_of_iff _ carries_iff.symm

end Entity

/-- The tables of a schema do for another one, once columns have been added. -/
structure Schema.Carries (s s' : Schema) : Prop where
  entities : ∀ e ∈ s.entities, ∀ e' ∈ s'.entities, e.name = e'.name → e.Carries e'
  links : ∀ spec ∈ s.tables, ∀ spec' ∈ s'.tables, spec.name = spec'.name →
    ¬spec.counted → spec = spec'

theorem Schema.carries_iff {s s' : Schema} : s.Carries s' ↔
    (∀ e ∈ s.entities, ∀ e' ∈ s'.entities, e.name = e'.name → e.Carries e') ∧
      ∀ spec ∈ s.tables, ∀ spec' ∈ s'.tables, spec.name = spec'.name →
      ¬spec.counted → spec = spec' :=
  ⟨fun h ↦ ⟨h.entities, h.links⟩, fun h ↦ ⟨h.1, h.2⟩⟩

instance (s s' : Schema) : Decidable (s.Carries s') :=
  decidable_of_iff _ Schema.carries_iff.symm

/-! ### What a schema asks for -/

namespace Mapping

variable {s : Schema} {e : Entity} {spec : TableSpec} {c d : ColumnSpec}

theorem mem_foreignKeys {key : ForeignKey} : key ∈ c.foreignKeys ↔ key.column = c.name ∧
    c.references = some key.target := by
  obtain ⟨column, target⟩ := key
  unfold ColumnSpec.foreignKeys
  rw [Option.mem_toList, Option.map_eq_some_iff]
  constructor
  · rintro ⟨_, hreferences, heq⟩
    obtain ⟨rfl, rfl⟩ := ForeignKey.mk.inj heq
    exact ⟨rfl, hreferences⟩
  · rintro ⟨rfl, hreferences⟩
    exact ⟨target, hreferences, rfl⟩

/-- Of the columns of an entity the one for its owner alone leads to rows. It is required. -/
theorem column_cases (hs : s.WellFormed) (he : e ∈ s.entities) (hc : c ∈ columns e) :
    c.name ≠ parentName ∧ c.references = none ∨ c.name = parentName ∧ c.required := by
  rcases List.mem_append.mp hc with hc | hc <;> obtain ⟨p, hp, hc⟩ := List.mem_filterMap.mp hc
  · unfold ownColumn at hc
    split at hc
    · next f hkind =>
      split at hc
      · cases hc
      · next hid =>
        cases hc
        have hfalse : sameName p.name parentName = false :=
          sameName_of_isName (isName_of_field hs he hp hkind hid) rfl
        refine .inl ⟨fun hname ↦ ?_, rfl⟩
        rw [show p.name = parentName from hname, Table.sameName_refl] at hfalse
        cases hfalse
    · cases hc
  · unfold parentColumn at hc
    split at hc
    · split at hc
      · cases hc
        exact .inr ⟨rfl, rfl⟩
      · cases hc
    · cases hc

/-- Where one column alone leads to rows, its foreign key is the only one. -/
theorem flatMap_foreignKeys {cs : List ColumnSpec}
    (hdistinct : cs.Pairwise fun c d ↦ sameName c.name d.name = false)
    (h : ∀ c ∈ cs, c.name ≠ parentName → c.references = none) :
    cs.flatMap ColumnSpec.foreignKeys =
      ((cs.find? (·.name == parentName)).map ColumnSpec.foreignKeys).getD [] := by
  have hnone {c : ColumnSpec} (h : c.references = none) : c.foreignKeys = [] := by
    unfold ColumnSpec.foreignKeys
    rw [h]
    rfl
  induction cs with
  | nil => rfl
  | cons c cs ih =>
    obtain ⟨hfirst, hrest⟩ := List.pairwise_cons.mp hdistinct
    obtain ⟨hc, hcs⟩ := List.forall_mem_cons.mp h
    rw [List.flatMap_cons, List.find?_cons]
    by_cases hname : c.name = parentName
    · have hempty : cs.flatMap ColumnSpec.foreignKeys = [] := by
        refine List.flatMap_eq_nil_iff.mpr fun d hd ↦ hnone (hcs d hd fun hname' ↦ ?_)
        have hfalse := hfirst d hd
        rw [hname, hname', Table.sameName_refl] at hfalse
        cases hfalse
      rw [hempty, beq_iff_eq.mpr hname, List.append_nil]
      rfl
    · rw [hnone (hc hname), beq_false_of_ne hname, List.nil_append]
      exact ih hrest hcs

theorem eq_of_sameName {cs : List ColumnSpec}
    (hdistinct : cs.Pairwise fun c d ↦ sameName c.name d.name = false)
    (hc : c ∈ cs) (hd : d ∈ cs) (hname : sameName c.name d.name) : c = d := by
  refine List.Pairwise.forall_of_forall_of_flip (R := fun c d ↦ sameName c.name d.name →
      c = d) (fun _ _ _ ↦ rfl)
    (hdistinct.imp fun hne heq ↦ ?_) (hdistinct.imp fun hne heq ↦ ?_) hc hd hname
  · rw [hne] at heq
    cases heq
  · rw [sameName_comm, hne] at heq
    cases heq

theorem mem_unique_entityTable {names : List String} :
    names ∈ (entityTable e).table.unique ↔ ∃ c ∈ columns e, c.unique ∧ names = [c.name] := by
  simp only [TableSpec.table, TableSpec.constraints, entityTable, List.mem_reverse,
    List.isEmpty_nil, if_true, List.append_nil, List.mem_map, List.mem_filter, and_assoc, eq_comm]

theorem linkTable_constraints {entity : String} {p : Property}
    (h : linkTable entity p = some spec) :
    ∀ names ∈ spec.constraints, ∀ name ∈ names, name ∈ spec.columns.map ColumnSpec.name := by
  unfold linkTable at h
  split at h
  · split at h
    · cases h
      refine List.forall_mem_append.mpr ⟨List.forall_mem_singleton.mpr fun name hname ↦ hname,
        fun names hnames ↦ ?_⟩
      have hsingle : names ∈ [[targetColumn]] := (List.mem_ite_nil_right.mp hnames).2
      rw [List.mem_singleton.mp hsingle]
      exact List.forall_mem_singleton.mpr (List.mem_cons_of_mem _ List.mem_cons_self)
    · cases h
  · cases h

/-- The constraints of a table are over its columns. -/
theorem mem_constraints (hspec : spec ∈ s.tables) {names : List String}
    (hnames : names ∈ spec.constraints) {name : String} (hname : name ∈ names) :
    ∃ c ∈ spec.columns, c.name = name := by
  obtain ⟨e, -, rfl | ⟨p, -, hlink, -⟩⟩ := Schema.tables_cases hspec
  · obtain ⟨c, hc, -, rfl⟩ := mem_unique_entityTable.mp (List.mem_reverse.mpr hnames)
    exact ⟨c, hc, (List.mem_singleton.mp hname).symm⟩
  · exact List.mem_map.mp (linkTable_constraints hlink names hnames name hname)

/-- The foreign keys of a table are of columns that name rows. -/
theorem isKey_of_references (hs : s.WellFormed) (hspec : spec ∈ s.tables) (hc : c ∈ spec.columns)
    (hreferences : c.references.isSome) : isKey c.name := by
  obtain ⟨e, he, rfl | ⟨p, -, hlink, -⟩⟩ := Schema.tables_cases hspec
  · rcases column_cases hs he hc with ⟨-, hnone⟩ | ⟨hname, -⟩
    · rw [hnone] at hreferences
      cases hreferences
    · rw [hname]
      decide
  · obtain ⟨target, unique, -, rfl⟩ := linkTable_eq_some hlink
    rcases List.mem_cons.mp hc with rfl | hc
    · exact (by decide : isKey ownerColumn)
    · rw [List.mem_singleton.mp hc]
      exact (by decide : isKey targetColumn)

end Mapping

/-- Tables of two schemas with the same name are for the rows of entities of this name, or both for
links. -/
theorem Schema.Beside.cases {s s' : Schema} (h : s.Beside s') {spec spec' : TableSpec}
    (hspec : spec ∈ s.tables) (hspec' : spec' ∈ s'.tables) (hname : sameName spec.name spec'.name) :
    (∃ e ∈ s.entities, ∃ e' ∈ s'.entities, spec = entityTable e ∧
        spec' = entityTable e' ∧ e.name = e'.name) ∨
      spec.name = spec'.name ∧ ¬spec.counted := by
  obtain ⟨e, he, rfl | ⟨p, -, hlink, hkey⟩⟩ := tables_cases hspec <;>
    obtain ⟨e', he', rfl | ⟨p', -, hlink', hkey'⟩⟩ := tables_cases hspec'
  · exact .inl ⟨e, he, e', he', rfl, rfl,
      congrArg Prod.fst (h.across _ (entityKey_mem he) _ (entityKey_mem he') hname)⟩
  · rw [linkTable_name hlink'] at hname
    cases congrArg Prod.snd (h.across _ (entityKey_mem he) _ hkey' hname)
  · rw [linkTable_name hlink] at hname
    cases congrArg Prod.snd (h.across _ hkey _ (entityKey_mem he') hname)
  · have hnames := hname
    rw [linkTable_name hlink, linkTable_name hlink'] at hnames
    obtain ⟨hentity, hrelation⟩ := Prod.mk.inj (h.across _ hkey _ hkey' hnames)
    obtain ⟨_, _, -, rfl⟩ := linkTable_eq_some hlink
    obtain ⟨_, _, -, rfl⟩ := linkTable_eq_some hlink'
    exact .inr ⟨congrArg₂ linkTableName hentity (Option.some.inj hrelation), Bool.false_ne_true⟩

/-- The table that is asked for, with further columns. -/
def TableSpec.extended (spec : TableSpec) (added : List ColumnSpec) : Table :=
  { spec.table with
    columns := (spec.columns ++ added).map ColumnSpec.column
    foreign := (spec.columns ++ added).flatMap ColumnSpec.foreignKeys }

theorem TableSpec.extended_nil (spec : TableSpec) : spec.extended [] = spec.table := by
  unfold extended
  rw [List.append_nil]
  rfl

/-- A table in a store of two schemas, as the second asks for it, or as the first does but with
columns that the second has added to it. -/
inductive Table.Grafted (s s' : Schema) : Table → Prop
  | asked {spec : TableSpec} (hspec : spec ∈ s'.tables) : Grafted s s' spec.table
  | extended {spec : TableSpec} {added : List ColumnSpec} (hspec : spec ∈ s.tables)
      (hadded : ∀ d ∈ added, ∃ e' ∈ s'.entities, e'.name = spec.name ∧
        ∃ c ∈ Mapping.columns e', d = addedColumn c) :
      Grafted s s' (spec.extended added)

theorem Table.Grafted.empty {s s' : Schema} {u : Table} (h : u.Grafted s s') :
    u.rows = [] ∧ u.last = 0 := by
  cases h <;> exact ⟨rfl, rfl⟩

/-- A table that a schema asks for mirrors itself. -/
theorem Table.mirrored_self {s : Schema} (hs : s.WellFormed) {spec : TableSpec}
    (hspec : spec ∈ s.tables) {A : String → Prop} : Table.Mirrored A spec.table spec.table where
  name := rfl
  rowColumn := rfl
  foreign := rfl
  keys key hkey := by
    obtain ⟨c, hc, hkey⟩ := List.mem_flatMap.mp hkey
    obtain ⟨hname, hreferences⟩ := mem_foreignKeys.mp hkey
    rw [hname]
    exact ⟨isKey_of_references hs hspec hc (hreferences ▸ rfl), c.column,
      List.mem_map_of_mem hc, rfl⟩
  column c hc := ⟨c, hc, rfl, id, .inl, fun _ ↦ rfl⟩
  other d hd := .inl ⟨d, hd, rfl⟩
  named names hnames name hname := by
    obtain ⟨c, hc, rfl⟩ := mem_constraints hspec (List.mem_reverse.mp hnames) hname
    exact ⟨c.column, List.mem_map_of_mem hc, rfl⟩
  kept _ h := h
  unique _ h := .inl h

namespace Entity

/-- The columns of an entity, and those that have been added to them for the entity of the same name
in another schema. -/
structure Completed (e e' : Entity) (added : List ColumnSpec) : Prop where
  covers : ∀ c ∈ columns e', ∃ d ∈ columns e ++ added, d.name = c.name
  lacking : ∀ d ∈ added, ∃ c ∈ columns e', d = addedColumn c
  distinct : (columns e ++ added).Pairwise fun c d ↦ sameName c.name d.name = false
  asked : (columns e').Pairwise fun c d ↦ sameName c.name d.name = false

namespace Completed

variable {s s' : Schema} {e e' : Entity} {added : List ColumnSpec} {c d : ColumnSpec}
  (h : e.Completed e' added)

include h

theorem standing_mem (hc : c ∈ columns e') :
    e.standing c ∈ columns e ++ added ∧ (e.standing c).name = c.name ∧
    (e.standing c ∈ columns e ∨ e.standing c = addedColumn c) := by
  unfold standing
  cases hfind : (columns e).find? (·.name == c.name) with
  | some d =>
    have hd := List.mem_of_find?_eq_some hfind
    exact ⟨List.mem_append_left _ hd, eq_of_beq (List.find?_some hfind :), .inl hd⟩
  | none =>
    refine ⟨?_, rfl, .inr rfl⟩
    obtain ⟨d, hd, hname⟩ := h.covers c hc
    rcases List.mem_append.mp hd with hd | hd
    · exact absurd (beq_iff_eq.mpr hname) (List.find?_eq_none.mp hfind d hd)
    · obtain ⟨c', hc', rfl⟩ := h.lacking d hd
      have hname : c'.name = c.name := hname
      obtain rfl := eq_of_sameName h.asked hc' hc (hname ▸ Table.sameName_refl c'.name)
      exact List.mem_append_right _ hd

theorem eq_standing (hd : d ∈ columns e ++ added) (hc : c ∈ columns e') (hname : c.name = d.name) :
    d = e.standing c := by
  obtain ⟨hmem, hstanding, -⟩ := h.standing_mem hc
  refine eq_of_sameName h.distinct hd hmem ?_
  rw [hstanding, hname]
  exact Table.sameName_refl _

/-- A column of the table either stands where one is asked for, or is an old one that nothing asks
for. -/
theorem cases (hd : d ∈ columns e ++ added) :
    (∃ c ∈ columns e', c.name = d.name ∧ d = e.standing c) ∨
    d ∈ columns e ∧ ∀ c ∈ columns e', sameName c.name d.name = false := by
  by_cases hasked : ∃ c ∈ columns e', c.name = d.name
  · obtain ⟨c, hc, hname⟩ := hasked
    exact .inl ⟨c, hc, hname, h.eq_standing hd hc hname⟩
  · rcases List.mem_append.mp hd with hown | hadded
    · refine .inr ⟨hown, fun c hc ↦ Bool.eq_false_iff.mpr fun hsame ↦ hasked ⟨c, hc, ?_⟩⟩
      obtain ⟨hmem, hname, -⟩ := h.standing_mem hc
      rw [← hname] at hsame ⊢
      exact congrArg ColumnSpec.name (eq_of_sameName h.distinct hmem hd hsame)
    · obtain ⟨c, hc, rfl⟩ := h.lacking d hadded
      exact absurd ⟨c, hc, rfl⟩ hasked

theorem foreign_eq (hs : s.WellFormed) (hs' : s'.WellFormed) (he : e ∈ s.entities)
    (he' : e' ∈ s'.entities) (hcarries : e.Carries e') :
    (columns e ++ added).flatMap ColumnSpec.foreignKeys =
      (columns e').flatMap ColumnSpec.foreignKeys := by
  have hfree {s : Schema} (hs : s.WellFormed) {e : Entity} (he : e ∈ s.entities) :
      ∀ c ∈ columns e, c.name ≠ parentName → c.references = none := by
    intro c hc hname
    rcases column_cases hs he hc with ⟨-, hnone⟩ | ⟨hparent, -⟩
    · exact hnone
    · exact absurd hparent hname
  have hadded : ∀ d ∈ added, d.name ≠ parentName → d.references = none := by
    intro d hd hname
    obtain ⟨c, hc, rfl⟩ := h.lacking d hd
    exact hfree hs' he' c hc hname
  rw [flatMap_foreignKeys h.distinct (List.forall_mem_append.mpr ⟨hfree hs he, hadded⟩),
    flatMap_foreignKeys h.asked (hfree hs' he')]
  cases hfind : (columns e').find? (·.name == parentName) with
  | some c =>
    have hc := List.mem_of_find?_eq_some hfind
    have hname : c.name = parentName := eq_of_beq (List.find?_some hfind :)
    obtain ⟨hmem, hstanding, -⟩ := h.standing_mem hc
    have hfind' : (columns e ++ added).find? (·.name == parentName) = some (e.standing c) := by
      cases hfind' : (columns e ++ added).find? (·.name == parentName) with
      | none =>
        exact absurd (beq_iff_eq.mpr (hstanding.trans hname)) (List.find?_eq_none.mp hfind' _ hmem)
      | some d =>
        have hd : d.name = parentName := eq_of_beq (List.find?_some hfind' :)
        rw [h.eq_standing (List.mem_of_find?_eq_some hfind') hc (hname.trans hd.symm)]
    rw [hfind', Option.map_some, Option.map_some]
    unfold ColumnSpec.foreignKeys
    rw [hstanding, (hcarries.column c hc).references]
  | none =>
    have hnone : ∀ c ∈ columns e', c.name ≠ parentName := fun c hc hname ↦
      List.find?_eq_none.mp hfind c hc (beq_iff_eq.mpr hname)
    have hfind' : (columns e ++ added).find? (·.name == parentName) = none := by
      refine List.find?_eq_none.mpr fun d hd hname ↦ ?_
      have hname : d.name = parentName := eq_of_beq hname
      rcases List.mem_append.mp hd with hd | hd
      · obtain ⟨c, hc, hsame⟩ := hcarries.dropped d hd <| by
          rcases column_cases hs he hd with ⟨hother, -⟩ | ⟨-, hrequired⟩
          · exact absurd hname hother
          · exact hrequired
        exact hnone c hc (hsame.trans hname)
      · obtain ⟨c, hc, rfl⟩ := h.lacking d hd
        exact hnone c hc hname
    rw [hfind']

/-- The completed table of an entity takes and refuses what the table does that is asked for. -/
theorem mirrored (hs : s.WellFormed) (hs' : s'.WellFormed) (he : e ∈ s.entities)
    (he' : e' ∈ s'.entities) (hname : e.name = e'.name) (hcarries : e.Carries e') :
    Table.Mirrored (s'.Assures e'.name) (entityTable e').table
      ((entityTable e).extended added) := by
  have hself := Table.mirrored_self (A := s'.Assures e'.name) hs' (Schema.entityTable_mem he')
  have hplain : ∀ d ∈ columns e ++ added, d.Plain := by
    refine List.forall_mem_append.mpr ⟨plain_columns hs he, fun d hd ↦ ?_⟩
    obtain ⟨c, hc, rfl⟩ := h.lacking d hd
    exact ⟨(plain_columns hs' he' c hc).other, (plain_columns hs' he' c hc).integer⟩
  have hnew {d : ColumnSpec} (hd : d ∈ columns e ++ added)
      (hother : ∀ c ∈ columns e', sameName c.name d.name = false) :
      (entityTable e').table.hasColumn d.name = false := by
    refine Bool.or_eq_false_iff.mpr ⟨sameName_comm.trans (hplain d hd).other, ?_⟩
    refine Option.isSome_eq_false_iff.mpr
      (Option.isNone_iff_eq_none.mpr (List.find?_eq_none.mpr fun c hc ↦ ?_))
    obtain ⟨spec, hspec, rfl⟩ := List.mem_map.mp hc
    exact Bool.eq_false_iff.mp (hother spec hspec)
  refine ⟨hname, rfl, h.foreign_eq hs hs' he he' hcarries, hself.keys, fun _ hcolumn ↦ ?_,
    fun _ hcolumn ↦ ?_, hself.named, fun names hnames ↦ ?_, fun names hnames ↦ ?_⟩
  · obtain ⟨c, hc, rfl⟩ := List.mem_map.mp hcolumn
    obtain ⟨hmem, hstanding, -⟩ := h.standing_mem hc
    have hdoes := hcarries.column c hc
    refine ⟨(e.standing c).column, List.mem_map_of_mem hmem, hstanding, hdoes.less,
      fun hrequired ↦ ?_, ?_⟩
    · refine (hdoes.more hrequired).imp_right fun hassures ↦ ⟨e', he', rfl, ?_⟩
      obtain ⟨p, hp, hassured⟩ := List.any_eq_true.mp hassures
      obtain ⟨hpname, hassured⟩ := Bool.and_eq_true_iff.mp hassured
      exact ⟨p, hp, eq_of_beq hpname, hassured⟩
    · rintro (hkey | ⟨names, hnames, hin⟩)
      · exact ((hplain _ hmem).integer (hstanding ▸ hkey)).trans
          ((plain_columns hs' he' c hc).integer hkey).symm
      · obtain ⟨c', hc', hunique, rfl⟩ := mem_unique_entityTable.mp hnames
        have hsame : sameName c.name c'.name :=
          List.mem_singleton.mp hin ▸ Table.sameName_refl c.name
        obtain rfl := eq_of_sameName h.asked hc hc' hsame
        exact hdoes.affinity hunique
  · obtain ⟨d, hd, rfl⟩ := List.mem_map.mp hcolumn
    rcases h.cases hd with ⟨c, hc, hsame, -⟩ | ⟨hown, hother⟩
    · exact .inl ⟨c.column, List.mem_map_of_mem hc, hsame⟩
    · refine .inr ⟨Bool.eq_false_iff.mpr fun hrequired ↦ ?_, hnew hd hother⟩
      obtain ⟨c, hc, hsame⟩ := hcarries.dropped d hown hrequired
      have hfalse := hother c hc
      rw [hsame, Table.sameName_refl] at hfalse
      cases hfalse
  · obtain ⟨c, hc, hunique, rfl⟩ := mem_unique_entityTable.mp hnames
    obtain ⟨-, hstanding, hown | hadded⟩ := h.standing_mem hc
    · exact mem_unique_entityTable.mpr ⟨_, hown, (hcarries.column c hc).unique.trans hunique, by
        rw [hstanding]⟩
    · have hsame := (hcarries.column c hc).unique
      rw [hadded, hunique] at hsame
      cases hsame
  · obtain ⟨d, hd, hunique, rfl⟩ := mem_unique_entityTable.mp hnames
    have hmem := List.mem_append_left added hd
    rcases h.cases hmem with ⟨c, hc, hsame, rfl⟩ | ⟨-, hother⟩
    · exact .inl
        (mem_unique_entityTable.mpr ⟨c, hc, (hcarries.column c hc).unique ▸ hunique, by rw [hsame]⟩)
    · exact .inr ⟨d.name, List.mem_singleton_self _, hnew hmem hother⟩

end Completed

end Entity

/-! ### Stores -/

namespace Store

variable {s s' : Schema} {store store' : Store} {d : Definition}
  {u v w x : Session} {enforced : Bool}

/-- What the second schema makes of the tables. -/
theorem grafted_define (hbeside : s.Beside s') (hd : d.Asked s')
    (h : ∀ u ∈ store.tables, u.Grafted s s') (hdefine : store.define d = .ok store') :
    ∀ u ∈ store'.tables, u.Grafted s s' := by
  cases hd with
  | table hspec =>
    rcases define_cases hdefine with ⟨_, ⟨⟩, ⟨-, rfl⟩ | ⟨-, rfl⟩⟩ | ⟨_, _, _, _, ⟨⟩, -⟩
    · exact h
    · exact List.forall_mem_append.mpr ⟨h, List.forall_mem_singleton.mpr (.asked hspec)⟩
  | @column e c he hc =>
    rcases define_cases hdefine with ⟨_, ⟨⟩, -⟩ | ⟨_, _, t, t', ⟨⟩, ht, hadd, rfl⟩
    obtain ⟨hnew, rfl⟩ := Table.addColumn_eq_ok.mp hadd
    have hsame := sameName_of_table? ht
    refine forall_setTable h ?_
    cases h t (List.mem_of_find?_eq_some ht) with
    | @asked spec hspec =>
      -- the table has the column
      obtain rfl : spec = entityTable e := by
        by_contra hne
        have hfalse := sameName_eq_false hbeside.right hspec (Schema.entityTable_mem he) hne
        rw [show sameName spec.name (entityTable e).name from hsame] at hfalse
        cases hfalse
      have hhas : (entityTable e).table.hasColumn c.name := 
        Table.hasColumn_of_mem (c := c.column) (List.mem_map_of_mem hc)
      exact absurd hhas (Bool.eq_false_iff.mp hnew)
    | @extended spec added hspec hadded =>
      have hname : e.name = spec.name := by
        rcases hbeside.cases hspec (Schema.entityTable_mem he) hsame with
          ⟨_, -, _, -, rfl, heq, hname⟩ | ⟨hname, -⟩
        · exact (congrArg TableSpec.name heq).trans hname.symm
        · exact hname.symm
      have hmore : (spec.extended (added ++ [addedColumn c])).Grafted s s' := .extended hspec <|
        List.forall_mem_append.mpr ⟨hadded,
          List.forall_mem_singleton.mpr ⟨e, he, hname, c, hc, rfl⟩⟩
      unfold TableSpec.extended at hmore ⊢
      rw [← List.append_assoc, List.map_append, List.flatMap_append,
        List.flatMap_singleton] at hmore
      exact hmore

theorem Shaped.counted (hs : s.WellFormed) (h : store.Shaped s) : store.Counted := by
  intro t ht key hkey
  obtain ⟨spec, hspec, hshapes⟩ := List.forall₂_exists_right h.tables _ ht
  rw [hshapes] at hkey
  obtain ⟨c, hc, hkey⟩ := List.mem_flatMap.mp hkey
  obtain ⟨d, hd, hname⟩ := Schema.target_of_foreign hs hspec hc hkey
  obtain ⟨u, hu, hcounted, -⟩ := h.entityTable? hd
  refine ⟨u, hname ▸ hu, ?_⟩
  rw [hcounted.rowColumn_eq]
  rfl

section

variable (hs : s.WellFormed) (hs' : s'.WellFormed) (hbeside : s.Beside s') (hcarries : s.Carries s')
  (hempty : u.store = .empty enforced) (hfirst : (bootstrap s).run u = (.ok (), v))
  (hmigrated : (bootstrap s').run v = (.ok (), w)) (hfresh : (bootstrap s').run u = (.ok (), x))

/-- What is known of a store in which two schemas have created their tables. -/
structure Migrated (s s' : Schema) (enforced : Bool) (b : Store) : Prop where
  sound : b.Sound
  named : b.Named
  enforced : b.enforced = enforced
  grafted : ∀ u ∈ b.tables, u.Grafted s s'
  covers : ∀ e ∈ s'.entities, b.Covers e
  there : ∀ spec ∈ s'.tables, (b.table? spec.name).isSome

omit hcarries hfresh in
include hs hs' hbeside hempty hfirst hmigrated in
theorem migrated_of_bootstrap : Migrated s s' enforced w.store := by
  have hsound : v.store.Sound := by
    have hkept := sound_keptByDefinitions.bootstrap hs u (show u.store.Sound by
      rw [hempty]; exact sound_empty enforced)
    rw [hfirst] at hkept
    exact hkept.1
  have hsound' : w.store.Sound := by
    have hkept := sound_keptByDefinitions.bootstrap hs' v hsound
    rw [hmigrated] at hkept
    exact hkept.1
  have hnew := bootstrap_ok hbeside.left (by rw [hempty]; rfl) hfirst
  have hgrafted : ∀ t ∈ v.store.tables, t.Grafted s s' := by
    rw [hnew.tables]
    intro t ht
    obtain ⟨spec, hspec, rfl⟩ := List.mem_map.mp ht
    exact spec.extended_nil ▸ .extended hspec (List.forall_mem_nil _)
  have hnamed : v.store.Named :=
    bootstrap_kept (fun _ _ _ _ hstore hdefine ↦ hstore.define hdefine)
      (by rw [hempty]; exact List.forall_mem_nil _) hfirst
  have henforced : v.store.enforced = enforced :=
    bootstrap_kept (P := fun store ↦ store.enforced = enforced)
      (fun _ _ _ _ hstore hdefine ↦ (define_enforced hdefine).trans hstore)
        (by rw [hempty]; rfl) hfirst
  exact ⟨hsound',
    bootstrap_kept (fun _ _ _ _ hstore hdefine ↦ hstore.define hdefine) hnamed hmigrated,
    bootstrap_kept (P := fun store ↦ store.enforced = enforced)
      (fun _ _ _ _ hstore hdefine ↦ (define_enforced hdefine).trans hstore) henforced hmigrated,
    bootstrap_kept (fun _ hd _ _ hstore hdefine ↦ grafted_define hbeside hd hstore hdefine)
      hgrafted hmigrated,
    bootstrap_covers hs' hsound hmigrated, isSome_of_bootstrap hmigrated⟩

end

namespace Migrated

variable {b : Store} {spec : TableSpec} (h : b.Migrated s s' enforced) (hs : s.WellFormed)
  (hs' : s'.WellFormed) (hbeside : s.Beside s') (hcarries : s.Carries s')
  (hapart : ∀ spec ∈ s'.tables, Table.Distinct spec.table.columns)

include h hs hs' hbeside hcarries hapart

/-- The tables that the second schema asks for are there, with what does for their columns. -/
theorem mirrors (hspec : spec ∈ s'.tables) :
    ∃ t, b.table? spec.name = some t ∧ Table.Mirrors (s'.Assures spec.name) spec.table t := by
  obtain ⟨t, ht⟩ := Option.isSome_iff_exists.mp (h.there spec hspec)
  have hmem := List.mem_of_find?_eq_some ht
  have hsame := sameName_of_table? ht
  have hgrafted := h.grafted t hmem
  obtain ⟨hrows, hlast⟩ := hgrafted.empty
  refine ⟨t, ht, ?_, hlast, hrows ▸ .nil⟩
  cases hgrafted with
  | @asked spec₀ hspec₀ =>
    obtain rfl : spec₀ = spec := by
      by_contra hne
      have hfalse := sameName_eq_false hbeside.right hspec₀ hspec hne
      rw [show sameName spec₀.name spec.name from hsame] at hfalse
      cases hfalse
    exact Table.mirrored_self hs' hspec
  | @extended spec₀ added hspec₀ hadded =>
    rcases hbeside.cases hspec₀ hspec hsame with ⟨e, he, e', he', rfl, rfl, hname⟩ | ⟨hname, hlinks⟩
    · have hcompleted : e.Completed e' added := by
        refine ⟨fun c hc ↦ ?_, fun d hd ↦ ?_, List.pairwise_map.mp (h.sound.distinct _ hmem),
          List.pairwise_map.mp (hapart _ hspec)⟩
        · obtain ⟨t', ht', _, hin, hcolumn⟩ := (h.covers e' he').column c hc
          obtain rfl := Option.some.inj (ht.symm.trans ht')
          obtain ⟨d, hd, rfl⟩ := List.mem_map.mp hin
          exact ⟨d, hd, hcolumn⟩
        · obtain ⟨e'', he'', hname', c, hc, rfl⟩ := hadded d hd
          obtain rfl := hs'.indexed.eq_of_name_eq he'' he' (hname'.trans hname)
          exact ⟨c, hc, rfl⟩
      exact hcompleted.mirrored hs hs' he he' hname (hcarries.entities e he e' he' hname)
    · -- the entities of the second schema have no tables of links
      obtain rfl := hcarries.links spec₀ hspec₀ spec hspec hname hlinks
      obtain rfl : added = [] := by
        refine List.eq_nil_iff_forall_not_mem.mpr fun d hd ↦ ?_
        obtain ⟨e, he, hentity, -⟩ := hadded d hd
        exact hlinks (hbeside.right.counted hspec he (hentity ▸ Table.sameName_refl e.name))
      rw [TableSpec.extended_nil]
      exact Table.mirrored_self hs' hspec

end Migrated

/-- A store of the one schema alone is reflected by a store of both. -/
theorem New.reflects {a b : Store} (ha : a.New s'.tables) (hkeyed : a.Keyed)
    (henforced : a.enforced = enforced) (hb : b.Migrated s s' enforced) (hs : s.WellFormed)
    (hs' : s'.WellFormed) (hbeside : s.Beside s') (hcarries : s.Carries s') : a.Reflects s' b := by
  have hshaped : a.Shaped s' := (ha.shows hs' hbeside.right hkeyed).shaped
  have hspec {t : Table} (ht : t ∈ a.tables) : ∃ spec ∈ s'.tables, spec.table = t := by
    rw [ha.tables] at ht
    exact List.mem_map.mp ht
  have hrows : ∀ t ∈ a.tables, t.rows = [] := by
    intro t ht
    obtain ⟨spec, -, rfl⟩ := hspec ht
    rfl
  refine ⟨hshaped, fun t ht r hr ↦ ?_, fun _ t ht key _ r hr ↦ ?_, hshaped.regular hs',
    hshaped.counted hs', fun t ht ↦ ?_, hb.sound.keyed, hb.named, hb.sound.distinct,
    hb.enforced.trans henforced.symm, fun t ht ↦ ?_, fun u hu ↦ .inr (hb.grafted u hu).empty.1⟩
  · rw [hrows t ht] at hr
    cases hr
  · rw [hrows t ht] at hr
    cases hr
  · obtain ⟨spec, hspec, rfl⟩ := hspec ht
    exact ha.columns spec hspec
  · obtain ⟨spec, hspec, rfl⟩ := hspec ht
    exact hb.mirrors hs hs' hbeside hcarries ha.columns hspec

end Store

namespace Mapping

variable {s s' : Schema} {enforced : Bool} {batch : List Instruction} {u v w x : Session}

/-- A store in which two schemas have created their tables, of which the first carries the second,
and a store of the second alone: a batch of the second schema succeeds in both and gives the same
numbers to rows, or it fails in both with errors of the same kind. -/
theorem execute_migrated (hs : s.Reachable) (hs' : s'.Reachable) (hbeside : s.Beside s')
    (hcarries : s.Carries s') (hempty : u.store = .empty enforced)
    (hfirst : (bootstrap s).run u = (.ok (), v)) (hmigrated : (bootstrap s').run v = (.ok (), w))
    (hfresh : (bootstrap s').run u = (.ok (), x)) (hbatch : ∀ i ∈ batch, s'.Compiles i) :
    Except.Both Error.Alike Eq ((execute s' batch).run x).1 ((execute s' batch).run w).1 ∧
      ((execute s' batch).run x).2.slots = ((execute s' batch).run w).2.slots := by
  have hwf := hs.wellFormed
  have hwf' := hs'.wellFormed
  have hkeyed : x.store.Keyed := by
    have hkept :=
      keyed_keptByDefinitions.bootstrap hwf' u (show u.store.Keyed by rw [hempty]; exact nofun)
    rw [hfresh] at hkept
    exact hkept.1
  have henforced : x.store.enforced = enforced :=
    bootstrap_kept (P := fun store ↦ store.enforced = enforced)
      (fun _ _ _ _ hstore hdefine ↦ (Store.define_enforced hdefine).trans hstore)
        (by rw [hempty]; rfl) hfresh
  have hreflects : x.store.Reflects s' w.store :=
    (bootstrap_ok hbeside.right (by rw [hempty]; rfl) hfresh).reflects hkeyed henforced
      (Store.migrated_of_bootstrap hwf hwf' hbeside hempty hfirst hmigrated) hwf
        hwf' hbeside hcarries
  have hslots {s : Schema} {u v : Session} (hrun : (bootstrap s).run u = (.ok (), v)) :
      v.slots = u.slots := by
    obtain ⟨v', hv', -, hslots⟩ := bootstrap_congr rfl hrun
    rw [hrun] at hv'
    exact congrArg Session.slots (congrArg Prod.snd hv') ▸ hslots
  have hsame : x.slots = w.slots :=
    (hslots hfresh).trans ((hslots hmigrated).trans (hslots hfirst)).symm
  have h :=
    execute_together Store.reflects_keeps .refl hwf' hbeside.right hbatch x w ⟨hreflects, hsame⟩
  revert h
  rcases (execute s' batch).run x with ⟨_ | ⟨⟨⟩⟩, x₁⟩ <;>
    rcases (execute s' batch).run w with ⟨_ | ⟨⟨⟩⟩, w₁⟩ <;> intro h
  · exact ⟨.error h.2, h.1.slots⟩
  · exact h.elim
  · exact h.elim
  · exact ⟨.ok rfl, h.1.slots⟩

/-- Persons get a town, and groups of their own. They have friends no longer. -/
def townsCalls : List Schema.Call :=
  friendsCalls ++ [.change, .addProperty "Person" (.field "town" (.ofType .text)),
    .removeProperty "Person" "friend", .addEntity "Group" .detail,
    .addProperty "Person" (.collection "groups" ⟨.owned, "Group"⟩), .commit]

def annTownForm : Language.CreateForm Value :=
  ⟨"Person", [("name", .literal (.text "Ann")), ("town", .literal (.text "Ulm")),
    ("groups", .list [.object []])]⟩

theorem execute_migrated_of_friends : ∃ v w x c,
    (bootstrap (Schema.empty.after friendsCalls)).run (.start true) = (.ok (), v) ∧
    (bootstrap (Schema.empty.after townsCalls)).run v = (.ok (), w) ∧
      (bootstrap (Schema.empty.after townsCalls)).run (.start true) = (.ok (), x) ∧
      (Schema.empty.after townsCalls).compileCreate annTownForm [] .empty = .ok c ∧
      ((execute (Schema.empty.after townsCalls) c.instructions).run x).1 = .ok () ∧
      ((execute (Schema.empty.after townsCalls) c.instructions).run w).1 = .ok () ∧
      ((execute (Schema.empty.after townsCalls) c.instructions).run w).2.slots =
        ((execute (Schema.empty.after townsCalls) c.instructions).run x).2.slots := by
  have hs : (Schema.empty.after friendsCalls).Reachable := ⟨friendsCalls, rfl⟩
  have hs' : (Schema.empty.after townsCalls).Reachable := ⟨townsCalls, rfl⟩
  have hbeside : (Schema.empty.after friendsCalls).Beside (Schema.empty.after townsCalls) := by
    decide +kernel
  have hcarries : (Schema.empty.after friendsCalls).Carries (Schema.empty.after townsCalls) := by
    decide +kernel
  have hfirst : ((bootstrap (Schema.empty.after friendsCalls)).run (.start true)).1.isOk := by
    decide +kernel
  have hmigrated : ((bootstrap (Schema.empty.after townsCalls)).run
      ((bootstrap (Schema.empty.after friendsCalls)).run (.start true)).2).1.isOk := by
        decide +kernel
  have hfresh : ((bootstrap (Schema.empty.after townsCalls)).run (.start true)).1.isOk := by
    decide +kernel
  have hok :
      ((Schema.empty.after townsCalls).compileCreate annTownForm [] .empty).toOption.any fun c ↦
      ((execute (Schema.empty.after townsCalls) c.instructions).run
        ((bootstrap (Schema.empty.after townsCalls)).run (.start true)).2).1.isOk := by
          decide +kernel
  -- from here on only these facts count, and nothing is computed any more
  generalize Schema.empty.after friendsCalls = s at hs hbeside hcarries hfirst hmigrated ⊢
  generalize Schema.empty.after townsCalls = s' at hs' hbeside hcarries hmigrated hfresh hok ⊢
  obtain ⟨⟨⟩, hfirst⟩ := Except.isOk_iff.mp hfirst
  obtain ⟨⟨⟩, hmigrated⟩ := Except.isOk_iff.mp hmigrated
  obtain ⟨⟨⟩, hfresh⟩ := Except.isOk_iff.mp hfresh
  obtain ⟨c, hc, hrun⟩ := (Option.any_eq_true _ _).mp hok
  obtain ⟨⟨⟩, hrun⟩ := Except.isOk_iff.mp hrun
  have hc := Except.toOption_eq_some_iff.mp hc
  obtain ⟨hboth, hslots⟩ :=
    execute_migrated hs hs' hbeside hcarries rfl (Run.run_eq_ok hfirst) (Run.run_eq_ok hmigrated)
    (Run.run_eq_ok hfresh) fun i hi ↦ .create hc hi
  rw [hrun] at hboth
  refine ⟨_, _, _, c, Run.run_eq_ok hfirst, Run.run_eq_ok hmigrated, Run.run_eq_ok hfresh, hc,
    hrun, ?_, hslots.symm⟩
  generalize ((execute s' c.instructions).run
      ((bootstrap s').run ((bootstrap s).run (.start true)).2).2).1 = outcome at hboth
  cases hboth with
  | ok => rfl

/-- Persons with a name that they have to have, and persons that have none any longer. -/
def namedCalls : List Schema.Call :=
  [.addEntity "Person" .master, .addProperty "Person" (.field "name" (.ofType .text)), .commit]

def namelessCalls : List Schema.Call :=
  namedCalls ++ [.change, .removeProperty "Person" "name", .commit]

/-- The column of a property that a schema no longer has stays required: no person can be created in
the store that has had names, though one can in a store that has not. -/
theorem required_column_stays : ∃ v w x c e,
    (Schema.empty.after namedCalls).Beside (Schema.empty.after namelessCalls) ∧
      (bootstrap (Schema.empty.after namedCalls)).run (.start true) = (.ok (), v) ∧
      (bootstrap (Schema.empty.after namelessCalls)).run v = (.ok (), w) ∧
      (bootstrap (Schema.empty.after namelessCalls)).run (.start true) = (.ok (), x) ∧
      (Schema.empty.after namelessCalls).compileCreate ⟨"Person", []⟩ [] .empty = .ok c ∧
      ((execute (Schema.empty.after namelessCalls) c.instructions).run x).1 = .ok () ∧
      ((execute (Schema.empty.after namelessCalls) c.instructions).run w).1 = .error e := by
  have hbeside : (Schema.empty.after namedCalls).Beside (Schema.empty.after namelessCalls) := by
    decide +kernel
  have hfirst : ((bootstrap (Schema.empty.after namedCalls)).run (.start true)).1.isOk := by
    decide +kernel
  have hmigrated : ((bootstrap (Schema.empty.after namelessCalls)).run
      ((bootstrap (Schema.empty.after namedCalls)).run (.start true)).2).1.isOk := by decide +kernel
  have hfresh : ((bootstrap (Schema.empty.after namelessCalls)).run (.start true)).1.isOk := by
    decide +kernel
  have hok :
      ((Schema.empty.after namelessCalls).compileCreate ⟨"Person",
        []⟩ [] .empty).toOption.any fun c ↦
      ((execute (Schema.empty.after namelessCalls) c.instructions).run
        ((bootstrap (Schema.empty.after namelessCalls)).run (.start true)).2).1.isOk &&
      !((execute (Schema.empty.after namelessCalls) c.instructions).run
        ((bootstrap (Schema.empty.after namelessCalls)).run
          ((bootstrap (Schema.empty.after namedCalls)).run (.start true)).2).2).1.isOk := by
            decide +kernel
  obtain ⟨⟨⟩, hfirst⟩ := Except.isOk_iff.mp hfirst
  obtain ⟨⟨⟩, hmigrated⟩ := Except.isOk_iff.mp hmigrated
  obtain ⟨⟨⟩, hfresh⟩ := Except.isOk_iff.mp hfresh
  obtain ⟨c, hc, hok⟩ := (Option.any_eq_true _ _).mp hok
  obtain ⟨hrun, herror⟩ := Bool.and_eq_true_iff.mp hok
  obtain ⟨⟨⟩, hrun⟩ := Except.isOk_iff.mp hrun
  cases hend : ((execute (Schema.empty.after namelessCalls) c.instructions).run
      ((bootstrap (Schema.empty.after namelessCalls)).run
        ((bootstrap (Schema.empty.after namedCalls)).run (.start true)).2).2).1 with
  | ok =>
    rw [hend] at herror
    cases herror
  | error e =>
    exact ⟨_, _, _, c, e, hbeside, Run.run_eq_ok hfirst, Run.run_eq_ok hmigrated,
      Run.run_eq_ok hfresh, Except.toOption_eq_some_iff.mp hc, hrun, hend⟩

end Mapping

end EntityStore
