import EntityStore.Proofs.Mapping.Keeping
import EntityStore.Proofs.Mapping.Tables
import EntityStore.Proofs.Store.Effects

/-!
What a store holds for a schema, told without tables: the rows of each entity by their numbers, and
for each linked relation and owner the rows linked to. Where the names of the tables differ, a
change of one table shows in one place only.
-/

set_option autoImplicit false

namespace EntityStore

open Mapping

/-- A row: the cells of its fields and the number of its owner. -/
@[ext]
structure Entry where
  value : String → Cell
  parent : Option Int64

/-- The rows of entities by their numbers, and the rows that a relation links to from an owner, in
order. -/
@[ext]
structure Content where
  row : String → Int64 → Option Entry
  links : String → String → Int64 → List Int64

namespace Content

/-- The content with another row, or none, under a number. -/
def putRow (c : Content) (entity : String) (id : Int64) (x : Option Entry) : Content :=
  { c with row := fun d n ↦ if d = entity ∧ n = id then x else c.row d n }

/-- The content with other links of an owner. -/
def putLinks (c : Content) (entity relation : String) (owner : Int64) (targets : List Int64) :
    Content :=
  { c with
    links := fun d r o ↦
      if d = entity ∧ r = relation ∧ o = owner then targets else c.links d r o }

section

variable (c : Content) (entity relation d r : String) (id owner n o : Int64) (x : Option Entry)
  (targets : List Int64)

@[simp] theorem putRow_row :
    (c.putRow entity id x).row d n = if d = entity ∧ n = id then x else c.row d n :=
  rfl

@[simp] theorem putRow_links : (c.putRow entity id x).links = c.links :=
  rfl

@[simp] theorem putLinks_row : (c.putLinks entity relation owner targets).row = c.row :=
  rfl

@[simp] theorem putLinks_links : (c.putLinks entity relation owner targets).links d r o =
    if d = entity ∧ r = relation ∧ o = owner then targets else c.links d r o :=
  rfl

@[simp] theorem putLinks_self : c.putLinks entity relation owner
    (c.links entity relation owner) = c := by
  ext1
  · rfl
  · funext d r o
    rw [putLinks_links]
    split
    · next h =>
      obtain ⟨rfl, rfl, rfl⟩ := h
      rfl
    · rfl

@[simp] theorem putLinks_putLinks (others : List Int64) :
    (c.putLinks entity relation owner targets).putLinks entity relation owner others =
      c.putLinks entity relation owner others := by
  ext1
  · rfl
  · funext d r o
    simp only [putLinks_links]
    split <;> rfl

end

end Content

namespace StoredRow

/-- The row that a column names. -/
def number? (r : StoredRow) (name : String) : Option Int64 :=
  match r.cell name with
  | .integer n => some n
  | _ => none

theorem number?_eq_some_iff {r : StoredRow} {name : String} {n : Int64} :
    r.number? name = some n ↔ r.cell name = .integer n := by
  unfold number?
  cases r.cell name <;> simp

def entry (r : StoredRow) : Entry :=
  ⟨fun name ↦ if name = parentName then .null else r.cell name, r.number? parentName⟩

end StoredRow

/-- The rows that a table of links leads to from an owner. -/
def Table.targets (t : Table) (owner : Int64) : List Int64 :=
  (t.rows.filter fun r ↦ r.number? ownerColumn == some owner).filterMap (·.number? targetColumn)

/-- Whether an entity has links of a relation. -/
def Entity.links (e : Entity) (relation : String) : Bool :=
  (e.get? relation).any Property.isLinked

namespace Store

def content (s : Schema) (store : Store) : Content where
  row entity id :=
    (s.get? entity).bind fun _ ↦ ((store.table? entity).bind (·.row? id)).map StoredRow.entry
  links entity relation owner :=
    if (s.get? entity).any (·.links relation) then
      ((store.table? (linkTableName entity relation)).map (·.targets owner)).getD []
    else []

/-- The greatest number that rows of an entity were given. -/
def top (store : Store) (entity : String) : Int64 :=
  ((store.table? entity).map Table.last).getD 0

end Store

/-! ### The shape of tables -/

/-- The tables of a schema have names of their own; the store takes names for the same that differ
in the case of letters only. -/
def Schema.Distinct (s : Schema) : Prop :=
  s.tables.Pairwise fun a b ↦ sameName a.name b.name = false

instance (s : Schema) : Decidable s.Distinct :=
  inferInstanceAs (Decidable (s.tables.Pairwise _))

/-- A table is as it was asked for, whatever its rows are. -/
def TableSpec.Shapes (spec : TableSpec) (t : Table) : Prop :=
  t = { spec.table with rows := t.rows, last := t.last }

/-- A store has the tables of a schema and no others. The names of these differ. -/
structure Store.Shaped (s : Schema) (store : Store) : Prop where
  distinct : s.Distinct
  tables : List.Forall₂ TableSpec.Shapes s.tables store.tables
  columns : ∀ spec ∈ s.tables, Table.Distinct spec.table.columns
  keyed : store.Keyed

theorem sameName_comm {a b : String} : sameName a b = sameName b a := by
  rw [Bool.eq_iff_iff, sameName_iff, sameName_iff, eq_comm]

namespace TableSpec

variable {spec : TableSpec} {t : Table}

theorem shapes_table (spec : TableSpec) : spec.Shapes spec.table :=
  rfl

theorem Shapes.withRows (h : spec.Shapes t) (rows : List StoredRow) (last : Int64) :
    spec.Shapes { t with rows := rows, last := last } := by
  unfold Shapes
  rw [h]

theorem Shapes.name_eq (h : spec.Shapes t) : t.name = spec.name := by
  rw [h]
  rfl

theorem Shapes.columns_eq (h : spec.Shapes t) : t.columns = spec.table.columns := by
  rw [h]

theorem Shapes.rowColumn_eq (h : spec.Shapes t) : t.rowColumn = spec.table.rowColumn := by
  rw [h]

theorem Shapes.unique_eq (h : spec.Shapes t) : t.unique = spec.table.unique := by
  rw [h]

end TableSpec

/-! ### Entities and relations -/

namespace Mapping

variable {e : Entity} {p q : Property} {spec : TableSpec}

theorem linkTable_eq_some {entity : String} (h : linkTable entity p = some spec) : ∃ target unique,
    p.relation? = some (target, .linked) ∧ spec = ⟨linkTableName entity p.name, false,
      [⟨ownerColumn, .integer, true, false, some entity⟩,
        ⟨targetColumn, .integer, true, false, some target⟩],
      [ownerColumn, targetColumn], unique⟩ := by
  unfold linkTable at h
  split at h
  · next target kind hrelation =>
    split at h
    · next hlinked =>
      obtain rfl : kind = .linked := by
        simpa [Property.isLinked, hrelation] using (Bool.and_eq_true_iff.mp hlinked).1
      exact ⟨target, _, hrelation, (Option.some.inj h).symm⟩
    · cases h
  · cases h

theorem linkTable_isLinked {entity : String} (h : linkTable entity p = some spec) : p.isLinked := by
  unfold linkTable at h
  split at h
  · split at h
    · assumption
    · cases h
  · cases h

theorem linkTableName_inj {entity relation relation' : String}
    (h : linkTableName entity relation = linkTableName entity relation') :
    relation = relation' := by
  have hlist := congrArg String.toList h
  simp only [linkTableName, String.toList_append, ToString.toString] at hlist
  exact String.toList_injective (List.append_cancel_left hlist)

/-- The table of a linked relation tells the entity and the relation. -/
theorem linkTable_inj {entity entity' : String} (h : linkTable entity p = some spec)
    (h' : linkTable entity' q = some spec) : entity = entity' ∧ p.name = q.name := by
  obtain ⟨target, unique, -, rfl⟩ := linkTable_eq_some h
  obtain ⟨target', unique', -, heq⟩ := linkTable_eq_some h'
  obtain ⟨hname, -, hcolumns, -⟩ := TableSpec.mk.inj heq
  obtain rfl : entity = entity' := by
    simpa using congrArg (·.head?.bind ColumnSpec.references) hcolumns
  exact ⟨rfl, linkTableName_inj hname⟩

theorem entityTable_ne_linkTable {entity : String} (h : linkTable entity p = some spec) :
    entityTable e ≠ spec := by
  obtain ⟨target, unique, -, rfl⟩ := linkTable_eq_some h
  exact fun heq ↦ Bool.noConfusion (congrArg TableSpec.counted heq)

end Mapping

theorem Entity.links_eq_true_iff {e : Entity} (he : e.WellFormed) {relation : String} :
    e.links relation ↔ ∃ p ∈ e.properties, p.name = relation ∧ p.isLinked := by
  unfold Entity.links
  rw [Option.any_eq_true]
  simp only [Entity.get?_eq_some_iff he, and_assoc]

/-! ### Stores -/

namespace Store

variable {s : Schema} {store : Store} {spec : TableSpec} {t u : Table}
  {e d : Entity} {p q : Property}

theorem table?_setTable (name : String) :
    (store.setTable t).table? name = (store.table? name).map fun u ↦ if u.name =
      t.name then t else u := by
  have hsame (u : Table) :
      ((fun u ↦ sameName u.name name) ∘ fun u ↦ if u.name = t.name then t else u) u =
      sameName u.name name := by
    by_cases heq : u.name = t.name <;> simp [heq]
  unfold table? setTable
  rw [List.find?_map, funext hsame]

/-- A table that a schema asks for is found under its name. -/
theorem find?_of_forall₂ {specs : List TableSpec} {tables : List Table}
    (h : List.Forall₂ TableSpec.Shapes specs tables)
    (hdistinct : specs.Pairwise fun a b ↦ sameName a.name b.name = false) (hspec : spec ∈ specs) :
    ∃ t, tables.find? (fun t ↦ sameName t.name spec.name) = some t ∧ spec.Shapes t := by
  induction h with
  | nil => cases hspec
  | @cons a u specs tables hshapes _ ih =>
    obtain ⟨ha, hdistinct⟩ := List.pairwise_cons.mp hdistinct
    rcases List.mem_cons.mp hspec with rfl | hspec
    · exact ⟨u, by simp [hshapes.name_eq, Table.sameName_refl], hshapes⟩
    · have hne : sameName u.name spec.name = false := by
        rw [hshapes.name_eq]
        exact ha spec hspec
      obtain ⟨t, ht, htshapes⟩ := ih hdistinct hspec
      exact ⟨t, by rw [List.find?_cons_of_neg (by simp [hne]), ht], htshapes⟩

theorem Shaped.table? (h : store.Shaped s) (hspec : spec ∈ s.tables) :
    ∃ t, store.table? spec.name = some t ∧ spec.Shapes t ∧ t.Keyed := by
  obtain ⟨t, ht, hshapes⟩ := find?_of_forall₂ h.tables h.distinct hspec
  exact ⟨t, ht, hshapes, h.keyed t (List.mem_of_find?_eq_some ht)⟩

/-- A table found under the name of one that is asked for is as it was asked for. -/
theorem Shaped.of_table? (h : store.Shaped s) (hspec : spec ∈ s.tables)
    (ht : store.table? spec.name = some t) :
    spec.Shapes t ∧ t.Keyed := by
  obtain ⟨u, hu, hshapes, hkeyed⟩ := h.table? hspec
  obtain rfl := Option.some.inj (hu.symm.trans ht)
  exact ⟨hshapes, hkeyed⟩

/-- The name tells the tables of a schema apart. -/
theorem spec_eq_of_name_eq (hdistinct : s.Distinct) {a b : TableSpec}
    (ha : a ∈ s.tables) (hb : b ∈ s.tables) (hname : a.name = b.name) : a = b := by
  refine List.Pairwise.forall_of_forall_of_flip (R := fun a b ↦ a.name = b.name →
      a = b) (fun _ _ _ ↦ rfl)
    (hdistinct.imp fun hab heq ↦ ?_) (hdistinct.imp fun hab heq ↦ ?_) ha hb hname
  · rw [heq, Table.sameName_refl] at hab
    cases hab
  · rw [heq, Table.sameName_refl] at hab
    cases hab

/-- A changed table keeps the shape of the store. -/
theorem Shaped.setTable (h : store.Shaped s) (hmem : spec ∈ s.tables) (hspec : spec.Shapes t)
    (hkeyed : t.Keyed) :
    (store.setTable t).Shaped s where
  distinct := h.distinct
  tables := by
    refine List.forall₂_map_right_iff.mpr
      (((List.forall₂_and_left _ _).mpr ⟨fun a ha ↦ ha, h.tables⟩).imp ?_)
    rintro a u ⟨ha, hu⟩
    split
    · next heq =>
      have hname : a.name = spec.name := by rw [← hu.name_eq, heq, hspec.name_eq]
      rwa [spec_eq_of_name_eq h.distinct ha hmem hname]
    · exact hu
  columns := h.columns
  keyed := h.keyed.setTable hkeyed

/-- What is found under a name after a table has changed. -/
theorem Shaped.table?_setTable (h : store.Shaped s) {other : TableSpec} (hmem : spec ∈ s.tables)
    (hspec : spec.Shapes t) (hother : other ∈ s.tables) :
    (store.setTable t).table? other.name = if other = spec then some t else
      store.table? other.name := by
  obtain ⟨u, hu, hshapes, -⟩ := h.table? hother
  rw [Store.table?_setTable, hu, Option.map_some, hshapes.name_eq, hspec.name_eq]
  by_cases heq : other = spec
  · rw [heq, if_pos rfl, if_pos rfl]
  · rw [if_neg fun hname ↦ heq (spec_eq_of_name_eq h.distinct hother hmem hname), if_neg heq]

theorem Shaped.entityTable? (h : store.Shaped s) (he : e ∈ s.entities) :
    ∃ t, store.table? e.name = some t ∧ (entityTable e).Shapes t ∧ t.Keyed :=
  h.table? (Schema.entityTable_mem he)

theorem Shaped.linkTable? (h : store.Shaped s) (he : e ∈ s.entities) (hp : p ∈ e.properties)
    (hlinked : p.isLinked) : ∃ spec t, linkTable e.name p = some spec ∧
      spec.name = linkTableName e.name p.name ∧ store.table? (linkTableName e.name p.name) =
        some t ∧ spec.Shapes t ∧ t.Keyed := by
  obtain ⟨⟨target, hrelation⟩, hparent⟩ := Property.isLinked_iff.mp hlinked
  obtain ⟨unique, hspec⟩ := Schema.linkTable_eq (e := e) hrelation hparent
  obtain ⟨t, ht, hshapes, hkeyed⟩ := h.table? (Schema.linkTable_mem he hp hspec)
  exact ⟨_, t, hspec, rfl, ht, hshapes, hkeyed⟩

/-- The greatest number that rows of an entity were given, after one table has changed. -/
theorem Shaped.top_setTable (h : store.Shaped s) (hmem : spec ∈ s.tables) (hnew : spec.Shapes t)
    (hd : d ∈ s.entities) :
    (store.setTable t).top d.name = if entityTable d = spec then t.last else store.top d.name := by
  have hfound := h.table?_setTable hmem hnew (Schema.entityTable_mem hd)
  change (store.setTable t).table? d.name = if entityTable d = spec then some t else
    store.table? d.name at hfound
  unfold top
  rw [hfound]
  split <;> rfl

theorem Shaped.top_setTable_last (h : store.Shaped s) (he : e ∈ s.entities)
    (hold : store.table? e.name = some u) (hnew : (entityTable e).Shapes t)
    (hlast : t.last = u.last) (hd : d ∈ s.entities) :
    (store.setTable t).top d.name = store.top d.name := by
  rw [h.top_setTable (Schema.entityTable_mem he) hnew hd]
  split
  · next heq =>
    have hname : d.name = e.name := congrArg TableSpec.name heq
    unfold top
    rw [hname, hold, hlast]
    rfl
  · rfl

theorem content_row (hs : s.WellFormed) (he : e ∈ s.entities)
    (ht : store.table? e.name = some t) (id : Int64) :
    (store.content s).row e.name id = (t.row? id).map StoredRow.entry := by
  unfold content
  dsimp only
  rw [(Schema.get?_eq_some_iff hs).mpr ⟨he, rfl⟩, ht]
  rfl

theorem content_links (hs : s.WellFormed) (he : e ∈ s.entities) (hp : p ∈ e.properties)
    (hlinked : p.isLinked) (ht : store.table? (linkTableName e.name p.name) = some t)
    (owner : Int64) :
    (store.content s).links e.name p.name owner = t.targets owner := by
  unfold content
  dsimp only
  rw [(Schema.get?_eq_some_iff hs).mpr ⟨he, rfl⟩, Option.any_some,
    if_pos ((Entity.links_eq_true_iff (hs.entity e he)).mpr ⟨p, hp, rfl, hlinked⟩), ht]
  rfl

theorem content_row_eq_none {name : String} (hget : s.get? name = none) (id : Int64) :
    (store.content s).row name id = none := by
  unfold content
  dsimp only
  rw [hget]
  rfl

theorem content_links_eq_nil {name relation : String}
    (hlinked : ¬(s.get? name).any (·.links relation)) (owner : Int64) :
    (store.content s).links name relation owner = [] :=
  if_neg hlinked

/-- The content of a store is told by the tables of the entities and of their linked relations. -/
theorem content_ext (hs : s.WellFormed) {c : Content}
    (hrow : ∀ d ∈ s.entities, ∀ id, (store.content s).row d.name id = c.row d.name id)
    (hlinks : ∀ d ∈ s.entities, ∀ p ∈ d.properties, p.isLinked → ∀ owner,
      (store.content s).links d.name p.name owner = c.links d.name p.name owner)
    (hnoRow : ∀ name id, s.get? name = none → c.row name id = none)
    (hnoLinks : ∀ name relation owner, ¬(s.get? name).any (·.links relation) →
      c.links name relation owner = []) :
    store.content s = c := by
  ext1
  · funext name id
    cases hget : s.get? name with
    | none => rw [hnoRow name id hget, content_row_eq_none hget]
    | some d =>
      obtain ⟨hd, rfl⟩ := (Schema.get?_eq_some_iff hs).mp hget
      exact hrow d hd id
  · funext name relation owner
    by_cases hlinked : (s.get? name).any (·.links relation)
    · obtain ⟨d, hget, hlinks'⟩ := (Option.any_eq_true _ _).mp hlinked
      obtain ⟨hd, rfl⟩ := (Schema.get?_eq_some_iff hs).mp hget
      obtain ⟨p, hp, rfl, hp'⟩ := (Entity.links_eq_true_iff (hs.entity d hd)).mp hlinks'
      exact hlinks d hd p hp hp' owner
    · rw [hnoLinks name relation owner hlinked, content_links_eq_nil hlinked]

section

variable {t' : Table} {id owner : Int64} {x : Option StoredRow} {targets : List Int64}
  (hs : s.WellFormed) (h : store.Shaped s)

include hs h

/-- Where an entity's table has another row under one number only, so has the content. -/
theorem content_putRow (he : e ∈ s.entities) (hold : store.table? e.name = some t)
    (hnew : (entityTable e).Shapes t') (hrow : ∀ n, t'.row? n = if n = id then x else t.row? n) :
    (store.setTable t').content s = (store.content s).putRow e.name id (x.map StoredRow.entry) := by
  have htable {other : TableSpec} (hother : other ∈ s.tables) :=
    h.table?_setTable (Schema.entityTable_mem he) hnew hother
  refine content_ext hs (fun d hd n ↦ ?_) (fun d hd p hp hlinked o ↦ ?_) (fun name n hget ↦ ?_)
    fun name relation o hlinked ↦ content_links_eq_nil hlinked o
  · obtain ⟨u, hu, -⟩ := h.entityTable? hd
    have hfound : (store.setTable t').table? d.name = if entityTable d = entityTable e then
        some t' else some u :=
      (htable (Schema.entityTable_mem hd)).trans (by rw [← hu]; rfl)
    rw [Content.putRow_row]
    by_cases hname : d.name = e.name
    · obtain rfl := hs.eq_of_name_eq hd he hname
      rw [if_pos rfl] at hfound
      rw [content_row hs hd hfound, content_row hs hd hold, hrow]
      by_cases hn : n = id <;> simp [hn]
    · rw [if_neg fun hspec ↦ hname (congrArg TableSpec.name hspec)] at hfound
      rw [content_row hs hd hfound, content_row hs hd hu, if_neg fun hboth ↦ hname hboth.1]
  · obtain ⟨spec, u, hspec, hname, hu, -⟩ := h.linkTable? hd hp hlinked
    have hfound := htable (Schema.linkTable_mem hd hp hspec)
    rw [if_neg (entityTable_ne_linkTable hspec).symm, hname, hu] at hfound
    rw [content_links hs hd hp hlinked hfound, Content.putRow_links,
      content_links hs hd hp hlinked hu]
  · have hne : name ≠ e.name := fun heq ↦ (Schema.get?_eq_none_iff hs).mp hget e he heq.symm
    rw [Content.putRow_row, if_neg fun hboth ↦ hne hboth.1, content_row_eq_none hget]

/-- Where the table of a relation has other links of one owner only, so has the content. -/
theorem content_putLinks (he : e ∈ s.entities) (hp : p ∈ e.properties)
    (hspec : linkTable e.name p = some spec)
    (hold : store.table? (linkTableName e.name p.name) = some t) (hnew : spec.Shapes t')
    (htargets : ∀ o, t'.targets o = if o = owner then targets else t.targets o) :
    (store.setTable t').content s = (store.content s).putLinks e.name p.name owner targets := by
  have hlinked := linkTable_isLinked hspec
  have htable {other : TableSpec} (hother : other ∈ s.tables) :=
    h.table?_setTable (Schema.linkTable_mem he hp hspec) hnew hother
  refine content_ext hs (fun d hd n ↦ ?_) (fun d hd q hq hlinked' o ↦ ?_)
    (fun name n hget ↦ content_row_eq_none hget n) fun name relation o hnone ↦ ?_
  · obtain ⟨u, hu, -⟩ := h.entityTable? hd
    have hfound := htable (Schema.entityTable_mem hd)
    rw [if_neg (entityTable_ne_linkTable hspec),
      show (entityTable d).name = d.name from rfl, hu] at hfound
    rw [content_row hs hd hfound, Content.putLinks_row, content_row hs hd hu]
  · obtain ⟨spec', u, hspec', hname', hu, -⟩ := h.linkTable? hd hq hlinked'
    have hfound := htable (Schema.linkTable_mem hd hq hspec')
    rw [hname', hu] at hfound
    rw [Content.putLinks_links]
    by_cases heq : spec' = spec
    · subst heq
      obtain ⟨hentity, hrelation⟩ := linkTable_inj hspec' hspec
      obtain rfl := hs.eq_of_name_eq hd he hentity
      obtain rfl := (hs.entity d hd).indexed.eq_of_name_eq hq hp hrelation
      rw [if_pos rfl] at hfound
      rw [content_links hs hd hq hlinked hfound, content_links hs hd hq hlinked hold, htargets]
      by_cases ho : o = owner <;> simp [ho]
    · rw [if_neg heq] at hfound
      have hdiffers : ¬(d.name = e.name ∧ q.name = p.name ∧ o = owner) := by
        rintro ⟨hentity, hrelation, -⟩
        obtain rfl := hs.eq_of_name_eq hd he hentity
        obtain rfl := (hs.entity d hd).indexed.eq_of_name_eq hq hp hrelation
        exact heq (Option.some.inj (hspec'.symm.trans hspec))
      rw [content_links hs hd hq hlinked' hfound, if_neg hdiffers,
        content_links hs hd hq hlinked' hu]
  · rw [Content.putLinks_links, if_neg, content_links_eq_nil hnone]
    rintro ⟨rfl, rfl, -⟩
    refine hnone ?_
    rw [(Schema.get?_eq_some_iff hs).mpr ⟨he, rfl⟩, Option.any_some]
    exact (Entity.links_eq_true_iff (hs.entity e he)).mpr ⟨p, hp, rfl, hlinked⟩

end

end Store

end EntityStore
