import EntityStore.Mapping.Tables
import EntityStore.Proofs.Mapping.Reading
import EntityStore.Proofs.Query.Compiled

/-!
A store with the tables of a schema has all tables and columns that the statements of compiled
queries name.
-/

set_option autoImplicit false

namespace EntityStore

open Query (HasField Leads Path Tree)
open Mapping (entityTable linkTable linkTableName ownerColumn targetColumn)

namespace Schema

variable {s : Schema} {e d : Entity} {p : Property} {spec : TableSpec} {table column : String}

/-- The tables that a schema asks for. -/
def tables (s : Schema) : List TableSpec :=
  s.entities.flatMap fun e ↦ entityTable e :: e.properties.filterMap (linkTable e.name)

/-- A table that a schema asks for has a column of exactly this name; one that is counted also shows
its row numbers. -/
def Declares (s : Schema) (table column : String) : Prop :=
  ∃ spec ∈ s.tables, spec.name = table ∧
    (spec.counted ∧ column = idName ∨ ∃ c ∈ spec.columns, c.name = column)

/-- The columns by which a relation leads from the rows of one table to those of another are
declared. -/
def Joins (s : Schema) (table link : String) (isParent : Bool) (kind : RelationKind)
    (target : String) : Prop :=
  if isParent then s.Declares table parentName ∧ s.Declares target idName
  else match kind with
    | .owned => s.Declares table idName ∧ s.Declares target parentName
    | .linked =>
      s.Declares table idName ∧ s.Declares link ownerColumn ∧ s.Declares link targetColumn ∧
      s.Declares target idName

theorem entityTable_mem (he : e ∈ s.entities) : entityTable e ∈ s.tables :=
  List.mem_flatMap.mpr ⟨e, he, List.mem_cons_self⟩

theorem linkTable_mem (he : e ∈ s.entities) (hp : p ∈ e.properties)
    (hspec : linkTable e.name p = some spec) :
    spec ∈ s.tables :=
  List.mem_flatMap.mpr ⟨e, he, List.mem_cons_of_mem _ (List.mem_filterMap.mpr ⟨p, hp, hspec⟩)⟩

theorem declares_column (hspec : spec ∈ s.tables) {c : ColumnSpec} (hc : c ∈ spec.columns) :
    s.Declares spec.name c.name :=
  ⟨spec, hspec, rfl, .inr ⟨c, hc, rfl⟩⟩

theorem declares_id (he : e ∈ s.entities) : s.Declares e.name idName :=
  ⟨entityTable e, entityTable_mem he, rfl, .inl ⟨rfl, rfl⟩⟩

theorem declares_field (he : e ∈ s.entities) {name : String} {type : FieldType}
    (hfield : HasField e name type) :
    s.Declares e.name name := by
  obtain ⟨p, hp, f, rfl, hkind, -⟩ := hfield
  by_cases hid : p.name = idName
  · rw [hid]
    exact declares_id he
  · have hown : Mapping.ownColumn p = some (Mapping.fieldColumn p.name p.input f) := by
      simp [Mapping.ownColumn, hkind, hid]
    exact declares_column (entityTable_mem he)
      (List.mem_append_left _ (List.mem_filterMap.mpr ⟨p, hp, hown⟩))

theorem declares_parent (h : s.WellFormed) (he : e ∈ s.entities) (hp : p ∈ e.properties)
    (hname : p.name = parentName) : s.Declares e.name parentName := by
  obtain ⟨own, hown⟩ := h.ownership e he
  obtain ⟨o, r, -, rfl⟩ := hown.eq_parent hp hname
  exact declares_column (entityTable_mem he) (c := ⟨parentName, .integer, true, r.isSingle, some o⟩)
    (List.mem_append_right _ (List.mem_filterMap.mpr ⟨_, hp, rfl⟩))

/-- Links of a relation stand in a table of their own, where a pair stands once. -/
theorem linkTable_eq {target : String} (hrelation : p.relation? = some (target, .linked))
    (hparent : ¬p.isParent) :
      ∃ unique, linkTable e.name p = some ⟨linkTableName e.name p.name, false,
      [⟨ownerColumn, .integer, true, false, some e.name⟩,
        ⟨targetColumn, .integer, true, false, some target⟩],
      [ownerColumn, targetColumn], unique⟩ := by
  have hlinked : p.isLinked = true := by simp [Property.isLinked, hrelation, hparent]
  unfold linkTable
  rw [hrelation]
  exact ⟨_, if_pos hlinked⟩

theorem joins (h : s.WellFormed) (he : e ∈ s.entities) (hp : p ∈ e.properties) (hd : d ∈ s.entities)
    {kind : RelationKind} (hrelation : p.relation? = some (d.name, kind)) :
    s.Joins e.name (linkTableName e.name p.name) p.isParent kind d.name := by
  unfold Joins
  split
  · next hparent =>
      exact ⟨declares_parent h he hp (Property.isParent_iff.mp hparent), declares_id hd⟩
  · next hparent =>
    cases kind with
    | owned =>
      obtain ⟨own, hown⟩ := h.ownership d hd
      have howns : s.Owns e.name p d.name :=
        ⟨⟨e, he, rfl, hp⟩, Property.owned?_eq_some_iff.mpr hrelation⟩
      obtain rfl := hown.owns_iff.mp howns
      cases hown with
      | owned _ _ hback _ => exact ⟨declares_id he, declares_parent h hd ((hback _).mpr rfl).1 rfl⟩
    | linked =>
      obtain ⟨_, hspec⟩ := linkTable_eq (e := e) hrelation hparent
      have hmem := linkTable_mem he hp hspec
      exact ⟨declares_id he, declares_column hmem List.mem_cons_self,
        declares_column hmem (List.mem_cons_of_mem _ List.mem_cons_self), declares_id hd⟩

end Schema

namespace Store

/-- A table that is asked for is there: it has the columns, shows its row numbers if it is counted,
and keeps the key over several columns. -/
def Holds (s : Store) (spec : TableSpec) : Bool :=
  (s.table? spec.name).any fun t ↦ (!spec.counted || t.rowColumn == some idName) &&
    (spec.columns.all fun c ↦ t.hasColumn c.name) &&
      (spec.key.isEmpty || t.unique.contains spec.key)

/-- The tables of a schema are there. -/
def Serves (store : Store) (s : Schema) : Prop :=
  ∀ spec ∈ s.tables, store.Holds spec

instance (store : Store) (s : Schema) : Decidable (store.Serves s) :=
  inferInstanceAs (Decidable (∀ spec ∈ s.tables, store.Holds spec))

variable {store : Store} {s : Schema} {e d : Entity} {p : Property} {spec : TableSpec}
  {kind : RelationKind}

theorem holds_iff : store.Holds spec ↔ ∃ t, store.table? spec.name = some t ∧
    (spec.counted → t.rowColumn = some idName) ∧ (∀ c ∈ spec.columns, t.hasColumn c.name) ∧
      (spec.key = [] ∨ spec.key ∈ t.unique) := by
  unfold Holds
  cases store.table? spec.name with
  | none => simp
  | some t => cases spec.counted <;> simp [and_assoc]

theorem Serves.entity (h : store.Serves s) (he : e ∈ s.entities) : store.Holds (entityTable e) :=
  h _ (Schema.entityTable_mem he)

theorem Serves.link (h : store.Serves s) (he : e ∈ s.entities) (hp : p ∈ e.properties)
    (hspec : linkTable e.name p = some spec) : store.Holds spec :=
  h _ (Schema.linkTable_mem he hp hspec)

/-- A declared column is there. -/
theorem Serves.has (h : store.Serves s) {table column : String}
    (hdeclares : s.Declares table column) :
    store.Has table column := by
  obtain ⟨spec, hspec, rfl, hcolumn⟩ := hdeclares
  obtain ⟨t, ht, hcounted, hcolumns, -⟩ := holds_iff.mp (h spec hspec)
  rw [Has, ht]
  rcases hcolumn with ⟨hcount, rfl⟩ | ⟨c, hc, rfl⟩
  · simp [Table.hasColumn, Table.isRowColumn, hcounted hcount, sameName]
  · exact hcolumns c hc

theorem Serves.has_id (h : store.Serves s) (he : e ∈ s.entities) : store.Has e.name idName :=
  h.has (Schema.declares_id he)

theorem Serves.has_field (h : store.Serves s) (he : e ∈ s.entities)
    {name : String} {type : FieldType} (hfield : HasField e name type) : store.Has e.name name :=
  h.has (Schema.declares_field he hfield)

/-- The columns by which a relation of an entity leads to another are there. -/
theorem Serves.links (h : store.Serves s) (hs : s.WellFormed) (he : e ∈ s.entities)
    (hp : p ∈ e.properties) (hd : d ∈ s.entities) (hrelation : p.relation? = some (d.name, kind)) :
    store.Links e.name (linkTableName e.name p.name) p.isParent kind d.name := by
  have hjoins := Schema.joins hs he hp hd hrelation
  unfold Schema.Joins at hjoins
  unfold Links
  split at hjoins
  · next hparent =>
    rw [if_pos hparent]
    exact hjoins.imp h.has h.has
  · next hparent =>
    rw [if_neg hparent]
    cases kind with
    | owned => exact hjoins.imp h.has h.has
    | linked => exact hjoins.imp h.has (And.imp h.has (And.imp h.has h.has))

end Store

/-! ### Queries -/

namespace Query

variable {store : Store} {s : Schema} {e : Entity} {notes : List Note} {bindings : Bindings}

theorem Predicate.served (h : store.Serves s) (hs : s.WellFormed)
    (bindings : Bindings) (p : Predicate) {steps : List Step} {last : Entity} (he : e ∈ s.entities)
    (hpath : Path s e steps last) (hfield : HasField last p.field p.type) :
    p.Served store bindings e.name steps := by
  induction hpath with
  | here e => exact .inr (h.has_field he hfield)
  | step hp hrelation hnext _ ih => exact ⟨h.links hs he hp hnext hrelation, ih hnext hfield⟩

theorem Filter.Sound.served {f : Filter} (hf : f.Sound s notes e)
    (h : store.Serves s) (hs : s.WellFormed) (he : e ∈ s.entities) :
    f.Served store bindings e.name := by
  induction f with
  | and l r ihl ihr | or l r ihl ihr => exact ⟨ihl hf.1, ihr hf.2⟩
  | predicate p =>
    obtain ⟨last, -, hpath, hfield⟩ := hf.path
    exact p.served h hs bindings he hpath hfield

theorem Leads.links {r : Relation} {target : String} (hleads : Leads s e r target)
    (h : store.Serves s) (hs : s.WellFormed) (he : e ∈ s.entities) :
    store.Links e.name (linkTableName e.name r.name) r.isParent r.kind target := by
  obtain ⟨p, hp, child, hchild, hname, hrelation, -, rfl⟩ := hleads
  have hparent : p.isParent = r.isParent := congrArg (· == parentName) hname
  rw [← hname, ← hparent]
  exact h.links hs he hp hchild hrelation

/-- A relation to a single row is a reference. -/
theorem Leads.reference {r : Relation} {target : String} (hleads : Leads s e r target)
    (hsingle : ¬r.many) :
    ∃ p ∈ e.properties, ∃ q, p.name = r.name ∧ p.kind = .reference q ∧ q.kind = r.kind ∧
    q.target = target := by
  obtain ⟨p, hp, child, -, hname, hrelation, hmany, rfl⟩ := hleads
  unfold Property.relation? at hrelation
  cases hkind : p.kind with
  | field f => simp [hkind] at hrelation
  | collection c => exact absurd (hmany.mpr ⟨c, hkind⟩) hsingle
  | reference q =>
    obtain ⟨htarget, hq⟩ : q.target = child.name ∧ q.kind = r.kind := by
      simpa [hkind] using hrelation
    exact ⟨p, hp, q, hname, hkind, hq, htarget⟩

/-- A relation to many rows is a collection, which `@parent` is not. -/
theorem Leads.not_parent {r : Relation} {target : String}
    (hleads : Leads s e r target) (hs : s.WellFormed) (he : e ∈ s.entities) (hmany : r.many) :
    r.isParent = false := by
  obtain ⟨p, hp, -, -, hname, -, hcollection, -⟩ := hleads
  obtain ⟨c, hkind⟩ := hcollection.mp hmany
  refine Bool.eq_false_iff.mpr fun hparent ↦ ?_
  have hparent : r.name = parentName := by simpa [Relation.isParent] using hparent
  obtain ⟨own, hown⟩ := hs.ownership e he
  obtain ⟨o, q, -, rfl⟩ := hown.eq_parent hp (hname.trans hparent)
  cases hkind

theorem Tree.Sound.filter_served {t : Tree} (ht : t.Sound s notes e)
    (h : store.Serves s) (hs : s.WellFormed) (he : e ∈ s.entities) :
    ∀ f, t.level.filter = some f → f.Served store bindings t.level.entity := by
  intro f hf
  rw [ht.entity]
  exact (ht.filter f hf).served h hs he

theorem Tree.Everywhere.served {t : Tree} (ht : t.Everywhere s notes) (h : store.Serves s)
    (hs : s.WellFormed) :
    t.Served store bindings := by
  induction t using Tree.induction with
  | node level relations ih =>
    obtain ⟨e, he, hsound⟩ := ht _ (Tree.mem_nodes_self _)
    have hentity : level.entity = e.name := hsound.entity
    have hrelation : ∀ r t, (r, t) ∈ relations → Leads s e r t.level.entity ∧
        (∀ f, t.level.filter = some f → f.Served store bindings t.level.entity) ∧
        t.Served store bindings := by
      intro r t hmem
      have hsub : t.Everywhere s notes :=
        fun u hu ↦ ht u (Tree.mem_nodes.mpr (.inr ⟨r, t, hmem, hu⟩))
      obtain ⟨d, hd, hchild⟩ := hsub t t.mem_nodes_self
      exact ⟨hsound.relation r t hmem, hchild.filter_served h hs hd, ih r t hmem hsub⟩
    refine ⟨⟨?_, fun f hf ↦ ?_⟩, ?_⟩
    · rw [hentity]
      exact h.has_id he
    · rw [hentity]
      exact h.has_field he (hsound.field f (List.mem_filter.mp hf).1)
    · clear ih hsound ht
      induction relations with
      | nil => trivial
      | cons x rest ihrest =>
        obtain ⟨r, t⟩ := x
        obtain ⟨hleads, hfilter, hserved⟩ := hrelation r t List.mem_cons_self
        refine ⟨.inr ⟨?_, hfilter, hserved⟩,
          ihrest fun r' t' hmem ↦ hrelation r' t' (List.mem_cons_of_mem _ hmem)⟩
        rw [hentity]
        exact hleads.links h hs he

end Query

namespace Mapping

/-- A scope of a level in a tree: none, or some rows of the level above from which a relation to
many rows leads to the level. -/
def ScopedIn (root t : Tree) : Option Scope → Prop
  | none => True
  | some s =>
    ∃ u ∈ root.nodes, (s.relation, t) ∈ u.relations ∧ s.relation.many ∧ s.source = u.level.entity

/-- A store with the tables of a schema serves every level of a compiled query; a level within a
scope needs the function that lists the scope besides. -/
theorem levelServed {store : Store} {s : Schema} (h : store.Serves s) (hs : s.WellFormed)
    {notes : List Query.Note} {root t : Tree} (hroot : root.Everywhere s notes)
    (ht : t ∈ root.nodes) {scope : Option Scope} (hscope : ScopedIn root t scope)
    (hlists : scope.isSome → store.ListsScopes) (bindings : Query.Bindings) :
    LevelServed store bindings t scope := by
  obtain ⟨e, he, hsound⟩ := hroot t ht
  have hsub : t.Everywhere s notes := fun u hu ↦ hroot u (Tree.mem_nodes_trans ht hu)
  refine ⟨hsub.served h hs, hsound.filter_served h hs he, ?_⟩
  cases scope with
  | none => trivial
  | some scope =>
    obtain ⟨u, hu, hrelation, hmany, hsource⟩ := hscope
    obtain ⟨d, hd, howner⟩ := hroot u hu
    have hleads := howner.relation _ _ hrelation
    have hlinks := hleads.links h hs hd
    rw [← howner.entity, ← hsource] at hlinks
    unfold Store.Links at hlinks
    rw [hleads.not_parent hs hd hmany] at hlinks
    refine ⟨hlists rfl, ?_⟩
    cases hkind : scope.relation.kind <;> rw [hkind] at hlinks <;> simpa [hkind] using hlinks.2

end Mapping

end EntityStore
