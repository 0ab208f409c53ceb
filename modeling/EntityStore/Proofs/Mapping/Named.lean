import EntityStore.Proofs.Mapping.Tables
import EntityStore.Proofs.Query.Typed

/-!
The statements of a well typed query name only tables and columns that the schema declares, under
exactly the names it declares them, and give no name to two tables.
-/

set_option autoImplicit false

namespace EntityStore

open Query (Leads Path Tree)
open Mapping (linkTableName ownerColumn targetColumn)

/-! ### Names in statements -/

/-- A column is one that the schema declares for the table that has the label among some. -/
def ColumnRef.NamedIn (s : Schema) (sources : List Source) : ColumnRef → Prop
  | .rowNumber label => ∃ x ∈ sources, x.label = label
  | .column label name => ∃ x ∈ sources, x.label = label ∧ s.Declares x.table name

namespace Schema

def HasTable (s : Schema) (table : String) : Prop :=
  ∃ spec ∈ s.tables, spec.name = table

theorem Declares.table {s : Schema} {table column : String} (h : s.Declares table column) :
    s.HasTable table := by
  obtain ⟨spec, hspec, hname, -⟩ := h
  exact ⟨spec, hspec, hname⟩

end Schema

/-- A statement names tables and columns of a schema, each table under a label of its own. -/
structure Select.NamedBy (s : Schema) (select : Select) : Prop where
  tables : ∀ x ∈ select.sources, s.HasTable x.table
  labels : ∀ x ∈ select.sources, ∀ y ∈ select.sources, x.label = y.label → x = y
  columns : ∀ x ∈ select.columnRefs, x.1.NamedIn s select.sources

structure Join.NamedIn (s : Schema) (sources : List Source) (j : Join) : Prop where
  table : s.HasTable j.source.table
  left : j.left.NamedIn s sources
  right : j.right.NamedIn s sources

structure Condition.NamedIn (s : Schema) (sources : List Source) (c : Condition) : Prop where
  tables : ∀ x ∈ c.sources, s.HasTable x.table
  columns : ∀ joined, ∀ x ∈ c.columns joined, x.1.NamedIn s sources

structure LeftJoin.NamedIn (s : Schema) (sources : List Source) (j : LeftJoin) : Prop where
  join : j.join.NamedIn s sources
  condition : ∀ c ∈ j.condition, c.NamedIn s sources

namespace LeftJoin

variable {s : Schema} {sources : List Source} {j : LeftJoin}

theorem NamedIn.tables (h : j.NamedIn s sources) : ∀ x ∈ j.sources, s.HasTable x.table := by
  refine List.forall_mem_cons.mpr ⟨h.join.table, fun x hx ↦ ?_⟩
  obtain ⟨c, hc, hx⟩ := List.mem_flatMap.mp hx
  exact (h.condition c (Option.mem_toList.mp hc)).tables x hx

theorem NamedIn.columns (h : j.NamedIn s sources) : ∀ c ∈ j.columns, c.NamedIn s sources := by
  refine List.forall_mem_cons.mpr ⟨h.join.left,
    List.forall_mem_cons.mpr ⟨h.join.right, fun c hc ↦ ?_⟩⟩
  obtain ⟨d, hd, hc⟩ := List.mem_flatMap.mp hc
  obtain ⟨x, hx, rfl⟩ := List.mem_map.mp hc
  exact (h.condition d (Option.mem_toList.mp hd)).columns true x hx

end LeftJoin

variable {s : Schema} {sources : List Source} {table label : String}

theorem column_named (hlabel : ⟨table, label⟩ ∈ sources) {name : String}
    (h : s.Declares table name) :
    (ColumnRef.column label name).NamedIn s sources :=
  ⟨⟨table, label⟩, hlabel, rfl, h⟩

namespace Condition

theorem NamedIn.append {c l r : Condition} (hsources : c.sources = l.sources ++ r.sources)
    (hcolumns : ∀ joined, c.columns joined = l.columns joined ++ r.columns joined)
    (hl : l.NamedIn s sources) (hr : r.NamedIn s sources) : c.NamedIn s sources := by
  refine ⟨?_, fun joined ↦ ?_⟩
  · rw [hsources]
    exact List.forall_mem_append.mpr ⟨hl.tables, hr.tables⟩
  · rw [hcolumns]
    exact List.forall_mem_append.mpr ⟨hl.columns joined, hr.columns joined⟩

theorem NamedIn.within {c picked : ColumnRef} {source : Source}
    {join : Option Join} {inner : Condition} (hc : c.NamedIn s sources)
    (hpicked : picked.NamedIn s sources) (hsource : s.HasTable source.table)
    (hjoin : ∀ j ∈ join, j.NamedIn s sources) (hinner : inner.NamedIn s sources) :
    (Condition.within c picked source join inner).NamedIn s sources := by
  constructor
  case tables =>
    refine List.forall_mem_append.mpr
      ⟨List.forall_mem_cons.mpr ⟨hsource, fun x hx ↦ ?_⟩, hinner.tables⟩
    obtain ⟨j, hj, rfl⟩ := Option.map_eq_some_iff.mp (Option.mem_toList.mp hx)
    exact (hjoin j hj).table
  case columns =>
    intro joined
    refine List.forall_mem_append.mpr ⟨List.forall_mem_append.mpr ⟨List.forall_mem_cons.mpr
      ⟨hpicked, hinner.columns false⟩, ?_⟩, List.forall_mem_singleton.mpr hc⟩
    cases join with
    | none => nofun
    | some j =>
      have hj := hjoin j rfl
      exact List.forall_mem_cons.mpr ⟨hj.left, List.forall_mem_singleton.mpr hj.right⟩

end Condition

namespace Mapping

variable {bindings : Query.Bindings} {n m : Nat}

/-! ### Filters -/

theorem comparison_named {c : ColumnRef} {field : String}
    {comparator : Language.Comparator} {v : Value} {x : Condition} (hc : c.NamedIn s sources)
    (h : comparison c field comparator v = .ok x) :
    x.NamedIn s sources := by
  refine ⟨by simp [comparison_sources h], fun joined ↦ ?_⟩
  have hone : ∀ y ∈ [(c, joined)], y.1.NamedIn s sources := List.forall_mem_singleton.mpr hc
  unfold comparison at h
  split at h
  · cases h
    unfold Condition.columns
    split
    · exact fun _ h ↦ absurd h List.not_mem_nil
    · exact hone
  · cases h
  all_goals
    cases h
    exact hone

theorem predicateCondition_named (h : s.WellFormed) {p : Query.Predicate}
    {steps : List Query.Step} {e last : Entity} (he : e ∈ s.entities) (hpath : Path s e steps last)
    (hfield : Query.HasField last p.field p.type) {c : Condition}
    (hlabel : ⟨e.name, label⟩ ∈ sources)
    (hrun : (predicateCondition bindings p label steps).run n = .ok (c, m))
    (hsub : c.sources ⊆ sources) :
    c.NamedIn s sources := by
  induction hpath generalizing label n c m with
  | here e =>
    obtain ⟨v, -, hcomparison, -⟩ := predicateCondition_nil_ok hrun
    exact comparison_named (column_named hlabel (Schema.declares_field he hfield)) hcomparison
  | @step e next last q kind rest hq hrelation hnext _ ih =>
    have hjoins : s.Joins e.name (linkTableName e.name q.name)
        (Query.Step.isParent ⟨q.name, kind, e.name, next.name⟩)
          (Query.Step.kind ⟨q.name, kind, e.name, next.name⟩) next.name :=
            Schema.joins h he hq hnext hrelation
    unfold Schema.Joins at hjoins
    cases predicateCondition_cons_ok hrun with
    | parent hparent hinner =>
      rw [if_pos hparent] at hjoins
      obtain ⟨hsource, hrestsub⟩ := List.cons_subset.mp hsub
      exact .within (column_named hlabel hjoins.1) (column_named hsource hjoins.2) hjoins.2.table
        (by rintro _ ⟨⟩) (ih hnext hfield hsource hinner hrestsub)
    | owned hparent hkind hinner =>
      rw [if_neg hparent, hkind] at hjoins
      obtain ⟨hsource, hrestsub⟩ := List.cons_subset.mp hsub
      exact .within (column_named hlabel hjoins.1) (column_named hsource hjoins.2) hjoins.2.table
        (by rintro _ ⟨⟩) (ih hnext hfield hsource hinner hrestsub)
    | linked hparent hkind hinner =>
      rw [if_neg hparent, hkind] at hjoins
      obtain ⟨hlinks, hsub⟩ := List.cons_subset.mp hsub
      obtain ⟨hsource, hrestsub⟩ := List.cons_subset.mp hsub
      obtain ⟨hid, howner, htarget, hnextid⟩ := hjoins
      refine .within (column_named hlabel hid) (column_named hlinks howner) howner.table ?_
        (ih hnext hfield hsource hinner hrestsub)
      rintro j ⟨⟩
      exact ⟨hnextid.table, column_named hsource hnextid, column_named hlinks htarget⟩

theorem condition_named (h : s.WellFormed) {e : Entity} (he : e ∈ s.entities) {f : Query.Filter}
    (hf : ∀ p ∈ f.predicates, p.Typed s e) {c : Condition} (hlabel : ⟨e.name, label⟩ ∈ sources)
    (hrun : (condition bindings label f).run n = .ok (c, m)) (hsub : c.sources ⊆ sources) :
    c.NamedIn s sources := by
  induction f generalizing n c m with
  | and l r ihl ihr | or l r ihl ihr =>
    obtain ⟨cl, k, hl, hrest⟩ := Planning.bind_eq_ok.mp hrun
    obtain ⟨cr, k', hr, hpure⟩ := Planning.bind_eq_ok.mp hrest
    obtain ⟨rfl, rfl⟩ := Planning.pure_eq_ok.mp hpure
    obtain ⟨hsubl, hsubr⟩ := List.append_subset.mp hsub
    obtain ⟨hfl, hfr⟩ := List.forall_mem_append.mp hf
    exact .append rfl (fun _ ↦ rfl) (ihl hfl hl hsubl) (ihr hfr hr hsubr)
  | predicate p =>
    obtain ⟨last, -, hpath, hfield⟩ := (hf p (List.mem_singleton.mpr rfl)).path
    exact predicateCondition_named h he hpath hfield hlabel hrun hsub

theorem conditions_named (h : s.WellFormed) {e : Entity} (he : e ∈ s.entities)
    {t : Tree} (ht : t.Typed s e) {cs : List Condition} (hlabel : ⟨t.level.entity, label⟩ ∈ sources)
    (hrun : (conditions bindings label t.level.filter).run n = .ok (cs, m))
    (hsub : cs.flatMap Condition.sources ⊆ sources) : ∀ c ∈ cs, c.NamedIn s sources := by
  rw [ht.entity] at hlabel
  have hfilter := ht.filter
  cases hf : t.level.filter with
  | none =>
    rw [hf] at hrun
    obtain ⟨rfl, -⟩ := Planning.pure_eq_ok.mp hrun
    nofun
  | some f =>
    rw [hf] at hrun
    obtain ⟨c, k, hc, hpure⟩ := Planning.bind_eq_ok.mp hrun
    obtain ⟨rfl, rfl⟩ := Planning.pure_eq_ok.mp hpure
    rw [List.flatMap_singleton] at hsub
    exact List.forall_mem_singleton.mpr (condition_named h he (hfilter f hf) hlabel hc hsub)

/-! ### Plans -/

theorem joins_of_leads (h : s.WellFormed) {e : Entity} (he : e ∈ s.entities) {r : Query.Relation}
    {target : String} (hleads : Leads s e r target) :
    s.Joins e.name (linkTableName e.name r.name) r.isParent r.kind target := by
  obtain ⟨p, hp, child, hchild, hname, hrelation, -, rfl⟩ := hleads
  have hparent : p.isParent = r.isParent := congrArg (· == parentName) hname
  rw [← hname, ← hparent]
  exact Schema.joins h he hp hchild hrelation

theorem relationJoins_named {entity child target : String} {r : Query.Relation}
    {links : List LeftJoin} {join : Join}
    (hjoins : s.Joins entity (linkTableName entity r.name) r.isParent r.kind target)
    (hlabel : ⟨entity, label⟩ ∈ sources) (hchild : ⟨target, child⟩ ∈ sources)
    (hrun : (relationJoins entity label child r target).run n = .ok ((links, join), m))
    (hsub : links.flatMap LeftJoin.sources ⊆ sources) :
    (∀ j ∈ links, j.NamedIn s sources) ∧ join.NamedIn s sources := by
  unfold Schema.Joins at hjoins
  cases relationJoins_ok hrun with
  | parent hparent =>
    rw [if_pos hparent] at hjoins
    exact ⟨nofun, hjoins.2.table, column_named hchild hjoins.2, column_named hlabel hjoins.1⟩
  | owned hparent hkind =>
    rw [if_neg hparent, hkind] at hjoins
    exact ⟨nofun, hjoins.2.table, column_named hchild hjoins.2, column_named hlabel hjoins.1⟩
  | linked hparent hkind =>
    rw [if_neg hparent, hkind] at hjoins
    have hin := hsub (List.mem_cons_self : _ ∈ LeftJoin.sources _ ++ [])
    obtain ⟨hid, howner, htarget, htargetid⟩ := hjoins
    refine ⟨List.forall_mem_singleton.mpr ⟨?_, nofun⟩, ?_⟩
    · exact ⟨howner.table, column_named hin howner, column_named hlabel hid⟩
    · exact ⟨htargetid.table, column_named hchild htargetid, column_named hin htarget⟩

namespace Plan

/-- The tables and columns of a plan are declared. -/
structure NamedIn (s : Schema) (sources : List Source) (p : Plan) : Prop where
  columns : ∀ c ∈ p.columns, c.NamedIn s sources
  joins : ∀ j ∈ p.joins, j.NamedIn s sources
  sorts : ∀ k ∈ p.sorts, k.term.column.NamedIn s sources

theorem NamedIn.append {p q : Plan} (hp : p.NamedIn s sources) (hq : q.NamedIn s sources) :
    (p.append q).NamedIn s sources :=
  ⟨List.forall_mem_append.mpr ⟨hp.columns, hq.columns⟩,
    List.forall_mem_append.mpr ⟨hp.joins, hq.joins⟩,
    List.forall_mem_append.mpr ⟨hp.sorts, hq.sorts⟩⟩

end Plan

/-- Every level of a tree is well typed at an entity of the schema. -/
def TypedBelow (s : Schema) (t : Tree) : Prop :=
  ∀ u ∈ t.nodes, ∃ e ∈ s.entities, u.Typed s e

theorem TypedBelow.relation {t u : Tree} (h : TypedBelow s t) {r : Query.Relation}
    (hu : (r, u) ∈ t.relations) :
    TypedBelow s u :=
  fun v hv ↦ h v (Query.Tree.mem_nodes.mpr (.inr ⟨r, u, hu, hv⟩))

/-- The plan of a tree whose table is among some names only what the schema declares. -/
def PlanNamed (s : Schema) (bindings : Query.Bindings) (sources : List Source) (t : Tree) : Prop :=
  ∀ {depth n m : Nat} {label : String} {p : Plan}, ⟨t.level.entity, label⟩ ∈ sources →
    (plan bindings depth label t).run n = .ok (p, m) → p.joins.flatMap LeftJoin.sources ⊆ sources →
      p.NamedIn s sources

theorem planRelations_named (h : s.WellFormed) {e : Entity} (he : e ∈ s.entities) {depth : Nat}
    {relations : List (Query.Relation × Tree)}
    (hrelations : ∀ r t, (r, t) ∈ relations →
      Leads s e r t.level.entity ∧ TypedBelow s t ∧ PlanNamed s bindings sources t)
    {p : Plan} (hlabel : ⟨e.name, label⟩ ∈ sources)
    (hrun : (planRelations bindings depth label e.name relations).run n = .ok (p, m))
    (hsub : p.joins.flatMap LeftJoin.sources ⊆ sources) : p.NamedIn s sources := by
  induction relations generalizing n m p with
  | nil =>
    unfold planRelations at hrun
    obtain ⟨rfl, rfl⟩ := Planning.pure_eq_ok.mp hrun
    exact ⟨List.forall_mem_nil _, List.forall_mem_nil _, List.forall_mem_nil _⟩
  | cons x rest ih =>
    obtain ⟨r, t⟩ := x
    obtain ⟨hleads, hbelow, hplan⟩ := hrelations r t List.mem_cons_self
    have ih {n m : Nat} {p : Plan} := ih (n := n) (m := m) (p := p)
      fun r' t' hmem ↦ hrelations r' t' (List.mem_cons_of_mem _ hmem)
    cases planRelations_cons_ok hrun with
    | many _ hrun => exact ih hrun hsub
    | @single links join cs _ _ _ _ _ _ hjoins hcs hinner hothers =>
      obtain ⟨hsource, -⟩ := relationJoins_names hjoins
      obtain ⟨hhead, -⟩ := conditions_names hcs
      simp only [Plan.append, List.flatMap_append, List.append_subset, List.flatMap_singleton,
        LeftJoin.sources, List.cons_subset, hsource, hhead] at hsub
      obtain ⟨⟨hlinks, hin, hconditions⟩, hinnersub, hotherssub⟩ := hsub
      obtain ⟨hlinksnamed, hjoin⟩ :=
        relationJoins_named (joins_of_leads h he hleads) hlabel hin hjoins hlinks
      obtain ⟨d, hd, ht⟩ := hbelow t t.mem_nodes_self
      have hconditionsnamed := conditions_named h hd ht hin hcs hconditions
      have hfirst : (Plan.mk [] (links ++ [⟨join, cs.head?⟩]) []).NamedIn s sources := by
        refine ⟨List.forall_mem_nil _, List.forall_mem_append.mpr ⟨hlinksnamed,
          List.forall_mem_singleton.mpr ⟨hjoin, ?_⟩⟩, List.forall_mem_nil _⟩
        exact fun c hc ↦ hconditionsnamed c (List.mem_of_head? hc)
      exact hfirst.append ((hplan hin hinner hinnersub).append (ih hothers hotherssub))

theorem ofLevel_named {e : Entity} (he : e ∈ s.entities) {t : Tree} (ht : t.Typed s e) {depth : Nat}
    (hlabel : ⟨e.name, label⟩ ∈ sources) :
    (Plan.ofLevel t.level depth label).NamedIn s sources := by
  have hfield : ∀ f ∈ t.level.fields, (ColumnRef.column label f.name).NamedIn s sources :=
      fun f hf ↦
    column_named hlabel (Schema.declares_field he (ht.field f hf))
  refine ⟨List.forall_mem_cons.mpr ⟨column_named hlabel (Schema.declares_id he), ?_⟩,
    nofun, fun k hk ↦ ?_⟩
  · exact List.forall_mem_map.mpr fun f hf ↦ hfield f (List.mem_filter.mp hf).1
  · obtain ⟨f, hf, hsort⟩ := List.mem_filterMap.mp hk
    obtain ⟨_, -, rfl⟩ := Option.map_eq_some_iff.mp hsort
    exact hfield f hf

theorem plan_named (h : s.WellFormed) {t : Tree} (ht : TypedBelow s t) :
    PlanNamed s bindings sources t := by
  induction t using Query.Tree.induction with
  | node level relations ih =>
    intro depth n m label p hlabel hrun hsub
    obtain ⟨e, he, htyped⟩ := ht _ (Query.Tree.mem_nodes_self _)
    have hentity : level.entity = e.name := htyped.entity
    obtain ⟨below, hbelow, rfl⟩ := plan_node_ok hrun
    rw [hentity] at hbelow
    have hlabel : ⟨e.name, label⟩ ∈ sources := hentity ▸ hlabel
    refine .append (ofLevel_named he htyped hlabel) (planRelations_named h he ?_ hlabel hbelow hsub)
    intro r u hu
    have hbelow : TypedBelow s u := ht.relation hu
    exact ⟨htyped.relation r u hu, hbelow, ih r u hu hbelow⟩

/-! ### Statements of levels -/

/-- The tables and columns by which a statement is restricted to a scope are declared. -/
structure RestrictionNamed (s : Schema) (sources : List Source) (scope : Option Scope)
    (restricted : Option (ColumnRef × Option Join × List OrderTerm)) : Prop where
  join : ∀ j ∈ restricted.bind fun (_, j, _) ↦ j, j.NamedIn s sources
  among : ∀ c ∈ amongOwners scope restricted, c.NamedIn s sources
  owner : ∀ c ∈ (restricted.map fun (c, _, _) ↦ c).toList, c.NamedIn s sources
  links : ∀ t ∈ (restricted.map fun (_, _, terms) ↦ terms).getD [], t.column.NamedIn s sources

theorem amongIds_named {c : ColumnRef} (h : c.NamedIn s sources) (ids : List Int64) :
    (Condition.amongIds c ids).NamedIn s sources :=
  ⟨nofun, fun _ ↦ List.forall_mem_singleton.mpr h⟩

theorem restriction_named (h : s.WellFormed) {root t : Tree} (hroot : TypedBelow s root)
    {scope : Option Scope} (hscope : ScopedIn root t scope) {main : String}
    (hmain : ⟨t.level.entity, main⟩ ∈ sources)
    {restricted : Option (ColumnRef × Option Join × List OrderTerm)}
    (hrun : (scope.mapM (restriction main)).run n = .ok (restricted, m))
    (hsub : ((restricted.bind fun (_, j, _) ↦ j).map Join.source).toList ⊆ sources) :
    RestrictionNamed s sources scope restricted := by
  cases scope with
  | none =>
    obtain ⟨rfl, rfl⟩ := Planning.pure_eq_ok.mp hrun
    exact ⟨nofun, nofun, nofun, nofun⟩
  | some scope =>
    obtain ⟨u, hu, hrelation, hmany, hsource⟩ := hscope
    obtain ⟨d, hd, howner⟩ := hroot u hu
    have hleads := howner.relation _ _ hrelation
    have hjoins := joins_of_leads h hd hleads
    rw [← howner.entity, ← hsource] at hjoins
    unfold Schema.Joins at hjoins
    rw [hleads.not_parent h hd hmany, if_neg Bool.false_ne_true] at hjoins
    obtain ⟨x, rfl, hx⟩ := restriction_of_mapM hrun
    cases restriction_ok hx with
    | owned hkind =>
      rw [hkind] at hjoins
      have hparent := column_named hmain hjoins.2
      exact ⟨nofun, List.forall_mem_singleton.mpr (amongIds_named hparent _),
        List.forall_mem_singleton.mpr hparent, nofun⟩
    | linked hkind =>
      rw [hkind] at hjoins
      obtain ⟨-, howner, htarget, hid⟩ := hjoins
      have hin := hsub (List.mem_singleton.mpr rfl)
      have hlinkowner := column_named hin howner
      refine ⟨?_, List.forall_mem_singleton.mpr (amongIds_named hlinkowner _),
        List.forall_mem_singleton.mpr hlinkowner, List.forall_mem_singleton.mpr ⟨_, hin, rfl⟩⟩
      rintro j ⟨⟩
      exact ⟨howner.table, column_named hin htarget, column_named hmain hid⟩

/-- The statement of a level of a well typed query names only what the schema declares. -/
theorem levelSelect_named (h : s.WellFormed) {root t : Tree} (hroot : TypedBelow s root)
    (ht : t ∈ root.nodes) {scope : Option Scope} (hscope : ScopedIn root t scope) {select : Select}
    {page : Option PageBounds}
    (hrun : (levelSelect bindings t scope).run n = .ok ((select, page), m)) : select.NamedBy s := by
  obtain ⟨p, k, restricted, k₁, cs, hp, hr, hcs, -, rfl⟩ := levelSelect_ok hrun
  have hbelow : TypedBelow s t := fun u hu ↦ hroot u (Query.Tree.mem_nodes_trans ht hu)
  obtain ⟨e, he, htyped⟩ := hroot t ht
  have hid : s.Declares t.level.entity idName := htyped.entity ▸ Schema.declares_id he
  have hmain : ⟨t.level.entity, "t" ++ toString (n + 1)⟩ ∈
      (levelOf t scope ("t" ++ toString (n + 1)) p restricted cs page).sources :=
        mem_sources_levelOf.mpr (.inl rfl)
  have hplan :=
    plan_named h hbelow hmain hp fun x hx ↦ mem_sources_levelOf.mpr (.inr (.inr (.inl hx)))
  have hrestriction :=
    restriction_named h hroot hscope hmain hr fun x hx ↦ mem_sources_levelOf.mpr (.inr (.inl hx))
  have hfilter := conditions_named h he htyped hmain hcs fun x hx ↦ mem_sources_levelOf.mpr
    (.inr (.inr (.inr hx)))
  have hconditions :
      ∀ c ∈ (levelOf t scope ("t" ++ toString (n + 1)) p restricted cs page).conditions,
      c.NamedIn s _ :=
    List.forall_mem_append.mpr ⟨hrestriction.among, hfilter⟩
  constructor
  case labels => exact (levelSelect_names hrun).unique
  case tables =>
    intro x hx
    obtain rfl | ⟨j, hj, rfl⟩ | ⟨j, hj, hx⟩ | ⟨c, hc, hx⟩ := Select.mem_sources.mp hx
    · exact hid.table
    · exact (hrestriction.join j hj).table
    · exact (hplan.joins j hj).tables x hx
    · exact (hconditions c hc).tables x hx
  case columns =>
    rintro ⟨c, joined⟩ hc
    obtain hc | ⟨j, hj, hc⟩ | ⟨j, hj, hc⟩ | ⟨d, hd, hc⟩ | ⟨term, hterm, rfl⟩ :=
      Select.mem_columnRefs.mp ⟨joined, hc⟩
    · exact List.forall_mem_append.mpr ⟨hplan.columns, hrestriction.owner⟩ c hc
    · have hnamed := hrestriction.join j hj
      exact hc.elim (fun h ↦ h ▸ hnamed.left) fun h ↦ h ▸ hnamed.right
    · exact (hplan.joins j hj).columns c hc
    · obtain ⟨y, hy, rfl⟩ := List.mem_map.mp hc
      exact (hconditions d hd).columns false y hy
    · rw [levelOf, List.mem_append, List.mem_append, List.mem_map] at hterm
      obtain (⟨k, hk, rfl⟩ | hterm) | hterm := hterm
      · exact hplan.sorts k (List.mem_mergeSort.mp hk)
      · exact hrestriction.links term hterm
      · rw [List.mem_singleton.mp hterm]
        exact column_named hmain hid

end Mapping

end EntityStore
