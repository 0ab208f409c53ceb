import EntityStore.Proofs.Mapping.Plan
import Mathlib.Tactic.Tauto

/-!
Which tables and columns a query needs, told without the names that statements give to tables: the
store finds no fault with the statement of a level exactly if they are there. A level within a scope
needs the function that lists the owners as well, which a table of its name would hide
(`Store.ListsScopes`).
-/

set_option autoImplicit false

namespace EntityStore

open Query (Tree)

namespace Store

/-- A table is there and has a column. -/
def Has (s : Store) (table column : String) : Prop :=
  (s.table? table).any (·.hasColumn column) = true

/-- The columns by which a relation leads from the rows of one table to those of another; links
stand in a table of their own. -/
def Links (s : Store) (table link : String) (isParent : Bool) (kind : RelationKind)
    (target : String) : Prop :=
  if isParent then s.Has table parentName ∧ s.Has target idName
  else match kind with
    | .owned => s.Has table idName ∧ s.Has target parentName
    | .linked =>
      s.Has table idName ∧ s.Has link Mapping.ownerColumn ∧ s.Has link Mapping.targetColumn ∧
      s.Has target idName

/-- No table takes the place of the function that lists the owners of a scope. -/
def ListsScopes (s : Store) : Prop :=
  s.table? listingName = none

instance (s : Store) : Decidable s.ListsScopes :=
  inferInstanceAs (Decidable (_ = _))

/-- What rows are to be read from is there. -/
def Offers (s : Store) : Origin → Prop
  | .table name => (s.table? name).isSome
  | .members => s.ListsScopes

theorem resolve_eq_ok {s : Store} {o : Origin} : s.resolve o = .ok () ↔ s.Offers o := by
  cases o with
  | table name => cases h : s.table? name <;> simp [resolve, Offers, h]
  | members => cases h : s.table? listingName <;> simp [resolve, Offers, ListsScopes, h]

theorem Has.isSome {s : Store} {table column : String} (h : s.Has table column) :
    (s.table? table).isSome := by
  unfold Has at h
  cases ht : s.table? table with
  | none => simp [ht] at h
  | some t => rfl

end Store

namespace Query

def Predicate.Served (s : Store) (bindings : Bindings) (p : Predicate) : String → List Step → Prop
  | table, [] => p.comparator = .isIn ∧ p.operand.meaning bindings = .list [] ∨ s.Has table p.field
  | table, step :: rest =>
    s.Links table (Mapping.linkTableName step.source step.relation) step.isParent
      step.kind step.target ∧ p.Served s bindings step.target rest

def Filter.Served (s : Store) (bindings : Bindings) (table : String) : Filter → Prop
  | .and l r | .or l r => l.Served s bindings table ∧ r.Served s bindings table
  | .predicate p => p.Served s bindings table p.steps

mutual

/-- The columns that a level and the single relations below it show and join are there. -/
def Tree.Served (s : Store) (bindings : Bindings) : Tree → Prop
  | .node level relations =>
    (s.Has level.entity idName ∧ ∀ f ∈ Mapping.Plan.ownFields level, s.Has level.entity f.name) ∧
      RelationsServed s bindings level.entity relations

def RelationsServed (s : Store) (bindings : Bindings) (entity : String) :
    List (Relation × Tree) → Prop
  | [] => True
  | (r, t) :: rest =>
    (r.many ∨
      s.Links entity (Mapping.linkTableName entity r.name) r.isParent r.kind t.level.entity ∧
      (∀ f, t.level.filter = some f → f.Served s bindings t.level.entity) ∧ t.Served s bindings) ∧
        RelationsServed s bindings entity rest

end

end Query

/-! ### Looking up columns -/

/-- Names that planning gives to tables while it counts from one number to another; no name is given
twice. -/
structure Names (n m : Nat) (sources : List Source) : Prop where
  le : n ≤ m
  range : ∀ x ∈ sources, n < labelNumber x.label ∧ labelNumber x.label ≤ m
  unique : ∀ x ∈ sources, ∀ y ∈ sources, x.label = y.label → x = y

namespace Names

variable {n k m : Nat} {xs ys : List Source}

theorem nil (h : n ≤ m) : Names n m [] :=
  ⟨h, nofun, nofun⟩

theorem single (kind : String) (hkind : kind.toList.length = 1) (table : String) (n : Nat) :
    Names n (n + 1) [⟨table, kind ++ toString (n + 1)⟩] where
  le := Nat.le_succ n
  range x hx := by
    rw [List.mem_singleton.mp hx, labelNumber_append hkind]
    exact ⟨Nat.lt_succ_self n, Nat.le_refl _⟩
  unique x hx y hy _ := by rw [List.mem_singleton.mp hx, List.mem_singleton.mp hy]

theorem append (h : Names n k xs) (h' : Names k m ys) : Names n m (xs ++ ys) where
  le := Nat.le_trans h.le h'.le
  range x hx := by
    have := h.le
    have := h'.le
    rcases List.mem_append.mp hx with hx | hx
    · have := h.range x hx
      omega
    · have := h'.range x hx
      omega
  unique x hx y hy heq := by
    rcases List.mem_append.mp hx with hx | hx <;> rcases List.mem_append.mp hy with hy | hy
    · exact h.unique x hx y hy heq
    · have := h.range x hx
      have := h'.range y hy
      rw [heq] at *
      omega
    · have := h.range y hy
      have := h'.range x hx
      rw [heq] at *
      omega
    · exact h'.unique x hx y hy heq

theorem subset (h : Names n m xs) (hsub : ys ⊆ xs) : Names n m ys :=
  ⟨h.le, fun x hx ↦ h.range x (hsub hx), fun x hx y hy ↦ h.unique x (hsub hx) y (hsub hy)⟩

end Names

/-- Whether a column is found among tables under names. -/
def ColumnRef.foundIn (store : Store) (sources : List Source) : ColumnRef → Bool
  | .rowNumber _ => true
  | .column label name =>
    match sources.find? fun source ↦ source.label == label with
    | some source => (store.table? source.table).any fun t ↦ t.hasColumn name
    | none => false

theorem foundIn_column (store : Store) {sources : List Source} {n m : Nat}
    (hnames : Names n m sources) {table label : String}
    (h : ⟨table, label⟩ ∈ sources) (name : String) :
    (ColumnRef.column label name).foundIn store sources ↔ store.Has table name := by
  have hfind : sources.find? (fun source ↦ source.label == label) = some ⟨table, label⟩ := by
    cases hfound : sources.find? fun source ↦ source.label == label with
    | none => simpa using List.find?_eq_none.mp hfound _ h
    | some x =>
      have hlabel : x.label = label := by simpa using List.find?_some hfound
      rw [hnames.unique x (List.mem_of_find?_eq_some hfound) _ h hlabel]
  rw [ColumnRef.foundIn, hfind]
  rfl

/-- What a condition reads from is there, and its columns are found. -/
structure Condition.Checks (store : Store) (sources : List Source) (joined : Bool)
    (c : Condition) : Prop where
  origins : ∀ o ∈ c.origins, store.Offers o
  columns : ∀ x ∈ (c.columns joined).map Prod.fst, x.foundIn store sources

theorem Condition.checks_append {store : Store} {sources : List Source}
    {joined : Bool} {c l r : Condition} (horigins : c.origins = l.origins ++ r.origins)
    (hcolumns : c.columns joined = l.columns joined ++ r.columns joined) :
    c.Checks store sources joined ↔ l.Checks store sources joined ∧
    r.Checks store sources joined := by
  constructor
  · rintro ⟨hthere, hcols⟩
    rw [horigins, List.forall_mem_append] at hthere
    rw [hcolumns, List.map_append, List.forall_mem_append] at hcols
    exact ⟨⟨hthere.1, hcols.1⟩, hthere.2, hcols.2⟩
  · rintro ⟨hl, hr⟩
    refine ⟨?_, ?_⟩
    · rw [horigins, List.forall_mem_append]
      exact ⟨hl.origins, hr.origins⟩
    · rw [hcolumns, List.map_append, List.forall_mem_append]
      exact ⟨hl.columns, hr.columns⟩

/-- A nested select needs its tables and columns and what its own condition needs. -/
theorem Condition.checks_within {store : Store} {sources : List Source} {joined : Bool}
    {c picked : ColumnRef} {source : Source} {join : Option Join} {inner : Condition} :
    (Condition.within c picked source join inner).Checks store sources joined ↔
      ((∀ x ∈ source :: (join.map Join.source).toList, (store.table? x.table).isSome) ∧
        ∀ x ∈ c :: picked :: (join.map fun j ↦ [j.left, j.right]).getD [],
          x.foundIn store sources) ∧
        inner.Checks store sources false := by
  have hjoin : ((join.map fun j ↦ [(j.left, true), (j.right, true)]).getD []).map Prod.fst =
      (join.map fun j ↦ [j.left, j.right]).getD [] := by
    cases join <;> rfl
  have htables :
      (∀ o ∈ Origin.table source.table :: (join.map fun j ↦ Origin.table j.source.table).toList,
      store.Offers o) ↔
      ∀ x ∈ source :: (join.map Join.source).toList, (store.table? x.table).isSome := by
    cases join <;> simp [Store.Offers]
  constructor
  · rintro ⟨hthere, hcols⟩
    rw [Condition.origins, List.forall_mem_append, htables] at hthere
    simp only [Condition.columns, List.map_append, List.map_cons, List.map_nil, hjoin,
      List.forall_mem_append, List.forall_mem_cons] at hcols
    obtain ⟨⟨⟨hpicked, hinner⟩, hrule⟩, hc, -⟩ := hcols
    exact ⟨⟨hthere.1, List.forall_mem_cons.mpr ⟨hc, List.forall_mem_cons.mpr ⟨hpicked, hrule⟩⟩⟩,
      hthere.2, hinner⟩
  · rintro ⟨⟨hthere, hcols⟩, hinner⟩
    obtain ⟨hc, hcols⟩ := List.forall_mem_cons.mp hcols
    obtain ⟨hpicked, hrule⟩ := List.forall_mem_cons.mp hcols
    refine ⟨?_, ?_⟩
    · rw [Condition.origins, List.forall_mem_append, htables]
      exact ⟨hthere, hinner.origins⟩
    · simp only [Condition.columns, List.map_append, List.map_cons, List.map_nil, hjoin,
        List.forall_mem_append, List.forall_mem_cons]
      exact ⟨⟨⟨hpicked, hinner.columns⟩, hrule⟩, hc, nofun⟩

namespace Mapping

variable {store : Store} {bindings : Query.Bindings} {n m : Nat} {label table : String}
  {sources : List Source} {low high : Nat} {joined : Bool}

/-! ### The names in a condition -/

theorem comparison_sources {c : ColumnRef} {field : String}
    {comparator : Language.Comparator} {v : Value} {x : Condition}
    (h : comparison c field comparator v = .ok x) : x.sources = [] := by
  unfold comparison at h
  split at h <;> cases h <;> rfl

theorem predicateCondition_names {p : Query.Predicate} {steps : List Query.Step} {c : Condition}
    (h : (predicateCondition bindings p label steps).run n = .ok (c, m)) : Names n m c.sources := by
  induction steps generalizing label n c m with
  | nil =>
    obtain ⟨v, -, hcomparison, rfl⟩ := predicateCondition_nil_ok h
    rw [comparison_sources hcomparison]
    exact .nil (Nat.le_refl n)
  | cons step rest ih =>
    have hfirst : Names n (n + 1) [⟨step.target, "f" ++ toString (n + 1)⟩] := .single "f" rfl _ n
    cases predicateCondition_cons_ok h with
    | parent _ hinner | owned _ _ hinner => exact hfirst.append (ih hinner)
    | linked _ _ hinner =>
      refine (hfirst.append ((Names.single "a" rfl
        (linkTableName step.source step.relation) (n + 1)).append
        (ih hinner))).subset fun x hx ↦ ?_
      simp only [Condition.sources, Option.map_some, Option.toList_some,
        List.cons_append, List.nil_append, List.mem_cons] at hx ⊢
      exact or_left_comm.mp hx

theorem condition_names {f : Query.Filter} {c : Condition}
    (h : (condition bindings label f).run n = .ok (c, m)) : Names n m c.sources := by
  induction f generalizing n c m with
  | and l r ihl ihr | or l r ihl ihr =>
    obtain ⟨cl, k, hl, hrest⟩ := Planning.bind_eq_ok.mp h
    obtain ⟨cr, k', hr, hpure⟩ := Planning.bind_eq_ok.mp hrest
    obtain ⟨rfl, rfl⟩ := Planning.pure_eq_ok.mp hpure
    exact (ihl hl).append (ihr hr)
  | predicate p => exact predicateCondition_names h

/-! ### What a condition needs -/

theorem comparison_checks (hnames : Names low high sources) (hlabel : ⟨table, label⟩ ∈ sources)
    {field : String} {comparator : Language.Comparator} {v : Value} {c : Condition}
    (h : comparison (.column label field) field comparator v = .ok c) :
    c.Checks store sources joined ↔ comparator = .isIn ∧ v = .list [] ∨ store.Has table field := by
  have hcolumn : (ColumnRef.column label field).foundIn store sources ↔ store.Has table field :=
    foundIn_column store hnames hlabel field
  have hone {c : Condition} (horigins : c.origins = [])
      (hcolumns : c.columns joined = [(.column label field, joined)]) :
      c.Checks store sources joined ↔ store.Has table field := by
    rw [← hcolumn]
    exact ⟨fun hc ↦ hc.columns (.column label field) (by simp [hcolumns]),
      fun hfound ↦ ⟨by simp [horigins], by simpa [hcolumns] using hfound⟩⟩
  unfold comparison at h
  split at h
  · next items =>
    cases h
    cases items with
    | nil => exact iff_of_true ⟨nofun, nofun⟩ (.inl ⟨rfl, rfl⟩)
    | cons v vs =>
      rw [hone rfl rfl]
      simp
  · cases h
  all_goals
    cases h
    rw [hone rfl rfl]
    simp

theorem nested_checks (hnames : Names low high sources) (hlabel : ⟨table, label⟩ ∈ sources)
    {target next column picked : String} {inner : Condition} (hnext : ⟨target, next⟩ ∈ sources) :
    (Condition.within (.column label column) (.column next picked) ⟨target, next⟩ none inner).Checks
      store sources joined ↔
        (store.Has table column ∧ store.Has target picked) ∧ inner.Checks store sources false := by
  rw [Condition.checks_within]
  simp only [Option.map_none, Option.toList_none, Option.getD_none, List.forall_mem_cons,
    foundIn_column store hnames hlabel, foundIn_column store hnames hnext]
  constructor
  · rintro ⟨⟨-, hcolumn, hpicked, -⟩, hinner⟩
    exact ⟨⟨hcolumn, hpicked⟩, hinner⟩
  · rintro ⟨⟨hcolumn, hpicked⟩, hinner⟩
    exact ⟨⟨⟨hpicked.isSome, nofun⟩, hcolumn, hpicked, nofun⟩, hinner⟩

theorem nested_link_checks (hnames : Names low high sources) (hlabel : ⟨table, label⟩ ∈ sources)
    {target next links link : String} {inner : Condition} (hnext : ⟨target, next⟩ ∈ sources)
    (hlink : ⟨links, link⟩ ∈ sources) :
    (Condition.within (.column label idName) (.column link ownerColumn) ⟨links, link⟩
      (some ⟨⟨target, next⟩, .column next idName, .column link targetColumn⟩) inner).Checks store
        sources joined ↔
      (store.Has table idName ∧ store.Has links ownerColumn ∧ store.Has links targetColumn ∧
        store.Has target idName) ∧ inner.Checks store sources false := by
  rw [Condition.checks_within]
  simp only [Option.map_some, Option.toList_some, Option.getD_some, List.forall_mem_cons,
    foundIn_column store hnames hlabel, foundIn_column store hnames hnext,
    foundIn_column store hnames hlink]
  constructor
  · rintro ⟨⟨-, hid, howner, htarget, hlinked, -⟩, hinner⟩
    exact ⟨⟨hid, howner, hlinked, htarget⟩, hinner⟩
  · rintro ⟨⟨hid, howner, hlinked, htarget⟩, hinner⟩
    exact ⟨⟨⟨howner.isSome, htarget.isSome, nofun⟩, hid, howner, htarget, hlinked, nofun⟩, hinner⟩

theorem predicateCondition_checks (hnames : Names low high sources) {p : Query.Predicate}
    {steps : List Query.Step} {c : Condition} (hlabel : ⟨table, label⟩ ∈ sources)
    (h : (predicateCondition bindings p label steps).run n = .ok (c, m))
    (hsub : c.sources ⊆ sources) :
    c.Checks store sources joined ↔ p.Served store bindings table steps := by
  induction steps generalizing label table n c m joined with
  | nil =>
    obtain ⟨v, hvalue, hcomparison, rfl⟩ := predicateCondition_nil_ok h
    rw [Query.Predicate.Served, comparison_checks hnames hlabel hcomparison, operandValue_ok hvalue]
  | cons step rest ih =>
    unfold Query.Predicate.Served Store.Links
    cases predicateCondition_cons_ok h with
    | parent hparent hinner =>
      obtain ⟨hsource, hrestsub⟩ := List.cons_subset.mp hsub
      rw [if_pos hparent, nested_checks hnames hlabel hsource, ih hsource hinner hrestsub]
    | owned hparent hkind hinner =>
      obtain ⟨hsource, hrestsub⟩ := List.cons_subset.mp hsub
      rw [if_neg hparent, hkind, nested_checks hnames hlabel hsource, ih hsource hinner hrestsub]
    | linked hparent hkind hinner =>
      obtain ⟨hlinks, hsub⟩ := List.cons_subset.mp hsub
      obtain ⟨hsource, hrestsub⟩ := List.cons_subset.mp hsub
      rw [if_neg hparent, hkind, nested_link_checks hnames hlabel hsource hlinks,
        ih hsource hinner hrestsub]

theorem condition_checks (hnames : Names low high sources) {f : Query.Filter} {c : Condition}
    (hlabel : ⟨table, label⟩ ∈ sources) (h : (condition bindings label f).run n = .ok (c, m))
    (hsub : c.sources ⊆ sources) : c.Checks store sources joined ↔
    f.Served store bindings table := by
  induction f generalizing n c m with
  | and l r ihl ihr | or l r ihl ihr =>
    obtain ⟨cl, k, hl, hrest⟩ := Planning.bind_eq_ok.mp h
    obtain ⟨cr, k', hr, hpure⟩ := Planning.bind_eq_ok.mp hrest
    obtain ⟨rfl, rfl⟩ := Planning.pure_eq_ok.mp hpure
    obtain ⟨hsubl, hsubr⟩ := List.append_subset.mp hsub
    rw [Condition.checks_append rfl rfl, ihl hl hsubl, ihr hr hsubr, Query.Filter.Served]
  | predicate p => exact predicateCondition_checks hnames hlabel h hsub

/-- The condition of a level, if it has a filter, with what a left join takes of it. -/
theorem conditions_names {f : Option Query.Filter} {cs : List Condition}
    (h : (conditions bindings label f).run n = .ok (cs, m)) :
    cs.head?.toList = cs ∧ Names n m (cs.flatMap Condition.sources) := by
  cases f with
  | none =>
    obtain ⟨rfl, rfl⟩ := Planning.pure_eq_ok.mp h
    exact ⟨rfl, .nil (Nat.le_refl n)⟩
  | some f =>
    obtain ⟨c, k, hc, hpure⟩ := Planning.bind_eq_ok.mp h
    obtain ⟨rfl, rfl⟩ := Planning.pure_eq_ok.mp hpure
    refine ⟨rfl, ?_⟩
    rw [List.flatMap_singleton]
    exact condition_names hc

theorem conditions_checks (hnames : Names low high sources) {f : Option Query.Filter}
    {cs : List Condition} (hlabel : ⟨table, label⟩ ∈ sources)
    (h : (conditions bindings label f).run n = .ok (cs, m))
    (hsub : cs.flatMap Condition.sources ⊆ sources) :
    (∀ c ∈ cs, c.Checks store sources joined) ↔ ∀ g, f = some g →
    g.Served store bindings table := by
  cases f with
  | none =>
    obtain ⟨rfl, rfl⟩ := Planning.pure_eq_ok.mp h
    exact iff_of_true nofun nofun
  | some f =>
    obtain ⟨c, k, hc, hpure⟩ := Planning.bind_eq_ok.mp h
    obtain ⟨rfl, rfl⟩ := Planning.pure_eq_ok.mp hpure
    rw [List.flatMap_singleton] at hsub
    rw [List.forall_mem_singleton, condition_checks hnames hlabel hc hsub]
    exact ⟨fun hf g hg ↦ Option.some.inj hg ▸ hf, fun hf ↦ hf f rfl⟩

end Mapping

namespace LeftJoin

/-- The tables of a left join, those of its condition among them. -/
def sources (j : LeftJoin) : List Source :=
  j.join.source :: j.condition.toList.flatMap Condition.sources

/-- What a left join reads from, its condition as well. -/
def origins (j : LeftJoin) : List Origin :=
  .table j.join.source.table :: j.condition.toList.flatMap Condition.origins

/-- The tables and columns of a left join are found. -/
structure Checks (store : Store) (among : List Source) (j : LeftJoin) : Prop where
  table : (store.table? j.join.source.table).isSome
  left : j.join.left.foundIn store among
  right : j.join.right.foundIn store among
  condition : ∀ c ∈ j.condition.toList, c.Checks store among true

end LeftJoin

namespace Mapping

namespace Plan

/-- The tables and columns of a plan are found. -/
structure Checks (store : Store) (sources : List Source) (p : Plan) : Prop where
  columns : ∀ c ∈ p.columns, c.foundIn store sources
  joins : ∀ j ∈ p.joins, j.Checks store sources
  sorts : ∀ k ∈ p.sorts, k.term.column.foundIn store sources

theorem checks_append {store : Store} {sources : List Source} {p q : Plan} :
    (p.append q).Checks store sources ↔ p.Checks store sources ∧ q.Checks store sources := by
  constructor
  · rintro ⟨hcolumns, hjoins, hsorts⟩
    rw [append, List.forall_mem_append] at hcolumns hjoins hsorts
    exact ⟨⟨hcolumns.1, hjoins.1, hsorts.1⟩, hcolumns.2, hjoins.2, hsorts.2⟩
  · rintro ⟨hp, hq⟩
    exact ⟨List.forall_mem_append.mpr ⟨hp.columns, hq.columns⟩,
      List.forall_mem_append.mpr ⟨hp.joins, hq.joins⟩,
      List.forall_mem_append.mpr ⟨hp.sorts, hq.sorts⟩⟩

end Plan

variable {store : Store} {bindings : Query.Bindings} {n m : Nat} {label : String}
  {sources : List Source} {low high : Nat}

/-! ### The joins of a relation -/

theorem relationJoins_names {entity child target : String} {r : Query.Relation}
    {links : List LeftJoin} {join : Join}
    (h : (relationJoins entity label child r target).run n = .ok ((links, join), m)) :
    join.source = ⟨target, child⟩ ∧ Names n m (links.flatMap LeftJoin.sources) := by
  cases relationJoins_ok h with
  | parent _ | owned _ _ => exact ⟨rfl, .nil (Nat.le_refl n)⟩
  | linked _ _ => exact ⟨rfl, .single "l" rfl _ n⟩

theorem relationJoins_checks (hnames : Names low high sources) {entity child target : String}
    {r : Query.Relation} {links : List LeftJoin} {join : Join} {c : Option Condition}
    (hlabel : ⟨entity, label⟩ ∈ sources) (hchild : ⟨target, child⟩ ∈ sources)
    (h : (relationJoins entity label child r target).run n = .ok ((links, join), m))
    (hsub : links.flatMap LeftJoin.sources ⊆ sources) :
    (∀ j ∈ links ++ [⟨join, c⟩], j.Checks store sources) ↔
      store.Links entity (linkTableName entity r.name) r.isParent r.kind target ∧
        ∀ x ∈ c.toList, x.Checks store sources true := by
  have hat {column : String} := foundIn_column store hnames hlabel column
  have hto {column : String} := foundIn_column store hnames hchild column
  unfold Store.Links
  cases relationJoins_ok h with
  | parent hparent =>
    rw [if_pos hparent, List.nil_append, List.forall_mem_singleton]
    constructor
    · rintro ⟨-, hleft, hright, hc⟩
      exact ⟨⟨hat.mp hright, hto.mp hleft⟩, hc⟩
    · rintro ⟨⟨hright, hleft⟩, hc⟩
      exact ⟨hleft.isSome, hto.mpr hleft, hat.mpr hright, hc⟩
  | owned hparent hkind =>
    rw [if_neg hparent, hkind, List.nil_append, List.forall_mem_singleton]
    constructor
    · rintro ⟨-, hleft, hright, hc⟩
      exact ⟨⟨hat.mp hright, hto.mp hleft⟩, hc⟩
    · rintro ⟨⟨hright, hleft⟩, hc⟩
      exact ⟨hleft.isSome, hto.mpr hleft, hat.mpr hright, hc⟩
  | linked hparent hkind =>
    have hin := hsub (List.mem_cons_self : _ ∈ LeftJoin.sources _ ++ [])
    have hlink {column : String} := foundIn_column store hnames hin column
    rw [if_neg hparent, hkind, List.singleton_append, List.forall_mem_cons,
      List.forall_mem_singleton]
    constructor
    · rintro ⟨⟨-, howner, hid, -⟩, -, hleft, hright, hc⟩
      exact ⟨⟨hat.mp hid, hlink.mp howner, hlink.mp hright, hto.mp hleft⟩, hc⟩
    · rintro ⟨⟨hid, howner, hright, hleft⟩, hc⟩
      exact ⟨⟨howner.isSome, hlink.mpr howner, hat.mpr hid, nofun⟩, hleft.isSome, hto.mpr hleft,
        hlink.mpr hright, hc⟩

/-! ### Plans -/

/-- Planning a tree gives every table a name of its own. -/
def PlanNames (bindings : Query.Bindings) (t : Tree) : Prop :=
  ∀ {depth n m : Nat} {label : String} {p : Plan},
    (plan bindings depth label t).run n = .ok (p, m) → Names n m (p.joins.flatMap LeftJoin.sources)

theorem planRelations_names {depth : Nat} {entity : String}
    {relations : List (Query.Relation × Tree)}
    (ih : ∀ r t, (r, t) ∈ relations → PlanNames bindings t) {p : Plan}
    (h : (planRelations bindings depth label entity relations).run n = .ok (p, m)) :
    Names n m (p.joins.flatMap LeftJoin.sources) := by
  induction relations generalizing n m p with
  | nil =>
    unfold planRelations at h
    obtain ⟨rfl, rfl⟩ := Planning.pure_eq_ok.mp h
    exact .nil (Nat.le_refl n)
  | cons x rest ihrest =>
    obtain ⟨r, t⟩ := x
    have hrest : ∀ r' t', (r', t') ∈ rest → PlanNames bindings t' :=
      fun r' t' hmem ↦ ih r' t' (List.mem_cons_of_mem _ hmem)
    cases planRelations_cons_ok h with
    | many _ h => exact ihrest hrest h
    | single _ hjoins hcs hinner hothers =>
      obtain ⟨hsource, hlinks⟩ := relationJoins_names hjoins
      obtain ⟨hhead, hconditions⟩ := conditions_names hcs
      have hall := (Names.single "t" rfl t.level.entity n).append (hlinks.append
        (hconditions.append ((ih r t List.mem_cons_self hinner).append (ihrest hrest hothers))))
      refine hall.subset fun x hx ↦ ?_
      simp only [Plan.append, List.flatMap_append, List.flatMap_singleton,
        LeftJoin.sources, hsource, hhead, List.mem_append, List.mem_cons,
        List.not_mem_nil, or_false] at hx ⊢
      tauto

theorem plan_names (t : Tree) : PlanNames bindings t := by
  induction t using Tree.induction with
  | node level relations ih =>
    intro depth n m label p h
    obtain ⟨below, hbelow, rfl⟩ := plan_node_ok h
    have hnames : Names n m (below.joins.flatMap LeftJoin.sources) := planRelations_names ih hbelow
    exact hnames

theorem ofLevel_checks (hnames : Names low high sources) {level : Query.Level} {depth : Nat}
    (hlabel : ⟨level.entity, label⟩ ∈ sources) :
    (Plan.ofLevel level depth label).Checks store sources ↔
      store.Has level.entity idName ∧
      ∀ f ∈ Plan.ownFields level, store.Has level.entity f.name := by
  have hat {column : String} := foundIn_column store hnames hlabel column
  constructor
  · rintro ⟨hcolumns, -, -⟩
    obtain ⟨hid, hown⟩ := List.forall_mem_cons.mp hcolumns
    exact ⟨hat.mp hid, fun f hf ↦ hat.mp (hown _ (List.mem_map_of_mem hf))⟩
  · rintro ⟨hid, hown⟩
    refine ⟨List.forall_mem_cons.mpr ⟨hat.mpr hid, ?_⟩, nofun, fun k hk ↦ ?_⟩
    · exact List.forall_mem_map.mpr fun f hf ↦ hat.mpr (hown f hf)
    · obtain ⟨f, hf, hsort⟩ := List.mem_filterMap.mp hk
      obtain ⟨s, -, rfl⟩ := Option.map_eq_some_iff.mp hsort
      refine hat.mpr ?_
      by_cases hname : f.name = idName
      · rw [hname]
        exact hid
      · exact hown f (List.mem_filter.mpr ⟨hf, by simpa using hname⟩)

/-- The plan of a tree at a table among some is found exactly if the tree is served. -/
def PlanChecked (store : Store) (bindings : Query.Bindings) (sources : List Source)
    (t : Tree) : Prop :=
  ∀ {depth n m : Nat} {label : String} {p : Plan}, ⟨t.level.entity, label⟩ ∈ sources →
    (plan bindings depth label t).run n = .ok (p, m) → p.joins.flatMap LeftJoin.sources ⊆ sources →
      (p.Checks store sources ↔ t.Served store bindings)

theorem planRelations_checks (hnames : Names low high sources) {depth : Nat} {entity : String}
    {relations : List (Query.Relation × Tree)}
    (ih : ∀ r t, (r, t) ∈ relations → PlanChecked store bindings sources t) {p : Plan}
    (hlabel : ⟨entity, label⟩ ∈ sources)
    (h : (planRelations bindings depth label entity relations).run n = .ok (p, m))
    (hsub : p.joins.flatMap LeftJoin.sources ⊆ sources) :
    p.Checks store sources ↔ Query.RelationsServed store bindings entity relations := by
  induction relations generalizing n m p with
  | nil =>
    unfold planRelations at h
    obtain ⟨rfl, rfl⟩ := Planning.pure_eq_ok.mp h
    exact iff_of_true ⟨List.forall_mem_nil _, List.forall_mem_nil _, List.forall_mem_nil _⟩ trivial
  | cons x rest ihrest =>
    obtain ⟨r, t⟩ := x
    have hrest : ∀ r' t', (r', t') ∈ rest → PlanChecked store bindings sources t' :=
      fun r' t' hmem ↦ ih r' t' (List.mem_cons_of_mem _ hmem)
    unfold Query.RelationsServed
    cases planRelations_cons_ok h with
    | many hmany h => rw [ihrest hrest h hsub, and_iff_right (.inl hmany)]
    | @single links join cs inner others _ _ _ hmany hjoins hcs hinner hothers =>
      obtain ⟨hsource, -⟩ := relationJoins_names hjoins
      obtain ⟨hhead, -⟩ := conditions_names hcs
      simp only [Plan.append, List.flatMap_append, List.append_subset,
        List.flatMap_singleton, LeftJoin.sources, List.cons_subset, hsource, hhead] at hsub
      obtain ⟨⟨hlinks, hin, hconditions⟩, hinnersub, hotherssub⟩ := hsub
      have hfirst : (Plan.mk [] (links ++ [⟨join, cs.head?⟩]) []).Checks store sources ↔
          ∀ j ∈ links ++ [⟨join, cs.head?⟩], j.Checks store sources :=
        ⟨fun hp ↦ hp.joins, fun hj ↦ ⟨List.forall_mem_nil _, hj, List.forall_mem_nil _⟩⟩
      rw [Plan.checks_append, Plan.checks_append, hfirst,
        relationJoins_checks hnames hlabel hin hjoins hlinks,
        hhead, conditions_checks hnames hin hcs hconditions,
        ih r t List.mem_cons_self hin hinner hinnersub,
        ihrest hrest hothers hotherssub, or_iff_right hmany]
      tauto

theorem plan_checks (hnames : Names low high sources) (t : Tree) :
    PlanChecked store bindings sources t := by
  induction t using Tree.induction with
  | node level relations ih =>
    intro depth n m label p hlabel h hsub
    obtain ⟨below, hbelow, rfl⟩ := plan_node_ok h
    have hbelowsub : below.joins.flatMap LeftJoin.sources ⊆ sources := hsub
    change ⟨level.entity, label⟩ ∈ sources at hlabel
    have hlevel : (Plan.ofLevel level depth label).Checks store sources ↔ _ :=
      ofLevel_checks hnames hlabel
    rw [Plan.checks_append, hlevel, planRelations_checks hnames ih hlabel hbelow hbelowsub,
      Query.Tree.Served]

end Mapping

/-! ### Statements -/

theorem Select.finds_eq (s : Select) (store : Store) (c : ColumnRef) :
    s.finds store c = c.foundIn store s.sources := by
  cases c <;> rfl

theorem Select.mem_sources {s : Select} {x : Source} : x ∈ s.sources ↔ x = s.source ∨
    (∃ j ∈ s.scope, x = j.source) ∨ (∃ j ∈ s.joins, x ∈ j.sources) ∨
    ∃ c ∈ s.conditions, x ∈ c.sources := by
  have hjoin (j : LeftJoin) : x ∈ j.sources ↔
      x = j.join.source ∨ x ∈ (j.condition.map Condition.sources).getD [] := by
    unfold LeftJoin.sources
    cases j.condition <;> simp
  have hscope : x ∈ (s.scope.map Join.source).toList ↔ ∃ j ∈ s.scope, x = j.source := by
    cases s.scope <;> simp
  simp only [Select.sources, List.mem_append, List.mem_cons, hscope, List.mem_map,
    List.mem_flatMap, hjoin, and_or_left, exists_or, eq_comm (a := x)]
  grind only

theorem Select.mem_origins {s : Select} {o : Origin} : o ∈ s.origins ↔ o = .table s.source.table ∨
    (∃ j ∈ s.scope, o = .table j.source.table) ∨ (∃ j ∈ s.joins, o ∈ j.origins) ∨
      ∃ c ∈ s.conditions, o ∈ c.origins := by
  have hjoin (j : LeftJoin) : o ∈ j.origins ↔
      o = .table j.join.source.table ∨ o ∈ (j.condition.map Condition.origins).getD [] := by
    unfold LeftJoin.origins
    cases j.condition <;> simp
  have hscope : o ∈ (s.scope.map fun j ↦ Origin.table j.source.table).toList ↔
      ∃ j ∈ s.scope, o = .table j.source.table := by
    cases s.scope <;> simp
  simp only [Select.origins, List.mem_append, List.mem_cons, hscope, List.mem_map,
    List.mem_flatMap, hjoin, and_or_left, exists_or, eq_comm (a := o)]
  grind only

/-- The columns that a left join looks up. -/
def LeftJoin.columns (j : LeftJoin) : List ColumnRef :=
  j.join.left :: j.join.right :: j.condition.toList.flatMap fun c ↦ (c.columns true).map Prod.fst

theorem Select.mem_columnRefs {s : Select} {c : ColumnRef} :
    (∃ joined, (c, joined) ∈ s.columnRefs) ↔ c ∈ s.columns ∨
      (∃ j ∈ s.scope, c = j.left ∨ c = j.right) ∨ (∃ j ∈ s.joins, c ∈ j.columns) ∨
      (∃ d ∈ s.conditions, c ∈ (d.columns false).map Prod.fst) ∨ ∃ t ∈ s.order, c = t.column := by
  have hjoin (j : LeftJoin) : c ∈ j.columns ↔ ∃ joined, (c, joined) ∈ (j.join.left, true) ::
      (j.join.right, true) :: (j.condition.map (Condition.columns true)).getD [] := by
    unfold LeftJoin.columns
    cases j.condition <;> simp [exists_or]
  have hscope :
      (∃ joined, (c, joined) ∈ (s.scope.map fun j ↦ [(j.left, true), (j.right, true)]).getD []) ↔
      ∃ j ∈ s.scope, c = j.left ∨ c = j.right := by
    cases s.scope <;> simp [exists_or]
  have hjoins : (∃ joined, (c, joined) ∈ s.joins.flatMap fun j ↦ (j.join.left, true) ::
      (j.join.right, true) :: (j.condition.map (Condition.columns true)).getD []) ↔
        ∃ j ∈ s.joins, c ∈ j.columns := by
    simp only [List.mem_flatMap, hjoin]
    exact ⟨fun ⟨joined, j, hj, hc⟩ ↦ ⟨j, hj, joined, hc⟩,
      fun ⟨j, hj, joined, hc⟩ ↦ ⟨joined, j, hj, hc⟩⟩
  have hconditions : (∃ joined, (c, joined) ∈ s.conditions.flatMap (Condition.columns false)) ↔
      ∃ d ∈ s.conditions, c ∈ (d.columns false).map Prod.fst := by
    simp [and_or_left, exists_or]
  have hcolumns : (∃ joined, (c, joined) ∈ s.columns.map (·, false)) ↔ c ∈ s.columns := by simp
  have horder : (∃ joined, (c, joined) ∈ s.order.map fun t ↦ (t.column, false)) ↔
      ∃ t ∈ s.order, c = t.column := by
    simp [eq_comm]
  simp only [Select.columnRefs, List.mem_append, exists_or, hcolumns, hscope, hjoins,
    hconditions, horder]
  grind only

theorem LeftJoin.checks_iff {store : Store} {sources : List Source} {j : LeftJoin} :
    j.Checks store sources ↔ (∀ o ∈ j.origins, store.Offers o) ∧
    ∀ c ∈ j.columns, c.foundIn store sources := by
  unfold LeftJoin.origins LeftJoin.columns
  simp only [List.forall_mem_cons, List.forall_mem_flatMap]
  constructor
  · rintro ⟨htable, hleft, hright, hcondition⟩
    exact ⟨⟨htable, fun c hc ↦ (hcondition c hc).origins⟩, hleft, hright,
      fun c hc ↦ (hcondition c hc).columns⟩
  · rintro ⟨⟨htable, hthere⟩, hleft, hright, hcolumns⟩
    exact ⟨htable, hleft, hright, fun c hc ↦ ⟨hthere c hc, hcolumns c hc⟩⟩

/-- The join of a scope has its table and its columns. -/
structure Join.Checks (store : Store) (sources : List Source) (j : Join) : Prop where
  table : (store.table? j.source.table).isSome
  left : j.left.foundIn store sources
  right : j.right.foundIn store sources

/-- The store looks up all that a statement reads from and every column that it names. -/
theorem Select.check_iff (s : Select) (store : Store) : s.check store = .ok () ↔
    (∀ o ∈ s.origins, store.Offers o) ∧
      ∀ c, (∃ joined, (c, joined) ∈ s.columnRefs) → c.foundIn store s.sources := by
  have hcolumns : (∀ x ∈ s.columnRefs, x.1.foundIn store s.sources) ↔
      ∀ c, (∃ joined, (c, joined) ∈ s.columnRefs) → c.foundIn store s.sources :=
    ⟨fun h c ⟨joined, hc⟩ ↦ h (c, joined) hc, fun h x hx ↦ h x.1 ⟨x.2, hx⟩⟩
  have hunit {P : Unit → Prop} : (∃ u, P u) ↔ P () := ⟨fun ⟨_, h⟩ ↦ h, fun h ↦ ⟨_, h⟩⟩
  unfold Select.check
  rw [← hcolumns, Except.bind_eq_ok]
  simp only [hunit, Except.forM_eq_ok, Select.finds_eq]
  refine and_congr ?_ ?_ <;> refine forall₂_congr fun x _ ↦ ?_
  · exact Store.resolve_eq_ok
  · split
    · simp_all [pure, Except.pure]
    · split <;> simp_all [throw, throwThe, MonadExceptOf.throw]

/-- The store finds no fault with a statement if all it reads from is there and every column is
found. -/
theorem Select.check_eq_ok (s : Select) (store : Store) : s.check store = .ok () ↔
    ((store.table? s.source.table).isSome ∧ (∀ j ∈ s.scope, j.Checks store s.sources) ∧
      ∀ c ∈ s.conditions, c.Checks store s.sources false) ∧
      Mapping.Plan.Checks store s.sources ⟨s.columns, s.joins, []⟩ ∧
        ∀ t ∈ s.order, t.column.foundIn store s.sources := by
  rw [Select.check_iff]
  constructor
  · rintro ⟨hthere, hfound⟩
    have hthere (o : Origin) := fun ho ↦ hthere o (Select.mem_origins.mpr ho)
    have hfound (c : ColumnRef) := fun hc ↦ hfound c (Select.mem_columnRefs.mpr hc)
    have hjoins (j : LeftJoin) (hj : j ∈ s.joins) : j.Checks store s.sources :=
      LeftJoin.checks_iff.mpr ⟨fun o ho ↦ hthere o (.inr (.inr (.inl ⟨j, hj, ho⟩))),
        fun c hc ↦ hfound c (.inr (.inr (.inl ⟨j, hj, hc⟩)))⟩
    refine ⟨⟨hthere _ (.inl rfl), fun j hj ↦ ⟨?_, ?_, ?_⟩,
        fun c hc ↦ ⟨fun o ho ↦ ?_, fun x hx ↦ ?_⟩⟩,
      ⟨fun c hc ↦ hfound c (.inl hc), hjoins, nofun⟩, fun t ht ↦ ?_⟩
    · exact hthere _ (.inr (.inl ⟨j, hj, rfl⟩))
    · exact hfound _ (.inr (.inl ⟨j, hj, .inl rfl⟩))
    · exact hfound _ (.inr (.inl ⟨j, hj, .inr rfl⟩))
    · exact hthere o (.inr (.inr (.inr ⟨c, hc, ho⟩)))
    · exact hfound x (.inr (.inr (.inr (.inl ⟨c, hc, hx⟩))))
    · exact hfound _ (.inr (.inr (.inr (.inr ⟨t, ht, rfl⟩))))
  · rintro ⟨⟨hsource, hscope, hconditions⟩, ⟨hcols, hjoins, -⟩, horder⟩
    refine ⟨fun o ho ↦ ?_, fun c hc ↦ ?_⟩
    · obtain rfl | ⟨j, hj, rfl⟩ | ⟨j, hj, ho⟩ | ⟨c, hc, ho⟩ := Select.mem_origins.mp ho
      · exact hsource
      · exact (hscope j hj).table
      · exact (LeftJoin.checks_iff.mp (hjoins j hj)).1 o ho
      · exact (hconditions c hc).origins o ho
    · obtain hc | ⟨j, hj, rfl | rfl⟩ | ⟨j, hj, hc⟩ | ⟨d, hd, hc⟩ | ⟨t, ht, rfl⟩ :=
        Select.mem_columnRefs.mp hc
      · exact hcols c hc
      · exact (hscope j hj).left
      · exact (hscope j hj).right
      · exact (LeftJoin.checks_iff.mp (hjoins j hj)).2 c hc
      · exact (hconditions d hd).columns c hc
      · exact horder t ht

end EntityStore
