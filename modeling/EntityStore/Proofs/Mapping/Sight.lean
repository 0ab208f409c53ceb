import EntityStore.Proofs.Mapping.Reading

/-!
The names that a statement gives to tables are all different, and every column stands where the name
of its table has been given: a join may name the tables up to its own, a nested select its own
tables only.
-/

set_option autoImplicit false

namespace EntityStore

open Query (Tree)

/-! ### Names in sight -/

/-- The columns of a condition are of tables in sight. A nested select looks at none but its own. -/
def Condition.InSight (seen : List String) : Condition → Prop
  | .both l r | .either l r => l.InSight seen ∧ r.InSight seen
  | .compare c _ _ | .isNull c | .notNull c | .among c _ | .amongIds c _ => c.label ∈ seen
  | .within c picked source join inner =>
    let own := source.label :: (join.map fun j ↦ j.source.label).toList
    c.label ∈ seen ∧ picked.label ∈ own ∧ (∀ j ∈ join, j.left.label ∈ own ∧ j.right.label ∈ own) ∧
      inner.InSight own

/-- The columns of left joins are of tables in sight, of those up to the join itself. -/
def JoinsInSight (seen : List String) : List LeftJoin → Prop
  | [] => True
  | j :: rest =>
    let seen := j.join.source.label :: seen
    (j.join.left.label ∈ seen ∧ j.join.right.label ∈ seen) ∧ (∀ c ∈ j.condition, c.InSight seen) ∧
      JoinsInSight seen rest

/-- The names given by left joins. -/
def joinLabels (js : List LeftJoin) : List String :=
  js.map fun j ↦ j.join.source.label

theorem joinLabels_append (js ks : List LeftJoin) :
    joinLabels (js ++ ks) = joinLabels js ++ joinLabels ks :=
  List.map_append

/-- The names given in front of the left joins of a statement. -/
def Select.headLabels (s : Select) : List String :=
  s.source.label :: (s.scope.map fun j ↦ j.source.label).toList

/-- The names given by a statement outside its nested selects. -/
def Select.labels (s : Select) : List String :=
  s.headLabels ++ joinLabels s.joins

/-- A statement gives every name once, and names columns of no table before that. The columns it
picks, written in front, and what stands behind the joins may be of any of its tables. -/
structure Select.InSight (s : Select) : Prop where
  once : (s.sources.map Source.label).Nodup
  scope : ∀ j ∈ s.scope, j.left.label ∈ s.headLabels ∧ j.right.label ∈ s.headLabels
  joins : JoinsInSight s.headLabels s.joins
  conditions : ∀ c ∈ s.conditions, c.InSight s.labels
  columns : ∀ c ∈ s.columns, c.label ∈ s.labels
  order : ∀ t ∈ s.order, t.column.label ∈ s.labels

theorem Condition.InSight.mono {seen seen' : List String} {c : Condition} (h : c.InSight seen)
    (hsub : seen ⊆ seen') :
    c.InSight seen' := by
  induction c with
  | both l r ihl ihr | either l r ihl ihr => exact ⟨ihl h.1, ihr h.2⟩
  | within => exact ⟨hsub h.1, h.2⟩
  | compare | isNull | notNull | among | amongIds => exact hsub h

theorem JoinsInSight.append {seen : List String} {js ks : List LeftJoin} (h : JoinsInSight seen js)
    (h' : ∀ seen', seen ⊆ seen' → (∀ j ∈ js, j.join.source.label ∈ seen') → JoinsInSight seen' ks) :
    JoinsInSight seen (js ++ ks) := by
  induction js generalizing seen with
  | nil => exact h' seen (List.Subset.refl seen) nofun
  | cons j js ih =>
    obtain ⟨hrule, hcondition, hrest⟩ := h
    refine ⟨hrule, hcondition, ih hrest fun seen' hsub hall ↦ ?_⟩
    obtain ⟨hlabel, hsub⟩ := List.cons_subset.mp hsub
    exact h' seen' hsub (List.forall_mem_cons.mpr ⟨hlabel, hall⟩)

namespace Mapping

variable {bindings : Query.Bindings} {n k m : Nat} {label : String}

/-- Names that planning gives while it counts from one number to another. -/
structure Given (n m : Nat) (labels : List String) : Prop where
  le : n ≤ m
  range : ∀ l ∈ labels, n < labelNumber l ∧ labelNumber l ≤ m
  nodup : labels.Nodup
  unmarked : ∀ l ∈ labels, '?' ∉ l.toList

namespace Given

variable {xs ys : List String}

theorem nil (h : n ≤ m) : Given n m [] :=
  ⟨h, nofun, .nil, nofun⟩

theorem single (kind : String) (hkind : kind.toList.length = 1)
    (hmark : '?' ∉ kind.toList) (n : Nat) :
    Given n (n + 1) [kind ++ toString (n + 1)] where
  le := Nat.le_succ n
  range l hl := by
    rw [List.mem_singleton.mp hl, labelNumber_append hkind]
    exact ⟨Nat.lt_succ_self n, Nat.le_refl _⟩
  nodup := List.nodup_singleton _
  unmarked l hl hmem := by
    rw [List.mem_singleton.mp hl, String.toList_append] at hmem
    rcases List.mem_append.mp hmem with hmem | hmem
    · exact hmark hmem
    · have hdigits : (toString (n + 1)).toList = Nat.toDigits 10 (n + 1) := by
        simp [toString, Nat.repr_eq_ofList_toDigits]
      rw [hdigits] at hmem
      exact absurd (Nat.isDigit_of_mem_toDigits (by omega) (by omega) hmem) (by decide)

theorem append (h : Given n k xs) (h' : Given k m ys) : Given n m (xs ++ ys) where
  le := Nat.le_trans h.le h'.le
  range l hl := by
    have := h.le
    have := h'.le
    rcases List.mem_append.mp hl with hl | hl
    · have := h.range l hl
      omega
    · have := h'.range l hl
      omega
  nodup := by
    refine List.nodup_append.mpr ⟨h.nodup, h'.nodup, fun x hx y hy heq ↦ ?_⟩
    have := h.range x hx
    have := h'.range y hy
    rw [heq] at *
    omega
  unmarked := List.forall_mem_append.mpr ⟨h.unmarked, h'.unmarked⟩

theorem perm (h : Given n m xs) (hperm : xs.Perm ys) : Given n m ys :=
  ⟨h.le, fun l hl ↦ h.range l (hperm.mem_iff.mpr hl), hperm.nodup_iff.mp h.nodup,
    fun l hl ↦ h.unmarked l (hperm.mem_iff.mpr hl)⟩

end Given

/-! ### Filters -/

theorem comparison_inSight {c : ColumnRef} {field : String}
    {comparator : Language.Comparator} {v : Value} {x : Condition}
    (h : comparison c field comparator v = .ok x) {seen : List String} (hc : c.label ∈ seen) :
    x.InSight seen := by
  unfold comparison at h
  split at h <;> cases h <;> exact hc

theorem predicateCondition_sight {p : Query.Predicate} {steps : List Query.Step} {c : Condition}
    (h : (predicateCondition bindings p label steps).run n = .ok (c, m)) :
    Given n m (c.sources.map Source.label) ∧ ∀ seen, label ∈ seen → c.InSight seen := by
  induction steps generalizing label n c m with
  | nil =>
    obtain ⟨v, -, hcomparison, rfl⟩ := predicateCondition_nil_ok h
    rw [comparison_sources hcomparison]
    exact ⟨.nil (Nat.le_refl n), fun seen hlabel ↦ comparison_inSight hcomparison hlabel⟩
  | cons step rest ih =>
    have hfirst : Given n (n + 1) ["f" ++ toString (n + 1)] := .single "f" rfl (by decide) n
    cases predicateCondition_cons_ok h with
    | parent _ hinner | owned _ _ hinner =>
      obtain ⟨hgiven, hsight⟩ := ih hinner
      refine ⟨hfirst.append hgiven, fun seen hlabel ↦
        ⟨hlabel, List.mem_cons_self, ?_, hsight _ List.mem_cons_self⟩⟩
      rintro j ⟨⟩
    | linked _ _ hinner =>
      obtain ⟨hgiven, hsight⟩ := ih hinner
      have hsecond : Given (n + 1) (n + 1 + 1) ["a" ++ toString (n + 1 + 1)] :=
        .single "a" rfl (by decide) (n + 1)
      refine ⟨(hfirst.append (hsecond.append hgiven)).perm (List.Perm.swap ..), fun seen hlabel ↦
        ⟨hlabel, List.mem_cons_self, ?_, hsight _ (by simp)⟩⟩
      rintro j ⟨⟩
      exact ⟨by simp [ColumnRef.label], by simp [ColumnRef.label]⟩

theorem condition_sight {f : Query.Filter} {c : Condition}
    (h : (condition bindings label f).run n = .ok (c, m)) :
    Given n m (c.sources.map Source.label) ∧ ∀ seen, label ∈ seen → c.InSight seen := by
  induction f generalizing n c m with
  | and l r ihl ihr | or l r ihl ihr =>
    obtain ⟨cl, k, hl, hrest⟩ := Planning.bind_eq_ok.mp h
    obtain ⟨cr, k', hr, hpure⟩ := Planning.bind_eq_ok.mp hrest
    obtain ⟨rfl, rfl⟩ := Planning.pure_eq_ok.mp hpure
    obtain ⟨hgivenl, hleft⟩ := ihl hl
    obtain ⟨hgivenr, hright⟩ := ihr hr
    rw [Condition.sources, List.map_append]
    exact ⟨hgivenl.append hgivenr, fun seen hlabel ↦ ⟨hleft seen hlabel, hright seen hlabel⟩⟩
  | predicate p => exact predicateCondition_sight h

theorem conditions_sight {f : Option Query.Filter} {cs : List Condition}
    (h : (conditions bindings label f).run n = .ok (cs, m)) :
    cs.head?.toList = cs ∧ Given n m ((cs.flatMap Condition.sources).map Source.label) ∧
      ∀ seen, label ∈ seen → ∀ c ∈ cs, c.InSight seen := by
  cases f with
  | none =>
    obtain ⟨rfl, rfl⟩ := Planning.pure_eq_ok.mp h
    exact ⟨rfl, .nil (Nat.le_refl n), fun _ _ ↦ nofun⟩
  | some f =>
    obtain ⟨c, k, hc, hpure⟩ := Planning.bind_eq_ok.mp h
    obtain ⟨rfl, rfl⟩ := Planning.pure_eq_ok.mp hpure
    obtain ⟨hgiven, hsight⟩ := condition_sight hc
    rw [List.flatMap_singleton]
    exact ⟨rfl, hgiven, fun seen hlabel ↦ List.forall_mem_singleton.mpr (hsight seen hlabel)⟩

/-! ### Plans -/

/-- The joins of a plan start at the table with a label, and so do its columns. -/
structure PlanInSight (n m : Nat) (label : String) (p : Plan) : Prop where
  given : Given n m ((p.joins.flatMap LeftJoin.sources).map Source.label)
  joins : ∀ seen, label ∈ seen → JoinsInSight seen p.joins
  columns : ∀ c ∈ p.columns, c.label ∈ label :: joinLabels p.joins
  sorts : ∀ s ∈ p.sorts, s.term.column.label ∈ label :: joinLabels p.joins

theorem relationJoins_sight {entity child target : String} {r : Query.Relation}
    {links : List LeftJoin} {join : Join}
    (h : (relationJoins entity label child r target).run n = .ok ((links, join), m)) :
    Given n m ((links.flatMap LeftJoin.sources).map Source.label) ∧
      ∀ condition : Option Condition, (∀ seen, child ∈ seen → ∀ c ∈ condition, c.InSight seen) →
        ∀ seen, label ∈ seen → JoinsInSight seen (links ++ [⟨join, condition⟩]) := by
  cases relationJoins_ok h with
  | parent _ | owned _ _ =>
    exact ⟨.nil (Nat.le_refl n), fun condition hcondition seen hlabel ↦
      ⟨⟨List.mem_cons_self, List.mem_cons_of_mem _ hlabel⟩,
        hcondition _ List.mem_cons_self, trivial⟩⟩
  | linked _ _ =>
    exact ⟨.single "l" rfl (by decide) n, fun condition hcondition seen hlabel ↦
      ⟨⟨List.mem_cons_self, List.mem_cons_of_mem _ hlabel⟩, nofun,
        ⟨List.mem_cons_self, List.mem_cons_of_mem _ List.mem_cons_self⟩,
        hcondition _ List.mem_cons_self, trivial⟩⟩

namespace PlanInSight

variable {p q inner : Plan} {child : String} {first : List LeftJoin}

theorem nil (n : Nat) (label : String) : PlanInSight n n label .none :=
  ⟨.nil (Nat.le_refl n), fun _ _ ↦ trivial, List.forall_mem_nil _, List.forall_mem_nil _⟩

/-- What stands beside a plan starts at the same table, so that its joins look past those of the
plan. -/
theorem append (hp : PlanInSight n k label p) (hq : PlanInSight k m label q) :
    PlanInSight n m label (p.append q) := by
  have hleft : label :: joinLabels p.joins ⊆ label :: joinLabels (p.append q).joins :=
    List.cons_subset_cons _ (joinLabels_append .. ▸ List.subset_append_left ..)
  have hright : label :: joinLabels q.joins ⊆ label :: joinLabels (p.append q).joins :=
    List.cons_subset_cons _ (joinLabels_append .. ▸ List.subset_append_right ..)
  refine ⟨?_, fun seen hlabel ↦ (hp.joins seen hlabel).append fun seen' hsub _ ↦ hq.joins seen'
    (hsub hlabel), ?_, ?_⟩
  · simpa only [Plan.append, List.flatMap_append, List.map_append] using hp.given.append hq.given
  · exact List.forall_mem_append.mpr ⟨fun c hc ↦ hleft (hp.columns c hc),
      fun c hc ↦ hright (hq.columns c hc)⟩
  · exact List.forall_mem_append.mpr ⟨fun s hs ↦ hleft (hp.sorts s hs),
      fun s hs ↦ hright (hq.sorts s hs)⟩

/-- What is below a table starts at it, behind the joins that lead there. -/
theorem below (hgiven : Given n k ((first.flatMap LeftJoin.sources).map Source.label))
    (hfirst : ∀ seen, label ∈ seen → JoinsInSight seen first) (hchild : child ∈ joinLabels first)
    (hinner : PlanInSight k m child inner) :
    PlanInSight n m label ((Plan.mk [] first []).append inner) := by
  have hsub : child :: joinLabels inner.joins ⊆ label :: joinLabels (first ++ inner.joins) := by
    rw [joinLabels_append]
    exact List.cons_subset.mpr ⟨List.mem_cons_of_mem _ (List.mem_append_left _ hchild),
      fun x hx ↦ List.mem_cons_of_mem _ (List.mem_append_right _ hx)⟩
  refine ⟨?_, fun seen hlabel ↦ (hfirst seen hlabel).append
    fun seen' _ hall ↦ hinner.joins seen' ?_, fun c hc ↦ hsub (hinner.columns c hc),
    fun s hs ↦ hsub (hinner.sorts s hs)⟩
  · simpa only [Plan.append, List.flatMap_append, List.map_append] using hgiven.append hinner.given
  · obtain ⟨j, hj, rfl⟩ := List.mem_map.mp hchild
    exact hall j hj

theorem ofLevel (level : Query.Level) (depth n : Nat) (label : String) :
    PlanInSight n n label (Plan.ofLevel level depth label) where
  given := .nil (Nat.le_refl n)
  joins _ _ := trivial
  columns := List.forall_mem_cons.mpr
    ⟨List.mem_cons_self, List.forall_mem_map.mpr fun _ _ ↦ List.mem_cons_self⟩
  sorts s hs := by
    obtain ⟨f, -, hf⟩ := List.mem_filterMap.mp hs
    obtain ⟨_, -, rfl⟩ := Option.map_eq_some_iff.mp hf
    exact List.mem_cons_self

end PlanInSight

/-- Planning a tree gives its names so. -/
def PlanSight (bindings : Query.Bindings) (t : Tree) : Prop :=
  ∀ {depth n m : Nat} {label : String} {p : Plan},
    (plan bindings depth label t).run n = .ok (p, m) → PlanInSight n m label p

theorem planRelations_sight {depth : Nat} {entity : String}
    {relations : List (Query.Relation × Tree)}
    (ih : ∀ r t, (r, t) ∈ relations → PlanSight bindings t) {p : Plan}
    (h : (planRelations bindings depth label entity relations).run n = .ok (p, m)) :
    PlanInSight n m label p := by
  induction relations generalizing n m p with
  | nil =>
    unfold planRelations at h
    obtain ⟨rfl, rfl⟩ := Planning.pure_eq_ok.mp h
    exact .nil n label
  | cons x rest ihrest =>
    obtain ⟨r, t⟩ := x
    have hrest : ∀ r' t', (r', t') ∈ rest → PlanSight bindings t' :=
      fun r' t' hmem ↦ ih r' t' (List.mem_cons_of_mem _ hmem)
    cases planRelations_cons_ok h with
    | many _ h => exact ihrest hrest h
    | @single links join cs inner others _ k₂ _ _ hjoins hcs hinner hothers =>
      obtain ⟨hsource, -⟩ := relationJoins_names hjoins
      obtain ⟨hlinks, hjoin⟩ := relationJoins_sight hjoins
      obtain ⟨hhead, hconditions, hfilter⟩ := conditions_sight hcs
      have hchild : Given n (n + 1) ["t" ++ toString (n + 1)] := .single "t" rfl (by decide) n
      have hlast : LeftJoin.sources ⟨join, cs.head?⟩ =
          ⟨t.level.entity, "t" ++ toString (n + 1)⟩ :: cs.flatMap Condition.sources := by
        rw [LeftJoin.sources, hhead, hsource]
      -- the table of the related row is named before the links that lead to it
      have hgiven :
          Given n k₂
            (((links ++ [LeftJoin.mk join cs.head?]).flatMap LeftJoin.sources).map
              Source.label) := by
        refine (hchild.append (hlinks.append hconditions)).perm ?_
        rw [List.flatMap_append, List.flatMap_singleton, hlast, List.map_append, List.map_cons,
          List.singleton_append]
        exact List.perm_middle.symm
      have hlabel : "t" ++ toString (n + 1) ∈ joinLabels (links ++ [⟨join, cs.head?⟩]) :=
        List.mem_map.mpr ⟨⟨join, cs.head?⟩, List.mem_append_right _ List.mem_cons_self, by
          rw [hsource]⟩
      have hfirst :=
        hjoin cs.head? fun seen hseen c hc ↦ hfilter seen hseen c (List.mem_of_head? hc)
      have hassoc : (Plan.mk [] (links ++ [⟨join, cs.head?⟩]) []).append (inner.append others) =
          ((Plan.mk [] (links ++ [⟨join, cs.head?⟩]) []).append inner).append others := by
        simp only [Plan.append, List.append_assoc]
      rw [hassoc]
      exact (PlanInSight.below hgiven hfirst hlabel (ih r t List.mem_cons_self hinner)).append
        (ihrest hrest hothers)

theorem plan_sight (t : Tree) : PlanSight bindings t := by
  induction t using Tree.induction with
  | node level relations ih =>
    intro depth n m label p h
    obtain ⟨below, hbelow, rfl⟩ := plan_node_ok h
    exact (PlanInSight.ofLevel level depth n label).append (planRelations_sight ih hbelow)

/-! ### Statements of levels -/

variable {scope : Option Scope}

/-- The part of a statement that a scope decides names its own join and the level's table. -/
structure RestrictionInSight (n m : Nat) (main : String) (scope : Option Scope)
    (restricted : Option (ColumnRef × Option Join × List OrderTerm)) : Prop where
  given : Given n m (((restricted.bind fun (_, j, _) ↦ j).map fun j ↦ j.source.label).toList)
  join : ∀ j ∈ restricted.bind fun (_, j, _) ↦ j,
    j.left.label ∈ [main, j.source.label] ∧ j.right.label ∈ [main, j.source.label]
  among : ∀ c ∈ amongOwners scope restricted,
    c.InSight (main :: ((restricted.bind fun (_, j, _) ↦ j).map fun j ↦ j.source.label).toList)
  owner : ∀ c ∈ (restricted.map fun (c, _, _) ↦ c).toList,
    c.label ∈ main :: ((restricted.bind fun (_, j, _) ↦ j).map fun j ↦ j.source.label).toList
  links : ∀ t ∈ (restricted.map fun (_, _, terms) ↦ terms).getD [],
    t.column.label ∈ main :: ((restricted.bind fun (_, j, _) ↦ j).map fun j ↦ j.source.label).toList

theorem restriction_sight {main : String}
    {restricted : Option (ColumnRef × Option Join × List OrderTerm)}
    (h : (scope.mapM (restriction main)).run n = .ok (restricted, m)) :
    RestrictionInSight n m main scope restricted := by
  cases scope with
  | none =>
    obtain ⟨rfl, rfl⟩ := Planning.pure_eq_ok.mp h
    exact ⟨.nil (Nat.le_refl n), nofun, nofun, nofun, nofun⟩
  | some s =>
    obtain ⟨x, rfl, hx⟩ := restriction_of_mapM h
    cases restriction_ok hx with
    | owned _ =>
      exact ⟨.nil (Nat.le_refl n), nofun, List.forall_mem_singleton.mpr List.mem_cons_self,
        List.forall_mem_singleton.mpr List.mem_cons_self, nofun⟩
    | linked _ =>
      have hlink : "s" ++ toString (n + 1) ∈ [main, "s" ++ toString (n + 1)] :=
        List.mem_cons_of_mem _ List.mem_cons_self
      refine ⟨.single "s" rfl (by decide) n, ?_, List.forall_mem_singleton.mpr hlink,
        List.forall_mem_singleton.mpr hlink, List.forall_mem_singleton.mpr hlink⟩
      rintro j ⟨⟩
      exact ⟨hlink, List.mem_cons_self⟩

theorem flatMap_sources_perm (js : List LeftJoin) : (js.flatMap LeftJoin.sources).Perm
    (js.map (fun j ↦ j.join.source) ++
      js.flatMap fun j ↦ (j.condition.map Condition.sources).getD []) := by
  induction js with
  | nil => exact .refl _
  | cons j js ih =>
    have hcondition : j.sources = j.join.source :: (j.condition.map Condition.sources).getD [] := by
      unfold LeftJoin.sources
      cases j.condition <;> simp
    rw [List.flatMap_cons, List.flatMap_cons, List.map_cons, hcondition,
      List.cons_append, List.cons_append]
    refine .cons _ ((ih.append_left _).trans ?_)
    rw [← List.append_assoc, ← List.append_assoc]
    exact List.perm_append_comm.append_right _

/-- The tables of a statement in the order in which their names are given, and in that in which they
are looked up. -/
theorem sources_perm (select : Select) : (select.source :: (select.joins.flatMap LeftJoin.sources ++
    ((select.scope.map Join.source).toList ++ select.conditions.flatMap Condition.sources))).Perm
      select.sources := by
  have hjoins := flatMap_sources_perm select.joins
  unfold Select.sources
  rw [List.cons_append, List.cons_append, List.cons_append]
  refine .cons _ ((hjoins.append_right _).trans ?_)
  grind

/-- The statement of a level gives each name once, before it is used. -/
theorem levelSelect_sight {t : Tree} {select : Select} {page : Option PageBounds}
    (h : (levelSelect bindings t scope).run n = .ok ((select, page), m)) :
    Given n m (select.sources.map Source.label) ∧ select.InSight := by
  obtain ⟨p, k, restricted, k₁, cs, hp, hr, hcs, -, rfl⟩ := levelSelect_ok h
  have hplan := plan_sight t hp
  have hscope := restriction_sight hr
  obtain ⟨-, hconditions, hfilter⟩ := conditions_sight hcs
  have hgiven : Given n m
      ((levelOf t scope ("t" ++ toString (n + 1)) p restricted cs page).sources.map
        Source.label) := by
    have hmain : Given n (n + 1) ["t" ++ toString (n + 1)] := .single "t" rfl (by decide) n
    refine (hmain.append (hplan.given.append (hscope.given.append hconditions))).perm
      (.trans (.of_eq ?_) ((sources_perm _).map Source.label))
    rw [levelOf, List.map_cons, List.map_append, List.map_append, List.flatMap_append,
      List.flatMap_eq_nil_iff.mpr amongOwners_sources]
    rcases restricted with _ | ⟨c, _ | j, terms⟩ <;> rfl
  -- what the level and its scope name, and what it and its joins do, is in sight in the end
  have hown : ("t" ++ toString (n + 1)) :: joinLabels p.joins ⊆
      (levelOf t scope ("t" ++ toString (n + 1)) p restricted cs page).labels :=
    List.cons_subset_cons _ (List.subset_append_right ..)
  have hscoped : ("t" ++ toString (n + 1)) ::
      ((restricted.bind fun (_, j, _) ↦ j).map fun j ↦ j.source.label).toList ⊆
        (levelOf t scope ("t" ++ toString (n + 1)) p restricted cs page).labels :=
    List.cons_subset_cons _ (List.subset_append_left ..)
  refine ⟨hgiven, hgiven.nodup, ?head, ?joins, ?conditions, ?columns, ?order⟩
  case head =>
    intro j hj
    have hhead : (restricted.bind fun (_, j, _) ↦ j) = some j := hj
    simp only [levelOf, Select.headLabels, hhead, Option.map_some, Option.toList_some]
    exact hscope.join j hj
  case joins => exact hplan.joins _ List.mem_cons_self
  case conditions =>
    exact List.forall_mem_append.mpr ⟨fun c hc ↦ (hscope.among c hc).mono hscoped,
      hfilter _ List.mem_cons_self⟩
  case columns =>
    exact List.forall_mem_append.mpr ⟨fun c hc ↦ hown (hplan.columns c hc),
      fun c hc ↦ hscoped (hscope.owner c hc)⟩
  case order =>
    refine List.forall_mem_append.mpr
      ⟨List.forall_mem_append.mpr ⟨?_, fun t ht ↦ hscoped (hscope.links t ht)⟩,
      List.forall_mem_singleton.mpr List.mem_cons_self⟩
    exact List.forall_mem_map.mpr fun s hs ↦ hown (hplan.sorts s (List.mem_mergeSort.mp hs))

end Mapping

end EntityStore
