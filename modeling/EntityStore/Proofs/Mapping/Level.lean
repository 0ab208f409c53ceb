import EntityStore.Proofs.Mapping.Plan
import EntityStore.Proofs.Store.Order

/-!
What reading a level answers, whatever names its statement gives to tables: the rows of `levelRows`,
or the fault that the store finds with the statement.
-/

set_option autoImplicit false

namespace EntityStore

namespace Mapping

open Query (Tree)

variable {store : Store} {bindings : Query.Bindings}

/-! ### The rows a statement starts from -/

/-- The combinations that a statement starts from. -/
def startEnvs (store : Store) (source : Source) (join : Option Join) : List Env :=
  match join with
  | some j => ((store.places source).map fun p ↦ [p]).flatMap (store.joined j)
  | none => (store.places source).map fun p ↦ [p]

/-- The condition that restricts a level to the owners of a scope. -/
def amongOwners (scope : Option Scope)
    (restricted : Option (ColumnRef × Option Join × List OrderTerm)) :
    List Condition :=
  match scope, restricted with
  | some s, some (c, _, _) => [.amongIds c s.owners]
  | _, _ => []

/-- The terms that sort by links show the number of a link, or there are none of both. -/
inductive ShowsLink : List OrderTerm → Env → Option Record → Prop where
  | none (env : Env) : ShowsLink [] env none
  | some {env : Env} {c : ColumnRef} {l : Record} (h : env.cell c = .integer l.row.id) :
    ShowsLink [⟨c, none⟩] env (some l)

/-- A combination that a statement starts from stands for a row and the link that led to it, also
after joins under other names. -/
structure Starts (store : Store) (main : String) (n m : Nat) (scope : Option Scope)
    (restricted : Option (ColumnRef × Option Join × List OrderTerm)) (env : Env) (r : Record)
    (l : Option Record) : Prop where
  main : env.place? main = some (r.place main)
  owner : ∀ env', Env.Extends n m env env' →
    restricted.map (fun (c, _, _) ↦ env'.cell c) = ownerCell? scope r l
  among : ∀ env', Env.Extends n m env env' →
    ((amongOwners scope restricted).map (Condition.test store)).all
      (Test.holds env') = inScope scope r l
  links : ∀ env', Env.Extends n m env env' →
    ShowsLink ((restricted.map fun (_, _, terms) ↦ terms).getD []) env' l

variable {main : String} {n m k : Nat} {scope : Option Scope}
  {restricted : Option (ColumnRef × Option Join × List OrderTerm)}

theorem starts_none (r : Record) : Starts store main n m none none [r.place main] r none where
  main := Env.place?_head r main []
  owner _ _ := rfl
  among _ _ := rfl
  links env' _ := .none env'

theorem place?_of_extends {env env' : Env} {label : String} {r : Record}
    (h : Env.Extends n m env env') (hlabel : labelNumber label ≤ n ∨ m < labelNumber label)
    (hr : env.place? label = some (r.place label)) :
    env'.place? label = some (r.place label) := by
  rw [h.place?_eq hlabel, hr]

theorem amongIds_holds {env : Env} {label column : String} {r : Record} {ids : List Int64}
    (hr : env.place? label = some (r.place label)) :
    ((Condition.amongIds (.column label column) ids).test store).holds env =
      ids.any fun n ↦ r.equals column (.integer n) := by
  rw [Condition.test, Test.holds_among, List.any_map, Env.cell_column hr, Env.affinity_column hr]
  rfl

theorem starts_owned {s : Scope} (hkind : s.relation.kind = .owned) (hmain : labelNumber main ≤ n)
    (r : Record) :
    Starts store main n m (some s) (some (.column main parentName, none, [])) [r.place main] r
      none where
  main := Env.place?_head r main []
  owner env' h := by
    have hr := place?_of_extends h (.inl hmain) (Env.place?_head r main [])
    simp [ownerCell?, hkind, Env.cell_column hr]
  among env' h := by
    have hr := place?_of_extends h (.inl hmain) (Env.place?_head r main [])
    simp [amongOwners, inScope, hkind, amongIds_holds hr]
  links env' _ := .none env'

theorem starts_linked {s : Scope} (hkind : s.relation.kind = .linked) {link : String} {j : Join}
    (hlink : m < labelNumber link) (hne : link ≠ main) (r l : Record) :
    Starts store main n m (some s)
      (some (.column link ownerColumn, some j, [⟨.rowNumber link, none⟩]))
      [l.place link, r.place main] r (some l) where
  main := by simp [Env.place?, Record.place, hne]
  owner env' h := by
    have hl := place?_of_extends h (.inr hlink) (Env.place?_head l link [r.place main])
    simp [ownerCell?, hkind, Env.cell_column hl, Record.cell?]
  among env' h := by
    have hl := place?_of_extends h (.inr hlink) (Env.place?_head l link [r.place main])
    simp [amongOwners, inScope, hkind, amongIds_holds hl]
  links env' h := by
    have hl := place?_of_extends h (.inr hlink) (Env.place?_head l link [r.place main])
    exact .some (by simp [Env.cell, ColumnRef.label, hl, Record.place])

theorem joined_link_eq {table link : String} (hne : link ≠ main) (r : Record) :
    store.joined ⟨⟨table, link⟩, .column link targetColumn, .column main idName⟩ [r.place main] =
      ((store.records table).filter fun l ↦ Record.meet (some l) targetColumn (some r) idName).map
        fun l ↦ [l.place link, r.place main] := by
  have hmain (l : Record) : Env.place? [l.place link, r.place main] main = some (r.place main) := by
    simp [Env.place?, Record.place, hne]
  simp only [Store.joined_eq, cell_place, Env.cell_column (hmain _)]
  rfl

theorem restriction_of_mapM {main : String} {s : Scope}
    {restricted : Option (ColumnRef × Option Join × List OrderTerm)}
    (h : ((some s).mapM (restriction main)).run n = .ok (restricted, m)) :
    ∃ x, restricted = some x ∧ (restriction main s).run n = .ok (x, m) := by
  rw [show Option.mapM (restriction main) (some s) = restriction main s >>=
    fun x ↦ pure (some x) from rfl] at h
  obtain ⟨x, k, hx, hpure⟩ := Planning.bind_eq_ok.mp h
  obtain ⟨rfl, rfl⟩ := Planning.pure_eq_ok.mp hpure
  exact ⟨x, rfl, hx⟩

/-- The combinations that a statement starts from, each with its row and link. -/
theorem starts_of_run (store : Store) (entity : String) (hmain : labelNumber main ≤ n) (hn : n ≤ k)
    (h : (scope.mapM (restriction main)).run k = .ok (restricted, m)) :
    k ≤ m ∧ ∃ starts : List (Env × Record × Option Record),
      starts.map Prod.fst = startEnvs store ⟨entity, main⟩ (restricted.bind fun (_, j, _) ↦ j) ∧
        starts.map Prod.snd = scopeRows store entity scope ∧
          ∀ env r l, (env, r, l) ∈ starts → Starts store main n k scope restricted env r l := by
  cases scope with
  | none =>
    obtain ⟨rfl, rfl⟩ := Planning.pure_eq_ok.mp h
    refine ⟨Nat.le_refl k, (store.records entity).map fun r ↦ ([r.place main], r, none), ?_, ?_, ?_⟩
    · simp [startEnvs, Store.places_eq]
    · simp [scopeRows]
    · intro env r l hin
      obtain ⟨r', -, heq⟩ := List.mem_map.mp hin
      cases heq
      exact starts_none r
  | some s =>
    obtain ⟨x, rfl, hx⟩ := restriction_of_mapM h
    cases restriction_ok hx with
    | owned hkind =>
      refine ⟨Nat.le_refl _, (store.records entity).map fun r ↦ ([r.place main], r, none), ?_, ?_,
        ?_⟩
      · simp [startEnvs, Store.places_eq]
      · simp [scopeRows, hkind]
      · intro env r l hin
        obtain ⟨r', -, heq⟩ := List.mem_map.mp hin
        cases heq
        exact starts_owned hkind hmain r
    | linked hkind =>
      have hnumber : labelNumber ("s" ++ toString (k + 1)) = k + 1 := labelNumber_append rfl _
      have hne : "s" ++ toString (k + 1) ≠ main := by
        rintro rfl
        omega
      refine ⟨Nat.le_succ k, (store.records entity).flatMap fun r ↦
        ((store.records (linkTableName s.source s.relation.name)).filter fun l ↦
          Record.meet (some l) targetColumn (some r) idName).map fun l ↦
            ([l.place ("s" ++ toString (k + 1)), r.place main], r, some l), ?_, ?_, ?_⟩
      · simp only [startEnvs, Option.bind_some, Store.places_eq, List.map_map, List.flatMap_map,
          Function.comp_apply, joined_link_eq hne, List.map_flatMap]
        rfl
      · simp only [scopeRows, hkind, List.map_flatMap, List.map_map]
        rfl
      · intro env r l hin
        obtain ⟨r', -, hin'⟩ := List.mem_flatMap.mp hin
        obtain ⟨l', -, heq⟩ := List.mem_map.mp hin'
        cases heq
        exact starts_linked hkind (by omega) hne r l'

/-! ### The statement of a level -/

/-- The statement of a level, put together from its parts. -/
def levelOf (t : Tree) (scope : Option Scope) (main : String) (p : Plan)
    (restricted : Option (ColumnRef × Option Join × List OrderTerm)) (cs : List Condition)
    (page : Option PageBounds) :
    Select where
  columns := p.columns ++ (restricted.map fun (c, _, _) ↦ c).toList
  source := ⟨t.level.entity, main⟩
  scope := restricted.bind fun (_, j, _) ↦ j
  joins := p.joins
  conditions := amongOwners scope restricted ++ cs
  order := (p.sorts.mergeSort SortKey.le).map SortKey.term ++
    (restricted.map fun (_, _, terms) ↦ terms).getD [] ++ [⟨.column main idName, none⟩]
  page := if scope.isNone then page.map fun b ↦ (b.limit, b.offset) else none

theorem levelSelect_ok {t : Tree} {select : Select} {page : Option PageBounds}
    (h : (levelSelect bindings t scope).run n = .ok ((select, page), m)) :
    ∃ p k restricted k₁ cs, (plan bindings 0 ("t" ++ toString (n + 1)) t).run (n + 1) = .ok (p, k) ∧
      (scope.mapM (restriction ("t" ++ toString (n + 1)))).run k = .ok (restricted, k₁) ∧
      (conditions bindings ("t" ++ toString (n + 1)) t.level.filter).run k₁ = .ok (cs, m) ∧
      pageBounds bindings t.level = .ok page ∧
      select = levelOf t scope ("t" ++ toString (n + 1)) p restricted cs page := by
  unfold levelSelect at h
  obtain ⟨main, k₀, hmain, h₁⟩ := Planning.bind_eq_ok.mp h
  obtain ⟨rfl, rfl⟩ := Planning.fresh_eq_ok.mp hmain
  obtain ⟨p, k, hp, h₂⟩ := Planning.bind_eq_ok.mp h₁
  obtain ⟨restricted, k₁, hr, h₃⟩ := Planning.bind_eq_ok.mp h₂
  obtain ⟨cs, k₂, hcs, h₄⟩ := Planning.bind_eq_ok.mp h₃
  obtain ⟨page', k₃, hpage, h₅⟩ := Planning.bind_eq_ok.mp h₄
  obtain ⟨hpage', rfl⟩ := Planning.lift_eq_ok.mp hpage
  obtain ⟨heq, rfl⟩ := Planning.pure_eq_ok.mp h₅
  cases heq
  exact ⟨p, k, restricted, k₁, cs, hp, hr, hcs, hpage', rfl⟩

/-! ### Sorting without names -/

theorem compareBy_append {α : Type} (ts us : List OrderTerm)
    (cell : α → OrderTerm → Cell) (a b : α) :
    Select.compareBy (ts ++ us) cell a b =
      (Select.compareBy ts cell a b).then (Select.compareBy us cell a b) := by
  induction ts with
  | nil => rfl
  | cons t ts ih =>
    have hcons (ts : List OrderTerm) : Select.compareBy (t :: ts) cell a b =
        (Select.compareTerm t (cell a t) (cell b t)).then (Select.compareBy ts cell a b) := rfl
    rw [List.cons_append, hcons, hcons, ih, Ordering.then_assoc]

/-- What a sort key of a plan shows of a combination. -/
def keyOf (env : Env) (k : SortKey) : Key :=
  ⟨k.rank, k.depth, k.term.direction.getD .ascending, env.cell k.term.column⟩

theorem compareBy_sorts (ks : List SortKey) (a b : Env) :
    Select.compareBy (ks.map SortKey.term) (fun env t ↦ Env.cell env t.column) a b =
      Key.orderAll (ks.map (keyOf a)) (ks.map (keyOf b)) := by
  induction ks with
  | nil => rfl
  | cons k ks ih =>
    have hterm (x y : Cell) : Select.compareTerm k.term x y =
        Key.order ⟨k.rank, k.depth, k.term.direction.getD .ascending, x⟩
          ⟨k.rank, k.depth, k.term.direction.getD .ascending, y⟩ := by
      unfold Select.compareTerm Key.order
      rcases k.term.direction with _ | _ | _ <;> rfl
    exact congrArg₂ Ordering.then (hterm _ _) ih

/-- The keys of a view by rank and depth are what the sorted keys of its plan show. -/
theorem keys_eq {p : Plan} {env : Env} {f : Found} (h : p.view env = f.view) :
    (p.sorts.mergeSort SortKey.le).map (keyOf env) = f.keys := by
  rw [Found.keys, ← h]
  exact List.map_mergeSort fun _ _ _ _ ↦ rfl

theorem compareBy_links {terms : List OrderTerm} {a b : Env} {f g : Found}
    (hf : ShowsLink terms a f.link) (hg : ShowsLink terms b g.link) :
    Select.compareBy terms (fun env t ↦ Env.cell env t.column) a b =
      f.linkCell.order g.linkCell := by
  unfold Found.linkCell
  generalize f.link = l at hf
  generalize g.link = l' at hg
  cases hf with
  | none =>
    cases hg
    rfl
  | some ha =>
    cases hg with
    | some hb =>
      simp [Select.compareBy, Select.compareKeys, Select.compareTerm, ha, hb]

/-! ### What a statement meets -/

theorem envs_eq (s : Select) :
    s.envs store =
      ((startEnvs store s.source s.scope).flatMap (store.joinedAll s.joins)).filter fun env ↦
      (s.conditions.map (Condition.test store)).all (Test.holds env) := by
  unfold Select.envs startEnvs
  cases s.scope <;> simp only [Store.foldl_leftJoined]

theorem flatMap_filter {α β : Type} (p : α → Bool) (f : α → List β) (xs : List α) :
    (xs.filter p).flatMap f = xs.flatMap fun x ↦ if p x then f x else [] := by
  induction xs with
  | nil => rfl
  | cons x xs ih => cases hx : p x <;> simp [hx, ih]

/-- Whether a level lists a row that its statement starts from. -/
def isListed (store : Store) (bindings : Query.Bindings) (t : Tree) (scope : Option Scope)
    (x : Env × Record × Option Record) : Bool :=
  inScope scope x.2.1 x.2.2 && passes store bindings t.level.filter x.2.1

/-- The combinations that joins make of the one of a start, each with the row it shows. -/
def shownFrom (store : Store) (p : Plan) (x : Env × Record × Option Record) : List (Env × Found) :=
  (store.joinedAll p.joins x.1).map fun env ↦ (env, ⟨x.2.1, x.2.2, p.view env⟩)

section

variable {env env' : Env} {r r' : Record} {l l' : Option Record} {p : Plan} {t : Tree}
  {cs : List Condition} {page : Option PageBounds}

/-- Joins leave a start as it is, and so what its row is tested for. -/
theorem joinedAll_tested {vs : List View} (hstarts : Starts store main n k scope restricted env r l)
    (hshown : Shown store p n k env vs) (hmain : labelNumber main ≤ n) {k₁ : Nat}
    (hcs : (conditions bindings main t.level.filter).run k₁ = .ok (cs, m)) :
    (store.joinedAll p.joins env).filter (fun env ↦
        ((amongOwners scope restricted ++ cs).map (Condition.test store)).all (Test.holds env)) =
      if isListed store bindings t scope (env, r, l) then store.joinedAll p.joins env else [] := by
  have heq : ∀ env' ∈ store.joinedAll p.joins env,
      ((amongOwners scope restricted ++ cs).map (Condition.test store)).all (Test.holds env') =
        isListed store bindings t scope (env, r, l) := by
    intro env' henv
    have hext := hshown.adds env' henv
    rw [List.map_append, List.all_append, hstarts.among env' hext,
      ((conditions_holds store hcs).2 (place?_of_extends hext (.inl hmain) hstarts.main)).1]
    rfl
  split
  · next htrue => exact List.filter_eq_self.mpr fun env henv ↦ (heq env henv).trans htrue
  · next hfalse => exact List.filter_eq_nil_iff.mpr fun env henv ↦ heq env henv ▸ hfalse

/-- The terms of a level's statement sort combinations as the rows that they show are sorted. -/
theorem compareBy_found {start start' : Env}
    (hstarts : Starts store main n k scope restricted start r l)
    (hstarts' : Starts store main n k scope restricted start' r' l') (hmain : labelNumber main ≤ n)
    (hext : Env.Extends n k start env) (hext' : Env.Extends n k start' env') :
    Select.compareBy (levelOf t scope main p restricted cs page).order
      (fun env t ↦ Env.cell env t.column) env env' =
      Found.order ⟨r, l, p.view env⟩ ⟨r', l', p.view env'⟩ := by
  have hplace := place?_of_extends hext (.inl hmain) hstarts.main
  have hplace' := place?_of_extends hext' (.inl hmain) hstarts'.main
  unfold levelOf
  rw [compareBy_append, compareBy_append, compareBy_sorts, Ordering.then_assoc, Found.order,
    keys_eq (f := ⟨r, l, p.view env⟩) rfl, keys_eq (f := ⟨r', l', p.view env'⟩) rfl,
    compareBy_links (f := ⟨r, l, p.view env⟩) (g := ⟨r', l', p.view env'⟩) (hstarts.links env hext)
      (hstarts'.links env' hext')]
  simp only [Select.compareBy, List.map_cons, List.map_nil, Select.compareKeys, Select.compareTerm,
    Env.cell_column hplace, Env.cell_column hplace', Ordering.then_eq]

end

/-- The combinations of a level's statement, each with the row it shows. -/
theorem envs_found (store : Store) {t : Tree} {select : Select} {page : Option PageBounds}
    (h : (levelSelect bindings t scope).run n = .ok ((select, page), m)) :
    ∃ pairs : List (Env × Found), pairs.map Prod.fst = select.envs store ∧
      pairs.map Prod.snd = found store bindings t scope ∧
      (∀ x ∈ pairs, select.columns.map (Env.cell x.1) = x.2.cells scope) ∧
      ∀ x ∈ pairs, ∀ y ∈ pairs,
        Select.compareBy select.order (fun env t ↦ Env.cell env t.column) x.1
          y.1 = x.2.order y.2 := by
  obtain ⟨p, k, restricted, k₁, cs, hp, hr, hcs, -, rfl⟩ := levelSelect_ok h
  have hmain : labelNumber ("t" ++ toString (n + 1)) ≤ n + 1 :=
    Nat.le_of_eq (labelNumber_append rfl _)
  have hk : n + 1 ≤ k := (plan_shown store t hp hmain (Env.shows_absent _ [])).le
  obtain ⟨-, starts, hfst, hsnd, hstarts⟩ := starts_of_run store t.level.entity hmain hk hr
  have hshown (x : Env × Record × Option Record) (hx : x ∈ starts) :
      Shown store p (n + 1) k x.1 (views store bindings 0 t (some x.2.1)) :=
    plan_shown store t hp hmain (Env.shows_of_place? (hstarts _ _ _ hx).main)
  -- a combination comes from a start, which it extends
  have horigin (y : Env × Found)
      (hy : y ∈ (starts.filter (isListed store bindings t scope)).flatMap (shownFrom store p)) :
      ∃ x ∈ starts, ∃ env, Env.Extends (n + 1) k x.1 env ∧
      (env, ⟨x.2.1, x.2.2, p.view env⟩) = y := by
    obtain ⟨x, hx, hmem⟩ := List.mem_flatMap.mp hy
    obtain ⟨env, henv, rfl⟩ := List.mem_map.mp hmem
    have hin := (List.mem_filter.mp hx).1
    exact ⟨x, hin, env, (hshown x hin).adds env henv, rfl⟩
  refine ⟨(starts.filter (isListed store bindings t scope)).flatMap (shownFrom store p),
    ?_, ?_, fun y hy ↦ ?_, fun y hy y' hy' ↦ ?_⟩
  · rw [envs_eq]
    dsimp only [levelOf]
    rw [← hfst, List.flatMap_map, List.filter_flatMap, List.map_flatMap, flatMap_filter]
    refine List.flatMap_congr fun x hx ↦ ?_
    rw [joinedAll_tested (hstarts _ _ _ hx) (hshown x hx) hmain hcs, shownFrom, List.map_map]
    split
    · exact List.map_id _
    · rfl
  · rw [found, ← hsnd, List.map_flatMap, List.filter_map, List.flatMap_map]
    refine List.flatMap_congr fun ⟨env, r, l⟩ hx ↦ ?_
    dsimp only
    rw [← (hshown _ (List.mem_filter.mp hx).1).views, shownFrom, List.map_map, List.map_map]
    rfl
  · obtain ⟨x, hx, env, hext, rfl⟩ := horigin y hy
    rw [Found.cells, ← (hstarts _ _ _ hx).owner env hext, levelOf, List.map_append]
    cases restricted <;> rfl
  · obtain ⟨x, hx, env, hext, rfl⟩ := horigin y hy
    obtain ⟨x', hx', env', hext', rfl⟩ := horigin y' hy'
    exact compareBy_found (hstarts _ _ _ hx) (hstarts _ _ _ hx') hmain hext hext'

/-! ### Making statements never fails -/

theorem conditions_succeeds {f : Option Query.Filter} (hf : ∀ g, f = some g → g.Bound bindings)
    (label : String) : (conditions bindings label f).Succeeds := by
  cases f with
  | none => exact .pure _
  | some f => exact .bind (condition_succeeds (hf f rfl) label) fun c ↦ .pure _

theorem relationJoins_succeeds (entity label child : String)
    (r : Query.Relation) (target : String) :
    (relationJoins entity label child r target).Succeeds := by
  unfold relationJoins
  split
  · exact .pure _
  · split
    · exact .pure _
    · exact .bind (.fresh "l") fun link ↦ .pure _

theorem planRelations_succeeds {relations : List (Query.Relation × Tree)}
    (ih : ∀ r t, (r, t) ∈ relations → ∀ depth label, (plan bindings depth label t).Succeeds)
    (hbound : ∀ r t, (r, t) ∈ relations → t.Bound bindings) (depth : Nat) (label entity : String) :
    (planRelations bindings depth label entity relations).Succeeds := by
  induction relations with
  | nil => exact .pure _
  | cons x rest ihrest =>
    obtain ⟨r, t⟩ := x
    have hrest := ihrest (fun r t hmem ↦ ih r t (List.mem_cons_of_mem _ hmem))
      fun r t hmem ↦ hbound r t (List.mem_cons_of_mem _ hmem)
    unfold planRelations
    split
    · exact hrest
    · refine .bind (.fresh "t") fun child ↦ .bind (relationJoins_succeeds _ _ _ _ _) fun js ↦ ?_
      refine .bind (conditions_succeeds (hbound r t List.mem_cons_self).filter child) fun cs ↦ ?_
      exact .bind (ih r t List.mem_cons_self _ child) fun inner ↦ .bind hrest fun others ↦ .pure _

theorem plan_succeeds {t : Tree} (h : ∀ u ∈ t.nodes, u.Bound bindings)
    (depth : Nat) (label : String) :
    (plan bindings depth label t).Succeeds := by
  induction t using Tree.induction generalizing depth label with
  | node level relations ih =>
    unfold plan
    refine .bind
      (planRelations_succeeds (fun r t hmem ↦ ?_) (fun r t hmem ↦ ?_) depth label level.entity)
      fun below ↦ .pure _
    · exact ih r t hmem fun u hu ↦ h u (Tree.mem_nodes.mpr (.inr ⟨r, t, hmem, hu⟩))
    · exact h t (Tree.mem_nodes_relation (t := .node level relations) hmem)

theorem restriction_succeeds (main : String) (s : Scope) : (restriction main s).Succeeds := by
  unfold restriction
  split
  · exact .pure _
  · exact .bind (.fresh "s") fun link ↦ .pure _

theorem pageBounds_ok {t : Tree} (h : t.Bound bindings) :
    ∃ page, pageBounds bindings t.level = .ok page := by
  obtain ⟨limit, hlimit⟩ := h.limit
  obtain ⟨page, hpage⟩ := h.page
  exact ⟨_, Except.bind_eq_ok.mpr ⟨limit, hlimit, Except.bind_eq_ok.mpr ⟨page, hpage, rfl⟩⟩⟩

theorem levelSelect_succeeds {t : Tree} (h : ∀ u ∈ t.nodes, u.Bound bindings)
    (scope : Option Scope) :
    (levelSelect bindings t scope).Succeeds := by
  have hself := h t t.mem_nodes_self
  obtain ⟨page, hpage⟩ := pageBounds_ok hself
  unfold levelSelect
  refine .bind (.fresh "t") fun main ↦ .bind (plan_succeeds h 0 main)
    fun p ↦ .bind ?_ fun restricted ↦ ?_
  · cases scope with
    | none => exact .pure _
    | some s => exact .bind (restriction_succeeds main s) fun x ↦ .pure _
  · exact .bind (conditions_succeeds hself.filter main) fun cs ↦ .bind (.lift hpage) fun b ↦ .pure _

/-! ### The rows of a statement -/

theorem paged_map {α β : Type} (f : α → β) (page : Option (Int64 × Int64)) (xs : List α) :
    (Select.paged page xs).map f = Select.paged page (xs.map f) := by
  unfold Select.paged
  split
  · split <;> simp [List.map_take, List.map_drop]
  · rfl

/-- The cells that a level's statement answers are those of the rows it meets, in their order. -/
theorem sorted_found {t : Tree} {select : Select} {page : Option PageBounds}
    (h : (levelSelect bindings t scope).run n = .ok ((select, page), m)) :
    (select.sorted (select.envs store)).map (fun env ↦ select.columns.map (Env.cell env)) =
      ((found store bindings t scope).mergeSort fun a b ↦ a.order b != .gt).map
        (Found.cells scope) := by
  obtain ⟨pairs, hfst, hsnd, hcells, horder⟩ := envs_found store h
  have henvs :=
    map_mergeSort_fst (Select.compareBy select.order fun env t ↦ Env.cell env t.column) pairs
  rw [Select.sorted_eq, ← hfst, ← henvs, ← hsnd, ← map_mergeSort_snd horder,
    List.map_map, List.map_map]
  exact List.map_congr_left fun x hx ↦ hcells x (List.mem_mergeSort.mp hx)

/-- The rows of a level, sorted, are in order. -/
theorem pairwise_found (store : Store) {t : Tree} (h : ∀ u ∈ t.nodes, u.Bound bindings)
    (scope : Option Scope) :
    ((found store bindings t scope).mergeSort fun a b ↦ a.order b != .gt).Pairwise
      fun a b ↦ a.order b ≠ .gt := by
  obtain ⟨⟨select, page⟩, m, hrun⟩ := levelSelect_succeeds h scope 0
  obtain ⟨pairs, -, hsnd, -, horder⟩ := envs_found store hrun
  rw [← hsnd]
  exact pairwise_mergeSort_snd horder

/-- Sorting the rows of a level leaves of some of them what it gives for them alone. -/
theorem filter_found (store : Store) {t : Tree} (h : ∀ u ∈ t.nodes, u.Bound bindings)
    (scope : Option Scope) (p : Found → Bool) :
    ((found store bindings t scope).mergeSort fun a b ↦ a.order b != .gt).filter p =
      ((found store bindings t scope).filter p).mergeSort fun a b ↦ a.order b != .gt := by
  obtain ⟨⟨select, page⟩, m, hrun⟩ := levelSelect_succeeds h scope 0
  obtain ⟨pairs, -, hsnd, -, horder⟩ := envs_found store hrun
  rw [← hsnd]
  exact filter_mergeSort_snd horder p

end Mapping

end EntityStore
