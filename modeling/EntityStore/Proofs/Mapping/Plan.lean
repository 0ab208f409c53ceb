import EntityStore.Proofs.Mapping.Condition
import EntityStore.Proofs.Mapping.View

/-!
The columns, joins and sort keys planned for a tree show its views: whatever names the plan gives to
tables, running its joins from a row and reading its columns yields the cells and keys of the views
of that row.
-/

set_option autoImplicit false

namespace EntityStore

/-! ### Combinations of rows under names -/

namespace Env

/-- A row, or an absent one, stands under a name. -/
def Shows (env : Env) (label : String) (a : Option Record) : Prop :=
  ∃ t, env.place? label = some ⟨label, t, a.map Record.row⟩ ∧ ∀ r, a = some r → r.table = t

/-- Rows were added in front, under names counted after one number and up to another. -/
def Extends (n m : Nat) (env env' : Env) : Prop :=
  ∃ new : Env, env' = new ++ env ∧ ∀ p ∈ new, n < labelNumber p.label ∧ labelNumber p.label ≤ m

variable {env env' env'' : Env} {n m k : Nat} {label : String} {a : Option Record}

theorem Shows.cell (h : env.Shows label a) (name : String) :
    env.cell (.column label name) = Record.cell? a name := by
  obtain ⟨t, hplace, htable⟩ := h
  cases a with
  | none => simp [Env.cell, ColumnRef.label, hplace, Record.cell?]
  | some r =>
    obtain rfl := htable r rfl
    simp [Env.cell, ColumnRef.label, hplace, Record.cell?, Record.cell]

/-- An absent row under a name. -/
def absent (label : String) : Place :=
  ⟨label, ⟨"", none, [], [], [], [], 0⟩, none⟩

theorem shows_absent (label : String) (env : Env) : Shows (absent label :: env) label none :=
  ⟨(absent label).table, by simp [Env.place?, absent], nofun⟩

theorem Shows.cons {p : Place} (h : env.Shows label a) (hne : p.label ≠ label) :
    Shows (p :: env) label a := by
  unfold Shows
  rw [place?_cons, if_neg hne]
  exact h

theorem shows_of_place? {r : Record} (h : env.place? label = some (r.place label)) :
    env.Shows label (some r) :=
  ⟨r.table, h, fun _ hr ↦ by rw [Option.some.inj hr]⟩

theorem Extends.refl (n m : Nat) (env : Env) : Extends n m env env :=
  ⟨[], rfl, by simp⟩

theorem Extends.trans {n' m' : Nat} (h : Extends n m env env') (h' : Extends n' m' env' env'')
    (hn : n ≤ n') (hm : m ≤ m') : Extends n m' env env'' := by
  obtain ⟨new, rfl, hnew⟩ := h
  obtain ⟨new', rfl, hnew'⟩ := h'
  refine ⟨new' ++ new, by rw [List.append_assoc], fun p hp ↦ ?_⟩
  rcases List.mem_append.mp hp with hp | hp
  · have := hnew' p hp
    omega
  · have := hnew p hp
    omega

theorem Extends.cons {p : Place} (hp : n < labelNumber p.label ∧ labelNumber p.label ≤ m)
    (env : Env) :
    Extends n m env (p :: env) :=
  ⟨[p], rfl, by simpa using hp⟩

/-- What stands under a name counted before or after stays there. -/
theorem Extends.place?_eq (h : Extends n m env env')
    (hlabel : labelNumber label ≤ n ∨ m < labelNumber label) :
    env'.place? label = env.place? label := by
  obtain ⟨new, rfl, hnew⟩ := h
  have hnone : new.find? (fun p ↦ p.label == label) = none := by
    refine List.find?_eq_none.mpr fun p hp ↦ ?_
    have := hnew p hp
    rintro heq
    rw [beq_iff_eq.mp heq] at this
    omega
  rw [Env.place?, List.find?_append, hnone]
  rfl

theorem Extends.shows (h : Extends n m env env')
    (hlabel : labelNumber label ≤ n ∨ m < labelNumber label) (ha : env.Shows label a) :
    env'.Shows label a := by
  unfold Shows
  rw [h.place?_eq hlabel]
  exact ha

theorem Extends.cell (h : Extends n m env env') {c : ColumnRef} (hc : labelNumber c.label ≤ n) :
    env'.cell c = env.cell c := by
  unfold Env.cell
  rw [h.place?_eq (.inl hc)]

end Env

namespace Store

variable {store : Store}

/-! ### Left joins -/

theorem candidates_eq (s : Store) (source : Source) :
    s.candidates source = (s.considered source.table).map (Record.place · source.label) := by
  unfold considered candidates
  cases s.table? source.table with
  | none => rfl
  | some t => simp [List.filterMap_map, Record.place, Function.comp_def]

theorem table_of_mem_considered {s : Store} {table : String} {t : Table}
    (ht : s.table? table = some t) {c : Record} (hc : c ∈ s.considered table) : c.table = t := by
  unfold considered candidates at hc
  rw [ht] at hc
  obtain ⟨p, hp, hrow⟩ := List.mem_filterMap.mp hc
  obtain ⟨r, -, rfl⟩ := List.mem_map.mp hp
  obtain rfl := Option.some.inj hrow
  rfl

/-- A left join puts in front what it finds, under the name of its source. -/
theorem leftJoined_eq (s : Store) (j : LeftJoin) (test : Option Test) (env : Env)
    {fits : Record → Bool}
    (hfits : ∀ c : Record, (((Env.cell (c.place j.join.source.label :: env) j.join.left).compare?
    (Env.cell (c.place j.join.source.label :: env) j.join.right) == some .eq) &&
      test.all (Test.holds (c.place j.join.source.label :: env))) = fits c) :
    ∃ place : Option Record → Place,
      s.leftJoined j test env = (s.joinedRows j.join.source.table fits).map (place · :: env) ∧
        ∀ a ∈ s.joinedRows j.join.source.table fits, (place a).label = j.join.source.label ∧
          Env.Shows (place a :: env) j.join.source.label a := by
  have hfound : ((s.candidates j.join.source).filterMap fun p ↦
      if ((Env.cell (p :: env) j.join.left).compare?
          (Env.cell (p :: env) j.join.right) == some .eq) &&
        test.all (Test.holds (p :: env)) then some (p :: env) else none) =
      ((s.considered j.join.source.table).filter fits).map
          (·.place j.join.source.label :: env) := by
    rw [candidates_eq, List.filterMap_map, ← List.filterMap_eq_map, List.filterMap_filter]
    refine List.filterMap_congr fun c _ ↦ ?_
    simp only [Function.comp_apply, hfits]
  unfold leftJoined joinedRows
  simp only [hfound]
  cases ht : s.table? j.join.source.table with
  | none => 
    have hnil : s.considered j.join.source.table = [] := by
      simp [considered, candidates, ht]
    exact ⟨fun _ ↦ Env.absent "", by simp [hnil], by simp⟩
  | some t =>
    have htable : ∀ c ∈ (s.considered j.join.source.table).filter fits, c.table = t := by
      intro c hc
      exact table_of_mem_considered ht (List.mem_filter.mp hc).1
    refine ⟨fun a ↦ ⟨j.join.source.label, t, a.map Record.row⟩, ?_, fun a ha ↦ ⟨rfl, t, ?_, ?_⟩⟩
    · cases hrows : (s.considered j.join.source.table).filter fits with
      | nil => simp
      | cons c rows =>
        rw [hrows] at htable
        rw [if_neg (by simp), List.map_map]
        refine List.map_congr_left fun d hd ↦ ?_
        simp [Record.place, htable d hd]
    · simp [Env.place?]
    · rintro r rfl
      refine htable r ?_
      cases hrows : (s.considered j.join.source.table).filter fits with
      | nil => simp [hrows] at ha
      | cons c rows => simpa [hrows] using ha

/-- The combinations that left joins make of one, one after the other. -/
def joinedAll (s : Store) (joins : List LeftJoin) (env : Env) : List Env :=
  joins.foldl (fun envs j ↦ envs.flatMap (s.leftJoined j (j.condition.map (Condition.test s))))
    [env]

theorem foldl_leftJoined (s : Store) (joins : List LeftJoin) (envs : List Env) :
    joins.foldl (fun envs j ↦ envs.flatMap (s.leftJoined j (j.condition.map (Condition.test s))))
      envs = envs.flatMap (s.joinedAll joins) := by
  induction joins generalizing envs with
  | nil => exact (List.flatMap_singleton' envs).symm
  | cons j joins ih =>
    have hcons (env : Env) : s.joinedAll (j :: joins) env =
        (s.leftJoined j (j.condition.map (Condition.test s)) env).flatMap (s.joinedAll joins) := by
      rw [joinedAll, List.foldl_cons, ih, List.flatMap_singleton]
    rw [List.foldl_cons, ih, List.flatMap_assoc]
    exact congrArg (List.flatMap · envs) (funext fun env ↦ (hcons env).symm)

theorem joinedAll_cons (s : Store) (j : LeftJoin) (joins : List LeftJoin) (env : Env) :
    s.joinedAll (j :: joins) env =
      (s.leftJoined j (j.condition.map (Condition.test s)) env).flatMap (s.joinedAll joins) := by
  rw [joinedAll, List.foldl_cons, foldl_leftJoined]
  simp

theorem joinedAll_append (s : Store) (joins joins' : List LeftJoin) (env : Env) :
    s.joinedAll (joins ++ joins') env = (s.joinedAll joins env).flatMap (s.joinedAll joins') := by
  rw [joinedAll, List.foldl_append, foldl_leftJoined]
  rfl

end Store

namespace Mapping

open Query (Tree)

/-- What the columns and the sort keys of a plan show of a combination. -/
def Plan.view (p : Plan) (env : Env) : View where
  cells := p.columns.map env.cell
  keys := p.sorts.map fun k ↦
    ⟨k.rank, k.depth, k.term.direction.getD .ascending, env.cell k.term.column⟩

/-- A plan made while names were counted from one number to another shows some views of a
combination: its joins use new names only, and its columns no later ones. -/
structure Shown (store : Store) (p : Plan) (n m : Nat) (env : Env) (vs : List View) : Prop where
  le : n ≤ m
  columns : ∀ c ∈ p.columns, labelNumber c.label ≤ m
  sorts : ∀ k ∈ p.sorts, labelNumber k.term.column.label ≤ m
  adds : ∀ env' ∈ store.joinedAll p.joins env, Env.Extends n m env env'
  views : (store.joinedAll p.joins env).map p.view = vs

namespace Shown

variable {store : Store} {p q : Plan} {n m k : Nat} {env : Env} {vs ws : List View}

theorem view_eq (h : Shown store p n m env vs) {env' env'' : Env}
    (hext : Env.Extends m k env' env'') :
    p.view env'' = p.view env' := by
  unfold Plan.view
  congr 1
  · exact List.map_congr_left fun c hc ↦ hext.cell (h.columns c hc)
  · exact List.map_congr_left fun s hs ↦ by rw [hext.cell (h.sorts s hs)]

theorem nil (store : Store) (n : Nat) (env : Env) : Shown store .none n n env [.none] where
  le := Nat.le_refl n
  columns := nofun
  sorts := nofun
  adds env' henv' := by
    obtain rfl : env' = env := by simpa [Store.joinedAll, Plan.none] using henv'
    exact .refl n n env'
  views := rfl

theorem append (hp : Shown store p n m env vs)
    (hq : ∀ env', Env.Extends n m env env' → Shown store q m k env' ws) :
    Shown store (p.append q) n k env (vs.flatMap fun v ↦ ws.map v.append) := by
  have hrefl := hq env (.refl n m env)
  refine ⟨Nat.le_trans hp.le hrefl.le, fun c hc ↦ ?_, fun s hs ↦ ?_, fun env'' henv'' ↦ ?_, ?_⟩
  · rcases List.mem_append.mp hc with hc | hc
    · exact Nat.le_trans (hp.columns c hc) hrefl.le
    · exact hrefl.columns c hc
  · rcases List.mem_append.mp hs with hs | hs
    · exact Nat.le_trans (hp.sorts s hs) hrefl.le
    · exact hrefl.sorts s hs
  · rw [Plan.append, Store.joinedAll_append] at henv''
    obtain ⟨env', henv', hin⟩ := List.mem_flatMap.mp henv''
    have hext := hp.adds env' henv'
    exact hext.trans ((hq env' hext).adds env'' hin) hp.le hrefl.le
  · have hview (env' env'' : Env) (hext : Env.Extends m k env' env'') :
        (p.append q).view env'' = (p.view env').append (q.view env'') := by
      rw [← hp.view_eq hext]
      simp [Plan.view, Plan.append, View.append]
    rw [Plan.append, Store.joinedAll_append, List.map_flatMap, ← hp.views, List.flatMap_map]
    refine List.flatMap_congr fun env' henv' ↦ ?_
    have hshown := hq env' (hp.adds env' henv')
    rw [← hshown.views, List.map_map]
    exact List.map_congr_left fun env'' henv'' ↦ hview env' env'' (hshown.adds env'' henv'')

/-- A join in front of a plan: the plan is shown for every row that the join finds. -/
theorem join {j : LeftJoin} {fits : Record → Bool} {f : Option Record → List View} {n₀ : Nat}
    (hlabel : n < labelNumber j.join.source.label ∧ labelNumber j.join.source.label ≤ m)
    (hn : n ≤ n₀)
    (hfits : ∀ c : Record, (((Env.cell (c.place j.join.source.label :: env) j.join.left).compare?
      (Env.cell (c.place j.join.source.label :: env) j.join.right) == some .eq) &&
        (j.condition.map (Condition.test store)).all
          (Test.holds (c.place j.join.source.label :: env))) = fits c)
    (hp : ∀ a env', Env.Extends n m env env' → env'.Shows j.join.source.label a →
      Shown store p n₀ m env' (f a)) :
    Shown store { p with joins := j :: p.joins } n m env
      ((store.joinedRows j.join.source.table fits).flatMap f) := by
  obtain ⟨place, hrows, hplace⟩ :=
    store.leftJoined_eq j (j.condition.map (Condition.test store)) env hfits
  have hext (p : Place) (hp : p.label = j.join.source.label) : Env.Extends n m env (p :: env) :=
    .cons (hp ▸ hlabel) env
  have hrow {a : Option Record} (ha : a ∈ store.joinedRows j.join.source.table fits) :
      Shown store p n₀ m (place a :: env) (f a) :=
    hp a _ (hext _ (hplace a ha).1) (hplace a ha).2
  -- an absent row stands for all of them, also where the join finds none
  have habsent : Shown store p n₀ m (Env.absent j.join.source.label :: env) (f none) :=
    hp none _ (hext _ rfl) (Env.shows_absent _ env)
  refine ⟨Nat.le_trans hn habsent.le, habsent.columns, habsent.sorts, fun env'' henv'' ↦ ?_, ?_⟩
  · rw [Store.joinedAll_cons, hrows] at henv''
    obtain ⟨env', henv', hin⟩ := List.mem_flatMap.mp henv''
    obtain ⟨a, ha, rfl⟩ := List.mem_map.mp henv'
    exact (hext _ (hplace a ha).1).trans ((hrow ha).adds env'' hin) hn (Nat.le_refl m)
  · rw [Store.joinedAll_cons, hrows, List.flatMap_map, List.map_flatMap]
    exact List.flatMap_congr fun a ha ↦ (hrow ha).views

end Shown

/-! ### Planning a tree -/

section

variable {store : Store} {bindings : Query.Bindings} {n m : Nat} {label : String}

theorem predicateCondition_le {p : Query.Predicate} {steps : List Query.Step} {c : Condition}
    (h : (predicateCondition bindings p label steps).run n = .ok (c, m)) : n ≤ m := by
  induction steps generalizing label n c m with
  | nil =>
    obtain ⟨v, -, -, rfl⟩ := predicateCondition_nil_ok h
    exact Nat.le_refl n
  | cons step rest ih =>
    cases predicateCondition_cons_ok h with
    | parent _ hinner | owned _ _ hinner => exact Nat.le_of_succ_le (ih hinner)
    | linked _ _ hinner => exact Nat.le_of_succ_le (Nat.le_of_succ_le (ih hinner))

theorem condition_le {f : Query.Filter} {c : Condition}
    (h : (condition bindings label f).run n = .ok (c, m)) : n ≤ m := by
  induction f generalizing n c m with
  | and l r ihl ihr | or l r ihl ihr =>
    obtain ⟨cl, k, hl, hrest⟩ := Planning.bind_eq_ok.mp h
    obtain ⟨cr, k', hr, hpure⟩ := Planning.bind_eq_ok.mp hrest
    obtain ⟨-, rfl⟩ := Planning.pure_eq_ok.mp hpure
    exact Nat.le_trans (ihl hl) (ihr hr)
  | predicate p => exact predicateCondition_le h

variable (store) in
/-- The condition of a level, if it has a filter, holds of the rows that pass the filter. -/
theorem conditions_holds {f : Option Query.Filter} {cs : List Condition}
    (h : (conditions bindings label f).run n = .ok (cs, m)) :
    n ≤ m ∧ ∀ {env : Env} {r : Record}, env.place? label = some (r.place label) →
      (cs.map (Condition.test store)).all (Test.holds env) = passes store bindings f r ∧
        (cs.head?.map (Condition.test store)).all (Test.holds env) = passes store bindings f r := by
  cases f with
  | none =>
    obtain ⟨rfl, rfl⟩ := Planning.pure_eq_ok.mp h
    exact ⟨Nat.le_refl n, fun _ ↦ ⟨rfl, rfl⟩⟩
  | some f =>
    obtain ⟨c, k, hc, hpure⟩ := Planning.bind_eq_ok.mp h
    obtain ⟨rfl, rfl⟩ := Planning.pure_eq_ok.mp hpure
    refine ⟨condition_le hc, fun henv ↦ ?_⟩
    have hholds := condition_holds_of_run store hc henv
    simp [passes, hholds]

theorem relationJoins_le {entity child target : String} {r : Query.Relation}
    {js : List LeftJoin × Join}
    (h : (relationJoins entity label child r target).run n = .ok (js, m)) : n ≤ m := by
  obtain ⟨links, join⟩ := js
  cases relationJoins_ok h with
  | parent _ | owned _ _ => exact Nat.le_refl n
  | linked _ _ => exact Nat.le_succ n

/-- The join of a single relation, with everything below the related row and beside it. -/
theorem child_shown (target column name : String) {k k₁ k₂ : Nat} {env : Env} {a b : Option Record}
    {f : Query.Level} {child other : String} {cs : List Condition} {inner others : Plan}
    {vs : Option Record → List View} {ws : List View}
    (hchild : n < labelNumber child ∧ labelNumber child ≤ k) (hlabel : labelNumber label ≤ n)
    (hcs : (conditions bindings child f.filter).run k = .ok (cs, k₁)) (hne : child ≠ other)
    (hinner : ∀ c env', env'.Shows child c → Shown store inner k₁ k₂ env' (vs c))
    (hothers : ∀ env', env'.Shows label a → Shown store others k₂ m env' ws)
    (ha : env.Shows label a) (hb : env.Shows other b) :
    Shown store { inner.append others with
      joins := ⟨⟨⟨target, child⟩, .column child column, .column other name⟩, cs.head?⟩ ::
        (inner.append others).joins } n m env
      ((store.joinedRows target fun c ↦ Record.meet (some c) column b name &&
        passes store bindings f.filter c).flatMap fun c ↦ (vs c).flatMap fun v ↦
          ws.map v.append) := by
  obtain ⟨hk, hholds⟩ := conditions_holds store hcs
  have hk₁ : k₁ ≤ k₂ := (hinner none _ (Env.shows_absent child env)).le
  have hk₂ : k₂ ≤ m := (hothers env ha).le
  have hn : n ≤ k₁ := by omega
  have hlast : labelNumber child ≤ m := by omega
  refine Shown.join ⟨hchild.1, hlast⟩ hn (fun c ↦ ?_) fun c env' hext hshows ↦ ?_
  · have hplace := Env.place?_head c child env
    have hother : Env.Shows (c.place child :: env) other b := hb.cons hne
    rw [(hholds hplace).2, Env.cell_column hplace, hother.cell]
    rfl
  · refine (hinner c env' hshows).append fun env'' hext' ↦ hothers env'' ?_
    exact hext'.shows (.inl (by omega)) (hext.shows (.inl hlabel) ha)

/-- The two joins of a single relation over links, with everything below the related row and beside
it. -/
theorem linked_shown (table : String) {k k₁ k₂ : Nat} {env : Env}
    {a : Option Record} {f : Query.Level} {child link : String} {cs : List Condition}
    {inner others : Plan} {vs : Option Record → List View} {ws : List View}
    (hchild : n < labelNumber child ∧ labelNumber child ≤ k)
    (hlink : n < labelNumber link ∧ labelNumber link ≤ k) (hne : child ≠ link)
    (hlabel : labelNumber label ≤ n)
    (hcs : (conditions bindings child f.filter).run k = .ok (cs, k₁))
    (hinner : ∀ c env', env'.Shows child c → Shown store inner k₁ k₂ env' (vs c))
    (hothers : ∀ env', env'.Shows label a → Shown store others k₂ m env' ws)
    (ha : env.Shows label a) :
    Shown store { inner.append others with
      joins := ⟨⟨⟨table, link⟩, .column link ownerColumn, .column label idName⟩, none⟩ ::
        ⟨⟨⟨f.entity, child⟩, .column child idName, .column link targetColumn⟩, cs.head?⟩ ::
          (inner.append others).joins } n m env
      (((store.joinedRows table fun l ↦ Record.meet (some l) ownerColumn a idName).flatMap fun l ↦
        store.joinedRows f.entity fun c ↦ Record.meet (some c) idName l targetColumn &&
          passes store bindings f.filter c).flatMap fun c ↦ (vs c).flatMap fun v ↦
            ws.map v.append) := by
  have hk : k ≤ k₁ := (conditions_holds store hcs).1
  have hk₁ : k₁ ≤ k₂ := (hinner none _ (Env.shows_absent child env)).le
  have hk₂ : k₂ ≤ m := (hothers env ha).le
  have hrange : n < labelNumber link ∧ labelNumber link ≤ m := by omega
  have hother : link ≠ label := by
    rintro rfl
    omega
  rw [List.flatMap_assoc]
  refine Shown.join (j :=
      ⟨⟨⟨table, link⟩, .column link ownerColumn, .column label idName⟩, none⟩) hrange
    (Nat.le_refl n) (fun l ↦ ?_) fun l env' hext hl ↦
      child_shown f.entity idName targetColumn hchild hlabel hcs hne hinner hothers
        (hext.shows (.inl hlabel) ha) hl
  have hplace := Env.place?_head l link env
  have hshows := ha.cons (p := l.place link) hother
  dsimp only
  rw [Env.cell_column hplace, hshows.cell]
  exact Bool.and_true _

/-- Planning a tree at a row of its level shows the views of the row. -/
def PlanShown (store : Store) (bindings : Query.Bindings) (t : Tree) : Prop :=
  ∀ {depth n m : Nat} {label : String} {p : Plan} {env : Env} {a : Option Record},
    (plan bindings depth label t).run n = .ok (p, m) → labelNumber label ≤ n → env.Shows label a →
      Shown store p n m env (views store bindings depth t a)

/-- The joins that reach the related row of a single relation show it, with everything below it and
beside it. -/
theorem joined_shown {entity : String} {r : Query.Relation} {f : Query.Level}
    {links : List LeftJoin} {join : Join} {k k₁ k₂ : Nat} {cs : List Condition}
    {inner others : Plan} {env : Env} {a : Option Record} {vs : Option Record → List View}
    {ws : List View}
    (hjoins : (relationJoins entity label ("t" ++ toString (n + 1)) r f.entity).run (n + 1) =
      .ok ((links, join), k))
    (hcs : (conditions bindings ("t" ++ toString (n + 1)) f.filter).run k = .ok (cs, k₁))
    (hinner : ∀ c env', env'.Shows ("t" ++ toString (n + 1)) c →
      Shown store inner k₁ k₂ env' (vs c))
    (hothers : ∀ env', env'.Shows label a → Shown store others k₂ m env' ws)
    (hlabel : labelNumber label ≤ n) (ha : env.Shows label a) :
    Shown store ((Plan.mk [] (links ++ [⟨join, cs.head?⟩]) []).append (inner.append others)) n m env
      ((singleRows store bindings entity r f a).flatMap fun c ↦ (vs c).flatMap fun v ↦
        ws.map v.append) := by
  have hnumber : labelNumber ("t" ++ toString (n + 1)) = n + 1 := labelNumber_append rfl _
  have hk := relationJoins_le hjoins
  have hne : "t" ++ toString (n + 1) ≠ label := by
    rintro rfl
    omega
  unfold singleRows
  cases relationJoins_ok hjoins with
  | parent hparent =>
    rw [if_pos hparent]
    exact child_shown _ _ _ ⟨by omega, by omega⟩ hlabel hcs hne hinner hothers ha ha
  | owned hparent hkind =>
    simp only [if_neg hparent, hkind]
    exact child_shown _ _ _ ⟨by omega, by omega⟩ hlabel hcs hne hinner hothers ha ha
  | linked hparent hkind =>
    simp only [if_neg hparent, hkind]
    have hlink : labelNumber ("l" ++ toString (n + 1 + 1)) = n + 1 + 1 := labelNumber_append rfl _
    have hlinks : "t" ++ toString (n + 1) ≠ "l" ++ toString (n + 1 + 1) := by
      intro heq
      rw [heq] at hnumber
      omega
    exact linked_shown _ ⟨by omega, by omega⟩ ⟨by omega, by omega⟩ hlinks hlabel
      hcs hinner hothers ha

theorem planRelations_shown {depth : Nat} {entity : String}
    {relations : List (Query.Relation × Tree)}
    (ih : ∀ r t, (r, t) ∈ relations → PlanShown store bindings t) {p : Plan} {env : Env}
    {a : Option Record}
    (h : (planRelations bindings depth label entity relations).run n = .ok (p, m))
    (hlabel : labelNumber label ≤ n) (ha : env.Shows label a) :
    Shown store p n m env (relationViews store bindings depth entity relations a) := by
  induction relations generalizing n m p env with
  | nil =>
    unfold planRelations at h
    obtain ⟨rfl, rfl⟩ := Planning.pure_eq_ok.mp h
    unfold relationViews
    exact .nil store n env
  | cons x rest ihrest =>
    obtain ⟨r, t⟩ := x
    have hrest : ∀ r' t', (r', t') ∈ rest → PlanShown store bindings t' :=
      fun r' t' hmem ↦ ih r' t' (List.mem_cons_of_mem _ hmem)
    unfold relationViews
    cases planRelations_cons_ok h with
    | many hmany h =>
      rw [if_pos hmany]
      exact ihrest hrest h hlabel ha
    | @single links join cs inner others k₁ k₂ k₃ hmany hjoins hcs hinner hothers =>
      rw [if_neg hmany]
      have hnumber : labelNumber ("t" ++ toString (n + 1)) = n + 1 := labelNumber_append rfl _
      have hk₁ := relationJoins_le hjoins
      have hk₂ : k₁ ≤ k₂ := (conditions_holds store hcs).1
      have hinner' (c : Option Record) (env' : Env) (hc : env'.Shows ("t" ++ toString (n + 1)) c) :
          Shown store inner k₂ k₃ env' (views store bindings (depth + 1) t c) :=
        ih r t List.mem_cons_self hinner (by omega) hc
      have hk₃ : k₂ ≤ k₃ := (hinner' none _ (Env.shows_absent _ env)).le
      exact joined_shown hjoins hcs hinner'
        (fun env' hs ↦ ihrest hrest hothers (by omega) hs) hlabel ha

theorem ofLevel_shown {level : Query.Level} {depth : Nat} {env : Env} {a : Option Record}
    (hlabel : labelNumber label ≤ n) (ha : env.Shows label a) :
    Shown store (Plan.ofLevel level depth label) n n env [View.ofLevel level depth a] where
  le := Nat.le_refl n
  columns c hc := by
    rcases List.mem_cons.mp hc with rfl | hc
    · exact hlabel
    · obtain ⟨f, -, rfl⟩ := List.mem_map.mp hc
      exact hlabel
  sorts k hk := by
    obtain ⟨f, -, hf⟩ := List.mem_filterMap.mp hk
    obtain ⟨s, -, rfl⟩ := Option.map_eq_some_iff.mp hf
    exact hlabel
  adds env' henv' := by
    obtain rfl : env' = env := by simpa [Store.joinedAll, Plan.ofLevel] using henv'
    exact .refl n n env'
  views := by
    simp only [Plan.ofLevel, Store.joinedAll, List.foldl_nil, List.map_cons,
      List.map_nil, Plan.view, View.ofLevel, ha.cell, List.map_map, List.map_filterMap,
      Function.comp_def, Option.map_map]
    simp

/-- Every tree is planned to show its views. -/
theorem plan_shown (store : Store) (t : Tree) : PlanShown store bindings t := by
  induction t using Tree.induction with
  | node level relations ih =>
    intro depth n m label p env a h hlabel ha
    obtain ⟨below, hbelow, rfl⟩ := plan_node_ok h
    have hbelow' (env' : Env) (hext : Env.Extends n n env env') :
        Shown store below n m env' (relationViews store bindings depth level.entity relations a) :=
      planRelations_shown ih hbelow hlabel (hext.shows (.inl hlabel) ha)
    simpa [views] using (ofLevel_shown hlabel ha).append hbelow'

end

end Mapping

end EntityStore
