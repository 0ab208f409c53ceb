import EntityStore.Proofs.Mapping.Served
import Mathlib.Data.List.Forall2

/-!
Stores that differ in some columns only. A select statement that names none of these columns answers
the same in both (`Select.run_alike`): row by row they give places, combinations and keys of sorting
that look the same.
-/

set_option autoImplicit false

namespace List

variable {α β : Type} {R : α → β → Prop}

theorem Forall₂.exists_zip {xs : List α} {ys : List β} (h : Forall₂ R xs ys) :
    ∃ zs : List (α × β), zs.map Prod.fst = xs ∧ zs.map Prod.snd = ys ∧ ∀ z ∈ zs, R z.1 z.2 := by
  induction h with
  | nil => exact ⟨[], rfl, rfl, nofun⟩
  | @cons x y xs ys hxy _ ih =>
    obtain ⟨zs, rfl, rfl, hzs⟩ := ih
    exact ⟨(x, y) :: zs, rfl, rfl, forall_mem_cons.mpr ⟨hxy, hzs⟩⟩

/-- Sorting keeps what belongs together, if both sides compare alike. -/
theorem Forall₂.mergeSort {xs : List α} {ys : List β} (h : Forall₂ R xs ys) {le : α → α → Bool}
    {le' : β → β → Bool} (hle : ∀ x y x' y', R x y → R x' y' → le x x' = le' y y') :
    Forall₂ R (xs.mergeSort le) (ys.mergeSort le') := by
  obtain ⟨zs, rfl, rfl, hzs⟩ := h.exists_zip
  rw [← map_mergeSort (r := fun z z' ↦ le z.1 z'.1) fun _ _ _ _ ↦ rfl,
    ← map_mergeSort (r := fun z z' ↦ le z.1 z'.1) fun z hz z' hz' ↦ hle _ _ _ _
      (hzs z hz) (hzs z' hz')]
  rw [forall₂_map_left_iff, forall₂_map_right_iff, forall₂_same]
  exact fun z hz ↦ hzs z (mem_mergeSort.mp hz)

theorem forM_congr {ε : Type} {xs : List α} {f g : α → Except ε Unit} (h : ∀ x ∈ xs, f x = g x) :
    xs.forM f = xs.forM g := by
  induction xs with
  | nil => rfl
  | cons x xs ih =>
    obtain ⟨hx, hxs⟩ := forall_mem_cons.mp h
    exact congrArg₂ (fun x rest ↦ x >>= fun _ ↦ rest) hx (ih hxs)

theorem Forall₂.map_eq {γ : Type} {xs : List α} {ys : List β} (h : Forall₂ R xs ys)
    {f : α → γ} {g : β → γ} (hfg : ∀ x y, R x y → g y = f x) : ys.map g = xs.map f := by
  induction h with
  | nil => rfl
  | cons hxy _ ih => rw [map_cons, map_cons, hfg _ _ hxy, ih]

end List

namespace EntityStore

/-- Rows of a table with one number and the same cells in some columns. -/
def Table.SameRow (t : Table) (seen : String → Prop) (r r' : StoredRow) : Prop :=
  r'.id = r.id ∧ ∀ name, seen name → t.cellOf r' name = t.cellOf r name

/-- Tables that differ in the cells of some columns only. The rows of a table without row numbers
stand in the order of all their cells, so that such a table may not differ at all. -/
structure Table.Alike (seen : String → Prop) (t u : Table) : Prop where
  shape : u = { t with rows := u.rows }
  rows : List.Forall₂ (t.SameRow seen) t.rows u.rows
  order : t.rowColumn.isSome ∨ t = u

/-- The columns seen of a source are alike in two stores. -/
def Source.Alike (seen : String → String → Prop) (a b : Store) (x : Source) : Prop :=
  Option.Rel (Table.Alike (seen x.label)) (a.table? x.table) (b.table? x.table)

/-- Places that look the same through the columns seen of their label. -/
structure Place.Alike (seen : String → String → Prop) (p q : Place) : Prop where
  label : q.label = p.label
  table : q.table = { p.table with rows := q.table.rows }
  row : Option.Rel (p.table.SameRow (seen p.label)) p.row q.row

def Env.Alike (seen : String → String → Prop) (env env' : Env) : Prop :=
  List.Forall₂ (Place.Alike seen) env env'

/-- The row number of a label is always seen. -/
def ColumnRef.Seen (seen : String → String → Prop) : ColumnRef → Prop
  | .column label name => seen label name
  | .rowNumber _ => True

variable {seen : String → String → Prop} {a b : Store} {env env' : Env} {c : ColumnRef} {x : Source}

theorem Table.Alike.refl (visible : String → Prop) (t : Table) : t.Alike visible t :=
  ⟨rfl, List.forall₂_same.mpr fun _ _ ↦ ⟨rfl, fun _ _ ↦ rfl⟩, .inr rfl⟩

theorem Table.Alike.hasColumn {t u : Table} {visible : String → Prop}
    (h : t.Alike visible u) (name : String) :
    u.hasColumn name = t.hasColumn name := by
  rw [h.shape]
  rfl

/-! ### Combinations of rows -/

namespace Env

theorem Alike.place? (h : Alike seen env env') (label : String) :
    Option.Rel (Place.Alike seen) (env.place? label) (env'.place? label) := by
  unfold Env.place?
  induction h with
  | nil => exact .none
  | @cons p q env env' hpq _ ih =>
    rw [List.find?_cons, List.find?_cons, hpq.label]
    split
    · exact .some hpq
    · exact ih

theorem Alike.cell (h : Alike seen env env') (hc : c.Seen seen) : env'.cell c = env.cell c := by
  have hplace := h.place? c.label
  have hlabel (p : Place) (hp : env.place? c.label = some p) : p.label = c.label := by
    simpa using List.find?_some hp
  unfold Env.cell
  generalize env.place? c.label = p?, env'.place? c.label = q? at hplace hlabel ⊢
  cases hplace with
  | none => rfl
  | @some p q hpq =>
    have hlabel : p.label = c.label := hlabel p rfl
    obtain ⟨label, t, row⟩ := p
    obtain ⟨label', u, row'⟩ := q
    obtain ⟨-, htable, hrow⟩ := hpq
    cases hrow with
    | none => rfl
    | @some r r' hsame =>
      cases c with
      | column label name =>
        obtain rfl := hlabel
        dsimp only at htable ⊢
        rw [htable]
        exact hsame.2 name hc
      | rowNumber label => exact congrArg Cell.integer hsame.1

theorem Alike.affinity (h : Alike seen env env') (c : ColumnRef) :
    env'.affinity c = env.affinity c := by
  have hplace := h.place? c.label
  unfold Env.affinity
  generalize env.place? c.label = p?, env'.place? c.label = q? at hplace ⊢
  cases hplace with
  | none => cases c <;> rfl
  | @some p q hpq =>
    cases c with
    | column label name =>
      dsimp only
      rw [hpq.table]
      rfl
    | rowNumber label => rfl

end Env

/-- A test that looks at seen columns only; one for membership in nothing looks at none. -/
def Test.Seen (seen : String → String → Prop) : Test → Prop
  | .both l r | .either l r => l.Seen seen ∧ r.Seen seen
  | .compare c _ _ | .isNull c | .notNull c => c.Seen seen
  | .among c vs => vs = [] ∨ c.Seen seen

theorem Test.Seen.eval {test : Test} (h : test.Seen seen) (henv : Env.Alike seen env env') :
    test.eval env' = test.eval env := by
  induction test with
  | both l r ihl ihr | either l r ihl ihr => rw [Test.eval, Test.eval, ihl h.1, ihr h.2]
  | compare c op v => rw [Test.eval, Test.eval, henv.cell h, henv.affinity]
  | isNull c | notNull c => rw [Test.eval, Test.eval, henv.cell h]
  | among c vs =>
    rcases h with rfl | h
    · rfl
    · rw [Test.eval, Test.eval, henv.cell h, henv.affinity]

theorem Test.Seen.holds {test : Test} (h : test.Seen seen) (henv : Env.Alike seen env env') :
    test.holds env' = test.holds env := by
  unfold Test.holds
  rw [h.eval henv]

/-- The combinations that a test keeps. -/
theorem Test.Seen.filter {test : Test} (h : test.Seen seen) {envs envs' : List Env}
    (henvs : List.Forall₂ (Env.Alike seen) envs envs') :
    List.Forall₂ (Env.Alike seen) (envs.filter fun env ↦ test.holds env)
      (envs'.filter fun env ↦ test.holds env) := by
  refine List.rel_filter (fun env env' henv ↦ ?_) henvs
  dsimp only
  rw [h.holds henv]

/-! ### Sources and joins -/

namespace Source

theorem Alike.place_rows {t u : Table} {rows rows' : List StoredRow}
    (htable : u = { t with rows := u.rows })
    (hrows : List.Forall₂ (t.SameRow (seen x.label)) rows rows') :
    List.Forall₂ (Place.Alike seen) (rows.map fun r ↦ ⟨x.label, t, some r⟩)
      (rows'.map fun r ↦ ⟨x.label, u, some r⟩) := by
  rw [List.forall₂_map_left_iff, List.forall₂_map_right_iff]
  exact hrows.imp fun r r' hsame ↦ ⟨rfl, htable, .some hsame⟩

theorem Alike.places (h : x.Alike seen a b) : List.Forall₂ (Place.Alike seen)
    (a.places x) (b.places x) := by
  unfold Source.Alike at h
  unfold Store.places
  generalize a.table? x.table = t?, b.table? x.table = u? at h ⊢
  cases h with
  | none => exact .nil
  | some htable => exact place_rows htable.shape htable.rows

theorem Alike.candidates (h : x.Alike seen a b) :
    List.Forall₂ (Place.Alike seen) (a.candidates x) (b.candidates x) := by
  unfold Source.Alike at h
  unfold Store.candidates
  generalize a.table? x.table = t?, b.table? x.table = u? at h ⊢
  cases h with
  | none => exact .nil
  | @some t u htable =>
    refine place_rows htable.shape ?_
    have hcolumn : u.rowColumn = t.rowColumn := by rw [htable.shape]
    dsimp only
    rcases htable.order with hcounted | rfl
    · rw [if_pos hcounted, hcolumn, if_pos hcounted]
      exact htable.rows
    · exact List.forall₂_same.mpr fun _ _ ↦ ⟨rfl, fun _ _ ↦ rfl⟩

end Source

/-- A join over seen columns of sources that are alike. -/
structure Join.Alike (seen : String → String → Prop) (a b : Store) (j : Join) : Prop where
  source : j.source.Alike seen a b
  left : j.left.Seen seen
  right : j.right.Seen seen

variable {j : Join}

theorem Join.Alike.joined (h : j.Alike seen a b) (henv : Env.Alike seen env env') :
    List.Forall₂ (Env.Alike seen) (a.joined j env) (b.joined j env') := by
  refine List.rel_filterMap (fun p q hpq ↦ ?_) h.source.places
  have hcons : Env.Alike seen (p :: env) (q :: env') := .cons hpq henv
  dsimp only
  rw [hcons.cell h.left, hcons.cell h.right]
  split
  · exact .some hcons
  · exact .none

/-! ### Conditions -/

/-- The nested selects of a condition pick the same in both stores. -/
theorem Condition.test_alike {c : Condition} (hsources : ∀ x ∈ c.sources, x.Alike seen a b)
    {joined : Bool} (hcolumns : ∀ x ∈ c.columns joined, x.1.Seen seen) :
    c.test b = c.test a ∧ (c.test a).Seen seen := by
  induction c generalizing joined with
  | both l r ihl ihr | either l r ihl ihr =>
    obtain ⟨hl, hr⟩ := List.forall_mem_append.mp hsources
    obtain ⟨hl', hr'⟩ := List.forall_mem_append.mp hcolumns
    obtain ⟨hleft, hseen⟩ := ihl hl hl'
    obtain ⟨hright, hseen'⟩ := ihr hr hr'
    exact ⟨by rw [Condition.test, Condition.test, hleft, hright], hseen, hseen'⟩
  | compare c | isNull c | notNull c =>
    exact ⟨rfl, hcolumns (c, joined) (List.mem_singleton_self _)⟩
  | amongIds c ids => exact ⟨rfl, .inr (hcolumns (c, joined) (List.mem_singleton_self _))⟩
  | among c vs =>
    refine ⟨rfl, ?_⟩
    cases vs with
    | nil => exact .inl rfl
    | cons v vs => exact .inr (hcolumns (c, joined) (List.mem_singleton_self _))
  | within c picked source join inner ih =>
    obtain ⟨hsource, hinner⟩ := List.forall_mem_append.mp hsources
    obtain ⟨hsource, hjoin⟩ := List.forall_mem_cons.mp hsource
    obtain ⟨hrest, hc⟩ := List.forall_mem_append.mp hcolumns
    obtain ⟨hrest, hrule⟩ := List.forall_mem_append.mp hrest
    obtain ⟨hpicked, hinner'⟩ := List.forall_mem_cons.mp hrest
    obtain ⟨htest, hseen⟩ := ih hinner hinner'
    refine ⟨?_, .inr (hc (c, joined) (List.mem_singleton_self _))⟩
    rw [Condition.test, Condition.test, htest]
    refine congrArg (Test.among c)
      ((hseen.filter (List.rel_flatMap hsource.places fun p q hpq ↦ ?_)).map_eq
      fun env env' henv ↦ henv.cell hpicked)
    have hone : Env.Alike seen [p] [q] := .cons hpq .nil
    cases join with
    | none => exact .cons hone .nil
    | some j =>
      have hj : j.Alike seen a b :=
        ⟨hjoin _ (List.mem_singleton_self _), hrule _ List.mem_cons_self,
        hrule _ (List.mem_cons_of_mem _ (List.mem_singleton_self _))⟩
      exact hj.joined hone

/-! ### Statements -/

/-- A table that a nested select reads from is among those of the condition. -/
theorem Condition.mem_sources_of_origin {c : Condition} {table : String}
    (h : .table table ∈ c.origins) :
    ∃ x ∈ c.sources, x.table = table := by
  induction c with
  | both l r ihl ihr | either l r ihl ihr =>
    rcases List.mem_append.mp h with h | h
    · obtain ⟨x, hx, htable⟩ := ihl h
      exact ⟨x, List.mem_append_left _ hx, htable⟩
    · obtain ⟨x, hx, htable⟩ := ihr h
      exact ⟨x, List.mem_append_right _ hx, htable⟩
  | compare c | isNull c | notNull c | among c vs => cases h
  | amongIds c ids => cases List.mem_singleton.mp h
  | within c picked source join inner ih =>
    rcases List.mem_append.mp h with h | h
    · cases join with
      | none =>
        cases List.mem_singleton.mp h
        exact ⟨source, List.mem_cons_self, rfl⟩
      | some j =>
        rcases List.mem_cons.mp h with h | h
        · cases h
          exact ⟨source, List.mem_cons_self, rfl⟩
        · cases List.mem_singleton.mp h
          exact ⟨j.source, List.mem_cons_of_mem _ List.mem_cons_self, rfl⟩
    · obtain ⟨x, hx, htable⟩ := ih h
      exact ⟨x, List.mem_append_right _ hx, htable⟩

theorem Select.mem_sources_of_origin {select : Select} {table : String}
    (h : .table table ∈ select.origins) :
    ∃ x ∈ select.sources, x.table = table := by
  rcases mem_origins.mp h with h | ⟨j, hj, h⟩ | ⟨j, hj, h⟩ | ⟨c, hc, h⟩
  · cases h
    exact ⟨_, mem_sources.mpr (.inl rfl), rfl⟩
  · cases h
    exact ⟨_, mem_sources.mpr (.inr (.inl ⟨j, hj, rfl⟩)), rfl⟩
  · rcases List.mem_cons.mp h with h | h
    · cases h
      exact ⟨_, mem_sources.mpr (.inr (.inr (.inl ⟨j, hj, List.mem_cons_self⟩))), rfl⟩
    · obtain ⟨c, hc, h⟩ := List.mem_flatMap.mp h
      obtain ⟨x, hx, htable⟩ := Condition.mem_sources_of_origin h
      have hx : x ∈ j.sources := List.mem_cons_of_mem _ (List.mem_flatMap.mpr ⟨c, hc, hx⟩)
      exact ⟨x, mem_sources.mpr (.inr (.inr (.inl ⟨j, hj, hx⟩))), htable⟩
  · obtain ⟨x, hx, htable⟩ := Condition.mem_sources_of_origin h
    exact ⟨x, mem_sources.mpr (.inr (.inr (.inr ⟨c, hc, hx⟩))), htable⟩

/-- A left join over seen columns of sources that are alike. -/
structure LeftJoin.Alike (seen : String → String → Prop) (a b : Store) (j : LeftJoin) : Prop where
  join : j.join.Alike seen a b
  condition : ∀ c ∈ j.condition, (∀ x ∈ c.sources, x.Alike seen a b) ∧
    ∀ x ∈ c.columns true, x.1.Seen seen

theorem LeftJoin.Alike.leftJoined {j : LeftJoin} (h : j.Alike seen a b)
    (henv : Env.Alike seen env env') :
    List.Forall₂ (Env.Alike seen) (a.leftJoined j (j.condition.map (Condition.test a)) env)
      (b.leftJoined j (j.condition.map (Condition.test b)) env') := by
  have htest (env env' : Env) (henv : Env.Alike seen env env') :
      (j.condition.map (Condition.test b)).all (Test.holds env') =
        (j.condition.map (Condition.test a)).all (Test.holds env) := by
    cases hcondition : j.condition with
    | none => rfl
    | some c =>
      obtain ⟨hsources, hcolumns⟩ := h.condition c hcondition
      obtain ⟨htest, hseen⟩ := Condition.test_alike hsources hcolumns
      simp only [Option.map_some, Option.all_some, htest, hseen.holds henv]
  have hfits : List.Forall₂ (Env.Alike seen)
      ((a.candidates j.join.source).filterMap fun p ↦
        let env : Env := p :: env
        if (env.cell j.join.left).compare? (env.cell j.join.right) == some .eq &&
          (j.condition.map (Condition.test a)).all (Test.holds env) then some env else none)
      ((b.candidates j.join.source).filterMap fun p ↦
        let env : Env := p :: env'
        if (env.cell j.join.left).compare? (env.cell j.join.right) == some .eq &&
          (j.condition.map (Condition.test b)).all (Test.holds env) then some env else none) := by
    refine List.rel_filterMap (fun p q hpq ↦ ?_) h.join.source.candidates
    have hcons : Env.Alike seen (p :: env) (q :: env') := .cons hpq henv
    dsimp only
    rw [hcons.cell h.join.left, hcons.cell h.join.right, htest _ _ hcons]
    split
    · exact .some hcons
    · exact .none
  unfold Store.leftJoined
  dsimp only at hfits ⊢
  generalize List.filterMap _ (a.candidates _) = fits,
    List.filterMap _ (b.candidates _) = fits' at hfits ⊢
  cases hfits with
  | nil =>
    have hsource := h.join.source
    unfold Source.Alike at hsource
    simp only [List.isEmpty_nil, ↓reduceIte]
    generalize a.table? j.join.source.table = t?, b.table? j.join.source.table = u? at hsource ⊢
    cases hsource with
    | none => exact .nil
    | some htable => exact .cons (.cons ⟨rfl, htable.shape, .none⟩ henv) .nil
  | cons hfirst hrest => exact .cons hfirst hrest

/-- Left joins, one after the other. -/
theorem LeftJoin.foldl_alike {joins : List LeftJoin} (h : ∀ j ∈ joins, j.Alike seen a b)
    {envs envs' : List Env} (henvs : List.Forall₂ (Env.Alike seen) envs envs') :
    List.Forall₂ (Env.Alike seen)
      (joins.foldl (fun envs j ↦
        envs.flatMap (a.leftJoined j (j.condition.map (Condition.test a)))) envs)
      (joins.foldl (fun envs j ↦
        envs.flatMap (b.leftJoined j (j.condition.map (Condition.test b)))) envs') := by
  induction joins generalizing envs envs' with
  | nil => exact henvs
  | cons j joins ih =>
    obtain ⟨hj, hrest⟩ := List.forall_mem_cons.mp h
    exact ih hrest (List.rel_flatMap henvs fun env env' henv ↦ hj.leftJoined henv)

namespace Select

/-- A statement over seen columns of sources that are alike, for stores that both or neither list
scopes. -/
structure Alike (seen : String → String → Prop) (a b : Store) (select : Select) : Prop where
  sources : ∀ x ∈ select.sources, x.Alike seen a b
  columns : ∀ x ∈ select.columnRefs, x.1.Seen seen
  lists : b.ListsScopes ↔ a.ListsScopes

variable {select : Select}

theorem Alike.check (h : select.Alike seen a b) : select.check b = select.check a := by
  have htable {x : Source} (hx : x ∈ select.sources) :
      ((b.table? x.table).isSome = (a.table? x.table).isSome) ∧
        ∀ name, ((b.table? x.table).any fun t ↦ t.hasColumn name) = (a.table? x.table).any fun t ↦
          t.hasColumn name := by
    have hsource := h.sources x hx
    unfold Source.Alike at hsource
    generalize a.table? x.table = t?, b.table? x.table = u? at hsource ⊢
    cases hsource with
    | none => exact ⟨rfl, fun _ ↦ rfl⟩
    | some htable => exact ⟨rfl, htable.hasColumn⟩
  have hfinds (c : ColumnRef) : select.finds b c = select.finds a c := by
    cases c with
    | rowNumber label => rfl
    | column label name =>
      unfold Select.finds
      dsimp only
      split
      · next x hx => exact (htable (List.mem_of_find?_eq_some hx)).2 name
      · rfl
  have horigins : ∀ o ∈ select.origins, b.resolve o = a.resolve o := by
    intro o ho
    cases o with
    | table name =>
      obtain ⟨x, hx, rfl⟩ := mem_sources_of_origin ho
      rw [Store.resolve, Store.resolve, (htable hx).1]
    | members =>
      have hlists : (b.table? listingName).isSome = (a.table? listingName).isSome := by
        rw [Bool.eq_iff_iff, ← Option.ne_none_iff_isSome, ← Option.ne_none_iff_isSome]
        exact not_congr h.lists
      rw [Store.resolve, Store.resolve, hlists]
  unfold Select.check
  rw [List.forM_congr horigins]
  simp only [hfinds]

theorem Alike.scope (h : select.Alike seen a b) :
    ∀ j ∈ select.scope, j.Alike seen a b := fun j hj ↦ by
  have hcolumn (c : ColumnRef) (hc : c = j.left ∨ c = j.right) : c.Seen seen := by
    obtain ⟨joined, hmem⟩ := mem_columnRefs.mpr (.inr (.inl ⟨j, hj, hc⟩))
    exact h.columns _ hmem
  exact ⟨h.sources _ (mem_sources.mpr (.inr (.inl ⟨j, hj, rfl⟩))), hcolumn _ (.inl rfl),
    hcolumn _ (.inr rfl)⟩

theorem Alike.joins (h : select.Alike seen a b) :
    ∀ j ∈ select.joins, j.Alike seen a b := fun j hj ↦ by
  have hsource (x : Source) (hx : x ∈ j.sources) : x.Alike seen a b :=
    h.sources x (mem_sources.mpr (.inr (.inr (.inl ⟨j, hj, hx⟩))))
  have hcolumn (c : ColumnRef) (hc : c ∈ j.columns) : c.Seen seen := by
    obtain ⟨joined, hmem⟩ := mem_columnRefs.mpr (.inr (.inr (.inl ⟨j, hj, hc⟩)))
    exact h.columns _ hmem
  refine ⟨⟨hsource _ List.mem_cons_self, hcolumn _ List.mem_cons_self,
    hcolumn _ (List.mem_cons_of_mem _ List.mem_cons_self)⟩,
    fun c hc ↦ ⟨fun x hx ↦ ?_, fun x hx ↦ ?_⟩⟩
  · exact hsource x
      (List.mem_cons_of_mem _ (List.mem_flatMap.mpr ⟨c, Option.mem_toList.mpr hc, hx⟩))
  · exact hcolumn x.1 (List.mem_cons_of_mem _ (List.mem_cons_of_mem _
      (List.mem_flatMap.mpr ⟨c, Option.mem_toList.mpr hc, List.mem_map.mpr ⟨x, hx, rfl⟩⟩)))

theorem Alike.conditions (h : select.Alike seen a b) : ∀ c ∈ select.conditions,
    c.test b = c.test a ∧ (c.test a).Seen seen := fun c hc ↦ by
  refine @Condition.test_alike _ _ _ _ (fun x hx ↦ ?_) false fun x hx ↦ ?_
  · exact h.sources x (mem_sources.mpr (.inr (.inr (.inr ⟨c, hc, hx⟩))))
  · obtain ⟨joined, hmem⟩ :=
      mem_columnRefs.mpr (.inr (.inr (.inr (.inl ⟨c, hc, List.mem_map.mpr ⟨x, hx, rfl⟩⟩))))
    exact h.columns (x.1, joined) hmem

theorem Alike.envs (h : select.Alike seen a b) : List.Forall₂ (Env.Alike seen) (select.envs a)
    (select.envs b) := by
  have hstart : List.Forall₂ (Env.Alike seen) ((a.places select.source).map fun p ↦ [p])
      ((b.places select.source).map fun p ↦ [p]) := by
    refine List.rel_map (fun p q hpq ↦ ?_) (h.sources _ (mem_sources.mpr (.inl rfl))).places
    exact .cons hpq .nil
  have htests (env env' : Env) (henv : Env.Alike seen env env') :
      (select.conditions.map (Condition.test b)).all (Test.holds env') =
        (select.conditions.map (Condition.test a)).all (Test.holds env) := by
    rw [List.all_map, List.all_map, Bool.eq_iff_iff, List.all_eq_true, List.all_eq_true]
    refine forall₂_congr fun c hc ↦ ?_
    obtain ⟨htest, hseen⟩ := h.conditions c hc
    rw [Function.comp_apply, Function.comp_apply, htest, hseen.holds henv]
  unfold Select.envs
  dsimp only
  refine List.rel_filter (fun env env' henv ↦ by dsimp only; rw [htests env env' henv])
    (LeftJoin.foldl_alike h.joins ?_)
  cases hscope : select.scope with
  | none => exact hstart
  | some j => exact List.rel_flatMap hstart fun env env' henv ↦ (h.scope j hscope).joined henv

/-- A statement that names seen columns only answers the same in stores that are alike through
them. -/
theorem run_alike (h : select.Alike seen a b) : select.run b = select.run a := by
  have hcolumns (c : ColumnRef) (hc : c ∈ select.columns) : c.Seen seen := by
    obtain ⟨joined, hmem⟩ := mem_columnRefs.mpr (.inl hc)
    exact h.columns (c, joined) hmem
  have horder (t : OrderTerm) (ht : t ∈ select.order) : t.column.Seen seen := by
    obtain ⟨joined, hmem⟩ := mem_columnRefs.mpr (.inr (.inr (.inr (.inr ⟨t, ht, rfl⟩))))
    exact h.columns (t.column, joined) hmem
  -- the keys of sorting are the same, so that what belongs together stays together
  have hkeyed : List.Forall₂ (fun x y : List Cell × Env ↦ y.1 = x.1 ∧ Env.Alike seen x.2 y.2)
      ((select.envs a).map fun env ↦ (select.order.map (fun t ↦ Env.cell env t.column), env))
      ((select.envs b).map fun env ↦ (select.order.map (fun t ↦ Env.cell env t.column), env)) := by
    rw [List.forall₂_map_left_iff, List.forall₂_map_right_iff]
    exact h.envs.imp fun env env' henv ↦ ⟨List.map_congr_left fun t ht ↦ henv.cell (horder t ht),
      henv⟩
  have hsorted : List.Forall₂ (Env.Alike seen) (select.sorted (select.envs a))
      (select.sorted (select.envs b)) := by
    unfold Select.sorted
    dsimp only
    rw [List.forall₂_map_left_iff, List.forall₂_map_right_iff]
    refine (hkeyed.mergeSort fun x y x' y' hxy hxy' ↦ ?_).imp fun x y hxy ↦ hxy.2
    rw [hxy.1, hxy'.1]
  have hpaged : List.Forall₂ (Env.Alike seen) (paged select.page (select.sorted (select.envs a)))
      (paged select.page (select.sorted (select.envs b))) := by
    unfold Select.paged
    split
    · dsimp only
      split
      · exact List.forall₂_drop _ hsorted
      · exact List.forall₂_take _ (List.forall₂_drop _ hsorted)
    · exact hsorted
  have hcells := hpaged.map_eq (f := fun env ↦ select.columns.map (Env.cell env))
    (g := fun env ↦ select.columns.map (Env.cell env))
    fun env env' henv ↦ List.map_congr_left fun c hc ↦ henv.cell (hcolumns c hc)
  unfold Select.run
  rw [h.check, hcells]

end Select

end EntityStore
