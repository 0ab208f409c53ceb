import EntityStore.Proofs.Mapping.Level
import EntityStore.Proofs.Mapping.Served

/-!
Running the statement of a level: what it answers does not depend on the names given to tables
before, and neither does whether it answers.
-/

set_option autoImplicit false

namespace EntityStore

namespace Mapping

open Query (Tree)

variable {store : Store} {bindings : Query.Bindings} {n m k : Nat} {scope : Option Scope}

/-! ### What the statement of a level needs -/

/-- What restricts the rows of an entity to a scope is there: the function that lists the owners,
and the columns that lead to them. -/
def ScopeServed (store : Store) (entity : String) : Option Scope → Prop
  | none => True
  | some s => store.ListsScopes ∧ match s.relation.kind with
    | .owned => store.Has entity parentName
    | .linked => store.Has (linkTableName s.source s.relation.name) ownerColumn ∧
      store.Has (linkTableName s.source s.relation.name) targetColumn ∧ store.Has entity idName

/-- All that the statement of a level names is there. -/
structure LevelServed (store : Store) (bindings : Query.Bindings) (t : Tree)
    (scope : Option Scope) : Prop where
  tree : t.Served store bindings
  filter : ∀ f, t.level.filter = some f → f.Served store bindings t.level.entity
  scope : ScopeServed store t.level.entity scope

/-- All by which a statement is restricted to a scope is found. -/
structure RestrictionFound (store : Store) (sources : List Source) (scope : Option Scope)
    (restricted : Option (ColumnRef × Option Join × List OrderTerm)) : Prop where
  join : ∀ j ∈ restricted.bind fun (_, j, _) ↦ j, j.Checks store sources
  among : ∀ c ∈ amongOwners scope restricted, c.Checks store sources false
  owner : ∀ c ∈ (restricted.map fun (c, _, _) ↦ c).toList, c.foundIn store sources
  links : ∀ t ∈ (restricted.map fun (_, _, terms) ↦ terms).getD [], t.column.foundIn store sources

theorem restriction_names {main : String}
    {restricted : Option (ColumnRef × Option Join × List OrderTerm)}
    (h : (scope.mapM (restriction main)).run n = .ok (restricted, m)) :
    Names n m ((restricted.bind fun (_, j, _) ↦ j).map Join.source).toList := by
  cases scope with
  | none =>
    obtain ⟨rfl, rfl⟩ := Planning.pure_eq_ok.mp h
    exact .nil (Nat.le_refl n)
  | some s =>
    obtain ⟨x, rfl, hx⟩ := restriction_of_mapM h
    cases restriction_ok hx with
    | owned _ => exact .nil (Nat.le_refl n)
    | linked _ => exact .single "s" rfl _ n

theorem restriction_found {main entity : String} {sources : List Source}
    (hnames : Names k m sources) (hmain : ⟨entity, main⟩ ∈ sources) {n n' : Nat}
    {restricted : Option (ColumnRef × Option Join × List OrderTerm)}
    (h : (scope.mapM (restriction main)).run n = .ok (restricted, n'))
    (hsub : ((restricted.bind fun (_, j, _) ↦ j).map Join.source).toList ⊆ sources) :
    RestrictionFound store sources scope restricted ↔ ScopeServed store entity scope := by
  have hat {column : String} := foundIn_column store hnames hmain column
  cases scope with
  | none =>
    obtain ⟨rfl, rfl⟩ := Planning.pure_eq_ok.mp h
    exact iff_of_true ⟨nofun, nofun, nofun, nofun⟩ trivial
  | some s =>
    obtain ⟨x, rfl, hx⟩ := restriction_of_mapM h
    cases restriction_ok hx with
    | owned hkind =>
      simp only [ScopeServed, hkind]
      constructor
      · rintro ⟨-, hamong, howner, -⟩
        exact ⟨(hamong _ List.mem_cons_self).origins _ List.mem_cons_self,
          hat.mp (howner _ List.mem_cons_self)⟩
      · rintro ⟨hlists, hparent⟩
        refine ⟨nofun, ?_, ?_, nofun⟩
        · exact List.forall_mem_singleton.mpr
            ⟨List.forall_mem_singleton.mpr hlists, List.forall_mem_singleton.mpr (hat.mpr hparent)⟩
        · exact List.forall_mem_singleton.mpr (hat.mpr hparent)
    | linked hkind =>
      have hin := hsub (List.mem_singleton.mpr rfl)
      have hto {column : String} := foundIn_column store hnames hin column
      simp only [ScopeServed, hkind]
      constructor
      · rintro ⟨hjoin, hamong, howner, -⟩
        obtain ⟨-, hleft, hright⟩ := hjoin _ rfl
        exact ⟨(hamong _ List.mem_cons_self).origins _ List.mem_cons_self,
          hto.mp (howner _ List.mem_cons_self), hto.mp hleft, hat.mp hright⟩
      · rintro ⟨hlists, howner, htarget, hid⟩
        refine ⟨?_, ?_, ?_, ?_⟩
        · rintro j ⟨⟩
          exact ⟨howner.isSome, hto.mpr htarget, hat.mpr hid⟩
        · exact List.forall_mem_singleton.mpr
            ⟨List.forall_mem_singleton.mpr hlists, List.forall_mem_singleton.mpr (hto.mpr howner)⟩
        · exact List.forall_mem_singleton.mpr (hto.mpr howner)
        · exact List.forall_mem_singleton.mpr rfl

theorem amongOwners_sources {restricted : Option (ColumnRef × Option Join × List OrderTerm)} :
    ∀ c ∈ amongOwners scope restricted, c.sources = [] := by
  unfold amongOwners
  split <;> simp [Condition.sources]

/-- The tables of a level's statement are its own, those of its scope and its joins, and those that
its conditions look up. -/
theorem mem_sources_levelOf {t : Tree} {main : String} {p : Plan}
    {restricted : Option (ColumnRef × Option Join × List OrderTerm)} {cs : List Condition}
    {page : Option PageBounds} {x : Source} :
      x ∈ (levelOf t scope main p restricted cs page).sources ↔ x = ⟨t.level.entity, main⟩ ∨
      x ∈ ((restricted.bind fun (_, j, _) ↦ j).map Join.source).toList ∨
        x ∈ p.joins.flatMap LeftJoin.sources ∨ x ∈ cs.flatMap Condition.sources := by
  have hamong : (∃ c ∈ amongOwners scope restricted ++ cs, x ∈ c.sources) ↔
      ∃ c ∈ cs, x ∈ c.sources := by
    simp only [List.mem_append, or_and_right, exists_or]
    refine or_iff_right ?_
    rintro ⟨c, hc, hx⟩
    rw [amongOwners_sources c hc] at hx
    cases hx
  rw [Select.mem_sources]
  simp only [levelOf, hamong, List.mem_flatMap, Option.mem_toList, Option.mem_def,
    Option.map_eq_some_iff, eq_comm (a := x)]

/-- The statement of a level gives no name to two tables. -/
theorem levelSelect_names {t : Tree} {select : Select} {page : Option PageBounds}
    (h : (levelSelect bindings t scope).run n = .ok ((select, page), m)) :
    Names n m select.sources := by
  obtain ⟨p, k, restricted, k₁, cs, hp, hr, hcs, -, rfl⟩ := levelSelect_ok h
  have hall : Names n m ([⟨t.level.entity, "t" ++ toString (n + 1)⟩] ++
      (p.joins.flatMap LeftJoin.sources ++
        (((restricted.bind fun (_, j, _) ↦ j).map Join.source).toList ++
          cs.flatMap Condition.sources))) :=
    (Names.single "t" rfl t.level.entity n).append
      ((plan_names t hp).append ((restriction_names hr).append (conditions_names hcs).2))
  refine hall.subset fun x hx ↦ ?_
  rw [List.mem_append, List.mem_append, List.mem_append, List.mem_singleton,
    or_left_comm (a := x ∈ _)]
  exact mem_sources_levelOf.mp hx

/-- The store finds no fault with the statement of a level exactly if the level is served. -/
theorem levelSelect_check {t : Tree} {select : Select} {page : Option PageBounds}
    (h : (levelSelect bindings t scope).run n = .ok ((select, page), m)) :
    select.check store = .ok () ↔ LevelServed store bindings t scope := by
  obtain ⟨p, k, restricted, k₁, cs, hp, hr, hcs, -, rfl⟩ := levelSelect_ok h
  have hnames := levelSelect_names h
  have hmain : ⟨t.level.entity, "t" ++ toString (n + 1)⟩ ∈
      (levelOf t scope ("t" ++ toString (n + 1)) p restricted cs page).sources :=
        mem_sources_levelOf.mpr (.inl rfl)
  have hplan : p.Checks store _ ↔ t.Served store bindings :=
    plan_checks hnames t hmain hp fun x hx ↦ mem_sources_levelOf.mpr (.inr (.inr (.inl hx)))
  have hscope : RestrictionFound store _ scope restricted ↔
      ScopeServed store t.level.entity scope :=
    restriction_found hnames hmain hr fun x hx ↦ mem_sources_levelOf.mpr (.inr (.inl hx))
  have hfilter : (∀ c ∈ cs, c.Checks store _ false) ↔
      ∀ f, t.level.filter = some f → f.Served store bindings t.level.entity :=
    conditions_checks hnames hmain hcs fun x hx ↦ mem_sources_levelOf.mpr (.inr (.inr (.inr hx)))
  rw [Select.check_eq_ok]
  simp only [levelOf, List.forall_mem_append, List.forall_mem_map]
  constructor
  · rintro ⟨⟨htable, hjoin, hamongs, hcs⟩, ⟨hcols, hjs, -⟩, ⟨hsorts, hlinks⟩, hid⟩
    obtain ⟨hcols, howner⟩ := List.forall_mem_append.mp hcols
    refine ⟨hplan.mp ⟨hcols, hjs, fun s hs ↦ hsorts s (List.mem_mergeSort.mpr hs)⟩, hfilter.mp hcs,
      hscope.mp ⟨hjoin, hamongs, howner, hlinks⟩⟩
  · rintro ⟨htree, hcs, hrestriction⟩
    have hp := hplan.mpr htree
    have hr := hscope.mpr hrestriction
    have hid : store.Has t.level.entity idName := by
      cases t
      exact htree.1.1
    refine ⟨⟨hid.isSome, hr.join, hr.among, hfilter.mpr hcs⟩,
      ⟨List.forall_mem_append.mpr ⟨hp.columns, hr.owner⟩, hp.joins,
        fun _ hk ↦ absurd hk List.not_mem_nil⟩,
      ⟨fun s hs ↦ hp.sorts s (List.mem_mergeSort.mp hs), hr.links⟩, ?_⟩
    exact List.forall_mem_singleton.mpr ((foundIn_column store hnames hmain idName).mpr hid)

/-! ### Reading -/

namespace Reading

variable {α β : Type} {x : Reading α} {f : α → Reading β} {a : α} {b : β} {p : Progress}

/-- An action answers the same whatever was read before. -/
def Returns (x : Reading α) (a : α) : Prop :=
  ∀ p, (x.run p).1 = .ok a

/-- If an action ever answers, it always answers that. -/
def Settled (x : Reading α) : Prop :=
  ∀ p a, (x.run p).1 = .ok a → x.Returns a

theorem run_bind (x : Reading α) (f : α → Reading β) (p : Progress) :
    (x >>= f).run p = match x.run p with
      | (.ok a, q) => (f a).run q
      | (.error e, q) => (.error e, q) := by
  change (match x.run p with | (r, q) => (ExceptT.bindCont f r : StateM Progress _) q) = _
  rcases x.run p with ⟨_ | _, _⟩ <;> rfl

theorem run_bind_ok (h : ((x >>= f).run p).1 = .ok b) :
    ∃ a q, x.run p = (.ok a, q) ∧ ((f a).run q).1 = .ok b := by
  rw [run_bind] at h
  rcases hrun : x.run p with ⟨_ | a, q⟩ <;> rw [hrun] at h
  · cases h
  · exact ⟨a, q, rfl, h⟩

theorem Returns.pure (a : α) : Returns (pure a) a :=
  fun _ ↦ rfl

theorem Returns.bind (hx : x.Returns a) (hf : (f a).Returns b) : Returns (x >>= f) b := by
  intro p
  have hp := hx p
  rw [run_bind]
  rcases hrun : x.run p with ⟨o, q⟩
  rw [hrun] at hp
  obtain rfl : o = .ok a := hp
  exact hf q

theorem Returns.unique {a' : α} (h : x.Returns a) (h' : x.Returns a') : a = a' :=
  Except.ok.inj ((h ⟨0, []⟩).symm.trans (h' ⟨0, []⟩))

theorem Settled.pure (a : α) : Settled (pure a) :=
  fun _ _ h ↦ Except.ok.inj h ▸ .pure a

theorem Settled.bind (hx : x.Settled) (hf : ∀ a, (f a).Settled) : Settled (x >>= f) := by
  intro p b h
  obtain ⟨a, q, hrun, hrest⟩ := run_bind_ok h
  exact (hx p a (by rw [hrun])).bind (hf a q b hrest)

theorem Settled.returns_bind (hx : x.Settled) (hf : ∀ a, (f a).Settled) :
    Returns (x >>= f) b ↔ ∃ a, x.Returns a ∧ (f a).Returns b := by
  constructor
  · intro h
    obtain ⟨a, q, hrun, hrest⟩ := run_bind_ok (h ⟨0, []⟩)
    exact ⟨a, hx ⟨0, []⟩ a (by rw [hrun]), hf a q b hrest⟩
  · rintro ⟨a, ha, hb⟩
    exact ha.bind hb

end Reading

theorem planned_run {α : Type} {x : Planning α} {p : Progress} {a : α} {m : Nat}
    (h : x.run p.names = .ok (a, m)) : (planned x).run p = (.ok a, { p with names := m }) := by
  change x p.names = .ok (a, m) at h
  have hget : (get : Reading Progress).run p = (.ok p, p) := rfl
  unfold planned
  rw [Reading.run_bind, hget]
  dsimp only
  rw [h]
  rfl

theorem modify_run (f : Progress → Progress) (p : Progress) :
    (modify f : Reading PUnit).run p = (.ok (), f p) :=
  rfl

/-- Reading a level fails with a fault of the store if something is not there that its statement
names; otherwise it answers the rows of the level, or that a cell of them cannot be read. -/
theorem runLevel_run (store : Store) (scope : Option Scope) {t : Tree}
    (h : ∀ u ∈ t.nodes, u.Bound bindings) {page : Option PageBounds}
    (hpage : pageBounds bindings t.level = .ok page) (p : Progress) :
    (LevelServed store bindings t scope ∧ ((runLevel store bindings t scope).run p).1 =
      (levelRows store bindings t scope page).mapError fun e ↦ .persistence (.column e)) ∨
    (¬LevelServed store bindings t scope ∧
      ∃ e, ((runLevel store bindings t scope).run p).1 = .error (.persistence (.store e))) := by
  obtain ⟨⟨select, page'⟩, m, hrun⟩ := levelSelect_succeeds h scope p.names
  obtain ⟨hpage', hcut⟩ : pageBounds bindings t.level = .ok page' ∧
      select.page = if scope.isNone then page'.map fun b ↦ (b.limit, b.offset) else none := by
    obtain ⟨_, _, _, _, _, -, -, -, hpage', rfl⟩ := levelSelect_ok hrun
    exact ⟨hpage', rfl⟩
  obtain rfl : page' = page := Except.ok.inj (hpage'.symm.trans hpage)
  have hplanned : (planned (levelSelect bindings t scope)).run p =
      (.ok (select, page'), { p with names := m }) := planned_run hrun
  have hrows : (Select.paged select.page (select.sorted (select.envs store))).map
      (fun env ↦ select.columns.map (Env.cell env)) = (shown store bindings t scope page').map
        (Found.cells scope) := by
    rw [paged_map, sorted_found hrun, ← paged_map, hcut]
    unfold shown
    split <;> rfl
  unfold runLevel
  rw [Reading.run_bind, hplanned]
  by_cases hserved : LevelServed store bindings t scope
  · refine .inl ⟨hserved, ?_⟩
    have hcells : select.run store =
        .ok ((shown store bindings t scope page').map (Found.cells scope)) := by
      unfold Select.run
      rw [(levelSelect_check hrun).mpr hserved, ← hrows]
      rfl
    have hcomp : (fun f ↦ record t (Found.cells scope f)) = record t ∘ Found.cells scope := rfl
    simp only [Reading.run_bind, modify_run, hcells, pure_bind, List.mapM_map, levelRows, hcomp]
    cases (shown store bindings t scope page').mapM (record t ∘ Found.cells scope) with
    | error e => rfl
    | ok rows => rcases scope with _ | s <;> rcases page' with _ | b <;> rfl
  · refine .inr ⟨hserved, ?_⟩
    have hcheck : select.check store ≠ .ok () := fun heq ↦ hserved ((levelSelect_check hrun).mp heq)
    cases hstore : select.check store with
    | ok u => exact absurd hstore hcheck
    | error e =>
      have hcells : select.run store = .error e := by
        unfold Select.run
        rw [hstore]
        rfl
      simp only [Reading.run_bind, modify_run, hcells]
      exact ⟨e, rfl⟩

/-- Reading a level answers its rows if all that its statement names is there. -/
theorem runLevel_returns {t : Tree} (h : ∀ u ∈ t.nodes, u.Bound bindings) {rows : List OwnedRow} :
    (runLevel store bindings t scope).Returns rows ↔ LevelServed store bindings t scope ∧
      ∃ page, pageBounds bindings t.level = .ok page ∧
      levelRows store bindings t scope page = .ok rows := by
  obtain ⟨page, hpage⟩ := pageBounds_ok (h t t.mem_nodes_self)
  constructor
  · intro hreturns
    have hok := hreturns ⟨0, []⟩
    rcases runLevel_run store scope h hpage ⟨0, []⟩ with ⟨hserved, hrun⟩ | ⟨-, e, hrun⟩
    · exact ⟨hserved, page, hpage, Except.mapError_eq_ok.mp (hrun.symm.trans hok)⟩
    · rw [hrun] at hok
      cases hok
  · rintro ⟨hserved, page', hpage', hrows⟩ p
    obtain rfl : page = page' := Except.ok.inj (hpage.symm.trans hpage')
    rcases runLevel_run store scope h hpage p with ⟨-, hrun⟩ | ⟨hnot, -⟩
    · rw [hrun, hrows]
      rfl
    · exact absurd hserved hnot

theorem runLevel_settled {t : Tree} (h : ∀ u ∈ t.nodes, u.Bound bindings) (scope : Option Scope) :
    (runLevel store bindings t scope).Settled := by
  intro p rows hok
  obtain ⟨page, hpage⟩ := pageBounds_ok (h t t.mem_nodes_self)
  rcases runLevel_run store scope h hpage p with ⟨hserved, hrun⟩ | ⟨-, e, hrun⟩
  · exact (runLevel_returns h).mpr ⟨hserved, page, hpage,
      Except.mapError_eq_ok.mp (hrun.symm.trans hok)⟩
  · rw [hrun] at hok
    cases hok

end Mapping

end EntityStore
