import EntityStore.Mapping.Plan
import EntityStore.Proofs.Mapping.Meaning
import EntityStore.Proofs.Outcome

/-!
What planning takes. The names that it gives to tables carry the number they were counted with, so
that no two of them are the same, and a combination of rows shows each row under its own name. Where
planning succeeds, its parts are told by where a step, a relation or a scope leads (`StepCondition`,
`RelationJoined`, `RelationPlanned`, `ScopeRestricted`).
-/

set_option autoImplicit false

namespace EntityStore

/-- The number behind the letter of a table's name. -/
def labelNumber (label : String) : Nat :=
  Nat.ofDigitChars 10 (label.toList.drop 1) 0

@[simp] theorem labelNumber_append {kind : String} (hkind : kind.toList.length = 1) (n : Nat) :
    labelNumber (kind ++ toString n) = n := by
  have hdrop : (kind ++ toString n).toList.drop 1 = Nat.toDigits 10 n := by
    rw [String.toList_append, List.drop_append_of_le_length (by omega), ← hkind, List.drop_length]
    simp [toString, Nat.repr_eq_ofList_toDigits]
  rw [labelNumber, hdrop, Nat.ofDigitChars_ten_toDigits]

namespace Mapping.Planning

variable {α β : Type}

theorem bind_eq_ok {x : Planning α} {f : α → Planning β} {n m : Nat} {b : β} :
    (x >>= f).run n = .ok (b, m) ↔ ∃ a k, x.run n = .ok (a, k) ∧ (f a).run k = .ok (b, m) := by
  rw [StateT.run_bind, Except.bind_eq_ok]
  constructor
  · rintro ⟨⟨a, k⟩, hx, hf⟩
    exact ⟨a, k, hx, hf⟩
  · rintro ⟨a, k, hx, hf⟩
    exact ⟨(a, k), hx, hf⟩

theorem pure_eq_ok {a b : α} {n m : Nat} :
    (pure a : Planning α).run n = .ok (b, m) ↔ a = b ∧ n = m := by
  rw [StateT.run_pure]
  simp [pure, Except.pure]

theorem lift_eq_ok {x : Except ExecutionError α} {n m : Nat} {a : α} :
    (liftM x : Planning α).run n = .ok (a, m) ↔ x = .ok a ∧ n = m := by
  cases x <;>
    simp [liftM, monadLift, MonadLift.monadLift, StateT.lift, StateT.run, bind, Except.bind,
    pure, Except.pure]

theorem fresh_eq_ok {kind label : String} {n m : Nat} :
    (fresh kind).run n = .ok (label, m) ↔ kind ++ toString (n + 1) = label ∧ n + 1 = m := by
  have hrun : (fresh kind).run n = .ok (kind ++ toString (n + 1), n + 1) := rfl
  rw [hrun, Except.ok.injEq, Prod.mk.injEq]

/-- Planning never fails, whatever the names given before. -/
def Succeeds (x : Planning α) : Prop :=
  ∀ n, ∃ a m, x.run n = .ok (a, m)

theorem Succeeds.bind {x : Planning α} {f : α → Planning β} (hx : x.Succeeds)
    (hf : ∀ a, (f a).Succeeds) :
    Succeeds (x >>= f) := by
  intro n
  obtain ⟨a, k, hrun⟩ := hx n
  obtain ⟨b, m, hrest⟩ := hf a k
  exact ⟨b, m, bind_eq_ok.mpr ⟨a, k, hrun, hrest⟩⟩

theorem Succeeds.pure (a : α) : Succeeds (pure a) :=
  fun n ↦ ⟨a, n, rfl⟩

theorem Succeeds.fresh (kind : String) : (fresh kind).Succeeds :=
  fun _ ↦ ⟨_, _, rfl⟩

theorem Succeeds.lift {x : Except ExecutionError α} {a : α} (h : x = .ok a) :
    Succeeds (liftM x : Planning α) :=
  fun n ↦ ⟨a, n, lift_eq_ok.mpr ⟨h, rfl⟩⟩

end Mapping.Planning

namespace Mapping

open Query (Tree)

/-- The condition of a path by where its first step leads. -/
inductive StepCondition (bindings : Query.Bindings) (p : Query.Predicate)
    (label : String) (step : Query.Step) (rest : List Query.Step) (n m : Nat) :
    Condition → Prop where
  | parent {inner : Condition} (hparent : step.isParent)
      (hinner : (predicateCondition bindings p ("f" ++ toString (n + 1)) rest).run
        (n + 1) = .ok (inner, m)) :
      StepCondition bindings p label step rest n m (.within (.column label parentName)
        (.column ("f" ++ toString (n + 1)) idName) ⟨step.target,
          "f" ++ toString (n + 1)⟩ none inner)
  | owned {inner : Condition} (hparent : ¬step.isParent) (hkind : step.kind = .owned)
      (hinner : (predicateCondition bindings p ("f" ++ toString (n + 1)) rest).run
        (n + 1) = .ok (inner, m)) :
      StepCondition bindings p label step rest n m (.within (.column label idName)
        (.column ("f" ++ toString (n + 1)) parentName) ⟨step.target,
          "f" ++ toString (n + 1)⟩ none inner)
  | linked {inner : Condition} (hparent : ¬step.isParent) (hkind : step.kind = .linked)
      (hinner : (predicateCondition bindings p ("f" ++ toString (n + 1)) rest).run
        (n + 1 + 1) = .ok (inner, m)) :
      StepCondition bindings p label step rest n m (.within (.column label idName)
        (.column ("a" ++ toString (n + 1 + 1)) ownerColumn)
        ⟨linkTableName step.source step.relation, "a" ++ toString (n + 1 + 1)⟩
        (some ⟨⟨step.target, "f" ++ toString (n + 1)⟩, .column ("f" ++ toString (n + 1)) idName,
          .column ("a" ++ toString (n + 1 + 1)) targetColumn⟩) inner)

/-- The joins of a single relation by where it leads. -/
inductive RelationJoined (entity label child : String) (r : Query.Relation)
    (target : String) (n : Nat) :
    List LeftJoin → Join → Nat → Prop where
  | parent (hparent : r.isParent) : RelationJoined entity label child r target n []
      ⟨⟨target, child⟩, .column child idName, .column label parentName⟩ n
  | owned (hparent : ¬r.isParent) (hkind : r.kind = .owned) :
      RelationJoined entity label child r target n []
      ⟨⟨target, child⟩, .column child parentName, .column label idName⟩ n
  | linked (hparent : ¬r.isParent) (hkind : r.kind = .linked) :
      RelationJoined entity label child r target n
        [⟨⟨⟨linkTableName entity r.name, "l" ++ toString (n + 1)⟩,
          .column ("l" ++ toString (n + 1)) ownerColumn, .column label idName⟩, none⟩]
        ⟨⟨target, child⟩, .column child idName, .column ("l" ++ toString (n + 1)) targetColumn⟩
        (n + 1)

/-- The plan of the relations of a level by the first of them: the single ones are joined, each in
front of what is below it and of those beside it. -/
inductive RelationPlanned (bindings : Query.Bindings) (depth : Nat) (label entity : String)
    (r : Query.Relation) (t : Tree) (rest : List (Query.Relation × Tree))
    (n m : Nat) : Plan → Prop where
  | many {p : Plan} (hmany : r.many)
      (hrest : (planRelations bindings depth label entity rest).run n = .ok (p, m)) :
      RelationPlanned bindings depth label entity r t rest n m p
  | single {links : List LeftJoin} {join : Join} {cs : List Condition}
      {inner others : Plan} {k₁ k₂ k₃ : Nat} (hmany : ¬r.many)
      (hjoins : (relationJoins entity label ("t" ++ toString (n + 1)) r t.level.entity).run
        (n + 1) = .ok ((links, join), k₁))
      (hcs : (conditions bindings ("t" ++ toString (n + 1)) t.level.filter).run k₁ = .ok (cs, k₂))
      (hinner : (plan bindings (depth + 1) ("t" ++ toString (n + 1)) t).run k₂ = .ok (inner, k₃))
      (hothers : (planRelations bindings depth label entity rest).run k₃ = .ok (others, m)) :
      RelationPlanned bindings depth label entity r t rest n m
        ((Plan.mk [] (links ++ [⟨join, cs.head?⟩]) []).append (inner.append others))

/-- How a scope restricts a level by the kind of its relation. -/
inductive ScopeRestricted (main : String) (s : Scope) (n : Nat) :
    ColumnRef × Option Join × List OrderTerm → Nat → Prop where
  | owned (hkind : s.relation.kind = .owned) :
      ScopeRestricted main s n (.column main parentName, none, []) n
  | linked (hkind : s.relation.kind = .linked) :
      ScopeRestricted main s n (.column ("s" ++ toString (n + 1)) ownerColumn,
        some ⟨⟨linkTableName s.source s.relation.name, "s" ++ toString (n + 1)⟩,
          .column ("s" ++ toString (n + 1)) targetColumn, .column main idName⟩,
        [⟨.rowNumber ("s" ++ toString (n + 1)), none⟩]) (n + 1)

variable {bindings : Query.Bindings} {label : String} {n m : Nat}

theorem predicateCondition_nil_ok {p : Query.Predicate} {c : Condition}
    (h : (predicateCondition bindings p label []).run n = .ok (c, m)) :
    ∃ v, operandValue bindings p.operand = .ok v ∧
      comparison (.column label p.field) p.field p.comparator v = .ok c ∧ n = m := by
  unfold predicateCondition at h
  obtain ⟨v, k, hv, hc⟩ := Planning.bind_eq_ok.mp h
  obtain ⟨hvalue, rfl⟩ := Planning.lift_eq_ok.mp hv
  exact ⟨v, hvalue, Planning.lift_eq_ok.mp hc⟩

theorem predicateCondition_cons_ok {p : Query.Predicate} {step : Query.Step}
    {rest : List Query.Step} {c : Condition}
    (h : (predicateCondition bindings p label (step :: rest)).run n = .ok (c, m)) :
    StepCondition bindings p label step rest n m c := by
  unfold predicateCondition at h
  obtain ⟨next, k, hnext, h⟩ := Planning.bind_eq_ok.mp h
  obtain ⟨rfl, rfl⟩ := Planning.fresh_eq_ok.mp hnext
  by_cases hparent : step.isParent
  · rw [if_pos hparent] at h
    obtain ⟨inner, k, hinner, hpure⟩ := Planning.bind_eq_ok.mp h
    obtain ⟨rfl, rfl⟩ := Planning.pure_eq_ok.mp hpure
    exact .parent hparent hinner
  · rw [if_neg hparent] at h
    cases hkind : step.kind with
    | owned =>
      rw [hkind] at h
      obtain ⟨inner, k, hinner, hpure⟩ := Planning.bind_eq_ok.mp h
      obtain ⟨rfl, rfl⟩ := Planning.pure_eq_ok.mp hpure
      exact .owned hparent hkind hinner
    | linked =>
      rw [hkind] at h
      obtain ⟨link, k, hlink, h⟩ := Planning.bind_eq_ok.mp h
      obtain ⟨rfl, rfl⟩ := Planning.fresh_eq_ok.mp hlink
      obtain ⟨inner, k, hinner, hpure⟩ := Planning.bind_eq_ok.mp h
      obtain ⟨rfl, rfl⟩ := Planning.pure_eq_ok.mp hpure
      exact .linked hparent hkind hinner

theorem relationJoins_ok {entity child target : String} {r : Query.Relation}
    {links : List LeftJoin} {join : Join}
    (h : (relationJoins entity label child r target).run n = .ok ((links, join), m)) :
    RelationJoined entity label child r target n links join m := by
  unfold relationJoins at h
  by_cases hparent : r.isParent
  · rw [if_pos hparent] at h
    obtain ⟨heq, rfl⟩ := Planning.pure_eq_ok.mp h
    cases heq
    exact .parent hparent
  · rw [if_neg hparent] at h
    cases hkind : r.kind with
    | owned =>
      rw [hkind] at h
      obtain ⟨heq, rfl⟩ := Planning.pure_eq_ok.mp h
      cases heq
      exact .owned hparent hkind
    | linked =>
      rw [hkind] at h
      obtain ⟨link, k, hlink, hpure⟩ := Planning.bind_eq_ok.mp h
      obtain ⟨rfl, rfl⟩ := Planning.fresh_eq_ok.mp hlink
      obtain ⟨heq, rfl⟩ := Planning.pure_eq_ok.mp hpure
      cases heq
      exact .linked hparent hkind

theorem planRelations_cons_ok {depth : Nat} {entity : String} {r : Query.Relation} {t : Tree}
    {rest : List (Query.Relation × Tree)} {p : Plan}
    (h : (planRelations bindings depth label entity ((r, t) :: rest)).run n = .ok (p, m)) :
    RelationPlanned bindings depth label entity r t rest n m p := by
  unfold planRelations at h
  by_cases hmany : r.many
  · rw [if_pos hmany] at h
    exact .many hmany h
  · rw [if_neg hmany] at h
    obtain ⟨child, k, hchild, h⟩ := Planning.bind_eq_ok.mp h
    obtain ⟨rfl, rfl⟩ := Planning.fresh_eq_ok.mp hchild
    obtain ⟨⟨links, join⟩, k₁, hjoins, h⟩ := Planning.bind_eq_ok.mp h
    obtain ⟨cs, k₂, hcs, h⟩ := Planning.bind_eq_ok.mp h
    obtain ⟨inner, k₃, hinner, h⟩ := Planning.bind_eq_ok.mp h
    obtain ⟨others, k₄, hothers, h⟩ := Planning.bind_eq_ok.mp h
    obtain ⟨rfl, rfl⟩ := Planning.pure_eq_ok.mp h
    exact .single hmany hjoins hcs hinner hothers

theorem plan_node_ok {depth : Nat} {level : Query.Level}
    {relations : List (Query.Relation × Tree)} {p : Plan}
    (h : (plan bindings depth label (.node level relations)).run n = .ok (p, m)) :
    ∃ below, (planRelations bindings depth label level.entity relations).run n = .ok (below, m) ∧
      p = (Plan.ofLevel level depth label).append below := by
  unfold plan at h
  obtain ⟨below, k, hbelow, hpure⟩ := Planning.bind_eq_ok.mp h
  obtain ⟨rfl, rfl⟩ := Planning.pure_eq_ok.mp hpure
  exact ⟨below, hbelow, rfl⟩

theorem restriction_ok {main : String} {s : Scope} {x : ColumnRef × Option Join × List OrderTerm}
    (h : (restriction main s).run n = .ok (x, m)) : ScopeRestricted main s n x m := by
  unfold restriction at h
  cases hkind : s.relation.kind with
  | owned =>
    rw [hkind] at h
    obtain ⟨rfl, rfl⟩ := Planning.pure_eq_ok.mp h
    exact .owned hkind
  | linked =>
    rw [hkind] at h
    obtain ⟨link, k, hlink, hpure⟩ := Planning.bind_eq_ok.mp h
    obtain ⟨rfl, rfl⟩ := Planning.fresh_eq_ok.mp hlink
    obtain ⟨rfl, rfl⟩ := Planning.pure_eq_ok.mp hpure
    exact .linked hkind

end Mapping

/-- A row under the name of its table. -/
def Record.place (r : Record) (label : String) : Place :=
  ⟨label, r.table, some r.row⟩

namespace Env

variable {env : Env} {label other name : String} {r : Record} {p : Place}

theorem place?_cons (p : Place) (env : Env) (label : String) :
    place? (p :: env) label = if p.label = label then some p else env.place? label := by
  by_cases h : p.label = label <;> simp [place?, h]

theorem place?_head (r : Record) (label : String) (env : Env) :
    place? (r.place label :: env) label = some (r.place label) := by
  simp [place?, Record.place]

theorem cell_column (h : env.place? label = some (r.place label)) :
    env.cell (.column label name) = r.cell name := by
  simp [cell, ColumnRef.label, h, Record.place, Record.cell]

theorem affinity_column (h : env.place? label = some (r.place label)) :
    env.affinity (.column label name) = r.table.affinityOf name := by
  simp [affinity, ColumnRef.label, h, Record.place]

end Env

namespace Store

theorem places_eq (s : Store) (source : Source) :
    s.places source = (s.records source.table).map (Record.place · source.label) := by
  unfold places records
  cases s.table? source.table <;> simp [Record.place]

/-- A join adds the rows that fit, in their order. -/
theorem joined_eq (s : Store) (j : Join) (env : Env) :
    s.joined j env = ((s.records j.source.table).filter fun b ↦
      (Env.cell (b.place j.source.label :: env) j.left).compare?
        (Env.cell (b.place j.source.label :: env) j.right) == some .eq).map
          fun b ↦ b.place j.source.label :: env := by
  rw [joined, places_eq, List.filterMap_map, ← List.filterMap_eq_map, List.filterMap_filter]
  rfl

end Store

end EntityStore
