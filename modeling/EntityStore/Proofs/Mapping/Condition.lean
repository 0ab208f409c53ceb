import EntityStore.Proofs.Mapping.Planning
import EntityStore.Proofs.Query.Bound

/-!
The condition made for a filter holds of exactly the rows that the filter is true of. A nested
select may pick nulls, which leave a membership open where it would otherwise be false; it is never
true either way.
-/

set_option autoImplicit false

namespace EntityStore

open EntityStore.Language (Comparator)

namespace Test

variable {env : Env} {l r : Test}

theorem holds_both : (both l r).holds env = (l.holds env && r.holds env) := by
  simp only [holds, eval]
  rcases l.eval env with _ | _ | _ <;> rcases r.eval env with _ | _ | _ <;> rfl

theorem holds_either : (either l r).holds env = (l.holds env || r.holds env) := by
  simp only [holds, eval]
  rcases l.eval env with _ | _ | _ <;> rcases r.eval env with _ | _ | _ <;> rfl

/-- Membership is true exactly if an equal member is found, whatever nulls leave open. -/
theorem isAmong_holds (c : Cell) (vs : List Cell) :
    (isAmong c vs == some true) = vs.any fun v ↦ (c.compare? v).any Comparison.eq.holds := by
  have heq : (vs.any fun v ↦ (c.compare? v).any Comparison.eq.holds) =
      vs.any fun v ↦ c.compare? v == some .eq := by
    congr 1
    funext v
    cases c.compare? v <;> simp [Comparison.holds]
  rw [heq, isAmong]
  cases vs with
  | nil => rfl
  | cons v vs =>
    by_cases hany : (v :: vs).any fun v ↦ c.compare? v == some .eq
    · rw [if_neg (by simp), if_pos hany, hany]
      rfl
    · rw [if_neg (by simp), if_neg hany, Bool.eq_false_iff.mpr hany]
      split <;> rfl

theorem holds_among {column : ColumnRef} {vs : List Cell} :
    (among column vs).holds env = vs.any fun v ↦
      ((env.cell column).compare? (v.compared (env.affinity column))).any Comparison.eq.holds := by
  simp only [holds, eval, isAmong_holds, List.any_map]
  rfl

end Test

namespace Mapping

variable {store : Store} {bindings : Query.Bindings} {label : String} {n m : Nat} {c : Condition}

/-! ### Comparisons -/

theorem operandValue_eq {o : Query.Operand} (h : o.Bound bindings) :
    operandValue bindings o = .ok (o.meaning bindings) := by
  cases o with
  | value v | list vs => rfl
  | param name =>
    obtain ⟨v, hv⟩ := Option.isSome_iff_exists.mp h
    simp [operandValue, Query.Operand.meaning, hv]

theorem comparison_ok (column : ColumnRef) (field : String) {comparator : Comparator} {v : Value}
    (h : comparator = .isIn → ∃ items, v = .list items) :
    ∃ c, comparison column field comparator v = .ok c := by
  unfold comparison
  split
  · exact ⟨_, rfl⟩
  · next hnot =>
    obtain ⟨items, rfl⟩ := h rfl
    exact absurd rfl (hnot items)
  · exact ⟨_, rfl⟩
  · exact ⟨_, rfl⟩
  · exact ⟨_, rfl⟩

theorem comparison_holds {field : String} {comparator : Comparator} {v : Value}
    (h : comparison (.column label field) field comparator v = .ok c) {env : Env} {r : Record}
    (henv : env.place? label = some (r.place label)) :
    (c.test store).holds env = r.satisfies field comparator v := by
  unfold comparison at h
  split at h <;> cases h
  · simp only [Condition.test, Test.holds_among, Env.cell_column henv, Env.affinity_column henv,
      List.any_map]
    rfl
  · simp [Condition.test, Test.holds, Test.eval, Env.cell_column henv, Record.satisfies]
  · simp [Condition.test, Test.holds, Test.eval, Env.cell_column henv, Record.satisfies]
  · next op heq hne =>
    have hsat : r.satisfies field (.compare op) v = r.compares field op v.cell := by
      unfold Record.satisfies
      split <;> simp_all
    rw [hsat]
    simp only [Condition.test, Test.holds, Test.eval, Env.cell_column henv,
      Env.affinity_column henv, Record.compares]
    cases (r.cell field).compare? (v.cell.compared (r.table.affinityOf field)) <;> simp

theorem operandValue_ok {o : Query.Operand} {v : Value} (h : operandValue bindings o = .ok v) :
    o.meaning bindings = v := by
  cases o with
  | value w | list ws =>
    cases h
    rfl
  | param name =>
    simp only [operandValue] at h
    split at h
    · next w hw =>
      cases h
      simp [Query.Operand.meaning, hw]
    · contradiction

/-! ### Paths -/

theorem cell_place (b : Record) (label name : String) (env : Env) :
    Env.cell (b.place label :: env) (.column label name) = b.cell name :=
  Env.cell_column (by simp [Env.place?, Record.place])

/-- A nested select without a join picks from the rows of its table. -/
theorem within_none_holds {env : Env} {r : Record} (henv : env.place? label = some (r.place label))
    {column next picked table : String} {inner : Condition} {test : Record → Bool}
    (hinner : ∀ b : Record, (inner.test store).holds [b.place next] = test b) :
    ((Condition.within (.column label column) (.column next picked) ⟨table, next⟩ none inner).test
        store).holds env =
      (store.records table).any fun b ↦ r.equals column (b.cell picked) && test b := by
  simp only [Condition.test, Test.holds_among, Store.places_eq, List.flatMap_map, List.any_map,
    List.any_filter, List.any_flatMap, Env.cell_column henv, Env.affinity_column henv]
  congr 1
  funext b
  simp [hinner, cell_place, Record.equals, Record.compares, Bool.and_comm]

/-- A nested select with a join picks from the links whose other end is a row of the joined
table. -/
theorem within_some_holds {env : Env} {r : Record} (henv : env.place? label = some (r.place label))
    {column next link owner target table links : String} (hne : next ≠ link) {inner : Condition}
    {test : Record → Bool}
    (hinner : ∀ b l : Record, (inner.test store).holds [b.place next, l.place link] = test b) :
    ((Condition.within (.column label column) (.column link owner) ⟨links, link⟩
      (some ⟨⟨table, next⟩, .column next idName, .column link target⟩)
      inner).test store).holds env =
      (store.records table).any fun b ↦ ((store.records links).any fun l ↦
        (b.cell idName).compare? (l.cell target) == some .eq && r.equals column (l.cell owner)) &&
          test b := by
  have hcell (b l : Record) (name : String) :
      Env.cell [b.place next, l.place link] (.column link name) = l.cell name :=
    Env.cell_column (by simp [Env.place?, Record.place, hne])
  simp only [Condition.test, Test.holds_among, Store.places_eq, Store.joined_eq, List.flatMap_map,
    List.any_map, List.any_filter, List.any_flatMap, Env.cell_column henv, Env.affinity_column henv]
  rw [Bool.eq_iff_iff]
  simp only [List.any_eq_true, Function.comp_apply, cell_place, hcell, hinner, Bool.and_eq_true]
  constructor
  · rintro ⟨l, hl, b, hb, hjoin, htest, heq⟩
    exact ⟨b, hb, ⟨l, hl, hjoin, heq⟩, htest⟩
  · rintro ⟨b, hb, ⟨l, hl, hjoin, heq⟩, htest⟩
    exact ⟨l, hl, b, hb, hjoin, htest, heq⟩

theorem predicateCondition_holds {p : Query.Predicate} {steps : List Query.Step}
    (h : (predicateCondition bindings p label steps).run n = .ok (c, m)) {env : Env} {r : Record}
    (henv : env.place? label = some (r.place label)) :
    (c.test store).holds env =
      store.reaches (fun r ↦ r.satisfies p.field p.comparator (p.operand.meaning bindings))
        steps r := by
  induction steps generalizing label n c m env r with
  | nil =>
    obtain ⟨v, hvalue, hcomparison, rfl⟩ := predicateCondition_nil_ok h
    rw [Store.reaches, operandValue_ok hvalue]
    exact comparison_holds hcomparison henv
  | cons step rest ih =>
    unfold Store.reaches Store.leads
    cases predicateCondition_cons_ok h with
    | parent hparent hinner =>
      rw [within_none_holds henv fun b ↦ ih hinner (Env.place?_head b _ _)]
      simp only [show (step.relation == parentName) = true from hparent, ↓reduceIte]
    | owned hparent hkind hinner =>
      rw [within_none_holds henv fun b ↦ ih hinner (Env.place?_head b _ _)]
      simp only [show (step.relation == parentName) = false from Bool.eq_false_iff.mpr hparent,
        Bool.false_eq_true, ↓reduceIte, hkind]
    | linked hparent hkind hinner =>
      have hne : "f" ++ toString (n + 1) ≠ "a" ++ toString (n + 1 + 1) := by
        intro heq
        have hnumber := congrArg labelNumber heq
        rw [labelNumber_append rfl, labelNumber_append rfl] at hnumber
        omega
      rw [within_some_holds henv hne fun b l ↦ ih hinner (Env.place?_head b _ _)]
      simp only [show (step.relation == parentName) = false from Bool.eq_false_iff.mpr hparent,
        Bool.false_eq_true, ↓reduceIte, hkind]

/-! ### Filters -/

variable (store) in
theorem condition_holds_of_run {f : Query.Filter}
    (h : (condition bindings label f).run n = .ok (c, m)) {env : Env} {r : Record}
    (henv : env.place? label = some (r.place label)) :
    (c.test store).holds env = f.holds store bindings r := by
  induction f generalizing n c m with
  | and l r ihl ihr =>
    obtain ⟨cl, k, hl, hrest⟩ := Planning.bind_eq_ok.mp h
    obtain ⟨cr, k', hr, hpure⟩ := Planning.bind_eq_ok.mp hrest
    obtain ⟨rfl, rfl⟩ := Planning.pure_eq_ok.mp hpure
    rw [Condition.test, Test.holds_both, ihl hl, ihr hr, Query.Filter.holds]
  | or l r ihl ihr =>
    obtain ⟨cl, k, hl, hrest⟩ := Planning.bind_eq_ok.mp h
    obtain ⟨cr, k', hr, hpure⟩ := Planning.bind_eq_ok.mp hrest
    obtain ⟨rfl, rfl⟩ := Planning.pure_eq_ok.mp hpure
    rw [Condition.test, Test.holds_either, ihl hl, ihr hr, Query.Filter.holds]
  | predicate p => exact predicateCondition_holds h henv

/-! ### Making conditions never fails -/

theorem predicateCondition_succeeds {p : Query.Predicate} (hp : p.Bound bindings)
    (steps : List Query.Step) (label : String) :
    (predicateCondition bindings p label steps).Succeeds := by
  induction steps generalizing label with
  | nil =>
    intro n
    obtain ⟨c, hc⟩ := comparison_ok (.column label p.field) p.field hp.list
    exact ⟨c, n,
      Planning.bind_eq_ok.mpr ⟨_, n, Planning.lift_eq_ok.mpr ⟨operandValue_eq hp.operand, rfl⟩,
      Planning.lift_eq_ok.mpr ⟨hc, rfl⟩⟩⟩
  | cons step rest ih =>
    unfold predicateCondition
    refine .bind (.fresh "f") fun next ↦ ?_
    dsimp only
    split
    · exact .bind (ih next) fun inner ↦ .pure _
    · split
      · exact .bind (ih next) fun inner ↦ .pure _
      · exact .bind (.fresh "a") fun link ↦ .bind (ih next) fun inner ↦ .pure _

theorem condition_succeeds {f : Query.Filter} (hf : f.Bound bindings) (label : String) :
    (condition bindings label f).Succeeds := by
  induction f with
  | and l r ihl ihr | or l r ihl ihr =>
    exact .bind (ihl hf.1) fun cl ↦ .bind (ihr hf.2) fun cr ↦ .pure _
  | predicate p => exact predicateCondition_succeeds hf p.steps label

/-- Filters mean what their conditions test: with valid arguments every filter of a compiled query
has a condition, and under the name of its table a row makes it true exactly if the filter holds of
the row. -/
theorem compiled_condition_holds {s : Schema} (hs : s.Reachable)
    {form : Language.QueryForm Value Int64} {q : Query.Compiled} (hq : s.compileQuery form = .ok q)
    {slots : Slots} {args : Args} (hb : Query.bind q.parameters slots args = .ok bindings)
    {t : Query.Tree} (ht : t ∈ q.tree.nodes) {f : Query.Filter} (hf : t.level.filter = some f)
    (store : Store) (label : String) (n : Nat) :
    ∃ c m, (condition bindings label f).run n = .ok (c, m) ∧
      ∀ (env : Env) (r : Record), env.place? label = some (r.place label) →
        ((c.test store).holds env ↔ f.holds store bindings r) := by
  have hbound := Query.compileQuery_bound hs.wellFormed hq hb t ht
  obtain ⟨c, m, hrun⟩ := condition_succeeds (hbound.filter f hf) label n
  exact ⟨c, m, hrun, fun env r henv ↦ by rw [condition_holds_of_run store hrun henv]⟩

/-- Persons with a friend and notes of their own: Ann, whose friend is Bob, with two notes. -/
def friendsCalls : List Schema.Call :=
  [.addEntity "Person" .master, .addEntity "Note" .detail,
    .addProperty "Person" (.field "name" (.ofType .text)),
    .addProperty "Person" (.reference "friend" ⟨.linked, "Person", true, false⟩),
    .addProperty "Note" (.field "text" (.ofType .text)),
    .addProperty "Person" (.collection "notes" ⟨.owned, "Note"⟩), .commit]

def friendsPerson : Table where
  name := "Person"
  rowColumn := some "@id"
  columns := [⟨"name", .text, true⟩]
  unique := []
  foreign := []
  rows := [⟨1, [("name", .text "Ann")]⟩, ⟨2, [("name", .text "Bob")]⟩]
  last := 2

def friendsStore : Store where
  enforced := true
  tables := [friendsPerson,
    ⟨"Note", some "@id", [⟨"text", .text, true⟩, ⟨"@parent", .integer, true⟩], [],
      [⟨"@parent", "Person"⟩], [⟨1, [("text", .text "tea"), ("@parent", .integer 1)]⟩,
        ⟨2, [("text", .text "ink"), ("@parent", .integer 1)]⟩], 2⟩,
    ⟨"Person_friend", none, [⟨"@inv", .integer, true⟩, ⟨"@ref", .integer, true⟩],
      [["@inv", "@ref"]], [⟨"@inv", "Person"⟩, ⟨"@ref", "Person"⟩],
      [⟨1, [("@inv", .integer 1), ("@ref", .integer 2)]⟩], 0⟩]

/-- Persons whose friend has a given name and who have a note about tea, with their friend and those
of their notes that are not about ink. -/
def friendsForm : Language.QueryForm Value Int64 :=
  ⟨"Person", some (.and (.predicate ["friend", "name"] (.compare .eq) (.param "friend"))
      (.predicate ["notes", "text"] .isIn (.list [.literal (.text "tea")]))), none, none,
    [.field "name" none, .relation "friend" none none none [.field "name" none],
      .relation "notes"
        (some (.predicate ["text"] (.compare .ne) (.literal (.text "ink")))) none none
        [.field "text" (some (.ascending, 1))]]⟩

theorem compiled_condition_holds_of_friend :
    ∃ q bindings f c m, (Schema.empty.after friendsCalls).compileQuery friendsForm = .ok q ∧
      Query.bind q.parameters .empty [("friend", .value (.text "Bob"))] = .ok bindings ∧
      q.tree.level.filter = some f ∧ (condition bindings "t1" f).run 1 = .ok (c, m) ∧
      (c.test friendsStore).holds [⟨"t1", friendsPerson, some ⟨1, [("name", .text "Ann")]⟩⟩] := by
  have hs : (Schema.empty.after friendsCalls).Reachable := ⟨friendsCalls, rfl⟩
  have hq : (Schema.empty.after friendsCalls).compileQuery friendsForm = .ok _ := rfl
  obtain ⟨c, m, hrun, hholds⟩ := @compiled_condition_holds _ _ hs _ _ hq .empty
    [("friend", .value (.text "Bob"))] rfl _ (Query.Tree.mem_nodes_self _) _ rfl friendsStore "t1" 1
  exact ⟨_, _, _, c, m, hq, rfl, rfl, hrun,
    (hholds _ ⟨friendsPerson, ⟨1, [("name", .text "Ann")]⟩⟩ rfl).mpr (by decide)⟩

end Mapping

end EntityStore
