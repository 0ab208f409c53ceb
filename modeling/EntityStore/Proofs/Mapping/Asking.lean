import EntityStore.Mapping.Read

/-!
Queries that ask the same, each under bindings of its own. They may differ in their operands and in
their limits and pages as long as these stand for the same values; then the same statements are run
and the same rows are read (`Tree.Same.read`).
-/

set_option autoImplicit false

namespace EntityStore

namespace Query

variable {b b' : Bindings}

/-- Two predicates that compare the same field with the same value. -/
structure Predicate.Same (b b' : Bindings) (p p' : Predicate) : Prop where
  steps : p'.steps = p.steps
  field : p'.field = p.field
  comparator : p'.comparator = p.comparator
  operand : Mapping.operandValue b' p'.operand = Mapping.operandValue b p.operand

/-- Two filters of the same shape, predicate by predicate. -/
inductive Filter.Same (b b' : Bindings) : Filter → Filter → Prop where
  | and {l l' r r' : Filter} (hl : Same b b' l l') (hr : Same b b' r r') :
      Same b b' (.and l r) (.and l' r')
  | or {l l' r r' : Filter} (hl : Same b b' l l') (hr : Same b b' r r') :
      Same b b' (.or l r) (.or l' r')
  | predicate {p p' : Predicate} (h : p.Same b b' p') : Same b b' (.predicate p) (.predicate p')

/-- Two limits or pages that stand for the same number, if any. -/
structure Limit.Same (b b' : Bindings) (x x' : Option (Language.Bound Int64)) : Prop where
  given : x'.isSome = x.isSome
  value : Mapping.boundValue b' x' = Mapping.boundValue b x

structure Level.Same (b b' : Bindings) (l l' : Level) : Prop where
  entity : l'.entity = l.entity
  filter : Option.Rel (Filter.Same b b') l.filter l'.filter
  limit : Limit.Same b b' l.limit l'.limit
  page : Limit.Same b b' l.page l'.page
  fields : l'.fields = l.fields

mutual

/-- Two trees that ask the same level by level. -/
inductive Tree.Same (b b' : Bindings) : Tree → Tree → Prop where
  | node {l l' : Level} {rs rs' : List (Relation × Tree)} (hlevel : l.Same b b' l')
      (hrelations : AllSame b b' rs rs') :
      Same b b' (.node l rs) (.node l' rs')

inductive Tree.AllSame (b b' : Bindings) : List (Relation × Tree) → List
    (Relation × Tree) → Prop where
  | nil : AllSame b b' [] []
  | cons {r : Relation} {t t' : Tree} {rs rs' : List (Relation × Tree)} (ht : Tree.Same b b' t t')
      (hrest : AllSame b b' rs rs') : AllSame b b' ((r, t) :: rs) ((r, t') :: rs')

end

theorem Tree.AllSame.append {xs xs' ys ys' : List (Relation × Tree)} (hx : Tree.AllSame b b' xs xs')
    (hy : Tree.AllSame b b' ys ys') : Tree.AllSame b b' (xs ++ ys) (xs' ++ ys') := by
  induction xs generalizing xs' with
  | nil =>
    cases hx
    exact hy
  | cons x xs ih =>
    cases hx with
    | cons ht hrest => exact .cons ht (ih hrest)

theorem Tree.Same.level {t t' : Tree} (h : t.Same b b' t') : t.level.Same b b' t'.level := by
  cases h with
  | node hlevel _ => exact hlevel

theorem Tree.Same.relations {t t' : Tree} (h : t.Same b b' t') :
    Tree.AllSame b b' t.relations t'.relations := by
  cases h with
  | node _ hrelations => exact hrelations

end Query

namespace Mapping

open Query (Tree)

variable {b b' : Query.Bindings}

/-! ### Statements -/

theorem predicateCondition_same {p p' : Query.Predicate} (h : p.Same b b' p') (label : String)
    (steps : List Query.Step) :
    predicateCondition b' p' label steps = predicateCondition b p label steps := by
  induction steps generalizing label with
  | nil => rw [predicateCondition, predicateCondition, h.operand, h.field, h.comparator]
  | cons step rest ih => simp only [predicateCondition, ih]

theorem condition_same {f f' : Query.Filter} (h : f.Same b b' f') (label : String) :
    condition b' label f' = condition b label f := by
  induction h with
  | and _ _ ihl ihr | or _ _ ihl ihr => rw [condition, condition, ihl, ihr]
  | predicate h => rw [condition, condition, h.steps, predicateCondition_same h]

theorem conditions_same {f f' : Option Query.Filter} (h : Option.Rel (Query.Filter.Same b b') f f')
    (label : String) :
    conditions b' label f' = conditions b label f := by
  cases h with
  | none => rfl
  | some h => rw [conditions, conditions, condition_same h]

theorem ofLevel_same {l l' : Query.Level} (h : l.Same b b' l') (depth : Nat) (label : String) :
    Plan.ofLevel l' depth label = Plan.ofLevel l depth label := by
  unfold Plan.ofLevel Plan.ownFields
  rw [h.fields]

mutual

theorem plan_same {t t' : Tree} (h : t.Same b b' t') (depth : Nat) (label : String) :
    plan b' depth label t' = plan b depth label t := by
  cases h with
  | node hlevel hrelations =>
    rw [plan, plan, hlevel.entity, planRelations_same hrelations, ofLevel_same hlevel]

theorem planRelations_same {rs rs' : List (Query.Relation × Tree)}
    (h : Tree.AllSame b b' rs rs') (depth : Nat) (label entity : String) :
    planRelations b' depth label entity rs' = planRelations b depth label entity rs := by
  cases h with
  | nil => rfl
  | cons ht hrest =>
    simp only [planRelations, planRelations_same hrest, ht.level.entity,
      conditions_same ht.level.filter, plan_same ht]

end

theorem pageBounds_same {l l' : Query.Level} (h : l.Same b b' l') :
    pageBounds b' l' = pageBounds b l := by
  rw [pageBounds, pageBounds, h.limit.value, h.page.value]

theorem levelSelect_same {t t' : Tree} (h : t.Same b b' t') (scope : Option Scope) :
    levelSelect b' t' scope = levelSelect b t scope := by
  simp only [levelSelect, plan_same h, conditions_same h.level.filter,
    pageBounds_same h.level, h.level.entity]

/-! ### Rows -/

mutual

theorem width_same {t t' : Tree} (h : t.Same b b' t') : width t' = width t := by
  cases h with
  | node hlevel hrelations =>
    rw [width, width, relationsWidth_same hrelations, Plan.ownFields, Plan.ownFields, hlevel.fields]

theorem relationsWidth_same {rs rs' : List (Query.Relation × Tree)} (h : Tree.AllSame b b' rs rs') :
    relationsWidth rs' = relationsWidth rs := by
  cases h with
  | nil => rfl
  | cons ht hrest => rw [relationsWidth, relationsWidth, width_same ht, relationsWidth_same hrest]

end

mutual

theorem assemble_same {t t' : Tree} (h : t.Same b b' t') (cells : List Cell) :
    assemble t' cells = assemble t cells := by
  cases h with
  | node hlevel hrelations =>
    cases cells with
    | nil => rfl
    | cons c cells =>
      cases c with
      | integer id =>
        simp only [assemble, Plan.ownFields, hlevel.fields, assembleRelations_same hrelations]
      | _ => rfl

theorem assembleRelations_same {rs rs' : List (Query.Relation × Tree)}
    (h : Tree.AllSame b b' rs rs') (cells : List Cell) :
    assembleRelations rs' cells = assembleRelations rs cells := by
  cases h with
  | nil => rfl
  | cons ht hrest =>
    simp only [assembleRelations, assemble_same ht, width_same ht, assembleRelations_same hrest]

end

theorem record_same {t t' : Tree} (h : t.Same b b' t') : record t' = record t := by
  funext cells
  simp only [record, assemble_same h, width_same h]

variable (store : Store)

theorem runLevel_same {t t' : Tree} (h : t.Same b b' t') (scope : Option Scope) :
    runLevel store b' t' scope = runLevel store b t scope := by
  simp only [runLevel, levelSelect_same h, record_same h]

mutual

theorem fill_same {rs rs' : List (Query.Relation × Tree)}
    (h : Tree.AllSame b b' rs rs') (entity : String) (path : List String) (rows : List OwnedRow) :
    fill store b' entity path rs' rows = fill store b entity path rs rows := by
  cases h with
  | nil => rfl
  | @cons r t t' _ _ ht hrest => simp only [fill, fillRelation_same ht r, fill_same hrest]

theorem fillRelation_same {t t' : Tree} (h : t.Same b b' t') (r : Query.Relation) (entity : String)
    (path : List String) (rows : List OwnedRow) :
    fillRelation store b' entity path r t' rows = fillRelation store b entity path r t rows := by
  have hrun (scope : Scope) := runLevel_same store h (some scope)
  cases h with
  | node hlevel hrelations =>
    simp only [fillRelation, hlevel.entity, fill_same hrelations, hrun]

end

/-- Queries that ask the same read the same. -/
theorem read_same {t t' : Tree} (h : t.Same b b' t') : read store b' t' = read store b t := by
  simp only [read, readTop, readLevel, runLevel_same store h, h.level.entity,
    fill_same store h.relations]

end Mapping

end EntityStore
