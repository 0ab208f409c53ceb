import EntityStore.Mapping.Statement
import EntityStore.Proofs.Mapping.Level
import EntityStore.Proofs.Mapping.Served

/-!
What is written of a level is the text of the planned select, though the text is put together in
another order than some of its parts are written; and the values written beside it are the
parameters of the select.
-/

set_option autoImplicit false

namespace EntityStore

/-! ### The text and the values of pieces -/

namespace Piece

def textOf (ps : List Piece) : String :=
  String.join (ps.map chars)

def valuesOf (ps : List Piece) : List Cell :=
  ps.filterMap value?

variable {ps qs : List Piece}

@[simp] theorem textOf_nil : textOf [] = "" :=
  String.join_nil

@[simp] theorem textOf_cons (p : Piece) (ps : List Piece) :
    textOf (p :: ps) = p.chars ++ textOf ps :=
  String.join_cons

@[simp] theorem textOf_append : textOf (ps ++ qs) = textOf ps ++ textOf qs := by
  rw [textOf, List.map_append, String.join_append]
  rfl

@[simp] theorem valuesOf_nil : valuesOf [] = [] :=
  rfl

@[simp] theorem valuesOf_text (s : String) (ps : List Piece) :
    valuesOf (.text s :: ps) = valuesOf ps :=
  rfl

@[simp] theorem valuesOf_column (c : ColumnRef) (joined : Bool) (ps : List Piece) :
    valuesOf (.column c joined :: ps) = valuesOf ps :=
  rfl

@[simp] theorem valuesOf_mark (v : Cell) (ps : List Piece) :
    valuesOf (.mark v :: ps) = v :: valuesOf ps :=
  rfl

@[simp] theorem valuesOf_append : valuesOf (ps ++ qs) = valuesOf ps ++ valuesOf qs :=
  List.filterMap_append

theorem separated_cons (separator : String) (g h : List Piece) (groups : List (List Piece)) :
    separated separator (g :: h :: groups) = g ++
      .text separator :: separated separator (h :: groups) := by
  simp [separated, List.intercalate]

theorem textOf_separated (separator : String) (groups : List (List Piece)) :
    textOf (separated separator groups) = separator.intercalate (groups.map textOf) := by
  induction groups with
  | nil => rfl
  | cons g groups ih =>
    cases groups with
    | nil => simp [separated, List.intercalate, String.intercalate_singleton]
    | cons h groups =>
      rw [separated_cons, textOf_append, textOf_cons, ih]
      simp only [List.map_cons, String.intercalate_cons_cons, String.append_assoc]
      rfl

theorem valuesOf_separated (separator : String) (groups : List (List Piece)) :
    valuesOf (separated separator groups) = groups.flatMap valuesOf := by
  induction groups with
  | nil => rfl
  | cons g groups ih =>
    cases groups with
    | nil => simp [separated, List.intercalate]
    | cons h groups => rw [separated_cons, valuesOf_append, valuesOf_text, ih, ← List.flatMap_cons]

end Piece

open Piece (textOf valuesOf)

namespace Mapping

open Query (Tree)

/-- The text of a column that rows are sorted by. -/
def TermText.ofKey (k : SortKey) : TermText :=
  ⟨k.rank, k.depth, k.term.column.text, k.term.direction⟩

/-! ### What is written of a planned filter -/

section

variable {α β : Type} {bindings : Query.Bindings} {n m : Nat} {label : String} {sheet : Sheet}

namespace Sheet

/-- The sheet behind some pieces, when the names given have been counted up to a number. -/
def behind (sheet : Sheet) (m : Nat) (ps : List Piece) : Sheet :=
  { sheet with names := m, parameters := sheet.parameters ++ valuesOf ps }

@[simp] theorem behind_names (ps : List Piece) : (sheet.behind m ps).names = m :=
  rfl

theorem behind_nil (sheet : Sheet) : sheet.behind sheet.names [] = sheet := by
  simp [behind]

theorem behind_behind (k : Nat) (ps qs : List Piece) :
    (sheet.behind k ps).behind m qs = sheet.behind m (ps ++ qs) := by
  simp [behind]

end Sheet

namespace Writing

/-- What an action writes from a sheet on. -/
def Writes (x : Writing α) (sheet : Sheet) (a : α) (after : Sheet) : Prop :=
  x.run sheet = .ok (a, after)

variable {x : Writing α} {f : α → Writing β} {a : α} {b : β} {after last : Sheet}

theorem Writes.bind (hx : x.Writes sheet a after) (hf : (f a).Writes after b last) :
    Writes (x >>= f) sheet b last := by
  unfold Writes at *
  rw [StateT.run_bind, hx]
  exact hf

theorem Writes.pure (a : α) (sheet : Sheet) : Writes (pure a) sheet a sheet :=
  rfl

theorem Writes.lift {y : Except ExecutionError α} (h : y = .ok a) (sheet : Sheet) :
    Writes (liftM y : Writing α) sheet a sheet := by
  rw [h]
  rfl

theorem get_writes (sheet : Sheet) : Writes get sheet sheet sheet :=
  rfl

theorem name_writes (kind : String) (sheet : Sheet) :
    (name kind).Writes sheet (kind ++ toString (sheet.names + 1))
      (sheet.behind (sheet.names + 1) []) := by
  simp [Writes, name, Sheet.behind]
  rfl

end Writing

open Writing (Writes)

theorem parameters_writes (values : List Cell) (sheet : Sheet) :
    (Writing.parameters values).Writes sheet ()
      { sheet with parameters := sheet.parameters ++ values } :=
  rfl

theorem among_pieces (c : ColumnRef) (v : Cell) (vs : List Cell) (joined : Bool) :
    Condition.pieces joined (.among c (v :: vs)) = .column c joined :: .text " IN (" ::
      Piece.separated ", " ((v :: vs).map fun v ↦ [.mark v]) ++ [.text ")"] :=
  rfl

theorem writeComparison_writes {c : ColumnRef} {field : String}
    {comparator : Language.Comparator} {v : Value} {x : Condition}
    (h : comparison c field comparator v = .ok x) (sheet : Sheet) (joined : Bool) :
    (writeComparison c.text field comparator v).Writes sheet (textOf (x.pieces joined))
      (sheet.behind sheet.names (x.pieces joined)) := by
  have hquiet (text : String) (ps : List Piece) (htext : textOf ps = text)
      (hvalues : valuesOf ps = []) :
      Writes (pure text) sheet (textOf ps) (sheet.behind sheet.names ps) := by
    rw [htext, Sheet.behind, hvalues, List.append_nil]
    exact .pure text sheet
  unfold comparison at h
  split at h
  · next items =>
    cases h
    cases items with
    | nil => exact hquiet _ _ (by simp [Condition.pieces, Piece.chars]) rfl
    | cons v vs =>
      rw [List.map_cons, among_pieces]
      have htext : textOf (.column c joined :: .text " IN (" :: Piece.separated ", "
          ((v.cell :: vs.map Value.cell).map fun v ↦ [.mark v]) ++ [.text ")"]) =
          s!"{c.text} IN (" ++ ", ".intercalate ((v :: vs).map fun _ ↦ "?") ++ ")" := by
        simp [Piece.textOf_separated, Piece.chars, toString, Function.comp_def, String.append_assoc]
      have hvalues : valuesOf (.column c joined :: .text " IN (" :: Piece.separated ", "
          ((v.cell :: vs.map Value.cell).map fun v ↦ [.mark v]) ++ [.text ")"]) =
          (v :: vs).map Value.cell := by
        simpa [Piece.valuesOf_separated, Function.comp_def, List.flatMap_map]
          using List.map_eq_flatMap.symm
      rw [htext, Sheet.behind, hvalues]
      exact (parameters_writes _ _).bind (.pure _ _)
  · cases h
  · cases h
    exact hquiet _ _ (by simp [Condition.pieces, Piece.chars, toString]) rfl
  · cases h
    exact hquiet _ _ (by simp [Condition.pieces, Piece.chars, toString]) rfl
  · next op hne hne' =>
    cases h
    have htext : textOf (Condition.pieces joined (.compare c op v.cell)) =
        s!"{c.text} {op.text} ?" := by
      simp [Condition.pieces, Piece.chars, toString, String.append_assoc]
    have hwrite : writeComparison c.text field (.compare op) v =
        Writing.parameters [v.cell] >>= fun _ ↦ pure s!"{c.text} {op.text} ?" := by
      unfold writeComparison
      split <;> simp_all
    rw [htext, hwrite]
    exact (parameters_writes _ _).bind (.pure _ _)

/-- Behind all marks of some pieces, their text is answered. -/
theorem pure_writes {ps qs : List Piece} {text : String} (htext : textOf qs = text)
    (hvalues : valuesOf ps = valuesOf qs) :
    Writes (pure text) (sheet.behind m ps) (textOf qs) (sheet.behind m qs) := by
  rw [htext, Sheet.behind, hvalues]
  exact .pure _ _

theorem writePredicate_writes {p : Query.Predicate} {steps : List Query.Step} {c : Condition}
    (h : (predicateCondition bindings p label steps).run n = .ok (c, m)) {sheet : Sheet}
    (hn : sheet.names = n) (joined : Bool) :
      (writePredicate bindings p label steps).Writes sheet (textOf (c.pieces joined))
      (sheet.behind m (c.pieces joined)) := by
  induction steps generalizing label n c m sheet joined with
  | nil =>
    obtain ⟨v, hvalue, hcomparison, rfl⟩ := predicateCondition_nil_ok h
    subst hn
    exact (Writes.lift hvalue sheet).bind (writeComparison_writes hcomparison sheet joined)
  | cons step rest ih =>
    subst hn
    unfold writePredicate
    refine (Writing.name_writes "f" sheet).bind ?_
    cases predicateCondition_cons_ok h with
    | parent hparent hinner =>
      rw [if_pos hparent]
      refine (ih hinner rfl false).bind ?_
      rw [Sheet.behind_behind]
      refine pure_writes ?_ (by simp [Condition.pieces])
      simp [Condition.pieces, Piece.chars, Source.text, toString, String.append_assoc]
    | owned hparent hkind hinner =>
      simp only [if_neg hparent, hkind]
      refine (ih hinner rfl false).bind ?_
      rw [Sheet.behind_behind]
      refine pure_writes ?_ (by simp [Condition.pieces])
      simp [Condition.pieces, Piece.chars, Source.text, toString, String.append_assoc]
    | linked hparent hkind hinner =>
      simp only [if_neg hparent, hkind]
      refine (Writing.name_writes "a" _).bind ((ih hinner rfl false).bind ?_)
      rw [Sheet.behind_behind, Sheet.behind_behind]
      refine pure_writes ?_ (by simp [Condition.pieces, Join.pieces, Join.rule])
      simp [Condition.pieces, Join.pieces, Join.rule, Piece.chars, Source.text, toString,
        String.append_assoc]

theorem writeFilter_writes {f : Query.Filter} {c : Condition}
    (h : (condition bindings label f).run n = .ok (c, m)) {sheet : Sheet} (hn : sheet.names = n)
    (joined : Bool) : (writeFilter bindings label f).Writes sheet (textOf (c.pieces joined))
      (sheet.behind m (c.pieces joined)) := by
  induction f generalizing n c m sheet with
  | and l r ihl ihr | or l r ihl ihr =>
    obtain ⟨cl, k, hl, hrest⟩ := Planning.bind_eq_ok.mp h
    obtain ⟨cr, k', hr, hpure⟩ := Planning.bind_eq_ok.mp hrest
    obtain ⟨rfl, rfl⟩ := Planning.pure_eq_ok.mp hpure
    refine (ihl hl hn).bind ((ihr hr rfl).bind ?_)
    rw [Sheet.behind_behind]
    refine pure_writes ?_ (by simp [Condition.pieces])
    simp [Condition.pieces, Piece.chars, toString, String.append_assoc]
  | predicate p => exact writePredicate_writes h hn joined

/-! ### What is written of a plan -/

namespace Sheet

/-- The sheet behind a plan. -/
def planned (sheet : Sheet) (m : Nat) (p : Plan) : Sheet where
  names := m
  columns := sheet.columns ++ p.columns.map ColumnRef.text
  joins := sheet.joins ++ textOf (p.joins.flatMap LeftJoin.pieces)
  sorts := sheet.sorts ++ p.sorts.map TermText.ofKey
  parameters := sheet.parameters ++ valuesOf (p.joins.flatMap LeftJoin.pieces)

theorem planned_none (sheet : Sheet) : sheet.planned sheet.names .none = sheet := by
  simp [planned, Plan.none]

theorem planned_behind_nil (k : Nat) (p : Plan) :
    (sheet.behind k []).planned m p = sheet.planned m p := by
  simp [planned, behind]

theorem planned_planned (k : Nat) (p q : Plan) :
    (sheet.planned k p).planned m q = sheet.planned m (p.append q) := by
  simp [planned, Plan.append, String.append_assoc]

end Sheet

/-- The condition of a join, which goes on from its rule. -/
def conditionPieces (c : Option Condition) : List Piece :=
  (c.map fun c ↦ .text " AND " :: c.pieces true).getD []

/-- The columns and the sorting of some fields. -/
def fieldsPlan (depth : Nat) (label : String) (fields : List Query.SelectedField) : Plan where
  columns := (fields.filter fun f ↦ f.name != idName).map fun f ↦ .column label f.name
  joins := []
  sorts := fields.filterMap fun f ↦ f.sort.map fun (direction, rank) ↦
    ⟨rank, depth, .column label f.name, some direction⟩

theorem fieldsPlan_append (depth : Nat) (label : String) (fs gs : List Query.SelectedField) :
    (fieldsPlan depth label fs).append (fieldsPlan depth label gs) =
      fieldsPlan depth label (fs ++ gs) := by
  simp only [fieldsPlan, Plan.append, List.filter_append, List.map_append,
    List.filterMap_append, List.nil_append]

theorem writeField_writes (depth : Nat) (label : String) (f : Query.SelectedField) (sheet : Sheet) :
    (writeField depth label f).Writes sheet ()
      (sheet.planned sheet.names (fieldsPlan depth label [f])) := by
  unfold writeField
  rcases hsort : f.sort with _ | ⟨direction, rank⟩ <;> by_cases hname : f.name = idName <;>
    simp [hsort, hname, Writes, Writing.sort, Writing.column, Sheet.planned,
      TermText.ofKey, fieldsPlan] <;> rfl

theorem writeFields_writes (depth : Nat) (label : String)
    (fields : List Query.SelectedField) (sheet : Sheet) :
    (fields.forM (writeField depth label)).Writes sheet ()
      (sheet.planned sheet.names (fieldsPlan depth label fields)) := by
  induction fields generalizing sheet with
  | nil =>
    have hnone : sheet.planned sheet.names (fieldsPlan depth label []) = sheet := sheet.planned_none
    rw [hnone]
    exact .pure () sheet
  | cons f fields ih =>
    have hplan : sheet.planned sheet.names (fieldsPlan depth label (f :: fields)) =
        (sheet.planned sheet.names (fieldsPlan depth label [f])).planned sheet.names
          (fieldsPlan depth label fields) := by
      rw [Sheet.planned_planned, fieldsPlan_append]
      rfl
    rw [hplan]
    exact (writeField_writes depth label f sheet).bind (ih _)

theorem writeRule_writes {entity child target : String} {r : Query.Relation} {links : List LeftJoin}
    {join : Join} (h : (relationJoins entity label child r target).run n = .ok ((links, join), m))
    {sheet : Sheet} (hn : sheet.names = n) :
    (writeRule entity label child r).Writes sheet (textOf join.rule)
      (sheet.planned m ⟨[], links, []⟩) := by
  have hrule {j : Join} {text : String} (htext : textOf j.rule = text) :
      Writes (pure text) sheet (textOf j.rule) (sheet.planned sheet.names ⟨[], [], []⟩) := by
    have hnone : sheet.planned sheet.names ⟨[], [], []⟩ = sheet := sheet.planned_none
    rw [htext, hnone]
    exact .pure _ sheet
  subst hn
  unfold writeRule
  cases relationJoins_ok h with
  | parent hparent =>
    rw [if_pos hparent]
    exact hrule (by simp [Join.rule, Piece.chars, toString, String.append_assoc])
  | owned hparent hkind =>
    simp only [if_neg hparent, hkind]
    exact hrule (by simp [Join.rule, Piece.chars, toString, String.append_assoc])
  | linked hparent hkind =>
    simp only [if_neg hparent, hkind]
    refine (Writing.name_writes "l" sheet).bind ?_
    simp [Writes, Writing.join, Sheet.planned, Sheet.behind, Join.rule,
      LeftJoin.pieces, Piece.chars, Source.text, toString, String.append_assoc]
    rfl

theorem writeJoinFilter_writes {f : Option Query.Filter} {cs : List Condition}
    (h : (conditions bindings label f).run n = .ok (cs, m)) {sheet : Sheet} (hn : sheet.names = n) :
    (writeJoinFilter bindings label f).Writes sheet (textOf (conditionPieces cs.head?))
      (sheet.behind m (conditionPieces cs.head?)) := by
  subst hn
  cases f with
  | none =>
    obtain ⟨rfl, rfl⟩ := Planning.pure_eq_ok.mp h
    rw [List.head?_nil, conditionPieces, Option.map_none, Option.getD_none, Sheet.behind_nil]
    exact .pure "" sheet
  | some f =>
    obtain ⟨c, k, hc, hpure⟩ := Planning.bind_eq_ok.mp h
    obtain ⟨rfl, rfl⟩ := Planning.pure_eq_ok.mp hpure
    refine (writeFilter_writes hc rfl true).bind (pure_writes ?_ ?_)
    · simp [conditionPieces, Piece.chars, toString]
    · simp [conditionPieces]

theorem join_writes {join : Join} {links : List LeftJoin} {condition : Option Condition}
    {table child : String} (hsource : join.source = ⟨table, child⟩) {k : Nat} {sheet : Sheet} :
    (Writing.join (s!" LEFT JOIN {quoteName table} {child} ON {textOf join.rule}" ++
      textOf (conditionPieces condition))).Writes
        ((sheet.planned k ⟨[], links, []⟩).behind m (conditionPieces condition)) ()
        (sheet.planned m ⟨[], links ++ [⟨join, condition⟩], []⟩) := by
  have hpieces : LeftJoin.pieces ⟨join, condition⟩ =
      .text s!" LEFT JOIN {join.source.text} ON " :: join.rule ++ conditionPieces condition := rfl
  have hrule : valuesOf join.rule = [] := rfl
  simp only [Writes, Writing.join, Sheet.planned, Sheet.behind, List.flatMap_append,
    List.flatMap_singleton, hpieces, hsource]
  simp [Piece.chars, Source.text, toString, String.append_assoc, hrule]
  rfl

/-- Writing a tree does what planning it does. -/
def PlanWritten (bindings : Query.Bindings) (t : Tree) : Prop :=
  ∀ {depth n m : Nat} {label : String} {p : Plan} {sheet : Sheet},
    (plan bindings depth label t).run n = .ok (p, m) → sheet.names = n →
      (writePlan bindings depth label t).Writes sheet () (sheet.planned m p)

theorem writeRelations_writes {depth : Nat} {entity : String}
    {relations : List (Query.Relation × Tree)}
    (ih : ∀ r t, (r, t) ∈ relations → PlanWritten bindings t) {p : Plan}
    (h : (planRelations bindings depth label entity relations).run n = .ok (p, m)) {sheet : Sheet}
    (hn : sheet.names = n) :
    (writeRelations bindings depth label entity relations).Writes sheet () (sheet.planned m p) := by
  induction relations generalizing n m p sheet with
  | nil =>
    unfold planRelations at h
    obtain ⟨rfl, rfl⟩ := Planning.pure_eq_ok.mp h
    subst hn
    rw [Sheet.planned_none]
    exact .pure () sheet
  | cons x rest ihrest =>
    obtain ⟨r, t⟩ := x
    have hrest : ∀ r' t', (r', t') ∈ rest → PlanWritten bindings t' :=
      fun r' t' hmem ↦ ih r' t' (List.mem_cons_of_mem _ hmem)
    unfold writeRelations
    cases planRelations_cons_ok h with
    | many hmany h =>
      rw [if_pos hmany]
      exact ihrest hrest h hn
    | @single links join cs inner others _ k₂ k₃ hmany hjoins hcs hinner hothers =>
      rw [if_neg hmany]
      subst hn
      obtain ⟨hsource, -⟩ := relationJoins_names hjoins
      refine (Writing.name_writes "t" sheet).bind ((writeRule_writes hjoins rfl).bind ?_)
      refine (writeJoinFilter_writes hcs rfl).bind ?_
      rw [Sheet.planned_behind_nil]
      refine (join_writes hsource).bind ((ih r t List.mem_cons_self hinner rfl).bind ?_)
      -- the sheet grows by the joins of the relation, by what is below it and by what is beside it
      rw [← Sheet.planned_planned k₂, ← Sheet.planned_planned k₃]
      exact ihrest hrest hothers rfl

theorem writePlan_writes (t : Tree) : PlanWritten bindings t := by
  induction t using Tree.induction with
  | node level relations ih =>
    intro depth n m label p sheet h hn
    obtain ⟨below, hbelow, rfl⟩ := plan_node_ok h
    subst hn
    unfold writePlan
    have hid : (Writing.column (ColumnRef.column label idName).text).Writes sheet ()
        (sheet.planned sheet.names ⟨[.column label idName], [], []⟩) := by
      simp [Writes, Writing.column, Sheet.planned]
      rfl
    refine hid.bind ((writeFields_writes depth label level.fields _).bind ?_)
    have hlevel : (sheet.planned sheet.names ⟨[.column label idName], [], []⟩).planned sheet.names
        (fieldsPlan depth label level.fields) = sheet.planned sheet.names
          (Plan.ofLevel level depth label) := by
      rw [Sheet.planned_planned]
      rfl
    rw [← Sheet.planned_planned sheet.names, ← hlevel]
    exact writeRelations_writes ih hbelow rfl

/-! ### What is written of a level -/

/-- What a scope decides of a statement, as texts. -/
def ScopeText.ofRestriction (r : ColumnRef × Option Join × List OrderTerm) : ScopeText :=
  ⟨textOf ((r.2.1.map Join.pieces).getD []), r.1.text, r.2.2.map fun t ↦ textOf t.pieces⟩

theorem ofRestriction_linked (main table link : String) :
    ScopeText.ofRestriction (.column link ownerColumn,
        some ⟨⟨table, link⟩, .column link targetColumn, .column main idName⟩,
        [⟨.rowNumber link, none⟩]) =
      ⟨s!" JOIN {quoteName table} {link}" ++
        s!" ON {(ColumnRef.column link targetColumn).text} = {(ColumnRef.column main idName).text}",
        (ColumnRef.column link ownerColumn).text, [s!"{link}.rowid"]⟩ := by
  simp [ScopeText.ofRestriction, Join.pieces, Join.rule, OrderTerm.pieces, Piece.chars,
    Source.text, ColumnRef.text, toString, String.append_assoc]

/-- The sheet behind the part that a scope decides. -/
def Sheet.restricted (sheet : Sheet) (m : Nat) (scope : Option Scope)
    (restricted : Option (ColumnRef × Option Join × List OrderTerm)) : Sheet :=
  { sheet.behind m ((amongOwners scope restricted).flatMap (Condition.pieces false)) with
    columns := sheet.columns ++ (restricted.map fun (c, _, _) ↦ c).toList.map ColumnRef.text }

theorem scopeText_writes {main : String} {s : Scope} {r : ColumnRef × Option Join × List OrderTerm}
    (h : (restriction main s).run n = .ok (r, m)) {sheet : Sheet} (hn : sheet.names = n) :
    (scopeText main s).Writes sheet (.ofRestriction r) (sheet.behind m []) := by
  subst hn
  unfold scopeText
  cases restriction_ok h with
  | owned hkind =>
    simp only [hkind]
    rw [Sheet.behind_nil]
    exact .pure _ sheet
  | linked hkind =>
    simp only [hkind]
    refine (Writing.name_writes "s" sheet).bind ?_
    rw [ofRestriction_linked]
    exact .pure _ _

theorem writeScope_writes {main : String} {scope : Option Scope}
    {restricted : Option (ColumnRef × Option Join × List OrderTerm)}
    (h : (scope.mapM (restriction main)).run n = .ok (restricted, m)) {sheet : Sheet}
    (hn : sheet.names = n) :
    (scope.mapM (writeScope main)).Writes sheet (restricted.map .ofRestriction)
      (sheet.restricted m scope restricted) := by
  cases scope with
  | none =>
    obtain ⟨rfl, rfl⟩ := Planning.pure_eq_ok.mp h
    subst hn
    simp [Sheet.restricted, Sheet.behind, amongOwners]
    rfl
  | some s =>
    obtain ⟨x, rfl, hx⟩ := restriction_of_mapM h
    have hscope : (writeScope main s).Writes sheet (.ofRestriction x)
        (sheet.restricted m (some s) (some x)) := by
      refine (scopeText_writes hx hn).bind ((parameters_writes _ _).bind ?_)
      simp [Sheet.restricted, Sheet.behind, amongOwners, Condition.pieces]
      rfl
    rw [show Option.mapM (writeScope main) (some s) = writeScope main s >>=
      fun x ↦ pure (some x) from rfl]
    exact hscope.bind (.pure _ _)

theorem writeLevelFilter_writes {f : Option Query.Filter} {cs : List Condition}
    (h : (conditions bindings label f).run n = .ok (cs, m)) {sheet : Sheet} (hn : sheet.names = n) :
    (writeLevelFilter bindings label f).Writes sheet (cs.map fun c ↦ textOf (c.pieces false))
      (sheet.behind m (cs.flatMap (Condition.pieces false))) := by
  subst hn
  cases f with
  | none =>
    obtain ⟨rfl, rfl⟩ := Planning.pure_eq_ok.mp h
    rw [List.map_nil, List.flatMap_nil, Sheet.behind_nil]
    exact .pure [] sheet
  | some f =>
    obtain ⟨c, k, hc, hpure⟩ := Planning.bind_eq_ok.mp h
    obtain ⟨rfl, rfl⟩ := Planning.pure_eq_ok.mp hpure
    rw [List.flatMap_singleton]
    exact (writeFilter_writes hc rfl false).bind (.pure _ _)

theorem select_text (s : Select) : s.text =
    "SELECT " ++ ", ".intercalate (s.columns.map ColumnRef.text) ++ s!" FROM {s.source.text}" ++
      (textOf ((s.scope.map Join.pieces).getD []) ++ textOf (s.joins.flatMap LeftJoin.pieces)) ++
      (if s.conditions.isEmpty then ""
        else " WHERE " ++ " AND ".intercalate (s.conditions.map fun c ↦ textOf (c.pieces false))) ++
      " ORDER BY " ++ ", ".intercalate (s.order.map fun t ↦ textOf t.pieces) ++
        textOf s.pagePieces := by
  have hwhere : textOf s.wherePieces = if s.conditions.isEmpty then ""
      else " WHERE " ++ " AND ".intercalate (s.conditions.map fun c ↦ textOf (c.pieces false)) := by
    unfold Select.wherePieces
    split <;> simp [Piece.textOf_separated, Piece.chars, Function.comp_def]
  rw [← hwhere]
  change textOf s.pieces = _
  simp [Select.pieces, Piece.textOf_separated, Piece.chars, toString, Function.comp_def,
    String.append_assoc]

theorem columns_values (cs : List ColumnRef) :
    valuesOf (Piece.separated ", " (cs.map fun c ↦ [.column c false])) = [] := by
  rw [Piece.valuesOf_separated, List.flatMap_map]
  exact List.flatMap_eq_nil_iff.mpr fun _ _ ↦ rfl

theorem order_values (ts : List OrderTerm) :
    valuesOf (Piece.separated ", " (ts.map OrderTerm.pieces)) = [] := by
  rw [Piece.valuesOf_separated, List.flatMap_map]
  refine List.flatMap_eq_nil_iff.mpr fun t _ ↦ ?_
  unfold OrderTerm.pieces
  split <;> rfl

theorem join_values (j : Option Join) : valuesOf ((j.map Join.pieces).getD []) = [] := by
  cases j <;> rfl

theorem select_parameters (s : Select) : s.parameters = valuesOf
    (s.joins.flatMap LeftJoin.pieces) ++ valuesOf (s.conditions.flatMap (Condition.pieces false)) ++
      valuesOf s.pagePieces := by
  have hwhere : valuesOf s.wherePieces = valuesOf
      (s.conditions.flatMap (Condition.pieces false)) := by
    unfold Select.wherePieces
    cases hconditions : s.conditions with
    | nil => rfl
    | cons c cs =>
      rw [List.isEmpty_cons, if_neg Bool.false_ne_true, Piece.valuesOf_text,
        Piece.valuesOf_separated, List.flatMap_map]
      exact List.filterMap_flatMap.symm
  change valuesOf s.pieces = _
  unfold Select.pieces
  simp only [Piece.valuesOf_append, Piece.valuesOf_text, List.cons_append,
    columns_values, order_values, join_values, hwhere, List.nil_append, List.append_assoc]

theorem writePage_writes (text : String) (page : Option PageBounds)
    (scope : Option Scope) {select : Select}
    (h : select.page = if scope.isNone then page.map fun b ↦ (b.limit, b.offset) else none)
    (sheet : Sheet) :
    (writePage text page scope).Writes sheet (text ++ textOf select.pagePieces)
      (sheet.behind sheet.names select.pagePieces) := by
  unfold Select.pagePieces
  rw [h]
  rcases page with _ | b <;> rcases scope with _ | s
  case some.none =>
    simp [Writes, writePage, Writing.parameters, Sheet.behind, Piece.chars]
    rfl
  all_goals
    simp [Writes, writePage, Sheet.behind]
    rfl

theorem ofKey_text (k : SortKey) : (TermText.ofKey k).text = textOf k.term.pieces := by
  unfold TermText.text TermText.ofKey OrderTerm.pieces
  rcases k.term with ⟨c, _ | _ | _⟩ <;> simp [Piece.chars, toString]

/-- Texts are sorted by the same ranks and depths as the keys they are written for. -/
theorem sorted_texts (ks : List SortKey) :
    ((ks.map TermText.ofKey).mergeSort TermText.le).map TermText.text =
    ((ks.mergeSort SortKey.le).map SortKey.term).map fun t ↦ textOf t.pieces := by
  have hmap : (ks.mergeSort SortKey.le).map TermText.ofKey =
      (ks.map TermText.ofKey).mergeSort TermText.le :=
    List.map_mergeSort fun _ _ _ _ ↦ rfl
  rw [← hmap, List.map_map, List.map_map]
  exact List.map_congr_left fun k _ ↦ ofKey_text k

theorem amongOwners_texts {scope : Option Scope}
    {restricted : Option (ColumnRef × Option Join × List OrderTerm)}
    (h : scope.isSome = restricted.isSome) :
    ((restricted.map ScopeText.ofRestriction).toList.map
        fun r ↦ s!"{r.owner} IN (SELECT value FROM json_each(?))") =
      (amongOwners scope restricted).map fun c ↦ textOf (c.pieces false) := by
  rcases scope with _ | s <;> rcases restricted with _ | ⟨c, j, terms⟩
  · rfl
  · cases h
  · cases h
  · simp [amongOwners, ScopeText.ofRestriction, Condition.pieces, Piece.chars, toString]

theorem levelText_eq {t : Query.Tree} {main : String} {p : Plan} {scope : Option Scope}
    {restricted : Option (ColumnRef × Option Join × List OrderTerm)} {cs : List Condition}
    {page : Option PageBounds} {select : Select}
    (hselect : select = levelOf t scope main p restricted cs page)
    (hscope : scope.isSome = restricted.isSome)
    {sheet : Sheet} (hcolumns : sheet.columns = select.columns.map ColumnRef.text)
    (hjoins : sheet.joins = textOf (select.joins.flatMap LeftJoin.pieces))
    (hsorts : sheet.sorts = p.sorts.map TermText.ofKey) :
    levelText t.level.entity main (restricted.map .ofRestriction)
      (cs.map fun c ↦ textOf (c.pieces false)) sheet ++ textOf select.pagePieces = select.text := by
  have horder : (sheet.sorts.mergeSort TermText.le).map TermText.text ++
      ((restricted.map ScopeText.ofRestriction).map ScopeText.order).getD [] ++
        [(ColumnRef.column main idName).text] = select.order.map fun t ↦ textOf t.pieces := by
    rw [hsorts, sorted_texts, hselect, levelOf]
    rcases restricted with _ | ⟨c, j, terms⟩ <;>
      simp [ScopeText.ofRestriction, OrderTerm.pieces, Piece.chars]
  have hconditions : (restricted.map ScopeText.ofRestriction).toList.map
        (fun r ↦ s!"{r.owner} IN (SELECT value FROM json_each(?))") ++
      (cs.map fun c ↦ textOf (c.pieces false)) = select.conditions.map fun c ↦ textOf
        (c.pieces false) := by
    rw [hselect, levelOf, List.map_append, amongOwners_texts hscope]
  have hjoin : ((restricted.map ScopeText.ofRestriction).map ScopeText.join).getD "" =
      textOf ((select.scope.map Join.pieces).getD []) := by
    rw [hselect, levelOf]
    rcases restricted with _ | ⟨c, j, terms⟩ <;> simp [ScopeText.ofRestriction]
  have hempty : ((restricted.map ScopeText.ofRestriction).toList.map
        (fun r ↦ s!"{r.owner} IN (SELECT value FROM json_each(?))") ++
      (cs.map fun c ↦ textOf (c.pieces false))).isEmpty = select.conditions.isEmpty := by
    rw [hconditions, List.isEmpty_map]
  have hsource : s!"{quoteName t.level.entity} {main}" = select.source.text := by rw [hselect]; rfl
  rw [select_text, ← hsource]
  unfold levelText
  dsimp only
  rw [hempty, horder, hconditions, hjoin, hcolumns, hjoins]
  simp [toString, String.append_assoc]

/-- What is written of a level is the text of its planned statement, beside the parameters of
that. -/
theorem writeLevel_writes {t : Tree} {scope : Option Scope} {select : Select}
    {page : Option PageBounds}
    (h : (levelSelect bindings t scope).run n = .ok ((select, page), m)) :
    ∃ sheet, (writeLevel bindings t scope).Writes (.blank n) select.text sheet ∧ sheet.names = m ∧
      sheet.parameters = select.parameters := by
  obtain ⟨p, k, restricted, k₁, cs, hp, hr, hcs, hpage, rfl⟩ := levelSelect_ok h
  have hsome : scope.isSome = restricted.isSome := by
    cases scope with
    | none =>
      obtain ⟨rfl, -⟩ := Planning.pure_eq_ok.mp hr
      rfl
    | some s =>
      obtain ⟨x, rfl, -⟩ := restriction_of_mapM hr
      rfl
  let sheet :=
    (((((Sheet.blank n).behind (n + 1) []).planned k p).restricted k₁ scope restricted).behind m
    (cs.flatMap (Condition.pieces false)))
  have hcolumns : sheet.columns =
      (levelOf t scope ("t" ++ toString (n + 1)) p restricted cs page).columns.map
        ColumnRef.text := by
    rw [levelOf, List.map_append]
    rfl
  have htext := levelText_eq rfl hsome hcolumns String.empty_append rfl
  refine ⟨sheet.behind m
    (levelOf t scope ("t" ++ toString (n + 1)) p restricted cs page).pagePieces, ?_, rfl, ?_⟩
  · rw [← htext]
    exact (Writing.name_writes "t" _).bind
      ((writePlan_writes t hp rfl).bind ((writeScope_writes hr rfl).bind
      ((writeLevelFilter_writes hcs rfl).bind
        ((Writing.get_writes _).bind
          ((Writes.lift hpage _).bind (writePage_writes _ page scope rfl sheet))))))
  · rw [select_parameters]
    simp [levelOf, sheet, Sheet.behind, Sheet.restricted, Sheet.planned, Sheet.blank]

end

end Mapping

end EntityStore
