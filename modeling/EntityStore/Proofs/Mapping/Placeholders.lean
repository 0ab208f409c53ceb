import EntityStore.Proofs.Mapping.Safety
import EntityStore.Proofs.Mapping.Sight
import EntityStore.Proofs.Mapping.Statement

/-!
The marks in the statement of a level and the values beside it. The text has as many marks as there
are values, each mark stands right behind the comparison its value is meant for, and no table is
named before its name is given.
-/

set_option autoImplicit false

namespace EntityStore

open Query (Tree)
open Mapping (linkTableName ownerColumn targetColumn)

/-! ### Marks among pieces -/

/-- A value that a statement asks for: what is written up to its mark, and the value meant. -/
structure Asked where
  lead : String
  value : Cell

/-- More text in front. -/
def Asked.behind (opening : String) (a : Asked) : Asked :=
  ⟨opening ++ a.lead, a.value⟩

namespace Piece

/-- The marks among pieces behind a text, each with all that is written up to it. -/
def marks (start : String) : List Piece → List Asked
  | [] => []
  | p :: ps => (p.value?.map fun v ↦ ⟨start, v⟩).toList ++ marks (start ++ p.chars) ps

theorem marks_append (start : String) (ps qs : List Piece) :
    marks start (ps ++ qs) = marks start ps ++ marks (start ++ textOf ps) qs := by
  induction ps generalizing start with
  | nil => simp [marks]
  | cons p ps ih =>
    rw [List.cons_append, marks, ih, marks, textOf_cons, List.append_assoc, String.append_assoc]

theorem marks_behind (opening start : String) (ps : List Piece) :
    marks (opening ++ start) ps = (marks start ps).map (Asked.behind opening) := by
  induction ps generalizing start with
  | nil => rfl
  | cons p ps ih =>
    rw [marks, marks, List.map_append, String.append_assoc, ih]
    cases p <;> rfl

theorem marks_eq_map (start : String) (ps : List Piece) :
    marks start ps = (marks "" ps).map (Asked.behind start) := by
  rw [← marks_behind, String.append_empty]

theorem map_value_marks (start : String) (ps : List Piece) :
    (marks start ps).map Asked.value = valuesOf ps := by
  induction ps generalizing start with
  | nil => rfl
  | cons p ps ih =>
    rw [marks, List.map_append, ih]
    cases p <;> rfl

theorem getElem?_marks {start : String} {ps : List Piece} {i : Nat} {a : Asked}
    (h : (marks start ps)[i]? = some a) :
    ∃ before after, ps = before ++ .mark a.value :: after ∧ a.lead = start ++ textOf before ∧
      (valuesOf before).length = i := by
  induction ps generalizing start i with
  | nil => cases h
  | cons p ps ih =>
    rw [marks] at h
    cases hvalue : p.value? with
    | none =>
      rw [hvalue, Option.map_none, Option.toList_none, List.nil_append] at h
      obtain ⟨before, after, rfl, hlead, hlength⟩ := ih h
      refine ⟨p :: before, after, rfl, ?_, ?_⟩
      · rw [hlead, textOf_cons, String.append_assoc]
      · rw [← hlength, valuesOf, List.filterMap_cons_none hvalue]
        rfl
    | some v =>
      obtain rfl : p = .mark v := by
        cases p <;> cases hvalue
        rfl
      cases i with
      | zero =>
        cases h
        exact ⟨[], ps, rfl, by simp, rfl⟩
      | succ i =>
        obtain ⟨before, after, rfl, hlead, hlength⟩ := ih h
        refine ⟨.mark v :: before, after, rfl, ?_, ?_⟩
        · rw [hlead, textOf_cons, String.append_assoc]
        · rw [valuesOf_mark, List.length_cons, hlength]

/-- The marks among pieces are those of some values in their order, each behind what it is told to
stand behind. -/
def Stands (ps : List Piece) (asked : List Asked) : Prop :=
  List.Forall₂ (fun a b ↦ ∃ opening, a = b.behind opening) (marks "" ps) asked

namespace Stands

variable {ps qs : List Piece} {as bs : List Asked}

theorem of_marks (h : marks "" ps = as) : Stands ps as := by
  rw [Stands, h]
  exact List.forall₂_same.mpr fun a _ ↦ ⟨"", by simp [Asked.behind]⟩

theorem append (h : Stands ps as) (h' : Stands qs bs) : Stands (ps ++ qs) (as ++ bs) := by
  rw [Stands, marks_append, marks_eq_map ("" ++ textOf ps)]
  refine List.rel_append h (List.forall₂_map_left_iff.mpr (List.Forall₂.imp (fun a b hab ↦ ?_) h'))
  obtain ⟨opening, rfl⟩ := hab
  exact ⟨"" ++ textOf ps ++ opening, by simp [Asked.behind, String.append_assoc]⟩

/-- Pieces without marks. -/
theorem of_values (h : valuesOf ps = []) : Stands ps [] :=
  of_marks (List.map_eq_nil_iff.mp ((map_value_marks "" ps).trans h))

theorem after (hps : valuesOf ps = []) (h : Stands qs bs) : Stands (ps ++ qs) bs :=
  append (of_values hps) h

theorem cons_text (s : String) (h : Stands ps as) : Stands (.text s :: ps) as :=
  have hs : valuesOf [Piece.text s] = [] := rfl
  after hs h

end Stands

end Piece

open Piece (Stands textOf valuesOf)

/-! ### What a statement asks for -/

namespace Mapping

variable {bindings : Query.Bindings} {n m : Nat} {label : String}

/-- What a comparison of a column asks for: nothing if it is with null, the members of a list in
their order, or else the value. -/
def comparisonAsks (c : ColumnRef) : Language.Comparator → Value → List Asked
  | .isIn, .list items =>
    items.zipIdx.map
      fun (v, i) ↦ ⟨s!"{c.text} IN (" ++ String.join (List.replicate i "?, "), v.cell⟩
  | .isIn, _ => []
  | .compare .eq, .null | .compare .ne, .null => []
  | .compare op, v => [⟨s!"{c.text} {op.text} ", v.cell⟩]

/-- The text by which a step of a path opens a nested select on the rows it leads to. -/
def stepText (step : Query.Step) (label next link : String) : String :=
  let target := (Source.mk step.target next).text
  if step.isParent then
    s!"{(ColumnRef.column label parentName).text} IN (SELECT " ++
      s!"{(ColumnRef.column next idName).text} FROM {target} WHERE "
  else match step.kind with
    | .owned =>
      s!"{(ColumnRef.column label idName).text} IN (SELECT " ++
        s!"{(ColumnRef.column next parentName).text} FROM {target} WHERE "
    | .linked =>
      s!"{(ColumnRef.column label idName).text} IN (SELECT " ++
        s!"{(ColumnRef.column link ownerColumn).text}" ++
        s!" FROM {(Source.mk (linkTableName step.source step.relation) link).text} JOIN {target}" ++
        s!" ON {(ColumnRef.column next idName).text} = " ++
        s!"{(ColumnRef.column link targetColumn).text} WHERE "

/-- What a comparison at the end of a path asks for, each step being opened under names of its
own. -/
inductive PathAsks (asks : String → List Asked) : String → List Query.Step → List Asked → Prop where
  | here (label : String) : PathAsks asks label [] (asks label)
  | step {label next : String} (link : String) {step : Query.Step}
    {rest : List Query.Step} {as : List Asked} (h : PathAsks asks next rest as) :
    PathAsks asks label (step :: rest) (as.map (Asked.behind (stepText step label next link)))

/-- What a filter asks for, its predicates taken from left to right. -/
inductive FilterAsks (bindings : Query.Bindings) (label : String) :
    Query.Filter → List Asked → Prop where
  | and {l r : Query.Filter} {as bs : List Asked} (hl : FilterAsks bindings label l as)
    (hr : FilterAsks bindings label r bs) : FilterAsks bindings label (.and l r) (as ++ bs)
  | or {l r : Query.Filter} {as bs : List Asked} (hl : FilterAsks bindings label l as)
    (hr : FilterAsks bindings label r bs) : FilterAsks bindings label (.or l r) (as ++ bs)
  | predicate {p : Query.Predicate} {v : Value} {as : List Asked}
    (hv : operandValue bindings p.operand = .ok v)
    (h : PathAsks (fun label ↦ comparisonAsks (.column label p.field) p.comparator v)
      label p.steps as) :
    FilterAsks bindings label (.predicate p) as

theorem marks_list (start : String) (vs : List Cell) :
    Piece.marks start (Piece.separated ", " (vs.map fun v ↦ [.mark v])) =
      vs.zipIdx.map fun (v, i) ↦ ⟨start ++ String.join (List.replicate i "?, "), v⟩ := by
  induction vs generalizing start with
  | nil => rfl
  | cons v vs ih =>
    cases vs with
    | nil => simp [Piece.separated, List.intercalate, Piece.marks, Piece.value?]
    | cons w vs =>
      have hcons : Piece.marks start (Piece.separated ", " ((v :: w :: vs).map fun v ↦ [.mark v])) =
          ⟨start, v⟩ :: Piece.marks (start ++ "?, ")
            (Piece.separated ", " ((w :: vs).map fun v ↦ [.mark v])) := by
        rw [List.map_cons, List.map_cons, Piece.separated_cons]
        simp [Piece.marks, Piece.value?, Piece.chars, String.append_assoc]
      have hshift : (v :: w :: vs).zipIdx =
          (v, 0) :: (w :: vs).zipIdx.map fun (v, i) ↦ (v, i + 1) := by
        rw [List.zipIdx_cons, List.zipIdx_succ]
      rw [hcons, ih, hshift, List.map_cons, List.map_map]
      simp only [List.replicate_succ, List.replicate_zero, String.join_nil, String.join_cons,
        String.append_empty, String.append_assoc, Function.comp_def]

theorem comparison_marks {c : ColumnRef} {field : String}
    {comparator : Language.Comparator} {v : Value} {x : Condition}
    (h : comparison c field comparator v = .ok x) (joined : Bool) :
    Piece.marks "" (x.pieces joined) = comparisonAsks c comparator v := by
  unfold comparison at h
  split at h
  · next items =>
    cases h
    cases items with
    | nil => rfl
    | cons v vs =>
      rw [List.map_cons, among_pieces, ← List.map_cons, List.cons_append, List.cons_append,
        Piece.marks, Piece.marks, Piece.marks_append, marks_list]
      simp [comparisonAsks, Piece.marks, Piece.value?, Piece.chars, toString, List.zipIdx_map]
  · cases h
  · cases h
    rfl
  · cases h
    rfl
  · next op hne hne' =>
    cases h
    have hasks : comparisonAsks c (.compare op) v = [⟨s!"{c.text} {op.text} ", v.cell⟩] := by
      unfold comparisonAsks
      split <;> simp_all
    rw [hasks]
    simp [Condition.pieces, Piece.marks, Piece.value?, Piece.chars, toString, String.append_assoc]

/-- The marks of a nested select, behind the text that opens it. -/
theorem within_marks {c picked : ColumnRef} {source : Source} {join : Option Join}
    {inner : Condition} (joined : Bool) {opening : String}
    (h : c.text ++ (" IN (SELECT " ++ (picked.text ++ (s!" FROM {source.text}" ++
      (textOf ((join.map Join.pieces).getD []) ++ " WHERE ")))) = opening) :
    Piece.marks "" (Condition.pieces joined (.within c picked source join inner)) =
      (Piece.marks "" (inner.pieces false)).map (Asked.behind opening) := by
  have hjoin : valuesOf ((join.map Join.pieces).getD []) = [] := by
    cases join <;> rfl
  have hopen : Condition.pieces joined (.within c picked source join inner) =
      (.column c joined :: .text " IN (SELECT " :: .column picked false ::
        .text s!" FROM {source.text}" :: (join.map Join.pieces).getD [] ++ [.text " WHERE "]) ++
          (inner.pieces false ++ [.text ")"]) := by
    simp [Condition.pieces]
  have hquiet : Piece.marks "" (.column c joined :: .text " IN (SELECT " :: .column picked false ::
      .text s!" FROM {source.text}" :: (join.map Join.pieces).getD [] ++ [.text " WHERE "]) = [] :=
    List.map_eq_nil_iff.mp ((Piece.map_value_marks "" _).trans (by simp [hjoin]))
  have hclose (start : String) : Piece.marks start [.text ")"] = [] := rfl
  rw [hopen, Piece.marks_append, hquiet, Piece.marks_append, hclose,
    List.append_nil, List.nil_append, Piece.marks_eq_map, ← h]
  simp [Piece.chars]

theorem predicateCondition_marks {p : Query.Predicate} {steps : List Query.Step} {c : Condition}
    (h : (predicateCondition bindings p label steps).run n = .ok (c, m)) :
    ∃ v as, operandValue bindings p.operand = .ok v ∧
      PathAsks (fun label ↦ comparisonAsks (.column label p.field) p.comparator v) label steps as ∧
        ∀ joined, Piece.marks "" (c.pieces joined) = as := by
  induction steps generalizing label n c m with
  | nil =>
    obtain ⟨v, hvalue, hcomparison, -⟩ := predicateCondition_nil_ok h
    exact ⟨v, _, hvalue, .here label, comparison_marks hcomparison⟩
  | cons step rest ih =>
    cases predicateCondition_cons_ok h with
    | parent hparent hinner =>
      obtain ⟨v, as, hv, hpath, hmarks⟩ := ih hinner
      refine ⟨v, _, hv, .step "" hpath, fun joined ↦ ?_⟩
      rw [← hmarks false]
      refine within_marks joined ?_
      simp [stepText, hparent, toString, String.append_assoc]
    | owned hparent hkind hinner =>
      obtain ⟨v, as, hv, hpath, hmarks⟩ := ih hinner
      refine ⟨v, _, hv, .step "" hpath, fun joined ↦ ?_⟩
      rw [← hmarks false]
      refine within_marks joined ?_
      simp [stepText, hparent, hkind, toString, String.append_assoc]
    | linked hparent hkind hinner =>
      obtain ⟨v, as, hv, hpath, hmarks⟩ := ih hinner
      refine ⟨v, _, hv, .step ("a" ++ toString (n + 1 + 1)) hpath, fun joined ↦ ?_⟩
      rw [← hmarks false]
      refine within_marks joined ?_
      simp [stepText, hparent, hkind, Join.pieces, Join.rule, Piece.chars, toString,
        String.append_assoc]

theorem condition_stands {f : Query.Filter} {c : Condition}
    (h : (condition bindings label f).run n = .ok (c, m)) :
    ∃ as, FilterAsks bindings label f as ∧ ∀ joined, Stands (c.pieces joined) as := by
  induction f generalizing n c m with
  | and l r ihl ihr | or l r ihl ihr =>
    obtain ⟨cl, k, hl, hrest⟩ := Planning.bind_eq_ok.mp h
    obtain ⟨cr, k', hr, hpure⟩ := Planning.bind_eq_ok.mp hrest
    obtain ⟨rfl, rfl⟩ := Planning.pure_eq_ok.mp hpure
    obtain ⟨as, has, hleft⟩ := ihl hl
    obtain ⟨bs, hbs, hright⟩ := ihr hr
    refine ⟨as ++ bs, by constructor <;> assumption, fun joined ↦ ?_⟩
    have hpieces (op : String) :
        Stands (.text "(" :: cl.pieces joined ++ .text op :: cr.pieces joined ++ [.text ")"])
        (as ++ bs) := by
      rw [← List.append_nil (as ++ bs)]
      exact ((Stands.cons_text "(" (hleft joined)).append (.cons_text op (hright joined))).append
        (.of_values rfl)
    exact hpieces _
  | predicate p =>
    obtain ⟨v, as, hv, hpath, hmarks⟩ := predicateCondition_marks h
    exact ⟨as, .predicate hv hpath, fun joined ↦ .of_marks (hmarks joined)⟩

/-- What the filter of a level asks for, if it has one. -/
def OptionalAsks (bindings : Query.Bindings) (label : String) :
    Option Query.Filter → List Asked → Prop
  | none, as => as = []
  | some f, as => FilterAsks bindings label f as

/-- Joins lead from the table with a label to that of a single relation, which has a label of its
own. -/
def Connects (joins : List Join) (entity label child : String) (r : Query.Relation)
    (target : String) : Prop :=
  if r.isParent then ⟨⟨target, child⟩, .column child idName, .column label parentName⟩ ∈ joins
  else match r.kind with
    | .owned => ⟨⟨target, child⟩, .column child parentName, .column label idName⟩ ∈ joins
    | .linked => ∃ link,
      ⟨⟨linkTableName entity r.name, link⟩, .column link ownerColumn,
          .column label idName⟩ ∈ joins ∧
        ⟨⟨target, child⟩, .column child idName, .column link targetColumn⟩ ∈ joins

/-- What the single relations of a level ask for: each its filter, then its own single relations,
and then the relations beside it. -/
inductive JoinsAsk (bindings : Query.Bindings) (joins : List Join) :
    String → String → List (Query.Relation × Tree) → List Asked → Prop where
  | nil (entity label : String) : JoinsAsk bindings joins entity label [] []
  | many {entity label : String} {r : Query.Relation} {t : Tree}
    {rest : List (Query.Relation × Tree)} {others : List Asked} (hmany : r.many)
    (h : JoinsAsk bindings joins entity label rest others) :
    JoinsAsk bindings joins entity label ((r, t) :: rest) others
  | single {entity label child : String} {r : Query.Relation} {t : Tree}
    {rest : List (Query.Relation × Tree)} {own below others : List Asked} (hsingle : ¬r.many)
    (hjoin : Connects joins entity label child r t.level.entity)
    (hown : OptionalAsks bindings child t.level.filter own)
    (hbelow : JoinsAsk bindings joins t.level.entity child t.relations below)
    (h : JoinsAsk bindings joins entity label rest others) :
    JoinsAsk bindings joins entity label ((r, t) :: rest) (own ++ below ++ others)

/-- The one value that the owners of a scope are asked for by. -/
def ownersAsked (owner : ColumnRef) (s : Scope) : Asked :=
  ⟨s!"{owner.text} IN (SELECT value FROM json_each(", .text (Condition.idsText s.owners)⟩

/-- What a scope asks for: its owners, as owners of the level's table or through the links to it. -/
inductive ScopeAsks (join : Option Join) (main : String) : Option Scope → List Asked → Prop where
  | none : ScopeAsks join main none []
  | owned {s : Scope} (hkind : s.relation.kind = .owned) :
    ScopeAsks join main (some s) [ownersAsked (.column main parentName) s]
  | linked {s : Scope} {link : String} (hkind : s.relation.kind = .linked)
    (hjoin : join = some ⟨⟨linkTableName s.source s.relation.name, link⟩, .column link targetColumn,
      .column main idName⟩) :
    ScopeAsks join main (some s) [ownersAsked (.column link ownerColumn) s]

/-- What a page asks for. Within a scope it is cut afterwards. -/
def pageAsks : Option PageBounds → Option Scope → List Asked
  | some b, none => [⟨" LIMIT ", .integer b.limit⟩, ⟨" LIMIT ? OFFSET ", .integer b.offset⟩]
  | _, _ => []

/-- What the statement of a level asks for: the filters in the joins of the single relations, then
the owners of the scope, then the level's own filter, and then its page. -/
inductive LevelAsks (bindings : Query.Bindings) (t : Tree)
    (scope : Option Scope) (select : Select) :
    List Asked → Prop where
  | intro {joined owners filtered : List Asked} {page : Option PageBounds}
    (hsource : select.source.table = t.level.entity)
    (hjoined : JoinsAsk bindings (select.joins.map LeftJoin.join) t.level.entity
      select.source.label t.relations joined)
    (howners : ScopeAsks select.scope select.source.label scope owners)
    (hfiltered : OptionalAsks bindings select.source.label t.level.filter filtered)
    (hpage : pageBounds bindings t.level = .ok page) :
    LevelAsks bindings t scope select (joined ++ owners ++ filtered ++ pageAsks page scope)

/-- Conditions stand for what they ask for, one after the other. -/
def StandAll (cs : List Condition) (as : List Asked) : Prop :=
  ∃ ass : List (List Asked), ass.flatten = as ∧
    List.Forall₂ (fun c as ↦ Stands (c.pieces false) as) cs ass

namespace StandAll

variable {cs ds : List Condition} {as bs : List Asked}

theorem nil : StandAll [] [] :=
  ⟨[], rfl, .nil⟩

theorem single {c : Condition} (h : Stands (c.pieces false) as) : StandAll [c] as :=
  ⟨[as], List.append_nil as, .cons h .nil⟩

theorem append (h : StandAll cs as) (h' : StandAll ds bs) : StandAll (cs ++ ds) (as ++ bs) := by
  obtain ⟨ass, rfl, hcs⟩ := h
  obtain ⟨bss, rfl, hds⟩ := h'
  exact ⟨ass ++ bss, List.flatten_append, List.rel_append hcs hds⟩

theorem separated (h : StandAll cs as) (separator : String) :
    Stands (Piece.separated separator (cs.map (Condition.pieces false))) as := by
  obtain ⟨ass, rfl, hcs⟩ := h
  induction hcs with
  | nil => exact .of_values rfl
  | @cons c as cs ass hc hrest ih =>
    cases hrest with
    | nil =>
      have hone : Piece.separated separator [c.pieces false] = c.pieces false := by
        simp [Piece.separated, List.intercalate]
      rw [List.map_singleton, hone, List.flatten_singleton]
      exact hc
    | cons _ _ =>
      rw [List.map_cons, List.map_cons, Piece.separated_cons, List.flatten_cons]
      exact hc.append (.cons_text separator ih)

end StandAll

theorem conditions_stands {f : Option Query.Filter} {cs : List Condition}
    (h : (conditions bindings label f).run n = .ok (cs, m)) :
    ∃ as, OptionalAsks bindings label f as ∧ Stands (conditionPieces cs.head?) as ∧
    StandAll cs as := by
  cases f with
  | none =>
    obtain ⟨rfl, -⟩ := Planning.pure_eq_ok.mp h
    exact ⟨[], rfl, .of_values rfl, .nil⟩
  | some f =>
    obtain ⟨c, k, hc, hpure⟩ := Planning.bind_eq_ok.mp h
    obtain ⟨rfl, rfl⟩ := Planning.pure_eq_ok.mp hpure
    obtain ⟨as, has, hstands⟩ := condition_stands hc
    exact ⟨as, has, .cons_text _ (hstands true), .single (hstands false)⟩

theorem relationJoins_connects {entity child target : String} {r : Query.Relation}
    {links : List LeftJoin} {join : Join}
    (h : (relationJoins entity label child r target).run n = .ok ((links, join), m)) :
    valuesOf (links.flatMap LeftJoin.pieces) = [] ∧
      ∀ joins : List Join, links.map LeftJoin.join ⊆ joins →
      join ∈ joins → Connects joins entity label child r target := by
  unfold Connects
  cases relationJoins_ok h with
  | parent hparent => exact ⟨rfl, fun joins _ hjoin ↦ (if_pos hparent).symm ▸ hjoin⟩
  | owned hparent hkind =>
    simp only [if_neg hparent, hkind]
    exact ⟨rfl, fun joins _ hjoin ↦ hjoin⟩
  | linked hparent hkind =>
    simp only [if_neg hparent, hkind]
    exact ⟨rfl, fun joins hlinks hjoin ↦ ⟨_, hlinks List.mem_cons_self, hjoin⟩⟩

theorem leftJoin_stands {join : Join} {condition : Option Condition} {as : List Asked}
    (h : Stands (conditionPieces condition) as) : Stands (LeftJoin.pieces ⟨join, condition⟩) as :=
  have hrule : valuesOf (.text s!" LEFT JOIN {join.source.text} ON " :: join.rule) = [] := rfl
  .after hrule h

/-- The plan of a tree stands for what the joins of its single relations ask for. -/
def PlanStands (bindings : Query.Bindings) (t : Tree) : Prop :=
  ∀ {depth n m : Nat} {label : String} {p : Plan},
    (plan bindings depth label t).run n = .ok (p, m) →
    ∃ as, Stands (p.joins.flatMap LeftJoin.pieces) as ∧ ∀ joins, p.joins.map LeftJoin.join ⊆ joins →
      JoinsAsk bindings joins t.level.entity label t.relations as

theorem planRelations_stands {depth : Nat} {entity : String}
    {relations : List (Query.Relation × Tree)}
    (ih : ∀ r t, (r, t) ∈ relations → PlanStands bindings t) {p : Plan}
    (h : (planRelations bindings depth label entity relations).run n = .ok (p, m)) :
    ∃ as, Stands (p.joins.flatMap LeftJoin.pieces) as ∧ ∀ joins, p.joins.map LeftJoin.join ⊆ joins →
      JoinsAsk bindings joins entity label relations as := by
  induction relations generalizing n m p with
  | nil =>
    unfold planRelations at h
    obtain ⟨rfl, rfl⟩ := Planning.pure_eq_ok.mp h
    exact ⟨[], .of_values rfl, fun joins _ ↦ .nil entity label⟩
  | cons x rest ihrest =>
    obtain ⟨r, t⟩ := x
    have hrest : ∀ r' t', (r', t') ∈ rest → PlanStands bindings t' :=
      fun r' t' hmem ↦ ih r' t' (List.mem_cons_of_mem _ hmem)
    cases planRelations_cons_ok h with
    | many hmany h =>
      obtain ⟨as, hstands, hasks⟩ := ihrest hrest h
      exact ⟨as, hstands, fun joins hsub ↦ .many hmany (hasks joins hsub)⟩
    | single hmany hjoins hcs hinner hothers =>
      obtain ⟨own, howns, hown, -⟩ := conditions_stands hcs
      obtain ⟨below, hbelow, hbelows⟩ := ih r t List.mem_cons_self hinner
      obtain ⟨beside, hbeside, hbesides⟩ := ihrest hrest hothers
      obtain ⟨hquiet, hconnects⟩ := relationJoins_connects hjoins
      refine ⟨own ++ below ++ beside, ?_, fun joins hsub ↦ ?_⟩
      · simp only [Plan.append, List.flatMap_append, List.flatMap_singleton, List.append_assoc]
        exact .after hquiet ((leftJoin_stands hown).append (hbelow.append hbeside))
      · simp only [Plan.append, List.map_append, List.append_subset, List.map_singleton] at hsub
        obtain ⟨⟨hlinks, hjoin⟩, hinners, hothers⟩ := hsub
        exact .single hmany (hconnects joins hlinks (hjoin List.mem_cons_self)) howns
          (hbelows joins hinners) (hbesides joins hothers)

theorem plan_stands (t : Tree) : PlanStands bindings t := by
  induction t using Tree.induction with
  | node level relations ih =>
    intro depth n m label p h
    obtain ⟨below, hbelow, rfl⟩ := plan_node_ok h
    obtain ⟨as, hstands, hasks⟩ := planRelations_stands ih hbelow
    exact ⟨as, hstands, hasks⟩

theorem restriction_stands {main : String} {scope : Option Scope}
    {restricted : Option (ColumnRef × Option Join × List OrderTerm)}
    (h : (scope.mapM (restriction main)).run n = .ok (restricted, m)) :
    ∃ as, ScopeAsks (restricted.bind fun (_, j, _) ↦ j) main scope as ∧
      StandAll (amongOwners scope restricted) as := by
  cases scope with
  | none =>
    obtain ⟨rfl, rfl⟩ := Planning.pure_eq_ok.mp h
    exact ⟨[], .none, .nil⟩
  | some s =>
    obtain ⟨⟨c, j, terms⟩, rfl, hx⟩ := restriction_of_mapM h
    have hstands : StandAll (amongOwners (some s) (some (c, j, terms))) [ownersAsked c s] := by
      refine .single (.of_marks ?_)
      simp [Condition.pieces, Piece.marks, Piece.value?, Piece.chars, ownersAsked, toString]
    refine ⟨_, ?_, hstands⟩
    cases restriction_ok hx with
    | owned hkind => exact .owned hkind
    | linked hkind => exact .linked hkind rfl

theorem wherePieces_stands {s : Select} {as : List Asked} (h : StandAll s.conditions as) :
    Stands s.wherePieces as := by
  unfold Select.wherePieces
  cases hconditions : s.conditions with
  | nil =>
    rw [hconditions] at h
    obtain ⟨_, hflat, ⟨⟩⟩ := h
    rw [← hflat]
    exact .of_values rfl
  | cons c cs => exact .cons_text _ (hconditions ▸ h.separated " AND ")

theorem levelSelect_stands {t : Tree} {scope : Option Scope} {select : Select}
    {page : Option PageBounds}
    (h : (levelSelect bindings t scope).run n = .ok ((select, page), m)) :
    ∃ asked, LevelAsks bindings t scope select asked ∧ Stands select.pieces asked := by
  obtain ⟨p, k, restricted, k₁, cs, hp, hr, hcs, hpage, hselect⟩ := levelSelect_ok h
  obtain ⟨joined, hjoined, hjoins⟩ := plan_stands t hp
  obtain ⟨owners, howners, hamong⟩ := restriction_stands hr
  obtain ⟨filtered, hfiltered, -, hfilter⟩ := conditions_stands hcs
  have hasks : LevelAsks bindings t scope select (joined ++ owners ++ filtered ++
      pageAsks page scope) :=
    hselect ▸ .intro rfl (hjoins _ (List.Subset.refl _)) howners hfiltered hpage
  refine ⟨_, hasks, ?_⟩
  have hwhere : Stands select.wherePieces (owners ++ filtered) :=
    wherePieces_stands (hselect ▸ hamong.append hfilter)
  have hpages : Stands select.pagePieces (pageAsks page scope) := by
    refine .of_marks ?_
    rw [hselect]
    rcases page with _ | b <;> rcases scope with _ | s <;> rfl
  have hpieces : select.pieces =
      (.text "SELECT " :: Piece.separated ", " (select.columns.map fun c ↦ [.column c false]) ++
        .text s!" FROM {select.source.text}" :: (select.scope.map Join.pieces).getD []) ++
      (select.joins.flatMap LeftJoin.pieces ++ (select.wherePieces ++
        (.text " ORDER BY " :: Piece.separated ", " (select.order.map OrderTerm.pieces) ++
          select.pagePieces))) := by
    simp [Select.pieces]
  have hjoinsPieces : Stands (select.joins.flatMap LeftJoin.pieces) joined := hselect ▸ hjoined
  have hhead : valuesOf
        (.text "SELECT " :: Piece.separated ", " (select.columns.map fun c ↦ [.column c false]) ++
        .text s!" FROM {select.source.text}" :: (select.scope.map Join.pieces).getD []) = [] := by
    simp [columns_values, join_values]
  have horder : valuesOf
      (.text " ORDER BY " :: Piece.separated ", " (select.order.map OrderTerm.pieces)) = [] :=
    order_values select.order
  -- columns, tables and the order have no marks, so only joins, conditions and the page are asked
  -- for
  rw [hpieces, List.append_assoc joined, List.append_assoc joined]
  exact .after hhead (hjoinsPieces.append (hwhere.append (.after horder hpages)))

end Mapping

/-! ### Texts without a mark -/

/-- A text in which no mark stands. -/
def Unmarked (s : String) : Prop :=
  '?' ∉ s.toList

instance (s : String) : Decidable (Unmarked s) :=
  inferInstanceAs (Decidable ('?' ∉ s.toList))

theorem unmarked_append {s t : String} : Unmarked (s ++ t) ↔ Unmarked s ∧ Unmarked t := by
  rw [Unmarked, String.toList_append, List.mem_append, not_or]
  rfl

theorem unmarked_quoteName {name : String} (h : Unmarked name) : Unmarked (quoteName name) := by
  have hquoted : ∀ c ∈ name.toList.flatMap fun c ↦ if c = '"' then ['"', '"'] else [c],
      c ∈ '"' :: name.toList := by
    intro c hc
    obtain ⟨d, hd, hc⟩ := List.mem_flatMap.mp hc
    split at hc <;> simp_all
  unfold quoteName Unmarked
  rw [String.toList_ofList]
  intro hmem
  rcases List.mem_append.mp hmem with hmem | hmem
  · rcases List.mem_cons.mp hmem with hmem | hmem
    · revert hmem
      decide
    · rcases List.mem_cons.mp (hquoted _ hmem) with hmem | hmem
      · revert hmem
        decide
      · exact h hmem
  · revert hmem
    decide

theorem unmarked_of_isName {name : String} (h : isName name) : Unmarked name := by
  unfold isName at h
  unfold Unmarked
  cases hlist : name.toList with
  | nil => exact List.not_mem_nil
  | cons c cs =>
    rw [hlist] at h
    have h := Bool.and_eq_true_iff.mp h
    intro hmem
    rcases List.mem_cons.mp hmem with rfl | hmem
    · exact absurd h.1 (by decide)
    · exact absurd (List.all_eq_true.mp h.2 '?' hmem) (by decide)

theorem ColumnRef.unmarked_text {c : ColumnRef} (hlabel : Unmarked c.label)
    (hname : ∀ label name, c = .column label name → Unmarked name) : Unmarked c.text := by
  cases c with
  | column label name =>
    have hquoted := unmarked_quoteName (hname label name rfl)
    refine unmarked_append.mpr ⟨unmarked_append.mpr ⟨hlabel, ?_⟩, hquoted⟩
    decide
  | rowNumber label => exact unmarked_append.mpr ⟨hlabel, by decide⟩

theorem Source.unmarked_text {x : Source} (htable : Unmarked x.table) (hlabel : Unmarked x.label) :
    Unmarked x.text :=
  unmarked_append.mpr ⟨unmarked_append.mpr ⟨unmarked_quoteName htable, by decide⟩, hlabel⟩

namespace Piece

/-- A mark, or a text or column without one. -/
def Clear (p : Piece) : Prop :=
  p.value? = none → Unmarked p.chars

theorem clear_text {s : String} (h : Unmarked s) : (text s).Clear :=
  fun _ ↦ h

theorem clear_column {c : ColumnRef} (h : Unmarked c.text) (joined : Bool) :
    (column c joined).Clear :=
  fun _ ↦ h

theorem clear_mark (v : Cell) : (mark v).Clear :=
  nofun

theorem count_marks {ps : List Piece} (h : ∀ p ∈ ps, p.Clear) :
    (textOf ps).toList.count '?' = (valuesOf ps).length := by
  induction ps with
  | nil => rfl
  | cons p ps ih =>
    obtain ⟨hp, hps⟩ := List.forall_mem_cons.mp h
    rw [textOf_cons, String.toList_append, List.count_append, ih hps]
    cases p with
    | mark v => simp [chars, Nat.add_comm]
    | text s =>
      rw [List.count_eq_zero.mpr (hp rfl), Nat.zero_add]
      rfl
    | column c joined =>
      rw [List.count_eq_zero.mpr (hp rfl), Nat.zero_add]
      rfl

theorem mem_separated {separator : String} {groups : List (List Piece)} {p : Piece}
    (h : p ∈ separated separator groups) : p = .text separator ∨ ∃ g ∈ groups, p ∈ g := by
  induction groups with
  | nil => cases h
  | cons g groups ih =>
    cases groups with
    | nil =>
      refine .inr ⟨g, List.mem_cons_self, ?_⟩
      simpa [separated, List.intercalate] using h
    | cons g' groups =>
      rw [separated_cons] at h
      rcases List.mem_append.mp h with h | h
      · exact .inr ⟨g, List.mem_cons_self, h⟩
      · rcases List.mem_cons.mp h with h | h
        · exact .inl h
        · rcases ih h with h | ⟨g'', hg, h⟩
          · exact .inl h
          · exact .inr ⟨g'', List.mem_cons_of_mem _ hg, h⟩

theorem clear_separated {separator : String} {groups : List (List Piece)} (hs : Unmarked separator)
    (h : ∀ g ∈ groups, ∀ p ∈ g, p.Clear) : ∀ p ∈ separated separator groups, p.Clear := by
  intro p hp
  rcases mem_separated hp with rfl | ⟨g, hg, hp⟩
  · exact fun _ ↦ hs
  · exact h g hg p hp

end Piece

open Piece (clear_text clear_column clear_mark)

theorem Join.rule_clear {j : Join} (hleft : Unmarked j.left.text) (hright : Unmarked j.right.text) :
    ∀ p ∈ j.rule, p.Clear :=
  List.forall_mem_cons.mpr ⟨clear_column hleft true, List.forall_mem_cons.mpr
    ⟨clear_text (by decide), List.forall_mem_singleton.mpr (clear_column hright true)⟩⟩

theorem Join.pieces_clear {j : Join} (hsource : Unmarked j.source.text)
    (hleft : Unmarked j.left.text) (hright : Unmarked j.right.text) : ∀ p ∈ j.pieces, p.Clear := by
  have htext : Unmarked s!" JOIN {j.source.text} ON " :=
    unmarked_append.mpr ⟨unmarked_append.mpr ⟨by decide, hsource⟩, by decide⟩
  exact List.forall_mem_cons.mpr ⟨clear_text htext, j.rule_clear hleft hright⟩

theorem optionalJoin_clear {j : Option Join}
    (hsources : ∀ x ∈ (j.map Join.source).toList, Unmarked x.text)
    (hcolumns : ∀ x ∈ (j.map fun j ↦ [(j.left, true), (j.right, true)]).getD [],
      Unmarked x.1.text) :
    ∀ p ∈ (j.map Join.pieces).getD [], p.Clear := by
  cases j with
  | none => exact List.forall_mem_nil _
  | some j =>
    exact j.pieces_clear (hsources j.source List.mem_cons_self) (hcolumns _ List.mem_cons_self)
      (hcolumns _ (List.mem_cons_of_mem _ List.mem_cons_self))

theorem junction_clear {ls rs : List Piece} {op : String} (hop : Unmarked op)
    (hl : ∀ p ∈ ls, p.Clear) (hr : ∀ p ∈ rs, p.Clear) :
    ∀ p ∈ .text "(" :: ls ++ .text op :: rs ++ [.text ")"], p.Clear := by
  simp only [List.cons_append, List.forall_mem_cons, List.forall_mem_append]
  exact ⟨clear_text (by decide), ⟨hl, clear_text hop, hr⟩, clear_text (by decide),
    List.forall_mem_nil _⟩

theorem Condition.pieces_clear {c : Condition} {k : Bool}
    (hsources : ∀ x ∈ c.sources, Unmarked x.text) (hcolumns : ∀ x ∈ c.columns k, Unmarked x.1.text)
    (joined : Bool) : ∀ p ∈ c.pieces joined, p.Clear := by
  induction c generalizing k joined with
  | both l r ihl ihr | either l r ihl ihr =>
    obtain ⟨hsl, hsr⟩ := List.forall_mem_append.mp hsources
    obtain ⟨hcl, hcr⟩ := List.forall_mem_append.mp hcolumns
    exact junction_clear (by decide) (ihl hsl hcl joined) (ihr hsr hcr joined)
  | compare c op v =>
    have hc : Unmarked c.text := hcolumns (c, k) List.mem_cons_self
    have hop : Unmarked s!" {op.text} " := by cases op <;> decide
    simp only [Condition.pieces, List.forall_mem_cons]
    exact ⟨clear_column hc joined, clear_text hop, clear_mark v, List.forall_mem_nil _⟩
  | isNull c | notNull c =>
    have hc : Unmarked c.text := hcolumns (c, k) List.mem_cons_self
    simp only [Condition.pieces, List.forall_mem_cons]
    exact ⟨clear_column hc joined, clear_text (by decide), List.forall_mem_nil _⟩
  | among c vs =>
    cases vs with
    | nil => exact List.forall_mem_singleton.mpr (clear_text (by decide))
    | cons v vs =>
      have hc : Unmarked c.text := hcolumns (c, k) List.mem_cons_self
      rw [Mapping.among_pieces]
      simp only [List.cons_append, List.forall_mem_cons, List.forall_mem_append]
      refine ⟨clear_column hc joined, clear_text (by decide), Piece.clear_separated (by decide) ?_,
        clear_text (by decide), List.forall_mem_nil _⟩
      exact List.forall_mem_map.mpr fun w _ ↦ List.forall_mem_singleton.mpr (clear_mark w)
  | amongIds c ids =>
    have hc : Unmarked c.text := hcolumns (c, k) List.mem_cons_self
    simp only [Condition.pieces, List.forall_mem_cons]
    exact ⟨clear_column hc joined, clear_text (by decide), clear_mark _, clear_text (by decide),
      List.forall_mem_nil _⟩
  | within c picked source join inner ih =>
    simp only [Condition.sources, Condition.columns, List.cons_append, List.forall_mem_cons,
      List.forall_mem_append] at hsources hcolumns
    obtain ⟨hsource, hjoins, hinners⟩ := hsources
    obtain ⟨hpicked, ⟨hinner, hrule⟩, hc, -⟩ := hcolumns
    have hfrom : Unmarked s!" FROM {source.text}" := unmarked_append.mpr ⟨by decide, hsource⟩
    simp only [Condition.pieces, List.cons_append, List.forall_mem_cons, List.forall_mem_append]
    exact ⟨clear_column hc joined, clear_text (by decide),
      clear_column hpicked false, clear_text hfrom,
      ⟨optionalJoin_clear hjoins hrule, clear_text (by decide), ih hinners hinner false⟩,
      clear_text (by decide), List.forall_mem_nil _⟩

theorem LeftJoin.pieces_clear {j : LeftJoin} (hsource : Unmarked j.join.source.text)
    (hleft : Unmarked j.join.left.text) (hright : Unmarked j.join.right.text)
    (hsources : ∀ x ∈ (j.condition.map Condition.sources).getD [], Unmarked x.text)
    (hcolumns : ∀ x ∈ (j.condition.map (Condition.columns true)).getD [], Unmarked x.1.text) :
    ∀ p ∈ j.pieces, p.Clear := by
  have htext : Unmarked s!" LEFT JOIN {j.join.source.text} ON " :=
    unmarked_append.mpr ⟨unmarked_append.mpr ⟨by decide, hsource⟩, by decide⟩
  refine List.forall_mem_append.mpr
    ⟨List.forall_mem_cons.mpr ⟨clear_text htext, j.join.rule_clear hleft hright⟩, ?_⟩
  cases hc : j.condition with
  | none => exact List.forall_mem_nil _
  | some c =>
    rw [hc] at hsources hcolumns
    exact List.forall_mem_cons.mpr ⟨clear_text (by decide), c.pieces_clear hsources hcolumns true⟩

theorem OrderTerm.pieces_clear {t : OrderTerm} (h : Unmarked t.column.text) :
    ∀ p ∈ t.pieces, p.Clear := by
  refine List.forall_mem_cons.mpr ⟨clear_column h false, ?_⟩
  split
  · exact List.forall_mem_singleton.mpr (clear_text (by decide))
  · exact List.forall_mem_singleton.mpr (clear_text (by decide))
  · exact List.forall_mem_nil _

theorem Select.pieces_clear {s : Select} (hsources : ∀ x ∈ s.sources, Unmarked x.text)
    (hcolumns : ∀ x ∈ s.columnRefs, Unmarked x.1.text) : ∀ p ∈ s.pieces, p.Clear := by
  simp only [Select.sources, Select.columnRefs, List.cons_append, List.forall_mem_cons,
    List.forall_mem_append, List.forall_mem_map, List.forall_mem_flatMap] at hsources hcolumns
  obtain ⟨hsource, ⟨⟨hscopes, hjoins⟩, hconditions⟩, hjoinConditions⟩ := hsources
  obtain ⟨⟨⟨⟨hpicked, hcompared⟩, hscope⟩, hrules⟩, hsorted⟩ := hcolumns
  have hfrom : Unmarked s!" FROM {s.source.text}" := unmarked_append.mpr ⟨by decide, hsource⟩
  have hhead : ∀ p ∈ Piece.separated ", " (s.columns.map fun c ↦ [.column c false]), p.Clear := by
    refine Piece.clear_separated (by decide) (List.forall_mem_map.mpr fun c hc ↦ ?_)
    exact List.forall_mem_singleton.mpr (clear_column (hpicked c hc) false)
  have hjoined : ∀ j ∈ s.joins, ∀ p ∈ j.pieces, p.Clear := by
    intro j hj
    obtain ⟨hleft, hright, hcolumns⟩ := hrules j hj
    exact j.pieces_clear (hjoins j hj) hleft hright (hjoinConditions j hj) hcolumns
  have hwhere : ∀ p ∈ s.wherePieces, p.Clear := by
    unfold Select.wherePieces
    split
    · exact List.forall_mem_nil _
    · refine List.forall_mem_cons.mpr ⟨clear_text (by decide), Piece.clear_separated (by decide) ?_⟩
      exact List.forall_mem_map.mpr fun c hc ↦ c.pieces_clear (hconditions c hc)
        (hcompared c hc) false
  have horder : ∀ p ∈ Piece.separated ", " (s.order.map OrderTerm.pieces), p.Clear :=
    Piece.clear_separated (by decide)
      (List.forall_mem_map.mpr fun t ht ↦ t.pieces_clear (hsorted t ht))
  have hpage : ∀ p ∈ s.pagePieces, p.Clear := by
    unfold Select.pagePieces
    split
    · simp only [List.forall_mem_cons]
      exact ⟨clear_text (by decide), clear_mark _, clear_text (by decide), clear_mark _,
        List.forall_mem_nil _⟩
    · exact List.forall_mem_nil _
  unfold Select.pieces
  simp only [List.cons_append, List.forall_mem_cons, List.forall_mem_append,
    List.forall_mem_flatMap]
  exact ⟨clear_text (by decide),
    ⟨⟨⟨⟨hhead, clear_text hfrom, optionalJoin_clear hscopes hscope⟩, hjoined⟩, hwhere⟩,
    clear_text (by decide), horder⟩, hpage⟩

namespace Schema

variable {s : Schema}

/-- No name that a schema declares has a mark in it. -/
theorem Reachable.unmarked (h : s.Reachable) {spec : TableSpec} (hspec : spec ∈ s.tables) :
    Unmarked spec.name ∧ ∀ c ∈ spec.columns, Unmarked c.name := by
  obtain ⟨e, he, hspec⟩ := List.mem_flatMap.mp hspec
  have hentity := unmarked_of_isName (h.named e he)
  have hproperty : ∀ p ∈ e.properties, Unmarked p.name := by
    intro p hp
    rcases (h.wellFormed.entity e he).named p hp with hname | hname | hname
    · exact unmarked_of_isName hname
    · rw [hname]
      decide
    · rw [hname]
      decide
  rcases List.mem_cons.mp hspec with rfl | hspec
  · refine ⟨hentity, List.forall_mem_append.mpr ⟨fun c hc ↦ ?_, fun c hc ↦ ?_⟩⟩
    · obtain ⟨p, hp, hown⟩ := List.mem_filterMap.mp hc
      unfold Mapping.ownColumn at hown
      split at hown
      · split at hown <;> cases hown
        exact hproperty p hp
      · cases hown
    · obtain ⟨p, hp, hparent⟩ := List.mem_filterMap.mp hc
      unfold Mapping.parentColumn at hparent
      split at hparent
      · split at hparent <;> cases hparent
        exact (by decide : Unmarked parentName)
      · cases hparent
  · obtain ⟨p, hp, hlink⟩ := List.mem_filterMap.mp hspec
    unfold Mapping.linkTable at hlink
    split at hlink
    · split at hlink <;> cases hlink
      refine ⟨unmarked_append.mpr ⟨unmarked_append.mpr ⟨hentity, by decide⟩, hproperty p hp⟩, ?_⟩
      exact List.forall_mem_cons.mpr ⟨(by decide : Unmarked ownerColumn),
        List.forall_mem_singleton.mpr (by decide : Unmarked targetColumn)⟩
    · cases hlink

theorem Reachable.unmarked_table (h : s.Reachable) {table : String} (htable : s.HasTable table) :
    Unmarked table := by
  obtain ⟨spec, hspec, rfl⟩ := htable
  exact (h.unmarked hspec).1

theorem Reachable.unmarked_column (h : s.Reachable) {table column : String}
    (hdeclares : s.Declares table column) :
    Unmarked column := by
  obtain ⟨spec, hspec, -, ⟨-, rfl⟩ | ⟨c, hc, rfl⟩⟩ := hdeclares
  · decide
  · exact (h.unmarked hspec).2 c hc

end Schema

/-! ### Placeholders and parameters -/

/-- A text has a mark for each of some values, and the mark with some number stands right behind
what leads to the value with that number. -/
structure Marks (text : String) (parameters : List Cell) (asked : List Asked) : Prop where
  count : text.toList.count '?' = parameters.length
  values : parameters = asked.map Asked.value
  leads : ∀ i a, asked[i]? = some a → ∃ before after, text = before ++ a.lead ++ "?" ++ after ∧
    (before ++ a.lead).toList.count '?' = i

theorem Piece.Stands.marks {ps : List Piece} {asked : List Asked} (h : Stands ps asked)
    (hclear : ∀ p ∈ ps, p.Clear) : Marks (textOf ps) (valuesOf ps) asked where
  count := count_marks hclear
  values := by
    have hvalues : ((Piece.marks "" ps).map Asked.value) = asked.map Asked.value := by
      refine List.forall₂_eq_eq_eq ▸ List.forall₂_map_left_iff.mpr
        (List.forall₂_map_right_iff.mpr (h.imp ?_))
      rintro _ b ⟨opening, rfl⟩
      rfl
    rw [← hvalues, map_value_marks]
  leads i a ha := by
    obtain ⟨hlength, hall⟩ := List.forall₂_iff_get.mp h
    obtain ⟨hi, rfl⟩ := List.getElem?_eq_some_iff.mp ha
    have hmark : i < (Piece.marks "" ps).length := hlength ▸ hi
    obtain ⟨opening, hopening⟩ := hall i hmark hi
    obtain ⟨before, after, hps, hlead, hbefore⟩ := getElem?_marks (List.getElem?_eq_getElem hmark)
    have hstart : textOf before = opening ++ (asked[i]).lead := by
      rw [← String.empty_append (s := textOf before), ← hlead]
      exact congrArg Asked.lead hopening
    refine ⟨opening, textOf after, ?_, ?_⟩
    · rw [← hstart, hps, textOf_append, textOf_cons, String.append_assoc]
      rfl
    · rw [hps] at hclear
      rw [← hstart, count_marks fun p hp ↦ hclear p (List.mem_append_left _ hp), hbefore]

namespace Mapping

variable {s : Schema} {text : String} {q : Query.Compiled} {slots : Slots} {args : Args}
  {bindings : Query.Bindings} {t : Tree} {scope : Option Scope}

/-- The text of a level's statement has a mark for each of the values written beside it, and every
mark stands right behind what its value is meant for: the filters in the joins of the single
relations, the owners of the scope, the level's own filter and its page. Each name is given to one
table, before a column of that is named. -/
theorem level_placeholders (hs : s.Reachable) (hq : s.query text = .ok q)
    (hb : Query.bind q.parameters slots args = .ok bindings) (ht : t ∈ q.tree.nodes)
    (hscope : ScopedIn q.tree t scope) (n : Nat) :
    ∃ select page m sheet asked, (levelSelect bindings t scope).run n = .ok ((select, page), m) ∧
      (writeLevel bindings t scope).run (.blank n) = .ok (select.text, sheet) ∧
      sheet.parameters = select.parameters ∧ LevelAsks bindings t scope select asked ∧
      Marks select.text sheet.parameters asked ∧ select.InSight := by
  obtain ⟨htyped, form, hcompile⟩ := query_typed hs.wellFormed hq
  have hbound := Query.compileQuery_bound hs.wellFormed hcompile hb
  have hbelow : ∀ u ∈ t.nodes, u.Bound bindings :=
    fun u hu ↦ hbound u (Query.Tree.mem_nodes_trans ht hu)
  obtain ⟨⟨select, page⟩, m, hrun⟩ := levelSelect_succeeds hbelow scope n
  obtain ⟨sheet, hwritten, -, hparameters⟩ := writeLevel_writes hrun
  obtain ⟨asked, hasks, hstands⟩ := levelSelect_stands hrun
  obtain ⟨hgiven, hsight⟩ := levelSelect_sight hrun
  have hnamed := levelSelect_named hs.wellFormed htyped.levels ht hscope hrun
  have hlabel : ∀ x ∈ select.sources, Unmarked x.label :=
    fun x hx ↦ hgiven.unmarked _ (List.mem_map_of_mem hx)
  have hclear : ∀ p ∈ select.pieces, p.Clear := by
    refine Select.pieces_clear (fun x hx ↦ ?_) fun x hx ↦ ?_
    · exact Source.unmarked_text (hs.unmarked_table (hnamed.tables x hx)) (hlabel x hx)
    · obtain ⟨c, joined⟩ := x
      have hc := hnamed.columns _ hx
      cases c with
      | column label name =>
        obtain ⟨y, hy, rfl, hdeclares⟩ := hc
        refine ColumnRef.unmarked_text (hlabel y hy) ?_
        rintro _ _ ⟨⟩
        exact hs.unmarked_column hdeclares
      | rowNumber label =>
        obtain ⟨y, hy, rfl⟩ := hc
        exact ColumnRef.unmarked_text (hlabel y hy) (by rintro _ _ ⟨⟩)
  refine ⟨select, page, m, sheet, asked, hrun, hwritten, hparameters, hasks, ?_, hsight⟩
  rw [hparameters]
  exact hstands.marks hclear

theorem level_placeholders_of_friends :
    ∃ q bindings, (Schema.empty.after friendsCalls).query
        ("Person | friend.name == ?friend and notes.text in [\"tea\"] | limit ?most " ++
          "\x7b name, friend | name != \"Ann\" | \x7b name \x7d \x7d") = .ok q ∧
      Query.bind q.parameters .empty [("friend", .value (.text "Bob")),
        ("most", .value (.int 5))] = .ok bindings ∧
      ∃ select page m sheet asked, (levelSelect bindings q.tree none).run 0 =
        .ok ((select, page), m) ∧ (writeLevel bindings q.tree none).run (.blank 0) =
          .ok (select.text, sheet) ∧
        sheet.parameters = select.parameters ∧ LevelAsks bindings q.tree none select asked ∧
        Marks select.text sheet.parameters asked ∧ select.InSight := by
  have hok : (match (Schema.empty.after friendsCalls).query
      ("Person | friend.name == ?friend and notes.text in [\"tea\"] | limit ?most " ++
        "\x7b name, friend | name != \"Ann\" | \x7b name \x7d \x7d") with
    | .ok q =>
      (Query.bind q.parameters .empty [("friend", .value (.text "Bob")),
        ("most", .value (.int 5))]).isOk
    | .error _ => false) = true := by decide +kernel
  split at hok
  · next q hq =>
    obtain ⟨bindings, hb⟩ := Except.isOk_iff.mp hok
    have hs : (Schema.empty.after friendsCalls).Reachable := ⟨friendsCalls, rfl⟩
    have hscope : ScopedIn q.tree q.tree none := trivial
    exact ⟨q, bindings, hq, hb, level_placeholders hs hq hb q.tree.mem_nodes_self hscope 0⟩
  · cases hok

end Mapping

end EntityStore
