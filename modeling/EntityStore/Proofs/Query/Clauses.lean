import EntityStore.Database.Basic
import EntityStore.Proofs.Language.Queries
import EntityStore.Proofs.Mapping.Condition
import EntityStore.Proofs.Query.Unpaged

/-!
The limits and pages that a query is refused for. The levels that compiling reaches are told by the
schema and by what is written (`Schema.reached`), whatever their limits and pages are; each of them
adds the faults of its own two clauses and no others (`Schema.query_pageFaults`). A page without a
limit is looked for after both were found fit, so that a limit below one counts as none and a page
below one is not missed a limit (`Reached.faults_eq_ruled_iff`, `Schema.limit_overlooked`).
-/

set_option autoImplicit false

namespace EntityStore

open EntityStore.Language (Bound Expr Item QueryForm)

/-- The fault of a limit or a page that an error tells of. -/
def CompileError.pageFault? : CompileError → Option PageFault
  | .pagination fault => some fault
  | _ => none

namespace Query

/-! ### The levels that are reached -/

/-- A level that compiling reaches: its entity, whether it has many rows, and its clauses as they
are written. -/
structure Reached where
  entity : String
  many : Bool
  limit : Option (Bound Int64)
  page : Option (Bound Int64)
deriving DecidableEq

/-- The entity that a selected relation leads to, and whether it leads to many rows. -/
def target? (s : Schema) (e : Entity) (name : String) : Option (Entity × Bool) :=
  (e.get? name).bind fun p ↦ p.relation?.bind fun (target, _) ↦ (s.get? target).map (·, !p.isSingle)

mutual

/-- The levels that a selection of an entity reaches, each before those below it. -/
def reachedBy (s : Schema) (e : Entity) : Item Value Int64 → List Reached
  | .relation name _ limit page items =>
    match target? s e name with
    | none => []
    | some (child, many) => ⟨child.name, many, limit, page⟩ :: reachedByAll s child items
  | _ => []

def reachedByAll (s : Schema) (e : Entity) : List (Item Value Int64) → List Reached
  | [] => []
  | i :: is => reachedBy s e i ++ reachedByAll s e is

end

namespace Reached

/-- The clauses that are written, the limit first. -/
def clauses (l : Reached) : List (PageClause × Bound Int64) :=
  (l.limit.map (PageClause.limit, ·)).toList ++ (l.page.map (PageClause.page, ·)).toList

/-- Whether a clause is a number below one. -/
def isSmall : Bound Int64 → Bool
  | .literal n => n < 1
  | .param _ => false

/-- A clause that is a number below one is refused. -/
def tooSmall? : PageClause × Bound Int64 → Option PageFault
  | (clause, .literal n) => if n < 1 then some (.tooSmall clause n) else none
  | (_, .param _) => none

/-- What is refused of a level whose page needs a limit if `needs` says so. -/
def refused (l : Reached) (needs : Bool) : List PageFault :=
  if l.many then l.clauses.filterMap tooSmall? ++ if needs then [.withoutLimit l.entity] else []
  else l.clauses.map fun (clause, _) ↦ .notAllowed clause l.entity

/-- The rule of limits and pages: a level of a single row has none, others count from one, and where
a page is written there has to be a limit. -/
def ruled (l : Reached) : List PageFault :=
  l.refused (l.page.isSome && l.limit.isNone)

/-- What compiling refuses: of a clause below one it says so and goes on as if it was not there. -/
def faults (l : Reached) : List PageFault :=
  l.refused (l.page.any (!isSmall ·) && l.limit.all isSmall)

/-- A level that is refused for more or less than by the rule: it is told to have no limit because
the one it has is below one, or its missing limit is not told because its page is below one. -/
def Slips (l : Reached) : Prop :=
  l.many ∧ (l.limit.any isSmall ∧ l.page.any (!isSmall ·) ∨ l.limit = none ∧ l.page.any isSmall)

end Reached

end Query

/-- The levels that a query reaches, the topmost one first. -/
def Schema.reached (s : Schema) (form : QueryForm Value Int64) : List Query.Reached :=
  match s.get? form.entity with
  | none => []
  | some e =>
    ⟨e.name, true, form.body.limit, form.body.page⟩ :: Query.reachedByAll s e form.body.items

/-- The faults of limits and pages that an error tells of. -/
def Error.pageFaults : Error → List PageFault
  | .semantic es => es.filterMap CompileError.pageFault?
  | _ => []

/-- The faults of limits and pages that a failure tells of. -/
def pageFaults {α : Type} : Except Error α → List PageFault
  | .ok _ => []
  | .error e => e.pageFaults

namespace Query

namespace Reached

variable {l : Reached}

theorem faults_eq_ruled_iff : l.faults = l.ruled ↔ ¬l.Slips := by
  obtain ⟨entity, many, limit, page⟩ := l
  unfold faults ruled refused Slips
  cases many with
  | false => simp
  | true =>
    rcases limit with _ | b <;> rcases page with _ | c <;> simp
    cases isSmall b <;> cases isSmall c <;> simp

end Reached

/-! ### What is noted of limits and pages -/

namespace Noted

variable {α β : Type}

/-- The faults of limits and pages that are noted. -/
def pageFaults (x : Noted α) : List PageFault :=
  x.notes.filterMap fun
    | .error e => e.pageFault?
    | _ => none

@[simp] theorem pageFaults_pure (a : α) : (pure a : Noted α).pageFaults = [] := rfl

@[simp] theorem pageFaults_bind (x : Noted α) (f : α → Noted β) :
    (x >>= f).pageFaults = x.pageFaults ++ (f x.result).pageFaults :=
  List.filterMap_append

@[simp] theorem pageFaults_access (k : PropertyKey) : (note (.access k)).pageFaults = [] := rfl

@[simp] theorem pageFaults_parameter (p : Parameter) : (note (.parameter p)).pageFaults = [] := rfl

@[simp] theorem pageFaults_error (e : CompileError) :
    (note (.error e)).pageFaults = e.pageFault?.toList := by
  cases h : e.pageFault? <;> simp [pageFaults, h]

@[simp] theorem pageFaults_fail (e : CompileError) :
    (fail e : Noted (Option α)).pageFaults = e.pageFault?.toList :=
  pageFaults_error e

theorem Silent.pageFaults {x : Noted α} (h : x.Silent) : x.pageFaults = [] := by
  refine List.filterMap_eq_nil_iff.mpr fun n hn ↦ ?_
  cases n with
  | error e =>
    cases e with
    | pagination fault => exact (h _ hn).elim
    | _ => rfl
  | _ => rfl

theorem pageFaults_ofExcept {x : Except CompileError α}
    (h : ∀ e, x = .error e → e.pageFault? = none) :
    (ofExcept x).pageFaults = [] := by
  cases x with
  | ok => rfl
  | error e => simp [ofExcept, h e rfl]

end Noted

section

variable {s : Schema} {e : Entity}

theorem literal_error {target : PropertyKey} {type : FieldType} {v : Value} {err : CompileError}
    (h : literal target type v = .error err) : err.pageFault? = none := by
  unfold literal at h
  cases hfit : type.fit v with
  | ok w => simp [hfit, Except.mapError] at h
  | error fault =>
    rw [hfit] at h
    cases h
    rfl

theorem listElement_error {target : PropertyKey} {type : FieldType} {n : Language.Node Value}
    {err : CompileError} (h : listElement target type n = .error err) : err.pageFault? = none := by
  unfold listElement at h
  split at h
  · split at h
    · cases h
      rfl
    · exact literal_error h
  · cases h
    rfl

theorem operand_error {target : PropertyKey} {type : FieldType} {c : Language.Comparator}
    {n : Language.Node Value} {err : CompileError} (h : operand target type c n = .error err) :
    err.pageFault? = none := by
  unfold operand at h
  split at h
  · cases h
  · obtain ⟨x, -, hx⟩ := Except.mapM_error_mem (Except.map_eq_error.mp h)
    exact listElement_error hx
  · cases h
    rfl
  · split at h <;> cases h
    rfl
  · exact literal_error (Except.map_eq_error.mp h)
  · cases h
    rfl

theorem predicate_pageFaults (path : List String) (c : Language.Comparator)
    (n : Language.Node Value) :
    (predicate s e path c n).pageFaults = [] := by
  unfold predicate
  rw [Noted.pageFaults_bind, (place_silent path path).pageFaults, List.nil_append]
  split
  · rw [Noted.pageFaults_bind, Noted.pageFaults_ofExcept fun err ↦ operand_error, List.nil_append]
    split
    · split <;> rfl
    · rfl
  · rfl

theorem filter_pageFaults (x : Expr Value) : (filter s e x).pageFaults = [] := by
  induction x with
  | and l r ihl ihr | or l r ihl ihr => simp [filter, ihl, ihr]
  | predicate path c n => simp [filter, predicate_pageFaults]

/-- A relation is selected if it leads to an entity of the schema. -/
theorem related_target (name : String) :
    (related s e name).result.map (fun (r, child) ↦ (child, r.many)) = target? s e name := by
  unfold related target?
  cases e.get? name with
  | none => rfl
  | some p =>
    cases hkind : p.kind with
    | field f => simp [Property.relation?, hkind]
    | reference r =>
      cases hget : s.get? r.target <;> simp [Property.relation?, Property.isSingle, hkind, hget]
    | collection c =>
      cases hget : s.get? c.target <;> simp [Property.relation?, Property.isSingle, hkind, hget]

/-! ### The start of a level -/

/-- A clause is refused where there is none of its kind, or if it is below one; else it is kept as
it is written. -/
theorem bound_pageFaults (paged : Bool) (clause : PageClause) (b : Bound Int64) :
    (bound e paged clause b).pageFaults =
        (if paged then (Reached.tooSmall? (clause, b)).toList else [.notAllowed clause e.name]) ∧
      (bound e paged clause b).result = if paged && !Reached.isSmall b then some b else none := by
  unfold bound Reached.tooSmall? Reached.isSmall
  cases paged with
  | false => simp [CompileError.pageFault?]
  | true =>
    cases b with
    | param name => simp
    | literal n => by_cases hn : n < 1 <;> simp [hn, CompileError.pageFault?]

theorem optionally_bound_pageFaults (paged : Bool) (clause : PageClause)
    (b : Option (Bound Int64)) :
    (optionally (bound e paged clause) b).pageFaults =
        (if paged then (b.bind fun b ↦ Reached.tooSmall? (clause, b)).toList
          else (b.map fun _ ↦ .notAllowed clause e.name).toList) ∧
      (optionally (bound e paged clause) b).result = if paged then
        b.filter (!Reached.isSmall ·) else none := by
  cases b with
  | none => cases paged <;> exact ⟨rfl, rfl⟩
  | some b =>
    obtain ⟨hfaults, hresult⟩ := bound_pageFaults (e := e) paged clause b
    rw [optionally, hfaults, hresult]
    cases paged <;> simp [Option.filter_some]

/-- A level is refused for its own clauses only. -/
theorem levelStart_pageFaults (paged : Bool) (x : Option (Expr Value))
    (limit page : Option (Bound Int64)) :
    (levelStart s e paged x limit page).pageFaults =
      (Reached.mk e.name paged limit page).faults := by
  obtain ⟨hlimit, limit_result⟩ := optionally_bound_pageFaults (e := e) paged .limit limit
  obtain ⟨hpage, page_result⟩ := optionally_bound_pageFaults (e := e) paged .page page
  have hfilter : (optionally (filter s e) x).pageFaults = [] := by
    cases x with
    | none => rfl
    | some y => exact filter_pageFaults y
  unfold levelStart
  simp only [Noted.pageFaults_bind, Noted.pageFaults_access, hfilter, hlimit, hpage,
    limit_result, page_result, List.nil_append]
  unfold Reached.faults Reached.refused Reached.clauses
  cases paged with
  | false => cases limit <;> cases page <;> simp
  | true =>
    -- a clause that is refused is left out of the checks after it
    have hkept (b : Option (Bound Int64)) :
        (b.filter (!Reached.isSmall ·)).isSome = b.any (!Reached.isSmall ·) := by
      rcases b with _ | b
      · rfl
      · cases h : Reached.isSmall b <;> simp [h]
    have hlost (b : Option (Bound Int64)) :
        (b.filter (!Reached.isSmall ·)).isNone = b.all Reached.isSmall := by
      rcases b with _ | b
      · rfl
      · cases h : Reached.isSmall b <;> simp [h]
    have hsmall (clause : PageClause) (b : Option (Bound Int64)) :
        (b.map (clause, ·)).toList.filterMap Reached.tooSmall? =
          (b.bind fun b ↦ Reached.tooSmall? (clause, b)).toList := by
      rcases b with _ | b
      · rfl
      · cases h : Reached.tooSmall? (clause, b) <;> simp [h]
    simp only [↓reduceIte, hkept, hlost, List.filterMap_append, hsmall, List.append_assoc]
    split <;> simp [CompileError.pageFault?]

/-! ### Levels below levels -/

mutual

/-- What is selected is refused for the levels it reaches, one after the other. -/
theorem selectItem_pageFaults (s : Schema) (e : Entity) (sel : Selection) (i : Item Value Int64) :
    (selectItem s e sel i).pageFaults = (reachedBy s e i).flatMap Reached.faults := by
  cases i with
  | all => exact (selectAll_silent e sel).pageFaults
  | field name sort => exact (selectField_silent sel name sort).pageFaults
  | relation name x limit page items =>
    unfold selectItem reachedBy
    rw [Noted.pageFaults_bind, (related_silent name).pageFaults, List.nil_append, ← related_target]
    cases (related s e name).result with
    | none => rfl
    | some found =>
      obtain ⟨r, child⟩ := found
      simp only [Option.map_some, Noted.pageFaults_bind, levelStart_pageFaults,
        selectItems_pageFaults s child .start items, Noted.pageFaults_pure,
        List.append_nil, List.flatMap_cons]

theorem selectItems_pageFaults (s : Schema) (e : Entity) (sel : Selection)
    (is : List (Item Value Int64)) :
    (selectItems s e sel is).pageFaults = (reachedByAll s e is).flatMap Reached.faults := by
  cases is with
  | nil => rfl
  | cons i is =>
    unfold selectItems reachedByAll
    rw [Noted.pageFaults_bind, selectItem_pageFaults s e sel i, selectItems_pageFaults s e _ is,
      List.flatMap_append]

end

theorem top_pageFaults (body : Language.Level Value Int64) :
    (top s e body).pageFaults =
      (Reached.mk e.name true body.limit body.page).faults ++
        (reachedByAll s e body.items).flatMap Reached.faults := by
  unfold top
  rw [Noted.pageFaults_bind, levelStart_pageFaults, Noted.pageFaults_bind, selectItems_pageFaults,
    Noted.pageFaults_pure, List.append_nil]

end

/-! ### Limits and pages decide nothing about the levels -/

/-- The level without its clauses. -/
def Reached.bare (l : Reached) : Reached := { l with limit := none, page := none }

mutual

theorem reachedBy_unpaged (s : Schema) (e : Entity) (i : Item Value Int64) :
    reachedBy s e i.unpaged = (reachedBy s e i).map Reached.bare := by
  cases i with
  | all => rfl
  | field name sort => rfl
  | relation name x limit page items =>
    unfold Language.Item.unpaged reachedBy
    cases target? s e name with
    | none => rfl
    | some found =>
      obtain ⟨child, many⟩ := found
      simp only [reachedByAll_unpaged s child items, List.map_cons]
      rfl

theorem reachedByAll_unpaged (s : Schema) (e : Entity) (is : List (Item Value Int64)) :
    reachedByAll s e (Language.unpagedItems is) = (reachedByAll s e is).map Reached.bare := by
  cases is with
  | nil => rfl
  | cons i is =>
    unfold Language.unpagedItems reachedByAll
    rw [reachedBy_unpaged s e i, reachedByAll_unpaged s e is, List.map_append]

end

theorem reached_unpaged (s : Schema) (form : QueryForm Value Int64) :
    s.reached form.unpaged = (s.reached form).map Reached.bare := by
  unfold Schema.reached
  change (match s.get? form.entity with
    | Option.none => []
    | some e =>
      Reached.mk e.name true Option.none Option.none :: reachedByAll s e
        (Language.unpagedItems form.body.items)) = _
  cases s.get? form.entity with
  | none => rfl
  | some e => simp [reachedByAll_unpaged, Reached.bare]

/-- Queries that differ in their limits and pages only reach the same levels. -/
theorem reached_alike (s : Schema) {form form' : QueryForm Value Int64}
    (h : form'.unpaged = form.unpaged) :
    List.Forall₂ (fun l l' ↦ l'.bare = l.bare) (s.reached form) (s.reached form') := by
  have hbare : (s.reached form).map Reached.bare = (s.reached form').map Reached.bare := by
    rw [← reached_unpaged, ← reached_unpaged, h]
  rw [← List.forall₂_eq_eq_eq, List.forall₂_map_left_iff, List.forall₂_map_right_iff] at hbare
  exact hbare.imp fun l l' heq ↦ heq.symm

/-! ### The levels of the tree -/

/-- The entities of the levels that are selected so far. -/
def Selection.entities (sel : Selection) : List String :=
  (Tree.relationNodes sel.relations).map fun t ↦ t.level.entity

section

variable {s : Schema} {e : Entity}

theorem relationNodes_append (xs ys : List (Relation × Tree)) :
    Tree.relationNodes (xs ++ ys) = Tree.relationNodes xs ++ Tree.relationNodes ys := by
  induction xs with
  | nil => rfl
  | cons x xs ih =>
    rw [List.cons_append, Tree.relationNodes, Tree.relationNodes, ih, List.append_assoc]

theorem selectField_entities (sel : Selection) (name : String) (sort : Option (Direction × Int64)) :
    (selectField e sel name sort).result.entities = sel.entities := by
  unfold selectField
  split
  · rfl
  · split
    · rfl
    · simp only [Noted.bind_result, Noted.pure_result, Selection.addField]
      split <;> rfl

theorem tree_entities (sel : Selection) (level : Level) :
    (sel.tree level).nodes.map (fun t ↦ t.level.entity) = level.entity :: sel.entities :=
  rfl

mutual

/-- The levels of the tree that is compiled are those that are reached. -/
theorem selectItem_entities (s : Schema) (e : Entity) (sel : Selection) (i : Item Value Int64) :
    (selectItem s e sel i).result.entities = sel.entities ++
      (reachedBy s e i).map Reached.entity := by
  cases i with
  | all => exact (List.append_nil _).symm
  | field name sort => exact (selectField_entities sel name sort).trans (List.append_nil _).symm
  | relation name x limit page items =>
    unfold selectItem reachedBy
    rw [Noted.bind_result, ← related_target]
    cases (related s e name).result with
    | none => exact (List.append_nil _).symm
    | some found =>
      obtain ⟨r, child⟩ := found
      have hbelow := selectItems_entities s child .start items
      simp only [Option.map_some, Noted.bind_result, Noted.pure_result, List.map_cons]
      unfold Selection.addRelation
      rw [Selection.entities, relationNodes_append, List.map_append]
      refine congrArg (sel.entities ++ ·) ?_
      rw [Tree.relationNodes, Tree.relationNodes, List.append_nil, tree_entities,
        hbelow, levelStart_result]
      rfl

theorem selectItems_entities (s : Schema) (e : Entity) (sel : Selection)
    (is : List (Item Value Int64)) :
    (selectItems s e sel is).result.entities = sel.entities ++
      (reachedByAll s e is).map Reached.entity := by
  cases is with
  | nil => exact (List.append_nil _).symm
  | cons i is =>
    unfold selectItems reachedByAll
    rw [Noted.bind_result, selectItems_entities s e _ is,
      selectItem_entities s e sel i, List.map_append, List.append_assoc]

end

/-- Compiling makes a level of the tree of every level that is reached, in their order. -/
theorem top_entities (body : Language.Level Value Int64) :
    (top s e body).result.nodes.map (fun t ↦ t.level.entity) =
      e.name :: (reachedByAll s e body.items).map Reached.entity := by
  unfold top
  rw [Noted.bind_result, Noted.bind_result, Noted.pure_result, tree_entities,
    selectItems_entities, levelStart_result]
  rfl

end

/-! ### Queries -/

/-- Parameters of one name are no fault of a limit or page. -/
theorem Findings.pageFaults_eq (x : Noted Tree) :
    (Findings.ofNotes x.notes).errors.filterMap CompileError.pageFault? = x.pageFaults := by
  suffices h : ∀ (notes : List Note) (f : Findings), (notes.foldl add f).errors.filterMap
      CompileError.pageFault? = f.errors.filterMap CompileError.pageFault? ++
        (Noted.mk notes ()).pageFaults from h x.notes none
  intro notes
  induction notes with
  | nil => simp [Noted.pageFaults]
  | cons n notes ih =>
    intro f
    rw [List.foldl_cons, ih]
    cases n with
    | error e => cases h : e.pageFault? <;> simp [add, Noted.pageFaults, h]
    | access k => rfl
    | parameter p =>
      unfold add
      dsimp only
      split <;> simp [Noted.pageFaults, CompileError.pageFault?]

/-- Compiling fails for the levels it reaches, one after the other. -/
theorem compileQuery_pageFaults (s : Schema) (form : QueryForm Value Int64) :
    pageFaults ((s.compileQuery form).mapError .semantic) =
      (s.reached form).flatMap Reached.faults := by
  unfold Schema.compileQuery Schema.reached
  cases s.get? form.entity with
  | none => rfl
  | some e =>
    have hfaults := Findings.pageFaults_eq (top s e form.body)
    rw [top_pageFaults] at hfaults
    dsimp only
    split
    · next hnone =>
      rw [List.isEmpty_iff.mp hnone] at hfaults
      exact hfaults
    · exact hfaults

end Query

namespace Schema

open EntityStore.Language (readQuery)
open Query (Reached)

variable {s : Schema} {text : String} {form : QueryForm Value Int64}

/-- A query fails with the faults of the limits and pages of the levels that it reaches, which are
the levels of the tree that is compiled, one level after the other. The faults of a level are those
of its own clauses that the rule names, unless a clause below one hides a limit or a page. Queries
that differ in limits and pages only reach the same levels, and a level with the same clauses has
the same faults in both. -/
theorem query_pageFaults (s : Schema) (htext : readQuery text = .ok form) :
    pageFaults (s.query text) = (s.reached form).flatMap Reached.faults ∧
    (∀ l ∈ s.reached form, l.faults = l.ruled ↔ ¬l.Slips) ∧
    (∀ e, s.get? form.entity = some e →
      (Query.top s e form.body).result.nodes.map (fun t ↦ t.level.entity) =
        (s.reached form).map Reached.entity) ∧
    ∀ form' : QueryForm Value Int64, form'.unpaged = form.unpaged →
      List.Forall₂ (fun l l' ↦ l'.entity = l.entity ∧ l'.many = l.many ∧
        (l'.limit = l.limit → l'.page = l.page → l'.faults = l.faults)) (s.reached form)
          (s.reached form') := by
  refine ⟨?_, fun l _ ↦ Reached.faults_eq_ruled_iff, fun e he ↦ ?_, fun form' hsame ↦ ?_⟩
  · rw [← Query.compileQuery_pageFaults, query, htext]
    rfl
  · rw [Query.top_entities, reached, he]
    rfl
  · refine (Query.reached_alike s hsame).imp fun l l' hbare ↦ ?_
    obtain ⟨entity, many, limit, page⟩ := l
    obtain ⟨entity', many', limit', page'⟩ := l'
    cases hbare
    refine ⟨rfl, rfl, ?_⟩
    rintro rfl rfl
    rfl

/-- A limit on a single row, a page without a limit and one below one, on three levels. -/
def pagedFriends : QueryForm Value Int64 :=
  ⟨"Person", none, some (.param "n"), some (.literal 0),
    [.relation "friend" none (some (.literal 1)) none [.relation "notes" none none
      (some (.literal 3)) [.all]]]⟩

theorem query_pageFaults_of_friends :
    readQuery "Person limit ?n page 0 { friend limit 1 { notes page 3 { * } } }" =
      .ok pagedFriends ∧
    pageFaults ((Schema.empty.after Mapping.friendsCalls).query
        "Person limit ?n page 0 { friend limit 1 { notes page 3 { * } } }") =
      [.tooSmall .page 0, .notAllowed .limit "Person", .withoutLimit "Note"] := by
  have htext : readQuery "Person limit ?n page 0 { friend limit 1 { notes page 3 { * } } }" =
      .ok pagedFriends := by
    refine Language.QueryForm.read rfl ⟨[], _, .nil, ?_, rfl⟩
    exact .blank (.plain rfl) <| .blank (.plain rfl) <| .blank (.plain rfl) <|
      .blank (.plain rfl) <| .blank (.literal (.long 0)) <| .blank (.plain rfl) <|
        .blank (.plain rfl) <| .blank (.plain rfl) <|
      .blank (.literal (.long 1)) <| .blank (.plain rfl) <| .blank (.plain rfl) <|
        .blank (.plain rfl) <|
      .blank (.literal (.long 3)) <| .blank (.plain rfl) <| .blank (.plain rfl) <|
        .blank (.plain rfl) <|
      .blank (.plain rfl) <| .last (.plain rfl)
  exact ⟨htext, (query_pageFaults (Schema.empty.after Mapping.friendsCalls) htext).1.trans
    (by decide +kernel)⟩

/-- A level with a limit below one is told to have none. -/
theorem limit_overlooked :
    readQuery "Person limit 0 page 2 { name }" =
      .ok ⟨"Person", none, some (.literal 0), some (.literal 2), [.field "name" none]⟩ ∧
    pageFaults ((Schema.empty.after Mapping.friendsCalls).query "Person limit 0 page 2 { name }") =
      [.tooSmall .limit 0, .withoutLimit "Person"] ∧
    ((Schema.empty.after Mapping.friendsCalls).reached
        ⟨"Person", none, some (.literal 0), some (.literal 2), [.field "name" none]⟩).flatMap
          Reached.ruled =
      [.tooSmall .limit 0] := by
  refine ⟨?_, by decide +kernel, by decide +kernel⟩
  refine Language.QueryForm.read rfl ⟨[], _, .nil, ?_, rfl⟩
  exact .blank (.plain rfl) <| .blank (.plain rfl) <| .blank (.literal (.long 0)) <|
    .blank (.plain rfl) <| .blank (.literal (.long 2)) <| .blank (.plain rfl) <|
      .blank (.plain rfl) <| .last (.plain rfl)

end Schema

end EntityStore
