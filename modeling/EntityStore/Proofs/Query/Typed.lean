import EntityStore.Proofs.Language.Yields
import EntityStore.Proofs.Query.Bound
import EntityStore.Proofs.Value.Typing
import Mathlib.Data.List.Forall2

/-!
Compiled queries are well typed. Compiling goes on after an error and drops the part that is wrong,
so what a tree is told rests on there being no error among the notes; then nothing was dropped
either, and the parameters that were noted are those in the tree, in their order.
-/

set_option autoImplicit false

namespace EntityStore

open EntityStore.Language (Bound Comparator Expr Item Node)

namespace Query

/-! ### Well typed queries -/

/-- A literal operand has exactly the field's type. Null is only asked for by the two equalities,
and a list only by `in`. -/
def Operand.Typed (type : FieldType) (c : Comparator) : Operand → Prop
  | .value .null => c = .compare .eq ∨ c = .compare .ne
  | .value v => c ≠ .isIn ∧ v.type? = some type
  | .list vs => c = .isIn ∧ ∀ v ∈ vs, v.type? = some type
  | .param _ => True

structure Predicate.Typed (s : Schema) (e : Entity) (p : Predicate) : Prop where
  path : ∃ last ∈ s.entities, Path s e p.steps last ∧ HasField last p.field p.type
  comparable : ¬p.type.isContainer
  operand : p.operand.Typed p.type p.comparator

/-- The operand has the type of the field if that can be compared at all. -/
def Predicate.Fitted (p : Predicate) : Prop :=
  ¬p.type.isContainer → p.operand.Typed p.type p.comparator

/-- The parameter that stands in a predicate, with the type of the field it is compared with. -/
def Predicate.parameters (p : Predicate) : List Parameter :=
  match p.operand with
  | .param name => [⟨name, p.type, if p.comparator = .isIn then .list else .operand⟩]
  | _ => []

def Filter.predicates : Filter → List Predicate
  | .and l r | .or l r => l.predicates ++ r.predicates
  | .predicate p => [p]

/-- The parameter that stands for a limit or a page. -/
def boundParameters : Bound Int64 → List Parameter
  | .literal _ => []
  | .param name => [⟨name, .long, .bound⟩]

/-- The parameters in the filter, the limit and the page of a level. -/
def Level.parameters (l : Level) : List Parameter :=
  l.filter.toList.flatMap (fun f ↦ f.predicates.flatMap Predicate.parameters) ++
    l.limit.toList.flatMap boundParameters ++ l.page.toList.flatMap boundParameters

mutual

/-- The parameters of a level and of all levels below it. -/
def Tree.parameters : Tree → List Parameter
  | .node level relations => level.parameters ++ relationParameters relations

def relationParameters : List (Relation × Tree) → List Parameter
  | [] => []
  | (_, t) :: rest => t.parameters ++ relationParameters rest

end

/-- A limit or page that is given in the query counts from one, and there is no page without a
limit. -/
structure Level.Paged (l : Level) : Prop where
  limit : ∀ n, l.limit = some (.literal n) → 1 ≤ n
  page : ∀ n, l.page = some (.literal n) → 1 ≤ n
  limited : l.page.isSome → l.limit.isSome

/-- The topmost level of a tree is well typed at its entity. -/
structure Tree.Typed (s : Schema) (e : Entity) (t : Tree) : Prop where
  entity : t.level.entity = e.name
  filter : ∀ f, t.level.filter = some f → ∀ p ∈ f.predicates, p.Typed s e
  paged : t.level.Paged
  field : ∀ f ∈ t.level.fields, HasField e f.name f.type
  relation : ∀ r u, (r, u) ∈ t.relations → Leads s e r u.level.entity
  single : ∀ r u, (r, u) ∈ t.relations → ¬r.many → u.level.limit = none ∧ u.level.page = none

/-- Every level is well typed, and every parameter is declared once, for the place it stands at. -/
structure Compiled.Typed (s : Schema) (q : Compiled) : Prop where
  levels : ∀ t ∈ q.tree.nodes, ∃ e ∈ s.entities, t.Typed s e
  declared : q.parameters = q.tree.parameters
  unique : (q.parameters.map Parameter.name).Nodup

/-- What the argument of a parameter is checked for. -/
def Parameter.Accepts (p : Parameter) (v : Value) : Prop :=
  match p.role with
  | .bound => ∃ n, v = .long n ∧ 1 ≤ n
  | .operand => v = .null ∨ v.type? = some p.type
  | .list => ∃ items, v = .list items ∧ ∀ w ∈ items, w.type? = some p.type

theorem relationParameters_append (xs ys : List (Relation × Tree)) :
    relationParameters (xs ++ ys) = relationParameters xs ++ relationParameters ys := by
  induction xs with
  | nil => rfl
  | cons x xs ih =>
    obtain ⟨r, t⟩ := x
    rw [List.cons_append, relationParameters, relationParameters, ih, List.append_assoc]

/-! ### Notes without an error -/

def Note.parameter? : Note → Option Parameter
  | .parameter p => some p
  | _ => none

/-- A note that tells of no parameter, limit or page. -/
def Note.Silent : Note → Prop
  | .parameter _ => False
  | .error (.pagination _) => False
  | _ => True

namespace Noted

variable {α β : Type}

/-- No error was noted. -/
def Clean (x : Noted α) : Prop :=
  ∀ e, .error e ∉ x.notes

/-- The parameters noted, in their order. -/
def parameters (x : Noted α) : List Parameter :=
  x.notes.filterMap Note.parameter?

@[simp] theorem clean_pure (a : α) : (pure a : Noted α).Clean :=
  fun _ ↦ List.not_mem_nil

@[simp] theorem clean_bind {x : Noted α} {f : α → Noted β} :
    (x >>= f).Clean ↔ x.Clean ∧ (f x.result).Clean := by
  simp only [Clean, bind_notes, List.mem_append, not_or, forall_and]

@[simp] theorem not_clean_fail (e : CompileError) : ¬(fail e : Noted (Option α)).Clean :=
  fun h ↦ h e List.mem_cons_self

@[simp] theorem not_clean_error (e : CompileError) : ¬(note (.error e)).Clean :=
  fun h ↦ h e List.mem_cons_self

@[simp] theorem clean_access (k : PropertyKey) : (note (.access k)).Clean := by
  simp [Clean]

@[simp] theorem clean_parameter (p : Parameter) : (note (.parameter p)).Clean := by
  simp [Clean]

@[simp] theorem parameters_pure (a : α) : (pure a : Noted α).parameters = [] := rfl

@[simp] theorem parameters_bind (x : Noted α) (f : α → Noted β) :
    (x >>= f).parameters = x.parameters ++ (f x.result).parameters := by
  simp [parameters]

@[simp] theorem parameters_access (k : PropertyKey) : (note (.access k)).parameters = [] := rfl

@[simp] theorem parameters_error (e : CompileError) : (note (.error e)).parameters = [] := rfl

@[simp] theorem parameters_parameter (p : Parameter) : (note (.parameter p)).parameters = [p] := rfl

theorem ofExcept_clean {x : Except CompileError α} (h : (ofExcept x).Clean) :
    ∃ a, x = .ok a ∧ (ofExcept x).result = some a ∧ (ofExcept x).parameters = [] := by
  cases x with
  | ok a => exact ⟨a, rfl, rfl, rfl⟩
  | error e => exact absurd h (not_clean_fail e)

/-- Neither a parameter nor the fault of a limit or page was noted. -/
def Silent (x : Noted α) : Prop :=
  ∀ n ∈ x.notes, n.Silent

theorem Silent.pure (a : α) : (Pure.pure a : Noted α).Silent :=
  List.forall_mem_nil _

theorem Silent.note {n : Note} (h : n.Silent) : (Noted.note n).Silent :=
  List.forall_mem_singleton.mpr h

theorem Silent.fail {e : CompileError} (h : (Note.error e).Silent) :
    (Noted.fail e : Noted (Option α)).Silent :=
  List.forall_mem_singleton.mpr h

theorem Silent.bind {x : Noted α} {f : α → Noted β} (hx : x.Silent) (hf : (f x.result).Silent) :
    (x >>= f).Silent :=
  List.forall_mem_append.mpr ⟨hx, hf⟩

theorem Silent.parameters {x : Noted α} (h : x.Silent) : x.parameters = [] := by
  refine List.filterMap_eq_nil_iff.mpr fun n hn ↦ ?_
  cases n with
  | parameter p => exact (h _ hn).elim
  | _ => rfl

end Noted

/-! ### Filters -/

section

variable {s : Schema} {e : Entity}

theorem lastPlace_silent (full : List String) (name : String) :
    (lastPlace s full e name).Silent := by
  unfold lastPlace
  split
  · exact .fail trivial
  · split
    · refine .bind (.note trivial) ?_
      split
      · exact .fail trivial
      · exact .pure _
    · exact .fail trivial
    · exact .fail trivial

theorem place_silent (full path : List String) : (place s full e path).Silent := by
  induction path generalizing e with
  | nil => exact .pure none
  | cons name rest ih =>
    cases rest with
    | nil => exact lastPlace_silent full name
    | cons name' rest =>
      unfold place
      split
      · exact .fail trivial
      · split
        · exact .fail trivial
        · refine .bind (.note trivial) ?_
          split
          · exact .fail trivial
          · exact .bind ih (.pure _)

theorem lastPlace_clean {full : List String} {name : String} (h : (lastPlace s full e name).Clean) :
    ∃ p, (lastPlace s full e name).result = some p := by
  unfold lastPlace at h ⊢
  split at h
  · simp at h
  · split at h
    · next f _ =>
      by_cases hcontainer : f.type.isContainer
      · simp [hcontainer] at h
      · simp [hcontainer]
    · simp at h
    · simp at h

/-- Only the empty path leads nowhere without an error. -/
theorem place_clean {full path : List String} (hpath : path ≠ [])
    (h : (place s full e path).Clean) :
    ∃ p, (place s full e path).result = some p := by
  induction path generalizing e with
  | nil => exact absurd rfl hpath
  | cons name rest ih =>
    cases rest with
    | nil => exact lastPlace_clean h
    | cons name' rest =>
      unfold place at h ⊢
      split at h
      · simp at h
      · split at h
        · simp at h
        · simp only [Noted.clean_bind] at h
          split at h
          · simp at h
          · next next hnext =>
            simp only [Noted.clean_bind] at h
            obtain ⟨p, hp⟩ := ih (List.cons_ne_nil _ _) h.2.1
            simp [hp]

theorem literal_ok {target : PropertyKey} {type : FieldType} {v w : Value}
    (hcontainer : ¬type.isContainer) (h : literal target type v = .ok w) : w.type? = some type :=
  FieldType.fit_ok hcontainer (Except.mapError_eq_ok.mp h)

theorem listElement_ok {target : PropertyKey} {type : FieldType} {n : Node Value} {w : Value}
    (hcontainer : ¬type.isContainer) (h : listElement target type n = .ok w) :
    w.type? = some type := by
  unfold listElement at h
  split at h
  · split at h
    · cases h
    · exact literal_ok hcontainer h
  · cases h

theorem Operand.typed_value {type : FieldType} {c : Comparator} {v : Value} (hc : c ≠ .isIn)
    (h : v.type? = some type) : (Operand.value v).Typed type c := by
  cases v with
  | null => cases h
  | _ => exact ⟨hc, h⟩

theorem operand_typed {target : PropertyKey} {type : FieldType} {c : Comparator} {n : Node Value}
    {o : Operand} (hcontainer : ¬type.isContainer) (h : operand target type c n = .ok o) :
    o.Typed type c := by
  unfold operand at h
  split at h
  · cases h
    trivial
  · obtain ⟨vs, hvs, rfl⟩ := Except.map_eq_ok.mp h
    refine ⟨rfl, fun v hv ↦ ?_⟩
    obtain ⟨n, -, hn⟩ := Except.mapM_ok_mem hvs hv
    exact listElement_ok hcontainer hn
  · cases h
  · split at h
    · next c hc =>
      cases h
      exact hc.imp (congrArg _) (congrArg _)
    · cases h
  · obtain ⟨v, hv, rfl⟩ := Except.map_eq_ok.mp h
    exact Operand.typed_value nofun (literal_ok hcontainer hv)
  · cases h

theorem predicate_clean {path : List String} {c : Comparator} {n : Node Value} (hpath : path ≠ [])
    (h : (predicate s e path c n).Clean) : ∃ p, (predicate s e path c n).result = some p ∧
      (predicate s e path c n).parameters = p.parameters := by
  unfold predicate at h ⊢
  rw [Noted.clean_bind] at h
  obtain ⟨p, hp⟩ := place_clean hpath h.1
  rw [hp] at h
  obtain ⟨o, -, ho, hnone⟩ := Noted.ofExcept_clean (Noted.clean_bind.mp h.2).1
  cases o <;>
    simp [hp, ho, (place_silent path path).parameters, hnone, parameter?, Predicate.parameters]

theorem predicate_fitted {path : List String} {c : Comparator} {n : Node Value} {p : Predicate}
    (hp : (predicate s e path c n).result = some p) : p.Fitted := by
  unfold predicate at hp
  simp only [Noted.bind_result] at hp
  split at hp
  · next end_ _ =>
    simp only [Noted.bind_result] at hp
    split at hp
    · next o ho =>
      have hp : p = ⟨end_.steps, end_.name, end_.field.type, c, o⟩ := by
        split at hp <;> exact (Option.some.inj hp).symm
      rw [hp]
      exact fun hcontainer ↦ operand_typed hcontainer (Noted.ofExcept_result_eq_some.mp ho)
    · cases hp
  · cases hp

theorem filter_clean {x : Expr Value} (hpath : x.Pathed) (h : (filter s e x).Clean) :
    ∃ f, (filter s e x).result = some f ∧
      (filter s e x).parameters = f.predicates.flatMap Predicate.parameters := by
  induction x with
  | and l r ihl ihr | or l r ihl ihr =>
    simp only [filter, Noted.clean_bind] at h
    obtain ⟨fl, hl, hpl⟩ := ihl hpath.1 h.1
    obtain ⟨fr, hr, hpr⟩ := ihr hpath.2 h.2.1
    simp [filter, hl, hr, hpl, hpr, Filter.predicates]
  | predicate path c n =>
    simp only [filter, Noted.clean_bind] at h
    obtain ⟨p, hp, hparameters⟩ := predicate_clean hpath h.1
    simp [filter, hp, hparameters, Filter.predicates]

theorem filter_fitted {x : Expr Value} {f : Filter} (hf : (filter s e x).result = some f) :
    ∀ p ∈ f.predicates, p.Fitted := by
  induction x generalizing f with
  | and l r ihl ihr | or l r ihl ihr =>
    simp only [filter, Noted.bind_result, Noted.pure_result, Option.pure_def, Option.bind_eq_bind,
      Option.bind_eq_some_iff, Option.some.injEq] at hf
    obtain ⟨fl, hl, fr, hr, rfl⟩ := hf
    exact List.forall_mem_append.mpr ⟨ihl hl, ihr hr⟩
  | predicate path c n =>
    obtain ⟨p, hp, rfl⟩ := Option.map_eq_some_iff.mp hf
    exact List.forall_mem_singleton.mpr (predicate_fitted hp)

theorem Filter.Sound.typed {f : Filter} {notes : List Note} (h : f.Sound s notes e)
    (hfitted : ∀ p ∈ f.predicates, p.Fitted) : ∀ p ∈ f.predicates, p.Typed s e := by
  induction f with
  | and l r ihl ihr | or l r ihl ihr =>
    obtain ⟨hl, hr⟩ := List.forall_mem_append.mp hfitted
    exact List.forall_mem_append.mpr ⟨ihl h.1 hl, ihr h.2 hr⟩
  | predicate p =>
    have hp : p.Sound s notes e := h
    have hcheck := hfitted p (List.mem_singleton.mpr rfl)
    exact List.forall_mem_singleton.mpr ⟨hp.path, hp.comparable, hcheck hp.comparable⟩

/-! ### Levels -/

theorem bound_clean {paged : Bool} {clause : PageClause} {b : Bound Int64}
    (h : (bound e paged clause b).Clean) : paged ∧ (bound e paged clause b).result = some b ∧
      (bound e paged clause b).parameters = boundParameters b ∧ ∀ n, b = .literal n → 1 ≤ n := by
  unfold bound at h ⊢
  cases paged with
  | false => simp at h
  | true =>
    cases b with
    | literal n =>
      by_cases hn : n < 1
      · simp [hn] at h
      · have hle : 1 ≤ n := Int64.not_lt.mp hn
        simp [hn, hle, boundParameters]
    | param name => simp [boundParameters]

/-- A limit or page that is left out asks nothing. -/
theorem optionally_bound_clean {paged : Bool} {clause : PageClause} {b : Option (Bound Int64)}
    (h : (optionally (bound e paged clause) b).Clean) :
    (optionally (bound e paged clause) b).result = b ∧ (b.isSome → paged) ∧
      (optionally (bound e paged clause) b).parameters = b.toList.flatMap boundParameters ∧
      ∀ n, b = some (.literal n) → 1 ≤ n := by
  cases b with
  | none => exact ⟨rfl, nofun, rfl, nofun⟩
  | some b =>
    obtain ⟨hpaged, hresult, hparameters, hone⟩ := bound_clean h
    refine ⟨hresult, fun _ ↦ hpaged, ?_, ?_⟩
    · simpa [optionally] using hparameters
    · rintro n ⟨⟩
      exact hone n rfl

theorem optionally_filter_clean {x : Option (Expr Value)} (hpath : ∀ y ∈ x, y.Pathed)
    (h : (optionally (filter s e) x).Clean) : (optionally (filter s e) x).parameters =
      (optionally (filter s e) x).result.toList.flatMap fun f ↦
        f.predicates.flatMap Predicate.parameters := by
  cases x with
  | none => rfl
  | some x =>
    obtain ⟨f, hf, hparameters⟩ := filter_clean (hpath x rfl) h
    simp [optionally, hf, hparameters]

/-- What the start of a level is told if no error was noted. -/
theorem levelStart_clean {paged : Bool} {x : Option (Expr Value)}
    {limit page : Option (Bound Int64)} (hpath : ∀ y ∈ x, y.Pathed)
    (h : (levelStart s e paged x limit page).Clean) :
    (levelStart s e paged x limit page).result.Paged ∧
      (¬paged → (levelStart s e paged x limit page).result.limit = none ∧
        (levelStart s e paged x limit page).result.page = none) ∧
      (levelStart s e paged x limit page).parameters =
        (levelStart s e paged x limit page).result.parameters := by
  rw [levelStart_result]
  unfold levelStart at h ⊢
  simp only [Noted.clean_bind] at h
  obtain ⟨-, hx, hlimit, hpage, hrest⟩ := h
  obtain ⟨hl, hlpaged, hlp, hlone⟩ := optionally_bound_clean hlimit
  obtain ⟨hp, hppaged, hpp, hpone⟩ := optionally_bound_clean hpage
  have hfilter := optionally_filter_clean hpath hx
  have hnone {b : Option (Bound Int64)} (hb : b.isSome → paged) (hpaged : ¬paged) : b = none :=
    Option.not_isSome_iff_eq_none.mp fun hsome ↦ hpaged (hb hsome)
  rw [hl, hp] at hrest ⊢
  refine ⟨⟨hlone, hpone, ?_⟩, fun hpaged ↦ ⟨hnone hlpaged hpaged, hnone hppaged hpaged⟩, ?_⟩
  · intro hsome
    by_contra hlimited
    have hnolimit : limit = none := Option.not_isSome_iff_eq_none.mp hlimited
    have hmissing : (page.isSome && limit.isNone) = true := by
      rw [hnolimit]
      exact Bool.and_eq_true_iff.mpr ⟨hsome, rfl⟩
    rw [if_pos hmissing] at hrest
    simp at hrest
  · simp only [Noted.parameters_bind, Noted.parameters_access, hfilter, hlp, hpp, hl,
      hp, Level.parameters]
    split <;> simp

end

/-! ### Selections -/

/-- What `Tree.Typed` asks of a tree beyond what the notes tell of it. -/
structure Tree.Checked (t : Tree) : Prop where
  filter : ∀ f, t.level.filter = some f → ∀ p ∈ f.predicates, p.Fitted
  paged : t.level.Paged
  single : ∀ r u, (r, u) ∈ t.relations → ¬r.many → u.level.limit = none ∧ u.level.page = none

/-- The trees of the relations selected are checked throughout, and those of single relations have
no page. -/
def Selection.Checked (sel : Selection) : Prop :=
  ∀ r t, (r, t) ∈ sel.relations →
    (¬r.many → t.level.limit = none ∧ t.level.page = none) ∧ ∀ u ∈ t.nodes, u.Checked

section

variable {s : Schema} {e : Entity} {sel : Selection}

theorem Selection.Checked.start : Selection.start.Checked :=
  nofun

@[simp] theorem Selection.addField_relations (f : SelectedField) :
    (sel.addField f).relations = sel.relations := by
  unfold Selection.addField
  split <;> rfl

theorem Selection.Checked.tree (hsel : sel.Checked) {paged : Bool} {x : Option (Expr Value)}
    {limit page : Option (Bound Int64)}
    (hlevel : (levelStart s e paged x limit page).result.Paged) :
    ∀ u ∈ (sel.tree (levelStart s e paged x limit page).result).nodes, u.Checked := by
  intro u hu
  obtain rfl | ⟨r, v, hv, hu⟩ := Tree.mem_nodes.mp hu
  · refine ⟨fun f hf ↦ ?_, ⟨hlevel.limit, hlevel.page, hlevel.limited⟩,
      fun r u hu ↦ (hsel r u hu).1⟩
    rw [Selection.tree, Tree.level, levelStart_result] at hf
    obtain ⟨y, -, hy⟩ := optionally_result hf
    exact filter_fitted hy
  · exact (hsel r v hv).2 u hu

theorem Selection.tree_parameters (level : Level) :
    (sel.tree level).parameters = level.parameters ++ relationParameters sel.relations :=
  rfl

theorem selectField_relations (name : String) (sort : Option (Direction × Int64)) :
    (selectField e sel name sort).result.relations = sel.relations := by
  unfold selectField
  split
  · rfl
  · split
    · rfl
    · simp

theorem sorting_silent (name : String) (ranks : List Int64) (sort : Option (Direction × Int64)) :
    (sorting e name ranks sort).Silent := by
  unfold sorting
  split
  · exact .pure none
  · split
    · exact .fail trivial
    · split
      · exact .bind (.note trivial) (.pure _)
      · exact .pure _

theorem selectField_silent (sel : Selection) (name : String) (sort : Option (Direction × Int64)) :
    (selectField e sel name sort).Silent := by
  unfold selectField
  split
  · exact .bind (.note trivial) (.pure _)
  · split
    · exact .bind (.note trivial) (.pure _)
    · exact .bind (sorting_silent _ _ _) (.bind (.note trivial) (.pure _))

theorem selectAll_silent (e : Entity) (sel : Selection) : (selectAll e sel).Silent := by
  intro n hn
  obtain ⟨x, -, rfl⟩ := List.mem_map.mp hn
  exact trivial

theorem related_silent (name : String) : (related s e name).Silent := by
  unfold related
  split
  · exact .fail trivial
  · split
    · exact .fail trivial
    · split
      · exact .fail trivial
      · exact .bind (.note trivial) (.pure _)

theorem related_clean {name : String} (h : (related s e name).Clean) :
    ∃ r child, (related s e name).result = some (r, child) := by
  unfold related at h ⊢
  split at h
  · simp at h
  · split at h
    · simp at h
    · split at h
      · simp at h
      · simp

mutual

theorem selectItem_checked {e : Entity} {sel : Selection} (hsel : sel.Checked)
    (i : Item Value Int64) (hpath : i.Pathed) (h : (selectItem s e sel i).Clean) :
      (selectItem s e sel i).result.Checked ∧
        relationParameters (selectItem s e sel i).result.relations =
        relationParameters sel.relations ++ (selectItem s e sel i).parameters := by
  cases i with
  | all =>
    refine ⟨hsel, ?_⟩
    rw [selectItem, (selectAll_silent e sel).parameters, List.append_nil]
    rfl
  | field name sort =>
    rw [selectItem, (selectField_silent sel name sort).parameters, List.append_nil]
    refine ⟨?_, by rw [selectField_relations]⟩
    rw [Selection.Checked, selectField_relations]
    exact hsel
  | relation name x limit page inner =>
    unfold selectItem at h ⊢
    rw [Noted.clean_bind] at h
    obtain ⟨r, child, hfound⟩ := related_clean h.1
    simp only [hfound, (related_silent name).parameters, Noted.clean_bind, Noted.bind_result,
      Noted.parameters_bind, Noted.pure_result, Noted.parameters_pure, List.nil_append,
      List.append_nil] at h ⊢
    obtain ⟨-, hstart, hinner, -⟩ := h
    obtain ⟨hpaged, hsingle, hparameters⟩ := levelStart_clean hpath.1 hstart
    obtain ⟨hchecked, hselected⟩ := selectItems_checked .start inner hpath.2 hinner
    refine ⟨fun r' t ht ↦ ?_, ?_⟩
    · rcases List.mem_append.mp ht with ht | ht
      · exact hsel r' t ht
      · cases List.mem_singleton.mp ht
        exact ⟨hsingle, hchecked.tree hpaged⟩
    · rw [Selection.addRelation, relationParameters_append, relationParameters, relationParameters,
        Selection.tree_parameters, hselected, hparameters, List.append_nil]
      rfl

theorem selectItems_checked {e : Entity} {sel : Selection} (hsel : sel.Checked)
    (is : List (Item Value Int64)) (hpath : Item.AllPathed is)
    (h : (selectItems s e sel is).Clean) :
    (selectItems s e sel is).result.Checked ∧
      relationParameters (selectItems s e sel is).result.relations =
        relationParameters sel.relations ++ (selectItems s e sel is).parameters := by
  cases is with
  | nil => exact ⟨hsel, (List.append_nil _).symm⟩
  | cons i is =>
    unfold selectItems at h ⊢
    simp only [Noted.clean_bind, Noted.bind_result, Noted.parameters_bind] at h ⊢
    obtain ⟨hfirst, hparameters⟩ := selectItem_checked hsel i hpath.1 h.1
    obtain ⟨hrest, hothers⟩ := selectItems_checked hfirst is hpath.2 h.2
    rw [hothers, hparameters, List.append_assoc]
    exact ⟨hrest, rfl⟩

end

theorem top_clean {body : Language.Level Value Int64} (hpath : body.Pathed)
    (h : (top s e body).Clean) :
    (∀ u ∈ (top s e body).result.nodes, u.Checked) ∧
      (top s e body).parameters = (top s e body).result.parameters := by
  unfold top at h ⊢
  simp only [Noted.clean_bind, Noted.bind_result, Noted.parameters_bind, Noted.pure_result,
    Noted.parameters_pure, List.append_nil] at h ⊢
  obtain ⟨hstart, hitems, -⟩ := h
  obtain ⟨hpaged, -, hparameters⟩ := levelStart_clean hpath.filter hstart
  obtain ⟨hchecked, hselected⟩ := selectItems_checked .start body.items hpath.items hitems
  refine ⟨hchecked.tree hpaged, ?_⟩
  rw [Selection.tree_parameters, hselected, hparameters]
  rfl

end

/-! ### Queries -/

namespace Findings

theorem foldl_add_eq {notes : List Note} {f : Findings} (h : (notes.foldl add f).errors = []) :
    (∀ e, .error e ∉ notes) ∧
      (notes.foldl add f).parameters = f.parameters ++ notes.filterMap Note.parameter? := by
  induction notes generalizing f with
  | nil => exact ⟨fun _ ↦ List.not_mem_nil, (List.append_nil _).symm⟩
  | cons n notes ih =>
    obtain ⟨hclean, hparameters⟩ := ih h
    have hadd : (f.add n).errors = [] := foldl_add_errors h
    rw [List.foldl_cons, hparameters]
    cases n with
    | error e => simp [add] at hadd
    | access k => exact ⟨fun e he ↦ (List.mem_cons.mp he).elim (by rintro ⟨⟩) (hclean e), rfl⟩
    | parameter p =>
      refine ⟨fun e he ↦ (List.mem_cons.mp he).elim (by rintro ⟨⟩) (hclean e), ?_⟩
      rw [(add_parameter hadd).1, List.append_assoc]
      rfl

end Findings

variable {s : Schema} {form : Language.QueryForm Value Int64} {q : Compiled}
  {slots : Slots} {args : Args} {bindings : Bindings}

theorem compileQuery_typed (h : s.WellFormed) (hpath : form.body.Pathed)
    (hq : s.compileQuery form = .ok q) :
    q.Typed s := by
  obtain ⟨hunique, notes, hsound, -⟩ := compileQuery_sound h hq
  obtain ⟨e, -, herrors, rfl⟩ := compileQuery_ok_iff.mp hq
  obtain ⟨hclean, hparameters⟩ := Findings.foldl_add_eq herrors
  obtain ⟨hchecked, hdeclared⟩ := top_clean hpath hclean
  refine ⟨fun t ht ↦ ?_, hparameters.trans hdeclared, hunique⟩
  obtain ⟨d, hd, ht'⟩ := hsound t ht
  have hcheck := hchecked t ht
  exact ⟨d, hd, ht'.entity, fun f hf ↦ (ht'.filter f hf).typed (hcheck.filter f hf), hcheck.paged,
    ht'.field, ht'.relation, hcheck.single⟩

/-- No parameter stands for a list or map as a whole. -/
theorem Filter.parameter_comparable {e : Entity} {f : Filter}
    (h : ∀ p ∈ f.predicates, p.Typed s e) :
    ∀ p ∈ f.predicates.flatMap Predicate.parameters, ¬p.type.isContainer := by
  intro p hp
  obtain ⟨x, hx, hp⟩ := List.mem_flatMap.mp hp
  unfold Predicate.parameters at hp
  split at hp
  · rw [List.mem_singleton.mp hp]
    exact (h x hx).comparable
  · cases hp

theorem boundParameters_comparable {b : Bound Int64} :
    ∀ p ∈ boundParameters b, ¬p.type.isContainer := by
  intro p hp
  unfold boundParameters at hp
  split at hp
  · cases hp
  · rw [List.mem_singleton.mp hp]
    nofun

theorem Tree.parameter_comparable {t : Tree} (h : ∀ u ∈ t.nodes, ∃ e ∈ s.entities, u.Typed s e) :
    ∀ p ∈ t.parameters, ¬p.type.isContainer := by
  induction t using Tree.induction with
  | node level relations ih =>
    rw [Tree.parameters, List.forall_mem_append]
    refine ⟨?_, ?_⟩
    · obtain ⟨e, -, ht⟩ := h _ (Tree.mem_nodes_self _)
      have hbound (b : Option (Language.Bound Int64)) :
          ∀ p ∈ b.toList.flatMap boundParameters, ¬p.type.isContainer :=
        List.forall_mem_flatMap.mpr fun _ _ ↦ boundParameters_comparable
      rw [Level.parameters, List.forall_mem_append, List.forall_mem_append]
      refine ⟨⟨List.forall_mem_flatMap.mpr fun f hf ↦ ?_, hbound _⟩, hbound _⟩
      exact Filter.parameter_comparable (ht.filter f (Option.mem_toList.mp hf))
    · have hbelow : ∀ r t, (r, t) ∈ relations → ∀ p ∈ t.parameters, ¬p.type.isContainer :=
          fun r t ht ↦
        ih r t ht fun u hu ↦ h u (Tree.mem_nodes.mpr (.inr ⟨r, t, ht, hu⟩))
      clear ih h
      induction relations with
      | nil => nofun
      | cons x rest ihrest =>
        obtain ⟨r, t⟩ := x
        exact List.forall_mem_append.mpr ⟨hbelow r t List.mem_cons_self,
          ihrest fun r' t' ht ↦ hbelow r' t' (List.mem_cons_of_mem _ ht)⟩

/-- An argument that passes its check is what the parameter accepts. -/
theorem Parameter.accepts_of_check {p : Parameter} {v w : Value} (hcontainer : ¬p.type.isContainer)
    (h : p.check v = .ok w) : p.Accepts w := by
  obtain ⟨name, type, role⟩ := p
  cases role with
  | bound => exact check_bound h
  | list =>
    unfold Parameter.check at h
    split at h
    · contradiction
    · next items _ _ =>
      obtain ⟨ws, hws, rfl⟩ := Except.map_eq_ok.mp h
      refine ⟨ws, rfl, fun w hw ↦ ?_⟩
      obtain ⟨v, -, hv⟩ := Except.mapM_ok_mem hws hw
      exact FieldType.fit_ok hcontainer (Except.mapError_eq_ok.mp hv)
    · contradiction
    · contradiction
  | operand =>
    have h : (if v.isNull then Except.ok v else fitArgument name type v) = .ok w := h
    split at h
    · next hnull =>
      cases h
      refine .inl ?_
      cases v <;> trivial
    · exact .inr (FieldType.fit_ok hcontainer (Except.mapError_eq_ok.mp h))

/-- Binding gives every parameter, in their order, a value that it accepts. -/
theorem bind_accepts (h : q.Typed s) (hb : bind q.parameters slots args = .ok bindings) :
    List.Forall₂ (fun p b ↦ b.1 = p.name ∧ p.Accepts b.2) q.parameters bindings := by
  have hcomparable : ∀ p ∈ q.parameters, ¬p.type.isContainer := by
    rw [h.declared]
    exact Tree.parameter_comparable h.levels
  have hall := Except.mapM_eq_ok.mp hb
  refine ((List.forall₂_and_left _ _).mpr ⟨hcomparable, hall⟩).imp fun p b ⟨hp, hpb⟩ ↦ ?_
  obtain ⟨v, -, hrest⟩ := Except.bind_eq_ok.mp hpb
  obtain ⟨w, hw, heq⟩ := Except.bind_eq_ok.mp hrest
  cases heq
  exact ⟨rfl, p.accepts_of_check hp hw⟩

end Query

end EntityStore
