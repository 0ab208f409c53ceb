import EntityStore.Proofs.Mapping.Asking
import EntityStore.Proofs.Query.Typed

/-!
Queries in which a parameter stands for a literal. Compiling the one or the other goes the same way
up to the place of the literal; there the literal is taken if and only if the parameter that is
noted in its place takes the value, and the two operands then stand for the same value
(`compileQuery_fills`).
-/

set_option autoImplicit false

namespace EntityStore

namespace Language

/-- How a text writes a value: as a literal, or as a list of what writes its elements. -/
inductive Node.Writes : Node Value → Value → Prop where
  | literal {v : Value} (h : ∀ t, v.type? = some t → ¬t.isContainer) : Writes (.literal v) v
  | list {items : List (Node Value)} {vs : List Value} (h : List.Forall₂ Writes items vs) :
      Writes (.list items) (.list vs)

/-- The comparators that ask which of two values comes first. -/
def Comparator.isOrdering : Comparator → Bool
  | .compare op => op != .eq && op != .ne
  | .isIn => false

/-- An expression that has a literal of a value wherever another has a parameter. An ordering is not
asked of null. -/
inductive Expr.Fills (name : String) (v : Value) : Expr Value → Expr Value → Prop where
  | and {l l' r r' : Expr Value} (hl : Fills name v l l') (hr : Fills name v r r') :
      Fills name v (.and l r) (.and l' r')
  | or {l l' r r' : Expr Value} (hl : Fills name v l l') (hr : Fills name v r r') :
      Fills name v (.or l r) (.or l' r')
  | same {path : List String} {c : Comparator} {n : Node Value} (hn : n ≠ .param name) :
      Fills name v (.predicate path c n) (.predicate path c n)
  | filled {path : List String} {c : Comparator} {n : Node Value} (hn : n.Writes v)
      (hasked : v.isNull → ¬c.isOrdering) :
      Fills name v (.predicate path c n) (.predicate path c (.param name))

/-- A limit or page that has a number where another has a parameter. -/
inductive Bound.Fills (name : String) (v : Value) : Bound Int64 → Bound Int64 → Prop where
  | same {b : Bound Int64} (hb : b ≠ .param name) : Fills name v b b
  | filled {n : Int64} (hn : v = .long n) : Fills name v (.literal n) (.param name)

mutual

/-- An item that has a literal of a value wherever another has a parameter, in it and below it. -/
inductive Item.Fills (name : String) (v : Value) : Item Value Int64 → Item Value Int64 → Prop where
  | all : Fills name v .all .all
  | field {field : String} {sort : Option (Direction × Int64)} :
      Fills name v (.field field sort) (.field field sort)
  | relation {relation : String} {filter filter' : Option (Expr Value)}
      {limit limit' page page' : Option (Bound Int64)} {items items' : List (Item Value Int64)}
      (hfilter : Option.Rel (Expr.Fills name v) filter filter')
      (hlimit : Option.Rel (Bound.Fills name v) limit limit')
      (hpage : Option.Rel (Bound.Fills name v) page page') (hitems : AllFill name v items items') :
      Fills name v (.relation relation filter limit page items)
        (.relation relation filter' limit' page' items')

inductive Item.AllFill (name : String) (v : Value) : List (Item Value Int64) → List
    (Item Value Int64) → Prop where
  | nil : AllFill name v [] []
  | cons {i i' : Item Value Int64} {is is' : List (Item Value Int64)} (hi : Fills name v i i')
      (his : AllFill name v is is') : AllFill name v (i :: is) (i' :: is')

end

structure Level.Fills (name : String) (v : Value) (l l' : Level Value Int64) : Prop where
  filter : Option.Rel (Expr.Fills name v) l.filter l'.filter
  limit : Option.Rel (Bound.Fills name v) l.limit l'.limit
  page : Option.Rel (Bound.Fills name v) l.page l'.page
  items : Item.AllFill name v l.items l'.items

/-- A query that has a literal of a value wherever another has a parameter. -/
structure QueryForm.Fills (name : String) (v : Value) (form form' : QueryForm Value Int64) :
    Prop where
  entity : form'.entity = form.entity
  body : form.body.Fills name v form'.body

/-! ### The parameters that a query writes -/

def Node.parameter? : Node Value → Option String
  | .param name => some name
  | _ => none

def Expr.parameterNames : Expr Value → List String
  | .and l r | .or l r => l.parameterNames ++ r.parameterNames
  | .predicate _ _ n => n.parameter?.toList

def Bound.parameter? : Bound Int64 → Option String
  | .param name => some name
  | .literal _ => none

/-- The names of the parameters in a filter, a limit and a page. -/
def startNames (filter : Option (Expr Value)) (limit page : Option (Bound Int64)) : List String :=
  filter.toList.flatMap Expr.parameterNames ++ (limit.bind Bound.parameter?).toList ++
    (page.bind Bound.parameter?).toList

mutual

def Item.parameterNames : Item Value Int64 → List String
  | .relation _ filter limit page items =>
    startNames filter limit page ++ Item.allParameterNames items
  | _ => []

def Item.allParameterNames : List (Item Value Int64) → List String
  | [] => []
  | i :: is => i.parameterNames ++ Item.allParameterNames is

end

/-- The names of the operands, limits and pages that a level leaves to parameters, in their
order. -/
def Level.parameterNames (l : Level Value Int64) : List String :=
  startNames l.filter l.limit l.page ++ Item.allParameterNames l.items

end Language

open EntityStore.Language (Bound Comparator Expr Item Node)

namespace Query

/-! ### What is noted of parameters -/

namespace Noted

variable {α β : Type}

@[simp] theorem parameters_fail (e : CompileError) :
    (fail e : Noted (Option α)).parameters = [] := rfl

@[simp] theorem parameters_ofExcept (x : Except CompileError α) : (ofExcept x).parameters = [] := by
  cases x <;> rfl

/-- The names of the parameters that are noted are among some names, in their order. -/
def Names (x : Noted α) (names : List String) : Prop :=
  (x.parameters.map Parameter.name).Sublist names

theorem Names.nil {x : Noted α} (h : x.parameters = []) (names : List String) : x.Names names := by
  rw [Names, h]
  exact List.nil_sublist _

theorem Names.bind {x : Noted α} {f : α → Noted β} {names more : List String} (hx : x.Names names)
    (hf : (f x.result).Names more) : (x >>= f).Names (names ++ more) := by
  rw [Names, parameters_bind, List.map_append]
  exact List.Sublist.append hx hf

theorem Names.quiet {x : Noted α} {f : α → Noted β} {names : List String} (hx : x.Names names)
    (hf : (f x.result).parameters = []) : (x >>= f).Names names := by
  rw [Names, parameters_bind, hf, List.append_nil]
  exact hx

theorem Names.after {x : Noted α} {f : α → Noted β} {names : List String} (hx : x.parameters = [])
    (hf : (f x.result).Names names) : (x >>= f).Names names := by
  rwa [Names, parameters_bind, hx, List.nil_append]

theorem Names.optionally {f : α → Noted (Option β)} {names : α → List String}
    (hf : ∀ a, (f a).Names (names a)) (x : Option α) :
    (optionally f x).Names (x.toList.flatMap names) := by
  cases x with
  | none => exact List.Sublist.slnil
  | some a => simpa [Query.optionally] using hf a

end Noted

variable {s : Schema} {e : Entity}

theorem eq_param_of_operand {target : PropertyKey} {type : FieldType} {c : Comparator}
    {n : Node Value} {name : String} (h : operand target type c n = .ok (.param name)) :
    n = .param name := by
  unfold operand at h
  split at h
  · cases h
    rfl
  · obtain ⟨vs, -, heq⟩ := Except.map_eq_ok.mp h
    cases heq
  · cases h
  · split at h <;> cases h
  · obtain ⟨w, -, heq⟩ := Except.map_eq_ok.mp h
    cases heq
  · cases h

theorem predicate_names (path : List String) (c : Comparator) (n : Node Value) :
    (predicate s e path c n).Names n.parameter?.toList := by
  unfold predicate
  rw [Noted.Names, Noted.parameters_bind, (place_silent path path).parameters, List.nil_append]
  split
  · rw [Noted.parameters_bind, Noted.parameters_ofExcept, List.nil_append]
    split
    · next o ho =>
      cases o with
      | param name =>
        obtain rfl := eq_param_of_operand (Noted.ofExcept_result_eq_some.mp ho)
        exact List.Sublist.refl _
      | _ => exact List.nil_sublist _
    · exact List.nil_sublist _
  · exact List.nil_sublist _

theorem filter_names (x : Expr Value) : (filter s e x).Names x.parameterNames := by
  induction x with
  | and l r ihl ihr | or l r ihl ihr =>
    rw [filter]
    exact ihl.bind (ihr.quiet rfl)
  | predicate path c n =>
    rw [filter]
    exact (predicate_names path c n).quiet rfl

theorem bound_names (paged : Bool) (clause : PageClause) (b : Bound Int64) :
    (bound e paged clause b).Names b.parameter?.toList := by
  unfold bound
  split
  · exact .nil rfl _
  · cases b with
    | literal n =>
      dsimp only
      split <;> exact .nil rfl _
    | param name => exact List.Sublist.refl _

theorem optionally_bound_names (paged : Bool) (clause : PageClause) (b : Option (Bound Int64)) :
    (optionally (bound e paged clause) b).Names (b.bind Bound.parameter?).toList := by
  cases b with
  | none => exact List.Sublist.slnil
  | some b => exact bound_names paged clause b

theorem levelStart_names (paged : Bool) (x : Option (Expr Value))
    (limit page : Option (Bound Int64)) :
    (levelStart s e paged x limit page).Names (Language.startNames x limit page) := by
  unfold levelStart Language.startNames
  rw [List.append_assoc]
  refine Noted.Names.after rfl ?_
  refine (Noted.Names.optionally filter_names x).bind ?_
  refine (optionally_bound_names paged .limit limit).bind ?_
  refine (optionally_bound_names paged .page page).quiet ?_
  split <;> rfl

mutual

theorem selectItem_names {e : Entity} (sel : Selection) (i : Item Value Int64) :
    (selectItem s e sel i).Names i.parameterNames := by
  cases i with
  | all => exact .nil (selectAll_silent e sel).parameters _
  | field name sort => exact .nil (selectField_silent sel name sort).parameters _
  | relation name x limit page items =>
    unfold selectItem Item.parameterNames
    refine Noted.Names.after (related_silent name).parameters ?_
    split
    · exact .nil rfl _
    · next r child _ =>
      exact (levelStart_names r.many x limit page).bind ((selectItems_names .start items).quiet rfl)

theorem selectItems_names {e : Entity} (sel : Selection) (is : List (Item Value Int64)) :
    (selectItems s e sel is).Names (Item.allParameterNames is) := by
  cases is with
  | nil => exact .nil rfl _
  | cons i is =>
    unfold selectItems Item.allParameterNames
    exact (selectItem_names sel i).bind (selectItems_names _ is)

end

/-- The parameters that are noted are some of those that the query writes, in their order. -/
theorem top_names (body : Language.Level Value Int64) :
    (top s e body).Names body.parameterNames := by
  unfold top Language.Level.parameterNames
  exact (levelStart_names true body.filter body.limit body.page).bind
    ((selectItems_names .start body.items).quiet rfl)

/-! ### Literals and arguments -/

/-- The value of an operand that is given in the query. -/
def Operand.literal? : Operand → Option Value
  | .value v => some v
  | .list vs => some (.list vs)
  | .param _ => none

/-- A literal is compiled to an operand that is given. -/
theorem literal_of_written {target : PropertyKey} {type : FieldType} {c : Comparator}
    {n : Node Value} {v : Value} {o : Operand} {b : Bindings} (hn : n.Writes v)
    (ho : operand target type c n = .ok o) :
    ∃ w, o.literal? = some w ∧ parameter? type c o = none ∧ Mapping.operandValue b o = .ok w := by
  cases o with
  | value w => exact ⟨w, rfl, rfl, rfl⟩
  | list ws => exact ⟨.list ws, rfl, rfl, rfl⟩
  | param name =>
    obtain rfl := eq_param_of_operand ho
    cases hn

theorem fit_list {type : FieldType} (htype : ¬type.isContainer) (vs : List Value) :
    (type.fit (.list vs)).toOption = none := by
  cases type <;> first | rfl | exact absurd rfl htype

/-- An element of a list is taken as a literal if it is as part of an argument. -/
theorem listElement_written {target : PropertyKey} {type : FieldType}
    (htype : ¬type.isContainer) (name : String) {n : Node Value} {v : Value} (hn : n.Writes v) :
    (listElement target type n).toOption = (fitArgument name type v).toOption := by
  unfold fitArgument
  rw [Except.toOption_mapError]
  cases hn with
  | literal h =>
    unfold listElement
    cases v with
    | null => rfl
    | _ => exact Except.toOption_mapError _ _
  | list h =>
    rw [fit_list htype]
    rfl

theorem listElements_written (target : PropertyKey) {type : FieldType}
    (htype : ¬type.isContainer) (name : String) {items : List (Node Value)} {vs : List Value}
    (h : List.Forall₂ Node.Writes items vs) :
    (items.mapM (listElement target type)).toOption =
      (vs.mapM (fitArgument name type)).toOption := by
  induction h with
  | nil => rfl
  | cons hn _ ih =>
    rw [List.mapM_cons, List.mapM_cons, Except.toOption_bind, Except.toOption_bind,
      listElement_written htype name hn]
    simp only [Except.toOption_bind, ih]
    rfl

/-- What a literal stands for at its place is what the check of a parameter at that place makes of
its value. -/
theorem operand_written (target : PropertyKey) {type : FieldType}
    (htype : ¬type.isContainer) (name : String) {c : Comparator} {n : Node Value} {v : Value}
    (hn : n.Writes v) (hasked : v.isNull → ¬c.isOrdering) :
    (operand target type c n).toOption.bind Operand.literal? =
      (Parameter.check ⟨name, type, if c = .isIn then .list else .operand⟩ v).toOption := by
  cases c with
  | isIn =>
    rw [if_pos rfl]
    cases hn with
    | literal h =>
      cases v with
      | list vs => exact absurd rfl (h .list rfl)
      | _ => rfl
    | @list items vs h =>
      have hitems := listElements_written target htype name h
      simp only [operand, Parameter.check, Except.toOption_map, ← hitems]
      cases (items.mapM (listElement target type)).toOption <;> rfl
  | compare op =>
    have hcompare : Comparator.compare op ≠ .isIn := by simp
    rw [if_neg hcompare]
    cases hn with
    | @list items vs h =>
      change none = (fitArgument name type (.list vs)).toOption
      rw [fitArgument, Except.toOption_mapError, fit_list htype]
    | literal h =>
      by_cases hnull : v.isNull
      · obtain rfl : v = .null := by cases v <;> first | rfl | cases hnull
        have hop : op = .ne ∨ op = .eq := by
          simpa [Comparator.isOrdering, imp_iff_or_not] using hasked rfl
        rw [operand, if_pos hop.symm]
        rfl
      · have hliteral : operand target type (.compare op) (.literal v) =
            (literal target type v).map .value := by
          cases v <;> first | rfl | exact absurd rfl hnull
        have hcheck : Parameter.check ⟨name, type, .operand⟩ v = fitArgument name type v :=
          if_neg hnull
        rw [hliteral, hcheck, literal, fitArgument, Except.toOption_map, Except.toOption_mapError,
          Except.toOption_mapError]
        cases (type.fit v).toOption <;> rfl

/-! ### Compiling with a literal and with a parameter -/

/-- Bindings under which a parameter has the value that its check makes of another, and the rest is
bound as before. -/
structure Supplies (p : Parameter) (v : Value) (b b' : Bindings) : Prop where
  given : ∀ w, p.check v = .ok w → b'.lookup p.name = some w
  other : ∀ name, name ≠ p.name → b'.lookup name = b.lookup name

/-- A predicate on the field that a path leads to. -/
def compared (pl : Place) (c : Comparator) (n : Node Value) : Noted (Option Predicate) := do
  let some o ← .ofExcept (operand ⟨pl.entity, pl.name⟩ pl.field.type c n) | pure none
  if let some parameter := parameter? pl.field.type c o then .note (.parameter parameter)
  pure (some ⟨pl.steps, pl.name, pl.field.type, c, o⟩)

theorem predicate_eq (path : List String) (c : Comparator) (n : Node Value) :
    predicate s e path c n = place s path e path >>=
      fun found ↦ optionally (compared · c n) found := by
  change Noted.mk _ _ = Noted.mk _ _
  cases (place s path e path).result <;> rfl

theorem compared_of_ok {pl : Place} {c : Comparator} {n : Node Value} {o : Operand}
    (ho : operand ⟨pl.entity, pl.name⟩ pl.field.type c n = .ok o) :
    compared pl c n = ⟨((parameter? pl.field.type c o).map Note.parameter).toList,
      some ⟨pl.steps, pl.name, pl.field.type, c, o⟩⟩ := by
  unfold compared
  rw [ho]
  cases o <;> rfl

theorem compared_of_error {pl : Place} {c : Comparator} {n : Node Value} {err : CompileError}
    (ho : operand ⟨pl.entity, pl.name⟩ pl.field.type c n = .error err) :
    compared pl c n = .fail err := by
  unfold compared
  rw [ho]
  rfl

theorem bound_literal {clause : PageClause} (n : Int64) : bound e true clause (.literal n) =
    if n < 1 then .fail (.pagination (.tooSmall clause n)) else pure (some (.literal n)) :=
  rfl

theorem bound_param {clause : PageClause} (name : String) :
    bound e true clause (.param name) = ⟨[.parameter ⟨name, .long, .bound⟩], some (.param name)⟩ :=
  rfl

namespace Noted

variable {α α' β β' : Type} {p : Parameter} {v : Value} {R : α → α' → Prop} {S : β → β' → Prop}

/-- No other parameter of its name is noted. -/
def Alone (p : Parameter) (x : Noted α) : Prop :=
  ∀ q ∈ x.parameters, q.name = p.name → q = p

theorem alone_bind {x : Noted α} {f : α → Noted β} :
    Alone p (x >>= f) ↔ Alone p x ∧ Alone p (f x.result) := by
  rw [Alone, parameters_bind, List.forall_mem_append]
  rfl

/-- Of two compilations the first has a literal where the second notes a parameter: it meets no
error if the second does not and the parameter takes the value of the literal; then it notes the
other parameters, and the results are related. -/
structure Fills (p : Parameter) (v : Value) (R : α → α' → Prop) (x : Noted α)
    (x' : Noted α') : Prop where
  clean : x.Clean ↔ x'.Clean ∧ (p ∈ x'.parameters → (p.check v).isOk)
  others : x.Clean → x.parameters = x'.parameters.filter fun q ↦ q.name != p.name
  result : x.Clean → R x.result x'.result

/-- Two compilations that note the same, and not the parameter. -/
theorem Fills.same {x : Noted α} {x' : Noted α'} (hnotes : x'.notes = x.notes)
    (hp : ∀ q ∈ x.parameters, q.name ≠ p.name) (hresult : x.Clean → R x.result x'.result) :
    Fills p v R x x' := by
  have hparameters : x'.parameters = x.parameters := by rw [parameters, hnotes, parameters]
  refine ⟨?_, fun _ ↦ ?_, hresult⟩
  · rw [Clean, Clean, hnotes]
    exact ⟨fun h ↦ ⟨h, fun hmem ↦ absurd rfl (hp p (hparameters ▸ hmem))⟩, And.left⟩
  · rw [hparameters]
    exact (List.filter_eq_self.mpr fun q hq ↦ bne_iff_ne.mpr (hp q hq)).symm

/-- The literal is refused, and so is the argument. -/
theorem Fills.refused {R : Option α → α' → Prop} (hcheck : (p.check v).isOk = false)
    (err : CompileError) (a' : α') :
    Fills p v R (.fail err) ⟨[.parameter p], a'⟩ := by
  refine ⟨iff_of_false (not_clean_fail err) fun h ↦ ?_, fun h ↦ absurd h (not_clean_fail err),
    fun h ↦ absurd h (not_clean_fail err)⟩
  have hok := h.2 (List.mem_singleton_self p)
  rw [hcheck] at hok
  cases hok

/-- The literal stands where the parameter is noted. -/
theorem Fills.noted {a : α} {a' : α'} (hcheck : (p.check v).isOk) (h : R a a') :
    Fills p v R ⟨[], a⟩ ⟨[.parameter p], a'⟩ := by
  refine ⟨iff_of_true nofun ⟨fun e he ↦ ?_, fun _ ↦ hcheck⟩, fun _ ↦ ?_, fun _ ↦ h⟩
  · cases List.mem_singleton.mp he
  · change [] = [p].filter _
    rw [List.filter_cons_of_neg (by simp), List.filter_nil]

theorem Fills.bind {x : Noted α} {x' : Noted α'} {f : α → Noted β} {f' : α' → Noted β'}
    (hx : Fills p v R x x') (hf : R x.result x'.result → Fills p v S (f x.result) (f' x'.result)) :
    Fills p v S (x >>= f) (x' >>= f') := by
  refine ⟨?_, fun h ↦ ?_, fun h ↦ ?_⟩
  · rw [clean_bind, clean_bind, parameters_bind, List.mem_append]
    constructor
    · rintro ⟨hclean, hrest⟩
      obtain ⟨hclean', hcheck⟩ := hx.clean.mp hclean
      obtain ⟨hrest', hcheck'⟩ := (hf (hx.result hclean)).clean.mp hrest
      exact ⟨⟨hclean', hrest'⟩, Or.rec hcheck hcheck'⟩
    · rintro ⟨⟨hclean', hrest'⟩, hcheck⟩
      have hclean := hx.clean.mpr ⟨hclean', fun hmem ↦ hcheck (.inl hmem)⟩
      exact ⟨hclean, (hf (hx.result hclean)).clean.mpr ⟨hrest', fun hmem ↦ hcheck (.inr hmem)⟩⟩
  · obtain ⟨hclean, hrest⟩ := clean_bind.mp h
    rw [parameters_bind, parameters_bind, List.filter_append, hx.others hclean,
      (hf (hx.result hclean)).others hrest]
  · obtain ⟨hclean, hrest⟩ := clean_bind.mp h
    exact (hf (hx.result hclean)).result hrest

/-- What is made of related results without a note. -/
theorem Fills.map {x : Noted α} {x' : Noted α'} {f : α → β} {f' : α' → β'} (hx : Fills p v R x x')
    (hf : ∀ a a', R a a' → S (f a) (f' a')) :
    Fills p v S (x >>= fun a ↦ pure (f a)) (x' >>= fun a ↦ pure (f' a)) :=
  hx.bind fun h ↦ .same rfl nofun fun _ ↦ hf _ _ h

/-- What is optional is there in both compilations or in neither. -/
theorem Fills.optionally {γ γ' : Type} {F : γ → γ' → Prop} {R : Option α → Option α' → Prop}
    {f : γ → Noted (Option α)} {f' : γ' → Noted (Option α')} {a : Option γ} {a' : Option γ'}
    (h : Option.Rel F a a') (hnone : R none none)
    (hf : ∀ a a', F a a' → Alone p (f' a') → Fills p v R (f a) (f' a'))
    (halone : Alone p (optionally f' a')) :
    Fills p v R (optionally f a) (optionally f' a') := by
  cases h with
  | none => exact .same rfl nofun fun _ ↦ hnone
  | some h => exact hf _ _ h halone

end Noted

theorem rel_both {b b' : Bindings} {op : Filter → Filter → Filter}
    (hop : ∀ {l l' r r'}, Filter.Same b b' l l' → Filter.Same b b' r r' →
      Filter.Same b b' (op l r) (op l' r'))
    {l l' r r' : Option Filter} (hl : Option.Rel (Filter.Same b b') l l')
    (hr : Option.Rel (Filter.Same b b') r r') :
    Option.Rel (Filter.Same b b') (do pure (op (← l) (← r))) (do pure (op (← l') (← r'))) := by
  cases hl with
  | none => exact .none
  | some hl =>
    cases hr with
    | none => exact .none
    | some hr => exact .some (hop hl hr)

theorem rel_predicate {b b' : Bindings} {x x' : Option Predicate}
    (h : Option.Rel (Predicate.Same b b') x x') :
    Option.Rel (Filter.Same b b') (x.map .predicate) (x'.map .predicate) := by
  cases h with
  | none => exact .none
  | some h => exact .some (.predicate h)

/-- Two selections of the same fields, and of relations whose trees ask the same. -/
def Selection.Same (b b' : Bindings) (sel sel' : Selection) : Prop :=
  ∃ rs, Tree.AllSame b b' sel.relations rs ∧ sel' = { sel with relations := rs }

theorem Selection.Same.tree {b b' : Bindings} {sel sel' : Selection} {l l' : Level}
    (hsel : sel.Same b b' sel') (hlevel : l.Same b b' l') :
    (sel.tree l).Same b b' (sel'.tree l') := by
  obtain ⟨rs, hrs, rfl⟩ := hsel
  exact .node ⟨hlevel.entity, hlevel.filter, hlevel.limit, hlevel.page, rfl⟩ hrs

theorem Selection.Same.addRelation {b b' : Bindings} {sel sel' : Selection} {t t' : Tree}
    (hsel : sel.Same b b' sel') (r : Relation) (ht : t.Same b b' t') :
    (sel.addRelation r t).Same b b' (sel'.addRelation r t') := by
  obtain ⟨rs, hrs, rfl⟩ := hsel
  exact ⟨_, hrs.append (.cons ht .nil), rfl⟩

theorem Selection.addField_with (sel : Selection) (rs : List (Relation × Tree))
    (f : SelectedField) :
    Selection.addField { sel with relations := rs } f =
      { sel.addField f with relations := rs } := by
  unfold Selection.addField Selection.hasField
  dsimp only
  split <;> rfl

/-- Selecting a field does not depend on the relations. -/
theorem selectField_with (sel : Selection) (rs : List (Relation × Tree)) (name : String)
    (sort : Option (Direction × Int64)) : selectField e { sel with relations := rs } name sort =
      ⟨(selectField e sel name sort).notes,
        { (selectField e sel name sort).result with relations := rs }⟩ := by
  unfold selectField
  split
  · rfl
  · split
    · rfl
    · simp only [Selection.addField_with]
      rfl

section

variable {p : Parameter} {v : Value} {b b' : Bindings} (hb : Supplies p v b b')

include hb

theorem operandValue_same {n : Node Value} (hn : n ≠ .param p.name)
    {target : PropertyKey} {type : FieldType} {c : Comparator} {o : Operand}
    (ho : operand target type c n = .ok o) :
    Mapping.operandValue b' o = Mapping.operandValue b o := by
  cases o with
  | param name =>
    obtain rfl := eq_param_of_operand ho
    rw [Mapping.operandValue, Mapping.operandValue, hb.other name fun h ↦ hn (h ▸ rfl)]
  | _ => rfl

/-- A predicate whose operand is not the parameter. -/
theorem compared_same (pl : Place) (c : Comparator) {n : Node Value} (hn : n ≠ .param p.name) :
    (compared pl c n).Fills p v (Option.Rel (Predicate.Same b b')) (compared pl c n) := by
  cases ho : operand ⟨pl.entity, pl.name⟩ pl.field.type c n with
  | error err =>
    rw [compared_of_error ho]
    exact .same rfl nofun fun _ ↦ .none
  | ok o =>
    rw [compared_of_ok ho]
    refine .same rfl (fun q hq hname ↦ ?_) fun _ ↦ .some ⟨rfl, rfl, rfl, operandValue_same hb hn ho⟩
    cases o with
    | param name =>
      obtain rfl := eq_param_of_operand ho
      obtain rfl := List.mem_singleton.mp hq
      exact hn (congrArg Node.param hname)
    | _ => cases hq

/-- A predicate whose operand is a literal in the one query and the parameter in the other. -/
theorem compared_filled {pl : Place} (htype : ¬pl.field.type.isContainer)
    {c : Comparator} {n : Node Value} (hn : n.Writes v) (hasked : v.isNull → ¬c.isOrdering)
    (halone : (compared pl c (.param p.name)).Alone p) :
    (compared pl c n).Fills p v (Option.Rel (Predicate.Same b b'))
      (compared pl c (.param p.name)) := by
  have hwritten := operand_written ⟨pl.entity, pl.name⟩ htype p.name hn hasked
  have hparam : operand ⟨pl.entity, pl.name⟩ pl.field.type c (.param p.name) =
      .ok (.param p.name) := by
    cases c <;> rfl
  rw [compared_of_ok hparam] at halone ⊢
  have hp : Parameter.mk p.name pl.field.type (if c = .isIn then .list else .operand) = p :=
    halone _ (List.mem_singleton_self _) rfl
  rw [hp] at hwritten
  change Noted.Fills p v _ _
    ⟨[.parameter ⟨p.name, pl.field.type, if c = .isIn then .list else .operand⟩], _⟩
  rw [hp]
  cases ho : operand ⟨pl.entity, pl.name⟩ pl.field.type c n with
  | error err =>
    rw [compared_of_error ho]
    refine .refused ?_ err _
    rw [ho] at hwritten
    cases hcheck : p.check v with
    | error refusal => rfl
    | ok w =>
      rw [hcheck] at hwritten
      cases hwritten
  | ok o =>
    obtain ⟨w, hw, hnone, hvalue⟩ := literal_of_written (b := b) hn ho
    have hcheck : p.check v = .ok w := by
      rw [ho] at hwritten
      exact Except.toOption_eq_some_iff.mp (hwritten.symm.trans hw)
    rw [compared_of_ok ho, hnone]
    exact .noted (Except.isOk_iff.mpr ⟨w, hcheck⟩)
      (.some ⟨rfl, rfl, rfl, by rw [hvalue, Mapping.operandValue, hb.given w hcheck]⟩)

variable (hs : s.WellFormed) (he : e ∈ s.entities)

include hs he

theorem predicate_fills {path : List String} {c : Comparator} {n n' : Node Value}
    (h : Expr.Fills p.name v (.predicate path c n) (.predicate path c n'))
    (halone : (predicate s e path c n').Alone p) :
    (predicate s e path c n).Fills p v (Option.Rel (Predicate.Same b b'))
      (predicate s e path c n') := by
  rw [predicate_eq] at halone ⊢
  rw [predicate_eq]
  refine Noted.Fills.bind (R := Eq) (.same rfl (fun q hq ↦ ?_) fun _ ↦ rfl) fun _ ↦ ?_
  · rw [(place_silent _ _).parameters] at hq
    cases hq
  obtain ⟨-, halone⟩ := Noted.alone_bind.mp halone
  cases hplace : (place s path e path).result with
  | none => exact .same rfl nofun fun _ ↦ .none
  | some pl =>
    rw [hplace] at halone
    obtain ⟨-, -, -, -, htype⟩ := place_result hs he hplace
    cases h with
    | same hn => exact compared_same hb pl c hn
    | filled hn hasked => exact compared_filled hb htype hn hasked halone

theorem filter_fills {x x' : Expr Value} (h : x.Fills p.name v x')
    (halone : (filter s e x').Alone p) :
    (filter s e x).Fills p v (Option.Rel (Filter.Same b b')) (filter s e x') := by
  induction h with
  | and _ _ ihl ihr | or _ _ ihl ihr =>
    rw [filter] at halone ⊢
    rw [filter]
    obtain ⟨hl, halone⟩ := Noted.alone_bind.mp halone
    obtain ⟨hr, -⟩ := Noted.alone_bind.mp halone
    exact (ihl hl).bind fun hl ↦ (ihr hr).map
      fun _ _ hr ↦ rel_both (by first | exact .and | exact .or) hl hr
  | same hn =>
    rw [filter] at halone ⊢
    exact (predicate_fills hb hs he (.same hn) (Noted.alone_bind.mp halone).1).map
      fun _ _ ↦ rel_predicate
  | filled hn hasked =>
    rw [filter] at halone ⊢
    rw [filter]
    exact (predicate_fills hb hs he (.filled hn hasked) (Noted.alone_bind.mp halone).1).map
      fun _ _ ↦ rel_predicate

omit hs he in
/-- A limit or page that is not the parameter. -/
theorem limit_same {x : Bound Int64} (hx : x ≠ .param p.name) :
    Limit.Same b b' (some x) (some x) := by
  refine ⟨rfl, ?_⟩
  cases x with
  | literal n => rfl
  | param name =>
    rw [Mapping.boundValue, Mapping.boundValue, hb.other name fun h ↦ hx (h ▸ rfl)]

omit hs he in
theorem bound_fills {x x' : Bound Int64} (h : x.Fills p.name v x') {paged : Bool}
    {clause : PageClause} (halone : (bound e paged clause x').Alone p) :
    (bound e paged clause x).Fills p v (Limit.Same b b') (bound e paged clause x') := by
  cases paged with
  | false => exact .same rfl nofun fun _ ↦ ⟨rfl, rfl⟩
  | true =>
    cases h with
    | same hx =>
      have hlimit := limit_same hb hx
      cases x with
      | literal n =>
        rw [bound_literal]
        by_cases hn : n < 1
        · rw [if_pos hn]
          exact .same rfl nofun fun _ ↦ ⟨rfl, rfl⟩
        · rw [if_neg hn]
          exact .same rfl nofun fun _ ↦ hlimit
      | param name =>
        refine .same rfl (fun q hq hname ↦ ?_) fun _ ↦ hlimit
        obtain rfl := List.mem_singleton.mp hq
        exact hx (congrArg Bound.param hname)
    | @filled n hn =>
      subst hn
      have hp : Parameter.mk p.name .long .bound = p := halone _ (List.mem_singleton_self _) rfl
      have hcheck : p.check (.long n) = if 1 ≤ n then .ok (.long n) else
          .error (.boundArgument p.name (.long n)) := by
        rw [← hp]
        rfl
      rw [bound_literal, bound_param, hp]
      by_cases hn : n < 1
      · rw [if_pos hn]
        exact .refused (by rw [hcheck, if_neg (Int64.not_le.mpr hn)]; rfl) _ _
      · rw [if_neg hn]
        rw [if_pos (Int64.not_lt.mp hn)] at hcheck
        refine .noted (Except.isOk_iff.mpr ⟨_, hcheck⟩) ⟨rfl, ?_⟩
        rw [Mapping.boundValue, Mapping.boundValue, hb.given _ hcheck]
        rfl

omit hs he in
theorem optionally_bound_fills {x x' : Option (Bound Int64)}
    (h : Option.Rel (Bound.Fills p.name v) x x') {paged : Bool} {clause : PageClause}
    (halone : (optionally (bound e paged clause) x').Alone p) :
    (optionally (bound e paged clause) x).Fills p v (Limit.Same b b')
      (optionally (bound e paged clause) x') :=
  .optionally h ⟨rfl, rfl⟩ (fun _ _ h ↦ bound_fills hb h) halone

theorem levelStart_fills {x x' : Option (Expr Value)}
    {limit limit' page page' : Option (Bound Int64)} {paged : Bool}
    (hfilter : Option.Rel (Expr.Fills p.name v) x x')
    (hlimit : Option.Rel (Bound.Fills p.name v) limit limit')
    (hpage : Option.Rel (Bound.Fills p.name v) page page')
    (halone : (levelStart s e paged x' limit' page').Alone p) :
    (levelStart s e paged x limit page).Fills p v (Level.Same b b')
      (levelStart s e paged x' limit' page') := by
  unfold levelStart at halone ⊢
  obtain ⟨-, halone⟩ := Noted.alone_bind.mp halone
  obtain ⟨hfilterAlone, halone⟩ := Noted.alone_bind.mp halone
  obtain ⟨hlimitAlone, halone⟩ := Noted.alone_bind.mp halone
  obtain ⟨hpageAlone, -⟩ := Noted.alone_bind.mp halone
  refine Noted.Fills.bind (R := Eq) (.same rfl nofun fun _ ↦ rfl) fun _ ↦ ?_
  refine (Noted.Fills.optionally hfilter .none (fun _ _ ↦ filter_fills hb hs he) hfilterAlone).bind
    fun hfilter ↦ ?_
  refine (optionally_bound_fills hb hlimit hlimitAlone).bind fun hlimit ↦ ?_
  refine (optionally_bound_fills hb hpage hpageAlone).bind fun hpage ↦ ?_
  -- whether a page stands without a limit is the same in both
  have hpaged : ((optionally (bound e paged .page) page').result.isSome &&
      (optionally (bound e paged .limit) limit').result.isNone) =
      ((optionally (bound e paged .page) page).result.isSome &&
        (optionally (bound e paged .limit) limit).result.isNone) := by
    rw [hpage.given, ← Option.not_isSome, ← Option.not_isSome, hlimit.given]
  dsimp only
  rw [hpaged]
  split <;> exact .same rfl (fun q hq ↦ by cases hq) fun _ ↦ ⟨rfl, hfilter, hlimit, hpage, rfl⟩

end

section

variable {p : Parameter} {v : Value} {b b' : Bindings}

mutual

theorem selectItem_fills (hb : Supplies p v b b') (hs : s.WellFormed) {e : Entity}
    (he : e ∈ s.entities) {sel sel' : Selection} (hsel : sel.Same b b' sel')
    {i i' : Item Value Int64} (h : i.Fills p.name v i')
    (halone : (selectItem s e sel' i').Alone p) :
    (selectItem s e sel i).Fills p v (Selection.Same b b') (selectItem s e sel' i') := by
  cases h with
  | all =>
    obtain ⟨rs, hrs, rfl⟩ := hsel
    exact .same rfl (fun q hq ↦ by cases (selectAll_silent e sel).parameters ▸ hq)
      fun _ ↦ ⟨rs, hrs, rfl⟩
  | @field name sort =>
    obtain ⟨rs, hrs, rfl⟩ := hsel
    rw [selectItem, selectItem, selectField_with (e := e) sel rs name sort]
    refine .same rfl (fun q hq ↦ by cases (selectField_silent sel name sort).parameters ▸ hq)
      fun _ ↦ ⟨rs, ?_, rfl⟩
    rw [selectField_relations]
    exact hrs
  | relation hfilter hlimit hpage hitems =>
    unfold selectItem at halone ⊢
    obtain ⟨-, halone⟩ := Noted.alone_bind.mp halone
    refine Noted.Fills.bind (R := Eq)
      (.same rfl (fun q hq ↦ by cases (related_silent _).parameters ▸ hq) fun _ ↦ rfl) fun _ ↦ ?_
    cases hfound : (related s e _).result with
    | none => exact .same rfl nofun fun _ ↦ hsel
    | some found =>
      obtain ⟨r, child⟩ := found
      rw [hfound] at halone
      obtain ⟨hstart, halone⟩ := Noted.alone_bind.mp halone
      obtain ⟨hinner, -⟩ := Noted.alone_bind.mp halone
      have hchild := (related_result hs he hfound).1
      refine (levelStart_fills hb hs hchild hfilter hlimit hpage hstart).bind fun hlevel ↦ ?_
      have hstart : Selection.Same b b' .start .start := ⟨[], .nil, rfl⟩
      exact (selectItems_fills hb hs hchild hstart hitems hinner).map fun _ _ hchosen ↦
        hsel.addRelation r (hchosen.tree hlevel)

theorem selectItems_fills (hb : Supplies p v b b') (hs : s.WellFormed) {e : Entity}
    (he : e ∈ s.entities) {sel sel' : Selection} (hsel : sel.Same b b' sel')
    {is is' : List (Item Value Int64)} (h : Item.AllFill p.name v is is')
    (halone : (selectItems s e sel' is').Alone p) :
    (selectItems s e sel is).Fills p v (Selection.Same b b') (selectItems s e sel' is') := by
  cases h with
  | nil => exact .same rfl nofun fun _ ↦ hsel
  | cons hi his =>
    unfold selectItems at halone ⊢
    obtain ⟨hfirst, hrest⟩ := Noted.alone_bind.mp halone
    exact (selectItem_fills hb hs he hsel hi hfirst).bind
      fun hsel ↦ selectItems_fills hb hs he hsel his hrest

end

theorem top_fills (hb : Supplies p v b b') (hs : s.WellFormed) (he : e ∈ s.entities)
    {body body' : Language.Level Value Int64} (h : body.Fills p.name v body')
    (halone : (top s e body').Alone p) :
    (top s e body).Fills p v (Tree.Same b b') (top s e body') := by
  unfold top at halone ⊢
  obtain ⟨hstart, halone⟩ := Noted.alone_bind.mp halone
  obtain ⟨hitems, -⟩ := Noted.alone_bind.mp halone
  refine (levelStart_fills hb hs he h.filter h.limit h.page hstart).bind fun hlevel ↦ ?_
  have hstart : Selection.Same b b' .start .start := ⟨[], .nil, rfl⟩
  exact (selectItems_fills hb hs he hstart h.items hitems).map fun _ _ hchosen ↦ hchosen.tree hlevel

end

/-! ### Queries -/

namespace Findings

theorem foldl_add_clean {notes : List Note} {f : Findings} (herrors : f.errors = [])
    (hclean : ∀ e, .error e ∉ notes)
    (hnodup : ((f.parameters ++ notes.filterMap Note.parameter?).map Parameter.name).Nodup) :
    (notes.foldl add f).errors = [] := by
  induction notes generalizing f with
  | nil => exact herrors
  | cons n notes ih =>
    have hrest : ∀ e, .error e ∉ notes := fun e he ↦ hclean e (List.mem_cons_of_mem _ he)
    cases n with
    | error e => exact absurd List.mem_cons_self (hclean e)
    | access k => exact ih herrors hrest hnodup
    | parameter p =>
      have hnew : p.name ∉ f.parameters.map Parameter.name := by
        rw [List.map_append, List.nodup_append] at hnodup
        exact fun hmem ↦ hnodup.2.2 _ hmem _ List.mem_cons_self rfl
      have hadd : f.add (.parameter p) = { f with parameters := f.parameters ++ [p] } :=
        if_neg fun hany ↦ hnew (by simpa using hany)
      rw [List.foldl_cons, hadd]
      refine ih herrors hrest ?_
      rwa [List.append_assoc]

/-- Notes meet no error if they tell of none and no two of their parameters have one name. -/
theorem ofNotes_eq_nil {α : Type} {x : Noted α} :
    (ofNotes x.notes).errors = [] ↔ x.Clean ∧ (x.parameters.map Parameter.name).Nodup := by
  constructor
  · intro h
    obtain ⟨hclean, hparameters⟩ := foldl_add_eq (f := none) h
    obtain ⟨-, hnodup, -⟩ := foldl_add_parameters (f := none) h .nil
    rw [hparameters] at hnodup
    exact ⟨hclean, hnodup⟩
  · rintro ⟨hclean, hnodup⟩
    exact foldl_add_clean (f := none) rfl hclean hnodup

end Findings

theorem compileQuery_eq_ok {form : Language.QueryForm Value Int64} {q : Compiled} :
    s.compileQuery form = .ok q ↔ ∃ e, s.get? form.entity = some e ∧ (top s e form.body).Clean ∧
      ((top s e form.body).parameters.map Parameter.name).Nodup ∧
      q = ⟨(top s e form.body).result, (top s e form.body).parameters,
        (Findings.ofNotes (top s e form.body).notes).accessed⟩ := by
  have hparameters {e : Entity}
      (herrors : (Findings.ofNotes (top s e form.body).notes).errors = []) :
      (Findings.ofNotes (top s e form.body).notes).parameters = (top s e form.body).parameters :=
    (Findings.foldl_add_eq (f := .none) herrors).2
  rw [compileQuery_ok_iff]
  constructor
  · rintro ⟨e, hget, herrors, rfl⟩
    obtain ⟨hclean, hnodup⟩ := Findings.ofNotes_eq_nil.mp herrors
    exact ⟨e, hget, hclean, hnodup, by rw [hparameters herrors]⟩
  · rintro ⟨e, hget, hclean, hnodup, rfl⟩
    have herrors := Findings.ofNotes_eq_nil.mpr ⟨hclean, hnodup⟩
    exact ⟨e, hget, herrors, by rw [hparameters herrors]⟩

/-- Every value is refused by some parameter of any name. -/
theorem exists_refuses (name : String) (v : Value) :
    ∃ p : Parameter, p.name = name ∧ ∀ w, p.check v ≠ .ok w := by
  cases v with
  | list items => exact ⟨⟨name, .long, .bound⟩, rfl, nofun⟩
  | _ => exact ⟨⟨name, .text, .list⟩, rfl, nofun⟩

/-- A name that is written once is that of one noted parameter at most; if it is of none, take any
that refuses a value. -/
theorem Noted.Names.exists_alone {α : Type} {x : Noted α} {names : List String}
    (h : x.Names names) {name : String} (honce : names.count name ≤ 1) (v : Value) :
    ∃ p : Parameter, p.name = name ∧ x.Alone p ∧ (p ∈ x.parameters ∨ ∀ w, p.check v ≠ .ok w) := by
  have hlength : (x.parameters.filter fun q ↦ q.name == name).length ≤ 1 := by
    have hcount := Nat.le_trans (h.count_le name) honce
    rwa [List.count, List.countP_map, List.countP_eq_length_filter] at hcount
  have hmem (q : Parameter) : q ∈ (x.parameters.filter fun q ↦ q.name == name) ↔
      q ∈ x.parameters ∧ q.name = name := by
    simp
  match hfound : x.parameters.filter fun q ↦ q.name == name with
  | [] =>
    obtain ⟨p, hp, hrefuses⟩ := exists_refuses name v
    refine ⟨p, hp, fun q hq hname ↦ ?_, .inr hrefuses⟩
    have hq := (hmem q).mpr ⟨hq, hname.trans hp⟩
    rw [hfound] at hq
    cases hq
  | [p] =>
    obtain ⟨hp, rfl⟩ := (hmem p).mp (hfound ▸ List.mem_singleton_self p)
    refine ⟨p, rfl, fun q hq hname ↦ ?_, .inl hp⟩
    have hq := (hmem q).mpr ⟨hq, hname⟩
    rw [hfound] at hq
    exact List.mem_singleton.mp hq
  | _ :: _ :: _ =>
    rw [hfound] at hlength
    exact absurd hlength (by simp)

/-- Names are distinct if one of them stands there once at most and the others are distinct. -/
theorem nodup_of_filter {ps : List Parameter} {name : String}
    (honce : (ps.map Parameter.name).count name ≤ 1)
    (hothers : ((ps.filter fun p ↦ p.name != name).map Parameter.name).Nodup) :
    (ps.map Parameter.name).Nodup := by
  have hfilter : (ps.filter fun p ↦ p.name != name).map Parameter.name =
      (ps.map Parameter.name).filter (· != name) := by
    rw [List.filter_map]
    rfl
  rw [List.nodup_iff_count_le_one] at hothers ⊢
  intro other
  by_cases hother : other = name
  · rw [hother]
    exact honce
  · have hkept : (other != name) = true := bne_iff_ne.mpr hother
    have hcount := hothers other
    rwa [hfilter, List.count_filter (p := (· != name)) hkept] at hcount

/-- Bindings of the parameter alone. -/
theorem Supplies.exists (p : Parameter) (v : Value) : ∃ b', Supplies p v [] b' := by
  refine ⟨((p.check v).toOption.map (p.name, ·)).toList, fun w hw ↦ ?_, fun name hname ↦ ?_⟩
  · rw [hw]
    exact List.lookup_cons_self
  · cases (p.check v).toOption with
    | none => rfl
    | some w =>
      change List.lookup name [(p.name, w)] = none
      rw [List.lookup_cons, beq_eq_false_iff_ne.mpr hname]
      rfl

variable {name : String} {v : Value} {form form' : Language.QueryForm Value Int64}

/-- A query with a literal compiles if and only if the one with a parameter in its place does and
the parameter takes the value of the literal. The two then have the other parameters in common, and
ask the same once these are bound alike and the parameter is bound to what its check makes of the
value. -/
theorem compileQuery_fills (hs : s.WellFormed) (hfills : form.Fills name v form')
    (honce : form'.body.parameterNames.count name ≤ 1) :
    ((∃ q, s.compileQuery form = .ok q) ↔
      ∃ q', s.compileQuery form' = .ok q' ∧ ∀ p ∈ q'.parameters, p.name = name → (p.check v).isOk) ∧
    ∀ q q', s.compileQuery form = .ok q → s.compileQuery form' = .ok q' →
      (q.parameters = q'.parameters.filter fun p ↦ p.name != name) ∧
      ∀ b b' : Bindings, (∀ p ∈ q'.parameters, p.name = name → ∀ w, p.check v = .ok w →
          b'.lookup name = some w) →
        (∀ other, other ≠ name → b'.lookup other = b.lookup other) → q.tree.Same b b' q'.tree := by
  simp only [compileQuery_eq_ok, hfills.entity]
  cases hget : s.get? form.entity with
  | none => exact ⟨iff_of_false nofun nofun, nofun⟩
  | some e =>
    have he := ((Schema.get?_eq_some_iff hs).mp hget).1
    obtain ⟨p, rfl, halone, hor⟩ := (top_names (s := s) (e := e) form'.body).exists_alone honce v
    have hcount : ((top s e form'.body).parameters.map Parameter.name).count p.name ≤ 1 :=
      Nat.le_trans ((top_names form'.body).count_le p.name) honce
    obtain ⟨b₀, hb₀⟩ := Supplies.exists p v
    have hfilled := top_fills hb₀ hs he hfills.body halone
    refine ⟨⟨?_, ?_⟩, ?_⟩
    · rintro ⟨_, _, ⟨⟩, hclean, hnodup, rfl⟩
      obtain ⟨hclean', hcheck⟩ := hfilled.clean.mp hclean
      refine ⟨_, ⟨e, rfl, hclean', ?_, rfl⟩, fun q hq hname ↦ ?_⟩
      · exact nodup_of_filter hcount (hfilled.others hclean ▸ hnodup)
      · obtain rfl := halone q hq hname
        exact hcheck hq
    · rintro ⟨_, ⟨_, ⟨⟩, hclean', hnodup', rfl⟩, hcheck⟩
      have hclean := hfilled.clean.mpr ⟨hclean', fun hp ↦ hcheck p hp rfl⟩
      refine ⟨_, e, rfl, hclean, ?_, rfl⟩
      rw [hfilled.others hclean]
      exact hnodup'.sublist (List.filter_sublist.map _)
    · rintro _ _ ⟨_, ⟨⟩, hclean, -, rfl⟩ ⟨_, ⟨⟩, -, -, rfl⟩
      refine ⟨hfilled.others hclean, fun b b' hgiven hother ↦ ?_⟩
      have hb : Supplies p v b b' := ⟨fun w hw ↦ ?_, hother⟩
      · exact (top_fills hb hs he hfills.body halone).result hclean
      · exact hgiven p (hor.resolve_right fun hrefuses ↦ hrefuses w hw) rfl w hw

end Query

end EntityStore
