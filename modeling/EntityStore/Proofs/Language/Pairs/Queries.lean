import EntityStore.Proofs.Language.Pairs.Nodes

/-!
Expressions, the clauses of a level and the items of a selection are built from their pairs as they
are read. Operands are joined from left to right, so what was joined before an operand is an
expression that was read before it.
-/

set_option autoImplicit false

namespace EntityStore.Language

open EntityStore.Language.Parser

variable {text : List Char} {P : Pair} {ps : List Pair}

/-! ### Operands in a row -/

section Joined

variable {α β ε : Type} {f : α → Except ε β} {op : Expr α → Expr α → Expr α}
  {op' : Expr β → Expr β → Expr β}

/-- Both sides of an operator are read, the left one first. -/
def ReadsBoth (f : α → Except ε β) (op : Expr α → Expr α → Expr α)
    (op' : Expr β → Expr β → Expr β) : Prop :=
  ∀ l r, (op l r).resolve f = do pure (op' (← l.resolve f) (← r.resolve f))

/-- What fails on the left fails in whole. -/
theorem ReadsBoth.foldl_error (hop : ReadsBoth f op op') {first : Expr α} {e : ε}
    (h : first.resolve f = .error e) (more : List (Expr α)) :
    (more.foldl op first).resolve f = .error e := by
  induction more generalizing first with
  | nil => exact h
  | cons x more ih =>
    refine ih ?_
    rw [hop, h]
    rfl

/-- What is read from a row of operands, once the first of them is. -/
theorem ReadsBoth.foldl_first (hop : ReadsBoth f op op') (first : Expr α) (more : List (Expr α)) :
    (more.foldl op first).resolve f =
      (do let _ ← first.resolve f; (more.foldl op first).resolve f) := by
  cases h : first.resolve f with
  | error e => exact hop.foldl_error h more
  | ok x => rfl

/-- The next operand is read once what stands left of it is. -/
theorem ReadsBoth.foldl_next (hop : ReadsBoth f op op') {first x : Expr α} {l : Expr β}
    (h : first.resolve f = .ok l) (more : List (Expr α)) :
    (more.foldl op (op first x)).resolve f =
      (do let _ ← x.resolve f; (more.foldl op (op first x)).resolve f) := by
  cases hx : x.resolve f with
  | error e =>
    refine hop.foldl_error ?_ more
    rw [hop, h, hx]
    rfl
  | ok r => rfl

end Joined

/-- The pair of a part of an expression and the step of the builder that takes it. -/
def BuildsExpr (text : List Char) (b : Building (Expr Value)) (x : Expr Token) (P : Pair) : Prop :=
  Builds text [P] b (x.resolve (Token.value text))

/-- The pairs of operands, with the pair of an operator before each but the first. -/
inductive Row (mark : Rule) (Next : Expr Token → Pair → Prop) :
    List (Expr Token) → List Pair → Prop where
  | nil : Row mark Next [] []
  | cons {x : Expr Token} {xs : List (Expr Token)} {O P : Pair} {ps : List Pair}
      (hmark : O.part = .rule mark) (hnext : Next x P) (hrest : Row mark Next xs ps) :
      Row mark Next (x :: xs) (O :: P :: ps)

/-- The pairs of an expression that joins operands. -/
def IsJoined (mark : Rule) (op : Expr Token → Expr Token → Expr Token)
    (Next : Expr Token → Pair → Prop) (x : Expr Token) (ps : List Pair) : Prop :=
  ∃ first more P rest, x = more.foldl op first ∧ ps = P :: rest ∧ Next first P ∧
    Row mark Next more rest

/-- A builder that joins what it builds from pairs to what stands left of them, and passes over the
operators. -/
structure Joins (text : List Char) (mark : Rule) (op : Expr Token → Expr Token → Expr Token)
    (op' : Expr Value → Expr Value → Expr Value) (Next : Expr Token → Pair → Prop)
    (loop : Option (Expr Value) → List Pair → Building (Option (Expr Value))) : Prop where
  reads : ReadsBoth (Token.value text) op op'
  nil : ∀ left, loop left [] = pure left
  next : ∀ x P, Next x P → ∃ b, BuildsExpr text b x P ∧
    ∀ left rest, loop left (P :: rest) = (do let e ← b; loop (Building.joinTo op' left e) rest)
  pass : ∀ P : Pair, P.part = .rule mark → P.isMark ∧
    ∀ left rest, loop left (P :: rest) = (do Building.pass [P]; loop left rest)

namespace Joins

variable {mark : Rule} {op : Expr Token → Expr Token → Expr Token}
  {op' : Expr Value → Expr Value → Expr Value} {Next : Expr Token → Pair → Prop}
  {loop : Option (Expr Value) → List Pair → Building (Option (Expr Value))} {x : Expr Token}

theorem row (h : Joins text mark op op' Next loop) {more : List (Expr Token)}
    (hrow : Row mark Next more ps) {first : Expr Token} {l : Expr Value}
    (hfirst : first.resolve (Token.value text) = .ok l) :
    Builds text ps (loop (some l) ps)
      (((more.foldl op first).resolve (Token.value text)).map some) := by
  induction hrow generalizing first l with
  | nil =>
    rw [h.nil, List.foldl_nil, hfirst]
    exact .pure _
  | @cons x xs O P ps hmark hnext _ ih =>
    obtain ⟨hO, hpass⟩ := h.pass O hmark
    obtain ⟨b, hb, hstep⟩ := h.next x P hnext
    rw [hpass, hstep, List.foldl_cons, h.reads.foldl_next hfirst]
    rw [Except.map_bind]
    refine .after (by simpa using hO) ((Builds.of_mem hb (by simp)).bind fun r hr ↦ ?_)
    have hjoined : (op first x).resolve (Token.value text) = .ok (op' l r) := by
      rw [h.reads, hfirst, hr]
      rfl
    exact (ih hjoined).mono fun _ hQ ↦ by simp [hQ]

theorem builds (h : Joins text mark op op' Next loop)
    (hx : IsJoined mark op Next x P.inner) {what : String} :
    BuildsExpr text (do let e ← loop none P.inner; Building.required text P.offset what e) x P := by
  obtain ⟨first, more, Q, rest, rfl, hinner, hfirst, hrow⟩ := hx
  obtain ⟨b, hb, hstep⟩ := h.next first Q hfirst
  have hloop : Builds text P.inner (loop none P.inner)
      (((more.foldl op first).resolve (Token.value text)).map some) := by
    rw [hinner, hstep, h.reads.foldl_first, Except.map_bind]
    exact (Builds.of_mem hb List.mem_cons_self).bind fun l hl ↦
      (h.row hrow hl).mono (List.subset_cons_self _ _)
  -- the reader has no option to open: asking for a result that is there once more changes nothing
  have hreader (r : Except SyntaxError (Expr Value)) :
    (r.map some >>= fun _ ↦ r) = r := by cases r <;> rfl
  have hbuilt := (Builds.inside hloop).bind (f := Building.required text P.offset what)
    (g := fun _ ↦ (more.foldl op first).resolve (Token.value text)) fun e he ↦ by
      obtain ⟨x, hx, rfl⟩ := Except.map_eq_ok.mp he
      rw [hx]
      exact .pure x
  rw [hreader] at hbuilt
  exact hbuilt

end Joins

theorem reads_and : ReadsBoth (Token.value text) Expr.and Expr.and :=
  fun _ _ ↦ rfl

theorem reads_or : ReadsBoth (Token.value text) Expr.or Expr.or :=
  fun _ _ ↦ rfl

/-! ### Expressions -/

/-- The pair of a term: an expression in parentheses or a predicate. -/
def BuildsTerm (text : List Char) (x : Expr Token) (P : Pair) : Prop :=
  (P.part = .rule .expr ∧ BuildsExpr text (Building.expr text P) x P) ∨
    (P.part = .rule .predicate ∧ BuildsExpr text (Building.predicate text P) x P)

/-- The step of the builder that takes the pair of a conjunction. -/
def Building.andExpr (text : List Char) (P : Pair) : Building (Expr Value) := do
  let e ← Building.conjuncts text none P.inner
  Building.required text P.offset "a predicate" e

def BuildsAndExpr (text : List Char) (x : Expr Token) (P : Pair) : Prop :=
  P.part = .rule .andExpr ∧ BuildsExpr text (Building.andExpr text P) x P

theorem joins_conjuncts : Joins text .andOp Expr.and Expr.and (BuildsTerm text)
    (Building.conjuncts text) where
  reads := reads_and
  nil := fun _ ↦ by rw [Building.conjuncts]
  next := by
    rintro x ⟨part, offset, cs, inner⟩ (⟨rfl, hx⟩ | ⟨rfl, hx⟩)
    · refine ⟨_, hx, fun left rest ↦ ?_⟩
      simp only [Building.conjuncts, Building.expr, bind_assoc]
    · refine ⟨_, hx, fun left rest ↦ ?_⟩
      simp only [Building.conjuncts]
  pass := by
    rintro ⟨part, offset, cs, inner⟩ ⟨⟩
    exact ⟨rfl, fun left rest ↦ by simp only [Building.conjuncts]⟩

theorem joins_disjuncts : Joins text .orOp Expr.or Expr.or (BuildsAndExpr text)
    (Building.disjuncts text) where
  reads := reads_or
  nil := fun _ ↦ by rw [Building.disjuncts]
  next := by
    rintro x ⟨part, offset, cs, inner⟩ ⟨rfl, hx⟩
    refine ⟨_, hx, fun left rest ↦ ?_⟩
    simp only [Building.disjuncts, Building.andExpr, bind_assoc]
  pass := by
    rintro ⟨part, offset, cs, inner⟩ ⟨⟩
    exact ⟨rfl, fun left rest ↦ by simp only [Building.disjuncts]⟩

namespace Pairs

/-- Operands that run in step, with operators that do, make a row. -/
theorem coupled_joined {p : Parser (Expr Token)} {q : Parser Pair} {mark : Rule}
    {o : Parser Unit} {o' : Parser Pair} {op : Expr Token → Expr Token → Expr Token}
    {Next : Expr Token → Pair → Prop} (ho : Coupled text o o' fun _ P ↦ P.part = .rule mark)
    (h : Coupled text p q Next) :
    Coupled text
      (do let first ← p; skip; let more ← star (do o; skip; p); pure (more.foldl op first))
      (joined o' q) (IsJoined mark op Next) := by
  have hnext : Coupled text (do o; skip; p) (do let op ← o'; skip; let next ← q; pure [op, next])
      fun x ps ↦ ∃ O P, ps = [O, P] ∧ O.part = .rule mark ∧ Next x P :=
    ho.bind fun _ O hO ↦ .afterSkip <| h.bind_pure fun _ P hP ↦ ⟨O, P, rfl, hO, hP⟩
  refine h.bind fun first P hP ↦ .afterSkip <| hnext.star.bind fun more rows hrows ↦ coupled_pure ?_
  refine ⟨first, more, P, rows.flatten, rfl, rfl, hP, ?_⟩
  induction hrows with
  | nil => exact .nil
  | cons hrow _ ih =>
    obtain ⟨O, Q, rfl, hO, hQ⟩ := hrow
    exact .cons hO hQ ih

theorem coupled_operand (depth : Nat) : Coupled text (Grammar.operand depth) (operand depth)
    (BuildsNode text) :=
  (coupled_choice (coupled_scalarNode.orElse <|
      coupled_paramNode.orElse (coupled_listNode depth))).mono
    fun _ _ ⟨hpart, _, hinner, hn⟩ ↦ (hn.value hinner).operand hpart

theorem coupled_predicate (depth : Nat) : Coupled text (Grammar.predicate depth) (predicate depth)
    fun x P ↦ P.part = .rule .predicate ∧ BuildsExpr text (Building.predicate text P) x P := by
  have hbody : Coupled text
      (do let path ← Grammar.path; skip; let comparator ← Grammar.comparator; skip
          let operand ← Grammar.operand depth; pure (Expr.predicate path comparator operand))
      (do
        let path ← leaf .path Grammar.path; skip;
          let comparator ← leaf .comparator Grammar.comparator; skip
          let operand ← operand depth; pure [path, comparator, operand])
      fun x ps ↦ ∃ path sign operand n, ps = [path, sign, operand] ∧ BuildsNode text n operand ∧
        x = .predicate ((path.chars.splitOn '.').map String.ofList)
          (Building.comparator sign.chars) n :=
    (coupled_leaf fun _ ↦ Grammar.consumes_path).bind fun _ path ⟨_, _, hpath⟩ ↦ .afterSkip <|
    (coupled_leaf fun _ ↦ Grammar.consumes_comparator).bind fun _ sign ⟨_, _, hsign⟩ ↦ .afterSkip <|
    (coupled_operand depth).bind fun n operand hn ↦
      coupled_pure ⟨path, sign, operand, n, rfl, hn, by rw [hpath, hsign]⟩
  refine hbody.branch.mono ?_
  rintro _ P ⟨hpart, path, sign, operand, n, hinner, hn, rfl⟩
  refine ⟨hpart, ?_⟩
  unfold BuildsExpr Building.predicate
  rw [hinner, Expr.resolve]
  exact .after (List.forall_mem_nil _) (Builds.child hn (by simp [hinner])).map

theorem coupled_expr (depth : Nat) : Coupled text (Grammar.expr depth) (expr depth)
    fun x P ↦ P.part = .rule .expr ∧ BuildsExpr text (Building.expr text P) x P := by
  induction depth with
  | zero => exact coupled_fail
  | succ depth ih =>
    have hand : Coupled text Grammar.andOp (leaf .andOp Grammar.andOp) fun _ P ↦
        P.part = .rule .andOp :=
      (coupled_leaf fun _ ↦ Grammar.consumes_andOp).mono fun _ _ h ↦ h.1
    have hor : Coupled text Grammar.orOp (leaf .orOp Grammar.orOp) fun _ P ↦ P.part = .rule .orOp :=
      (coupled_leaf fun _ ↦ Grammar.consumes_orOp).mono fun _ _ h ↦ h.1
    have hnested : Coupled text
        (do word "("; skip; let e ← Grammar.expr depth; skip; word ")"; pure e)
        (do word "("; skip; let e ← expr depth; skip; word ")"; pure e) (BuildsTerm text) :=
      .afterWord <| .afterSkip <| ih.bind fun _ _ h ↦ .afterSkip <| .afterWord <|
        coupled_pure (.inl h)
    have hterm := hnested.orElse ((coupled_predicate depth).mono fun _ _ h ↦ .inr h)
    have hconjunction := (coupled_joined hand hterm).branch.mono fun x P ⟨hpart, hx⟩ ↦
      (⟨hpart, joins_conjuncts.builds hx⟩ : BuildsAndExpr text x P)
    exact (coupled_joined hor hconjunction).branch.mono
      fun _ _ ⟨hpart, hx⟩ ↦ ⟨hpart, joins_disjuncts.builds hx⟩

end Pairs

/-! ### Selections -/

/-- The pair of an item is built as the item is read. -/
def BuildsItem (text : List Char) (i : Item Token Token) (P : Pair) : Prop :=
  Builds text [P] (Building.item text P) (i.resolve (Token.value text) (Token.integer text))

/-- The pair around the pair of an item. -/
def HoldsItem (text : List Char) (i : Item Token Token) (P : Pair) : Prop :=
  ∃ Q, P.inner = [Q] ∧ BuildsItem text i Q

theorem builds_items {is : List (Item Token Token)} (h : List.Forall₂ (HoldsItem text) is ps) :
    Builds text ps (Building.items text ps)
      (Item.resolveItems (Token.value text) (Token.integer text) is) := by
  induction h with
  | nil => exact .pure []
  | @cons i P is ps hP _ ih =>
    obtain ⟨part, offset, cs, inner⟩ := P
    obtain ⟨Q, rfl, hQ⟩ := hP
    have hitem := hQ.child (P := ⟨part, offset, cs, [Q]⟩) List.mem_cons_self
    exact .after (List.forall_mem_nil _) <| (hitem.of_mem List.mem_cons_self).bind fun i _ ↦
      (ih.mono (List.subset_cons_self _ _)).bind fun is _ ↦ .pure (i :: is)

/-- The pair of a filter holds its expression. -/
def HoldsFilter (text : List Char) (x : Expr Token) (P : Pair) : Prop :=
  P.part = .rule .filter ∧ ∃ Q, P.inner = [Q] ∧ BuildsExpr text (Building.expr text Q) x Q

/-- The pair of a limit or of a page. -/
def HoldsBound (text : List Char) (rule : Rule) (x : Bound Token) (P : Pair) : Prop :=
  P.part = .rule rule ∧ BuildsBound text x P

/-- The pair of a selection holds its items. -/
def HoldsItems (text : List Char) (is : List (Item Token Token)) (P : Pair) : Prop :=
  P.part = .rule .selection ∧ List.Forall₂ (HoldsItem text) is P.inner

/-- A clause that is there or not is built as it is read, and so is what follows it. -/
theorem builds_clause {β γ : Type} {Holds : β → Pair → Prop} {x : Option β} {clause : Option Pair}
    {read : β → Except SyntaxError γ} (level : Option γ → Level Value Int64)
    {rest pairs : List Pair} {k : Option γ → Except SyntaxError (Level Value Int64)}
    (h : Option.Rel Holds x clause) (hsub : clause.toList ⊆ pairs)
    (hstep : ∀ y P, Holds y P → ∃ b, Builds text [P] b (read y) ∧
      Building.level text (level none) (P :: rest) =
        (do let v ← b; Building.level text (level (some v)) rest))
    (hrest : ∀ v, Builds text pairs (Building.level text (level v) rest) (k v)) :
    Builds text pairs (Building.level text (level none) (clause.toList ++ rest))
      (resolveOption read x >>= k) := by
  cases h with
  | none => exact hrest none
  | @some y P hP =>
    obtain ⟨b, hb, hlevel⟩ := hstep y P hP
    have hread : resolveOption read (some y) >>= k = read y >>= fun v ↦ k (some v) :=
      Except.bind_map _ _ _
    rw [hread, Option.toList_some, List.singleton_append, hlevel]
    exact (hb.of_mem (hsub List.mem_cons_self)).bind fun v _ ↦ hrest (some v)

/-- The pair of the end of a text. -/
def IsEnd (P : Pair) : Prop :=
  P.part = .rule .endOfText

theorem IsEnd.isMark (h : IsEnd P) : ∀ Q ∈ [P], Q.isMark := by
  have hpart : P.part = .rule .endOfText := h
  simp [Pair.isMark, hpart]

/-- The pairs of a level, in front of the end of the text or not. -/
def BuildsLevel (text : List Char) (l : Level Token Token) (ps : List Pair) : Prop :=
  ∀ rest : List Pair, (∀ P ∈ rest, IsEnd P) →
    Builds text ps (Building.level text ⟨none, none, none, []⟩ (ps ++ rest))
      (l.resolve (Token.value text) (Token.integer text))

/-- The end of the text is passed over. -/
theorem level_endOfText {body : Level Value Int64} {rest : List Pair} (h : ∀ P ∈ rest, IsEnd P) :
    Builds text ps (Building.level text body rest) (.ok body) := by
  induction rest with
  | nil => exact .pure body
  | cons P rest ih =>
    obtain ⟨hP, hrest⟩ := List.forall_mem_cons.mp h
    obtain ⟨part, offset, cs, inner⟩ := P
    cases hP
    exact .after (IsEnd.isMark rfl) (ih hrest)

theorem builds_level {l : Level Token Token} {filter limit page : Option Pair} {selection : Pair}
    (hfilter : Option.Rel (HoldsFilter text) l.filter filter)
    (hlimit : Option.Rel (HoldsBound text .limit) l.limit limit)
    (hpage : Option.Rel (HoldsBound text .page) l.page page)
    (hitems : HoldsItems text l.items selection) :
    BuildsLevel text l (filter.toList ++ limit.toList ++ page.toList ++ [selection]) := by
  intro rest hend
  have hmore {qs : List Pair} : qs ⊆ limit.toList ++ (page.toList ++ [selection]) →
      qs ⊆ filter.toList ++ (limit.toList ++ (page.toList ++ [selection])) :=
        List.subset_append_of_subset_right _
  have hmost {qs : List Pair} : qs ⊆ page.toList ++ [selection] →
      qs ⊆ filter.toList ++ (limit.toList ++ (page.toList ++ [selection])) :=
    hmore ∘ List.subset_append_of_subset_right _
  simp only [List.append_assoc]
  unfold Level.resolve
  refine builds_clause (fun v ↦ ⟨v, none, none, []⟩) hfilter
      (List.subset_append_left _ _) ?_ fun filter' ↦
    builds_clause (fun v ↦ ⟨filter', v, none, []⟩) hlimit
        (hmore (List.subset_append_left _ _)) ?_ fun limit' ↦
    builds_clause (fun v ↦ ⟨filter', limit', v, []⟩) hpage (hmost (List.subset_append_left _ _)) ?_
      fun page' ↦ ?_
  · rintro y ⟨part, offset, cs, inner⟩ ⟨rfl, Q, rfl, hQ⟩
    refine ⟨_, .after (List.forall_mem_nil _) (Builds.child hQ List.mem_cons_self), ?_⟩
    simp only [Building.level, bind_assoc]
  · rintro y ⟨part, offset, cs, inner⟩ ⟨rfl, hy⟩
    exact ⟨_, hy, by simp only [Building.level]⟩
  · rintro y ⟨part, offset, cs, inner⟩ ⟨rfl, hy⟩
    exact ⟨_, hy, by simp only [Building.level]⟩
  · obtain ⟨part, offset, cs, inner⟩ := selection
    obtain ⟨rfl, hitems⟩ := hitems
    have hbuilt := (builds_items hitems).inside (P := ⟨.rule .selection, offset, cs, inner⟩)
    rw [List.singleton_append, Building.level]
    exact (hbuilt.of_mem (by simp)).bind fun items _ ↦ level_endOfText hend

theorem builds_relation {name : String} {l : Level Token Token} {key : Pair} {ps : List Pair}
    (hP : P.part = .rule .relation) (hinner : P.inner = key :: ps) (hkey : key.text = name)
    (hl : BuildsLevel text l ps) :
    BuildsItem text (.relation name l.filter l.limit l.page l.items) P := by
  have hreader : (Item.relation name l.filter l.limit l.page l.items).resolve (Token.value text)
      (Token.integer text) = (do
        let body ← l.resolve (Token.value text) (Token.integer text)
        pure (.relation name body.filter body.limit body.page body.items)) := by
    simp only [Item.resolve, Level.resolve, bind_assoc, pure_bind]
  have hlevel := hl [] (List.forall_mem_nil _)
  rw [List.append_nil] at hlevel
  have hbody := Builds.inside (P := P) (hlevel.mono (hinner ▸ List.subset_cons_self _ _))
  obtain ⟨part, offset, cs, inner⟩ := P
  cases hP
  cases hinner
  unfold BuildsItem
  rw [hreader, Building.item, ← hkey]
  exact hbody.bind fun body _ ↦ .pure _

/-- The pair of a sort holds its direction and its order. -/
def HoldsSort (text : List Char) (x : Direction × Token) (P : Pair) : Prop :=
  P.part = .rule .sort ∧ ∃ sign order, P.inner = [sign, order] ∧
    Building.direction sign.chars = x.1 ∧ BuildsInteger text x.2 order

theorem field_name {name : String} {key : Pair} {before : String}
    {sort : Option (Direction × Int64)} (hkey : key.part = .rule .ident) (hname : key.text = name) :
    Building.field text before sort [key] = pure (.field name sort) := by
  rw [Building.field, hkey, hname]
  rfl

theorem builds_field {name : String} {sort : Option (Direction × Token)}
    {sorted : Option Pair} {key : Pair} (hP : P.part = .rule .fieldItem)
    (hinner : P.inner = sorted.toList ++ [key]) (hkey : key.part = .rule .ident)
    (hname : key.text = name)
    (hsort : Option.Rel (HoldsSort text) sort sorted) :
    BuildsItem text (.field name sort) P := by
  have hitem : Building.item text P = Building.field text "" none P.inner := by
    obtain ⟨part, offset, cs, inner⟩ := P
    cases hP
    rfl
  unfold BuildsItem
  rw [hitem]
  cases hsort with
  | none =>
    rw [hinner, Option.toList_none, List.nil_append, field_name hkey hname]
    exact .pure _
  | @some x Q hQ =>
    obtain ⟨part, offset, cs, inner⟩ := Q
    obtain ⟨rfl, sign, order, rfl, hsign, horder⟩ := hQ
    have hsort :=
      (horder.builds.child (P := ⟨.rule .sort, offset, cs, [sign, order]⟩) (by simp)).child
      (by rw [hinner]; exact List.mem_cons_self)
    rw [hinner, Option.toList_some, List.singleton_append, Building.field, Item.resolve]
    refine .after (List.forall_mem_nil _) (hsort.bind fun n _ ↦ ?_)
    rw [field_name hkey hname, hsign]
    exact .pure _

theorem builds_all (hP : P.part = .rule .all) : BuildsItem text .all P := by
  obtain ⟨part, offset, cs, inner⟩ := P
  cases hP
  unfold BuildsItem
  rw [Building.item, Item.resolve]
  exact .pure _

namespace Pairs

theorem coupled_filter (depth : Nat) : Coupled text (Grammar.filter depth) (filter depth)
    (HoldsFilter text) := by
  have hbody : Coupled text (do word "|"; skip; let e ← Grammar.expr depth; skip; word "|"; pure e)
      (do word "|"; skip; let e ← expr depth; skip; word "|"; pure [e])
      fun x ps ↦ ∃ Q, ps = [Q] ∧ BuildsExpr text (Building.expr text Q) x Q :=
    .afterWord <| .afterSkip <| (coupled_expr depth).bind fun _ Q ⟨_, hQ⟩ ↦ .afterSkip <|
      .afterWord <| coupled_pure ⟨Q, rfl, hQ⟩
  exact hbody.branch

theorem coupled_sort : Coupled text Grammar.sort sort (HoldsSort text) := by
  have hbody : Coupled text
      (do
        word "("; skip; let direction ← Grammar.direction; skip
        let order ← Grammar.integer; skip; word ")"
        pure (direction, order))
      (do
        word "("; skip; let direction ← leaf .direction Grammar.direction; skip
        let order ← integer; skip; word ")"
        pure [direction, order])
      fun x ps ↦ ∃ sign order, ps = [sign, order] ∧ Building.direction sign.chars = x.1 ∧
        BuildsInteger text x.2 order :=
    .afterWord <| .afterSkip <|
      (coupled_leaf fun _ ↦ Grammar.consumes_direction).bind fun _ sign ⟨_, _, hsign⟩ ↦
      .afterSkip <| coupled_integer.bind fun _ order horder ↦ .afterSkip <| .afterWord <|
      coupled_pure ⟨sign, order, rfl, hsign.symm, horder⟩
  exact hbody.branch

theorem coupled_all : Coupled text Grammar.all all (BuildsItem text) := by
  have hbody : Coupled text (do word "*"; pure Item.all) (do word "*"; pure [])
      fun (x : Item Token Token) (_ : List Pair) ↦ x = .all :=
    .afterWord <| coupled_pure rfl
  refine hbody.branch.mono ?_
  rintro _ P ⟨hpart, rfl⟩
  exact builds_all hpart

/-- The pairs inside of the pair of a field. -/
def FieldPairs (text : List Char) (x : Item Token Token) (ps : List Pair) : Prop :=
  ∃ name sort sorted key, x = .field name sort ∧ ps = Option.toList sorted ++ [key] ∧
    key.part = .rule .ident ∧ key.text = name ∧ Option.Rel (HoldsSort text) sort sorted

theorem coupled_fieldItem : Coupled text Grammar.fieldItem fieldItem (BuildsItem text) := by
  have hbody : Coupled text
      (do
        let sort ← optional Grammar.sort; skip; let name ← Grammar.ident
        pure (Item.field name sort))
      (do let sort ← optional sort; skip; let name ← ident; pure (sort.toList ++ [name]))
      (FieldPairs text) :=
    coupled_sort.optional.bind fun sort sorted hsort ↦ .afterSkip <|
      coupled_ident.bind fun name key ⟨hkey, hname⟩ ↦
      coupled_pure ⟨name, sort, sorted, key, rfl, rfl, hkey, hname, hsort⟩
  refine hbody.branch.mono ?_
  rintro _ P ⟨hpart, name, sort, sorted, key, rfl, hinner, hkey, hname, hsort⟩
  exact builds_field hpart hinner hkey hname hsort

variable {p : Parser (List (Item Token Token))} {q : Parser Pair} {depth : Nat}

theorem coupled_level (h : Coupled text p q (HoldsItems text)) :
    Coupled text (Grammar.level depth p) (level depth q) (BuildsLevel text) :=
  (coupled_filter depth).optional.bind fun _ _ hfilter ↦ .afterSkip <|
      coupled_bound.optional.bind fun _ _ hlimit ↦
    .afterSkip <| coupled_bound.optional.bind fun _ _ hpage ↦ .afterSkip <| h.bind fun _ _ hitems ↦
    coupled_pure (builds_level hfilter hlimit hpage hitems)

/-- The pairs inside of the pair of a relation. -/
def RelationPairs (text : List Char) (x : Item Token Token) (ps : List Pair) : Prop :=
  ∃ name l key qs, x = .relation name (Level.filter l) l.limit l.page l.items ∧
    ps = key :: qs ∧ key.text = name ∧ BuildsLevel text l qs

theorem coupled_relation (h : Coupled text p q (HoldsItems text)) :
    Coupled text (Grammar.relation depth p) (relation depth q) (BuildsItem text) := by
  have hbody : Coupled text
      (do let name ← Grammar.ident; skip; let body ← Grammar.level depth p
          pure (Item.relation name body.filter body.limit body.page body.items))
      (do let name ← ident; skip; let body ← level depth q; pure (name :: body))
        (RelationPairs text) :=
    coupled_ident.bind fun name key ⟨_, hname⟩ ↦ .afterSkip <| (coupled_level h).bind fun l qs hl ↦
      coupled_pure ⟨name, l, key, qs, rfl, rfl, hname, hl⟩
  refine hbody.branch.mono ?_
  rintro _ P ⟨hpart, name, l, key, qs, rfl, hinner, hkey, hl⟩
  exact builds_relation hpart hinner hkey hl

theorem coupled_item (h : Coupled text p q (HoldsItems text)) :
    Coupled text (Grammar.item depth p) (item depth q) (HoldsItem text) :=
  (coupled_choice (coupled_all.orElse <| (coupled_relation h).orElse coupled_fieldItem)).mono
    fun _ _ h ↦ h.2

theorem coupled_selection (depth more : Nat) :
    Coupled text (Grammar.selection depth more) (selection depth more) (HoldsItems text) := by
  induction more with
  | zero => exact coupled_fail
  | succ more ih => exact (coupled_enclosed (coupled_item ih)).branch

end Pairs

end EntityStore.Language
