import EntityStore.Proofs.Language.Pairs.Coupled

/-!
The builder does with pairs what the reader does with the syntax tree of the same text. It gives the
same value or stops at the same fault, which is a literal that is out of its range, where it begins;
the pairs that it passes over are marks. It never meets a pair that it does not expect: here for
literals, nodes, numbers, parameters and changes of rows.
-/

set_option autoImplicit false

namespace EntityStore.Language

section

/-- A literal that spells nothing in its range, with the error that says so at its first
character. -/
inductive Misspelt (text : List Char) (P : Pair) : SyntaxError → Prop where
  | integer {n : Int} (hpart : P.part = .rule .integer) (hcs : SpellsInteger P.chars n)
      (hrange : n < Int64.minValue.toInt ∨ Int64.maxValue.toInt < n) :
      Misspelt text P (.at text P.offset (.integerRange P.text))
  | time {cs : List Char} {e : CalendarError} (hpart : P.part = .rule .time)
      (hcs : P.chars = '#' :: cs) (hread : TimeOfDay.read cs = .error e) :
      Misspelt text P (.at text P.offset (.invalidTime P.text))
  | date {cs : List Char} {e : CalendarError} (hpart : P.part = .rule .date)
      (hcs : P.chars = '#' :: cs) (hread : Date.read cs = .error e) :
      Misspelt text P (.at text P.offset (.invalidDate P.text))
  | dateTime {cs : List Char} {e : CalendarError} (hpart : P.part = .rule .dateTime)
      (hcs : P.chars = '#' :: cs) (hread : DateTime.read cs = .error e) :
      Misspelt text P (.at text P.offset (.invalidDateTime P.text))

/-- The error is that of a misspelt literal among the pairs. -/
def Misspells (text : List Char) (pairs : List Pair) (e : SyntaxError) : Prop :=
  ∃ P : Pair, P.Under pairs ∧ P.StandsIn text ∧ Misspelt text P e

theorem Misspells.mono {text : List Char} {pairs pairs' : List Pair} {e : SyntaxError}
    (h : Misspells text pairs e) (hsub : pairs ⊆ pairs') : Misspells text pairs' e := by
  obtain ⟨P, hunder, hrest⟩ := h
  exact ⟨P, hunder.mono hsub, hrest⟩

/-- A misspelt literal inside of one of the pairs. -/
theorem Misspells.inside {text : List Char} {P : Pair} {e : SyntaxError}
    (h : Misspells text P.inner e) :
    Misspells text [P] e := by
  obtain ⟨Q, hunder, hrest⟩ := h
  exact ⟨Q, .inside List.mem_cons_self hunder, hrest⟩

variable {α β γ : Type} {text : List Char} {pairs pairs' : List Pair} {b : Building α}
  {r : Except SyntaxError α}

/-- A builder gives what the reader gives. -/
structure Builds (text : List Char) (pairs : List Pair) (b : Building α)
    (r : Except SyntaxError α) : Prop where
  runs : ∃ passed : List Pair, (∀ P ∈ passed, P.isMark) ∧
    ∀ before, b.run.run before = (r.mapError SyntaxError.built, before ++ passed)
  faults : ∀ e, r = .error e → Misspells text pairs e

namespace Builds

theorem of_pairs (h : Builds text pairs b r)
    (hpairs : ∀ e, Misspells text pairs e → Misspells text pairs' e) :
    Builds text pairs' b r :=
  ⟨h.runs, fun e he ↦ hpairs e (h.faults e he)⟩

theorem mono (h : Builds text pairs b r) (hsub : pairs ⊆ pairs') : Builds text pairs' b r :=
  h.of_pairs fun _ he ↦ he.mono hsub

theorem inside {P : Pair} (h : Builds text P.inner b r) : Builds text [P] b r :=
  h.of_pairs fun _ he ↦ he.inside

/-- What is built from one of the pairs. -/
theorem of_mem {P : Pair} (h : Builds text [P] b r) (hP : P ∈ pairs) : Builds text pairs b r :=
  h.mono fun _ hQ ↦ List.mem_singleton.mp hQ ▸ hP

/-- What is built from a pair is built from the pair around it. -/
theorem child {P Q : Pair} (h : Builds text [Q] b r) (hQ : Q ∈ P.inner) : Builds text [P] b r :=
  (h.of_mem hQ).inside

theorem pure (x : α) : Builds text pairs (Pure.pure x) (.ok x) :=
  ⟨⟨[], nofun, fun before ↦ by rw [List.append_nil]; rfl⟩, nofun⟩

theorem bind {f : α → Building β} {g : α → Except SyntaxError β} (h : Builds text pairs b r)
    (hf : ∀ x, r = .ok x → Builds text pairs (f x) (g x)) :
    Builds text pairs (b >>= f) (r >>= g) := by
  obtain ⟨passed, hmarks, hrun⟩ := h.runs
  cases r with
  | error e =>
    refine ⟨⟨passed, hmarks, fun before ↦ ?_⟩, fun e' he ↦ h.faults e' (by cases he; rfl)⟩
    simp only [ExceptT.run_bind, StateT.run_bind, hrun, Except.mapError]
    rfl
  | ok x =>
    obtain ⟨more, hmarks', hrun'⟩ := (hf x rfl).runs
    refine ⟨⟨passed ++ more, ?_, fun before ↦ ?_⟩, (hf x rfl).faults⟩
    · exact fun P hP ↦ (List.mem_append.mp hP).elim (hmarks P) (hmarks' P)
    · simp only [ExceptT.run_bind, StateT.run_bind, hrun, Except.mapError]
      rw [← List.append_assoc]
      exact hrun' _

/-- A step that gives its result whatever the text. -/
theorem bind_ok {x : α} {f : α → Building β} {s : Except SyntaxError β}
    (h : Builds text pairs b (.ok x)) (hf : Builds text pairs (f x) s) :
    Builds text pairs (b >>= f) s := by
  refine h.bind (g := fun _ ↦ s) ?_
  rintro _ ⟨⟩
  exact hf

theorem map {f : α → β} (h : Builds text pairs b r) : Builds text pairs (f <$> b) (r.map f) := by
  have hbind := h.bind fun x _ ↦ Builds.pure (f x)
  cases r <;> exact hbind

/-- Marks are passed over. -/
theorem pass {passed : List Pair} (h : ∀ P ∈ passed, P.isMark) :
    Builds text pairs (Building.pass passed) (.ok ()) :=
  ⟨⟨passed, h, fun _ ↦ rfl⟩, nofun⟩

/-- Marks are passed over first. -/
theorem after {passed : List Pair} {b : Building α} (hpassed : ∀ P ∈ passed, P.isMark)
    (h : Builds text pairs b r) :
    Builds text pairs (do Building.pass passed; b) r :=
  (Builds.pass hpassed).bind_ok h

/-- The builder stops at a misspelt literal. -/
theorem refuse {P : Pair} {fault : SyntaxFault} (hin : P.StandsIn text)
    (h : Misspelt text P (.at text P.offset fault)) :
    Builds (α := α) text [P] (Building.refuse text P.offset (.ofText fault))
      (.error (.at text P.offset fault)) := by
  refine ⟨⟨[], nofun, fun before ↦ ?_⟩, ?_⟩
  · rw [List.append_nil]
    rfl
  · rintro e ⟨⟩
    exact ⟨P, .here List.mem_cons_self, hin, h⟩

end Builds

end

open EntityStore.Language.Parser

variable {α : Type} {text : List Char} {P : Pair} {ps : List Pair} {t : Token}

/-! ### Literals -/

theorem int64?_eq_none {n : Int} (h : int64? n = none) :
    n < Int64.minValue.toInt ∨ Int64.maxValue.toInt < n := by
  unfold int64? at h
  split at h
  · cases h
  · omega

/-- The pair of an integer is built as its token is read. -/
structure BuildsInteger (text : List Char) (t : Token) (P : Pair) : Prop where
  part : P.part = .rule .integer
  kind : t.kind = .integer
  builds : Builds text [P] (Building.integer text P) (t.integer text)

/-- The pair of a literal is built as its token is read. -/
def BuildsLiteral (text : List Char) (t : Token) (P : Pair) : Prop :=
  Builds text [P] (Building.literal text P) (t.value text)

/-- The pair of a node is built as the node is read. -/
def BuildsNode (text : List Char) (n : Node Token) (P : Pair) : Prop :=
  Builds text [P] (Building.node text P) (n.resolve (Token.value text))

/-- The rules of literals. -/
def literalRules : List Rule :=
  [.null, .boolean, .integer, .float, .text, .time, .date, .dateTime]

theorem Building.node_literal {rule : Rule} (h : P.part = .rule rule)
    (hrule : rule ∈ literalRules) :
    Building.node text P = Node.literal <$> Building.literal text P := by
  obtain ⟨part, offset, cs, inner⟩ := P
  cases h
  simp only [literalRules, List.mem_cons, List.not_mem_nil, or_false] at hrule
  obtain rfl | rfl | rfl | rfl | rfl | rfl | rfl | rfl := hrule <;> rfl

theorem BuildsLiteral.node {rule : Rule} (hpart : P.part = .rule rule) (hrule : rule ∈ literalRules)
    (h : BuildsLiteral text t P) : BuildsNode text (.literal t) P := by
  unfold BuildsNode
  rw [Building.node_literal hpart hrule]
  exact h.map

theorem BuildsInteger.literal (h : BuildsInteger text t P) : BuildsLiteral text t P := by
  have hlong := h.builds.map (f := Value.long)
  unfold BuildsLiteral Building.literal Token.value
  rw [h.part, h.kind]
  exact hlong

namespace Pairs

theorem coupled_integer : Coupled text Grammar.integer integer (BuildsInteger text) := by
  refine (coupled_leaf fun _ ↦ Grammar.consumes_integer).mono ?_
  rintro _ P ⟨hpart, hin, rfl, n, hcs⟩
  refine ⟨hpart, rfl, ?_⟩
  unfold Building.integer Token.integer
  rw [hcs.long?, hcs.value?]
  cases hn : int64? n with
  | some w => exact .pure w
  | none => exact .refuse hin (.integer hpart hcs (int64?_eq_none hn))

/-- The pair of a literal that is a lexeme. -/
theorem coupled_literal {rule : Rule} {p : Parser Token} {S : Nat → List Char → Token → Prop}
    (hrule : rule ∈ literalRules) (hp : ∀ m, Consumes m p S)
    (hbuilds : ∀ t P, P.part = .rule rule → P.StandsIn text → S P.offset P.chars t →
      BuildsLiteral text t P) :
    Coupled text p (leaf rule p) fun t ↦ BuildsNode text (.literal t) :=
  (coupled_leaf hp).mono fun t P ⟨hpart, hin, ht⟩ ↦ (hbuilds t P hpart hin ht).node hpart hrule

theorem coupled_null : Coupled text Grammar.null (leaf .null Grammar.null) fun t ↦ BuildsNode text
    (.literal t) := by
  refine coupled_literal (by decide) (fun _ ↦ Grammar.consumes_null) ?_
  rintro _ P hpart - rfl
  unfold BuildsLiteral Building.literal
  rw [hpart]
  exact .pure _

theorem coupled_boolean :
    Coupled text Grammar.boolean (leaf .boolean Grammar.boolean) fun t ↦
      BuildsNode text (.literal t) := by
  refine coupled_literal (by decide) (fun _ ↦ Grammar.consumes_boolean) ?_
  rintro _ P hpart - rfl
  unfold BuildsLiteral Building.literal
  rw [hpart]
  exact .pure _

theorem coupled_float :
    Coupled text Grammar.float (leaf .float Grammar.float) fun t ↦
      BuildsNode text (.literal t) := by
  refine coupled_literal (by decide) (fun _ ↦ Grammar.consumes_float) ?_
  rintro _ P hpart - ⟨rfl, hcs⟩
  obtain ⟨x, hx⟩ := hcs.ofText?
  have hP : Binary.ofText? .double P.text = some x := hx
  unfold BuildsLiteral Building.literal Token.value
  rw [hpart]
  dsimp only
  rw [hP, hx]
  exact .pure _

/-- A literal of the calendar is built, or it is misspelt. -/
theorem coupled_calendar {rule : Rule} {kind : LiteralKind} {p : Parser Token}
    {fault : String → SyntaxFault} {read : List Char → Except CalendarError α} {make : α → Value}
    (hrule : rule ∈ literalRules)
    (hp : ∀ m, Consumes m p fun o cs t ↦ t = ⟨kind, o, cs⟩ ∧ ∃ ds, cs = '#' :: ds)
    (hliteral : ∀ P : Pair, P.part = .rule rule →
      Building.literal text P = make <$> Building.calendar text P read fault)
    (hvalue : ∀ o cs, Token.value text ⟨kind, o, cs⟩ =
      (Token.calendar text ⟨kind, o, cs⟩ read fault).map make)
    (hfault : ∀ (P : Pair) ds e, P.part = .rule rule → P.chars = '#' :: ds → read ds = .error e →
      Misspelt text P (.at text P.offset (fault P.text))) :
    Coupled text p (leaf rule p) fun t ↦ BuildsNode text (.literal t) := by
  refine coupled_literal hrule hp ?_
  rintro _ P hpart hin ⟨rfl, ds, hcs⟩
  have hdrop : P.chars.drop 1 = ds := by rw [hcs]; rfl
  unfold BuildsLiteral
  rw [hliteral P hpart, hvalue]
  refine Builds.map ?_
  unfold Building.calendar Token.calendar
  dsimp only
  rw [hdrop]
  cases hread : read ds with
  | ok a => exact .pure a
  | error e => exact .refuse hin (hfault P ds e hpart hcs hread)

theorem coupled_time : Coupled text Grammar.time (leaf .time Grammar.time) fun t ↦ BuildsNode text
    (.literal t) :=
  coupled_calendar (by decide) (fun _ ↦ Grammar.consumes_time)
    (fun P h ↦ by unfold Building.literal; rw [h]) (fun _ _ ↦ rfl) fun _ _ _ ↦ .time

theorem coupled_date : Coupled text Grammar.date (leaf .date Grammar.date) fun t ↦ BuildsNode text
    (.literal t) :=
  coupled_calendar (by decide) (fun _ ↦ Grammar.consumes_date)
    (fun P h ↦ by unfold Building.literal; rw [h]) (fun _ _ ↦ rfl) fun _ _ _ ↦ .date

theorem coupled_dateTime :
    Coupled text Grammar.dateTime (leaf .dateTime Grammar.dateTime) fun t ↦
      BuildsNode text (.literal t) :=
  coupled_calendar (by decide) (fun _ ↦ Grammar.consumes_dateTime)
    (fun P h ↦ by unfold Building.literal; rw [h]) (fun _ _ ↦ rfl) fun _ _ _ ↦ .dateTime

/-- A single pair spans its characters. -/
theorem span_single (hin : P.StandsIn text) : Building.span text [P] = P.chars := by
  obtain ⟨before, after, rfl, hlength⟩ := hin
  simp [Building.span, ← hlength]

theorem coupled_text :
    Coupled text Grammar.text Pairs.text fun t ↦ BuildsNode text (.literal t) := by
  have hchars : ∀ m, Consumes m (many Grammar.textChar) fun _ _ _ ↦ True :=
    fun _ ↦ Grammar.consumes_textChar.many.mono fun _ _ _ _ ↦ trivial
  have hbody : Coupled text (do
      let start ← captured (word "\"")
      let inner ← captured (many Grammar.textChar)
      word "\""
      pure (⟨.text, start.1, inner.2⟩ : Token)) (do
      word "\""
      let inner ← paired .inner do
        let _ ← many Grammar.textChar
        pure []
      word "\""
      pure [inner]) fun t ps ↦ ∃ P, ps = [P] ∧ P.StandsIn text ∧ t.kind = .text ∧
      P.chars = t.chars :=
    (coupled_word "\"").captured.bind fun _ _ _ ↦ (coupled_captured hchars).bind
      fun x P hinner ↦ .afterWord <| coupled_pure ⟨P, rfl, hinner.1, rfl, hinner.2⟩
  refine hbody.paired.ruleIn.mono ?_
  rintro t P ⟨hpart, Q, hQ, hin, hkind, hchars⟩
  refine BuildsLiteral.node hpart (by decide) ?_
  unfold BuildsLiteral Building.literal Token.value
  rw [hpart, hkind, hQ]
  dsimp only
  rw [span_single hin, hchars]
  exact .pure _

theorem coupled_scalar : Coupled text Grammar.scalar scalar fun t ↦ BuildsNode text (.literal t) :=
  coupled_null.orElse <| coupled_boolean.orElse <| coupled_dateTime.orElse <| coupled_date.orElse <|
    coupled_time.orElse <| coupled_float.orElse <|
    (coupled_integer.mono fun _ _ h ↦ h.literal.node h.part (by decide)).orElse coupled_text

end Pairs

/-! ### Values -/

/-- The pair of a value is built as its node is read. -/
def BuildsValue (text : List Char) (n : Node Token) (P : Pair) : Prop :=
  Builds text [P] (Building.value text P.offset P.inner) (n.resolve (Token.value text))

/-- A pair around the pair of a node. -/
theorem BuildsNode.value {n : Node Token} {Q : Pair} (h : BuildsNode text n Q)
    (hP : P.inner = [Q]) :
    BuildsValue text n P := by
  unfold BuildsValue
  refine Builds.inside ?_
  rw [hP]
  exact .after (List.forall_mem_nil _) h

theorem BuildsValue.operand {n : Node Token} (h : BuildsValue text n P)
    (hP : P.part = .rule .operand) :
    BuildsNode text n P := by
  obtain ⟨part, offset, cs, inner⟩ := P
  cases hP
  exact h

/-- The pair of an entry holds its name and its value. -/
def BuildsEntry (text : List Char) (e : String × Node Token) (P : Pair) : Prop :=
  ∃ key v, P.inner = [key, v] ∧ key.text = e.1 ∧ BuildsValue text e.2 v

theorem builds_values {ns : List (Node Token)} (h : List.Forall₂ (BuildsValue text) ns ps) :
    Builds text ps (Building.values text ps) (Node.resolveItems (Token.value text) ns) := by
  induction h with
  | nil => exact .pure []
  | @cons n P ns ps hP _ ih =>
    obtain ⟨part, offset, cs, inner⟩ := P
    exact (hP.of_mem List.mem_cons_self).bind fun n _ ↦
        (ih.mono (List.subset_cons_self _ _)).bind fun ns _ ↦
      .pure (n :: ns)

theorem builds_entries {es : List (String × Node Token)}
    (h : List.Forall₂ (BuildsEntry text) es ps) :
    Builds text ps (Building.entries text ps) (Node.resolveEntries (Token.value text) es) := by
  induction h with
  | nil => exact .pure []
  | @cons e P es ps hP _ ih =>
    obtain ⟨part, offset, cs, inner⟩ := P
    obtain ⟨name, n⟩ := e
    obtain ⟨key, ⟨part', offset', cs', inner'⟩, rfl, rfl, hv⟩ := hP
    have hentry :=
      hv.child (P := ⟨part, offset, cs, [key, ⟨part', offset', cs', inner'⟩]⟩) (by simp)
    exact .after (List.forall_mem_nil _) <| (hentry.of_mem List.mem_cons_self).bind fun n _ ↦
      (ih.mono (List.subset_cons_self _ _)).bind fun es _ ↦ .pure ((key.text, n) :: es)

theorem BuildsNode.list {ns : List (Node Token)} (hP : P.part = .rule .list)
    (h : List.Forall₂ (BuildsValue text) ns P.inner) : BuildsNode text (.list ns) P := by
  obtain ⟨part, offset, cs, inner⟩ := P
  cases hP
  unfold BuildsNode
  rw [Building.node, Node.resolve]
  exact (builds_values h).inside.map

theorem BuildsNode.object {es : List (String × Node Token)} (hP : P.part = .rule .object)
    (h : List.Forall₂ (BuildsEntry text) es P.inner) : BuildsNode text (.object es) P := by
  obtain ⟨part, offset, cs, inner⟩ := P
  cases hP
  unfold BuildsNode
  rw [Building.node, Node.resolve]
  exact (builds_entries h).inside.map

theorem BuildsNode.param {name : String} (hP : P.part = .rule .param)
    (h : Building.paramName P.chars = name) :
    BuildsNode text (.param name) P := by
  obtain ⟨part, offset, cs, inner⟩ := P
  cases hP
  cases h
  exact .pure _

namespace Pairs

theorem coupled_name : Coupled text Grammar.name name fun x P ↦ P.text = x :=
  (coupled_leaf fun _ ↦ Grammar.consumes_name).mono fun _ _ ⟨_, _, hx, _⟩ ↦ hx.symm

theorem coupled_ident :
    Coupled text Grammar.ident ident fun x P ↦ P.part = .rule .ident ∧ P.text = x :=
  (coupled_leaf fun _ ↦ Grammar.consumes_ident).mono fun _ _ ⟨hpart, _, hx⟩ ↦ ⟨hpart, hx.symm⟩

theorem coupled_param :
    Coupled text Grammar.param param fun x P ↦ P.part = .rule .param ∧
    Building.paramName P.chars = x := by
  have hbody : Coupled text (do word "?"; Grammar.name) (do word "?"; let name ← name; pure [name])
      fun _ _ ↦ True :=
    .afterWord <| coupled_name.bind_pure fun _ _ _ ↦ trivial
  exact ((hbody.spanned fun _ ↦ Grammar.consumes_paramName).mono
    fun _ _ ⟨hpart, _, _, hx⟩ ↦ ⟨hpart, hx⟩).ruleIn

theorem coupled_scalarNode : Coupled text (Node.literal <$> Grammar.scalar) scalar
    (BuildsNode text) :=
  coupled_scalar.map_left fun _ _ h ↦ h

theorem coupled_paramNode : Coupled text (Node.param <$> Grammar.param) param (BuildsNode text) :=
  coupled_param.map_left fun _ _ ⟨hpart, hx⟩ ↦ .param hpart hx

theorem coupled_list {p : Parser (Node Token)} {q : Parser Pair}
    (h : Coupled text p q (BuildsValue text)) :
    Coupled text (Node.list <$> Grammar.list p) (list q) (BuildsNode text) :=
  (coupled_enclosed h).branch.map_left fun _ _ ⟨hpart, hns⟩ ↦ .list hpart hns

theorem coupled_entry {p : Parser (Node Token)} {q : Parser Pair}
    (h : Coupled text p q (BuildsValue text)) :
    Coupled text (Grammar.entry p) (entry q) (BuildsEntry text) := by
  have hbody : Coupled text
      (do let key ← Grammar.ident; skip; word ":"; skip; let v ← p; pure (key, v))
      (do let key ← ident; skip; word ":"; skip; let v ← q; pure [key, v])
      fun e ps ↦ ∃ key v, ps = [key, v] ∧ key.text = e.1 ∧ BuildsValue text e.2 v :=
    coupled_ident.bind fun _ key ⟨_, hkey⟩ ↦ .afterSkip <| .afterWord <|
        .afterSkip <| h.bind fun _ v hv ↦
      coupled_pure ⟨key, v, rfl, hkey, hv⟩
  exact hbody.branch.mono fun _ _ ⟨_, h⟩ ↦ h

theorem coupled_object {p : Parser (Node Token)} {q : Parser Pair}
    (h : Coupled text p q (BuildsValue text)) :
    Coupled text (Grammar.object p) (object q)
      fun es P ↦ P.part = .rule .object ∧ List.Forall₂ (BuildsEntry text) es P.inner :=
  (coupled_enclosed (coupled_entry h)).branch

theorem coupled_value (depth : Nat) :
    Coupled text (Grammar.value depth) (value depth) fun n P ↦ P.part = .rule .value ∧
    BuildsValue text n P := by
  induction depth with
  | zero => exact coupled_fail
  | succ depth ih =>
    have hvalue := ih.mono fun _ _ h ↦ h.2
    have hobject :=
      (coupled_object hvalue).map_left fun _ _ ⟨hpart, hes⟩ ↦ BuildsNode.object hpart hes
    exact (coupled_choice (coupled_scalarNode.orElse <| coupled_paramNode.orElse <|
      (coupled_list hvalue).orElse hobject)).mono fun _ _ ⟨hpart, _, hinner, hn⟩ ↦
        ⟨hpart, hn.value hinner⟩

/-- The list that holds values of a bounded depth. -/
theorem coupled_listNode (depth : Nat) :
    Coupled text (Node.list <$> Grammar.list (Grammar.value depth)) (list (value depth))
      (BuildsNode text) :=
  coupled_list ((coupled_value depth).mono fun _ _ h ↦ h.2)

end Pairs

/-! ### Numbers and parameters -/

/-- The pair is that of a number or of a parameter. -/
def IsBound {β : Type} (text : List Char) (number : Token → β) (param : String → β) (x : β)
    (P : Pair) : Prop :=
  (∃ t, x = number t ∧ BuildsInteger text t P) ∨
    ∃ name, x = param name ∧ P.part = .rule .param ∧ Building.paramName P.chars = name

theorem IsBound.builds {β γ : Type} {number : Token → β} {param : String → β} {x : β}
    {Q : Pair} {what : String} {number' : Int64 → γ} {param' : String → γ}
    {resolve : β → Except SyntaxError γ} (h : IsBound text number param x Q)
    (hP : P.inner = [Q]) (hnumber : ∀ t, resolve (number t) = (Token.integer text t).map number')
    (hparam : ∀ name, resolve (param name) = .ok (param' name)) :
    Builds text [P] (Building.bound text what P number' param') (resolve x) := by
  unfold Building.bound
  rw [hP]
  refine .after (List.forall_mem_nil _) (Builds.child ?_ (hP ▸ List.mem_cons_self))
  obtain ⟨t, rfl, ht⟩ | ⟨name, rfl, hpart, hname⟩ := h
  · rw [hnumber, ht.part]
    exact ht.builds.map
  · rw [hparam, hpart, ← hname]
    exact .pure _

/-- The pair of a target is built as the target is read. -/
def BuildsTarget (text : List Char) (x : Target Token) (P : Pair) : Prop :=
  Builds text [P] (Building.target text P) (x.resolve (Token.integer text))

/-- The pair of a limit or of a page is built as the bound is read. -/
def BuildsBound (text : List Char) (x : Bound Token) (P : Pair) : Prop :=
  Builds text [P] (Building.limit text P) (x.resolve (Token.integer text))

namespace Pairs

theorem coupled_integerOrParam {β : Type} {number : Token → β} {name : String → β} :
    Coupled text (number <$> Grammar.integer <|> name <$> Grammar.param) (integer <|> param)
      (IsBound text number name) :=
  (coupled_integer.map_left fun t _ ht ↦ .inl ⟨t, rfl, ht⟩).orElse <|
    coupled_param.map_left fun x _ hx ↦ .inr ⟨x, rfl, hx⟩

theorem coupled_target : Coupled text Grammar.target target (BuildsTarget text) := by
  have hequals : Coupled text (word "==" <|> word "=") (word "==" <|> word "=") Eq :=
    (coupled_word "==").orElse (coupled_word "=")
  have hbody : Coupled text
      (do word "@id"; skip; word "==" <|> word "="; skip
          Target.id <$> Grammar.integer <|> Target.param <$> Grammar.param)
      (do word "@id"; skip; word "==" <|> word "="; skip; let P ← integer <|> param; pure [P])
      fun x ps ↦ ∃ P, ps = [P] ∧ IsBound text Target.id Target.param x P :=
    .afterWord <| .afterSkip <| hequals.bind fun _ _ _ ↦ .afterSkip <|
      coupled_integerOrParam.bind_pure fun _ P h ↦ ⟨P, rfl, h⟩
  exact hbody.branch.mono fun x P ⟨_, Q, hinner, hQ⟩ ↦ hQ.builds hinner (fun _ ↦ rfl) fun _ ↦ rfl

theorem coupled_bound {rule : Rule} {first : String} :
    Coupled text (spaced rule do word first; skip; Grammar.bound) (bound rule first)
      fun x P ↦ P.part = .rule rule ∧ BuildsBound text x P := by
  have hbody : Coupled text (do word first; skip; Grammar.bound)
      (do word first; skip; let P ← integer <|> param; pure [P])
      fun x ps ↦ ∃ P, ps = [P] ∧ IsBound text Bound.literal Bound.param x P :=
    .afterWord <| .afterSkip <| coupled_integerOrParam.bind_pure fun _ P h ↦ ⟨P, rfl, h⟩
  exact hbody.branch.mono fun x P ⟨hpart, Q, hinner, hQ⟩ ↦ ⟨hpart,
    hQ.builds hinner (fun _ ↦ rfl) fun _ ↦ rfl⟩

end Pairs

/-! ### Changes of rows -/

/-- The pair of a change holds its name and what it sets or links. -/
def BuildsChange (text : List Char) (e : String × UpdateEntry Token) (P : Pair) : Prop :=
  ∃ key first more, P.inner = key :: first :: more ∧ key.text = e.1 ∧
    Builds text [P] (Building.change text first more) (e.2.resolve (Token.value text))

theorem builds_changes {es : List (String × UpdateEntry Token)}
    (h : List.Forall₂ (BuildsChange text) es ps) :
    Builds text ps (Building.changes text ps)
      (es.mapM fun (key, entry) ↦ do pure (key, ← entry.resolve (Token.value text))) := by
  induction h with
  | nil => exact .pure []
  | @cons e P es ps hP _ ih =>
    obtain ⟨part, offset, cs, inner⟩ := P
    obtain ⟨name, entry⟩ := e
    obtain ⟨key, first, more, rfl, rfl, hentry⟩ := hP
    have hreader : ((key.text, entry) :: es).mapM (fun (key, entry) ↦ do
      pure (key, ← entry.resolve (Token.value text)))
        = (do
          let entry ← entry.resolve (Token.value text)
          let es ← es.mapM fun (key, entry) ↦ do pure (key, ← entry.resolve (Token.value text))
          pure ((key.text, entry) :: es)) := by
      rw [List.mapM_cons]
      simp only [bind_assoc, pure_bind]
    rw [hreader]
    exact (hentry.of_mem List.mem_cons_self).bind fun entry _ ↦
        (ih.mono (List.subset_cons_self _ _)).bind fun es _ ↦
      .pure ((key.text, entry) :: es)

namespace Pairs

theorem coupled_linkValue (depth : Nat) :
    Coupled text (Grammar.linkValue depth) (linkValue depth) fun n P ↦ ∃ Q, P.inner = [Q] ∧
    BuildsNode text n Q := by
  have hinteger : Coupled text Grammar.integerNode integer (BuildsNode text) :=
    coupled_integer.map_left fun _ _ h ↦ h.literal.node h.part (by decide)
  exact (coupled_choice (hinteger.orElse <| coupled_paramNode.orElse (coupled_listNode depth))).mono
    fun _ _ ⟨_, h⟩ ↦ h

/-- The pairs that follow the name of a change. -/
def ChangePairs (text : List Char) (x : UpdateEntry Token) (ps : List Pair) : Prop :=
  ∃ first more, ps = first :: more ∧ Builds text ps (Building.change text first more)
    (x.resolve (Token.value text))

theorem coupled_linkChange (depth : Nat) : Coupled text
    (do
      let op ← Grammar.linkOp; skip; let v ← Grammar.linkValue depth; pure (UpdateEntry.link op v))
    (do let op ← leaf .linkOp Grammar.linkOp; skip; let v ← linkValue depth; pure [op, v])
      (ChangePairs text) := by
  refine (coupled_leaf fun _ ↦ Grammar.consumes_linkOp).bind
    fun _ first ⟨hpart, _, hop⟩ ↦ .afterSkip <|
      (coupled_linkValue depth).bind fun n ⟨part, offset, cs, inner⟩ ⟨Q, hinner, hn⟩ ↦
    coupled_pure ⟨first, _, rfl, ?_⟩
  cases hinner
  cases hop
  have hlinked := hn.child (P := ⟨part, offset, cs, [Q]⟩) List.mem_cons_self
  unfold Building.change
  rw [if_pos hpart]
  exact .after (List.forall_mem_nil _) (hlinked.of_mem (by simp)).map

theorem coupled_setChange (depth : Nat) : Coupled text (UpdateEntry.set <$> Grammar.value depth)
    (List.singleton <$> value depth) (ChangePairs text) := by
  refine (coupled_value depth).map fun n first ⟨hpart, hn⟩ ↦ ⟨first, [], rfl, ?_⟩
  unfold Building.change
  rw [if_neg (by rw [hpart]; decide)]
  exact .after (List.forall_mem_nil _) hn.map

theorem coupled_updateEntry (depth : Nat) :
    Coupled text (Grammar.updateEntry depth) (updateEntry depth) (BuildsChange text) := by
  have hbody : Coupled text
      (do
        let key ← Grammar.ident
        skip
        word ":"
        skip
        let entry ← (do
            let op ← Grammar.linkOp
            skip
            let v ← Grammar.linkValue depth
            pure (UpdateEntry.link op v)) <|> UpdateEntry.set <$> Grammar.value depth
        pure (key, entry))
      (do
        let key ← ident
        skip
        word ":"
        skip
        let entry ← (do
            let op ← leaf .linkOp Grammar.linkOp
            skip
            let v ← linkValue depth
            pure [op, v]) <|> List.singleton <$> value depth
        pure (key :: entry)) fun e ps ↦ ∃ key more, ps = key :: more ∧ key.text = e.1 ∧
        ChangePairs text e.2 more :=
    coupled_ident.bind fun _ key ⟨_, hkey⟩ ↦ .afterSkip <| .afterWord <| .afterSkip <|
      ((coupled_linkChange depth).orElse (coupled_setChange depth)).bind fun _ more hentry ↦
      coupled_pure ⟨key, more, rfl, hkey, hentry⟩
  refine hbody.branch.mono ?_
  rintro e P ⟨-, key, _, hinner, hkey, first, more, rfl, hentry⟩
  refine ⟨key, first, more, hinner, hkey, Builds.inside (hentry.mono ?_)⟩
  rw [hinner]
  exact List.subset_cons_self _ _

theorem coupled_updateBody (depth : Nat) :
    Coupled text (Grammar.updateBody depth) (updateBody depth)
      fun es P ↦ List.Forall₂ (BuildsChange text) es P.inner :=
  (coupled_enclosed (coupled_updateEntry depth)).branch.mono fun _ _ ⟨_, h⟩ ↦ h

end Pairs

end EntityStore.Language
