import EntityStore.Proofs.Language.Pairs.Queries

/-!
The builder never meets a pair that it does not expect. From the pairs of a text that the grammar
takes it builds what the reader reads from the text. It stops at misspelt literals only, and passes
over nothing but the operators between operands and the end of the text.
-/

set_option autoImplicit false

namespace EntityStore.Language

open EntityStore.Language.Parser

/-- The forms that texts are read as. -/
inductive Form where
  | create
  | update
  | delete
  | query

namespace Form

/-- The syntax trees of a form. -/
def Tree : Form → Type
  | .create => CreateForm Value
  | .update => UpdateForm Value Int64
  | .delete => DeleteForm Int64
  | .query => QueryForm Value Int64

def read : (form : Form) → String → Except SyntaxError form.Tree
  | .create => readCreate
  | .update => readUpdate
  | .delete => readDelete
  | .query => readQuery

/-- The pairs of a whole text. -/
def pairs (form : Form) (depth : Nat) : Parser (List Pair) :=
  List.singleton <$> match form with
    | .create => Pairs.create depth
    | .update => Pairs.update depth
    | .delete => Pairs.delete
    | .query => Pairs.query depth

def build (text : List Char) : (form : Form) → List Pair → Building form.Tree
  | .create => Building.create text
  | .update => Building.update text
  | .delete => Building.delete text
  | .query => Building.query text

/-- The tree that is built from pairs or the errors instead, and the pairs that are left out of
it. -/
def built (form : Form) (text : List Char) (pairs : List Pair) :
    Except (List BuildError) form.Tree × List Pair :=
  let (outcome, passed) := (form.build text pairs).run.run []
  (outcome.mapError fun e ↦ [e], passed)

end Form

variable {text : List Char} {P : Pair}

namespace Builds

variable {pairs : List Pair}

theorem root : Builds text pairs (Building.root [P]) (.ok P) :=
  .after (List.forall_mem_nil _) (.pure P)

theorem next {rest : List Pair} : Builds text pairs (Building.next (P :: rest)) (.ok (P, rest)) :=
  .pure _

end Builds

/-! ### Whole texts -/

namespace Pairs

theorem coupled_endOfText : Coupled text (spaced .endOfText atEnd) endOfText fun _ P ↦ IsEnd P := by
  have hbody : Coupled text atEnd (do atEnd; pure []) fun _ (_ : List Pair) ↦ True :=
    (coupled_self fun _ ↦ consumes_atEnd).bind_pure fun _ _ _ ↦ trivial
  exact hbody.branch.mono fun _ _ h ↦ h.1

/-- The pairs inside of the pair of a creation. -/
def CreatePairs (text : List Char) (x : CreateForm Token) (ps : List Pair) : Prop :=
  ∃ entity body ending, ps = [entity, body, ending] ∧ entity.text = x.entity ∧
    List.Forall₂ (BuildsEntry text) x.body body.inner ∧ IsEnd ending

theorem coupled_create (depth : Nat) :
    Coupled text (Grammar.create depth) (create depth) fun form P ↦
    Builds text [P] (Building.create text [P]) (do
      let body ← Node.resolveEntries (Token.value text) form.body
      pure ⟨form.entity, body⟩) := by
  have hbody : Coupled text
      (do
        skip; let entity ← Grammar.name; skip; let body ← Grammar.object (Grammar.value depth); skip
        spaced .endOfText atEnd; pure (⟨entity, body⟩ : CreateForm Token))
      (do
        skip; let entity ← name; skip; let body ← object (value depth); skip; let ending ← endOfText
        pure [entity, body, ending]) (CreatePairs text) :=
    .afterSkip <| coupled_name.bind fun _ entity hentity ↦ .afterSkip <|
      (coupled_object ((coupled_value depth).mono fun _ _ h ↦ h.2)).bind
        fun _ body ⟨_, hbody⟩ ↦ .afterSkip <|
        coupled_endOfText.bind fun _ ending hending ↦ coupled_pure ⟨entity, body, ending, rfl,
        hentity, hbody, hending⟩
  refine hbody.branch.mono ?_
  rintro x P ⟨-, entity, body, ending, hinner, hentity, hbody, hending⟩
  have hentries := (builds_entries hbody).inside.child (P := P) (by simp [hinner])
  refine Builds.bind_ok .root ?_
  rw [hinner, ← hentity]
  exact .bind_ok .next <| .bind_ok .next <| .after hending.isMark <| hentries.bind fun _ _ ↦ .pure _

/-- The pairs inside of the pair of an update. -/
def UpdatePairs (text : List Char) (x : UpdateForm Token Token) (ps : List Pair) : Prop :=
  ∃ entity row body ending, ps = [entity, row, body, ending] ∧ entity.text = x.entity ∧
    BuildsTarget text x.target row ∧ List.Forall₂ (BuildsChange text) x.body body.inner ∧
    IsEnd ending

theorem coupled_update (depth : Nat) :
    Coupled text (Grammar.update depth) (update depth) fun form P ↦
    Builds text [P] (Building.update text [P]) (do
      let body ← form.body.mapM fun (key, entry) ↦ do
        pure (key, ← entry.resolve (Token.value text))
      let target ← form.target.resolve (Token.integer text)
      pure ⟨form.entity, target, body⟩) := by
  have hbody : Coupled text
      (do skip; let entity ← Grammar.name; skip; let target ← Grammar.target; skip
          let body ← Grammar.updateBody depth; skip; spaced .endOfText atEnd
          pure (⟨entity, target, body⟩ : UpdateForm Token Token))
      (do
        skip; let entity ← name; skip; let target ← target; skip; let body ← updateBody depth; skip
        let ending ← endOfText; pure [entity, target, body, ending]) (UpdatePairs text) :=
    .afterSkip <| coupled_name.bind fun _ entity hentity ↦ .afterSkip <|
      coupled_target.bind fun _ row hrow ↦
      .afterSkip <| (coupled_updateBody depth).bind fun _ body hbody ↦ .afterSkip <|
      coupled_endOfText.bind fun _ ending hending ↦
      coupled_pure ⟨entity, row, body, ending, rfl, hentity, hrow, hbody, hending⟩
  refine hbody.branch.mono ?_
  rintro x P ⟨-, entity, row, body, ending, hinner, hentity, hrow, hbody, hending⟩
  have hchanges := (builds_changes hbody).inside.child (P := P) (by simp [hinner])
  have htarget := Builds.child (P := P) hrow (by simp [hinner])
  refine Builds.bind_ok .root ?_
  rw [hinner, ← hentity]
  exact .bind_ok .next <| .bind_ok .next <| .bind_ok .next <| .after hending.isMark <|
    hchanges.bind fun _ _ ↦ htarget.bind fun _ _ ↦ .pure _

/-- The pairs inside of the pair of a deletion. -/
def DeletePairs (text : List Char) (x : DeleteForm Token) (ps : List Pair) : Prop :=
  ∃ entity row ending, ps = [entity, row, ending] ∧ entity.text = x.entity ∧
    BuildsTarget text x.target row ∧ IsEnd ending

theorem coupled_delete : Coupled text Grammar.delete delete fun form P ↦
    Builds text [P] (Building.delete text [P]) (do
      let target ← form.target.resolve (Token.integer text)
      pure ⟨form.entity, target⟩) := by
  have hbody : Coupled text
      (do
        skip; let entity ← Grammar.name; skip; let target ← Grammar.target; skip
        spaced .endOfText atEnd; pure (⟨entity, target⟩ : DeleteForm Token))
      (do
        skip; let entity ← name; skip; let target ← target; skip; let ending ← endOfText
        pure [entity, target, ending]) (DeletePairs text) :=
    .afterSkip <| coupled_name.bind fun _ entity hentity ↦ .afterSkip <|
      coupled_target.bind fun _ row hrow ↦
      .afterSkip <| coupled_endOfText.bind fun _ ending hending ↦
      coupled_pure ⟨entity, row, ending, rfl, hentity, hrow, hending⟩
  refine hbody.branch.mono ?_
  rintro x P ⟨-, entity, row, ending, hinner, hentity, hrow, hending⟩
  have htarget := Builds.child (P := P) hrow (by simp [hinner])
  refine Builds.bind_ok .root ?_
  rw [hinner, ← hentity]
  exact .bind_ok .next <| .bind_ok .next <| .after hending.isMark <| htarget.bind fun _ _ ↦ .pure _

/-- The pairs inside of the pair of a query. -/
def QueryPairs (text : List Char) (x : QueryForm Token Token) (ps : List Pair) : Prop :=
  ∃ entity body ending, ps = entity :: body ++ [ending] ∧ entity.text = x.entity ∧
    BuildsLevel text x.body body ∧ IsEnd ending

theorem coupled_query (depth : Nat) : Coupled text (Grammar.query depth) (query depth) fun form P ↦
    Builds text [P] (Building.query text [P]) (do
      let body ← form.body.resolve (Token.value text) (Token.integer text)
      pure ⟨form.entity, body⟩) := by
  have hbody : Coupled text
      (do skip; let entity ← Grammar.name; skip
          let body ← Grammar.level depth (Grammar.selection depth depth); skip
          spaced .endOfText atEnd
          pure (⟨entity, body⟩ : QueryForm Token Token))
      (do skip; let entity ← name; skip; let body ← level depth (selection depth depth); skip
          let ending ← endOfText; pure (entity :: body ++ [ending])) (QueryPairs text) :=
    .afterSkip <| coupled_name.bind fun _ entity hentity ↦ .afterSkip <|
      (coupled_level (coupled_selection depth depth)).bind fun _ body hbody ↦ .afterSkip <|
      coupled_endOfText.bind fun _ ending hending ↦ coupled_pure ⟨entity, body, ending, rfl,
        hentity, hbody, hending⟩
  refine hbody.branch.mono ?_
  rintro x P ⟨-, entity, body, ending, hinner, hentity, hbody, hending⟩
  have hlevel : Builds text P.inner _ _ :=
    (hbody [ending] (List.forall_mem_singleton.mpr hending)).mono (by simp [hinner])
  refine Builds.bind_ok .root ?_
  rw [hinner, ← hentity]
  exact .bind_ok .next <| hlevel.inside.bind fun _ _ ↦ .pure _

end Pairs

/-! ### Texts that the grammar takes -/

/-- Rules that run in step take the same texts and fail alike. -/
theorem parse_coupled {α β : Type} {p : Nat → Parser α} {q : Nat → Parser β} {R : α → β → Prop}
    (h : ∀ depth, Coupled text (p depth) (q depth) R) :
    Except.Both Eq R (parse p text) (parse q text) := by
  unfold parse Parser.run
  obtain ⟨a, hp, hq⟩ | ⟨x, y, c, a, hp, hq, -, hR⟩ :=
    h (text.length + 1) .spaced ⟨0, text⟩ .start ⟨[], rfl, rfl⟩
  · rw [hp, hq]
    exact .error rfl
  · rw [hp, hq]
    exact .ok hR

/-- The reader refuses a text as the grammar of its pairs does, or reads what is built from its
pairs. -/
inductive Follows {β : Type} (text : List Char) (build : List Pair → Building β)
    (read : Except SyntaxError β) :
    Except SyntaxError (List Pair) → Prop where
  | refused {e : SyntaxError} (h : read = .error e) : Follows text build read (.error e)
  | accepted {pairs : List Pair} (h : Builds text pairs (build pairs) read) :
      Follows text build read (.ok pairs)

theorem follows_parsed {α β : Type} {p : Nat → Parser α} {q : Nat → Parser Pair}
    {build : List Pair → Building β} {resolve : α → Except SyntaxError β}
    (h : ∀ depth, Coupled text (p depth) (q depth) fun x P ↦ Builds text [P]
      (build [P]) (resolve x)) :
    Follows text build (parse p text >>= resolve)
      (parse (fun depth ↦ List.singleton <$> q depth) text) := by
  have hpairs (depth : Nat) : Coupled text (p depth) (List.singleton <$> q depth)
      fun x ps ↦ Builds text ps (build ps) (resolve x) :=
    (h depth).bind_pure fun _ _ hP ↦ hP
  -- both parse the same text with the same bound, so that they end alike
  have hboth := parse_coupled hpairs
  generalize parse p text = r, parse (fun depth ↦ List.singleton <$> q depth) text = s at hboth ⊢
  cases hboth with
  | ok hR => exact .accepted hR
  | error he => exact .refused (congrArg Except.error he)

namespace Form

theorem follows (form : Form) (text : String) :
    Follows text.toList (form.build text.toList) (form.read text)
      (parse form.pairs text.toList) := by
  cases form with
  | create =>
    have h := follows_parsed (@Pairs.coupled_create text.toList)
    exact h
  | update =>
    have h := follows_parsed (@Pairs.coupled_update text.toList)
    exact h
  | delete =>
    have h := follows_parsed fun _ ↦ @Pairs.coupled_delete text.toList
    exact h
  | query =>
    have h := follows_parsed (@Pairs.coupled_query text.toList)
    exact h

/-- What becomes of a text, by the pairs that the grammar gives of it. A text that is refused is
refused alike by the reader. From the pairs of any other text a tree is built, or one error is
reported: that of a literal out of its range, where it begins. What is left out of the tree are
marks, and the tree is the one that the reader gives. -/
inductive Settled (form : Form) (text : String) : Except SyntaxError (List Pair) → Prop where
  | refused {e : SyntaxError} (hread : form.read text = .error e) : Settled form text (.error e)
  | accepted {pairs : List Pair} (houtcome : (∃ tree, (form.built text.toList pairs).1 = .ok tree) ∨
        ∃ e, (form.built text.toList pairs).1 = .error [e.built] ∧ Misspells text.toList pairs e)
      (hpassed : ∀ P ∈ (form.built text.toList pairs).2, P.isMark)
      (hread : (form.built text.toList pairs).1 = (form.read text).mapError fun e ↦ [e.built]) :
      Settled form text (.ok pairs)

theorem settled (form : Form) (text : String) :
    form.Settled text (parse form.pairs text.toList) := by
  have h := form.follows text
  generalize parse form.pairs text.toList = pairs at h ⊢
  cases h with
  | refused h => exact .refused h
  | @accepted pairs h =>
    obtain ⟨passed, hmarks, hrun⟩ := h.runs
    have hbuilt : form.built text.toList pairs =
        ((form.read text).mapError fun e ↦ [e.built], passed) := by
      unfold built
      rw [hrun, List.nil_append]
      cases form.read text <;> rfl
    refine .accepted ?_ (hbuilt ▸ hmarks) (congrArg Prod.fst hbuilt)
    rw [hbuilt]
    cases hread : form.read text with
    | ok tree => exact .inl ⟨tree, rfl⟩
    | error e => exact .inr ⟨e, rfl, h.faults e hread⟩

end Form

end EntityStore.Language
