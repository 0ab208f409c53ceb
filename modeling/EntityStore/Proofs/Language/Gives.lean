import EntityStore.Language.Grammar
import EntityStore.Proofs.Outcome

/-!
What a parser gives at a place of a text. The record of failed rules has no part in it: at a cursor
a parser has one outcome. A parser that begins with characters of a class refuses every text that
does not (`Begins`); where a text is laid out character by character, a parser is followed through
it (`Scans`).
-/

set_option autoImplicit false

namespace EntityStore.Language

namespace Parser

variable {α β : Type} {p q : Parser α} {f : α → Parser β} {m : Mode} {c c' : Cursor}
  {r : Option (α × Cursor)} {s : Option (β × Cursor)} {x : α} {y : β}

/-- At a cursor a parser has an outcome, whatever was recorded before. -/
def Gives (p : Parser α) (m : Mode) (c : Cursor) (r : Option (α × Cursor)) : Prop :=
  ∀ a, (p m c a).1 = r

theorem Gives.eq_some (h : p.Gives m c (some (x, c'))) (a : Attempts) :
    p m c a = (some (x, c'), (p m c a).2) :=
  Prod.ext (h a) rfl

theorem Gives.eq_none (h : p.Gives m c none) (a : Attempts) : p m c a = (none, (p m c a).2) :=
  Prod.ext (h a) rfl

theorem gives_pure (x : α) : (pure x : Parser α).Gives m c (some (x, c)) :=
  fun _ ↦ rfl

theorem gives_fail : (fail : Parser α).Gives m c none :=
  fun _ ↦ rfl

theorem Gives.bind (hp : p.Gives m c (some (x, c'))) (hf : (f x).Gives m c' s) :
    (p >>= f).Gives m c s := by
  intro a
  change (p.andThen f m c a).1 = s
  rw [andThen, hp.eq_some a]
  exact hf _

theorem Gives.bind_none (hp : p.Gives m c none) : (p >>= f).Gives m c none := by
  intro a
  change (p.andThen f m c a).1 = none
  rw [andThen, hp.eq_none a]

theorem Gives.map {g : α → β} (hp : p.Gives m c (some (x, c'))) :
    (g <$> p).Gives m c (some (g x, c')) :=
  hp.bind (gives_pure _)

theorem Gives.map_none {g : α → β} (hp : p.Gives m c none) : (g <$> p).Gives m c none :=
  hp.bind_none

theorem Gives.orElse (hp : p.Gives m c (some (x, c'))) : (p <|> q).Gives m c (some (x, c')) := by
  intro a
  change (p.orElse (fun _ ↦ q) m c a).1 = _
  rw [Parser.orElse, hp.eq_some a]

theorem Gives.orElse_none (hp : p.Gives m c none) (hq : q.Gives m c r) : (p <|> q).Gives m c r := by
  intro a
  change (p.orElse (fun _ ↦ q) m c a).1 = _
  rw [Parser.orElse, hp.eq_none a]
  exact hq _

theorem Gives.optional (hp : p.Gives m c (some (x, c'))) :
    p.optional.Gives m c (some (some x, c')) :=
  hp.map.orElse

theorem Gives.optional_none (hp : p.Gives m c none) : p.optional.Gives m c (some (none, c)) :=
  hp.map_none.orElse_none (gives_pure none)

theorem Gives.ruleIn {inner : Mode → Mode} {rule : Rule} (hp : p.Gives (inner m) c r) :
    (p.ruleIn inner rule).Gives m c r := by
  intro a
  unfold Parser.ruleIn
  cases r with
  | none => rw [hp.eq_none a]
  | some r => rw [hp.eq_some a]

theorem run_of_gives {text : List Char} (h : p.Gives .spaced ⟨0, text⟩ (some (x, c))) :
    p.run text = .ok x := by
  unfold run
  rw [h.eq_some]

theorem run_of_gives_none {text : List Char} (h : p.Gives .spaced ⟨0, text⟩ none) :
    ∃ a, p.run text = .error a := by
  unfold run
  rw [h.eq_none]
  exact ⟨_, rfl⟩

/-! ### Repetition -/

/-- A parser gives results one after the other, each farther on in the text, until it fails. -/
inductive Chain (p : Parser α) (m : Mode) : Cursor → List α → Cursor → Prop where
  | stop {c : Cursor} (h : p.Gives m c none) : Chain p m c [] c
  | step {c c₁ c' : Cursor} {x : α} {xs : List α} (h : p.Gives m c (some (x, c₁)))
      (hless : c₁.rest.length < c.rest.length) (hrest : Chain p m c₁ xs c') :
      Chain p m c (x :: xs) c'

variable {xs : List α}

theorem Chain.repeated (h : Chain p m c xs c') {n : Nat} (hn : c.rest.length < n) :
    (p.repeated n).Gives m c (some (xs, c')) := by
  induction h generalizing n with
  | stop h =>
    cases n with
    | zero => exact gives_pure []
    | succ n => exact h.bind_none.orElse_none (gives_pure [])
  | step h hless _ ih =>
    cases n with
    | zero => exact absurd hn (Nat.not_lt_zero _)
    | succ n => exact (h.bind ((ih (by omega)).bind (gives_pure (_ :: _)))).orElse

theorem Chain.many (h : Chain p m c xs c') : p.many.Gives m c (some (xs, c')) :=
  fun a ↦ h.repeated (Nat.lt_succ_self _) a

theorem Chain.star (hp : p.Gives m c (some (x, c'))) {c₁ : Cursor}
    (h : Chain (do skip; p) m c' xs c₁) :
    p.star.Gives m c (some (x :: xs, c₁)) :=
  (hp.bind (h.many.bind (gives_pure (_ :: _)))).orElse

theorem Gives.star_none (hp : p.Gives m c none) : p.star.Gives m c (some ([], c)) :=
  hp.bind_none.orElse_none (gives_pure [])

/-! ### The characters that a parser begins with -/

/-- A parser reads nothing that does not begin with a character of a class. -/
def Begins (p : Parser α) (first : Char → Bool) : Prop :=
  ∀ m c, (∀ d ∈ c.rest.head?, first d = false) → p.Gives m c none

variable {first other : Char → Bool}

/-- A text that begins with another character is refused. -/
theorem Begins.refuses {d : Char} {rest : List Char} {o : Nat} (h : p.Begins first)
    (hd : first d = false) :
    p.Gives m ⟨o, d :: rest⟩ none := by
  refine h m _ ?_
  rintro e ⟨⟩
  exact hd

theorem begins_fail : (fail : Parser α).Begins first :=
  fun _ _ _ ↦ gives_fail

theorem begins_char (class_ : Char → Bool) : (char class_).Begins class_ := by
  rintro m ⟨o, _ | ⟨d, rest⟩⟩ h a
  · rfl
  · have hd : class_ d = false := h d rfl
    unfold char
    simp [hd]

theorem Begins.mono (h : p.Begins first) (himp : ∀ d, first d → other d) : p.Begins other := by
  intro m c hc
  refine h m c fun d hd ↦ ?_
  have hother := hc d hd
  cases hfirst : first d with
  | false => rfl
  | true => exact absurd (himp d hfirst) (by simp [hother])

theorem Begins.bind (h : p.Begins first) : (p >>= f).Begins first :=
  fun m c hc ↦ (h m c hc).bind_none

theorem Begins.map {g : α → β} (h : p.Begins first) : (g <$> p).Begins first :=
  h.bind

theorem Begins.orElse (hp : p.Begins first) (hq : q.Begins other) :
    (p <|> q).Begins fun d ↦ first d || other d :=
  fun m c hc ↦ (hp m c fun d hd ↦ (Bool.or_eq_false_iff.mp (hc d hd)).1).orElse_none
    (hq m c fun d hd ↦ (Bool.or_eq_false_iff.mp (hc d hd)).2)

theorem Begins.ruleIn {inner : Mode → Mode} {rule : Rule} (h : p.Begins first) :
    (p.ruleIn inner rule).Begins first :=
  fun _ c hc ↦ (h _ c hc).ruleIn

theorem Gives.captured_none (h : p.Gives m c none) : p.captured.Gives m c none := by
  intro a
  unfold captured
  rw [h.eq_none a]

theorem Gives.captured {cs : List Char} (h : p.Gives m c (some (x, c')))
    (hrest : c.rest = cs ++ c'.rest) (hoffset : c'.offset = c.offset + cs.length) :
    p.captured.Gives m c (some ((c.offset, cs), c')) := by
  intro a
  unfold Parser.captured
  rw [h.eq_some a]
  simp [hrest, hoffset]

theorem Begins.captured (h : p.Begins first) : p.captured.Begins first :=
  fun m c hc ↦ (h m c hc).captured_none

theorem begins_symbol (d : Char) (ds : List Char) : (symbol (d :: ds)).Begins (· == d) :=
  (begins_char _).bind

/-- A word begins with its first character. -/
theorem begins_word {s : String} {d : Char} (h : s.toList.head? = some d) :
    (word s).Begins (· == d) := by
  unfold word
  obtain ⟨ds, hs⟩ : ∃ ds, s.toList = d :: ds := by
    cases hs : s.toList with
    | nil => rw [hs] at h; cases h
    | cons e ds =>
      rw [hs] at h
      exact ⟨ds, by cases h; rfl⟩
  rw [hs]
  exact begins_symbol d ds

/-! ### Texts character by character -/

/-- A parser reads the first characters of a text and leaves the rest. -/
def Scans (p : Parser α) (m : Mode) (cs rest : List Char) (x : α) : Prop :=
  ∀ o, p.Gives m ⟨o, cs ++ rest⟩ (some (x, ⟨o + cs.length, rest⟩))

variable {cs ds rest : List Char} {d : Char}

theorem scans_pure (x : α) : Scans (pure x : Parser α) m [] rest x :=
  fun _ ↦ gives_pure x

theorem Scans.bind (hp : Scans p m cs (ds ++ rest) x) (hf : Scans (f x) m ds rest y) :
    Scans (p >>= f) m (cs ++ ds) rest y := by
  intro o
  have hfirst := hp o
  have hsecond := hf (o + cs.length)
  rw [List.append_assoc, List.length_append, ← Nat.add_assoc]
  exact hfirst.bind hsecond

/-- What comes first may read a single character. -/
theorem Scans.cons_bind (hp : Scans p m [d] (ds ++ rest) x) (hf : Scans (f x) m ds rest y) :
    Scans (p >>= f) m (d :: ds) rest y :=
  hp.bind hf

/-- What follows may read nothing. -/
theorem Scans.bind_nil (hp : Scans p m cs rest x) (hf : Scans (f x) m [] rest y) :
    Scans (p >>= f) m cs rest y :=
  List.append_nil cs ▸ Scans.bind hp hf

theorem Scans.map {g : α → β} (hp : Scans p m cs rest x) : Scans (g <$> p) m cs rest (g x) :=
  hp.bind_nil (scans_pure _)

theorem Scans.orElse (hp : Scans p m cs rest x) : Scans (p <|> q) m cs rest x :=
  fun o ↦ (hp o).orElse

theorem Scans.orElse_none (hp : ∀ o, p.Gives m ⟨o, cs ++ rest⟩ none) (hq : Scans q m cs rest x) :
    Scans (p <|> q) m cs rest x :=
  fun o ↦ (hp o).orElse_none (hq o)

theorem Scans.optional (hp : Scans p m cs rest x) : Scans p.optional m cs rest (some x) :=
  fun o ↦ (hp o).optional

theorem scans_optional_none (hp : ∀ o, p.Gives m ⟨o, rest⟩ none) :
    Scans p.optional m [] rest none :=
  fun o ↦ (hp o).optional_none

theorem scans_char {class_ : Char → Bool} (h : class_ d) : Scans (char class_) m [d] rest d := by
  intro o a
  unfold char
  simp [h]

theorem scans_symbol (cs : List Char) : Scans (symbol cs) m cs rest () := by
  induction cs with
  | nil => exact scans_pure ()
  | cons d cs ih => exact Scans.cons_bind (scans_char (beq_self_eq_true d)) ih

theorem scans_word (s : String) : Scans (word s) m s.toList rest () :=
  scans_symbol _

/-- A text that does not begin with the characters is refused. -/
theorem symbol_none {o : Nat} (h : ¬cs <+: rest) : (symbol cs).Gives m ⟨o, rest⟩ none := by
  induction cs generalizing rest o with
  | nil => exact absurd (List.nil_prefix) h
  | cons d cs ih =>
    cases rest with
    | nil => exact (begins_char _ m _ (by rintro d ⟨⟩)).bind_none
    | cons e rest =>
      by_cases hd : e = d
      · subst hd
        have hcs : ¬cs <+: rest := fun hcs ↦ h (List.cons_prefix_cons.mpr ⟨rfl, hcs⟩)
        have hfirst : Scans (char (· == e)) m [e] rest e := scans_char (beq_self_eq_true e)
        exact (hfirst o).bind (ih hcs)
      · exact (begins_symbol d cs).refuses (beq_eq_false_iff_ne.mpr hd)

theorem scans_notNext {class_ : Char → Bool} (h : ∀ d ∈ rest.head?, class_ d = false) :
    Scans (notNext class_) m [] rest () := by
  intro o a
  unfold notNext
  cases rest with
  | nil => rfl
  | cons d rest =>
    have hd : class_ d = false := h d rfl
    simp [hd]

/-- Characters of a class are read as far as they go. -/
theorem scans_many {class_ : Char → Bool} (hcs : ∀ d ∈ cs, class_ d)
    (hrest : ∀ d ∈ rest.head?, class_ d = false) :
    Scans (many (char class_)) m cs rest cs := by
  intro o
  refine Chain.many ?_
  induction cs generalizing o with
  | nil => exact .stop (begins_char class_ m _ hrest)
  | cons d cs ih =>
    obtain ⟨hd, hcs⟩ := List.forall_mem_cons.mp hcs
    have hrest := ih hcs (o + 1)
    rw [List.length_cons, show o + (cs.length + 1) = o + 1 + cs.length by omega]
    exact .step (scans_char hd o) (Nat.lt_succ_self _) hrest

theorem scans_many₁ {class_ : Char → Bool} (hcs : ∀ d ∈ cs, class_ d) (hne : cs ≠ [])
    (hrest : ∀ d ∈ rest.head?, class_ d = false) : Scans (many₁ (char class_)) m cs rest cs := by
  cases cs with
  | nil => exact absurd rfl hne
  | cons d cs =>
    obtain ⟨hd, hcs⟩ := List.forall_mem_cons.mp hcs
    exact Scans.cons_bind (scans_char hd) ((scans_many hcs hrest).bind_nil (scans_pure _))

theorem scans_exactly {class_ : Char → Bool} (hcs : ∀ d ∈ cs, class_ d) :
    Scans (exactly (char class_) cs.length) m cs rest cs := by
  induction cs with
  | nil => exact scans_pure []
  | cons d cs ih =>
    obtain ⟨hd, hcs⟩ := List.forall_mem_cons.mp hcs
    exact Scans.cons_bind (scans_char hd) ((ih hcs).bind_nil (scans_pure _))

theorem gives_captured {o : Nat} (h : Scans p m cs rest x) :
    p.captured.Gives m ⟨o, cs ++ rest⟩ (some ((o, cs), ⟨o + cs.length, rest⟩)) :=
  (h o).captured rfl rfl

end Parser

end EntityStore.Language
