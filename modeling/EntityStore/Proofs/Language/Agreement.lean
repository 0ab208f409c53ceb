import EntityStore.Proofs.Language.Layout

/-!
Texts that differ in their spacing only, and two parsers that agree on them. Outside of texts
between quotes such texts have the same characters with runs of blanks in the same places, and what
is between quotes is the same in both; spacing at the end, comments too, may differ. Parsers agree
if both refuse, or both read, what they give is related and what they leave differs in its spacing
only. Numbers bound the texts, so that parsers agree whose depths are bounded differently.
-/

set_option autoImplicit false

namespace EntityStore.Language

section

open EntityStore.Language.Parser EntityStore.Language.Grammar

/-- A character that neither spacing nor a text between quotes begins with. -/
def isInk (c : Char) : Bool :=
  Lexeme.opens c && c != '"'

/-- What follows an opening quote is no text with a closing one. -/
def Unclosed (text : List Char) : Prop :=
  ∀ cs ds rest, Quotes cs ds → text ≠ ds ++ '"' :: rest

/-- The same text with other spacing. -/
inductive Respaced : List Char → List Char → Prop where
  | ended {r r' : List Char} (h : skipSpace false r = []) (h' : skipSpace false r' = []) :
      Respaced r r'
  | ink {c : Char} {r r' : List Char} (h : isInk c) (hrest : Respaced r r') :
      Respaced (c :: r) (c :: r')
  | blanks {gap gap' r r' : List Char} (hne : gap ≠ []) (hne' : gap' ≠ [])
      (h : ∀ c ∈ gap, isSpace c) (h' : ∀ c ∈ gap', isSpace c) (hrest : Respaced r r') :
      Respaced (gap ++ r) (gap' ++ r')
  | slash {r r' : List Char} (h : r.head? ≠ some '/') (h' : r'.head? ≠ some '/') :
      Respaced ('/' :: r) ('/' :: r')
  | text {cs ds r r' : List Char} (h : Quotes cs ds) (hrest : Respaced r r') :
      Respaced ('"' :: (ds ++ '"' :: r)) ('"' :: (ds ++ '"' :: r'))
  | unclosed {r r' : List Char} (h : Unclosed r) (h' : Unclosed r') :
      Respaced ('"' :: r) ('"' :: r')

variable {r r' rest : List Char} {c : Char}

/-! ### Skipping spacing -/

theorem skipSpace_blanks {gap : List Char} (h : ∀ c ∈ gap, isSpace c) (rest : List Char) :
    skipSpace false (gap ++ rest) = skipSpace false rest := by
  induction gap with
  | nil => rfl
  | cons c gap ih =>
    obtain ⟨hc, hgap⟩ := List.forall_mem_cons.mp h
    rw [List.cons_append, skipSpace_blank hc, ih hgap]

theorem skipSpace_ink (h : isInk c) (rest : List Char) : skipSpace false (c :: rest) = c :: rest :=
  skipSpace_opens (Bool.and_eq_true_iff.mp h).1 rest

theorem skipSpace_quote (rest : List Char) : skipSpace false ('"' :: rest) = '"' :: rest :=
  skipSpace_opens rfl rest

theorem skipSpace_slash (h : r.head? ≠ some '/') : skipSpace false ('/' :: r) = '/' :: r := by
  cases r with
  | nil => rfl
  | cons c r =>
    have hc : c ≠ '/' := fun heq ↦ h (by rw [heq]; rfl)
    simp [skipSpace, hc, isSpace]

theorem Respaced.skip (h : Respaced r r') : Respaced (skipSpace false r) (skipSpace false r') := by
  induction h with
  | ended h h' =>
    rw [h, h']
    exact .ended rfl rfl
  | ink h hrest _ =>
    rw [skipSpace_ink h, skipSpace_ink h]
    exact .ink h hrest
  | blanks _ _ h h' _ ih =>
    rw [skipSpace_blanks h, skipSpace_blanks h']
    exact ih
  | slash h h' =>
    rw [skipSpace_slash h, skipSpace_slash h']
    exact .slash h h'
  | text h hrest _ =>
    rw [skipSpace_quote, skipSpace_quote]
    exact .text h hrest
  | unclosed h h' =>
    rw [skipSpace_quote, skipSpace_quote]
    exact .unclosed h h'

/-- Nothing but spacing is left in both texts or in none. -/
theorem Respaced.skip_eq_nil (h : Respaced r r') :
    skipSpace false r = [] ↔ skipSpace false r' = [] := by
  induction h with
  | ended h h' => simp only [h, h']
  | ink h _ _ => simp only [skipSpace_ink h, reduceCtorEq]
  | blanks _ _ h h' _ ih => rwa [skipSpace_blanks h, skipSpace_blanks h']
  | slash h h' => simp only [skipSpace_slash h, skipSpace_slash h', reduceCtorEq]
  | text _ _ _ => simp only [skipSpace_quote, reduceCtorEq]
  | unclosed _ _ => simp only [skipSpace_quote, reduceCtorEq]

/-- No lexeme and no text between quotes begins here. -/
def Barren (r : List Char) : Prop :=
  ∀ d ∈ r.head?, Lexeme.opens d = false

theorem Barren.not_ink (h : Barren r) : ∀ d ∈ r.head?, isInk d = false :=
  fun d hd ↦ by simp [isInk, h d hd]

theorem Barren.not_quote (h : Barren r) : ∀ d ∈ r.head?, (d == '"') = false := by
  intro d hd
  refine beq_eq_false_iff_ne.mpr ?_
  rintro rfl
  exact absurd (h _ hd) (by decide)

theorem barren_of_skip (h : skipSpace false r = []) : Barren r := by
  rintro d hd
  cases r with
  | nil => cases hd
  | cons e r =>
    cases hd
    refine Bool.eq_false_iff.mpr fun hopens ↦ ?_
    rw [skipSpace_opens hopens] at h
    cases h

theorem barren_of_blanks {gap : List Char} (hne : gap ≠ []) (h : ∀ c ∈ gap, isSpace c) :
    Barren (gap ++ rest) := by
  obtain ⟨e, gap, rfl⟩ := List.exists_cons_of_ne_nil hne
  rintro d ⟨⟩
  simp [Lexeme.opens, h e List.mem_cons_self]

theorem barren_slash : Barren ('/' :: r) := by
  rintro d ⟨⟩
  rfl

theorem head_cons {class_ : Char → Bool} (h : class_ c = false) :
    ∀ d ∈ (c :: r).head?, class_ d = false := by
  rintro d ⟨⟩
  exact h

/-- Two texts of other spacing begin with the same ink or with none. -/
theorem Respaced.head (h : Respaced r r') :
    (∃ c s s', isInk c ∧ r = c :: s ∧ r' = c :: s' ∧ Respaced s s') ∨
    ((∀ d ∈ r.head?, isInk d = false) ∧ ∀ d ∈ r'.head?, isInk d = false) := by
  cases h with
  | ended h h' => exact .inr ⟨(barren_of_skip h).not_ink, (barren_of_skip h').not_ink⟩
  | ink h hrest => exact .inl ⟨_, _, _, h, rfl, rfl, hrest⟩
  | blanks hne hne' h h' _ =>
    exact .inr ⟨(barren_of_blanks hne h).not_ink, (barren_of_blanks hne' h').not_ink⟩
  | slash _ _ => exact .inr ⟨barren_slash.not_ink, barren_slash.not_ink⟩
  | text _ _ => exact .inr ⟨head_cons rfl, head_cons rfl⟩
  | unclosed _ _ => exact .inr ⟨head_cons rfl, head_cons rfl⟩

/-- Two texts of other spacing begin with the same text between quotes, both with a quote that is
not closed, or both with no quote. -/
theorem Respaced.quote (h : Respaced r r') :
    (∃ cs ds s s', Quotes cs ds ∧ r = '"' :: (ds ++ '"' :: s) ∧
      r' = '"' :: (ds ++ '"' :: s') ∧ Respaced s s') ∨
    (∃ s s', r = '"' :: s ∧ r' = '"' :: s' ∧ Unclosed s ∧ Unclosed s') ∨
    ((∀ d ∈ r.head?, (d == '"') = false) ∧ ∀ d ∈ r'.head?, (d == '"') = false) := by
  cases h with
  | ended h h' => exact .inr (.inr ⟨(barren_of_skip h).not_quote, (barren_of_skip h').not_quote⟩)
  | ink h _ =>
    have hne {c : Char} (h : isInk c) :
      (c == '"') = false := by simpa using (Bool.and_eq_true_iff.mp h).2
    exact .inr (.inr ⟨head_cons (hne h), head_cons (hne h)⟩)
  | blanks hne hne' h h' _ =>
    exact .inr (.inr ⟨(barren_of_blanks hne h).not_quote, (barren_of_blanks hne' h').not_quote⟩)
  | slash _ _ => exact .inr (.inr ⟨barren_slash.not_quote, barren_slash.not_quote⟩)
  | text h hrest => exact .inl ⟨_, _, _, _, h, rfl, rfl, hrest⟩
  | unclosed h h' => exact .inr (.inl ⟨_, _, rfl, rfl, h, h'⟩)

end

namespace Parser

variable {α α' β β' : Type} {p : Parser α} {q : Parser α'} {R : α → α' → Prop}
  {Q : β → β' → Prop} {m : Mode} {k l n n' : Nat} {c c₁ c₂ c' c₁' c₂' : Cursor}

/-- Two cursors went on, each by at least a number of characters. Inside of a token they went over
the same ones. -/
def Moved (m : Mode) (k : Nat) (c c₁ c' c₁' : Cursor) : Prop :=
  ∃ cs cs', c.rest = cs ++ c₁.rest ∧ c₁.offset = c.offset + cs.length ∧ c'.rest = cs' ++ c₁'.rest ∧
    c₁'.offset = c'.offset + cs'.length ∧ k ≤ cs.length ∧ k ≤ cs'.length ∧ (m = .atomic → cs = cs')

theorem Moved.refl (m : Mode) (c c' : Cursor) : Moved m 0 c c c' c' :=
  ⟨[], [], rfl, rfl, rfl, rfl, Nat.le_refl 0, Nat.le_refl 0, fun _ ↦ rfl⟩

theorem Moved.trans (h : Moved m k c c₁ c' c₁') (h' : Moved m l c₁ c₂ c₁' c₂') :
    Moved m (k + l) c c₂ c' c₂' := by
  obtain ⟨cs, cs', hc, ho, hc', ho', hk, hk', hcs⟩ := h
  obtain ⟨ds, ds', hd, hp, hd', hp', hl, hl', hds⟩ := h'
  refine ⟨cs ++ ds, cs' ++ ds', by
    rw [hc, hd, List.append_assoc], ?_, by rw [hc', hd', List.append_assoc], ?_, ?_, ?_,
    fun hm ↦ by rw [hcs hm, hds hm]⟩
  · rw [hp, ho, List.length_append, Nat.add_assoc]
  · rw [hp', ho', List.length_append, Nat.add_assoc]
  · rw [List.length_append]
    omega
  · rw [List.length_append]
    omega

theorem Moved.length (h : Moved m k c c₁ c' c₁') :
    c₁.rest.length + k ≤ c.rest.length ∧ c₁'.rest.length + k ≤ c'.rest.length := by
  obtain ⟨cs, cs', hc, -, hc', -, hk, hk', -⟩ := h
  rw [hc, hc', List.length_append, List.length_append]
  omega

/-- On texts of other spacing both parsers refuse or both give related results. -/
def Agree (m : Mode) (n n' k : Nat) (p : Parser α) (q : Parser α') (R : α → α' → Prop) : Prop :=
  ∀ c c', c.rest.length < n → c'.rest.length < n' → Respaced c.rest c'.rest →
    (p.Gives m c none ∧ q.Gives m c' none) ∨
    ∃ x y c₁ c₁', p.Gives m c (some (x, c₁)) ∧ q.Gives m c' (some (y, c₁')) ∧ R x y ∧
      Respaced c₁.rest c₁'.rest ∧ Moved m k c c₁ c' c₁'

theorem Agree.mono {R' : α → α' → Prop} {n₀ n₀' k₀ : Nat} (h : Agree m n n' k p q R)
    (hn : n₀ ≤ n) (hn' : n₀' ≤ n') (hk : k₀ ≤ k) (hR : ∀ x y, R x y → R' x y) :
    Agree m n₀ n₀' k₀ p q R' := by
  intro c c' hc hc' hr
  refine (h c c' (Nat.lt_of_lt_of_le hc hn) (Nat.lt_of_lt_of_le hc' hn') hr).imp_right ?_
  rintro ⟨x, y, c₁, c₁', hp, hq, hxy, hr, cs, cs', h₁, h₂, h₃, h₄, h₅, h₆, h₇⟩
  exact ⟨x, y, c₁, c₁', hp, hq, hR x y hxy, hr, cs, cs', h₁, h₂, h₃, h₄, Nat.le_trans hk h₅,
    Nat.le_trans hk h₆, h₇⟩

/-- Agreement on shorter texts, with less said of how far it goes. -/
theorem Agree.within {n₀ n₀' k₀ : Nat} (h : Agree m n n' k p q R) (hn : n₀ ≤ n)
    (hn' : n₀' ≤ n') (hk : k₀ ≤ k) :
    Agree m n₀ n₀' k₀ p q R :=
  h.mono hn hn' hk fun _ _ hxy ↦ hxy

theorem Agree.weaken {k₀ : Nat} (h : Agree m n n' k p q R) (hk : k₀ ≤ k) : Agree m n n' k₀ p q R :=
  h.within (Nat.le_refl n) (Nat.le_refl n') hk

theorem agree_pure {x : α} {y : α'} (h : R x y) : Agree m n n' 0 (pure x : Parser α) (pure y) R :=
  fun c c' _ _ hr ↦ .inr ⟨x, y, c, c', gives_pure x, gives_pure y, h, hr, .refl m c c'⟩

theorem Agree.bind {f : α → Parser β} {g : α' → Parser β'} (h : Agree m n n' k p q R)
    (hf : ∀ x y, R x y → Agree m (n - k) (n' - k) l (f x) (g y) Q) :
    Agree m n n' (k + l) (p >>= f) (q >>= g) Q := by
  intro c c' hc hc' hr
  obtain ⟨hp, hq⟩ | ⟨x, y, c₁, c₁', hp, hq, hxy, hr₁, hmoved⟩ := h c c' hc hc' hr
  · exact .inl ⟨hp.bind_none, hq.bind_none⟩
  · have hlength := hmoved.length
    obtain ⟨hf, hg⟩ | ⟨z, w, c₂, c₂', hf, hg, hzw, hr₂, hmoved₂⟩ :=
      hf x y hxy c₁ c₁' (by omega) (by omega) hr₁
    · exact .inl ⟨hp.bind hf, hq.bind hg⟩
    · exact .inr ⟨z, w, c₂, c₂', hp.bind hf, hq.bind hg, hzw, hr₂, hmoved.trans hmoved₂⟩

/-- A part after which nothing more need be read. -/
theorem Agree.then {f : α → Parser β} {g : α' → Parser β'} (h : Agree m n n' k p q R)
    (hf : ∀ x y, R x y → Agree m (n - k) (n' - k) 0 (f x) (g y) Q) :
    Agree m n n' k (p >>= f) (q >>= g) Q :=
  h.bind hf

theorem Agree.map {f : α → β} {g : α' → β'} (h : Agree m n n' k p q R)
    (hf : ∀ x y, R x y → Q (f x) (g y)) :
    Agree m n n' k (f <$> p) (g <$> q) Q :=
  h.bind fun x y hxy ↦ agree_pure (hf x y hxy)

theorem Agree.orElse {p₂ : Parser α} {q₂ : Parser α'} (h : Agree m n n' k p q R)
    (h₂ : Agree m n n' k p₂ q₂ R) :
    Agree m n n' k (p <|> p₂) (q <|> q₂) R := by
  intro c c' hc hc' hr
  obtain ⟨hp, hq⟩ | ⟨x, y, c₁, c₁', hp, hq, hrest⟩ := h c c' hc hc' hr
  · refine (h₂ c c' hc hc' hr).imp (fun ⟨hp₂, hq₂⟩ ↦ ⟨hp.orElse_none hp₂, hq.orElse_none hq₂⟩) ?_
    rintro ⟨x, y, c₁, c₁', hp₂, hq₂, hrest⟩
    exact ⟨x, y, c₁, c₁', hp.orElse_none hp₂, hq.orElse_none hq₂, hrest⟩
  · exact .inr ⟨x, y, c₁, c₁', hp.orElse, hq.orElse, hrest⟩

theorem Agree.optional (h : Agree m n n' 0 p q R) :
    Agree m n n' 0 p.optional q.optional (Option.Rel R) :=
  (h.map fun _ _ hxy ↦ Option.Rel.some hxy).orElse (agree_pure .none)

/-- A rule that is atomic inside of tokens went over the same characters there if its body did. -/
theorem Agree.ruleIn {inner : Mode → Mode} {rule : Rule} (hmode : m = .atomic → inner m = .atomic)
    (h : Agree (inner m) n n' k p q R) :
    Agree m n n' k (p.ruleIn inner rule) (q.ruleIn inner rule) R := by
  intro c c' hc hc' hr
  refine (h c c' hc hc' hr).imp (fun ⟨hp, hq⟩ ↦ ⟨Gives.ruleIn hp, Gives.ruleIn hq⟩) ?_
  rintro ⟨x, y, c₁, c₁', hp, hq, hxy, hr, cs, cs', h₁, h₂, h₃, h₄, h₅, h₆, h₇⟩
  exact ⟨x, y, c₁, c₁', Gives.ruleIn hp, Gives.ruleIn hq, hxy, hr, cs, cs', h₁, h₂, h₃,
    h₄, h₅, h₆, h₇ ∘ hmode⟩

theorem Agree.spaced {rule : Rule} (h : Agree m n n' k p q R) : Agree m n n' k (p.spaced rule)
    (q.spaced rule) R :=
  .ruleIn id h

theorem Agree.atomic {rule : Rule} (h : Agree .atomic n n' k p q R) :
    Agree m n n' k (p.atomic rule) (q.atomic rule) R :=
  .ruleIn (fun _ ↦ rfl) h

theorem Agree.captured (h : Agree .atomic n n' k p q R) :
    Agree .atomic n n' k p.captured q.captured fun x y ↦ x.2 = y.2 := by
  intro c c' hc hc' hr
  refine (h c c' hc hc' hr).imp (fun ⟨hp, hq⟩ ↦ ⟨hp.captured_none, hq.captured_none⟩) ?_
  rintro ⟨x, y, c₁, c₁', hp, hq, -, hr, cs, cs', h₁, h₂, h₃, h₄, hmoved⟩
  exact ⟨(c.offset, cs), (c'.offset, cs'), c₁, c₁', hp.captured h₁ h₂, hq.captured h₃ h₄,
    hmoved.2.2 rfl, hr, cs, cs', h₁, h₂, h₃, h₄, hmoved⟩

/-! ### Characters -/

/-- Parsers of characters that stand outside of spacing and of texts between quotes. -/
theorem agree_char {class_ : Char → Bool} (hclass : ∀ d, class_ d → isInk d) :
    Agree m n n' 1 (char class_) (char class_) Eq := by
  have hother {d : Char} (hd : isInk d = false) : class_ d = false :=
    Bool.eq_false_iff.mpr fun h ↦ by simp [hclass d h] at hd
  rintro ⟨o, r⟩ ⟨o', r'⟩ - - hr
  obtain ⟨d, s, s', -, rfl, rfl, hs⟩ | ⟨hhead, hhead'⟩ := hr.head
  · by_cases hd : class_ d
    · have hread (o : Nat) (s : List Char) :
        (char class_).Gives m ⟨o, d :: s⟩ (some (d, ⟨o + 1, s⟩)) := scans_char hd o
      exact .inr ⟨d, d, _, _, hread o s, hread o' s', rfl, hs, [d], [d], rfl, rfl,
        rfl, rfl, Nat.le_refl 1, Nat.le_refl 1, fun _ ↦ rfl⟩
    · have hd : class_ d = false := by simpa using hd
      exact .inl ⟨(begins_char class_).refuses hd, (begins_char class_).refuses hd⟩
  · exact .inl ⟨begins_char class_ m _ fun d hd ↦ hother (hhead d hd),
      begins_char class_ m _ fun d hd ↦ hother (hhead' d hd)⟩

theorem agree_notNext {class_ : Char → Bool} (hclass : ∀ d, class_ d → isInk d) :
    Agree m n n' 0 (notNext class_) (notNext class_) Eq := by
  have hother {r : List Char} (h : ∀ d ∈ r.head?, isInk d = false) :
      ∀ d ∈ r.head?, class_ d = false :=
    fun d hd ↦ Bool.eq_false_iff.mpr fun hclass' ↦ by simpa [hclass d hclass'] using h d hd
  have hpasses {r : List Char} (o : Nat) (h : ∀ d ∈ r.head?, class_ d = false) :
      (notNext class_).Gives m ⟨o, r⟩ (some ((), ⟨o, r⟩)) := scans_notNext h o
  rintro ⟨o, r⟩ ⟨o', r'⟩ - - hr
  obtain ⟨d, s, s', -, rfl, rfl, hs⟩ | ⟨hhead, hhead'⟩ := hr.head
  · by_cases hd : class_ d
    · have hrefuses (o : Nat) (s : List Char) : (notNext class_).Gives m ⟨o, d :: s⟩ none := by
        intro a
        unfold notNext
        simp [hd]
      exact .inl ⟨hrefuses o s, hrefuses o' s'⟩
    · have hfree {s : List Char} : ∀ e ∈ (d :: s).head?, class_ e = false := by
        rintro e ⟨⟩
        simpa using hd
      exact .inr ⟨(), (), _, _, hpasses o hfree, hpasses o' hfree, rfl, hr, .refl m _ _⟩
  · exact .inr ⟨(), (), _, _, hpasses o (hother hhead), hpasses o' (hother hhead'),
      rfl, hr, .refl m _ _⟩

theorem agree_symbol {cs : List Char} (hcs : cs.all isInk) : Agree m n n' cs.length (symbol cs)
    (symbol cs) Eq := by
  induction cs generalizing n n' with
  | nil => exact agree_pure rfl
  | cons d cs ih =>
    rw [List.all_cons, Bool.and_eq_true] at hcs
    have hd : ∀ e, (e == d) = true → isInk e := fun e he ↦ by rw [beq_iff_eq.mp he]; exact hcs.1
    refine ((agree_char hd).bind fun _ _ _ ↦ ih hcs.2).weaken ?_
    rw [List.length_cons]
    omega

theorem agree_word {s : String} (hs : s.toList.all isInk) : Agree m n n' s.toList.length
    (word s) (word s) Eq :=
  agree_symbol hs

/-! ### Repetition -/

theorem Agree.repeated {a b : Nat} (h : Agree m n n' 1 p q R) (ha : n ≤ a) (hb : n' ≤ b) :
    Agree m n n' 0 (p.repeated a) (q.repeated b) (List.Forall₂ R) := by
  induction a generalizing n n' b with
  | zero => exact fun c _ hc ↦ absurd hc (by omega)
  | succ a ih =>
    cases b with
    | zero => exact fun _ c' _ hc' ↦ absurd hc' (by omega)
    | succ b =>
      have hstep : Agree m (n - 1) (n' - 1) 1 p q R :=
        h.within (Nat.sub_le n 1) (Nat.sub_le n' 1) (Nat.le_refl 1)
      have hrest : Agree m (n - 1) (n' - 1) 0 (p.repeated a) (q.repeated b) (List.Forall₂ R) :=
        ih hstep (by omega) (by omega)
      have hmore :=
        h.then fun x y hxy ↦ hrest.then fun xs ys hxs ↦ agree_pure (List.Forall₂.cons hxy hxs)
      exact (hmore.weaken (Nat.zero_le 1)).orElse (agree_pure .nil)

theorem Agree.many (h : Agree m n n' 1 p q R) : Agree m n n' 0 p.many q.many (List.Forall₂ R) := by
  intro c c' hc hc' hr
  have hstep : Agree m (c.rest.length + 1) (c'.rest.length + 1) 1 p q R :=
    h.within hc hc' (Nat.le_refl 1)
  exact hstep.repeated (Nat.le_refl _) (Nat.le_refl _) c c' (Nat.lt_succ_self _)
    (Nat.lt_succ_self _) hr

/-! ### Spacing -/

theorem skipSpace_suffix (comment : Bool) (r : List Char) :
    ∃ gap, r = gap ++ skipSpace comment r := by
  induction comment, r using skipSpace.induct with
  | case1 r ih =>
    obtain ⟨gap, hgap⟩ := ih
    exact ⟨'\n' :: gap, by rw [skipSpace, List.cons_append, ← hgap]⟩
  | case2 c r _ ih =>
    obtain ⟨gap, hgap⟩ := ih
    refine ⟨c :: gap, ?_⟩
    simp only [skipSpace, List.cons_append, ← hgap]
  | case3 r ih =>
    obtain ⟨gap, hgap⟩ := ih
    exact ⟨'/' :: '/' :: gap, by rw [skipSpace, List.cons_append, List.cons_append, ← hgap]⟩
  | case4 c r hc hspace ih =>
    obtain ⟨gap, hgap⟩ := ih
    refine ⟨c :: gap, ?_⟩
    rw [skipSpace_blank hspace, List.cons_append, ← hgap]
  | case5 c r hc hspace => exact ⟨[], by simp [skipSpace, hspace]⟩
  | case6 comment => exact ⟨[], by cases comment <;> rfl⟩

theorem agree_skip : Agree m n n' 0 skip skip Eq := by
  cases m with
  | spaced =>
    rintro ⟨o, r⟩ ⟨o', r'⟩ - - hr
    obtain ⟨gap, hgap⟩ := skipSpace_suffix false r
    obtain ⟨gap', hgap'⟩ := skipSpace_suffix false r'
    have hlength {gap r : List Char} (h : r = gap ++ skipSpace false r) :
        r.length - (skipSpace false r).length = gap.length := by
      have := congrArg List.length h
      rw [List.length_append] at this
      omega
    refine .inr ⟨(), (), _, _, fun _ ↦ rfl, fun _ ↦ rfl, rfl, hr.skip, gap, gap', hgap, ?_,
      hgap', ?_, Nat.zero_le _, Nat.zero_le _, fun h ↦ nomatch h⟩
    · exact congrArg (o + ·) (hlength hgap)
    · exact congrArg (o' + ·) (hlength hgap')
  | compound => exact agree_pure rfl
  | atomic => exact agree_pure rfl

theorem Agree.star (h : Agree m n n' 1 p q R) : Agree m n n' 0 p.star q.star (List.Forall₂ R) := by
  have hnext : Agree m (n - 1) (n' - 1) 1 (do skip; p) (do skip; q) R :=
    (agree_skip.bind fun _ _ _ ↦ h).within (Nat.sub_le n 1) (Nat.sub_le n' 1) (Nat.le_refl 1)
  have hmore :=
    h.then fun x y hxy ↦ hnext.many.then fun xs ys hxs ↦ agree_pure (List.Forall₂.cons hxy hxs)
  exact (hmore.weaken (Nat.zero_le 1)).orElse (agree_pure .nil)

/-- Only spacing may stand before the end. -/
theorem agree_end {x : α} {y : α'} (hxy : R x y) :
    Agree .spaced n n' 0 (do skip; spaced .endOfText atEnd; pure x)
    (do skip; spaced .endOfText atEnd; pure y) R := by
  have hend {c : Cursor} (h : c.rest = []) :
      (spaced .endOfText atEnd).Gives .spaced c (some ((), c)) := by
    refine Gives.ruleIn fun _ ↦ ?_
    simp [atEnd, h]
  have hmore {c : Cursor} (h : c.rest ≠ []) : (spaced .endOfText atEnd).Gives .spaced c none := by
    refine Gives.ruleIn fun _ ↦ ?_
    simp [atEnd, h]
  have hrest {c c₁ : Cursor} (h : skip.Gives .spaced c (some ((), c₁))) :
      skipSpace false c.rest = c₁.rest :=
    congrArg (fun x : Unit × Cursor ↦ x.2.rest) (Option.some.inj (h .start))
  have hskips : Agree .spaced n n' 0 skip skip Eq := agree_skip
  intro c c' hc hc' hr
  obtain ⟨hnone, -⟩ | ⟨_, _, c₁, c₁', hskip, hskip', -, hr₁, hmoved⟩ := hskips c c' hc hc' hr
  · exact absurd (hnone .start) (Option.some_ne_none _)
  · have hiff : c₁.rest = [] ↔ c₁'.rest = [] := by
      rw [← hrest hskip, ← hrest hskip']
      exact hr.skip_eq_nil
    by_cases h : c₁.rest = []
    · exact .inr ⟨x, y, c₁, c₁', hskip.bind ((hend h).bind (gives_pure x)),
        hskip'.bind ((hend (hiff.mp h)).bind (gives_pure y)), hxy, hr₁, hmoved⟩
    · exact .inl ⟨hskip.bind (hmore h).bind_none, hskip'.bind (hmore (mt hiff.mpr h)).bind_none⟩

end Parser

end EntityStore.Language
