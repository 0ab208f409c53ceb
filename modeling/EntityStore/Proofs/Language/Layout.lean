import EntityStore.Proofs.Language.Spelling

/-!
Texts laid out from lexemes. Between two lexemes stand blanks and comments, at least one of them,
and before the first and after the last they may stand. A parser reads a row of lexemes if it reads
every layout of it, in front of whatever lexemes follow; how the lexemes are spaced has no part in
what it gives.
-/

set_option autoImplicit false

namespace EntityStore.Language

open EntityStore.Language.Parser EntityStore.Language.Grammar

/-- What a text is made of: literals, in any of their spellings, and characters that stand as they
are. -/
inductive Lexeme where
  | literal (v : Value)
  | plain (cs : List Char)

namespace Lexeme

def mark (s : String) : Lexeme :=
  .plain s.toList

/-- No blank and no comment begins with the character. -/
def opens (c : Char) : Bool :=
  !isSpace c && c != '/'

/-- The spellings of a lexeme. -/
inductive Spelled : Lexeme → List Char → Prop where
  | literal {v : Value} {cs : List Char} (h : Spells v cs) : Spelled (.literal v) cs
  | plain {c : Char} {cs : List Char} (h : opens c) : Spelled (.plain (c :: cs)) (c :: cs)

end Lexeme

/-- Blanks and comments. -/
inductive Spacing : List Char → Prop where
  | nil : Spacing []
  | blank {c : Char} {cs : List Char} (h : isSpace c) (hrest : Spacing cs) : Spacing (c :: cs)
  | comment {body cs : List Char} (h : '\n' ∉ body) (hrest : Spacing cs) :
      Spacing ('/' :: '/' :: (body ++ '\n' :: cs))

/-- Lexemes from the first on, with spacing behind each. -/
inductive Laid : List Lexeme → List Char → Prop where
  | nil : Laid [] []
  | cons {l : Lexeme} {ls : List Lexeme} {cs gap text : List Char} (h : l.Spelled cs)
      (hgap : Spacing gap) (hne : ls ≠ [] → gap ≠ []) (hrest : Laid ls text) :
      Laid (l :: ls) (cs ++ (gap ++ text))

/-- Lexemes with spacing in front, which may be missing. -/
def Stands (ls : List Lexeme) (text : List Char) : Prop :=
  ∃ gap rest, Spacing gap ∧ Laid ls rest ∧ text = gap ++ rest

variable {α β γ : Type} {p q : Parser α} {f : α → Parser β} {l sep : Lexeme}
  {ls ms us : List Lexeme} {text rest cs : List Char} {P : α → Prop} {Q : β → Prop} {x : α}
  {c : Cursor} {o : Nat}

/-! ### Spacing is skipped -/

theorem skipSpace_comment {body : List Char} (h : '\n' ∉ body) :
    skipSpace true (body ++ '\n' :: rest) = skipSpace false rest := by
  induction body with
  | nil => simp [skipSpace]
  | cons c body ih =>
    obtain ⟨hc, hbody⟩ := not_or.mp (List.mem_cons.not.mp h)
    have hc : c ≠ '\n' := fun heq ↦ hc heq.symm
    rw [← ih hbody]
    simp [skipSpace]

theorem skipSpace_blank {c : Char} (h : isSpace c) (rest : List Char) :
    skipSpace false (c :: rest) = skipSpace false rest := by
  have hc : c ≠ '/' := by
    rintro rfl
    exact absurd h (by decide)
  cases rest with
  | nil => simp [skipSpace, h]
  | cons d rest => simp [skipSpace, h, hc]

theorem Spacing.skipSpace {gap : List Char} (h : Spacing gap) (rest : List Char) :
    skipSpace false (gap ++ rest) = skipSpace false rest := by
  induction h with
  | nil => rfl
  | blank h _ ih => exact (skipSpace_blank h _).trans ih
  | @comment body cs h _ ih =>
    have hbody : Parser.skipSpace true (body ++ '\n' :: (cs ++ rest)) =
        Parser.skipSpace false (cs ++ rest) :=
      skipSpace_comment h
    rw [List.cons_append, List.cons_append, List.append_assoc, List.cons_append]
    simp only [Parser.skipSpace]
    exact hbody.trans ih

theorem Spacing.ends {gap : List Char} (h : Spacing gap) (hne : rest ≠ [] → gap ≠ []) :
    Ends (gap ++ rest) := by
  intro d hd
  cases h with
  | nil =>
    cases rest with
    | nil => cases hd
    | cons e rest => exact absurd rfl (hne (List.cons_ne_nil e rest))
  | blank h _ =>
    cases hd
    simp only [isSpace, Bool.or_eq_true, beq_iff_eq] at h
    simp only [spacers, List.mem_cons]
    tauto
  | comment _ _ =>
    cases hd
    decide

/-! ### Lexemes -/

/-- The characters that literals begin with. -/
def opensLiteral (c : Char) : Bool :=
  c == 'n' || c == 't' || c == 'f' || c == '#' || c == '"' || c == '-' || c.isDigit

theorem Spells.head {v : Value} (h : Spells v cs) : ∃ d ds, cs = d :: ds ∧ opensLiteral d := by
  cases h with
  | null => exact ⟨'n', _, rfl, rfl⟩
  | yes => exact ⟨'t', _, rfl, rfl⟩
  | no => exact ⟨'f', _, rfl, rfl⟩
  | long n =>
    have hhead : ∀ d ∈ (intDigits n.toInt ++ []).head?, (!opensLiteral d) = false :=
      intDigits_head n.toInt rfl fun d hd ↦ by simp [opensLiteral, hd]
    rw [List.append_nil] at hhead
    cases hcs : intDigits n.toInt with
    | nil =>
      obtain ⟨sign, cs, hparts, hne, -⟩ := intDigits_parts n.toInt
      rw [hcs] at hparts
      exact absurd (List.nil_eq_append_iff.mp hparts).2 hne
    | cons d ds =>
      rw [hcs] at hhead
      exact ⟨d, ds, rfl, by simpa using hhead d rfl⟩
  | text _ => exact ⟨'"', _, rfl, rfl⟩
  | time _ => exact ⟨'#', _, rfl, rfl⟩
  | date _ _ => exact ⟨'#', _, rfl, rfl⟩
  | dateTime _ _ _ => exact ⟨'#', _, rfl, rfl⟩

/-- A class without the characters of spacing. -/
theorem opens_of (class_ : Char → Bool) {d : Char}
    (hclass : spacers.all (!class_ ·)) (h : class_ d) :
    Lexeme.opens d := by
  have hne : ∀ e ∈ spacers, d ≠ e := by
    rintro e he rfl
    simpa [h] using List.all_eq_true.mp hclass d he
  simp only [spacers, List.forall_mem_cons, List.not_mem_nil, false_implies,
    implies_true, and_true] at hne
  simp [Lexeme.opens, isSpace, hne]

theorem Lexeme.Spelled.head (h : l.Spelled cs) : ∃ d ds, cs = d :: ds ∧ opens d := by
  cases h with
  | literal h =>
    obtain ⟨d, ds, hcs, hd⟩ := h.head
    exact ⟨d, ds, hcs, opens_of opensLiteral rfl hd⟩
  | plain h => exact ⟨_, _, rfl, h⟩

/-- A lexeme with a spelling. -/
def Lexeme.IsSpelled (l : Lexeme) : Prop :=
  ∃ cs, l.Spelled cs

theorem Lexeme.isSpelled_mark {s : String} {d : Char} {ds : List Char}
    (hs : s.toList = d :: ds) (hd : opens d) :
    (mark s).IsSpelled := by
  unfold mark
  rw [hs]
  exact ⟨_, .plain hd⟩

theorem skipSpace_opens {d : Char} (h : Lexeme.opens d) (rest : List Char) :
    skipSpace false (d :: rest) = d :: rest := by
  simp only [Lexeme.opens, Bool.and_eq_true, Bool.not_eq_true', bne_iff_ne] at h
  cases rest <;> simp [skipSpace, h]

/-! ### Layouts -/

theorem Laid.skipSpace (h : Laid ls text) : skipSpace false text = text := by
  cases h with
  | nil => rfl
  | cons h _ _ _ =>
    obtain ⟨d, ds, rfl, hd⟩ := h.head
    exact skipSpace_opens hd _

theorem Laid.stands (h : Laid ls text) : Stands ls text :=
  ⟨[], text, .nil, h, rfl⟩

theorem Laid.nil_iff (h : Laid ls text) : text = [] ↔ ls = [] := by
  cases h with
  | nil => simp
  | cons h _ _ _ =>
    obtain ⟨d, ds, rfl, -⟩ := h.head
    simp

/-- A lexeme ends where the text does or spacing begins. -/
theorem Laid.first (h : Laid (l :: ls) text) :
    ∃ cs rest, text = cs ++ rest ∧ l.Spelled cs ∧ Ends rest ∧ Stands ls rest := by
  cases h with
  | @cons _ _ cs gap text h hgap hne hrest =>
    refine ⟨cs, gap ++ text, rfl, h, hgap.ends fun htext ↦ hne ?_, gap, text, hgap, hrest, rfl⟩
    exact fun hls ↦ htext (hrest.nil_iff.mpr hls)

theorem Stands.skip (h : Stands ls c.rest) :
    ∃ c', skip.Gives .spaced c (some ((), c')) ∧ Laid ls c'.rest ∧
    c'.rest.length ≤ c.rest.length := by
  obtain ⟨gap, text, hgap, hlaid, htext⟩ := h
  have hskip : skipSpace false c.rest = text := by
    rw [htext, hgap.skipSpace, hlaid.skipSpace]
  refine ⟨⟨c.offset + (c.rest.length - text.length), text⟩, ?_, hlaid, ?_⟩
  · intro a
    rw [← hskip]
    rfl
  · simp [htext]

/-- A text that is laid out from lexemes has a character for each. -/
theorem Laid.length_le (h : Laid ls text) : ls.length ≤ text.length := by
  induction h with
  | nil => exact Nat.le_refl 0
  | cons h _ _ _ ih =>
    obtain ⟨d, ds, rfl, -⟩ := h.head
    simp only [List.length_cons, List.length_append]
    omega

theorem Stands.length_le (h : Stands ls text) : ls.length ≤ text.length := by
  obtain ⟨gap, rest, -, hlaid, rfl⟩ := h
  have := hlaid.length_le
  rw [List.length_append]
  omega

/-- A lexeme and a blank. -/
theorem Laid.blank (h : l.Spelled cs) (hrest : Laid ls text) : Laid (l :: ls) (cs ++ ' ' :: text) :=
  .cons h (.blank rfl .nil : Spacing [' ']) (fun _ ↦ List.cons_ne_nil _ _) hrest

/-- The last lexeme of a text. -/
theorem Laid.last (h : l.Spelled cs) : Laid [l] cs := by
  have hlaid := Laid.cons h .nil (fun hne ↦ absurd rfl hne) .nil
  rwa [List.append_nil, List.append_nil] at hlaid

/-- Lexemes that can be spelled can be laid out. -/
theorem exists_laid (h : ∀ l ∈ ls, l.IsSpelled) : ∃ text, Laid ls text := by
  induction ls with
  | nil => exact ⟨[], .nil⟩
  | cons l ls ih =>
    obtain ⟨⟨cs, hcs⟩, hls⟩ := List.forall_mem_cons.mp h
    obtain ⟨text, htext⟩ := ih hls
    exact ⟨_, .blank hcs htext⟩

theorem exists_stands (h : ∀ l ∈ ls, l.IsSpelled) : ∃ text : String, Stands ls text.toList := by
  obtain ⟨cs, hcs⟩ := exists_laid h
  exact ⟨String.ofList cs, String.toList_ofList ▸ hcs.stands⟩

/-! ### Reading lexemes -/

/-- A parser reads a row of lexemes in front of others, whatever the layout. -/
def Reads (p : Parser α) (ls us : List Lexeme) (P : α → Prop) : Prop :=
  ∀ text o, Laid (ls ++ us) text →
    ∃ x c, p.Gives .spaced ⟨o, text⟩ (some (x, c)) ∧ Stands us c.rest ∧
    c.rest.length + ls.length ≤ text.length ∧ P x

/-- A parser reads nothing in front of lexemes, whatever the layout. -/
def Refuses (p : Parser α) (us : List Lexeme) : Prop :=
  ∀ text o, Laid us text → p.Gives .spaced ⟨o, text⟩ none

theorem Reads.mono {P' : α → Prop} (h : Reads p ls us P) (himp : ∀ x, P x → P' x) :
    Reads p ls us P' := by
  intro text o hlaid
  obtain ⟨x, c, hp, hstands, hlength, hx⟩ := h text o hlaid
  exact ⟨x, c, hp, hstands, hlength, himp x hx⟩

theorem Reads.bind_pure {g : α → β} (h : Reads p ls us P) (hg : ∀ x, P x → Q (g x)) :
    Reads (p >>= fun x ↦ pure (g x)) ls us Q := by
  intro text o hlaid
  obtain ⟨x, c, hp, hstands, hlength, hx⟩ := h text o hlaid
  exact ⟨g x, c, hp.bind (gives_pure _), hstands, hlength, hg x hx⟩

theorem Reads.map {g : α → β} (h : Reads p ls us P) (hg : ∀ x, P x → Q (g x)) :
    Reads (g <$> p) ls us Q :=
  h.bind_pure hg

/-- Two parts of a spaced rule. -/
theorem Reads.then (hp : Reads p ls (ms ++ us) P) (hf : ∀ x, P x → Reads (f x) ms us Q) :
    Reads (do let x ← p; skip; f x) (ls ++ ms) us Q := by
  intro text o hlaid
  rw [List.append_assoc] at hlaid
  obtain ⟨x, c, hgives, hstands, hlength, hx⟩ := hp text o hlaid
  obtain ⟨c', hskip, hlaid', hle⟩ := hstands.skip
  obtain ⟨y, c'', hgives', hstands', hlength', hy⟩ := hf x hx c'.rest c'.offset hlaid'
  refine ⟨y, c'', hgives.bind (hskip.bind hgives'), hstands', ?_, hy⟩
  rw [List.length_append]
  omega

/-- What may be missing is missing. -/
theorem Reads.missing (hp : Reads p [] (ms ++ us) P) (hf : ∀ x, P x → Reads (f x) ms us Q) :
    Reads (do let x ← p; skip; f x) ms us Q :=
  Reads.then hp hf

theorem Reads.ruleIn {rule : Rule} (h : Reads p ls us P) : Reads (p.spaced rule) ls us P := by
  intro text o hlaid
  obtain ⟨x, c, hp, hrest⟩ := h text o hlaid
  exact ⟨x, c, Gives.ruleIn hp, hrest⟩

theorem Reads.orElse (h : Reads p ls us P) : Reads (p <|> q) ls us P := by
  intro text o hlaid
  obtain ⟨x, c, hp, hrest⟩ := h text o hlaid
  exact ⟨x, c, hp.orElse, hrest⟩

theorem Reads.orElse_none (hp : Refuses p (ls ++ us)) (hq : Reads q ls us P) :
    Reads (p <|> q) ls us P := by
  intro text o hlaid
  obtain ⟨x, c, hx, hrest⟩ := hq text o hlaid
  exact ⟨x, c, (hp text o hlaid).orElse_none hx, hrest⟩

theorem Reads.optional (h : Reads p ls us P) :
    Reads p.optional ls us fun x ↦ ∃ y, x = some y ∧ P y := by
  intro text o hlaid
  obtain ⟨x, c, hp, hstands, hlength, hx⟩ := h text o hlaid
  exact ⟨some x, c, hp.optional, hstands, hlength, x, rfl, hx⟩

theorem Refuses.optional (h : Refuses p us) : Reads p.optional [] us (· = none) :=
  fun text o hlaid ↦ ⟨none, ⟨o, text⟩, (h text o hlaid).optional_none,
    hlaid.stands, Nat.le_refl _, rfl⟩

theorem Refuses.bind (h : Refuses p us) : Refuses (p >>= f) us :=
  fun text o hlaid ↦ (h text o hlaid).bind_none

theorem Refuses.ruleIn {rule : Rule} (h : Refuses p us) : Refuses (p.spaced rule) us :=
  fun text o hlaid ↦ Gives.ruleIn (h text o hlaid)

theorem Refuses.orElse (hp : Refuses p us) (hq : Refuses q us) : Refuses (p <|> q) us :=
  fun text o hlaid ↦ (hp text o hlaid).orElse_none (hq text o hlaid)

/-- A part of a spaced rule is read and the next one refuses what follows. -/
theorem Reads.then_refuses (hp : Reads p ls us P) (hf : ∀ x, P x → Refuses (f x) us) :
    Refuses (do let x ← p; skip; f x) (ls ++ us) := by
  intro text o hlaid
  obtain ⟨x, c, hgives, hstands, -, hx⟩ := hp text o hlaid
  obtain ⟨c', hskip, hlaid', -⟩ := hstands.skip
  exact hgives.bind (hskip.bind (hf x hx c'.rest c'.offset hlaid'))

/-! ### Single lexemes -/

theorem reads_one (h : ∀ cs rest o, l.Spelled cs → Ends rest →
    ∃ x, p.Gives .spaced ⟨o, cs ++ rest⟩ (some (x, ⟨o + cs.length, rest⟩)) ∧ P x) :
    Reads p [l] us P := by
  intro text o hlaid
  obtain ⟨cs, rest, rfl, hcs, hends, hstands⟩ := hlaid.first
  obtain ⟨x, hp, hx⟩ := h cs rest o hcs hends
  obtain ⟨d, ds, rfl, -⟩ := hcs.head
  refine ⟨x, _, hp, hstands, ?_, hx⟩
  simp only [List.length_append, List.length_cons, List.length_nil]
  omega

theorem reads_plain (h : ∀ rest, Ends rest → Scans p .spaced cs rest x) :
    Reads p [.plain cs] us (· = x) := by
  refine reads_one fun ds rest o hds hends ↦ ?_
  cases hds with
  | plain _ => exact ⟨x, h rest hends o, rfl⟩

theorem reads_mark (s : String) : Reads (word s) [.mark s] us fun _ ↦ True :=
  (reads_plain fun _ _ ↦ scans_word s).mono fun _ _ ↦ trivial

theorem refuses_plain {first : Char → Bool} {d : Char} (h : p.Begins first)
    (hhead : cs.head? = some d) (hd : first d = false) : Refuses p (.plain cs :: us) := by
  intro text o hlaid
  obtain ⟨ds, rest, rfl, hds, -⟩ := hlaid.first
  cases hds with
  | plain _ =>
    cases hhead
    exact h.refuses hd

theorem refuses_literal {first : Char → Bool} {v : Value} (h : p.Begins first)
    (hfirst : ∀ d, opensLiteral d → first d = false) : Refuses p (.literal v :: us) := by
  intro text o hlaid
  obtain ⟨ds, rest, rfl, hds, -⟩ := hlaid.first
  cases hds with
  | literal hspells =>
    obtain ⟨d, ds, rfl, hd⟩ := hspells.head
    exact h.refuses (hfirst d hd)

theorem reads_scalar {v : Value} : Reads scalar [.literal v] us fun t ↦ t.Means v := by
  refine reads_one fun cs rest o hcs hends ↦ ?_
  cases hcs with
  | literal hspells => exact scalar_gives hspells hends o

theorem reads_integer {n : Int64} :
    Reads integer [.literal (.long n)] us fun t ↦ t.IsInteger n ∧ t.Means (.long n) := by
  refine reads_one fun cs rest o hcs hends ↦ ?_
  cases hcs with
  | literal hspells =>
    cases hspells
    exact ⟨_, integer_gives _ hends, Token.isInteger_intDigits o n, long_means o n⟩

/-! ### Rows of lexemes with a mark between them -/

/-- Parts with a lexeme between them. -/
def separated (sep : Lexeme) : List (List Lexeme) → List Lexeme
  | [] => []
  | first :: more => first ++ more.flatMap (sep :: ·)

/-- Parts between two marks. -/
def bracketed (opening closing : String) (parts : List (List Lexeme)) : List Lexeme :=
  .mark opening :: (separated (.mark ",") parts ++ [.mark closing])

theorem mem_bracketed {opening closing : String} {parts : List (List Lexeme)}
    (h : l ∈ bracketed opening closing parts) :
    l = .mark opening ∨ l = .mark "," ∨ l = .mark closing ∨ ∃ part ∈ parts, l ∈ part := by
  obtain rfl | h := List.mem_cons.mp h
  · exact .inl rfl
  · obtain h | h := List.mem_append.mp h
    · cases parts with
      | nil => cases h
      | cons first more =>
        simp only [separated, List.mem_append, List.mem_flatMap, List.mem_cons] at h ⊢
        grind
    · rw [List.mem_singleton.mp h]
      exact .inr (.inr (.inl rfl))

section Parts

variable {parts : List γ} {row : γ → List Lexeme} {Means : γ → α → Prop}

/-- Behind a part there is the mark of the next one, or what follows them all. -/
theorem follow_part (sep : Lexeme) (us : List Lexeme) (rows : List (List Lexeme)) :
    (rows.flatMap (sep :: ·) ++ us).head? = some sep ∨ rows.flatMap (sep :: ·) ++ us = us := by
  cases rows with
  | nil => exact .inr rfl
  | cons row rows => exact .inl rfl

/-- Parts that follow a mark each, up to lexemes that are no further part. -/
theorem chain_parts
    (hpart : ∀ b ∈ parts, ∀ vs, vs.head? = some sep ∨ vs = us → Reads p (sep :: row b) vs (Means b))
    (hstop : Refuses p us) (hstands : Stands ((parts.map row).flatMap (sep :: ·) ++ us) c.rest) :
    ∃ xs c', Chain (do skip; p) .spaced c xs c' ∧ Stands us c'.rest ∧
      c'.rest.length + ((parts.map row).flatMap (sep :: ·)).length ≤ c.rest.length ∧
      List.Forall₂ Means parts xs := by
  induction parts generalizing c with
  | nil =>
    obtain ⟨c', hskip, hlaid, -⟩ := hstands.skip
    exact ⟨[], c, .stop (hskip.bind (hstop c'.rest c'.offset hlaid)), hstands, Nat.le_refl _, .nil⟩
  | cons b parts ih =>
    obtain ⟨hb, hparts⟩ := List.forall_mem_cons.mp hpart
    obtain ⟨c₁, hskip, hlaid, hle⟩ := hstands.skip
    rw [List.map_cons, List.flatMap_cons, List.append_assoc] at hlaid
    obtain ⟨x, c₂, hx, hstands₂, hlength, hmeans⟩ := hb _ (follow_part ..) c₁.rest c₁.offset hlaid
    obtain ⟨xs, c₃, hchain, hstands₃, hlength₃, hall⟩ := ih hparts hstands₂
    simp only [List.length_cons] at hlength
    refine ⟨x :: xs, c₃, .step (hskip.bind hx) (by omega) hchain, hstands₃, ?_, .cons hmeans hall⟩
    simp only [List.map_cons, List.flatMap_cons, List.length_append, List.length_cons]
    omega

theorem reads_star
    (hpart : ∀ b ∈ parts, ∀ vs, vs.head? = some sep ∨ vs = us → Reads p (sep :: row b) vs (Means b))
    (hstop : Refuses p us) :
    Reads p.star ((parts.map row).flatMap (sep :: ·)) us (List.Forall₂ Means parts) := by
  intro text o hlaid
  cases parts with
  | nil => exact ⟨[], ⟨o, text⟩, (hstop text o hlaid).star_none, hlaid.stands, Nat.le_refl _, .nil⟩
  | cons b parts =>
    obtain ⟨hb, hparts⟩ := List.forall_mem_cons.mp hpart
    rw [List.map_cons, List.flatMap_cons, List.append_assoc] at hlaid
    obtain ⟨x, c, hx, hstands, hlength, hmeans⟩ := hb _ (follow_part ..) text o hlaid
    obtain ⟨xs, c', hchain, hstands', hlength', hall⟩ := chain_parts hparts hstop hstands
    refine ⟨x :: xs, c', Chain.star hx hchain, hstands', ?_, .cons hmeans hall⟩
    simp only [List.map_cons, List.flatMap_cons, List.length_append, List.length_cons] at hlength ⊢
    omega

/-- A first part, and further parts up to lexemes that are no further part. -/
theorem reads_separated (sep : Lexeme) (us : List Lexeme) (Q : β → Prop) {mark : Parser Unit}
    {g : α → List α → β} (hmark : ∀ vs, Reads mark [sep] vs fun _ ↦ True)
    (hpart : ∀ b ∈ parts, ∀ vs, vs.head? = some sep ∨ vs = us → Reads p (row b) vs (Means b))
    (hstop : Refuses mark us) (hg : ∀ x xs, List.Forall₂ Means parts (x :: xs) → Q (g x xs))
    (hne : parts ≠ []) :
    Reads (do
      let x ← p
      skip
      let xs ← star do
        mark
        skip
        p
      pure (g x xs)) (separated sep (parts.map row)) us Q := by
  obtain ⟨b, parts, rfl⟩ := List.exists_cons_of_ne_nil hne
  obtain ⟨hb, hparts⟩ := List.forall_mem_cons.mp hpart
  refine (hb _ (follow_part ..)).then fun x hx ↦ Reads.bind_pure
      (reads_star ?_ hstop.bind) fun xs hxs ↦
    hg x xs (.cons hx hxs)
  exact fun b' hb' vs hvs ↦ (hmark _).then fun _ _ ↦ hparts b' hb' vs hvs

/-- Parts between marks, with commas between them. -/
theorem reads_enclosed {opening closing : String} {d : Char}
    (hpart : ∀ b ∈ parts, ∀ vs, vs.head? = some (.mark ",") ∨ vs.head? = some (.mark closing) →
      Reads p (row b) vs (Means b))
    (hempty : Refuses p (.mark closing :: us))
    (hclosing : closing.toList.head? = some d) (hd : d ≠ ',') :
    Reads (enclosed opening closing p) (bracketed opening closing (parts.map row)) us
      (List.Forall₂ Means parts) := by
  have hcomma : Refuses (word ",") (.mark closing :: us) :=
    refuses_plain
      (begins_word rfl : (word ",").Begins (· == ',')) hclosing (beq_eq_false_iff_ne.mpr hd)
  have hclose (items : Option (List α)) (hitems : List.Forall₂ Means parts (items.getD [])) :
      Reads (do
        let _ ← (word ",").optional
        skip
        word closing
        pure (items.getD [])) [.mark closing] us (List.Forall₂ Means parts) :=
    hcomma.optional.missing fun _ _ ↦ (reads_mark closing).bind_pure fun _ _ ↦ hitems
  refine (reads_mark opening).then fun _ _ ↦ ?_
  by_cases hne : parts = []
  · subst hne
    refine hempty.bind.optional.missing fun items hitems ↦ hclose items ?_
    subst hitems
    exact .nil
  · have hitems := reads_separated (.mark ",") (.mark closing :: us) (List.Forall₂ Means parts)
      (fun _ ↦ reads_mark ",")
        (fun b hb vs hvs ↦ hpart b hb vs (hvs.imp_right fun h ↦ by rw [h]; rfl)) hcomma
      (fun x xs h ↦ h) hne
    refine hitems.optional.then fun items hitems ↦ hclose items ?_
    obtain ⟨xs, rfl, hxs⟩ := hitems
    exact hxs

end Parts

end EntityStore.Language
