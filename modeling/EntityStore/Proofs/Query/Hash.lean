import EntityStore.Database.Basic
import EntityStore.Proofs.Language.Alike
import EntityStore.Proofs.Text.Collapse
import EntityStore.Query.Hash

/-!
Texts of one hash. Where collapsing blanks changes the spacing of a text and nothing else, queries
of one hash compile alike; a text between quotes with two blanks in a row is changed, and such
queries may differ.
-/

set_option autoImplicit false

namespace EntityStore

open EntityStore.Language EntityStore.Language.Parser

/-- Collapsing blanks changes the spacing of a text only: its blanks are white space of the language
where no text between quotes stands and single spaces where one does, and a comment has nothing but
spacing behind it. The flag tells that a quote was opened. -/
def isPlain : Bool → List Char → Bool
  | _, [] => true
  | true, '"' :: cs => isPlain false cs
  | true, '\\' :: c :: cs => !isBlank c && isPlain true cs
  | true, c :: cs => (!isBlank c || c == ' ' && cs.head?.all (!isBlank ·)) && isPlain true cs
  | false, '"' :: cs => isPlain true cs
  | false, '/' :: '/' :: cs => (skipSpace true cs).isEmpty
  | false, c :: cs => (!isBlank c || isSpace c) && isPlain false cs

variable {c d : Char} {cs cs' ds r : List Char}

/-! ### Texts between quotes -/

theorem unclosed_nil : Unclosed [] :=
  fun _ ds _ _ h ↦ by cases ds <;> cases h

theorem unclosed_cons (hc : c ≠ '"' ∧ c ≠ '\\') (h : Unclosed r) : Unclosed (c :: r) := by
  intro cs ds rest hquotes heq
  cases hquotes with
  | nil => exact hc.1 (List.cons.inj heq).1
  | plain _ hquotes => exact h _ _ rest hquotes (List.cons.inj heq).2
  | escaped _ _ => exact hc.2 (List.cons.inj heq).1

theorem unclosed_escape (h : Unclosed r) : Unclosed ('\\' :: d :: r) := by
  intro cs ds rest hquotes heq
  cases hquotes with
  | nil => cases heq
  | plain hc _ => exact hc.2 (List.cons.inj heq).1.symm
  | escaped _ hquotes => exact h _ _ rest hquotes (List.cons.inj (List.cons.inj heq).2).2

theorem unclosed_backslash (h : ∀ e ∈ r.head?, ∀ c, (e, c) ∉ escapes) : Unclosed ('\\' :: r) := by
  intro cs ds rest hquotes heq
  cases hquotes with
  | nil => cases heq
  | plain hc _ => exact hc.2 (List.cons.inj heq).1.symm
  | escaped hmem _ => exact h _ (by rw [(List.cons.inj heq).2]; rfl) _ hmem

theorem isBlank_of_isSpace (h : isSpace c) : isBlank c := by
  simp only [isSpace, Bool.or_eq_true, beq_iff_eq] at h
  obtain ((rfl | rfl) | rfl) | rfl := h <;> rfl

theorem isSpace_of_not_isBlank (h : isBlank c = false) : isSpace c = false :=
  Bool.eq_false_iff.mpr fun hspace ↦ by simp [isBlank_of_isSpace hspace] at h

/-- Behind an opening quote two texts are the same up to the closing one, or neither has one. -/
def QuotedAlike (cs cs' : List Char) : Prop :=
  (∃ xs ds rest, Quotes xs ds ∧ cs = ds ++ '"' :: rest ∧ cs' = ds ++ '"' :: squeeze false rest ∧
      isPlain false rest) ∨
    (Unclosed cs ∧ Unclosed cs')

theorem QuotedAlike.plain (hc : c ≠ '"' ∧ c ≠ '\\') (h : QuotedAlike cs cs') :
    QuotedAlike (c :: cs) (c :: cs') := by
  obtain ⟨xs, ds, rest, hds, rfl, rfl, hrest⟩ | ⟨hcs, hcs'⟩ := h
  · exact .inl ⟨c :: xs, c :: ds, rest, .plain hc hds, rfl, rfl, hrest⟩
  · exact .inr ⟨unclosed_cons hc hcs, unclosed_cons hc hcs'⟩

theorem QuotedAlike.escaped (h : QuotedAlike cs cs') : QuotedAlike ('\\' :: d :: cs)
    ('\\' :: d :: cs') := by
  by_cases hd : ∃ c, (d, c) ∈ escapes
  · obtain ⟨c, hc⟩ := hd
    obtain ⟨xs, ds, rest, hds, rfl, rfl, hrest⟩ | ⟨hcs, hcs'⟩ := h
    · exact .inl ⟨c :: xs, '\\' :: d :: ds, rest, .escaped hc hds, rfl, rfl, hrest⟩
    · exact .inr ⟨unclosed_escape hcs, unclosed_escape hcs'⟩
  · have hnone (r : List Char) : ∀ e ∈ (d :: r).head?, ∀ c, (e, c) ∉ escapes := by
      rintro e ⟨⟩ c hc
      exact hd ⟨c, hc⟩
    exact .inr ⟨unclosed_backslash (hnone cs), unclosed_backslash (hnone cs')⟩

theorem isPlain_plain (hc : c ≠ '"' ∧ c ≠ '\\') :
    isPlain true (c :: cs) = ((!isBlank c || c == ' ' && cs.head?.all (!isBlank ·)) &&
      isPlain true cs) := by
  rw [isPlain.eq_def]
  split <;> simp_all

theorem isPlain_quoted (h : isPlain true cs) : QuotedAlike cs (squeeze false cs) := by
  induction hlength : cs.length using Nat.strongRecOn generalizing cs with
  | ind length ih =>
    subst hlength
    cases cs with
    | nil => exact .inr ⟨unclosed_nil, unclosed_nil⟩
    | cons c cs =>
      by_cases hc : c ≠ '"' ∧ c ≠ '\\'
      · rw [isPlain_plain hc, Bool.and_eq_true] at h
        have hcs : QuotedAlike cs (squeeze false cs) := ih _ (Nat.lt_succ_self _) h.2 rfl
        cases hblank : isBlank c with
        | false =>
          rw [squeeze_cons hblank]
          exact hcs.plain hc
        | true =>
          -- a blank between quotes is one space, which collapsing leaves where more follows
          obtain ⟨rfl, hnext⟩ : c = ' ' ∧ cs.head?.all (!isBlank ·) := by simpa [hblank] using h.1
          cases cs with
          | nil => exact .inr ⟨unclosed_cons hc unclosed_nil, unclosed_nil⟩
          | cons d cs =>
            have hd : isBlank d = false := by simpa using hnext
            rw [squeeze_blank rfl, squeeze_gap hd, ← squeeze_cons hd]
            exact hcs.plain hc
      · rw [not_and_or, not_not, not_not] at hc
        obtain rfl | rfl := hc
        · exact .inl ⟨[], [], cs, .nil, rfl, squeeze_cons rfl cs, by simpa [isPlain] using h⟩
        · cases cs with
          | nil =>
            have hend : Unclosed ['\\'] := unclosed_backslash (by rintro e ⟨⟩)
            exact .inr ⟨hend, hend⟩
          | cons d cs =>
            obtain ⟨hd, hplain⟩ : isBlank d = false ∧ isPlain true cs := by simpa [isPlain] using h
            rw [squeeze_cons rfl, squeeze_cons hd]
            exact (ih _ (Nat.lt_succ_of_lt (Nat.lt_succ_self _)) hplain rfl).escaped

/-! ### Between texts -/

theorem newline_not_mem_squeeze {gap : Bool} : '\n' ∉ squeeze gap cs := by
  induction cs generalizing gap with
  | nil => simp
  | cons c cs ih =>
    cases hc : isBlank c with
    | true =>
      rw [squeeze_blank hc]
      exact ih
    | false =>
      have hne : '\n' ≠ c := by
        rintro rfl
        exact absurd hc (by decide)
      cases gap <;> simp [squeeze, hc, hne, ih]

theorem skipSpace_comment (h : '\n' ∉ r) : skipSpace true r = [] := by
  induction r with
  | nil => rfl
  | cons c r ih =>
    rw [List.mem_cons, not_or] at h
    rw [skipSpace.eq_2 c r fun heq ↦ h.1 heq.symm]
    exact ih h.2

theorem squeeze_head_slash (h : cs.head? ≠ some '/') : (squeeze false cs).head? ≠ some '/' := by
  cases cs with
  | nil => simp
  | cons c cs =>
    cases hc : isBlank c with
    | false => rwa [squeeze_cons hc]
    | true =>
      rw [squeeze_blank hc, (squeeze_joined cs).1]
      split <;> simp

theorem isPlain_outside (hc : c ≠ '"' ∧ c ≠ '/') :
    isPlain false (c :: cs) = ((!isBlank c || isSpace c) && isPlain false cs) := by
  rw [isPlain.eq_def]
  split <;> simp_all

theorem isPlain_blank (hc : isBlank c) (h : isPlain false (c :: cs)) :
    isSpace c ∧ isPlain false cs := by
  have hne : c ≠ '"' ∧ c ≠ '/' := by
    refine ⟨?_, ?_⟩ <;> rintro rfl <;> exact absurd hc (by decide)
  simpa [isPlain_outside hne, hc] using h

/-- What begins with no blank is the same text with other spacing if all that follows is. -/
theorem isPlain_visible (hc : isBlank c = false) (h : isPlain false (c :: cs))
    (ih : ∀ r, r.length ≤ cs.length → isPlain false r → Respaced r (squeeze false r)) :
    Respaced (c :: cs) (c :: squeeze false cs) := by
  by_cases hquote : c = '"'
  · subst hquote
    have hquoted : QuotedAlike cs (squeeze false cs) := isPlain_quoted (by simpa [isPlain] using h)
    obtain ⟨xs, ds, rest, hds, rfl, hsqueeze, hrest⟩ | ⟨hcs, hcs'⟩ := hquoted
    · rw [hsqueeze]
      refine .text hds (ih rest ?_ hrest)
      simp
      omega
    · exact .unclosed hcs hcs'
  · by_cases hslash : c = '/'
    · subst hslash
      by_cases hcomment : cs.head? = some '/'
      · obtain ⟨r, rfl⟩ := List.head?_eq_some_iff.mp hcomment
        rw [squeeze_cons rfl]
        refine .ended ?_ (skipSpace_comment newline_not_mem_squeeze)
        simpa [isPlain, skipSpace] using h
      · exact .slash hcomment (squeeze_head_slash hcomment)
    · rw [isPlain_outside ⟨hquote, hslash⟩, Bool.and_eq_true] at h
      have hink : isInk c := by
        simp [isInk, Lexeme.opens, isSpace_of_not_isBlank hc, hquote, hslash]
      exact .ink hink (ih cs (Nat.le_refl _) h.2)

/-- Outside of texts between quotes, collapsing blanks changes the spacing of a plain text only. -/
theorem isPlain_respaced (h : isPlain false cs) :
    Respaced cs (squeeze false cs) ∧
      ∀ gap, gap ≠ [] → (∀ c ∈ gap, isSpace c) → Respaced (gap ++ cs) (squeeze true cs) := by
  induction hlength : cs.length using Nat.strongRecOn generalizing cs with
  | ind length ih =>
    subst hlength
    cases cs with
    | nil => exact ⟨.ended rfl rfl, fun gap _ hgap ↦ .ended (skipSpace_blanks hgap []) rfl⟩
    | cons c cs =>
      cases hc : isBlank c with
      | false =>
        have hvisible : Respaced (c :: cs) (c :: squeeze false cs) :=
          isPlain_visible hc h fun r hr hplain ↦ (ih r.length (Nat.lt_succ_of_le hr) hplain rfl).1
        rw [squeeze_cons hc, squeeze_gap hc]
        have hspace : ∀ d ∈ [' '], isSpace d := List.forall_mem_singleton.mpr rfl
        exact ⟨hvisible,
          fun gap hne hgap ↦ .blanks hne (List.cons_ne_nil ' ' []) hgap hspace hvisible⟩
      | true =>
        obtain ⟨hspace, hplain⟩ := isPlain_blank hc h
        obtain ⟨-, hrest⟩ := ih cs.length (Nat.lt_succ_self _) hplain rfl
        rw [squeeze_blank hc, squeeze_blank hc]
        refine ⟨hrest [c] (by simp) (by simpa using hspace), fun gap _ hgap ↦ ?_⟩
        rw [List.append_cons]
        refine hrest (gap ++ [c]) (by simp) fun d hd ↦ ?_
        obtain hd | hd := List.mem_append.mp hd
        · exact hgap d hd
        · rwa [List.mem_singleton.mp hd]

theorem isPlain_skipBlanks (h : isPlain false cs) :
    ∃ gap, cs = gap ++ skipBlanks cs ∧ (∀ c ∈ gap, isSpace c) ∧ isPlain false (skipBlanks cs) := by
  induction cs with
  | nil => exact ⟨[], rfl, by simp, rfl⟩
  | cons c cs ih =>
    cases hc : isBlank c with
    | false => exact ⟨[], by simp [skipBlanks, hc], by simp, by simpa [skipBlanks, hc] using h⟩
    | true =>
      obtain ⟨hspace, hplain⟩ := isPlain_blank hc h
      obtain ⟨gap, hgap, hspaces, hrest⟩ := ih hplain
      have hskip : skipBlanks (c :: cs) = skipBlanks cs := List.dropWhile_cons_of_pos hc
      rw [hskip]
      exact ⟨c :: gap, by
        rw [List.cons_append, ← hgap], List.forall_mem_cons.mpr ⟨hspace, hspaces⟩, hrest⟩

/-- A plain text reads as a query just as it does with its blanks collapsed. -/
theorem readQuery_collapseBlanks {text : String} (h : isPlain false text.toList) :
    (readQuery text).toOption = (readQuery (collapseBlanks text)).toOption := by
  obtain ⟨gap, hgap, hspaces, hrest⟩ := isPlain_skipBlanks h
  have hskip : skipSpace false text.toList = skipSpace false (skipBlanks text.toList) := by
    conv_lhs => rw [hgap]
    exact skipSpace_blanks hspaces _
  refine readQuery_respaced ?_
  rw [toList_collapseBlanks, hskip]
  exact (isPlain_respaced hrest).1.skip

namespace Schema

variable {s : Schema} {t u : String}

theorem query_toOption (s : Schema) (t : String) :
    (s.query t).toOption = (readQuery t).toOption.bind fun form ↦
      (s.compileQuery form).toOption := by
  simp only [query, Except.toOption_bind, Except.toOption_mapError]

/-- Plain texts of one hash compile to the same query or neither compiles, unless their digests
collide. -/
theorem query_of_hash_eq (ht : isPlain false t.toList) (hu : isPlain false u.toList)
    (hhash : Query.hash t = Query.hash u)
    (hfree : Digest.hex (collapseBlanks t).toUTF8 = Digest.hex (collapseBlanks u).toUTF8 →
      (collapseBlanks t).toUTF8 = (collapseBlanks u).toUTF8) :
    (s.query t).toOption = (s.query u).toOption := by
  have hcollapse : collapseBlanks t = collapseBlanks u := String.toByteArray_inj.mp (hfree hhash)
  rw [query_toOption, query_toOption, readQuery_collapseBlanks ht,
    readQuery_collapseBlanks hu, hcollapse]

def wordsCalls : List Schema.Call :=
  [.addEntity "E" .master, .addProperty "E" (.field "name" (.ofType .text)), .commit]

/-- Lines and tabs between the words of a query do not matter. -/
theorem query_of_hash_eq_of_words : ∃ t u : String, t ≠ u ∧ Query.hash t = Query.hash u ∧
    ((Schema.empty.after wordsCalls).query t).isOk ∧
    ((Schema.empty.after wordsCalls).query t).toOption =
      ((Schema.empty.after wordsCalls).query u).toOption := by
  let t := "\n E | name == \"a b\" |\t\x7b * \x7d // all of them"
  let u := "E | name == \"a b\" | \x7b * \x7d // all  of them\n"
  have hcollapse : collapseBlanks t = collapseBlanks u := by decide +kernel
  have hok : ((Schema.empty.after wordsCalls).query t).isOk := by decide +kernel
  exact ⟨t, u, by decide, congrArg (fun text : String ↦ Digest.hex text.toUTF8) hcollapse, hok,
    query_of_hash_eq (by decide +kernel) (by decide +kernel)
      (congrArg (fun text : String ↦ Digest.hex text.toUTF8) hcollapse)
        fun _ ↦ congrArg String.toUTF8 hcollapse⟩

/-- The text that a query compares with, if it has one comparison. -/
def textSought (q : Query.Compiled) : Option String :=
  match q.tree.level.filter with
  | some (.predicate ⟨_, _, _, _, .value (.text text)⟩) => some text
  | _ => none

/-- Blanks between quotes are collapsed too, so queries for different texts share a hash. -/
theorem query_ne_of_words : ∃ (s : Schema) (t u : String) (q r : Query.Compiled), s.Reachable ∧
    Query.hash t = Query.hash u ∧ s.query t = .ok q ∧ s.query u = .ok r ∧ q.tree ≠ r.tree := by
  let s := Schema.empty.after wordsCalls
  let t := "E | name == \"a  b\" | \x7b * \x7d"
  let u := "E | name == \"a b\" | \x7b * \x7d"
  have hcollapse : collapseBlanks t = collapseBlanks u := by decide +kernel
  have ht : (s.query t).toOption.any (fun q ↦ textSought q == some "a  b") = true := by
    decide +kernel
  have hu : (s.query u).toOption.any (fun q ↦ textSought q == some "a b") = true := by
    decide +kernel
  obtain ⟨q, hq, htext⟩ := (Option.any_eq_true _ _).mp ht
  obtain ⟨r, hr, htext'⟩ := (Option.any_eq_true _ _).mp hu
  refine ⟨s, t, u, q, r, ⟨wordsCalls, rfl⟩,
    congrArg (fun text : String ↦ Digest.hex text.toUTF8) hcollapse,
    Except.toOption_eq_some_iff.mp hq, Except.toOption_eq_some_iff.mp hr, fun heq ↦ ?_⟩
  unfold textSought at htext htext'
  rw [heq, beq_iff_eq.mp htext'] at htext
  exact absurd htext (by decide)

end Schema

end EntityStore
