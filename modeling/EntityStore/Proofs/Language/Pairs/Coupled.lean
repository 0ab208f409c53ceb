import EntityStore.Proofs.Language.Pairs.Lexemes

/-!
Two parsers that run in step. At every place of a text they read the same characters and record the
same attempts, or both refuse; what the one gives is related to what the other gives. The rules that
give syntax trees and the rules that give pairs are such parsers.
-/

set_option autoImplicit false

namespace EntityStore.Language

/-- The pair's characters stand in the text at the pair's place. -/
def Pair.StandsIn (P : Pair) (text : List Char) : Prop :=
  ∃ before after, text = before ++ (P.chars ++ after) ∧ before.length = P.offset

/-- The cursor is at a place of the text. -/
def Cursor.IsIn (c : Cursor) (text : List Char) : Prop :=
  ∃ before, text = before ++ c.rest ∧ before.length = c.offset

/-- Going over characters of the text stays in it. -/
theorem Cursor.IsIn.step {text cs : List Char} {c c' : Cursor} (h : c.IsIn text)
    (hrest : c.rest = cs ++ c'.rest) (hoffset : c'.offset = c.offset + cs.length) :
    c'.IsIn text := by
  obtain ⟨before, htext, hlength⟩ := h
  refine ⟨before ++ cs, by rw [htext, hrest, List.append_assoc], ?_⟩
  rw [List.length_append, hlength, hoffset]

namespace Parser

variable {α β γ δ : Type} {text : List Char} {p : Parser α} {q : Parser β}
  {f : α → Parser γ} {g : β → Parser δ} {R : α → β → Prop} {Q : γ → δ → Prop} {m : Mode}
  {c c' : Cursor} {a a' : Attempts} {x : α}

/-! ### Runs -/

theorem bind_of_some (h : p m c a = (some (x, c'), a')) : (p >>= f) m c a = f x m c' a' := by
  change p.andThen f m c a = _
  rw [andThen, h]

theorem bind_of_none (h : p m c a = (none, a')) : (p >>= f) m c a = (none, a') := by
  change p.andThen f m c a = _
  rw [andThen, h]

theorem orElse_of_some {p' : Parser α} (h : p m c a = (some (x, c'), a')) :
    (p <|> p') m c a = (some (x, c'), a') := by
  change p.orElse (fun _ ↦ p') m c a = _
  rw [orElse, h]

theorem orElse_of_none {p' : Parser α} (h : p m c a = (none, a')) :
    (p <|> p') m c a = p' m c a' := by
  change p.orElse (fun _ ↦ p') m c a = _
  rw [orElse, h]

theorem paired_of_some {part : Part} {p : Parser (List Pair)} {inner : List Pair}
    (h : p m c a = (some (inner, c'), a')) :
    paired part p m c a = (some (⟨part, c.offset, c.rest.take (c'.offset - c.offset), inner⟩, c'),
      a') := by
  rw [paired, h]

theorem paired_of_none {part : Part} {p : Parser (List Pair)} (h : p m c a = (none, a')) :
    paired part p m c a = (none, a') := by
  rw [paired, h]

/-! ### Parsers in step -/

/-- The parsers read the same or refuse alike, with related results. -/
def Coupled (text : List Char) (p : Parser α) (q : Parser β) (R : α → β → Prop) : Prop :=
  ∀ m c a, c.IsIn text →
    (∃ a', p m c a = (none, a') ∧ q m c a = (none, a')) ∨
    ∃ x y c' a', p m c a = (some (x, c'), a') ∧ q m c a = (some (y, c'), a') ∧ c'.IsIn text ∧ R x y

theorem Coupled.mono {R' : α → β → Prop} (h : Coupled text p q R) (himp : ∀ x y, R x y → R' x y) :
    Coupled text p q R' := by
  intro m c a hc
  refine (h m c a hc).imp_right ?_
  rintro ⟨x, y, c', a', hp, hq, hin, hR⟩
  exact ⟨x, y, c', a', hp, hq, hin, himp x y hR⟩

theorem coupled_fail : Coupled text (fail : Parser α) (fail : Parser β) R :=
  fun _ _ a _ ↦ .inl ⟨a, rfl, rfl⟩

theorem coupled_pure {x : α} {y : β} (h : R x y) : Coupled text (pure x) (pure y) R :=
  fun _ c a hc ↦ .inr ⟨x, y, c, a, rfl, rfl, hc, h⟩

/-- A parser runs in step with itself. -/
theorem coupled_self {S : Mode → Nat → List Char → α → Prop} (h : ∀ m, Consumes m p (S m)) :
    Coupled text p p Eq := by
  intro m c a hc
  match hrun : p m c a with
  | (none, a') => exact .inl ⟨a', rfl, rfl⟩
  | (some (x, c'), a') =>
    obtain ⟨cs, hrest, hoffset, -⟩ := h m hrun
    exact .inr ⟨x, x, c', a', rfl, rfl, hc.step hrest hoffset, rfl⟩

theorem coupled_skip : Coupled text skip skip Eq :=
  coupled_self fun _ ↦ consumes_skip

theorem coupled_word (s : String) : Coupled text (word s) (word s) Eq :=
  coupled_self fun _ ↦ consumes_word s

theorem Coupled.bind (h : Coupled text p q R) (hf : ∀ x y, R x y → Coupled text (f x) (g y) Q) :
    Coupled text (p >>= f) (q >>= g) Q := by
  intro m c a hc
  obtain ⟨a', hp, hq⟩ | ⟨x, y, c', a', hp, hq, hc', hR⟩ := h m c a hc
  · exact .inl ⟨a', bind_of_none hp, bind_of_none hq⟩
  · rw [bind_of_some hp, bind_of_some hq]
    exact hf x y hR m c' a' hc'

/-- Both parsers go over the same spacing. -/
theorem Coupled.afterSkip {f : Unit → Parser γ} {g : Unit → Parser δ}
    (h : Coupled text (f ()) (g ()) Q) :
    Coupled text (skip >>= f) (skip >>= g) Q :=
  coupled_skip.bind fun _ _ _ ↦ h

/-- Both parsers go over the same word. -/
theorem Coupled.afterWord {s : String} {f : Unit → Parser γ} {g : Unit → Parser δ}
    (h : Coupled text (f ()) (g ()) Q) : Coupled text (word s >>= f) (word s >>= g) Q :=
  (coupled_word s).bind fun _ _ _ ↦ h

/-- What follows on one side alone reads nothing. -/
theorem Coupled.bind_pure {k : β → δ} {Q : α → δ → Prop} (h : Coupled text p q R)
    (hk : ∀ x y, R x y → Q x (k y)) :
    Coupled text p (q >>= fun y ↦ pure (k y)) Q := by
  intro m c a hc
  obtain ⟨a', hp, hq⟩ | ⟨x, y, c', a', hp, hq, hc', hR⟩ := h m c a hc
  · exact .inl ⟨a', hp, bind_of_none hq⟩
  · exact .inr ⟨x, k y, c', a', hp, bind_of_some hq, hc', hk x y hR⟩

theorem Coupled.map_left {k : α → γ} {Q : γ → β → Prop} (h : Coupled text p q R)
    (hk : ∀ x y, R x y → Q (k x) y) :
    Coupled text (k <$> p) q Q := by
  intro m c a hc
  obtain ⟨a', hp, hq⟩ | ⟨x, y, c', a', hp, hq, hc', hR⟩ := h m c a hc
  · exact .inl ⟨a', bind_of_none hp, hq⟩
  · exact .inr ⟨k x, y, c', a', bind_of_some hp, hq, hc', hk x y hR⟩

theorem Coupled.map {j : α → γ} {k : β → δ} (h : Coupled text p q R)
    (hk : ∀ x y, R x y → Q (j x) (k y)) :
    Coupled text (j <$> p) (k <$> q) Q :=
  h.bind fun x y hR ↦ coupled_pure (hk x y hR)

theorem Coupled.orElse {p' : Parser α} {q' : Parser β} (h : Coupled text p q R)
    (h' : Coupled text p' q' R) :
    Coupled text (p <|> p') (q <|> q') R := by
  intro m c a hc
  obtain ⟨a', hp, hq⟩ | ⟨x, y, c', a', hp, hq, hrest⟩ := h m c a hc
  · rw [orElse_of_none hp, orElse_of_none hq]
    exact h' m c a' hc
  · exact .inr ⟨x, y, c', a', orElse_of_some hp, orElse_of_some hq, hrest⟩

theorem Coupled.optional (h : Coupled text p q R) :
    Coupled text p.optional q.optional (Option.Rel R) :=
  (h.map fun _ _ ↦ Option.Rel.some).orElse (coupled_pure .none)

theorem Coupled.repeated (h : Coupled text p q R) (n : Nat) :
    Coupled text (p.repeated n) (q.repeated n) (List.Forall₂ R) := by
  induction n with
  | zero => exact coupled_pure .nil
  | succ n ih =>
    exact (h.bind fun x y hR ↦ ih.bind fun xs ys hRs ↦ coupled_pure (.cons hR hRs)).orElse
      (coupled_pure .nil)

theorem Coupled.many (h : Coupled text p q R) : Coupled text p.many q.many (List.Forall₂ R) :=
  fun m c a ↦ h.repeated (c.rest.length + 1) m c a

theorem Coupled.star (h : Coupled text p q R) : Coupled text p.star q.star (List.Forall₂ R) :=
  have hnext : Coupled text (do skip; p) (do skip; q) R := .afterSkip h
  (h.bind fun _ _ hR ↦ hnext.many.bind fun _ _ hRs ↦ coupled_pure (.cons hR hRs)).orElse
    (coupled_pure .nil)

theorem Coupled.ruleIn {inner : Mode → Mode} {rule : Rule} (h : Coupled text p q R) :
    Coupled text (p.ruleIn inner rule) (q.ruleIn inner rule) R := by
  intro m c a hc
  unfold Parser.ruleIn
  obtain ⟨a', hp, hq⟩ | ⟨x, y, c', a', hp, hq, hrest⟩ := h (inner m) c a hc
  · rw [hp, hq]
    exact .inl ⟨_, rfl, rfl⟩
  · rw [hp, hq]
    exact .inr ⟨x, y, c', a', rfl, rfl, hrest⟩

theorem coupled_enclosed {opening closing : String} (h : Coupled text p q R) :
    Coupled text (Grammar.enclosed opening closing p) (Grammar.enclosed opening closing q)
      (List.Forall₂ R) := by
  have hnext : Coupled text (do word ","; skip; p) (do word ","; skip; q) R :=
    .afterWord (.afterSkip h)
  have hitems : Coupled text
      (do let x ← p; skip; let xs ← star (do word ","; skip; p); pure (x :: xs))
      (do let x ← q; skip; let xs ← star (do word ","; skip; q); pure (x :: xs)) (List.Forall₂ R) :=
    h.bind fun _ _ hx ↦ .afterSkip <| hnext.star.bind fun _ _ hxs ↦ coupled_pure (.cons hx hxs)
  refine .afterWord <| .afterSkip <| hitems.optional.bind fun xs ys hxs ↦ .afterSkip <|
    (coupled_word ",").optional.bind fun _ _ _ ↦ .afterSkip <| .afterWord <| coupled_pure ?_
  cases hxs with
  | none => exact .nil
  | some h => exact h

/-! ### Pairs -/

/-- A pair around what runs in step. -/
theorem Coupled.paired {q : Parser (List Pair)} {R : α → List Pair → Prop} {part : Part}
    (h : Coupled text p q R) :
    Coupled text p (q.paired part) fun x P ↦ P.part = part ∧ R x P.inner := by
  intro m c a hc
  obtain ⟨a', hp, hq⟩ | ⟨x, ps, c', a', hp, hq, hc', hR⟩ := h m c a hc
  · exact .inl ⟨a', hp, paired_of_none hq⟩
  · exact .inr ⟨x, _, c', a', hp, paired_of_some hq, hc', rfl, hR⟩

theorem Coupled.branch {q : Parser (List Pair)} {R : α → List Pair → Prop} {rule : Rule}
    (h : Coupled text p q R) :
    Coupled text (p.spaced rule) (q.branch rule) fun x P ↦ P.part = .rule rule ∧ R x P.inner :=
  h.paired.ruleIn

theorem coupled_choice {q : Parser Pair} {R : α → Pair → Prop} {rule : Rule}
    (h : Coupled text p q R) :
    Coupled text (p.spaced rule) (Pairs.choice rule q)
      fun x P ↦ P.part = .rule rule ∧ ∃ Q, P.inner = [Q] ∧ R x Q :=
  have hinner : Coupled text p (do let P ← q; pure [P]) fun x ps ↦ ∃ Q, ps = [Q] ∧ R x Q :=
    h.bind_pure fun _ Q hR ↦ ⟨Q, rfl, hR⟩
  hinner.branch

/-- What was gone over since a place is what stands there. -/
theorem standsIn_of_step {cs : List Char} {part : Part} {inner : List Pair} (hc : c.IsIn text)
    (hrest : c.rest = cs ++ c'.rest) : Pair.StandsIn ⟨part, c.offset, cs, inner⟩ text := by
  obtain ⟨before, htext, hlength⟩ := hc
  exact ⟨before, c'.rest, by rw [htext, hrest], hlength⟩

theorem take_of_step {cs : List Char} (hrest : c.rest = cs ++ c'.rest)
    (hoffset : c'.offset = c.offset + cs.length) :
    c.rest.take (c'.offset - c.offset) = cs := by
  simp [hrest, hoffset]

/-- A pair around what runs in step with a parser, over the characters that the parser goes over. -/
theorem Coupled.spanned {q : Parser (List Pair)} {R : α → List Pair → Prop}
    {S : Nat → List Char → α → Prop} {part : Part} (h : Coupled text p q R)
    (hp : ∀ m, Consumes m p S) :
    Coupled text p (q.paired part) fun x P ↦
      P.part = part ∧ R x P.inner ∧ P.StandsIn text ∧ S P.offset P.chars x := by
  intro m c a hc
  obtain ⟨a', hp', hq⟩ | ⟨x, ps, c', a', hp', hq, hc', hR⟩ := h m c a hc
  · exact .inl ⟨a', hp', paired_of_none hq⟩
  · obtain ⟨cs, hrest, hoffset, hS⟩ := hp m hp'
    refine .inr ⟨x, _, c', a', hp', paired_of_some hq, hc', rfl, hR, ?_, ?_⟩
    · rw [take_of_step hrest hoffset]
      exact standsIn_of_step hc hrest
    · rw [take_of_step hrest hoffset]
      exact hS

/-- A parser and the pair of what it reads. -/
theorem coupled_paired {S : Nat → List Char → α → Prop} {part : Part} (h : ∀ m, Consumes m p S) :
    Coupled text p (paired part do let _ ← p; pure []) fun x P ↦
      P.part = part ∧ P.StandsIn text ∧ S P.offset P.chars x := by
  have hnone : Coupled text p (do let _ ← p; pure []) fun _ (_ : List Pair) ↦ True :=
    (coupled_self h).bind_pure fun _ _ _ ↦ trivial
  exact (hnone.spanned h).mono fun _ _ ⟨hpart, _, hrest⟩ ↦ ⟨hpart, hrest⟩

/-- What a parser reads and the pair of it. -/
theorem coupled_captured {S : Nat → List Char → α → Prop} {part : Part} (h : ∀ m, Consumes m p S) :
    Coupled text p.captured (paired part do let _ ← p; pure []) fun x P ↦ P.StandsIn text ∧
    P.chars = x.2 := by
  intro m c a hc
  unfold captured
  match hrun : p m c a with
  | (none, a') => exact .inl ⟨a', rfl, paired_of_none (bind_of_none hrun)⟩
  | (some (x, c'), a') =>
    obtain ⟨cs, hrest, hoffset, -⟩ := h m hrun
    refine .inr ⟨_, _, c', a', rfl, paired_of_some (bind_of_some hrun),
      hc.step hrest hoffset, ?_, rfl⟩
    rw [take_of_step hrest hoffset]
    exact standsIn_of_step hc hrest

theorem coupled_leaf {S : Nat → List Char → α → Prop} {rule : Rule} (h : ∀ m, Consumes m p S) :
    Coupled text p (leaf rule p) fun x P ↦ P.part = .rule rule ∧ P.StandsIn text ∧
    S P.offset P.chars x :=
  coupled_paired h

/-- A parser that besides tells what it reads. -/
theorem Coupled.captured (h : Coupled text p q R) : Coupled text p.captured q fun _ _ ↦ True := by
  intro m c a hc
  unfold Parser.captured
  obtain ⟨a', hp, hq⟩ | ⟨x, y, c', a', hp, hq, hc', -⟩ := h m c a hc
  · rw [hp, hq]
    exact .inl ⟨a', rfl, rfl⟩
  · rw [hp, hq]
    exact .inr ⟨_, y, c', a', rfl, rfl, hc', trivial⟩

end Parser

end EntityStore.Language
