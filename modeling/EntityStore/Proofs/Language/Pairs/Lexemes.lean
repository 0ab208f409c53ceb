import EntityStore.Language.Pairs.Builder
import EntityStore.Proofs.Language.Agreement

/-!
The characters that a parser reads. Every rule of a lexeme reads characters of a certain shape, and
what it gives is what those characters spell: floats are numerals, integers a sign and digits, a
path its names with dots between them.
-/

set_option autoImplicit false

namespace EntityStore.Language

namespace Pair

/-- A pair is one of some pairs or stands inside of one. -/
inductive Under (P : Pair) : List Pair → Prop where
  | here {pairs : List Pair} (h : P ∈ pairs) : Under P pairs
  | inside {Q : Pair} {pairs : List Pair} (h : Q ∈ pairs) (hrest : Under P Q.inner) : Under P pairs

theorem Under.mono {P : Pair} {pairs pairs' : List Pair} (h : P.Under pairs)
    (hsub : pairs ⊆ pairs') :
    P.Under pairs' := by
  cases h with
  | here h => exact .here (hsub h)
  | inside h hrest => exact .inside (hsub h) hrest

end Pair

namespace Parser

variable {α β : Type} {p q : Parser α} {m : Mode} {S T : Nat → List Char → α → Prop}

/-- Where a parser gives something it went on over characters of a shape, told with the place where
they begin. -/
def Consumes (m : Mode) (p : Parser α) (S : Nat → List Char → α → Prop) : Prop :=
  ∀ ⦃c a x c' a'⦄, p m c a = (some (x, c'), a') →
    ∃ cs, c.rest = cs ++ c'.rest ∧ c'.offset = c.offset + cs.length ∧ S c.offset cs x

theorem Consumes.mono (h : Consumes m p S) (himp : ∀ o cs x, S o cs x → T o cs x) :
    Consumes m p T := by
  intro c a x c' a' hrun
  obtain ⟨cs, hrest, hoffset, hS⟩ := h hrun
  exact ⟨cs, hrest, hoffset, himp _ _ _ hS⟩

theorem consumes_pure {x : α} (h : ∀ o, S o [] x) : Consumes m (pure x) S := by
  intro c a x' c' a' hrun
  cases hrun
  exact ⟨[], rfl, rfl, h _⟩

theorem Consumes.bind {f : α → Parser β} {T : Nat → List Char → β → Prop} (h : Consumes m p S)
    (hf : ∀ o cs x, S o cs x → Consumes m (f x) fun _ ds y ↦ T o (cs ++ ds) y) :
    Consumes m (p >>= f) T := by
  intro c a y c' a' hrun
  change p.andThen f m c a = (some (y, c'), a') at hrun
  unfold andThen at hrun
  split at hrun
  · next x c₁ a₁ hp =>
    obtain ⟨cs, hrest, hoffset, hS⟩ := h hp
    obtain ⟨ds, hrest', hoffset', hT⟩ := hf _ _ _ hS hrun
    refine ⟨cs ++ ds, by rw [hrest, hrest', List.append_assoc], ?_, hT⟩
    rw [hoffset', hoffset, List.length_append, Nat.add_assoc]
  · cases hrun

/-- Whatever is read, it is read going on. -/
theorem Consumes.then {f : α → Parser β} (h : Consumes m p S)
    (hf : ∀ x, Consumes m (f x) fun _ _ _ ↦ True) :
    Consumes m (p >>= f) fun _ _ _ ↦ True :=
  h.bind fun _ _ x _ ↦ hf x

theorem Consumes.map {f : α → β} {T : Nat → List Char → β → Prop} (h : Consumes m p S)
    (hf : ∀ o cs x, S o cs x → T o cs (f x)) : Consumes m (f <$> p) T :=
  h.bind fun o cs x hS ↦ consumes_pure fun _ ↦ (List.append_nil cs).symm ▸ hf o cs x hS

theorem Consumes.orElse (hp : Consumes m p S) (hq : Consumes m q S) : Consumes m (p <|> q) S := by
  intro c a x c' a' hrun
  change p.orElse (fun _ ↦ q) m c a = (some (x, c'), a') at hrun
  unfold Parser.orElse at hrun
  split at hrun
  · next r a₁ hp' =>
    cases hrun
    exact hp hp'
  · next a₁ _ => exact hq hrun

theorem Consumes.optional (h : Consumes m p S) :
    Consumes m p.optional fun o cs x ↦ (x = none ∧ cs = []) ∨ ∃ y, x = some y ∧ S o cs y :=
  (h.map fun _ _ x hS ↦ .inr ⟨x, rfl, hS⟩).orElse (consumes_pure fun _ ↦ .inl ⟨rfl, rfl⟩)

theorem consumes_char {class_ : Char → Bool} :
    Consumes m (char class_) fun _ cs d ↦ cs = [d] ∧ class_ d := by
  rintro ⟨o, rest⟩ a x c' a' hrun
  unfold char at hrun
  cases rest with
  | nil => cases hrun
  | cons d rest =>
    dsimp only at hrun
    split at hrun
    · next hd =>
      cases hrun
      exact ⟨[_], rfl, rfl, rfl, hd⟩
    · cases hrun

theorem consumes_notNext {class_ : Char → Bool} :
    Consumes m (notNext class_) fun _ cs _ ↦ cs = [] := by
  rintro ⟨o, rest⟩ a x c' a' hrun
  unfold notNext at hrun
  cases rest with
  | nil =>
    cases hrun
    exact ⟨[], rfl, rfl, rfl⟩
  | cons d rest =>
    dsimp only at hrun
    split at hrun
    · cases hrun
    · cases hrun
      exact ⟨[], rfl, rfl, rfl⟩

theorem consumes_atEnd : Consumes m atEnd fun _ cs _ ↦ cs = [] := by
  rintro ⟨o, rest⟩ a x c' a' hrun
  cases rest with
  | nil =>
    cases hrun
    exact ⟨[], rfl, rfl, rfl⟩
  | cons d rest => cases hrun

theorem consumes_symbol (ds : List Char) : Consumes m (symbol ds) fun _ cs _ ↦ cs = ds := by
  induction ds with
  | nil => exact consumes_pure fun _ ↦ rfl
  | cons d ds ih =>
    refine consumes_char.bind ?_
    rintro o _ e ⟨rfl, he⟩
    refine ih.mono ?_
    rintro _ _ _ rfl
    rw [beq_iff_eq.mp he]
    rfl

theorem consumes_word (s : String) : Consumes m (word s) fun _ cs _ ↦ cs = s.toList :=
  consumes_symbol _

theorem Consumes.repeated (h : Consumes m p S) (n : Nat) :
    Consumes m (p.repeated n) fun _ cs xs ↦
      ∃ css, cs = css.flatten ∧ List.Forall₂ (fun cs x ↦ ∃ o, S o cs x) css xs := by
  induction n with
  | zero => exact consumes_pure fun _ ↦ ⟨[], rfl, .nil⟩
  | succ n ih =>
    refine Consumes.orElse (h.bind fun o cs x hS ↦ ih.bind ?_)
      (consumes_pure fun _ ↦ ⟨[], rfl, .nil⟩)
    rintro _ _ xs ⟨css, rfl, hall⟩
    exact consumes_pure fun _ ↦ ⟨cs :: css, by simp, .cons ⟨o, hS⟩ hall⟩

/-- What is read over and over is read one after the other. -/
theorem Consumes.many (h : Consumes m p S) :
    Consumes m p.many fun _ cs xs ↦ ∃ css, cs = css.flatten ∧
    List.Forall₂ (fun cs x ↦ ∃ o, S o cs x) css xs :=
  fun c _ _ _ _ hrun ↦ h.repeated (c.rest.length + 1) hrun

theorem consumes_many {class_ : Char → Bool} :
    Consumes m (many (char class_)) fun _ cs xs ↦ cs = xs ∧ ∀ d ∈ cs, class_ d := by
  refine consumes_char.many.mono ?_
  rintro _ _ xs ⟨css, rfl, hall⟩
  induction hall with
  | nil => exact ⟨rfl, nofun⟩
  | cons h _ ih =>
    obtain ⟨_, rfl, hd⟩ := h
    obtain ⟨heq, hall⟩ := ih
    exact ⟨congrArg _ heq, List.forall_mem_cons.mpr ⟨hd, hall⟩⟩

theorem consumes_many₁ {class_ : Char → Bool} :
    Consumes m (many₁ (char class_)) fun _ cs _ ↦ cs ≠ [] ∧ ∀ d ∈ cs, class_ d := by
  refine consumes_char.bind ?_
  rintro o _ d ⟨rfl, hd⟩
  refine consumes_many.bind ?_
  rintro _ cs _ ⟨-, hcs⟩
  exact consumes_pure fun _ ↦ ⟨by simp, by simpa using ⟨hd, hcs⟩⟩

theorem Consumes.ruleIn {inner : Mode → Mode} {rule : Rule} (h : Consumes (inner m) p S) :
    Consumes m (p.ruleIn inner rule) S := by
  intro c a x c' a' hrun
  unfold Parser.ruleIn at hrun
  split at hrun
  · next r a₁ hp =>
    cases hrun
    exact h hp
  · cases hrun

theorem Consumes.captured (h : Consumes m p S) :
    Consumes m p.captured fun o cs x ↦ x = (o, cs) ∧ ∃ y, S o cs y := by
  intro c a x c' a' hrun
  unfold Parser.captured at hrun
  split at hrun
  · next y c₁ a₁ hp =>
    obtain ⟨cs, hrest, hoffset, hS⟩ := h hp
    cases hrun
    refine ⟨cs, hrest, hoffset, ?_, y, hS⟩
    simp [hrest, hoffset]
  · cases hrun

theorem consumes_skip : Consumes m skip fun _ _ _ ↦ True := by
  intro c a x c' a' hrun
  cases m with
  | spaced =>
    obtain ⟨gap, hgap⟩ := skipSpace_suffix false c.rest
    cases hrun
    refine ⟨gap, hgap, ?_, trivial⟩
    have := congrArg List.length hgap
    rw [List.length_append] at this
    dsimp only
    omega
  | compound | atomic =>
    cases hrun
    exact ⟨[], rfl, rfl, trivial⟩

/-- Outside of spaced rules nothing is skipped. -/
theorem consumes_skip_atomic : Consumes .atomic skip fun _ cs _ ↦ cs = [] := by
  intro c a x c' a' hrun
  cases hrun
  exact ⟨[], rfl, rfl, rfl⟩

/-- What is read over and over in a lexeme is read without anything in between. -/
theorem Consumes.star (h : Consumes .atomic p S) : Consumes .atomic p.star fun _ cs xs ↦
    ∃ css, cs = css.flatten ∧ List.Forall₂ (fun cs x ↦ ∃ o, S o cs x) css xs := by
  have hnext : Consumes .atomic (do skip; p) fun _ cs x ↦ ∃ o, S o cs x := by
    refine consumes_skip_atomic.bind ?_
    rintro _ _ _ rfl
    exact h.mono fun o cs x hS ↦ ⟨o, hS⟩
  refine Consumes.orElse (h.bind fun o cs x hS ↦ hnext.many.bind ?_)
    (consumes_pure fun _ ↦ ⟨[], rfl, .nil⟩)
  rintro _ _ xs ⟨css, rfl, hall⟩
  refine consumes_pure fun _ ↦ ⟨cs :: css, by simp, .cons ⟨o, hS⟩ (hall.imp ?_)⟩
  rintro ds y ⟨_, h⟩
  exact h

end Parser

/-! ### Numerals -/

/-- The integers that a sign, which may be missing, and digits spell. -/
inductive SpellsInteger : List Char → Int → Prop where
  | plain {ds : List Char} (hne : ds ≠ []) (hds : ∀ d ∈ ds, d.isDigit) :
      SpellsInteger ds (digitsValue ds)
  | negative {ds : List Char} (hne : ds ≠ []) (hds : ∀ d ∈ ds, d.isDigit) :
      SpellsInteger ('-' :: ds) (-(digitsValue ds : Int))

/-- The power of ten at the end of a numeral, which may be missing. -/
inductive IsExponent : List Char → Prop where
  | none : IsExponent []
  | some {e : Char} {sign ds : List Char} (he : e = 'e' ∨ e = 'E')
      (hsign : sign = [] ∨ sign = ['+'] ∨ sign = ['-']) (hne : ds ≠ [])
      (hds : ∀ d ∈ ds, d.isDigit) : IsExponent (e :: (sign ++ ds))

/-- A numeral with a point between digits. -/
inductive IsFloat : List Char → Prop where
  | mk {sign ws fs exponent : List Char} (hsign : sign = [] ∨ sign = ['-'])
      (hws : ws ≠ [] ∧ ∀ d ∈ ws, d.isDigit) (hfs : fs ≠ [] ∧ ∀ d ∈ fs, d.isDigit)
      (hexponent : IsExponent exponent) :
      IsFloat (sign ++ (ws ++ '.' :: (fs ++ exponent)))

theorem ne_of_isDigit {d e : Char} (hd : d.isDigit) (he : e.isDigit = false) : d ≠ e := by
  rintro rfl
  simp [hd] at he

theorem spanDigits_append {ds rest : List Char} (hds : ∀ d ∈ ds, d.isDigit)
    (hrest : ∀ d ∈ rest.head?, d.isDigit = false) : spanDigits (ds ++ rest) = (ds, rest) := by
  have htake : rest.takeWhile Char.isDigit = [] := by cases rest <;> simp_all
  have hdrop : rest.dropWhile Char.isDigit = rest := by cases rest <;> simp_all
  unfold spanDigits
  rw [List.takeWhile_append_of_pos hds, List.dropWhile_append_of_pos hds, htake,
    hdrop, List.append_nil]

variable {cs : List Char} {n : Int}

theorem SpellsInteger.long? (h : SpellsInteger cs n) : long? cs = int64? n := by
  cases h with
  | plain hne hds =>
    obtain ⟨d, ds, rfl⟩ := List.exists_cons_of_ne_nil hne
    have hd := hds d List.mem_cons_self
    have hminus : d ≠ '-' := ne_of_isDigit hd rfl
    have hplus : d ≠ '+' := ne_of_isDigit hd rfl
    have hall : (d :: ds).all Char.isDigit := List.all_eq_true.mpr hds
    unfold Language.long?
    split
    next heq =>
      split at heq
      · next h => exact absurd (List.cons.inj h).1 hminus
      · next h => exact absurd (List.cons.inj h).1 hplus
      · cases heq
        simp [hall]
  | @negative ds hne hds =>
    have hall : ds.all Char.isDigit := List.all_eq_true.mpr hds
    unfold Language.long?
    simp [hall, hne]

theorem SpellsInteger.value? (h : SpellsInteger cs n) : Token.value? cs = int64? n := by
  cases h with
  | plain hne hds =>
    obtain ⟨d, ds, rfl⟩ := List.exists_cons_of_ne_nil hne
    have hminus : d ≠ '-' := ne_of_isDigit (hds d List.mem_cons_self) rfl
    unfold Token.value?
    split
    · next h => exact absurd (List.cons.inj h).1 hminus
    · rfl
  | negative hne hds => rfl

theorem IsExponent.head (h : IsExponent cs) : ∀ d ∈ cs.head?, d.isDigit = false := by
  cases h with
  | none => exact nofun
  | some he _ _ _ =>
    rintro d ⟨⟩
    obtain rfl | rfl := he <;> rfl

/-- A numeral with a point is read, whatever its sign. -/
theorem ofNumeral?_isSome {ws fs : List Char} (negative : Bool)
    (hws : ws ≠ [] ∧ ∀ d ∈ ws, d.isDigit) (hfs : fs ≠ [] ∧ ∀ d ∈ fs, d.isDigit)
    (h : IsExponent cs) :
    ∃ x, Binary.ofNumeral? .double negative (ws ++ '.' :: (fs ++ cs)) = some x := by
  have hpoint : ∀ d ∈ ('.' :: (fs ++ cs)).head?, d.isDigit = false := by
    rintro d ⟨⟩
    rfl
  have hempty : (ws.isEmpty && fs.isEmpty) = false := by simp [hws.1]
  unfold Binary.ofNumeral?
  simp only [spanDigits_append hws.2 hpoint, spanDigits_append hfs.2 h.head, hempty,
    Bool.false_eq_true, if_false]
  cases h with
  | none => exact ⟨_, rfl⟩
  | @some e sign ds he hsign hne hds =>
    have hletter : ¬(e ≠ 'e' ∧ e ≠ 'E') := by
      rw [not_and_or, not_not, not_not]
      exact he
    have hspan : spanDigits ds = (ds, []) := by
      simpa using @spanDigits_append ds [] hds nofun
    obtain ⟨d, ds, rfl⟩ := List.exists_cons_of_ne_nil hne
    have hd := hds d List.mem_cons_self
    have hminus : d ≠ '-' := ne_of_isDigit hd rfl
    have hplus : d ≠ '+' := ne_of_isDigit hd rfl
    obtain rfl | rfl | rfl := hsign <;> simp [hletter, hspan, hminus, hplus]

/-- Numerals with a point spell numbers. -/
theorem IsFloat.ofText? (h : IsFloat cs) : ∃ x, Binary.ofText? .double
    (String.ofList cs) = some x := by
  obtain ⟨hsign, hws, hfs, hexponent⟩ := h
  obtain ⟨x, hx⟩ := ofNumeral?_isSome true hws hfs hexponent
  obtain ⟨y, hy⟩ := ofNumeral?_isSome false hws hfs hexponent
  obtain ⟨⟨d, ws, rfl⟩, hws⟩ := hws.imp_left List.exists_cons_of_ne_nil
  have hd := hws d List.mem_cons_self
  have hminus : d ≠ '-' := ne_of_isDigit hd rfl
  have hplus : d ≠ '+' := ne_of_isDigit hd rfl
  have hnamed {name : String} {s : Bool} {z : Option Binary} (hz : ∃ x, z = some x) :
      ∃ x, (if name = "nan" then some .nan else if name = "inf" ∨ name = "infinity" then
          some (.infinite s) else z) =
        some x := by
    split
    · exact ⟨_, rfl⟩
    · split
      · exact ⟨_, rfl⟩
      · exact hz
  unfold Binary.ofText?
  rw [String.toList_ofList]
  obtain rfl | rfl := hsign
  · rw [List.nil_append]
    split
    next heq =>
      split at heq
      · next h => exact absurd (List.cons.inj h).1 hminus
      · next h => exact absurd (List.cons.inj h).1 hplus
      · cases heq
        exact hnamed ⟨y, hy⟩
  · exact hnamed ⟨x, hx⟩

/-! ### Lexemes -/

namespace Grammar

open EntityStore.Language.Parser

variable {m : Mode}

theorem consumes_token {kind : LiteralKind} {rule : Rule} {body : Parser Unit}
    {S : Nat → List Char → Unit → Prop} (h : Consumes .atomic body S) :
    Consumes m (atomic rule (token kind body)) fun o cs t ↦ t = ⟨kind, o, cs⟩ ∧ ∃ o, S o cs () := by
  refine Consumes.ruleIn (h.captured.bind ?_)
  rintro o cs _ ⟨rfl, _, hS⟩
  exact consumes_pure fun _ ↦ by simpa using ⟨_, hS⟩

theorem consumes_keyword (s : String) : Consumes m (keyword s) fun _ cs _ ↦ cs = s.toList := by
  refine (consumes_word s).bind ?_
  rintro _ _ _ rfl
  refine consumes_notNext.mono ?_
  rintro _ _ _ rfl
  exact List.append_nil _

theorem consumes_null : Consumes m null fun o cs t ↦ t = ⟨.null, o, cs⟩ :=
  (consumes_token (consumes_keyword "null")).mono fun _ _ _ h ↦ h.1

theorem consumes_boolean : Consumes m boolean fun o cs t ↦ t = ⟨.boolean, o, cs⟩ := by
  have hbody : Consumes .atomic (do word "true" <|> word "false"; notNext isIdentChar)
      fun _ _ _ ↦ True :=
    (((consumes_word "true").mono fun _ _ _ _ ↦ trivial).orElse
      ((consumes_word "false").mono fun _ _ _ _ ↦ trivial)).bind fun _ _ _ _ ↦
        consumes_notNext.mono fun _ _ _ _ ↦ trivial
  exact (consumes_token hbody).mono fun _ _ _ h ↦ h.1

theorem consumes_minus : Consumes m minus fun _ cs _ ↦ cs = [] ∨ cs = ['-'] := by
  refine (consumes_word "-").optional.bind ?_
  rintro _ _ _ (⟨rfl, rfl⟩ | ⟨_, rfl, rfl⟩)
  · exact consumes_pure fun _ ↦ .inl rfl
  · exact consumes_pure fun _ ↦ .inr rfl

theorem consumes_digits : Consumes m digits fun _ cs _ ↦ cs ≠ [] ∧ ∀ d ∈ cs, d.isDigit :=
  consumes_many₁.map fun _ _ _ h ↦ h

theorem consumes_integer :
    Consumes m integer fun o cs t ↦ t = ⟨.integer, o, cs⟩ ∧ ∃ n, SpellsInteger cs n := by
  have hbody : Consumes .atomic (do minus; digits) fun _ cs _ ↦ ∃ n, SpellsInteger cs n := by
    refine consumes_minus.bind ?_
    rintro _ _ _ (rfl | rfl)
    · exact consumes_digits.mono fun _ _ _ ⟨hne, hds⟩ ↦ ⟨_, .plain hne hds⟩
    · exact consumes_digits.mono fun _ _ _ ⟨hne, hds⟩ ↦ ⟨_, .negative hne hds⟩
  exact (consumes_token hbody).mono fun _ _ _ ⟨ht, _, hcs⟩ ↦ ⟨ht, hcs⟩

theorem consumes_exponent : Consumes m (optional do
      let _ ← char fun c ↦ c == 'e' || c == 'E'
      let _ ← optional (word "+" <|> word "-")
      digits) fun _ cs _ ↦ IsExponent cs := by
  have hsign : Consumes m (optional (word "+" <|> word "-")) fun _ cs _ ↦ cs = [] ∨
      cs = ['+'] ∨ cs = ['-'] := by
    have hmark : Consumes m (word "+" <|> word "-") fun _ cs _ ↦ cs = ['+'] ∨ cs = ['-'] :=
      ((consumes_word "+").mono fun _ _ _ ↦ .inl).orElse ((consumes_word "-").mono fun _ _ _ ↦ .inr)
    refine hmark.optional.mono ?_
    rintro _ _ _ (⟨-, rfl⟩ | ⟨_, -, h⟩)
    · exact .inl rfl
    · exact .inr h
  have hpower : Consumes m (do
      let _ ← char fun c ↦ c == 'e' || c == 'E'
      let _ ← optional (word "+" <|> word "-")
      digits) fun _ cs _ ↦ IsExponent cs := by
    refine consumes_char.bind ?_
    rintro _ _ e ⟨rfl, he⟩
    refine hsign.bind fun _ sign _ hsign ↦ consumes_digits.mono fun _ ds _ ⟨hne, hds⟩ ↦ ?_
    have h : IsExponent (e :: (sign ++ ds)) := .some (by simpa using he) hsign hne hds
    exact h
  refine hpower.optional.mono ?_
  rintro _ _ _ (⟨-, rfl⟩ | ⟨_, -, h⟩)
  · exact .none
  · exact h

theorem consumes_float : Consumes m float fun o cs t ↦ t = ⟨.float, o, cs⟩ ∧ IsFloat cs := by
  have hbody : Consumes .atomic (do
      minus
      digits
      word "."
      digits
      let _ ← optional do
        let _ ← char fun c ↦ c == 'e' || c == 'E'
        let _ ← optional (word "+" <|> word "-")
        digits) fun _ cs _ ↦ IsFloat cs := by
    refine consumes_minus.bind fun _ sign _ hsign ↦ consumes_digits.bind
      fun _ ws _ hws ↦ (consumes_word ".").bind ?_
    rintro _ _ _ rfl
    refine consumes_digits.bind fun _ fs _ hfs ↦ consumes_exponent.map
      fun _ exponent _ hexponent ↦ ?_
    have h : IsFloat (sign ++ (ws ++ '.' :: (fs ++ exponent))) := .mk hsign hws hfs hexponent
    exact h
  exact (consumes_token hbody).mono fun _ _ _ ⟨ht, _, hcs⟩ ↦ ⟨ht, hcs⟩

theorem consumes_exactly {class_ : Char → Bool} (n : Nat) :
    Consumes m (exactly (char class_) n) fun _ _ _ ↦ True := by
  induction n with
  | zero => exact consumes_pure fun _ ↦ trivial
  | succ n ih => exact consumes_char.then fun _ ↦ ih.then fun _ ↦ consumes_pure fun _ ↦ trivial

theorem consumes_digitsOf (n : Nat) : Consumes m (digitsOf n) fun _ _ _ ↦ True :=
  (consumes_exactly n).then fun _ ↦ consumes_pure fun _ ↦ trivial

theorem consumes_datePart : Consumes m datePart fun _ _ _ ↦ True :=
  (consumes_digitsOf 4).then fun _ ↦ (consumes_word "-").then fun _ ↦
      (consumes_digitsOf 2).then fun _ ↦
    (consumes_word "-").then fun _ ↦ consumes_digitsOf 2

theorem consumes_timePart : Consumes m timePart fun _ _ _ ↦ True :=
  have hfraction : Consumes m (do word "."; digits) fun _ _ _ ↦ True :=
    (consumes_word ".").then fun _ ↦ consumes_digits.mono fun _ _ _ _ ↦ trivial
  (consumes_digitsOf 2).then fun _ ↦ (consumes_word ":").then fun _ ↦
      (consumes_digitsOf 2).then fun _ ↦
    (consumes_word ":").then fun _ ↦ (consumes_digitsOf 2).then fun _ ↦
        hfraction.optional.then fun _ ↦
    consumes_pure fun _ ↦ trivial

/-- A literal that begins with a hash mark. -/
theorem consumes_hashed {kind : LiteralKind} {rule : Rule} {body : Parser Unit}
    (h : Consumes .atomic body fun _ _ _ ↦ True) :
      Consumes m (atomic rule (token kind (do word "#"; body)))
      fun o cs t ↦ t = ⟨kind, o, cs⟩ ∧ ∃ ds, cs = '#' :: ds := by
  have hbody : Consumes .atomic (do word "#"; body) fun _ cs _ ↦ ∃ ds, cs = '#' :: ds := by
    refine (consumes_word "#").bind ?_
    rintro _ _ _ rfl
    exact h.mono fun _ ds _ _ ↦ ⟨ds, rfl⟩
  exact (consumes_token hbody).mono fun _ _ _ ⟨ht, _, hcs⟩ ↦ ⟨ht, hcs⟩

theorem consumes_date : Consumes m date fun o cs t ↦ t = ⟨.date, o, cs⟩ ∧ ∃ ds, cs = '#' :: ds :=
  consumes_hashed consumes_datePart

theorem consumes_time : Consumes m time fun o cs t ↦ t = ⟨.time, o, cs⟩ ∧ ∃ ds, cs = '#' :: ds :=
  consumes_hashed consumes_timePart

theorem consumes_dateTime : Consumes m dateTime fun o cs t ↦ t = ⟨.dateTime, o, cs⟩ ∧
    ∃ ds, cs = '#' :: ds :=
  consumes_hashed <| consumes_datePart.then fun _ ↦ (consumes_word "T").then
    fun _ ↦ consumes_timePart

theorem consumes_textChar : Consumes m textChar fun _ _ _ ↦ True :=
  (consumes_char.then fun _ ↦ consumes_pure fun _ ↦ trivial).orElse <|
    (consumes_word "\\").then fun _ ↦ consumes_char.then fun _ ↦ consumes_pure fun _ ↦ trivial

/-! ### Names -/

theorem consumes_name :
    Consumes m name fun _ cs x ↦ x = String.ofList cs ∧ ∃ d ds, cs = d :: ds ∧ isLetter d := by
  have hchars : Consumes .atomic (do let _ ← char isLetter; many (char isNameChar))
      fun _ cs _ ↦ ∃ d ds, cs = d :: ds ∧ isLetter d := by
    refine consumes_char.bind ?_
    rintro _ _ d ⟨rfl, hd⟩
    exact consumes_many.mono fun _ ds _ _ ↦ ⟨d, ds, rfl, hd⟩
  refine Consumes.ruleIn (hchars.captured.bind ?_)
  rintro _ cs _ ⟨rfl, _, hcs⟩
  exact consumes_pure fun _ ↦ by simpa using hcs

theorem isLetter_question : isLetter '?' = false := by
  decide

/-- A parameter without its mark. -/
theorem consumes_paramName :
    Consumes m (do word "?"; name) fun _ cs x ↦ Building.paramName cs = x := by
  refine (consumes_word "?").bind ?_
  rintro _ _ _ rfl
  refine consumes_name.mono ?_
  rintro _ _ _ ⟨rfl, d, ds, rfl, hd⟩
  have hne : (d == '?') = false := by
    rw [beq_eq_false_iff_ne]
    rintro rfl
    simp [isLetter_question] at hd
  change String.ofList (('?' :: d :: ds).dropWhile (· == '?')) = _
  simp [hne]

/-- A character of a class without the dot. -/
theorem ne_dot (class_ : Char → Bool) (hclass : class_ '.' = false) {d : Char}
    (h : class_ d) : '.' ≠ d := by
  rintro rfl
  simp [hclass] at h

theorem consumes_identText : Consumes m identText fun _ cs x ↦ x = cs ∧ '.' ∉ cs := by
  have hchars : Consumes m (do let _ ← char fun c ↦ c == '@' || isLetter c; many (char isIdentChar))
      fun _ cs _ ↦ '.' ∉ cs := by
    refine consumes_char.bind ?_
    rintro _ _ d ⟨rfl, hd⟩
    refine consumes_many.mono fun _ ds _ ⟨_, hds⟩ ↦ ?_
    have hfirst : '.' ≠ d := ne_dot (fun c ↦ c == '@' || isLetter c) rfl hd
    have hmore : '.' ∉ ds := fun h ↦ ne_dot isIdentChar rfl (hds _ h) rfl
    simpa using ⟨hfirst, hmore⟩
  refine hchars.captured.bind ?_
  rintro _ cs _ ⟨rfl, _, hcs⟩
  exact consumes_pure fun _ ↦ by simpa using hcs

theorem consumes_ident : Consumes m ident fun _ cs x ↦ x = String.ofList cs :=
  Consumes.ruleIn (consumes_identText.map fun _ _ _ ⟨hx, _⟩ ↦ hx ▸ rfl)

theorem splitOn_dots {part : List Char} {more : List (List Char)} (h : '.' ∉ part)
    (hmore : ∀ p ∈ more, '.' ∉ p) :
    (part ++ (more.map ('.' :: ·)).flatten).splitOn '.' = part :: more := by
  induction more generalizing part with
  | nil => simpa using List.splitOn_eq_singleton h
  | cons p more ih =>
    obtain ⟨hp, hmore⟩ := List.forall_mem_cons.mp hmore
    rw [List.map_cons, List.flatten_cons, List.cons_append,
      List.splitOn_append_cons_self, ih hp hmore, List.splitOn_eq_singleton h]
    rfl

theorem consumes_path :
    Consumes m path fun _ cs x ↦ x = (cs.splitOn '.').map String.ofList := by
  have hnext : Consumes .atomic (do word "."; identText) fun _ cs x ↦ cs = '.' :: x ∧ '.' ∉ x := by
    refine (consumes_word ".").bind ?_
    rintro _ _ _ rfl
    refine consumes_identText.mono ?_
    rintro _ _ x ⟨rfl, hx⟩
    exact ⟨rfl, hx⟩
  refine Consumes.ruleIn (consumes_identText.bind ?_)
  rintro _ part _ ⟨rfl, hpart⟩
  refine hnext.star.bind ?_
  rintro _ _ more ⟨css, rfl, hall⟩
  refine consumes_pure fun _ ↦ ?_
  have hcss : css = more.map ('.' :: ·) ∧ ∀ p ∈ more, '.' ∉ p := by
    induction hall with
    | nil => exact ⟨rfl, nofun⟩
    | cons h _ ih =>
      obtain ⟨_, rfl, hdot⟩ := h
      obtain ⟨rfl, hmore⟩ := ih
      exact ⟨rfl, List.forall_mem_cons.mpr ⟨hdot, hmore⟩⟩
  obtain ⟨rfl, hmore⟩ := hcss
  rw [List.append_nil, splitOn_dots hpart hmore]

/-! ### Words -/

/-- A word that stands for something. -/
theorem consumes_named {α : Type} {w : String} {x : α} {f : List Char → α} (h : f w.toList = x) :
    Consumes m (do word w; pure x) fun _ cs y ↦ y = f cs := by
  refine (consumes_word w).bind ?_
  rintro _ _ _ rfl
  exact consumes_pure fun _ ↦ by rw [List.append_nil, h]

theorem consumes_andOp : Consumes m andOp fun _ cs _ ↦ cs = "and".toList :=
  Consumes.ruleIn (consumes_keyword "and")

theorem consumes_orOp : Consumes m orOp fun _ cs _ ↦ cs = "or".toList :=
  Consumes.ruleIn (consumes_keyword "or")

theorem consumes_linkOp : Consumes m linkOp fun _ cs x ↦ x = Building.linkOp cs :=
  Consumes.ruleIn ((consumes_named (by decide)).orElse (consumes_named (by decide)))

theorem consumes_direction : Consumes m direction fun _ cs x ↦ x = Building.direction cs :=
  Consumes.ruleIn ((consumes_named (by decide)).orElse (consumes_named (by decide)))

theorem consumes_comparator : Consumes m comparator fun _ cs x ↦ x = Building.comparator cs := by
  have hin : Consumes .atomic (do keyword "in"; pure .isIn) fun _ cs x ↦ x =
      Building.comparator cs := by
    refine (consumes_keyword "in").bind ?_
    rintro _ _ _ rfl
    exact consumes_pure fun _ ↦ by decide
  exact Consumes.ruleIn <| (consumes_named (by decide)).orElse <|
    (consumes_named (by decide)).orElse <| (consumes_named (by decide)).orElse <|
      (consumes_named (by decide)).orElse <|
    (consumes_named (by decide)).orElse <| (consumes_named (by decide)).orElse hin

end Grammar

end EntityStore.Language
