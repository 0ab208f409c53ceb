import EntityStore.Proofs.Value.Scaled
import EntityStore.Proofs.Value.Stored

/-!
The number that is written for a finite number is read, however it is laid out
(`Stored.decimalValue_write`).
-/

set_option autoImplicit false

namespace EntityStore

namespace Stored

variable {negative : Bool} {n : Nat} {e : Int} {cs ds es : List Char} {d : Char} {a : Number}

/-! ### Exponents -/

/-- The digits of an exponent are read up to the first character that is none. -/
theorem reads_exponentDigits (hcs : ∀ c ∈ cs, c.isDigit) (hd : d.isDigit = false) {k : Nat}
    (hk : cs.length ≤ k) (hmost : Nat.ofDigitChars 10 cs n ≤ Int32.maxValue.toInt) :
    Reads (exponentDigits k n) (cs ++ d :: ds) (d :: ds) (Nat.ofDigitChars 10 cs n) := by
  induction cs generalizing k n with
  | nil =>
    cases k with
    | zero => exact .pure _ _
    | succ k =>
      unfold exponentDigits
      refine .look ?_
      dsimp only
      rw [if_neg (by simp [hd])]
      exact .pure _ _
  | cons c cs ih =>
    obtain ⟨k, rfl⟩ := Nat.exists_eq_add_one_of_ne_zero (Nat.ne_zero_of_lt hk)
    obtain ⟨hc, hcs⟩ := List.forall_mem_cons.mp hcs
    have hle : (n : Int) ≤ Int32.maxValue.toInt :=
      Int.le_trans (Int.ofNat_le.mpr (le_ofDigitChars (c :: cs) n)) hmost
    rw [ofDigitChars_cons] at hmost ⊢
    unfold exponentDigits
    refine .look ?_
    dsimp only
    rw [if_pos (by simp [hc, hle])]
    exact (Reads.next c _).bind (ih hcs (Nat.le_of_succ_le_succ hk) hmost)

/-- An exponent with its sign. -/
theorem reads_exponent {power : Nat} (hpower : power ≤ Int32.maxValue.toInt) (minus : Bool)
    (hd : d.isDigit = false)
    (h : Reads (decimalOf negative n (e + if minus then -(power : Int) else power))
      (d :: ds) es a) :
    Reads (exponentPart negative n e)
      ('e' :: (if minus then '-' else '+') :: (natDigits power ++ d :: ds)) es a := by
  have hdigits : Nat.ofDigitChars 10 (natDigits power) 0 = power := digitsValue_natDigits power
  have hread : Reads (exponentDigits (natDigits power ++ d :: ds).length 0)
      (natDigits power ++ d :: ds) (d :: ds) (Nat.ofDigitChars 10 (natDigits power) 0) :=
    reads_exponentDigits (fun c hc ↦ isDigit_of_mem_natDigits hc) hd (by simp) (by rwa [hdigits])
  rw [hdigits] at hread
  obtain ⟨c, rest, hcons⟩ : ∃ c rest, natDigits power = c :: rest :=
    List.exists_cons_of_ne_nil Nat.toDigits_ne_nil
  have hc : c.isDigit := isDigit_of_mem_natDigits (hcons ▸ List.mem_cons_self)
  have hrest : Reads (exponentDigits (natDigits power ++ d :: ds).length 0 >>= fun power ↦
      if Int32.maxValue.toInt < power then
        if n ≠ 0 && !minus then fail .numberOutOfRange
        else takeWhile Char.isDigit >>= fun _ ↦ decimalOf negative 0 0
      else decimalOf negative n (e + if minus then -(power : Int) else power))
      (natDigits power ++ d :: ds) es a := by
    refine hread.bind ?_
    rw [if_neg (by omega)]
    exact h
  rw [hcons] at hrest ⊢
  unfold exponentPart
  refine (Reads.next 'e' _).bind ?_
  cases minus with
  | true =>
    refine .look ((Reads.next '-' _).bind ((Reads.pure true _).bind (.look ?_)))
    dsimp only
    rw [if_neg (by simp [hc])]
    exact (Reads.remaining _).bind hrest
  | false =>
    refine .look ((Reads.next '+' _).bind ((Reads.pure false _).bind (.look ?_)))
    dsimp only
    rw [if_neg (by simp [hc])]
    exact (Reads.remaining _).bind hrest

/-! ### Fractions -/

/-- What follows the digits of a fraction. -/
def afterFraction (negative : Bool) (n : Nat) (e : Int) : Reader Number := do
  match ← peek with
  | some 'e' | some 'E' => exponentPart negative n e
  | _ => decimalOf negative n e

/-- A fraction is read by what reads on after its digits. -/
theorem reads_fraction (hcs : ∀ c ∈ cs, c.isDigit) (hne : cs ≠ [])
    (hsize : Nat.ofDigitChars 10 cs n < UInt64.size) (hd : d.isDigit = false)
    (h : Reads (afterFraction negative (Nat.ofDigitChars 10 cs n) (-(cs.length : Int)))
      (d :: ds) es a) :
    Reads (fractionPart negative n 0) ('.' :: (cs ++ d :: ds)) es a := by
  have hempty : cs.isEmpty = false := by simpa using hne
  have hstart : ((0 : Nat) : Int) - ((cs.length - 0 : Nat) : Int) = -(cs.length : Int) := by omega
  unfold fractionPart
  refine (Reads.next '.' _).bind
    ((Reads.takeWhile cs (d :: ds) hcs (by rintro _ ⟨⟩; exact hd)).bind ?_)
  rw [hempty, if_neg (by decide), significand_eq cs hsize]
  dsimp only
  rw [hstart]
  exact h

/-! ### Numerals -/

/-- A reader answers for a text before a brace, the same whatever follows. -/
def Answers {α : Type} (r : Reader α) (cs : List Char) : Prop :=
  ∃ a, ∀ rest, Reads r (cs ++ '\x7d' :: rest) ('\x7d' :: rest) a

/-- A significand before a power of ten by which it can be scaled. -/
def CanScale (n : Nat) (e : Int) : Prop :=
  ∃ y, scaled (Binary.ofInt .double n) (e.natAbs / 308 + 1) e = some y

theorem decimalOf_answers (negative : Bool) (h : CanScale n e) :
    Answers (decimalOf negative n e) [] := by
  obtain ⟨y, hy⟩ := h
  refine ⟨.decimal (if negative then y.mul .double (Binary.ofInt .double (-1)) else y),
    fun rest ↦ ?_⟩
  unfold decimalOf
  rw [hy]
  exact .pure _ _

variable {w f : List Char}

theorem digitsValue_append (w f : List Char) :
    digitsValue (w ++ f) = Nat.ofDigitChars 10 f (digitsValue w) :=
  Nat.ofDigitChars_append ..

/-- A numeral of whole digits and a fraction. -/
theorem answers_point (negative : Bool) (hw : WholeDigits w)
    (hf : ∀ c ∈ f, c.isDigit) (hne : f ≠ []) (hn : digitsValue (w ++ f) = n)
    (hsize : n < UInt64.size) (h : CanScale n (-(f.length : Int))) :
    Answers (number negative) (w ++ '.' :: f) := by
  obtain ⟨a, ha⟩ := decimalOf_answers negative h
  rw [digitsValue_append] at hn
  refine ⟨a, fun rest ↦ ?_⟩
  rw [List.append_assoc]
  refine reads_number hw rfl ((le_ofDigitChars f _).trans_lt (hn ▸ hsize)) (by decide) (.look ?_)
  exact reads_fraction hf hne (hn ▸ hsize) (by decide) (hn ▸ .look (ha rest))

/-- A numeral with an exponent. -/
theorem answers_exponent (negative : Bool) (hw : WholeDigits w) (hf : ∀ c ∈ f, c.isDigit)
    (hn : digitsValue (w ++ f) = n) (hsize : n < UInt64.size)
    (hpower : e.natAbs ≤ Int32.maxValue.toInt) (h : CanScale n (e - f.length)) :
    Answers (number negative) (w ++ (if f.isEmpty then [] else '.' :: f) ++
      'e' :: (if e < 0 then '-' else '+') :: natDigits e.natAbs) := by
  obtain ⟨a, ha⟩ := decimalOf_answers negative h
  rw [digitsValue_append] at hn
  refine ⟨a, fun rest ↦ ?_⟩
  have hexponent : Reads (exponentPart negative n (-(f.length : Int)))
      ('e' :: (if e < 0 then '-' else '+') :: (natDigits e.natAbs ++ '\x7d' :: rest))
        ('\x7d' :: rest) a := by
    have hsum : -(f.length : Int) + (if e < 0 then -(e.natAbs : Int) else
        e.natAbs) = e - f.length := by
      split <;> omega
    have hdecimal :
        Reads
          (decimalOf negative n
          (-(f.length : Int) + if decide (e < 0) then -(e.natAbs : Int) else e.natAbs))
        ('\x7d' :: rest) ('\x7d' :: rest) a := by
      simp only [decide_eq_true_iff, hsum]
      exact ha rest
    have hread :=
      reads_exponent hpower (decide (e < 0)) (show ('\x7d').isDigit = false by decide) hdecimal
    simpa only [decide_eq_true_iff] using hread
  have htext : w ++ (if f.isEmpty then [] else '.' :: f) ++
      'e' :: (if e < 0 then '-' else '+') :: natDigits e.natAbs ++
      '\x7d' :: rest = w ++ ((if f.isEmpty then [] else '.' :: f) ++
        'e' :: (if e < 0 then '-' else '+') :: (natDigits e.natAbs ++ '\x7d' :: rest)) := by simp
  rw [htext]
  have hwhole : digitsValue w < UInt64.size := (le_ofDigitChars f _).trans_lt (hn ▸ hsize)
  cases hempty : f.isEmpty with
  | true =>
    obtain rfl := List.isEmpty_iff.mp hempty
    obtain rfl : digitsValue w = n := hn
    exact reads_number hw rfl hwhole (by decide) (.look hexponent)
  | false =>
    have hne : f ≠ [] := by simpa using hempty
    rw [if_neg (by decide), List.cons_append]
    refine reads_number hw rfl hwhole (by decide) (.look ?_)
    exact reads_fraction hf hne (hn ▸ hsize) (by decide) (hn ▸ .look hexponent)

/-! ### Layouts -/

/-- A style of stored numbers: a point or an exponent tells them from integers. -/
structure Stores (style : DecimalStyle) : Prop where
  wholePoint : style.wholePoint
  exponentPlus : style.exponentPlus
  positionalTo : ∃ k ≤ 15, style.positionalTo = some k

theorem stores_double : Stores .storedDouble :=
  ⟨rfl, rfl, 15, by decide, rfl⟩

theorem stores_single : Stores .storedSingle :=
  ⟨rfl, rfl, 12, by decide, rfl⟩

variable {style : DecimalStyle} {x : Decimal}

theorem digitsValue_zeros (n k : Nat) :
    digitsValue (natDigits n ++ List.replicate k '0' ++ ['0']) = n * 10 ^ (k + 1) := by
  have hlist : natDigits n ++ List.replicate k '0' ++ ['0'] = natDigits n ++
      List.replicate (k + 1) '0' := by
    rw [List.append_assoc, List.replicate_succ']
  rw [hlist, digitsValue_append, digitsValue_natDigits, Nat.ofDigitChars_eq_ofDigitChars_zero]
  simp [Nat.ofDigitChars_replicate_zero, Nat.mul_comm]

/-- Digits before the point, filled up with zeros. -/
theorem answers_zeros (negative : Bool) {k : Nat} (hn : n ≠ 0)
    (hk : (natDigits n).length + k ≤ 16) :
    Answers (number negative) (natDigits n ++ List.replicate k '0' ++ ['.', '0']) := by
  have hsize : n * 10 ^ (k + 1) < UInt64.size := by
    calc n * 10 ^ (k + 1) < 10 ^ (natDigits n).length * 10 ^ (k + 1) :=
          Nat.mul_lt_mul_of_pos_right (lt_pow_length_natDigits n) (Nat.pow_pos (by decide))
      _ = 10 ^ ((natDigits n).length + (k + 1)) := (Nat.pow_add ..).symm
      _ ≤ 10 ^ 17 := Nat.pow_le_pow_right (by decide) (by omega)
      _ < UInt64.size := by decide
  exact answers_point negative (wholeDigits_append hn) isDigit_zero (List.cons_ne_nil _ _)
    (digitsValue_zeros n k) hsize (scaled_word hsize (by decide))

/-- Digits around the point. -/
theorem answers_around (negative : Bool) (h : x.Scales) (hzero : x.coefficient ≠ 0)
    (hneg : x.exponent < 0) (hplaces : (natDigits x.coefficient).length > x.exponent.natAbs) :
    Answers (number negative)
      ((natDigits x.coefficient).take ((natDigits x.coefficient).length - x.exponent.natAbs) ++
      '.' :: (natDigits x.coefficient).drop
        ((natDigits x.coefficient).length - x.exponent.natAbs)) := by
  have hlength :
      (((natDigits x.coefficient).drop
        ((natDigits x.coefficient).length - x.exponent.natAbs)).length : Int) =
      -x.exponent := by
    rw [List.length_drop]
    omega
  refine answers_point negative (wholeDigits_take hzero (by omega))
    (fun c hc ↦ isDigit_of_mem_natDigits (List.mem_of_mem_drop hc)) ?_ ?_
      (h.short.trans_lt (by decide)) ?_
  · intro hempty
    rw [hempty] at hlength
    have : ((0 : Nat) : Int) = -x.exponent := hlength
    omega
  · rw [List.take_append_drop, digitsValue_natDigits]
  · rw [hlength, Int.neg_neg]
    exact h.scaled_eq

/-- Digits after the point. -/
theorem answers_after (negative : Bool) (h : x.Scales) (hneg : x.exponent < 0)
    (hplaces : (natDigits x.coefficient).length ≤ x.exponent.natAbs) :
    Answers (number negative) ('0' :: '.' ::
      List.replicate (x.exponent.natAbs - (natDigits x.coefficient).length) '0' ++
        natDigits x.coefficient) := by
  have hlength : ((List.replicate (x.exponent.natAbs - (natDigits x.coefficient).length) '0' ++
      natDigits x.coefficient).length : Int) = -x.exponent := by
    rw [List.length_append, List.length_replicate]
    omega
  have hscale : CanScale x.coefficient
      (-((List.replicate (x.exponent.natAbs - (natDigits x.coefficient).length) '0' ++
      natDigits x.coefficient).length : Int)) := by
    rw [hlength, Int.neg_neg]
    exact h.scaled_eq
  have hpadded := digitsValue_paddedDigits x.exponent.natAbs x.coefficient
  refine answers_point negative wholeDigits_zero (fun c hc ↦ ?_) ?_ hpadded
    (h.short.trans_lt (by decide)) hscale
  · rcases List.mem_append.mp hc with hc | hc
    · rw [List.eq_of_mem_replicate hc]
      decide
    · exact isDigit_of_mem_natDigits hc
  · exact List.append_ne_nil_of_right_ne_nil _ Nat.toDigits_ne_nil

theorem power_text (e : Int) : (if true && e ≥ 0 then '+' :: intDigits e else intDigits e) =
    (if e < 0 then '-' else '+') :: natDigits e.natAbs := by
  unfold intDigits
  by_cases h : e < 0
  · have hneg : ¬e ≥ 0 := by omega
    simp [h, hneg]
  · have hpos : e ≥ 0 := by omega
    simp [h, hpos]

theorem fraction_text (cs : List Char) : (if cs.length > 1 then '.' :: cs.drop 1 else []) =
    if (cs.drop 1).isEmpty then [] else '.' :: cs.drop 1 := by
  rcases cs with _ | ⟨c, _ | ⟨d, cs⟩⟩
  · rfl
  · rfl
  · simp

/-- One digit before the point, and an exponent. -/
theorem answers_scientific (negative : Bool) (h : x.Scales) (hzero : x.coefficient ≠ 0) :
    Answers (number negative) (DecimalStyle.layScientific true (natDigits x.coefficient)
      (x.exponent + (natDigits x.coefficient).length - 1)) := by
  have hpos : 0 < (natDigits x.coefficient).length := List.length_pos_iff.mpr Nat.toDigits_ne_nil
  have hshort : (natDigits x.coefficient).length ≤ 19 :=
    (Nat.length_toDigits_le_iff (by decide) (by decide)).mpr (h.short.trans_lt (by decide))
  have hlength : ((natDigits x.coefficient).drop 1).length = (natDigits x.coefficient).length - 1 :=
    List.length_drop
  have hleast := h.least
  have hmost := h.most
  unfold DecimalStyle.layScientific
  dsimp only
  rw [fraction_text, power_text]
  refine answers_exponent negative (wholeDigits_take hzero one_ne_zero)
    (fun c hc ↦ isDigit_of_mem_natDigits (List.mem_of_mem_drop hc)) ?_
      (h.short.trans_lt (by decide)) ?_ ?_
  · rw [List.take_append_drop, digitsValue_natDigits]
  · have hword : Int32.maxValue.toInt = 2147483647 := rfl
    omega
  · have hback : x.exponent + (natDigits x.coefficient).length - 1 -
        ((natDigits x.coefficient).drop 1).length = x.exponent := by omega
    rw [hback]
    exact h.scaled_eq

/-- The digits of a number are read however they are laid out. -/
theorem answers_lay (hstyle : Stores style) (negative : Bool) (h : x.Scales) :
    Answers (number negative) (style.lay x) := by
  obtain ⟨k, hk, hto⟩ := hstyle.positionalTo
  have hpoint : style.wholePoint = true := hstyle.wholePoint
  have hplus : style.exponentPlus = true := hstyle.exponentPlus
  unfold DecimalStyle.lay
  dsimp only
  rw [hpoint, hplus, hto]
  by_cases hzero : x.coefficient = 0
  · rw [hzero, h.zero hzero]
    exact answers_point negative wholeDigits_zero isDigit_zero
      (List.cons_ne_nil _ _) rfl (by decide) (scaled_word (by decide) (by decide))
  split
  · next hpositional =>
    unfold DecimalStyle.layPositional
    dsimp only
    split
    · next hnonneg =>
      have hlead : x.exponent + (natDigits x.coefficient).length - 1 ≤ k := by
        simpa [hzero] using (Bool.or_eq_true_iff.mp hpositional).imp_right
          fun h ↦ (Bool.and_eq_true_iff.mp h).2
      exact answers_zeros negative hzero (by omega)
    · next hneg =>
      split
      · next hplaces => exact answers_around negative h hzero (by omega) hplaces
      · next hplaces => exact answers_after negative h (by omega) (by omega)
  · exact answers_scientific negative h hzero

/-! ### Signs -/

/-- A number begins with a digit. -/
theorem head_of_reads_number (h : Reads (number negative) cs es a) :
    ∃ c ds, cs = c :: ds ∧ c.isDigit := by
  obtain ⟨c, hrun, -⟩ := h ⟨1, 0, cs⟩ rfl
  cases cs with
  | nil => cases hrun
  | cons d ds =>
    refine ⟨d, ds, rfl, Classical.byContradiction fun hd ↦ ?_⟩
    unfold number at hrun
    change (if !d.isDigit then failNext .invalidNumber else _ : Reader Number) _ = _ at hrun
    rw [if_pos (by simp [hd])] at hrun
    unfold failNext at hrun
    dsimp only at hrun
    split at hrun <;> cases hrun

/-- The value nearest to a number. -/
def Number.toBinary (layout : Layout) : Number → Binary
  | .natural n => Binary.ofInt layout n
  | .negative n => Binary.ofInt layout n
  | .decimal x => x.toLayout layout

/-- A number is read with its sign. -/
theorem numberValue_answers {expected : String} (s : Bool) (h : Answers (number s) cs) :
    Answers (numberValue expected) (if s then '-' :: cs else cs) := by
  obtain ⟨a, ha⟩ := h
  refine ⟨a, fun rest ↦ ?_⟩
  have hread := ha rest
  cases s with
  | true =>
    unfold numberValue signedNumber
    exact .token (by decide) (.look ((Reads.next '-' _).bind hread))
  | false =>
    obtain ⟨c, ds, hcons, hc⟩ := head_of_reads_number hread
    rw [hcons] at hread
    rw [if_neg (by decide), hcons]
    unfold numberValue
    refine .token (isSpace_of_isDigit hc) ?_
    dsimp only
    rw [if_pos (by simp [hc])]
    unfold signedNumber
    refine .look ?_
    split
    · next heq =>
      rw [Option.some.inj heq] at hc
      cases hc
    · exact hread

theorem decimalValue_answers {layout : Layout} {expected : String}
    (h : Answers (numberValue expected) cs) :
    Answers (decimalValue layout expected) cs := by
  obtain ⟨a, ha⟩ := h
  refine ⟨a.toBinary layout, fun rest ↦ (ha rest).bind ?_⟩
  cases a <;> exact .pure _ _

/-- The text of a finite number is read as a number. -/
theorem decimalValue_write {expected : String} {layout layout' : Layout} (hstyle : Stores style)
    (htie : style.tie = .even) {s : Bool} {m : Nat} {q : Int}
    (hscales : (Decimal.shortest layout .even m q).Scales) :
    Answers (decimalValue layout' expected) (style.write layout (.finite s m q)) := by
  have hlay : Answers (number s) (style.lay (Decimal.shortest layout .even m q)) :=
    answers_lay hstyle s hscales
  unfold DecimalStyle.write
  dsimp only
  rw [htie]
  exact decimalValue_answers (numberValue_answers s hlay)

end Stored

end EntityStore
