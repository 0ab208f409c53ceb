import EntityStore.Proofs.Calendar.Written
import EntityStore.Proofs.Number.Digits
import EntityStore.Proofs.Value.Typing

/-!
Stored values are read back as they were, if no number in them is a fraction and they are not nested
too deep.
-/

set_option autoImplicit false

namespace EntityStore

/-! ### Words -/

theorem int32?_toInt (n : Int32) : int32? n.toInt = some n := by
  have low := Int32.minValue_le_toInt n
  have high := Int32.toInt_le n
  simp_all [int32?]

theorem int64?_isSome_of_int32 (n : Int32) : (int64? n.toInt).isSome := by
  have low := Int32.le_toInt n
  have high := Int32.toInt_lt n
  have hmin : Int64.minValue.toInt = -9223372036854775808 := rfl
  have hmax : Int64.maxValue.toInt = 9223372036854775807 := rfl
  unfold int64?
  rw [if_pos ⟨by omega, by omega⟩]
  rfl

/-! ### Readers -/

namespace Stored

/-- A reader takes the characters in front of `rest` and answers a value. -/
def Reads {α : Type} (r : Reader α) (cs rest : List Char) (a : α) : Prop :=
  ∀ c : Cursor, c.rest = cs → ∃ c', r c = .ok (a, c') ∧ c'.rest = rest

namespace Reads

variable {α β : Type} {r : Reader α} {f : α → Reader β} {cs ds es : List Char} {a : α} {b : β}

theorem pure (a : α) (cs : List Char) : Reads (Pure.pure a) cs cs a :=
  fun c hc ↦ ⟨c, rfl, hc⟩

theorem bind (hr : Reads r cs ds a) (hf : Reads (f a) ds es b) : Reads (r >>= f) cs es b := by
  intro c hc
  obtain ⟨c', hrun, hc'⟩ := hr c hc
  obtain ⟨c'', hrun', hc''⟩ := hf c' hc'
  refine ⟨c'', ?_, hc''⟩
  change (r c >>= fun x ↦ f x.1 x.2) = _
  rw [hrun]
  exact hrun'

theorem answer (f : α → β) (hr : Reads r cs ds a) :
    Reads (r >>= fun a ↦ Pure.pure (f a)) cs ds (f a) :=
  hr.bind (.pure _ _)

theorem next (d : Char) (cs : List Char) : Reads Stored.next (d :: cs) cs (some d) := by
  intro c hc
  refine ⟨c.after d cs, ?_, ?_⟩
  · unfold Stored.next
    rw [hc]
  · unfold Cursor.after
    split <;> rfl

theorem peek (cs : List Char) : Reads Stored.peek cs cs cs.head? :=
  fun c hc ↦ ⟨c, by rw [← hc]; rfl, hc⟩

theorem remaining (cs : List Char) : Reads Stored.remaining cs cs cs.length :=
  fun c hc ↦ ⟨c, by rw [← hc]; rfl, hc⟩

/-- What the next character decides. -/
theorem look {f : Option Char → Reader β} {d : Char} (hf : Reads (f (some d)) (d :: cs) es b) :
    Reads (Stored.peek >>= f) (d :: cs) es b :=
  (peek (d :: cs)).bind hf

theorem rest_after (ds : List Char) (c : Cursor) (hc : c.rest = cs ++ ds) :
    (cs.foldl (fun c d ↦ c.after d (c.rest.drop 1)) c).rest = ds := by
  induction cs generalizing c with
  | nil => exact hc
  | cons d cs ih =>
    refine ih _ ?_
    dsimp only
    rw [hc]
    unfold Cursor.after
    split <;> rfl

theorem takeWhile {p : Char → Bool} (cs ds : List Char) (hcs : ∀ c ∈ cs, p c)
    (hds : ∀ c ∈ ds.head?, p c = false) :
    Reads (Stored.takeWhile p) (cs ++ ds) ds cs := by
  intro c hc
  have htaken : c.rest.takeWhile p = cs := by
    rw [hc, List.takeWhile_append_of_pos hcs]
    cases ds with
    | nil => simp
    | cons d ds => simp [hds d rfl]
  unfold Stored.takeWhile
  rw [htaken]
  exact ⟨_, rfl, rest_after ds c hc⟩

/-- Skipping spaces where there are none. -/
theorem token {f : Option Char → Reader β} {d : Char} (hd : isSpace d = false)
    (hf : Reads (f (some d)) (d :: cs) es b) : Reads (peekToken >>= f) (d :: cs) es b := by
  have hskip : Reads (Stored.takeWhile isSpace) (d :: cs) (d :: cs) [] :=
    takeWhile [] _ (List.forall_mem_nil _) (by rintro c ⟨⟩; exact hd)
  exact (hskip.bind (peek (d :: cs))).bind hf

end Reads

/-! ### Strings -/

/-- How a character stands in a string: as itself, after a backslash or by its number. -/
theorem escape_cases (c : Char) : (Json.escape c = [c] ∧ c ≠ '"' ∧ c ≠ '\\' ∧ ¬c.toNat < 0x20) ∨
    (∃ d, Json.escape c = ['\\', d] ∧ d ≠ 'u' ∧ escapeLetter? d = some c) ∨
      (Json.escape c = ['\\', 'u', '0', '0'] ++ Json.hexPair c.toNat ∧ c.toNat < 0x20) := by
  unfold Json.escape
  split
  · next h => exact .inr (.inl ⟨'"', rfl, by decide, by rw [h]; rfl⟩)
  · next hquote =>
    split
    · next h => exact .inr (.inl ⟨'\\', rfl, by decide, by rw [h]; rfl⟩)
    · next hback =>
      split
      · next h => exact .inr (.inl ⟨'b', rfl, by decide, h ▸ rfl⟩)
      · split
        · next h => exact .inr (.inl ⟨'f', rfl, by decide, h ▸ rfl⟩)
        · split
          · next h => exact .inr (.inl ⟨'n', rfl, by decide, h ▸ rfl⟩)
          · split
            · next h => exact .inr (.inl ⟨'r', rfl, by decide, h ▸ rfl⟩)
            · split
              · next h => exact .inr (.inl ⟨'t', rfl, by decide, h ▸ rfl⟩)
              · split
                · next h => exact .inr (.inr ⟨rfl, h⟩)
                · next h => exact .inl ⟨rfl, hquote, hback, h⟩

theorem escape_ne_nil (c : Char) : 0 < (Json.escape c).length := by
  rcases escape_cases c with ⟨h, -⟩ | ⟨d, h, -⟩ | ⟨h, -⟩ <;> rw [h] <;> exact Nat.succ_pos _

theorem reads_hexEscape {n : Nat} (h : n < 0x20) (rest : List Char) :
    Reads hexEscape ('0' :: '0' :: (Json.hexPair n ++ rest)) rest n := by
  have hvalues : ∀ n < 0x20, ['0', '0', Nat.digitChar (n / 16),
        Nat.digitChar (n % 16)].mapM hexValue? =
      some [0, 0, n / 16, n % 16] := by decide
  intro c hc
  refine ⟨⟨c.line, c.column + 4, rest⟩, ?_, rfl⟩
  have hvalue : ((0 * 16 + 0) * 16 + n / 16) * 16 + n % 16 = n := by omega
  unfold hexEscape
  rw [hc, show ('0' :: '0' :: (Json.hexPair n ++ rest)).take 4 =
    ['0', '0', Nat.digitChar (n / 16), Nat.digitChar (n % 16)] from rfl, hvalues n h]
  dsimp only
  rw [hvalue]
  rfl

theorem reads_escape (c : Char) (rest : List Char) {k : Nat} {cs ds : List Char}
    (hrest : Reads (stringRest k) ds rest cs) :
    Reads (stringRest (k + 1)) (Json.escape c ++ ds) rest (c :: cs) := by
  unfold stringRest
  rcases escape_cases c with ⟨h, hquote, hback, hplain⟩ | ⟨d, h, hd, hletter⟩ | ⟨h, hn⟩
  · rw [h]
    refine (Reads.next c ds).bind ?_
    split
    · next heq => cases heq
    · next heq => exact absurd (Option.some.inj heq) hquote
    · next heq => exact absurd (Option.some.inj heq) hback
    · next heq =>
      obtain rfl := Option.some.inj heq
      rw [if_neg hplain]
      exact hrest.bind (.pure _ _)
  · rw [h]
    refine (Reads.next '\\' (d :: ds)).bind ?_
    have hescaped : Reads escaped (d :: ds) ds c := by
      unfold escaped
      refine .look ?_
      split
      · next heq => cases heq
      · next heq => exact absurd (Option.some.inj heq) hd
      · next heq =>
        obtain rfl := Option.some.inj heq
        rw [hletter]
        exact (Reads.next d ds).bind (.pure _ _)
    exact hescaped.bind (hrest.bind (.pure _ _))
  · rw [h]
    refine (Reads.next '\\' _).bind ?_
    have hescaped : Reads escaped ('u' :: '0' :: '0' :: (Json.hexPair c.toNat ++ ds)) ds c := by
      unfold escaped
      refine .look ((Reads.next 'u' _).bind ?_)
      unfold unicodeEscape
      refine (reads_hexEscape hn ds).bind ?_
      rw [if_neg (by omega), if_neg (by omega), Char.ofNat_toNat]
      exact .pure _ _
    exact hescaped.bind (hrest.bind (.pure _ _))

/-- A string is read up to its closing quote. -/
theorem reads_stringRest (cs rest : List Char) {k : Nat} (hk : cs.length < k) :
    Reads (stringRest k) (cs.flatMap Json.escape ++ '"' :: rest) rest cs := by
  induction cs generalizing k with
  | nil =>
    obtain ⟨k, rfl⟩ := Nat.exists_eq_add_one_of_ne_zero (Nat.ne_zero_of_lt hk)
    unfold stringRest
    exact (Reads.next '"' rest).bind (.pure _ _)
  | cons c cs ih =>
    obtain ⟨k, rfl⟩ := Nat.exists_eq_add_one_of_ne_zero (Nat.ne_zero_of_lt hk)
    rw [List.flatMap_cons, List.append_assoc]
    exact reads_escape c rest (ih (Nat.lt_of_succ_lt_succ hk))

theorem length_le_flatMap_escape (cs : List Char) :
    cs.length ≤ (cs.flatMap Json.escape).length := by
  induction cs with
  | nil => exact Nat.le_refl _
  | cons c cs ih =>
    have := escape_ne_nil c
    rw [List.flatMap_cons, List.length_append, List.length_cons]
    omega

theorem reads_quotedString (cs rest : List Char) :
    Reads quotedString (Json.string cs ++ rest) rest cs := by
  have htext : Json.string cs ++ rest = '"' :: (cs.flatMap Json.escape ++ '"' :: rest) := by
    simp [Json.string]
  rw [htext]
  unfold quotedString
  refine (Reads.next '"' _).bind ((Reads.remaining _).bind (reads_stringRest cs rest ?_))
  have := length_le_flatMap_escape cs
  rw [List.length_append]
  omega

theorem reads_stringValue (expected : String) (cs rest : List Char) :
    Reads (stringValue expected) (Json.string cs ++ rest) rest cs := by
  unfold stringValue
  exact .token rfl (reads_quotedString cs rest)

/-! ### Numbers -/

theorem ofDigitChars_cons (c : Char) (cs : List Char) (n : Nat) :
    Nat.ofDigitChars 10 (c :: cs) n = Nat.ofDigitChars 10 cs (n * 10 + digitsValue [c]) := by
  simp [digitsValue, Nat.ofDigitChars_cons, Nat.mul_comm]

theorem le_ofDigitChars (cs : List Char) (n : Nat) : n ≤ Nat.ofDigitChars 10 cs n := by
  rw [Nat.ofDigitChars_eq_ofDigitChars_zero]
  exact Nat.le_trans (Nat.le_mul_of_pos_left _ (Nat.pow_pos (by decide))) (Nat.le_add_right _ _)

/-- All digits of a word fit. -/
theorem significand_eq (cs : List Char) {n : Nat} (h : Nat.ofDigitChars 10 cs n < UInt64.size) :
    significand n cs = (Nat.ofDigitChars 10 cs n, 0) := by
  induction cs generalizing n with
  | nil => rfl
  | cons c cs ih =>
    rw [ofDigitChars_cons] at h ⊢
    unfold significand
    dsimp only
    rw [if_pos (Nat.lt_of_le_of_lt (le_ofDigitChars cs _) h)]
    exact ih h

/-- What a number without a fraction is. -/
def whole (negative : Bool) (n : Nat) : Reader Number :=
  if !negative then pure (.natural n)
  else if n = 0 || (int64? (-(n : Int))).isNone then decimalOf true n 0
  else pure (.negative (-(n : Int)))

/-- What follows the whole digits of a number. -/
def afterWhole (negative : Bool) (n : Nat) : Reader Number := do
  match ← peek with
  | some '.' => fractionPart negative n 0
  | some 'e' | some 'E' => exponentPart negative n 0
  | _ => whole negative n

/-- A number is read by what reads on after its whole digits. -/
theorem reads_number {negative : Bool} {w ds es : List Char} {d : Char} {n : Nat} {a : Number}
    (hw : WholeDigits w) (hn : digitsValue w = n) (hsize : n < UInt64.size) (hd : d.isDigit = false)
    (h : Reads (afterWhole negative n) (d :: ds) es a) :
    Reads (number negative) (w ++ d :: ds) es a := by
  subst hn
  have hsignificand : significand 0 w = (digitsValue w, 0) := significand_eq w hsize
  unfold number
  rcases hw.head with rfl | ⟨c, hc, hzero⟩
  · refine .look ?_
    dsimp only
    rw [if_neg (by decide), if_pos rfl]
    refine ((Reads.next '0' _).bind (.pure ['0'] _)).bind (.look ?_)
    dsimp only
    rw [if_neg (by rw [hd]; decide), hsignificand]
    exact h
  · obtain ⟨cs, rfl⟩ := List.head?_eq_some_iff.mp hc
    have hdigit : c.isDigit := hw.digits c List.mem_cons_self
    refine .look ?_
    dsimp only
    rw [if_neg (by simp [hdigit]), if_neg hzero]
    refine (Reads.takeWhile (c :: cs) (d :: ds) hw.digits (by rintro _ ⟨⟩; exact hd)).bind
      (.look ?_)
    dsimp only
    rw [if_neg (by simp [hzero]), hsignificand]
    exact h

/-- The digits of a number end at a brace. -/
theorem reads_whole {negative : Bool} {n : Nat} (hn : n < UInt64.size)
    (rest : List Char) {a : Number} (ha : whole negative n = pure a) :
    Reads (number negative) (natDigits n ++ '\x7d' :: rest) ('\x7d' :: rest) a :=
  reads_number (wholeDigits_natDigits n) (digitsValue_natDigits n) hn (by decide)
    (.look (ha ▸ .pure a _))

theorem reads_signedNumber {n : Int} (hn : (int64? n).isSome) (rest : List Char) :
    Reads signedNumber (intDigits n ++ '\x7d' :: rest) ('\x7d' :: rest)
      (if n < 0 then .negative n else .natural n.natAbs) := by
  have hbounds : Int64.minValue.toInt ≤ n ∧ n ≤ Int64.maxValue.toInt := by
    unfold int64? at hn
    split at hn
    · assumption
    · cases hn
  have hmin : Int64.minValue.toInt = -9223372036854775808 := rfl
  have hmax : Int64.maxValue.toInt = 9223372036854775807 := rfl
  have hsize : UInt64.size = 18446744073709551616 := rfl
  unfold intDigits signedNumber
  split
  · next hnegative =>
    have hback : -(n.natAbs : Int) = n := by omega
    have hwhole : whole true n.natAbs = pure (.negative n) := by
      have hzero : n.natAbs ≠ 0 := by omega
      unfold whole
      rw [if_neg (by decide), hback, if_neg]
      simp [hzero, Option.isSome_iff_ne_none.mp hn]
    exact .look ((Reads.next '-' _).bind (reads_whole (by omega) rest hwhole))
  · next hplain =>
    have hread : Reads (number false) (natDigits n.natAbs ++ '\x7d' :: rest) ('\x7d' :: rest)
        (.natural n.natAbs) :=
      reads_whole (by omega) rest rfl
    cases hdigits : natDigits n.natAbs with
    | nil => exact absurd hdigits Nat.toDigits_ne_nil
    | cons c cs =>
      have hc : c.isDigit := isDigit_of_mem_natDigits (hdigits ▸ List.mem_cons_self)
      rw [hdigits] at hread
      refine .look ?_
      split
      · next heq =>
        rw [Option.some.inj heq] at hc
        cases hc
      · exact hread

theorem isSpace_of_isDigit {c : Char} (hc : c.isDigit) : isSpace c = false := by
  have hspace : ∀ d ∈ [' ', '\n', '\t', '\r'], d.isDigit = false := by simp [Char.isDigit]
  have hne (d : Char) (hd : d ∈ [' ', '\n', '\t', '\r']) : (c == d) = false := by
    rw [beq_eq_false_iff_ne]
    rintro rfl
    rw [hspace c hd] at hc
    cases hc
  simp [isSpace, hne]

/-- An integer begins with a sign or a digit. -/
theorem intDigits_head (n : Int) : ∃ c cs, intDigits n = c :: cs ∧ isSpace c = false ∧
    (c = '-' || c.isDigit) := by
  unfold intDigits
  split
  · exact ⟨'-', _, rfl, rfl, rfl⟩
  · cases hdigits : natDigits n.natAbs with
    | nil => exact absurd hdigits Nat.toDigits_ne_nil
    | cons c cs =>
      have hc : c.isDigit := isDigit_of_mem_natDigits (hdigits ▸ List.mem_cons_self)
      exact ⟨c, cs, rfl, isSpace_of_isDigit hc, by simp [hc]⟩

theorem reads_integerValue {α : Type} {word? : Int → Option α} (expected : String) {n : Int} {a : α}
    (hword : word? n = some a) (hn : (int64? n).isSome) (rest : List Char) :
    Reads (integerValue word? expected) (intDigits n ++ '\x7d' :: rest) ('\x7d' :: rest) a := by
  have hnumber : Reads (numberValue expected) (intDigits n ++ '\x7d' :: rest) ('\x7d' :: rest)
      (if n < 0 then .negative n else .natural n.natAbs) := by
    have hsigned := reads_signedNumber hn rest
    obtain ⟨c, cs, hcs, hspace, hc⟩ := intDigits_head n
    rw [hcs] at hsigned ⊢
    unfold numberValue
    refine .token hspace ?_
    dsimp only
    rwa [if_pos hc]
  unfold integerValue
  by_cases hnegative : n < 0
  · rw [if_pos hnegative] at hnumber
    refine hnumber.bind ((Reads.pure n _).bind ?_)
    dsimp only
    rw [hword]
    exact .pure _ _
  · have hback : (n.natAbs : Int) = n := by omega
    rw [if_neg hnegative] at hnumber
    refine hnumber.bind ((Reads.pure (n.natAbs : Int) _).bind ?_)
    dsimp only
    rw [hback, hword]
    exact .pure _ _

theorem reads_word (cs rest : List Char) : Reads (word cs) (cs ++ rest) rest () := by
  induction cs with
  | nil => exact .pure _ _
  | cons c cs ih =>
    unfold word
    refine .look ?_
    dsimp only
    rw [if_pos rfl]
    exact (Reads.next c _).bind ih

theorem reads_boolValue (b : Bool) (rest : List Char) :
    Reads boolValue ((if b then "true" else "false").toList ++ rest) rest b := by
  unfold boolValue
  cases b with
  | true =>
    exact .token rfl ((Reads.next 't' _).bind ((reads_word ['r', 'u', 'e'] rest).bind (.pure _ _)))
  | false =>
    exact .token rfl
      ((Reads.next 'f' _).bind ((reads_word ['a', 'l', 's', 'e'] rest).bind (.pure _ _)))

theorem reads_calendarValue {α : Type} {read : List Char → Except CalendarError α}
    {cs : List Char} {a : α} (h : read cs = .ok a) (expected : String) (rest : List Char) :
    Reads (calendarValue read expected) (Json.string cs ++ rest) rest a := by
  unfold calendarValue
  refine (reads_stringValue expected cs rest).bind ?_
  rw [h]
  exact .pure _ _

theorem reads_colon (rest : List Char) : Reads colon (':' :: rest) rest () := by
  unfold colon
  exact .token rfl ((Reads.next ':' rest).bind (.pure _ _))

theorem reads_kind {name : String} (h : name ∈ StoredFault.kinds) (rest : List Char) :
    Reads kind (Json.string name.toList ++ rest) rest name := by
  unfold kind
  refine (reads_stringValue _ name.toList rest).bind ?_
  dsimp only
  rw [String.ofList_toList, if_pos h]
  exact .pure _ _

/-- A tagged value is read by what reads its content. -/
theorem reads_tagged {v w : Value} {inside : String → Reader Value} {bare : Reader Value}
    {cs rest : List Char} (hkind : v.tag ∈ StoredFault.kinds)
    (hcontent : Reads (inside v.tag) (cs ++ '\x7d' :: rest) ('\x7d' :: rest) w) :
    Reads (tagged (some inside) bare) (v.tagged cs ++ rest) rest w := by
  have htext : v.tagged cs ++ rest =
      '\x7b' :: (Json.string v.tag.toList ++ ':' :: (cs ++ '\x7d' :: rest)) := by
    simp [Value.tagged, Json.object, Json.member, joinChars]
  rw [htext]
  unfold tagged
  refine .token rfl ((Reads.next '\x7b' _).bind ((reads_kind hkind _).bind ((reads_colon _).bind
    (hcontent.bind (.token rfl ((Reads.next '\x7d' rest).bind (.pure _ _)))))))

theorem reads_null (inside : Option (String → Reader Value)) (bare : Reader Value)
    (rest : List Char) :
    Reads (tagged inside bare) (Value.null.stored ++ rest) rest .null := by
  have hkind : Reads kind (Json.string "null".toList ++ rest) rest "null" :=
    reads_kind (by decide) rest
  unfold tagged
  refine .token (d := '"') rfl (hkind.bind ?_)
  rw [if_pos rfl]
  exact .pure _ _

/-! ### Lists and maps -/

theorem joinChars_cons (separator x : List Char) (xs : List (List Char)) :
    joinChars separator (x :: xs) = x ++ xs.flatMap (separator ++ ·) := by
  induction xs generalizing x with
  | nil => simp [joinChars]
  | cons y ys ih =>
    have hstep : joinChars separator (x :: y :: ys) = x ++ separator ++
        joinChars separator (y :: ys) := by
      simp [joinChars, List.intercalate_cons_cons]
    rw [hstep, ih, List.flatMap_cons]
    simp

theorem length_le_flatMap (d : Char) (xs : List (List Char)) :
    xs.length ≤ (xs.flatMap ([d] ++ ·)).length := by
  induction xs with
  | nil => exact Nat.le_refl _
  | cons x xs ih =>
    rw [List.flatMap_cons, List.length_append, List.length_append, List.length_cons,
      List.length_singleton]
    omega

theorem length_le_joinChars (d : Char) (xs : List (List Char)) :
    xs.length ≤ (joinChars [d] xs).length + 1 := by
  cases xs with
  | nil => exact Nat.zero_le _
  | cons x xs =>
    have := length_le_flatMap d xs
    rw [joinChars_cons, List.length_append, List.length_cons]
    omega

/-- A stored value begins with a quote or a brace. -/
theorem stored_head (v : Value) : ∃ c cs, v.stored = c :: cs ∧ (c = '"' ∨ c = '\x7b') := by
  cases v <;> unfold Value.stored
  case null => exact ⟨_, _, rfl, .inl rfl⟩
  all_goals exact ⟨_, _, rfl, .inr rfl⟩

variable {item : Reader Value}

/-- A reader takes the stored text of a value in front of anything and answers a value. -/
def ReadsBack (item : Reader Value) (v w : Value) : Prop :=
  ∀ rest, Reads item (v.stored ++ rest) rest w

/-- One more element. -/
theorem reads_element {v w : Value} {ws : List Value} {k : Nat} {cs rest : List Char}
    (hitem : ReadsBack item v w) (hrest : Reads (elements item k false) cs rest ws) :
    Reads (item >>= fun v ↦ elements item k false >>= fun vs ↦ pure (v :: vs))
      (v.stored ++ cs) rest (w :: ws) :=
  (hitem cs).bind (hrest.bind (.pure _ _))

theorem reads_elements {vs ws : List Value} (hitem : List.Forall₂ (ReadsBack item) vs ws) {k : Nat}
    (hk : vs.length < k) (rest : List Char) :
    Reads (elements item k false) ((vs.map Value.stored).flatMap ([','] ++ ·) ++
      ']' :: rest) rest ws := by
  induction hitem generalizing k with
  | nil =>
    obtain ⟨k, rfl⟩ := Nat.exists_eq_add_one_of_ne_zero (Nat.ne_zero_of_lt hk)
    unfold elements
    exact .token rfl ((Reads.next ']' rest).bind (.pure _ _))
  | @cons v w vs ws hfirst _ ih =>
    obtain ⟨k, rfl⟩ := Nat.exists_eq_add_one_of_ne_zero (Nat.ne_zero_of_lt hk)
    have hmore := reads_element hfirst (ih (Nat.lt_of_succ_lt_succ hk))
    have htext : ((v :: vs).map Value.stored).flatMap ([','] ++ ·) ++ ']' :: rest =
        ',' :: (v.stored ++ ((vs.map Value.stored).flatMap ([','] ++ ·) ++ ']' :: rest)) := by simp
    rw [htext]
    unfold elements
    refine .token rfl ((Reads.next ',' _).bind ?_)
    obtain ⟨c, cs, hcs, hc⟩ := stored_head v
    rw [hcs, List.cons_append] at hmore ⊢
    rcases hc with rfl | rfl
    · exact .token rfl hmore
    · exact .token rfl hmore

theorem reads_array {vs ws : List Value} (hitem : List.Forall₂ (ReadsBack item) vs ws) {k : Nat}
    (hk : vs.length < k) (rest : List Char) :
    Reads (elements item k true) (joinChars [','] (vs.map Value.stored) ++
      ']' :: rest) rest ws := by
  obtain ⟨k, rfl⟩ := Nat.exists_eq_add_one_of_ne_zero (Nat.ne_zero_of_lt hk)
  cases hitem with
  | nil =>
    unfold elements
    exact .token (d := ']') rfl ((Reads.next ']' rest).bind (.pure _ _))
  | @cons v w vs ws hfirst hothers =>
    have hmore := reads_element hfirst (reads_elements hothers (Nat.lt_of_succ_lt_succ hk) rest)
    rw [List.map_cons, joinChars_cons, List.append_assoc]
    unfold elements
    obtain ⟨c, cs, hcs, hc⟩ := stored_head v
    rw [hcs, List.cons_append] at hmore ⊢
    rcases hc with rfl | rfl
    · exact .token rfl hmore
    · exact .token rfl hmore

/-- An entry of a map as it is stored. -/
def member (e : String × Value) : List Char :=
  Json.member e.1.toList e.2.stored

/-- An entry of a map is read under its key. -/
def EntryReadsBack (item : Reader Value) (e f : String × Value) : Prop :=
  f.1 = e.1 ∧ ReadsBack item e.2 f.2

theorem reads_member {e f : String × Value} {fs : List (String × Value)} {k : Nat}
    {cs rest : List Char} (hitem : EntryReadsBack item e f)
    (hrest : Reads (members item k false) cs rest fs) :
    Reads (quotedString >>= fun key ↦ colon >>= fun _ ↦ item >>=
      fun v ↦ members item k false >>= fun es ↦
      pure ((String.ofList key, v) :: es)) (member e ++ cs) rest (f :: fs) := by
  obtain ⟨key, w⟩ := f
  obtain ⟨rfl, hvalue⟩ : key = e.1 ∧ ReadsBack item e.2 w := hitem
  have htext : member e ++ cs = Json.string e.1.toList ++ ':' :: (e.2.stored ++ cs) := by
    simp [member, Json.member]
  rw [htext]
  refine (reads_quotedString _ _).bind ((reads_colon _).bind ((hvalue cs).bind (hrest.bind ?_)))
  rw [String.ofList_toList]
  exact .pure _ _

theorem reads_members {es fs : List (String × Value)}
    (hitem : List.Forall₂ (EntryReadsBack item) es fs) {k : Nat}
    (hk : es.length < k) (rest : List Char) :
    Reads (members item k false) ((es.map member).flatMap ([','] ++ ·) ++
      '\x7d' :: rest) rest fs := by
  induction hitem generalizing k with
  | nil =>
    obtain ⟨k, rfl⟩ := Nat.exists_eq_add_one_of_ne_zero (Nat.ne_zero_of_lt hk)
    unfold members
    exact .token rfl ((Reads.next '\x7d' rest).bind (.pure _ _))
  | @cons e f es fs hfirst _ ih =>
    obtain ⟨k, rfl⟩ := Nat.exists_eq_add_one_of_ne_zero (Nat.ne_zero_of_lt hk)
    have hmore := reads_member hfirst (ih (Nat.lt_of_succ_lt_succ hk))
    have htext : ((e :: es).map member).flatMap ([','] ++ ·) ++ '\x7d' :: rest =
        ',' :: (member e ++ ((es.map member).flatMap ([','] ++ ·) ++ '\x7d' :: rest)) := by simp
    rw [htext]
    unfold members
    exact .token rfl ((Reads.next ',' _).bind (.token (d := '"') rfl hmore))

theorem reads_object {es fs : List (String × Value)}
    (hitem : List.Forall₂ (EntryReadsBack item) es fs) {k : Nat}
    (hk : es.length < k) (rest : List Char) :
    Reads (members item k true) (joinChars [','] (es.map member) ++ '\x7d' :: rest) rest fs := by
  obtain ⟨k, rfl⟩ := Nat.exists_eq_add_one_of_ne_zero (Nat.ne_zero_of_lt hk)
  cases hitem with
  | nil =>
    unfold members
    exact .token (d := '\x7d') rfl ((Reads.next '\x7d' rest).bind (.pure _ _))
  | @cons e f es fs hfirst hothers =>
    have hmore := reads_member hfirst (reads_members hothers (Nat.lt_of_succ_lt_succ hk) rest)
    rw [List.map_cons, joinChars_cons, List.append_assoc]
    unfold members
    exact .token (d := '"') rfl hmore

end Stored

/-! ### Exact values -/

namespace Value

mutual

/-- A value without fractions, whose maps have each key once and in order. -/
def Exact : Value → Prop
  | .float _ | .double _ => False
  | .list items => ExactItems items
  | .map entries => entries.Pairwise (fun a b ↦ a.1 < b.1) ∧ ExactEntries entries
  | _ => True

def ExactItems : List Value → Prop
  | [] => True
  | v :: vs => v.Exact ∧ ExactItems vs

def ExactEntries : List (String × Value) → Prop
  | [] => True
  | (_, v) :: es => v.Exact ∧ ExactEntries es

end

mutual

/-- A value all of whose leap seconds come at the end of a minute. -/
def Regular : Value → Prop
  | .time t => t.Regular
  | .dateTime t => t.time.Regular
  | .list items => RegularItems items
  | .map entries => RegularEntries entries
  | _ => True

def RegularItems : List Value → Prop
  | [] => True
  | v :: vs => v.Regular ∧ RegularItems vs

def RegularEntries : List (String × Value) → Prop
  | [] => True
  | (_, v) :: es => v.Regular ∧ RegularEntries es

end

mutual

/-- The value that is read back from the text of a value. -/
def readBack : Value → Value
  | .time t => .time t.readBack
  | .dateTime t => .dateTime t.readBack
  | .list items => .list (readBackItems items)
  | .map entries => .map (readBackEntries entries)
  | v => v

def readBackItems : List Value → List Value
  | [] => []
  | v :: vs => v.readBack :: readBackItems vs

def readBackEntries : List (String × Value) → List (String × Value)
  | [] => []
  | (key, v) :: es => (key, v.readBack) :: readBackEntries es

end

mutual

/-- A value is read back as it was exactly if no leap second stands within a minute. -/
theorem readBack_eq_iff : ∀ v : Value, v.readBack = v ↔ v.Regular
  | .time _ => (Value.time.injEq ..).to_iff.trans TimeOfDay.readBack_eq_iff
  | .dateTime _ => (Value.dateTime.injEq ..).to_iff.trans DateTime.readBack_eq_iff
  | .list items => (Value.list.injEq ..).to_iff.trans (readBackItems_eq_iff items)
  | .map entries => (Value.map.injEq ..).to_iff.trans (readBackEntries_eq_iff entries)
  | .null | .text _ | .int _ | .long _ | .float _ | .double _ | .bool _ | .date _ =>
    iff_of_true rfl trivial

theorem readBackItems_eq_iff : ∀ vs : List Value, readBackItems vs = vs ↔ RegularItems vs
  | [] => iff_of_true rfl trivial
  | v :: vs =>
    (List.cons.injEq ..).to_iff.trans (and_congr (readBack_eq_iff v) (readBackItems_eq_iff vs))

theorem readBackEntries_eq_iff :
    ∀ es : List (String × Value), readBackEntries es = es ↔ RegularEntries es
  | [] => iff_of_true rfl trivial
  | (_, v) :: es => (List.cons.injEq ..).to_iff.trans
      (and_congr ((Prod.mk.injEq ..).to_iff.trans ((and_iff_right rfl).trans (readBack_eq_iff v)))
        (readBackEntries_eq_iff es))

end

/-- The keys of a map are read back. -/
theorem pairwise_readBackEntries {es : List (String × Value)}
    (h : es.Pairwise fun a b ↦ a.1 < b.1) :
    (readBackEntries es).Pairwise fun a b ↦ a.1 < b.1 := by
  have hkeys (es : List (String × Value)) :
      (readBackEntries es).map Prod.fst = es.map Prod.fst := by
    induction es with
    | nil => rfl
    | cons e es ih => rw [readBackEntries, List.map_cons, ih, List.map_cons]
  have hpairs := List.pairwise_map.mpr h
  rw [← hkeys] at hpairs
  exact List.pairwise_map.mp hpairs

mutual

/-- How many arrays and objects of its stored text lie inside one another. -/
def nesting : Value → Nat
  | .null => 0
  | .list items => nestingItems items + 2
  | .map entries => nestingEntries entries + 2
  | _ => 1

def nestingItems : List Value → Nat
  | [] => 0
  | v :: vs => max v.nesting (nestingItems vs)

def nestingEntries : List (String × Value) → Nat
  | [] => 0
  | (_, v) :: es => max v.nesting (nestingEntries es)

end

theorem storedItems_eq (vs : List Value) : storedItems vs = vs.map stored := by
  induction vs with
  | nil => rfl
  | cons v vs ih => rw [storedItems, ih, List.map_cons]

theorem storedEntries_eq (es : List (String × Value)) :
    storedEntries es = es.map Stored.member := by
  induction es with
  | nil => rfl
  | cons e es ih => rw [storedEntries, ih, List.map_cons, Stored.member]

end Value

namespace Stored

/-! ### Values -/

theorem value_succ (d : Nat) : ∃ item, value (d + 1) = tagged (some (content item)) := by
  cases d with
  | zero => exact ⟨_, rfl⟩
  | succ d => exact ⟨_, rfl⟩

theorem reads_scalar {v w : Value} {d : Nat} (hd : 1 ≤ d) {cs : List Char}
    (hkind : v.tag ∈ StoredFault.kinds) (hstored : v.stored = v.tagged cs)
    (hcontent : ∀ item rest, Reads (content item v.tag) (cs ++ '\x7d' :: rest) ('\x7d' :: rest) w)
    (bare : Reader Value) : ReadsBack (value d bare) v w := by
  intro rest
  obtain ⟨d, rfl⟩ := Nat.exists_eq_add_one_of_ne_zero (Nat.ne_zero_of_lt hd)
  obtain ⟨item, hvalue⟩ := value_succ d
  rw [hvalue, hstored]
  exact reads_tagged hkind (hcontent item rest)

theorem reads_list {vs ws : List Value} {d : Nat} {bare : Reader Value}
    (hitem : List.Forall₂ (ReadsBack (value d bareInArray)) vs ws) :
    ReadsBack (value (d + 2) bare) (.list vs) (.list ws) := by
  intro rest
  have htext : Json.array (Value.storedItems vs) ++ '\x7d' :: rest =
      '[' :: (joinChars [','] (vs.map Value.stored) ++ ']' :: '\x7d' :: rest) := by
    simp [Json.array, Value.storedItems_eq]
  have hlength : vs.length < (joinChars [','] (vs.map Value.stored) ++
      ']' :: '\x7d' :: rest).length + 1 := by
    have := length_le_joinChars ',' (vs.map Value.stored)
    rw [List.length_map] at this
    rw [List.length_append, List.length_cons]
    omega
  have hcontent : Reads (content (some (value d)) "list")
      (Json.array (Value.storedItems vs) ++ '\x7d' :: rest) ('\x7d' :: rest) (.list ws) := by
    rw [htext]
    exact .token rfl ((Reads.next '[' _).bind ((Reads.remaining _).bind
      ((reads_array hitem hlength ('\x7d' :: rest)).bind (.pure _ _))))
  exact reads_tagged (v := .list vs) (show "list" ∈ StoredFault.kinds by decide) hcontent

theorem reads_map {es fs : List (String × Value)} {d : Nat} {bare : Reader Value}
    (hitem : List.Forall₂ (EntryReadsBack (value d bareInObject)) es fs) :
    ReadsBack (value (d + 2) bare) (.map es) (.ofEntries fs) := by
  intro rest
  have htext : Json.object (Value.storedEntries es) ++ '\x7d' :: rest =
      '\x7b' :: (joinChars [','] (es.map member) ++ '\x7d' :: '\x7d' :: rest) := by
    simp [Json.object, Value.storedEntries_eq]
  have hlength : es.length < (joinChars [','] (es.map member) ++
      '\x7d' :: '\x7d' :: rest).length + 1 := by
    have := length_le_joinChars ',' (es.map member)
    rw [List.length_map] at this
    rw [List.length_append, List.length_cons]
    omega
  have hcontent : Reads (content (some (value d)) "map")
      (Json.object (Value.storedEntries es) ++ '\x7d' :: rest) ('\x7d' :: rest)
        (.ofEntries fs) := by
    rw [htext]
    exact .token rfl ((Reads.next '\x7b' _).bind ((Reads.remaining _).bind
      ((reads_object hitem hlength ('\x7d' :: rest)).bind (.pure _ _))))
  exact reads_tagged (v := .map es) (show "map" ∈ StoredFault.kinds by decide) hcontent

theorem putSorted_append {α : Type} {key : String} {a : α} {l : List (String × α)}
    (h : ∀ x ∈ l, x.1 < key) :
    putSorted key a l = l ++ [(key, a)] := by
  induction l with
  | nil => rfl
  | cons x l ih =>
    obtain ⟨k, b⟩ := x
    have hk : k < key := h (k, b) List.mem_cons_self
    unfold putSorted
    rw [if_neg (String.lt_asymm hk), if_neg (String.ne_of_lt hk).symm,
      ih fun x hx ↦ h x (List.mem_cons_of_mem _ hx)]
    rfl

/-- Entries that are in order stay as they are. -/
theorem sortEntries_eq {α : Type} {es : List (String × α)} (h : es.Pairwise fun a b ↦ a.1 < b.1) :
    sortEntries es = es := by
  have hgo (before : List (String × α)) (hall : (before ++ es).Pairwise fun a b ↦ a.1 < b.1) :
      es.foldl (fun sorted x ↦ putSorted x.1 x.2 sorted) before = before ++ es := by
    induction es generalizing before with
    | nil => exact (List.append_nil _).symm
    | cons e es ih =>
      have hbefore : ∀ x ∈ before, x.1 < e.1 := fun x hx ↦
        (List.pairwise_append.mp hall).2.2 x hx e List.mem_cons_self
      have hsplit : before ++ e :: es = before ++ [e] ++ es := by simp
      rw [List.foldl_cons, hsplit]
      change es.foldl _ (putSorted e.1 e.2 before) = _
      rw [putSorted_append hbefore]
      exact ih (List.Pairwise.of_cons h) _ (hsplit ▸ hall)
  exact hgo [] h

mutual

/-- A value that is exact is read back wherever it may be nested as deep. -/
theorem reads_value : ∀ (v : Value) (d : Nat) (bare : Reader Value), v.Exact → v.nesting ≤ d →
    ReadsBack (value d bare) v v.readBack
  | .null, d, bare, _, _ => fun rest ↦ by
    cases d with
    | zero => exact reads_null _ bare rest
    | succ d =>
      obtain ⟨item, hvalue⟩ := value_succ d
      rw [hvalue]
      exact reads_null _ bare rest
  | .text s, d, bare, _, hd =>
    reads_scalar (v := .text s) hd (show "text" ∈ StoredFault.kinds by
      decide) rfl (fun item rest ↦ by
      have hread :=
        (reads_stringValue "a string" s.toList ('\x7d' :: rest)).answer (Value.text ∘ String.ofList)
      rw [Function.comp_apply, String.ofList_toList] at hread
      exact hread) bare
  | .int n, d, bare, _, hd =>
    reads_scalar (v := .int n) hd (show "int" ∈ StoredFault.kinds by decide) rfl (fun item rest ↦
      (reads_integerValue "i32" (int32?_toInt n) (int64?_isSome_of_int32 n) rest).answer
        Value.int) bare
  | .long n, d, bare, _, hd =>
    reads_scalar (v := .long n) hd (show "long" ∈ StoredFault.kinds by decide) rfl (fun item rest ↦
      (reads_integerValue "i64" (int64?_toInt n) (by rw [int64?_toInt]; rfl) rest).answer
        Value.long) bare
  | .float _, _, _, h, _ | .double _, _, _, h, _ => h.elim
  | .bool b, d, bare, _, hd =>
    reads_scalar (v := .bool b) hd (show "bool" ∈ StoredFault.kinds by decide) rfl (fun item rest ↦
      (reads_boolValue b ('\x7d' :: rest)).answer Value.bool) bare
  | .time t, d, bare, _, hd =>
    reads_scalar (v := .time t) hd (show "time" ∈ StoredFault.kinds by decide) rfl (fun item rest ↦
      (reads_calendarValue t.readStored_chars _ ('\x7d' :: rest)).answer Value.time) bare
  | .date t, d, bare, _, hd =>
    reads_scalar (v := .date t) hd (show "date" ∈ StoredFault.kinds by decide) rfl (fun item rest ↦
      (reads_calendarValue t.readStored_chars _ ('\x7d' :: rest)).answer Value.date) bare
  | .dateTime t, d, bare, _, hd =>
    reads_scalar (v := .dateTime t) hd (show "datetime" ∈ StoredFault.kinds by
      decide) rfl (fun item rest ↦
      (reads_calendarValue t.readStored_chars _ ('\x7d' :: rest)).answer Value.dateTime) bare
  | .list vs, d, bare, h, hd => by
    obtain ⟨d, rfl⟩ := Nat.exists_eq_add_of_le' (Nat.le_trans (Nat.le_add_left 2 _) hd)
    exact reads_list (reads_items vs d bareInArray h (Nat.le_of_add_le_add_right hd))
  | .map es, d, bare, h, hd => by
    obtain ⟨d, rfl⟩ := Nat.exists_eq_add_of_le' (Nat.le_trans (Nat.le_add_left 2 _) hd)
    have hread : ReadsBack (value (d + 2) bare) (.map es) (.ofEntries (Value.readBackEntries es)) :=
      reads_map (reads_entries es d bareInObject h.2 (Nat.le_of_add_le_add_right hd))
    rwa [Value.ofEntries, sortEntries_eq (Value.pairwise_readBackEntries h.1)] at hread

theorem reads_items : ∀ (vs : List Value) (d : Nat) (bare : Reader Value), Value.ExactItems vs →
    Value.nestingItems vs ≤ d → List.Forall₂ (ReadsBack (value d bare)) vs (Value.readBackItems vs)
  | [], _, _, _, _ => .nil
  | v :: vs, d, bare, h, hd =>
    .cons (reads_value v d bare h.1 (Nat.le_trans (Nat.le_max_left _ _) hd))
      (reads_items vs d bare h.2 (Nat.le_trans (Nat.le_max_right _ _) hd))

theorem reads_entries :
    ∀ (es : List (String × Value)) (d : Nat) (bare : Reader Value), Value.ExactEntries es →
    Value.nestingEntries es ≤ d →
    List.Forall₂ (EntryReadsBack (value d bare)) es (Value.readBackEntries es)
  | [], _, _, _, _ => .nil
  | (_, v) :: es, d, bare, h, hd =>
    .cons ⟨rfl, reads_value v d bare h.1 (Nat.le_trans (Nat.le_max_left _ _) hd)⟩
      (reads_entries es d bare h.2 (Nat.le_trans (Nat.le_max_right _ _) hd))

end

end Stored

/-- What is read back on its own is what the stored text stands for. -/
theorem Value.readStored_eq {v w : Value}
    (h : Stored.ReadsBack (Stored.value 127 Stored.bareAlone) v w) :
    Value.readStored (String.ofList v.stored) = .ok w := by
  have hend : Stored.Reads Stored.document v.stored [] w := by
    have hvalue := h []
    rw [List.append_nil] at hvalue
    have hskip : Stored.Reads (Stored.takeWhile Stored.isSpace) [] [] [] :=
      .takeWhile [] [] (List.forall_mem_nil _) (by rintro c ⟨⟩)
    exact hvalue.bind ((hskip.bind (.peek [])).bind (.pure _ _))
  obtain ⟨c, hrun, -⟩ := hend ⟨1, 0, v.stored⟩ rfl
  unfold Value.readStored
  rw [String.toList_ofList, hrun]

/-- The stored text of a value is read back. -/
theorem Value.readStored_stored {v : Value} (h : v.Exact) (hd : v.nesting ≤ 127) :
    Value.readStored (String.ofList v.stored) = .ok v.readBack :=
  readStored_eq (Stored.reads_value v 127 Stored.bareAlone h hd)

namespace FieldType

theorem readCell_null {t : FieldType} {v : Value} (h : v.isNull) :
    t.readCell (t.cell v) = .ok v.readBack := by
  cases v with
  | null => cases t <;> rfl
  | _ => cases h

/-- A field of an exact value is read back, if lists and maps are not nested too deep. -/
theorem readCell_cell {t : FieldType} {v : Value} (h : t.Holds v) (hexact : v.Exact)
    (hdepth : t.isContainer → v.nesting ≤ 127) : t.readCell (t.cell v) = .ok v.readBack := by
  by_cases hnull : v.isNull
  · exact readCell_null hnull
  by_cases hcontainer : t.isContainer
  · have hcell : t.cell v = .text (String.ofList v.stored) := by
      unfold cell column
      rw [if_neg hnull, if_pos hcontainer]
      rfl
    have hread := Value.readStored_stored hexact (hdepth hcontainer)
    rw [hcell]
    cases t <;> cases hcontainer
    all_goals
      unfold readCell
      dsimp only
      rw [hread]
  · have htype : v.type? = some t := (h.resolve_left hnull).resolve_left hcontainer
    unfold cell column
    rw [if_neg hnull, if_neg hcontainer]
    cases v with
    | null => exact absurd rfl hnull
    | float => exact hexact.elim
    | double => exact hexact.elim
    | list => cases htype; exact absurd rfl hcontainer
    | map => cases htype; exact absurd rfl hcontainer
    | text s => cases htype; rfl
    | long n => cases htype; rfl
    | bool b => cases htype; cases b <;> rfl
    | int n =>
      cases htype
      unfold readCell Value.cell
      dsimp only
      rw [Int32.toInt_toInt64, int32?_toInt]
      rfl
    | time t =>
      cases htype
      unfold readCell Value.cell
      dsimp only
      rw [String.toList_ofList, t.readColumn_chars]
      rfl
    | date d =>
      cases htype
      unfold readCell Value.cell
      dsimp only
      rw [String.toList_ofList, d.read_chars]
      rfl
    | dateTime t =>
      cases htype
      unfold readCell Value.cell
      dsimp only
      rw [String.toList_ofList, t.readColumn_chars]
      rfl

end FieldType

end EntityStore
