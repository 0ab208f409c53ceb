import EntityStore.Proofs.Calendar.Written
import Mathlib.Order.Compare

/-!
Written dates and times compare by their characters as they follow each other in time. Fractions of
three, six and nine digits do, and so does a leap second; a year does only beside years that are
written alike, since one of more than four digits begins with a sign.
-/

set_option autoImplicit false

namespace EntityStore

/-! ### Texts -/

theorem toNat_of_isDigit {c : Char} (h : c.isDigit) : 48 ≤ c.toNat ∧ c.toNat ≤ 57 := by
  simpa [Char.isDigit, UInt32.le_iff_toNat_le] using h

theorem compare_char_eq_lt {c d : Char} : compare c d = .lt ↔ c.toNat < d.toNat :=
  compareOfLessAndEq_eq_lt

theorem compare_chars_eq_lt {xs ys : List Char} : compare xs ys = .lt ↔ xs < ys := by
  have hchar {c d : Char} : compare c d = .lt ↔ c < d := compare_char_eq_lt
  induction xs generalizing ys with
  | nil => cases ys <;> simp
  | cons x xs ih =>
    cases ys with
    | nil => simp
    | cons y ys =>
      simp only [List.compare_cons_cons, List.cons_lt_cons_iff, Ordering.then_eq_lt, hchar, ih,
        Std.compare_eq_iff_eq]

/-- Texts are ordered as their characters. -/
theorem compare_ofList (xs ys : List Char) : compare (String.ofList xs)
    (String.ofList ys) = compare xs ys := by
  have hlt {xs ys : List Char} (h : compare xs ys = .lt) :
      compare (String.ofList xs) (String.ofList ys) = .lt := by
    refine compareOfLessAndEq_eq_lt.mpr (String.lt_iff.mpr ?_)
    rw [String.toList_ofList, String.toList_ofList]
    exact compare_chars_eq_lt.mp h
  cases h : compare xs ys with
  | lt => exact hlt h
  | eq => rw [Std.compare_eq_iff_eq.mp h, Std.compare_self]
  | gt => exact Std.OrientedCmp.gt_of_lt (hlt (Std.OrientedCmp.lt_of_gt h))

/-- Of texts that begin with as many characters these are compared first. -/
theorem compare_append {xs ys : List Char} (h : xs.length = ys.length) (us vs : List Char) :
    compare (xs ++ us) (ys ++ vs) = (compare xs ys).then (compare us vs) := by
  induction xs generalizing ys with
  | nil =>
    obtain rfl := List.eq_nil_of_length_eq_zero h.symm
    rfl
  | cons x xs ih =>
    cases ys with
    | nil => cases h
    | cons y ys =>
      simp only [List.cons_append, List.compare_cons_cons, ih (Nat.succ.inj h), Ordering.then_assoc]

theorem compare_cons_self (c : Char) (us vs : List Char) :
    compare (c :: us) (c :: vs) = compare us vs := by
  rw [List.compare_cons_cons, Std.compare_self, Ordering.then]

/-! ### Numbers -/

/-- A number is compared by its leading part first. -/
theorem compare_mul_add {k c d : Nat} (hc : c < k) (hd : d < k) (a b : Nat) :
    compare (k * a + c) (k * b + d) = (compare a b).then (compare c d) := by
  cases h : compare a b with
  | lt =>
    have hmul : k * (a + 1) ≤ k * b := Nat.mul_le_mul_left k (Nat.compare_eq_lt.mp h)
    rw [Nat.mul_succ] at hmul
    exact Nat.compare_eq_lt.mpr (by omega)
  | eq =>
    obtain rfl := Nat.compare_eq_eq.mp h
    change compare _ _ = compare c d
    grind [Nat.compare_eq_ite_lt]
  | gt =>
    have hmul : k * (b + 1) ≤ k * a := Nat.mul_le_mul_left k (Nat.compare_eq_gt.mp h)
    rw [Nat.mul_succ] at hmul
    exact Nat.compare_eq_gt.mpr (by omega)

theorem compare_mul {k : Nat} (hk : 0 < k) (a b : Nat) : compare (a * k) (b * k) = compare a b := by
  have h := compare_mul_add hk hk a b
  simpa [Nat.mul_comm k] using h

/-- A digit is ordered as its value. -/
theorem compare_digit {c d : Char} (hc : c.isDigit) (hd : d.isDigit) :
    compare (c.toNat - '0'.toNat) (d.toNat - '0'.toNat) = compare c d := by
  have hzero : '0'.toNat = 48 := rfl
  have hc := toNat_of_isDigit hc
  have hd := toNat_of_isDigit hd
  cases h : compare c d with
  | lt =>
    have hless := compare_char_eq_lt.mp h
    exact Nat.compare_eq_lt.mpr (by omega)
  | eq =>
    obtain rfl := Std.compare_eq_iff_eq.mp h
    exact Std.compare_self
  | gt =>
    have hless := compare_char_eq_lt.mp (Std.OrientedCmp.lt_of_gt h)
    exact Nat.compare_eq_gt.mpr (by omega)

theorem digit_lt_ten {c : Char} (hc : c.isDigit) : c.toNat - '0'.toNat < 10 := by
  have hzero : '0'.toNat = 48 := rfl
  have hbounds := toNat_of_isDigit hc
  omega

/-- Digits are ordered as the numbers that they continue. -/
theorem compare_ofDigitChars {xs ys : List Char} (hx : ∀ c ∈ xs, c.isDigit)
    (hy : ∀ c ∈ ys, c.isDigit) (h : xs.length = ys.length) (a b : Nat) :
    compare (Nat.ofDigitChars 10 xs a) (Nat.ofDigitChars 10 ys b) = (compare a b).then
      (compare xs ys) := by
  induction xs generalizing ys a b with
  | nil =>
    obtain rfl := List.eq_nil_of_length_eq_zero h.symm
    simp
  | cons x xs ih =>
    cases ys with
    | nil => cases h
    | cons y ys =>
      obtain ⟨hx, hxs⟩ := List.forall_mem_cons.mp hx
      obtain ⟨hy, hys⟩ := List.forall_mem_cons.mp hy
      rw [Nat.ofDigitChars_cons, Nat.ofDigitChars_cons, ih hxs hys (Nat.succ.inj h),
        compare_mul_add (digit_lt_ten hx) (digit_lt_ten hy), compare_digit hx hy,
        List.compare_cons_cons, Ordering.then_assoc]

theorem compare_digitsValue {xs ys : List Char} (hx : ∀ c ∈ xs, c.isDigit)
    (hy : ∀ c ∈ ys, c.isDigit) (h : xs.length = ys.length) :
    compare (digitsValue xs) (digitsValue ys) = compare xs ys :=
  compare_ofDigitChars hx hy h 0 0

/-- Digits that end before others are ordered as if zeros followed them, unless all that is left of
the others are zeros. -/
theorem compare_digits_append {xs ys zs : List Char} (hx : ∀ c ∈ xs, c.isDigit)
    (hy : ∀ c ∈ ys ++ zs, c.isDigit) (h : xs.length = ys.length) (hrest : digitsValue zs ≠ 0) :
    compare xs (ys ++ zs) = compare (digitsValue xs * 10 ^ zs.length) (digitsValue (ys ++ zs)) := by
  have hzeros : compare (List.replicate zs.length '0') zs = .lt := by
    rw [← compare_digitsValue (by simp +decide [List.mem_replicate])
      (fun c hc ↦ hy c (List.mem_append_right _ hc)) List.length_replicate]
    have hzero : digitsValue (List.replicate zs.length '0') = 0 := by simp [digitsValue]
    exact Nat.compare_eq_lt.mpr (by omega)
  have hnil : compare [] zs = .lt := by
    cases zs with
    | nil => exact absurd rfl hrest
    | cons z zs => exact List.compare_nil_cons
  have hpadded : digitsValue (xs ++ List.replicate zs.length '0') =
      digitsValue xs * 10 ^ zs.length := by
    rw [digitsValue, Nat.ofDigitChars_append, Nat.ofDigitChars_replicate_zero, Nat.mul_comm]
    rfl
  have hdigits : ∀ c ∈ xs ++ List.replicate zs.length '0', c.isDigit :=
    List.forall_mem_append.mpr ⟨hx, by simp +decide [List.mem_replicate]⟩
  calc compare xs (ys ++ zs)
    _ = compare (xs ++ []) (ys ++ zs) := by rw [List.append_nil]
    _ = (compare xs ys).then .lt := by rw [compare_append h, hnil]
    _ = compare (xs ++ List.replicate zs.length '0') (ys ++ zs) := by rw [compare_append h, hzeros]
    _ = compare (digitsValue xs * 10 ^ zs.length) (digitsValue (ys ++ zs)) := by
      rw [← hpadded, compare_digitsValue hdigits hy (by simp [h])]

variable {w v m n : Nat}

/-- Numbers padded to one width are ordered as they are. -/
theorem compare_paddedDigits (hw : 0 < w) (hm : m < 10 ^ w) (hn : n < 10 ^ w) :
    compare (paddedDigits w m) (paddedDigits w n) = compare m n := by
  rw [← compare_digitsValue (fun _ ↦ isDigit_of_mem_paddedDigits)
    (fun _ ↦ isDigit_of_mem_paddedDigits)
      (by rw [length_paddedDigits hw hm, length_paddedDigits hw hn]), digitsValue_paddedDigits,
      digitsValue_paddedDigits]

theorem compare_part (hm : m < 100) (hn : n < 100) (us vs : List Char) :
    compare (paddedDigits 2 m ++ us) (paddedDigits 2 n ++ vs) = (compare m n).then
      (compare us vs) := by
  rw [compare_append, compare_paddedDigits (by decide) hm hn]
  rw [length_paddedDigits (by decide) hm, length_paddedDigits (by decide) hn]

/-- A number of fewer digits is ordered as if zeros followed it, unless the other one ends in these
zeros. -/
theorem compare_paddedDigits_add (hw : 0 < w) (hm : m < 10 ^ w) (hn : n < 10 ^ (w + v))
    (hrest : n % 10 ^ v ≠ 0) :
    compare (paddedDigits w m) (paddedDigits (w + v) n) = compare (m * 10 ^ v) n := by
  have hlength : (paddedDigits (w + v) n).length = w + v :=
    length_paddedDigits (Nat.add_pos_left hw v) hn
  have hvalue : digitsValue (paddedDigits (w + v) n) = n := digitsValue_paddedDigits _ n
  have hdigits : ∀ c ∈ paddedDigits (w + v) n, c.isDigit := fun _ ↦ isDigit_of_mem_paddedDigits
  obtain ⟨ys, zs, heq, hys⟩ : ∃ ys zs, paddedDigits (w + v) n = ys ++ zs ∧ ys.length = w :=
    ⟨_, _, (List.take_append_drop w _).symm, by rw [List.length_take]; omega⟩
  rw [heq] at hlength hvalue hdigits ⊢
  have hzs : zs.length = v := by
    rw [List.length_append] at hlength
    omega
  have hne : digitsValue zs ≠ 0 := by
    intro hzero
    rw [digitsValue, Nat.ofDigitChars_append, Nat.ofDigitChars_eq_ofDigitChars_zero, hzs] at hvalue
    rw [digitsValue] at hzero
    rw [hzero, Nat.add_zero] at hvalue
    exact hrest (hvalue ▸ Nat.mul_mod_right _ _)
  rw [compare_digits_append (fun _ ↦ isDigit_of_mem_paddedDigits) hdigits
    ((length_paddedDigits hw hm).trans hys.symm) hne, hvalue, hzs, digitsValue_paddedDigits]

/-! ### Times -/

namespace TimeOfDay

/-- Which of two times of a day is the earlier one. A leap second comes after the second that it
follows. -/
def order (t u : TimeOfDay) : Ordering :=
  (compare t.hour u.hour).then <| (compare t.minute u.minute).then <|
    (compare t.second u.second).then <| compare t.nano u.nano

/-- A fraction is none or stands in thousandths of some power, the last of which are not zeros. -/
theorem fractionText_cases (hn : n ≤ 999999999) : n = 0 ∧ fractionText n = [] ∨
    ∃ k m, 0 < k ∧ k ≤ 3 ∧ m < 10 ^ (3 * k) ∧ m % 1000 ≠ 0 ∧ n = m * 10 ^ (9 - 3 * k) ∧
      fractionText n = '.' :: paddedDigits (3 * k) m := by
  unfold fractionText
  split
  · next hzero => exact .inl ⟨hzero, rfl⟩
  split
  · next hmilli =>
      exact .inr ⟨1, n / 1000000, by decide, by decide, by omega, by omega, by omega, rfl⟩
  split
  · next hmicro => exact .inr ⟨2, n / 1000, by decide, by decide, by omega, by omega, by omega, rfl⟩
  · next hnano => exact .inr ⟨3, n, by decide, by decide, by omega, hnano, by omega, rfl⟩

/-- A fraction of fewer digits stands before one of more digits that begins with it, which is
greater. -/
theorem compare_fraction {j k : Nat} (hjk : j < k) (hj : 0 < j) (hk : k ≤ 3) (hm : m < 10 ^ (3 * j))
    (hn : n < 10 ^ (3 * k)) (hrest : n % 1000 ≠ 0) :
    compare (paddedDigits (3 * j) m) (paddedDigits (3 * k) n) =
      compare (m * 10 ^ (9 - 3 * j)) (n * 10 ^ (9 - 3 * k)) := by
  -- the longer fraction goes on for `v + 1` groups of three digits
  obtain ⟨v, rfl⟩ : ∃ v, k = j + (v + 1) := ⟨k - j - 1, by omega⟩
  have hsplit : 3 * (j + (v + 1)) = 3 * j + (3 * v + 3) := by omega
  have hpow : 10 ^ (9 - 3 * j) = 10 ^ (3 * v + 3) * 10 ^ (9 - 3 * (j + (v + 1))) := by
    rw [← Nat.pow_add]
    congr 1
    omega
  have hrest : n % 10 ^ (3 * v + 3) ≠ 0 := fun hzero ↦
    hrest (Nat.mod_eq_zero_of_dvd (Nat.dvd_trans ⟨10 ^ (3 * v), by rw [Nat.pow_add, Nat.mul_comm]⟩
      (Nat.dvd_of_mod_eq_zero hzero)))
  rw [hpow, ← Nat.mul_assoc, compare_mul (Nat.pow_pos (by decide)), hsplit]
  exact compare_paddedDigits_add (by omega) hm (hsplit ▸ hn) hrest

theorem compare_fractionText (hm : m ≤ 999999999) (hn : n ≤ 999999999) :
    compare (fractionText m) (fractionText n) = compare m n := by
  have hpos {k m : Nat} (hrest : m % 1000 ≠ 0) : 0 < m * 10 ^ (9 - 3 * k) :=
    Nat.mul_pos (by omega) (Nat.pow_pos (by decide))
  obtain ⟨rfl, hleft⟩ | ⟨j, a, hj, hj', ha, harest, rfl, hleft⟩ := fractionText_cases hm
  · rw [hleft]
    obtain ⟨rfl, hright⟩ | ⟨k, b, -, -, -, hbrest, rfl, hright⟩ := fractionText_cases hn
    · rw [hright]
      rfl
    · rw [hright, List.compare_nil_cons, Nat.compare_eq_lt.mpr (hpos hbrest)]
  · rw [hleft]
    obtain ⟨rfl, hright⟩ | ⟨k, b, hk, hk', hb, hbrest, rfl, hright⟩ := fractionText_cases hn
    · rw [hright, List.compare_cons_nil, Nat.compare_eq_gt.mpr (hpos harest)]
    · rw [hright, compare_cons_self]
      rcases Nat.lt_trichotomy j k with hjk | rfl | hjk
      · exact compare_fraction hjk hj hk' ha hb hbrest
      · rw [compare_mul (Nat.pow_pos (by decide))]
        exact compare_paddedDigits (by omega) ha hb
      · rw [Std.OrientedOrd.eq_swap, compare_fraction hjk hk hj' hb ha harest]
        exact Std.OrientedCmp.eq_swap.symm

theorem part_lt (t : TimeOfDay) : t.hour < 100 ∧ t.minute < 100 ∧ t.writtenSecond < 100 := by
  have hvalid := t.valid
  simp only [Calendar.isClock, Bool.and_eq_true, decide_eq_true_eq] at hvalid
  have hsecond := t.writtenSecond_le
  omega

/-- The written second and fraction of regular times follow each other as the times do. -/
theorem compare_written {t u : TimeOfDay} (ht : t.Regular) (hu : u.Regular) :
    (compare t.writtenSecond u.writtenSecond).then (compare t.writtenNano u.writtenNano) =
      (compare t.second u.second).then (compare t.nano u.nano) := by
  have := t.second_le
  have := t.nano_le
  have := u.second_le
  have := u.nano_le
  unfold Regular at ht hu
  unfold writtenSecond writtenNano
  simp only [Nat.compare_eq_ite_lt]
  split_ifs <;> first | rfl | omega

/-- Regular times are written in their order: fractions of all lengths and leap seconds among
them. -/
theorem compare_chars_regular {t u : TimeOfDay} (ht : t.Regular) (hu : u.Regular) :
    compare t.chars u.chars = t.order u := by
  obtain ⟨hhour, hminute, hsecond⟩ := t.part_lt
  obtain ⟨hhour', hminute', hsecond'⟩ := u.part_lt
  simp only [chars, order, List.append_assoc, List.cons_append]
  rw [compare_part hhour hhour', compare_cons_self,
    compare_part hminute hminute', compare_cons_self,
    compare_part hsecond hsecond', compare_fractionText t.writtenNano_le u.writtenNano_le,
    compare_written ht hu]

/-- All times are written in the order of the times that are read back. -/
theorem compare_chars (t u : TimeOfDay) :
    compare t.chars u.chars = t.readBack.order u.readBack := by
  rw [← t.chars_readBack, ← u.chars_readBack,
    compare_chars_regular t.regular_readBack u.regular_readBack]

end TimeOfDay

/-! ### Dates -/

/-- Years that are written in their order: they are the same, or neither has more than four digits
and at most one stands before the year zero. -/
def Calendar.Aligned (y z : Int) : Prop :=
  y = z ∨ y ≤ 9999 ∧ z ≤ 9999 ∧ (0 ≤ y ∨ 0 ≤ z)

instance (y z : Int) : Decidable (Calendar.Aligned y z) :=
  inferInstanceAs (Decidable (_ ∨ _))

namespace Date

/-- Which of two dates is the earlier one. -/
def order (d e : Date) : Ordering :=
  (compare d.year e.year).then <| (compare d.month e.month).then <| compare d.day e.day

theorem yearText_of_le {y : Int} (hlow : 0 ≤ y) (hhigh : y ≤ 9999) :
    yearText y = paddedDigits 4 y.toNat ∧ y.toNat < 10 ^ 4 :=
  ⟨if_pos ⟨hlow, hhigh⟩, by omega⟩

/-- A year with a sign is written before all years without one. -/
theorem compare_sign {s : Char} (hs : s.toNat < 48) {cs us vs : List Char} :
    compare (s :: cs ++ us) (paddedDigits 4 n ++ vs) = .lt := by
  obtain ⟨c, ds, hdigits⟩ := List.exists_cons_of_ne_nil (paddedDigits_ne_nil 4 n)
  have hmem : c ∈ paddedDigits 4 n := by simp [hdigits]
  have hc : c.isDigit := isDigit_of_mem_paddedDigits hmem
  rw [hdigits, List.cons_append, List.cons_append, List.compare_cons_cons,
    compare_char_eq_lt.mpr (Nat.lt_of_lt_of_le hs (toNat_of_isDigit hc).1)]
  rfl

theorem compare_before {y z : Int} (hy : y < 0) (hz : 0 ≤ z) (hz' : z ≤ 9999) (us vs : List Char) :
    compare (yearText y ++ us) (yearText z ++ vs) = .lt := by
  rw [(yearText_of_le hz hz').1, yearText, if_neg (by omega), if_pos hy]
  exact compare_sign (by decide)

theorem compare_yearText {y z : Int} (h : Calendar.Aligned y z) (us vs : List Char) :
    compare (yearText y ++ us) (yearText z ++ vs) = (compare y z).then (compare us vs) := by
  obtain rfl | ⟨hy, hz, hsign⟩ := h
  · rw [compare_append rfl, Std.compare_self, Std.compare_self]
  by_cases hbefore : y < 0
  · rw [compare_before hbefore (by omega) hz, Int.compare_eq_lt.mpr (by omega)]
    rfl
  by_cases hafter : z < 0
  · rw [Std.OrientedOrd.eq_swap, compare_before hafter (by omega) hy,
      Int.compare_eq_gt.mpr (by omega)]
    rfl
  obtain ⟨hleft, hless⟩ := yearText_of_le (Int.not_lt.mp hbefore) hy
  obtain ⟨hright, hless'⟩ := yearText_of_le (Int.not_lt.mp hafter) hz
  rw [hleft, hright, compare_append, compare_paddedDigits (by decide) hless hless']
  · congr 1
    grind [Nat.compare_eq_ite_lt, Int.compare_eq_ite_lt]
  · rw [length_paddedDigits (by decide) hless, length_paddedDigits (by decide) hless']

theorem part_lt (d : Date) : d.month < 100 ∧ d.day < 100 := by
  have hvalid := d.valid
  simp only [Calendar.isDay, Bool.and_eq_true, decide_eq_true_eq] at hvalid
  have hlength := Calendar.monthLength_le d.year d.month
  omega

/-- Dates whose years are written in their order are written in their order. -/
theorem compare_chars_append {d e : Date} (h : Calendar.Aligned d.year e.year) (us vs : List Char) :
    compare (d.chars ++ us) (e.chars ++ vs) = (d.order e).then (compare us vs) := by
  have hd := d.part_lt
  have he := e.part_lt
  simp only [chars, order, List.append_assoc, List.cons_append, Ordering.then_assoc]
  rw [compare_yearText h, compare_cons_self, compare_part hd.1 he.1, compare_cons_self,
    compare_part hd.2 he.2]

theorem compare_chars {d e : Date} (h : Calendar.Aligned d.year e.year) :
    compare d.chars e.chars = d.order e := by
  simpa using compare_chars_append h [] []

end Date

namespace DateTime

/-- Which of two moments is the earlier one. -/
def order (t u : DateTime) : Ordering :=
  (t.date.order u.date).then (t.time.order u.time)

theorem compare_chars {t u : DateTime} (h : Calendar.Aligned t.date.year u.date.year)
    (mark : Char) : compare (t.chars mark) (u.chars mark) = t.readBack.order u.readBack := by
  rw [chars, chars, Date.compare_chars_append h, compare_cons_self, TimeOfDay.compare_chars,
    order, readBack, readBack]

end DateTime

end EntityStore
