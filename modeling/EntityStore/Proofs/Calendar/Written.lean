import EntityStore.Calendar.Reader
import EntityStore.Proofs.Outcome
import Mathlib.Algebra.Group.Nat.Defs

/-!
Written dates and times are read back by the readers of columns and by those of stored containers:
dates as they were, times as the text names them. A leap second that is not the last second of a
minute is written as the second after it, and read as that one (`TimeOfDay.readBack`).
-/

set_option autoImplicit false

namespace EntityStore

/-! ### Leap seconds -/

namespace TimeOfDay

theorem second_le (t : TimeOfDay) : t.second ≤ 59 := by
  have hvalid := t.valid
  simp only [Calendar.isClock, Bool.and_eq_true, decide_eq_true_eq] at hvalid
  exact hvalid.1.2

theorem nano_le (t : TimeOfDay) : t.nano ≤ 1999999999 := by
  have hvalid := t.valid
  simp only [Calendar.isClock, Bool.and_eq_true, decide_eq_true_eq] at hvalid
  exact hvalid.2

theorem writtenSecond_le (t : TimeOfDay) : t.writtenSecond ≤ 60 := by
  have := t.second_le
  have := t.nano_le
  unfold writtenSecond
  omega

theorem writtenNano_le (t : TimeOfDay) : t.writtenNano ≤ 999999999 :=
  Nat.le_of_lt_succ (Nat.mod_lt _ (by decide))

/-- A leap second comes at the end of a minute, if there is one. -/
def Regular (t : TimeOfDay) : Prop :=
  t.nano < 1000000000 ∨ t.second = 59

instance (t : TimeOfDay) : Decidable t.Regular :=
  inferInstanceAs (Decidable (_ ∨ _))

theorem isClock_next {t : TimeOfDay} (h : ¬t.Regular) :
    Calendar.isClock t.hour t.minute (t.second + 1) (t.nano - 1000000000) = true := by
  have hvalid := t.valid
  obtain ⟨hleap, hearly⟩ := not_or.mp h
  simp only [Calendar.isClock, Bool.and_eq_true, decide_eq_true_eq] at hvalid ⊢
  omega

/-- The time that is read back from the text of a time. -/
def readBack (t : TimeOfDay) : TimeOfDay :=
  if h : t.Regular then t else ⟨t.hour, t.minute, t.second + 1, t.nano - 1000000000, isClock_next h⟩

theorem readBack_eq_iff {t : TimeOfDay} : t.readBack = t ↔ t.Regular := by
  constructor
  · intro h
    by_contra hleap
    rw [readBack, dif_neg hleap] at h
    exact Nat.succ_ne_self t.second (congrArg second h)
  · exact fun h ↦ dif_pos h

theorem regular_readBack (t : TimeOfDay) : t.readBack.Regular := by
  have hnano := t.nano_le
  unfold readBack
  split
  · assumption
  · exact .inl (by dsimp only; omega)

/-- What is read back is written as the time was. -/
theorem chars_readBack (t : TimeOfDay) : t.readBack.chars = t.chars := by
  have hsecond := t.second_le
  have hnano := t.nano_le
  unfold readBack
  split
  · rfl
  · next hleap =>
    obtain ⟨hlong, hearly⟩ := not_or.mp hleap
    have hwritten : t.second + 1 + (t.nano - 1000000000) / 1000000000 =
        t.second + t.nano / 1000000000 := by omega
    have hfraction : (t.nano - 1000000000) % 1000000000 = t.nano % 1000000000 := by omega
    simp only [chars, writtenSecond, writtenNano, hwritten, hfraction]

theorem readBack_hour (t : TimeOfDay) : t.readBack.hour = t.hour := by
  unfold readBack
  split <;> rfl

theorem readBack_minute (t : TimeOfDay) : t.readBack.minute = t.minute := by
  unfold readBack
  split <;> rfl

end TimeOfDay

/-- The date and the time that are read back from the text of both. -/
def DateTime.readBack (t : DateTime) : DateTime :=
  ⟨t.date, t.time.readBack⟩

theorem DateTime.readBack_eq_iff {t : DateTime} : t.readBack = t ↔ t.time.Regular := by
  rw [← TimeOfDay.readBack_eq_iff]
  constructor
  · exact congrArg DateTime.time
  · intro h
    rw [readBack, h]

/-! ### Digits -/

theorem length_natDigits_pos (n : Nat) : 0 < (natDigits n).length :=
  Nat.length_toDigits_pos

theorem length_paddedDigits {width n : Nat} (hwidth : 0 < width) (h : n < 10 ^ width) :
    (paddedDigits width n).length = width := by
  have hlength : (natDigits n).length ≤ width :=
    (Nat.length_toDigits_le_iff (by decide) hwidth).mpr h
  simp only [paddedDigits, List.length_append, List.length_replicate]
  omega

theorem isDigit_of_mem_paddedDigits {c : Char} {width n : Nat} (h : c ∈ paddedDigits width n) :
    c.isDigit := by
  rcases List.mem_append.mp h with h | h
  · rw [(List.mem_replicate.mp h).2]
    rfl
  · exact isDigit_of_mem_natDigits h

theorem paddedDigits_ne_nil (width n : Nat) : paddedDigits width n ≠ [] := by
  intro h
  have hlength := congrArg List.length h
  have hpos := length_natDigits_pos n
  simp only [paddedDigits, List.length_append, List.length_nil] at hlength
  omega

/-- A digit is no blank. -/
theorem isBlank_of_isDigit {c : Char} (h : c.isDigit) : isBlank c = false := by
  have hbounds : 48 ≤ c.toNat ∧ c.toNat ≤ 57 := by
    simpa [Char.isDigit, UInt32.le_iff_toNat_le] using h
  simp only [isBlank, blankRanges, List.any_cons, List.any_nil, Bool.or_false, Bool.or_eq_false_iff,
    Bool.and_eq_false_iff, decide_eq_false_iff_not]
  omega

theorem skipBlanks_cons {c : Char} (h : isBlank c = false) (cs : List Char) :
    skipBlanks (c :: cs) = c :: cs := by
  simp [skipBlanks, h]

theorem skipBlanks_paddedDigits (width n : Nat) (rest : List Char) :
    skipBlanks (paddedDigits width n ++ rest) = paddedDigits width n ++ rest := by
  cases hdigits : paddedDigits width n with
  | nil => exact absurd hdigits (paddedDigits_ne_nil width n)
  | cons c cs =>
    have hc : c ∈ paddedDigits width n := by simp [hdigits]
    exact skipBlanks_cons (isBlank_of_isDigit (isDigit_of_mem_paddedDigits hc)) _

namespace Calendar

variable {m w n low high : Nat} {u : List Char} {r : Reading}

/-- A number is read where its digits end: at the greatest width, or before something else. -/
theorem readNumber_paddedDigits (hle : (paddedDigits w n).length ≤ m)
    (hend : (paddedDigits w n).length = m ∨ ∀ c ∈ u.head?, ¬c.isDigit) (hn : n < 10 ^ 9) :
    readNumber m (paddedDigits w n ++ u) = .ok (n, u) := by
  have hall : (paddedDigits w n).all Char.isDigit :=
    List.all_eq_true.mpr fun c hc ↦ isDigit_of_mem_paddedDigits hc
  have hnext : ((u.take (m - (paddedDigits w n).length)).takeWhile Char.isDigit) = [] := by
    rcases hend with hend | hend
    · simp [hend]
    · cases u with
      | nil => simp
      | cons c cs =>
        have hc : ¬c.isDigit := hend c rfl
        cases m - (paddedDigits w n).length <;> simp [hc]
  have hdigits : (((paddedDigits w n ++ u).take m).takeWhile Char.isDigit) = paddedDigits w n := by
    rw [List.take_append, List.take_of_length_le hle, List.takeWhile_append_of_pos fun c hc ↦
      List.all_eq_true.mp hall c hc, hnext, List.append_nil]
  have hempty : (paddedDigits w n ++ u).isEmpty = false := by
    simp [paddedDigits_ne_nil]
  have hmax : ¬Int64.maxValue.toInt < (n : Int) := by
    have : Int64.maxValue.toInt = 9223372036854775807 := rfl
    omega
  unfold readNumber
  simp only [hdigits, hempty, digitsValue_paddedDigits, List.drop_left, List.isEmpty_iff,
    paddedDigits_ne_nil, hmax, Bool.false_eq_true, if_false]

theorem readPart_paddedDigits (hlow : low ≤ n) (hhigh : n ≤ high) (h : high < 100) :
    readPart low high (paddedDigits 2 n ++ u) = .ok (n, u) := by
  have hlength : (paddedDigits 2 n).length = 2 := length_paddedDigits (by decide) (by omega)
  unfold readPart
  rw [skipBlanks_paddedDigits, readNumber_paddedDigits (Nat.le_of_eq hlength)
    (.inl hlength) (by omega)]
  exact if_pos ⟨hlow, hhigh⟩

/-- A year ends at the mark before its month. -/
theorem readYear_yearText {year : Int} (hlow : -262143 ≤ year) (hhigh : year ≤ 262142) :
    readYear (Date.yearText year ++ '-' :: u) = .ok (year, '-' :: u) := by
  have hword (n : Int) (hn : n = year) : (if (int32? n).isSome then Except.ok (n, '-' :: u)
      else .error CalendarError.outOfRange) = .ok (year, '-' :: u) := by
    have hmin : Int32.minValue.toInt = -2147483648 := rfl
    have hmax : Int32.maxValue.toInt = 2147483647 := rfl
    subst hn
    have hbounds : Int32.minValue.toInt ≤ n ∧ n ≤ Int32.maxValue.toInt :=
      ⟨by rw [hmin]; omega, by rw [hmax]; omega⟩
    rw [int32?, if_pos hbounds]
    rfl
  have hmark : ∀ c ∈ ('-' :: u).head?, ¬c.isDigit := by
    rintro c ⟨⟩
    decide
  by_cases hplain : 0 ≤ year ∧ year ≤ 9999
  · have hlength : (paddedDigits 4 year.toNat).length = 4 :=
      length_paddedDigits (by decide) (by omega)
    have hread :=
      readNumber_paddedDigits (u := '-' :: u) (Nat.le_of_eq hlength) (.inl hlength) (by omega)
    have hsign : ∀ c cs, paddedDigits 4 year.toNat ++ '-' :: u = c :: cs → c.isDigit := by
      intro c cs heq
      cases hdigits : paddedDigits 4 year.toNat with
      | nil => exact absurd hdigits (paddedDigits_ne_nil 4 _)
      | cons d ds =>
        rw [hdigits] at heq
        obtain ⟨rfl, -⟩ := List.cons.inj heq
        exact isDigit_of_mem_paddedDigits (by rw [hdigits]; exact List.mem_cons_self)
    rw [Date.yearText, if_pos hplain]
    unfold readYear
    rw [skipBlanks_paddedDigits]
    split
    · next heq => exact absurd (hsign _ _ heq) (by decide)
    · next heq => exact absurd (hsign _ _ heq) (by decide)
    · rw [hread]
      exact hword year.toNat (Int.toNat_of_nonneg hplain.1)
  · have hlength : (paddedDigits 4 year.natAbs).length ≤ (paddedDigits 4 year.natAbs ++
        '-' :: u).length := by
      simp
    have hread := readNumber_paddedDigits hlength (.inr hmark) (n := year.natAbs) (by omega)
    rw [Date.yearText, if_neg hplain]
    unfold readYear
    by_cases hnegative : year < 0
    · rw [if_pos hnegative, List.cons_append, skipBlanks_cons (by decide)]
      change ((readNumber _ _).map _ >>= _) = _
      rw [hread]
      exact hword (-(year.natAbs : Int)) (by omega)
    · rw [if_neg hnegative, List.cons_append, skipBlanks_cons (by decide)]
      change ((readNumber _ _).map _ >>= _) = _
      rw [hread]
      exact hword year.natAbs (by omega)

/-- A fraction ends the text. -/
theorem readFraction_paddedDigits (hwidth : 0 < w) (hle : w ≤ 9) (hn : n < 10 ^ w) :
    readFraction (paddedDigits w n) = .ok (n * 10 ^ (9 - w), []) := by
  have hlength := length_paddedDigits hwidth hn
  have hpow : 10 ^ w ≤ 10 ^ 9 := Nat.pow_le_pow_right (by decide) hle
  have hread := readNumber_paddedDigits (m := 9) (u := []) (w := w) (n := n) (by omega)
    (.inr (by rintro c ⟨⟩)) (by omega)
  rw [List.append_nil] at hread
  unfold readFraction
  rw [hread]
  simp [Bind.bind, Except.bind, hlength]

theorem readItem_fraction (hn : n ≤ 999999999) (hr : r.nano = 0) :
    readItem r (TimeOfDay.fractionText n) .fraction = .ok ({ r with nano := n }, []) := by
  unfold TimeOfDay.fractionText
  split
  · next hzero =>
    rw [hzero, ← hr]
    rfl
  split
  · next hmilli =>
    simp only [readItem, readFraction_paddedDigits (w := 3) (by decide) (by decide) (n :=
      n / 1000000) (by omega)]
    have hvalue : n / 1000000 * 10 ^ (9 - 3) = n := by omega
    rw [hvalue]
    rfl
  split
  · next hmicro =>
    simp only [readItem, readFraction_paddedDigits (w := 6) (by decide) (by decide) (n :=
      n / 1000) (by omega)]
    have hvalue : n / 1000 * 10 ^ (9 - 6) = n := by omega
    rw [hvalue]
    rfl
  · simp only [readItem, readFraction_paddedDigits (w := 9) (by decide) (by decide)
      (n := n) (by omega)]
    simp [Except.map]

/-! ### Items -/

variable {i : Item} {is k : List Item} {q : Reading} {cs cs' : List Char}

theorem readItems_cons (h : readItem r cs i = .ok (q, cs')) :
    readItems (i :: is) r cs = readItems is q cs' := by
  unfold readItems
  rw [List.foldlM_cons]
  dsimp only
  rw [h]
  rfl

theorem readItem_mark (c : Char) : readItem r (c :: u) (.mark c) = .ok (r, u) := by
  simp [readItem]

theorem readItem_blanks (h : skipBlanks cs = cs) : readItem r cs .blanks = .ok (r, cs) := by
  simp [readItem, h]

theorem readItem_year {year : Int} (hlow : -262143 ≤ year) (hhigh : year ≤ 262142) :
    readItem r (Date.yearText year ++ '-' :: u) .year =
      .ok ({ r with year := year }, '-' :: u) := by
  unfold readItem
  rw [readYear_yearText hlow hhigh]
  rfl

/-- A part of two digits. -/
theorem readItem_part {f : Nat → Reading} (hlow : low ≤ n) (hhigh : n ≤ high) (hbound : high < 100)
    (hitem : ∀ cs, readItem r cs i = (readPart low high cs).map fun x ↦ (f x.1, x.2)) :
    readItem r (paddedDigits 2 n ++ u) i = .ok (f n, u) := by
  rw [hitem, readPart_paddedDigits hlow hhigh hbound]
  rfl

theorem readItem_month (hlow : 1 ≤ n) (hhigh : n ≤ 12) :
    readItem r (paddedDigits 2 n ++ u) .month = .ok ({ r with month := n }, u) :=
  readItem_part (f := fun n ↦ { r with month := n }) hlow hhigh (by decide) fun _ ↦ rfl

theorem readItem_day (hlow : 1 ≤ n) (hhigh : n ≤ 31) :
    readItem r (paddedDigits 2 n ++ u) .day = .ok ({ r with day := n }, u) :=
  readItem_part (f := fun n ↦ { r with day := n }) hlow hhigh (by decide) fun _ ↦ rfl

theorem readItem_hour (hhigh : n ≤ 23) :
    readItem r (paddedDigits 2 n ++ u) .hour = .ok ({ r with hour := n }, u) :=
  readItem_part (f := fun n ↦ { r with hour := n }) (Nat.zero_le n) hhigh (by decide) fun _ ↦ rfl

theorem readItem_minute (hhigh : n ≤ 59) :
    readItem r (paddedDigits 2 n ++ u) .minute = .ok ({ r with minute := n }, u) :=
  readItem_part (f := fun n ↦ { r with minute := n }) (Nat.zero_le n) hhigh (by decide) fun _ ↦ rfl

theorem readItem_second (hhigh : n ≤ 60) :
    readItem r (paddedDigits 2 n ++ u) .second = .ok ({ r with second := n }, u) :=
  readItem_part (f := fun n ↦ { r with second := n }) (Nat.zero_le n) hhigh (by decide) fun _ ↦ rfl

/-- Blanks that may stand before a mark, or none. -/
def MayBlank (blanks : List Item) : Prop :=
  blanks = [] ∨ blanks = [.blanks]

theorem MayBlank.readItems {blanks : List Item} (h : MayBlank blanks) {c : Char}
    (hc : isBlank c = false) :
    readItems (blanks ++ .mark c :: k) r (c :: cs) = Calendar.readItems k r cs := by
  rcases h with rfl | rfl
  · exact readItems_cons (readItem_mark c)
  · exact (readItems_cons (readItem_blanks (skipBlanks_cons hc cs))).trans
      (readItems_cons (readItem_mark c))

theorem monthLength_le (year : Int) (month : Nat) : monthLength year month ≤ 31 := by
  unfold monthLength
  split
  · split <;> omega
  · split <;> omega

/-- A reading with the parts of a date. -/
def Reading.on (r : Reading) (d : Date) : Reading :=
  { r with year := d.year, month := d.month, day := d.day }

/-- A reading with the first parts of a time. -/
def Reading.atMinute (r : Reading) (t : TimeOfDay) : Reading :=
  { r with hour := t.hour, minute := t.minute }

/-- A reading with the parts that the text of a time names. -/
def Reading.at (r : Reading) (t : TimeOfDay) : Reading :=
  { r with hour := t.hour, minute := t.minute, second := t.writtenSecond, nano := t.writtenNano }

theorem Reading.date_on (r : Reading) (d : Date) : (r.on d).date = .ok d := by
  have hday : Date.of? (r.on d).year (r.on d).month (r.on d).day = some d := dif_pos d.valid
  unfold Reading.date
  rw [hday]

theorem ofWritten_written (t : TimeOfDay) :
    ofWritten t.writtenSecond t.writtenNano = (t.readBack.second, t.readBack.nano) := by
  have hsecond := t.second_le
  have hnano := t.nano_le
  unfold ofWritten TimeOfDay.writtenSecond TimeOfDay.writtenNano
  by_cases hregular : t.Regular
  · rw [TimeOfDay.readBack_eq_iff.mpr hregular]
    -- second 60 is written for the leap second at the end of a minute only
    rcases hregular with hless | hlast <;> split <;> refine Prod.ext ?_ ?_ <;> dsimp only <;> omega
  · obtain ⟨hleap, hearly⟩ := not_or.mp hregular
    rw [TimeOfDay.readBack, dif_neg hregular, if_neg (by omega)]
    refine Prod.ext ?_ ?_ <;> dsimp only <;> omega

theorem Reading.time_at (r : Reading) (t : TimeOfDay) : (r.at t).time = .ok t.readBack := by
  have hclock : TimeOfDay.of? t.readBack.hour t.readBack.minute t.readBack.second t.readBack.nano =
      some t.readBack :=
    dif_pos t.readBack.valid
  have hwritten : ofWritten (r.at t).second (r.at t).nano = (t.readBack.second, t.readBack.nano) :=
    ofWritten_written t
  rw [t.readBack_hour, t.readBack_minute] at hclock
  unfold Reading.time
  rw [hwritten]
  simp only [Reading.at, hclock]

theorem readItems_date {blanks : List Item} (hblanks : MayBlank blanks) (d : Date) :
    readItems (.year :: (blanks ++ .mark '-' :: .month :: (blanks ++ .mark '-' :: .day :: k))) r
      (d.chars ++ u) = readItems k (r.on d) u := by
  have hvalid := d.valid
  simp only [isDay, Bool.and_eq_true, decide_eq_true_eq] at hvalid
  obtain ⟨⟨⟨⟨⟨hyear, hyeaq⟩, hmonth⟩, hmonth'⟩, hday⟩, hdays⟩ := hvalid
  have hday' : d.day ≤ 31 := Nat.le_trans hdays (monthLength_le d.year d.month)
  have hchars : d.chars ++ u =
      Date.yearText d.year ++
        '-' :: (paddedDigits 2 d.month ++ '-' :: (paddedDigits 2 d.day ++ u)) := by
    simp [Date.chars]
  have hmark : isBlank '-' = false := by decide
  rw [hchars, readItems_cons (readItem_year hyear hyeaq), hblanks.readItems hmark,
    readItems_cons (readItem_month hmonth hmonth'), hblanks.readItems hmark,
    readItems_cons (readItem_day hday hday')]
  rfl

/-- The seconds and the fraction of a time. -/
def secondsText (t : TimeOfDay) : List Char :=
  paddedDigits 2 t.writtenSecond ++ TimeOfDay.fractionText t.writtenNano

theorem readItems_minutes {blanks : List Item} (hblanks : MayBlank blanks) (t : TimeOfDay) :
    readItems (.hour :: (blanks ++ .mark ':' :: .minute :: k)) r t.chars =
      readItems k (r.atMinute t) (':' :: secondsText t) := by
  have hvalid := t.valid
  simp only [isClock, Bool.and_eq_true, decide_eq_true_eq] at hvalid
  obtain ⟨⟨⟨hhour, hminute⟩, -⟩, -⟩ := hvalid
  have hchars : t.chars = paddedDigits 2 t.hour ++
      ':' :: (paddedDigits 2 t.minute ++ ':' :: secondsText t) := by
    simp [TimeOfDay.chars, secondsText]
  rw [hchars, readItems_cons (readItem_hour hhour), hblanks.readItems (by decide),
    readItems_cons (readItem_minute hminute)]
  rfl

theorem readItems_seconds {blanks : List Item} (hblanks : MayBlank blanks) (t : TimeOfDay) :
    readItems (blanks ++ .mark ':' :: .second :: k) r (':' :: secondsText t) =
      readItems k { r with second := t.writtenSecond } (TimeOfDay.fractionText t.writtenNano) := by
  rw [hblanks.readItems (by decide), secondsText,
    readItems_cons (readItem_second t.writtenSecond_le)]

/-- A fraction and blanks at the end of a text. -/
theorem readItems_fraction {blanks : List Item} (hblanks : MayBlank blanks)
    (hn : n ≤ 999999999) (hr : r.nano = 0) :
    readItems (.fraction :: blanks) r (TimeOfDay.fractionText n) =
      .ok ({ r with nano := n }, []) := by
  rw [readItems_cons (readItem_fraction hn hr)]
  rcases hblanks with rfl | rfl
  · rfl
  · exact readItems_cons (readItem_blanks rfl)

/-- A time at the end of a text. -/
theorem readItems_time {blanks : List Item} (hblanks : MayBlank blanks)
    (t : TimeOfDay) (hr : r.nano = 0) :
    readItems
      (.hour :: (blanks ++
        .mark ':' :: .minute :: (blanks ++ .mark ':' :: .second :: .fraction :: blanks))) r
      t.chars = .ok (r.at t, []) := by
  rw [readItems_minutes hblanks, readItems_seconds hblanks]
  exact readItems_fraction hblanks t.writtenNano_le hr

/-- Items that leave nothing have read all of a text. -/
theorem readAll_eq (h : readItems is .start cs = .ok (r, [])) : readAll is cs = .ok r := by
  unfold readAll
  rw [h]
  rfl

end Calendar

open Calendar

/-! ### The bytes of a text -/

/-- The characters that dates and times are written with. -/
def Calendar.isPlain (c : Char) : Bool :=
  c.isDigit || ['-', '+', ':', '.', ' '].contains c

theorem Calendar.isPlain_bounds {c : Char} (h : isPlain c) : c.toNat < 84 := by
  rcases Bool.or_eq_true_iff.mp h with h | h
  · have hbounds : 48 ≤ c.toNat ∧ c.toNat ≤ 57 := by
      simpa [Char.isDigit, UInt32.le_iff_toNat_le] using h
    omega
  · have hmem : ∀ d ∈ ['-', '+', ':', '.', ' '], d.toNat < 84 := by simp
    exact hmem c (List.contains_iff_mem.mp h)

theorem utf8Encode_plain {cs : List Char} (h : ∀ c ∈ cs, isPlain c) :
    cs.utf8Encode = (cs.map fun c ↦ c.val.toUInt8).toByteArray := by
  induction cs with
  | nil => rfl
  | cons c cs ih =>
    have hc : c.utf8Size = 1 := by
      have := isPlain_bounds (h c List.mem_cons_self)
      rw [Char.utf8Size_eq_one_iff, UInt32.le_iff_toNat_le]
      exact Nat.le_of_lt (Nat.lt_of_lt_of_le this (by decide))
    rw [List.utf8Encode_cons, List.utf8Encode_singleton, String.utf8EncodeChar_eq_singleton hc,
      ih fun d hd ↦ h d (List.mem_cons_of_mem _ hd), ← List.toByteArray_append]
    rfl

theorem utf8ByteSize_plain {cs : List Char} (h : ∀ c ∈ cs, isPlain c) :
    (String.ofList cs).utf8ByteSize = cs.length := by
  rw [← String.size_toByteArray, String.toByteArray_ofList, utf8Encode_plain h,
    List.size_toByteArray, List.length_map]

theorem byte_ne_T {cs : List Char} (h : ∀ c ∈ cs, isPlain c) (k : Nat) :
    (String.ofList cs).toUTF8[k]? ≠ some 'T'.toUInt8 := by
  intro hT
  rw [String.toUTF8_eq_toByteArray, String.toByteArray_ofList, utf8Encode_plain h] at hT
  obtain ⟨hk, hbyte⟩ := getElem?_eq_some_iff.mp hT
  rw [List.getElem_toByteArray, List.getElem_map] at hbyte
  have hin : k < cs.length := by simpa using hk
  have hplain := isPlain_bounds (h _ (List.getElem_mem hin))
  have heq : cs[k].toNat % 256 = 84 := congrArg UInt8.toNat hbyte
  omega

theorem isPlain_of_mem_paddedDigits {c : Char} {width n : Nat} (h : c ∈ paddedDigits width n) :
    isPlain c :=
  Bool.or_eq_true_iff.mpr (.inl (isDigit_of_mem_paddedDigits h))

namespace TimeOfDay

theorem fractionText_plain (n : Nat) : ∀ c ∈ fractionText n, isPlain c := by
  have hpoint (width n : Nat) : ∀ c ∈ '.' :: paddedDigits width n, isPlain c :=
    List.forall_mem_cons.mpr ⟨by decide, fun c hc ↦ isPlain_of_mem_paddedDigits hc⟩
  unfold fractionText
  split
  · exact List.forall_mem_nil _
  · split
    · exact hpoint 3 _
    · split
      · exact hpoint 6 _
      · exact hpoint 9 _

theorem chars_plain (t : TimeOfDay) : ∀ c ∈ t.chars, isPlain c := by
  have hcolon : isPlain ':' := by decide
  have hdigits (n : Nat) : ∀ c ∈ paddedDigits 2 n, isPlain c := fun _ ↦ isPlain_of_mem_paddedDigits
  unfold chars
  simp only [List.forall_mem_append, List.forall_mem_cons]
  exact ⟨⟨⟨hdigits _, hcolon, hdigits _⟩, hcolon, hdigits _⟩, fractionText_plain _⟩

theorem length_chars (t : TimeOfDay) :
    t.chars.length = 8 + (fractionText t.writtenNano).length := by
  have hvalid := t.valid
  simp only [isClock, Bool.and_eq_true, decide_eq_true_eq] at hvalid
  obtain ⟨⟨⟨hhour, hminute⟩, -⟩, -⟩ := hvalid
  have hsecond := t.writtenSecond_le
  have hlength (n : Nat) (hn : n < 100) : (paddedDigits 2 n).length = 2 :=
    length_paddedDigits (by decide) hn
  simp only [chars, List.length_append, List.length_cons, hlength t.hour (by omega),
    hlength t.minute (by omega), hlength t.writtenSecond (by omega)]

/-- A column of a time is read back. -/
theorem readColumn_chars (t : TimeOfDay) : TimeOfDay.readColumn t.chars = .ok t.readBack := by
  unfold TimeOfDay.readColumn
  rw [utf8ByteSize_plain t.chars_plain, length_chars]
  by_cases hnano : t.writtenNano = 0
  · have hitems := readItems_minutes (r := .start) (k := [] ++ .mark ':' :: [.second]) (.inl rfl) t
    rw [readItems_seconds (.inl rfl), hnano] at hitems
    have hall : readAll (timeItems.take 5) t.chars = .ok (Reading.start.at t) := by
      refine readAll_eq (hitems.trans ?_)
      rw [Reading.at, hnano]
      rfl
    rw [hnano]
    change readAll (timeItems.take 5) t.chars >>= Reading.time = _
    rw [hall]
    exact Reading.time_at _ t
  · have hpos : 0 < (fractionText t.writtenNano).length := by
      unfold fractionText
      rw [if_neg hnano]
      split
      · exact Nat.succ_pos _
      · split <;> exact Nat.succ_pos _
    have hall : readAll timeItems t.chars = .ok (Reading.start.at t) :=
      readAll_eq (readItems_time (.inl rfl) t rfl)
    split
    · omega
    · omega
    · change readAll timeItems t.chars >>= Reading.time = _
      rw [hall]
      exact Reading.time_at _ t

theorem readStored_chars (t : TimeOfDay) : TimeOfDay.readStored t.chars = .ok t.readBack := by
  have hminutes : readItems [.hour, .blanks, .mark ':', .minute] .start t.chars =
      .ok (Reading.start.atMinute t, ':' :: secondsText t) :=
        readItems_minutes (k := []) (.inr rfl) t
  have hseconds : readItems [.blanks, .mark ':', .second, .fraction, .blanks]
      (Reading.start.atMinute t) (':' :: secondsText t) = .ok (Reading.start.at t, []) :=
    (readItems_seconds (k := [.fraction, .blanks]) (.inr rfl) t).trans
      (readItems_fraction (.inr rfl) t.writtenNano_le rfl)
  unfold TimeOfDay.readStored
  rw [hminutes]
  simp only [Bind.bind, Except.bind, hseconds]
  exact Reading.time_at _ t

end TimeOfDay

namespace Date

/-- A date is read back from its column. -/
theorem read_chars (d : Date) : Date.read d.chars = .ok d := by
  have hitems := readItems_date (r := .start) (k := []) (u := []) (.inl rfl) d
  rw [List.append_nil] at hitems
  have hall : readAll dateItems d.chars = .ok (Reading.start.on d) := readAll_eq hitems
  unfold Date.read
  rw [hall]
  exact Reading.date_on _ d

theorem readStored_chars (d : Date) : Date.readStored d.chars = .ok d := by
  have hitems := readItems_date (r := .start) (k := [.blanks]) (u := []) (.inr rfl) d
  rw [List.append_nil, readItems_cons (readItem_blanks rfl)] at hitems
  have hall : readAll [.year, .blanks, .mark '-', .month, .blanks, .mark '-',
      .day, .blanks] d.chars =
    .ok (Reading.start.on d) := readAll_eq hitems
  unfold Date.readStored
  dsimp only
  rw [hall]
  exact Reading.date_on _ d

theorem yearText_plain (year : Int) : ∀ c ∈ yearText year, isPlain c := by
  unfold yearText
  split
  · exact fun _ ↦ isPlain_of_mem_paddedDigits
  · refine List.forall_mem_cons.mpr ⟨?_, fun _ ↦ isPlain_of_mem_paddedDigits⟩
    split <;> decide

theorem chars_plain (d : Date) : ∀ c ∈ d.chars, isPlain c := by
  have hmark : isPlain '-' := by decide
  have hdigits (n : Nat) : ∀ c ∈ paddedDigits 2 n, isPlain c := fun _ ↦ isPlain_of_mem_paddedDigits
  unfold chars
  simp only [List.forall_mem_append, List.forall_mem_cons]
  exact ⟨⟨yearText_plain _, hmark, hdigits _⟩, hmark, hdigits _⟩

end Date

namespace DateTime

theorem ofReading_at (t : DateTime) :
    ofReading ((Reading.start.on t.date).at t.time) = .ok t.readBack := by
  have hdate : ((Reading.start.on t.date).at t.time).date = .ok t.date :=
    Reading.date_on .start t.date
  unfold ofReading
  rw [hdate, Reading.time_at]
  rfl

/-- A column of a date and a time is read back. -/
theorem readColumn_chars (t : DateTime) : DateTime.readColumn (t.chars ' ') = .ok t.readBack := by
  have hplain : ∀ c ∈ t.chars ' ', isPlain c := by
    unfold DateTime.chars
    rw [List.forall_mem_append, List.forall_mem_cons]
    exact ⟨t.date.chars_plain, by decide, t.time.chars_plain⟩
  have hskip : skipBlanks (' ' :: t.time.chars) = t.time.chars := by
    have hchars : t.time.chars = paddedDigits 2 t.time.hour ++
        (':' :: paddedDigits 2 t.time.minute ++ ':' :: secondsText t.time) := by
      simp [TimeOfDay.chars, secondsText]
    change skipBlanks t.time.chars = t.time.chars
    rw [hchars, skipBlanks_paddedDigits]
  have hblanks (r : Reading) :
      readItem r (' ' :: t.time.chars) .blanks = .ok (r, t.time.chars) := by
    unfold readItem
    rw [hskip]
  have hitems := readItems_date (r := .start) (k := .blanks :: timeItems) (u :=
    ' ' :: t.time.chars) (.inl rfl) t.date
  rw [readItems_cons (hblanks _)] at hitems
  have hall : readAll (dateItems ++ .blanks :: timeItems) (t.chars ' ') =
      .ok ((Reading.start.on t.date).at t.time) :=
    readAll_eq (hitems.trans (readItems_time (.inl rfl) t.time rfl))
  unfold DateTime.readColumn
  dsimp only
  rw [if_neg (byte_ne_T hplain 10), hall]
  exact ofReading_at t

theorem readStored_chars (t : DateTime) : DateTime.readStored (t.chars 'T') = .ok t.readBack := by
  have hitems :=
    readItems_date (r := .start) (k := [.blanks] ++ .mark 'T' :: .hour :: .blanks :: .mark ':' ::
    .minute :: .blanks :: .mark ':' :: .second :: .fraction :: [.blanks]) (u :=
      'T' :: t.time.chars) (.inr rfl) t.date
  rw [MayBlank.readItems (.inr rfl) (by decide)] at hitems
  have hall := readAll_eq (hitems.trans (readItems_time (.inr rfl) t.time rfl))
  unfold DateTime.readStored
  change readAll _ (t.date.chars ++ 'T' :: t.time.chars) >>= ofReading = _
  exact (congrArg (· >>= ofReading) hall).trans (ofReading_at t)

end DateTime

end EntityStore
