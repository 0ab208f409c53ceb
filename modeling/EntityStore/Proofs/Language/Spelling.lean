import EntityStore.Language.Reader
import EntityStore.Proofs.Calendar.Written
import EntityStore.Proofs.Language.Gives

/-!
How literals are spelled. A text may write its characters plainly or with the escapes of the
language, a time may have a fraction of up to nine digits. The grammar reads every spelling of a
literal as a token that stands for its value.
-/

set_option autoImplicit false

namespace EntityStore

open Calendar

/-! ### Spellings -/

/-- A fraction of a second, in billionths, in up to nine digits. -/
inductive TimeOfDay.Fraction : Nat → List Char → Prop where
  | none : Fraction 0 []
  | digits {width n : Nat} (hwidth : 0 < width) (hle : width ≤ 9) (hn : n < 10 ^ width) :
      Fraction (n * 10 ^ (9 - width)) ('.' :: paddedDigits width n)

/-- A time of day with some digits for its fraction. No text spells a leap second within a
minute. -/
inductive TimeOfDay.Spells (t : TimeOfDay) : List Char → Prop where
  | clock {cs : List Char} (hregular : t.Regular) (h : Fraction t.writtenNano cs) :
      t.Spells (paddedDigits 2 t.hour ++
        ':' :: (paddedDigits 2 t.minute ++ ':' :: (paddedDigits 2 t.writtenSecond ++ cs)))

namespace Language

/-- The characters after a backslash, and what they stand for. -/
def escapes : List (Char × Char) :=
  [('"', '"'), ('\\', '\\'), ('/', '/'), ('n', '\n'), ('r', '\r'), ('t', '\t')]

/-- A row of characters as it may stand between quotes. -/
inductive Quotes : List Char → List Char → Prop where
  | nil : Quotes [] []
  | plain {c : Char} {cs ds : List Char} (h : c ≠ '"' ∧ c ≠ '\\') (hrest : Quotes cs ds) :
      Quotes (c :: cs) (c :: ds)
  | escaped {c d : Char} {cs ds : List Char} (h : (d, c) ∈ escapes) (hrest : Quotes cs ds) :
      Quotes (c :: cs) ('\\' :: d :: ds)

/-- The spellings of a literal. Dates are spelled with the years from 0 to 9999; neither floats nor
lists and maps are literals here. -/
inductive Spells : Value → List Char → Prop where
  | null : Spells .null "null".toList
  | yes : Spells (.bool true) "true".toList
  | no : Spells (.bool false) "false".toList
  | long (n : Int64) : Spells (.long n) (intDigits n.toInt)
  | text {s : String} {cs : List Char} (h : Quotes s.toList cs) :
      Spells (.text s) ('"' :: (cs ++ ['"']))
  | time {t : TimeOfDay} {cs : List Char} (h : t.Spells cs) : Spells (.time t) ('#' :: cs)
  | date {d : Date} (hlow : 0 ≤ d.year) (hhigh : d.year ≤ 9999) : Spells (.date d) ('#' :: d.chars)
  | dateTime {t : DateTime} {cs : List Char} (hlow : 0 ≤ t.date.year) (hhigh : t.date.year ≤ 9999)
      (h : t.time.Spells cs) : Spells (.dateTime t) ('#' :: (t.date.chars ++ 'T' :: cs))

end Language

/-! ### Reading spellings back -/

namespace TimeOfDay

variable {t : TimeOfDay} {cs : List Char} {r : Reading} {nano : Nat}

theorem Fraction.readItem (h : Fraction nano cs) (hr : r.nano = 0) :
    readItem r cs .fraction = .ok ({ r with nano := nano }, []) := by
  cases h with
  | none =>
    rw [← hr]
    rfl
  | digits hwidth hle hn =>
    simp only [Calendar.readItem, readFraction_paddedDigits hwidth hle hn]
    rfl

theorem Spells.regular (h : t.Spells cs) : t.Regular := by
  cases h with
  | clock hregular => exact hregular

theorem Spells.readItems (h : t.Spells cs) (hr : r.nano = 0) :
    readItems timeItems r cs = .ok (r.at t, []) := by
  have hvalid := t.valid
  simp only [isClock, Bool.and_eq_true, decide_eq_true_eq] at hvalid
  obtain ⟨⟨⟨hhour, hminute⟩, -⟩, -⟩ := hvalid
  cases h with
  | clock _ hfraction =>
    unfold timeItems
    rw [readItems_cons (readItem_hour hhour), readItems_cons (readItem_mark ':'),
      readItems_cons (readItem_minute hminute), readItems_cons (readItem_mark ':'),
      readItems_cons (readItem_second t.writtenSecond_le)]
    exact readItems_cons (hfraction.readItem hr)

theorem Spells.read (h : t.Spells cs) : TimeOfDay.read cs = .ok t := by
  unfold TimeOfDay.read
  rw [readAll_eq (h.readItems rfl)]
  change Reading.time (Reading.start.at t) = _
  rw [Reading.time_at, readBack_eq_iff.mpr h.regular]

theorem Spells.exists (h : t.Regular) : ∃ cs, t.Spells cs := by
  have hnano : t.writtenNano < 10 ^ 9 := Nat.lt_succ_of_le t.writtenNano_le
  have hfraction := Fraction.digits (by decide) (Nat.le_refl 9) hnano
  rw [Nat.sub_self, Nat.pow_zero, Nat.mul_one] at hfraction
  exact ⟨_, .clock h hfraction⟩

end TimeOfDay

theorem DateTime.read_spelled {t : DateTime} {cs : List Char} (h : t.time.Spells cs) :
    DateTime.read (t.date.chars ++ 'T' :: cs) = .ok t := by
  have hitems := readItems_date (r := .start) (k := .mark 'T' :: timeItems) (u :=
    'T' :: cs) (.inl rfl) t.date
  rw [readItems_cons (readItem_mark 'T'), h.readItems rfl] at hitems
  have hall : readAll (dateItems ++ .mark 'T' :: timeItems) (t.date.chars ++ 'T' :: cs) = _ :=
    readAll_eq hitems
  unfold DateTime.read
  rw [hall]
  change ofReading ((Reading.start.on t.date).at t.time) = _
  rw [ofReading_at, DateTime.readBack_eq_iff.mpr h.regular]

namespace Language

theorem Quotes.unescape {cs ds : List Char} (h : Quotes cs ds) : unescape ds = cs := by
  induction h with
  | nil => rfl
  | plain h _ ih => simp [Language.unescape, h, ih]
  | escaped h _ ih =>
    simp only [escapes, List.mem_cons, Prod.mk.injEq, List.not_mem_nil, or_false] at h
    obtain ⟨rfl, rfl⟩ | ⟨rfl, rfl⟩ | ⟨rfl, rfl⟩ | ⟨rfl, rfl⟩ | ⟨rfl, rfl⟩ | ⟨rfl, rfl⟩ := h <;>
      simp [Language.unescape, ih]

/-- Every row of characters can stand between quotes. -/
theorem Quotes.exists (cs : List Char) : ∃ ds, Quotes cs ds := by
  induction cs with
  | nil => exact ⟨[], .nil⟩
  | cons c cs ih =>
    obtain ⟨ds, hds⟩ := ih
    by_cases hc : c ≠ '"' ∧ c ≠ '\\'
    · exact ⟨c :: ds, .plain hc hds⟩
    · have hescape : (c, c) ∈ escapes := by
        rw [not_and_or, not_not, not_not] at hc
        obtain rfl | rfl := hc <;> decide
      exact ⟨'\\' :: c :: ds, .escaped hescape hds⟩

/-- The years that dates are spelled with. -/
def isLiteralYear (year : Int) : Bool :=
  0 ≤ year && year ≤ 9999

/-- The values that a literal spells exactly: all but floats, lists and maps. -/
def isLiteral : Value → Bool
  | .null | .bool _ | .long _ | .text _ => true
  | .time t => t.Regular
  | .date d => isLiteralYear d.year
  | .dateTime t => isLiteralYear t.date.year && t.time.Regular
  | _ => false

theorem exists_spells {v : Value} (h : isLiteral v) : ∃ cs, Spells v cs := by
  have hyear {year : Int} (h : isLiteralYear year) :
    0 ≤ year ∧ year ≤ 9999 := by simpa [isLiteralYear] using h
  cases v with
  | null => exact ⟨_, .null⟩
  | bool b => cases b with
    | true => exact ⟨_, .yes⟩
    | false => exact ⟨_, .no⟩
  | long n => exact ⟨_, .long n⟩
  | text s =>
    obtain ⟨cs, hcs⟩ := Quotes.exists s.toList
    exact ⟨_, .text hcs⟩
  | time t =>
    obtain ⟨cs, hcs⟩ := TimeOfDay.Spells.exists (of_decide_eq_true h)
    exact ⟨_, .time hcs⟩
  | date d => exact ⟨_, .date (hyear h).1 (hyear h).2⟩
  | dateTime t =>
    obtain ⟨hliteral, hregular⟩ := Bool.and_eq_true_iff.mp h
    obtain ⟨cs, hcs⟩ := TimeOfDay.Spells.exists (of_decide_eq_true hregular)
    exact ⟨_, .dateTime (hyear hliteral).1 (hyear hliteral).2 hcs⟩
  | _ => cases h

namespace Token

variable {text : List Char} {n : Int64} {o : Nat}

theorem value?_intDigits (n : Int64) : value? (intDigits n.toInt) = some n := by
  have hdigits : ∀ cs : List Char, (∀ c ∈ cs, c.isDigit) → value? cs = int64? (digitsValue cs) := by
    intro cs hcs
    unfold value?
    cases cs with
    | nil => rfl
    | cons c cs =>
      have hc : c ≠ '-' := by
        rintro rfl
        exact absurd (hcs _ List.mem_cons_self) (by decide)
      split
      · next heq => exact absurd (List.cons.inj heq).1 hc
      · rfl
  unfold intDigits
  split
  · next hneg =>
    change int64? (-(digitsValue (natDigits n.toInt.natAbs) : Int)) = some n
    rw [digitsValue_natDigits, Int.ofNat_natAbs_of_nonpos (Int.le_of_lt hneg), Int.neg_neg]
    exact int64?_toInt n
  · next hneg =>
    rw [hdigits _ fun c ↦ isDigit_of_mem_natDigits, digitsValue_natDigits,
      Int.natAbs_of_nonneg (Int.not_lt.mp hneg)]
    exact int64?_toInt n

/-- A token spells an integer. -/
def IsInteger (t : Token) (n : Int64) : Prop :=
  ∀ text, t.integer text = .ok n

/-- A token stands for a value. -/
def Means (t : Token) (v : Value) : Prop :=
  ∀ text, t.value text = .ok v

theorem isInteger_intDigits (o : Nat) (n : Int64) :
    IsInteger ⟨.integer, o, intDigits n.toInt⟩ n := by
  intro text
  unfold integer
  rw [value?_intDigits]

end Token

namespace Grammar

open EntityStore.Language.Parser

variable {m : Mode} {o : Nat} {cs rest : List Char} {v : Value}

/-! ### Where a lexeme ends -/

/-- The characters that spacing begins with. -/
def spacers : List Char :=
  [' ', '\t', '\r', '\n', '/']

/-- Spacing or the end of the text. -/
def Ends (rest : List Char) : Prop :=
  ∀ d ∈ rest.head?, d ∈ spacers

theorem Ends.not {class_ : Char → Bool} (h : Ends rest) (hclass : spacers.all (!class_ ·)) :
    ∀ d ∈ rest.head?, class_ d = false :=
  fun d hd ↦ by simpa using List.all_eq_true.mp hclass d (h d hd)

/-! ### Tokens -/

theorem gives_token {rule : Rule} {kind : LiteralKind} {body : Parser Unit}
    (h : Scans body .atomic cs rest ()) :
    (atomic rule (token kind body)).Gives m ⟨o, cs ++ rest⟩
      (some (⟨kind, o, cs⟩, ⟨o + cs.length, rest⟩)) :=
  Gives.ruleIn ((gives_captured h).bind (gives_pure _))

theorem gives_token_none {rule : Rule} {kind : LiteralKind} {body : Parser Unit} {c : Cursor}
    (h : body.Gives .atomic c none) : (atomic rule (token kind body)).Gives m c none :=
  Gives.ruleIn h.captured_none.bind_none

theorem begins_token {rule : Rule} {kind : LiteralKind} {body : Parser Unit} {first : Char → Bool}
    (h : body.Begins first) : (atomic rule (token kind body)).Begins first :=
  Begins.ruleIn h.captured.bind

theorem begins_null : null.Begins (· == 'n') :=
  begins_token (begins_word rfl).bind

theorem begins_boolean : boolean.Begins fun d ↦ d == 't' || d == 'f' :=
  begins_token (((begins_word rfl).orElse (begins_word rfl)).bind)

theorem begins_dateTime : dateTime.Begins (· == '#') :=
  begins_token (begins_word rfl).bind

theorem begins_date : date.Begins (· == '#') :=
  begins_token (begins_word rfl).bind

theorem begins_time : time.Begins (· == '#') :=
  begins_token (begins_word rfl).bind

theorem begins_digits : digits.Begins Char.isDigit :=
  (begins_char _).bind.bind

theorem begins_minus_bind {α : Type} {f : Unit → Parser α} {first : Char → Bool}
    (h : (f ()).Begins first) :
    (minus >>= f).Begins fun d ↦ d == '-' || first d := by
  intro m c hc
  have hminus : minus.Gives m c (some ((), c)) :=
    (begins_word rfl m c fun d hd ↦ (Bool.or_eq_false_iff.mp (hc d hd)).1).optional_none.bind
      (gives_pure ())
  exact hminus.bind (h m c fun d hd ↦ (Bool.or_eq_false_iff.mp (hc d hd)).2)

theorem begins_float : float.Begins fun d ↦ d == '-' || d.isDigit :=
  begins_token (begins_minus_bind begins_digits.bind)

theorem begins_integer : integer.Begins fun d ↦ d == '-' || d.isDigit :=
  begins_token (begins_minus_bind begins_digits)

theorem begins_text : text.Begins (· == '"') :=
  Begins.ruleIn (begins_word rfl).captured.bind

/-! ### Literals -/

theorem scans_keyword {s : String} (h : Ends rest) : Scans (keyword s) m s.toList rest () :=
  (scans_word s).bind_nil (scans_notNext (h.not rfl))

theorem scans_digits (hcs : ∀ d ∈ cs, d.isDigit) (hne : cs ≠ [])
    (hrest : ∀ d ∈ rest.head?, d.isDigit = false) :
    Scans digits m cs rest () :=
  (scans_many₁ hcs hne hrest).bind_nil (scans_pure ())

theorem scans_digitsOf {n : Nat} (hcs : ∀ d ∈ cs, d.isDigit) (hn : cs.length = n) :
    Scans (digitsOf n) m cs rest () := by
  subst hn
  exact (scans_exactly hcs).bind_nil (scans_pure ())

/-- Fewer digits than are asked for. -/
theorem digitsOf_none {n : Nat} (hcs : ∀ d ∈ cs, d.isDigit) (hn : cs.length < n)
    (hrest : ∀ d ∈ rest.head?, d.isDigit = false) : (digitsOf n).Gives m ⟨o, cs ++ rest⟩ none := by
  refine Gives.bind_none ?_
  induction cs generalizing n o with
  | nil =>
    cases n with
    | zero => exact absurd hn (Nat.lt_irrefl 0)
    | succ n => exact (begins_char _ m _ hrest).bind_none
  | cons d cs ih =>
    cases n with
    | zero => exact absurd hn (Nat.not_lt_zero _)
    | succ n =>
      obtain ⟨hd, hcs⟩ := List.forall_mem_cons.mp hcs
      exact (scans_char hd o).bind (ih hcs (Nat.lt_of_succ_lt_succ hn)).bind_none

/-- An integer is spelled by a sign, which may be missing, and digits. -/
theorem intDigits_parts (n : Int) : ∃ sign cs, intDigits n = sign ++ cs ∧ cs ≠ [] ∧
    (∀ d ∈ cs, d.isDigit) ∧ ∀ m rest, Scans minus m sign (cs ++ rest) () := by
  have hdigits : ∀ d ∈ natDigits n.natAbs, d.isDigit := fun _ ↦ isDigit_of_mem_natDigits
  have hne : natDigits n.natAbs ≠ [] := Nat.toDigits_ne_nil
  unfold intDigits
  split
  · exact ⟨['-'], _, rfl, hne, hdigits,
      fun m rest ↦ (scans_word "-").optional.bind_nil (scans_pure ())⟩
  · refine ⟨[], _, rfl, hne, hdigits, fun m rest ↦ ?_⟩
    have hfirst : ∀ d ∈ (natDigits n.natAbs ++ rest).head?, (d == '-') = false := by
      obtain ⟨c, cs, hcs⟩ := List.exists_cons_of_ne_nil hne
      have hc : c.isDigit := hdigits c (hcs ▸ List.mem_cons_self)
      rw [hcs]
      rintro d ⟨⟩
      refine beq_eq_false_iff_ne.mpr ?_
      rintro rfl
      exact absurd hc (by decide)
    exact (scans_optional_none fun o ↦ begins_word rfl m _ hfirst).bind_nil (scans_pure ())

theorem integer_gives (n : Int) (hrest : Ends rest) : integer.Gives m ⟨o, intDigits n ++ rest⟩
    (some (⟨.integer, o, intDigits n⟩, ⟨o + (intDigits n).length, rest⟩)) := by
  obtain ⟨sign, cs, hcs, hne, hdigits, hminus⟩ := intDigits_parts n
  rw [hcs]
  exact gives_token ((hminus _ _).bind (scans_digits hdigits hne (hrest.not rfl)))

/-- An integer without a point is no fraction. -/
theorem float_none (n : Int) (hrest : Ends rest) : float.Gives m ⟨o, intDigits n ++ rest⟩ none := by
  obtain ⟨sign, cs, hcs, hne, hdigits, hminus⟩ := intDigits_parts n
  have hpoint : ∀ o, (word ".").Gives .atomic ⟨o, rest⟩ none :=
    fun o ↦ begins_word rfl _ _ (hrest.not rfl)
  rw [hcs, List.append_assoc]
  refine gives_token_none
    ((hminus _ _ _).bind (((scans_digits hdigits hne (hrest.not rfl)) _).bind ?_))
  exact (hpoint _).bind_none

/-- The first character of an integer. -/
theorem intDigits_head (n : Int) {class_ : Char → Bool} (hminus : class_ '-' = false)
    (hdigit : ∀ d : Char, d.isDigit → class_ d = false) :
    ∀ d ∈ (intDigits n ++ rest).head?, class_ d = false := by
  have hdigits : ∀ d ∈ natDigits n.natAbs, d.isDigit := fun _ ↦ isDigit_of_mem_natDigits
  unfold intDigits
  split
  · rintro d ⟨⟩
    exact hminus
  · have hne : natDigits n.natAbs ≠ [] := Nat.toDigits_ne_nil
    obtain ⟨c, cs, hcs⟩ := List.exists_cons_of_ne_nil hne
    rw [hcs]
    rintro d ⟨⟩
    exact hdigit c (hdigits c (hcs ▸ List.mem_cons_self))

/-! ### Dates and times -/

theorem length_two {n : Nat} (h : n < 100) : (paddedDigits 2 n).length = 2 :=
  length_paddedDigits (by decide) h

theorem scans_two {n : Nat} (h : n < 100) : Scans (digitsOf 2) m (paddedDigits 2 n) rest () :=
  scans_digitsOf (fun _ ↦ isDigit_of_mem_paddedDigits) (length_two h)

/-- The digits of a date with a year of four digits. -/
theorem scans_datePart {d : Date} (hlow : 0 ≤ d.year) (hhigh : d.year ≤ 9999) :
    Scans datePart m d.chars rest () := by
  have hvalid := d.valid
  simp only [isDay, Bool.and_eq_true, decide_eq_true_eq] at hvalid
  obtain ⟨⟨⟨⟨-, -⟩, hmonth⟩, -⟩, hdays⟩ := hvalid
  have hday : d.day ≤ 31 := Nat.le_trans hdays (monthLength_le d.year d.month)
  have hchars : d.chars =
      paddedDigits 4 d.year.toNat ++
        '-' :: (paddedDigits 2 d.month ++ '-' :: paddedDigits 2 d.day) := by
    simp [Date.chars, Date.yearText, hlow, hhigh]
  have hyear (rest : List Char) : Scans (digitsOf 4) m (paddedDigits 4 d.year.toNat) rest () :=
    scans_digitsOf (fun _ ↦ isDigit_of_mem_paddedDigits)
      (length_paddedDigits (by decide) (by omega))
  rw [hchars]
  exact (hyear _).bind (Scans.cons_bind (scans_word "-")
    ((scans_two (by omega)).bind (Scans.cons_bind (scans_word "-") (scans_two (by omega)))))

theorem scans_timePart {t : TimeOfDay} (h : t.Spells cs) (hrest : Ends rest) :
    Scans timePart m cs rest () := by
  have hvalid := t.valid
  simp only [isClock, Bool.and_eq_true, decide_eq_true_eq] at hvalid
  obtain ⟨⟨⟨hhour, hminute⟩, -⟩, -⟩ := hvalid
  have hsecond := t.writtenSecond_le
  obtain ⟨-, hfraction⟩ := h
  refine (scans_two (by omega)).bind (Scans.cons_bind (scans_word ":") ((scans_two (by omega)).bind
    (Scans.cons_bind (scans_word ":") ((scans_two (by omega)).bind ?_))))
  generalize t.writtenNano = nano at hfraction
  cases hfraction with
  | none =>
    exact (scans_optional_none fun o ↦ (begins_word rfl m _ (hrest.not rfl)).bind_none).bind_nil
      (scans_pure ())
  | @digits width n hwidth hle hn =>
    have hdigits : Scans digits m (paddedDigits width n) rest () :=
      scans_digits (fun _ ↦ isDigit_of_mem_paddedDigits) (paddedDigits_ne_nil _ _) (hrest.not rfl)
    have hpoint : Scans (do word "."; digits) m ('.' :: paddedDigits width n) rest () :=
      Scans.cons_bind (scans_word ".") hdigits
    exact hpoint.optional.bind_nil (scans_pure ())

/-- A time has fewer digits before its first mark than a date. -/
theorem datePart_none {t : TimeOfDay} (h : t.Spells cs) :
    datePart.Gives m ⟨o, cs ++ rest⟩ none := by
  have hvalid := t.valid
  simp only [isClock, Bool.and_eq_true, decide_eq_true_eq] at hvalid
  obtain ⟨-, -⟩ := h
  rw [List.append_assoc]
  refine (digitsOf_none (fun _ ↦ isDigit_of_mem_paddedDigits) ?_ ?_).bind_none
  · rw [length_two (by omega)]
    decide
  · rintro d ⟨⟩
    decide

/-! ### Literals -/

/-- Characters that may stand between quotes are read up to where no such character stands. -/
theorem scans_textChars {cs ds : List Char} (h : Quotes cs ds)
    (hstop : ∀ o, textChar.Gives m ⟨o, rest⟩ none) :
    ∃ us, Scans (many textChar) m ds rest us := by
  suffices hchain : ∃ us, ∀ o, Chain textChar m ⟨o, ds ++ rest⟩ us ⟨o + ds.length, rest⟩ from
    hchain.imp fun us hus o ↦ (hus o).many
  induction h with
  | nil => exact ⟨[], fun o ↦ .stop (hstop o)⟩
  | @plain c cs ds h _ ih =>
    obtain ⟨us, hus⟩ := ih
    have hc : (c != '"' && c != '\\') = true := by simpa using h
    have hchar : Scans textChar m [c] (ds ++ rest) () :=
      ((scans_char hc).bind_nil (scans_pure ())).orElse
    refine ⟨() :: us, fun o ↦ ?_⟩
    rw [List.length_cons, show o + (ds.length + 1) = o + 1 + ds.length by omega]
    exact .step (hchar o) (Nat.lt_succ_self _) (hus (o + 1))
  | @escaped c d cs ds h _ ih =>
    obtain ⟨us, hus⟩ := ih
    have hd : ['"', '\\', '/', 'n', 'r', 't'].contains d = true := by
      have hall : escapes.all fun x ↦ ['"', '\\', '/', 'n', 'r', 't'].contains x.1 := rfl
      exact List.all_eq_true.mp hall _ h
    have hchar : Scans textChar m ['\\', d] (ds ++ rest) () :=
      Scans.orElse_none (fun o ↦ ((begins_char _ m _ (by rintro d ⟨⟩; decide)).bind_none))
        (Scans.cons_bind (scans_word "\\") ((scans_char hd).bind_nil (scans_pure ())))
    refine ⟨() :: us, fun o ↦ ?_⟩
    rw [List.length_cons, List.length_cons, show o + (ds.length + 1 + 1) = o + 2 + ds.length by
      omega]
    refine .step (hchar o) ?_ (hus (o + 2))
    simp only [List.length_append, List.length_cons]
    omega

/-- No character between quotes begins with a quote. -/
theorem textChar_none_quote : textChar.Gives m ⟨o, '"' :: rest⟩ none :=
  ((begins_char _).bind.orElse (begins_word rfl).bind :
    textChar.Begins fun d ↦ (d != '"' && d != '\\') || d == '\\').refuses
    rfl

/-- Only the tokens of dates and times begin with their mark. -/
theorem scalar_gives_mark {c : Cursor} {r : Option (Token × Cursor)}
    (hmark : c.rest.head? = some '#')
    (h : (dateTime <|> date <|> time <|> float <|> integer <|> text).Gives m c r) :
    scalar.Gives m c r := by
  refine (begins_null m c ?_).orElse_none ((begins_boolean m c ?_).orElse_none h) <;>
  · rw [hmark]
    rintro d ⟨⟩
    decide

theorem null_gives (hrest : Ends rest) :
    null.Gives m ⟨o, "null".toList ++ rest⟩ (some (⟨.null, o, "null".toList⟩, ⟨o + 4, rest⟩)) :=
  gives_token (scans_keyword hrest)

theorem boolean_gives (h : Scans (word "true" <|> word "false") .atomic cs rest ())
    (hrest : Ends rest) :
    boolean.Gives m ⟨o, cs ++ rest⟩ (some (⟨.boolean, o, cs⟩, ⟨o + cs.length, rest⟩)) :=
  gives_token (h.bind_nil (scans_notNext (hrest.not rfl)))

theorem scans_true {q : Parser Unit} : Scans (word "true" <|> q) m "true".toList rest () :=
  (scans_word "true").orElse

theorem scans_false : Scans (word "true" <|> word "false") m "false".toList rest () := by
  have hfalse : "false".toList = ['f', 'a', 'l', 's', 'e'] := rfl
  refine Scans.orElse_none (fun o ↦ ?_) (scans_word "false")
  rw [hfalse]
  exact (begins_word rfl : (word "true").Begins (· == 't')).refuses (by decide)

theorem text_gives {s : String} (h : Quotes s.toList cs) :
    text.Gives m ⟨o, '"' :: (cs ++ '"' :: rest)⟩
      (some (⟨.text, o, cs⟩, ⟨o + (cs.length + 2), rest⟩)) := by
  obtain ⟨us, hus⟩ : ∃ us, Scans (many textChar) .compound cs ('"' :: rest) us :=
    scans_textChars h fun _ ↦ textChar_none_quote
  have hopen : (captured (word "\"")).Gives .compound ⟨o, '"' :: (cs ++ '"' :: rest)⟩
      (some ((o, ['"']), ⟨o + 1, cs ++ '"' :: rest⟩)) :=
    gives_captured (scans_word "\"")
  have hclose : (word "\"").Gives .compound ⟨o + 1 + cs.length, '"' :: rest⟩
      (some ((), ⟨o + (cs.length + 2), rest⟩)) := by
    have h : (word "\"").Gives .compound ⟨o + 1 + cs.length, '"' :: rest⟩
        (some ((), ⟨o + 1 + cs.length + 1, rest⟩)) := scans_word "\"" _
    rwa [show o + 1 + cs.length + 1 = o + (cs.length + 2) by omega] at h
  exact Gives.ruleIn (hopen.bind ((gives_captured hus).bind (hclose.bind (gives_pure _))))

theorem time_gives {t : TimeOfDay} (h : t.Spells cs) (hrest : Ends rest) :
    time.Gives m ⟨o, '#' :: cs ++ rest⟩
      (some (⟨.time, o, '#' :: cs⟩, ⟨o + (cs.length + 1), rest⟩)) :=
  gives_token (Scans.cons_bind (scans_word "#") (scans_timePart h hrest))

theorem date_gives {d : Date} (hlow : 0 ≤ d.year) (hhigh : d.year ≤ 9999) :
    date.Gives m ⟨o, '#' :: d.chars ++ rest⟩
      (some (⟨.date, o, '#' :: d.chars⟩, ⟨o + (d.chars.length + 1), rest⟩)) :=
  gives_token (Scans.cons_bind (scans_word "#") (scans_datePart hlow hhigh))

theorem dateTime_gives {t : DateTime} (hlow : 0 ≤ t.date.year) (hhigh : t.date.year ≤ 9999)
    (h : t.time.Spells cs) (hrest : Ends rest) :
      dateTime.Gives m ⟨o, '#' :: (t.date.chars ++ 'T' :: cs) ++ rest⟩
      (some (⟨.dateTime, o, '#' :: (t.date.chars ++ 'T' :: cs)⟩,
        ⟨o + ((t.date.chars ++ 'T' :: cs).length + 1), rest⟩)) :=
  gives_token (Scans.cons_bind (scans_word "#")
    ((scans_datePart hlow hhigh).bind (Scans.cons_bind (scans_word "T") (scans_timePart h hrest))))

/-- A time is no date. -/
theorem date_none {t : TimeOfDay} (h : t.Spells cs) : date.Gives m ⟨o, '#' :: cs ++ rest⟩ none := by
  have hmark : (word "#").Gives .atomic ⟨o, '#' :: cs ++ rest⟩ (some ((), ⟨o + 1, cs ++ rest⟩)) :=
    scans_word "#" o
  exact gives_token_none (hmark.bind (datePart_none h))

/-- A time is no date with a time. -/
theorem dateTime_none {t : TimeOfDay} (h : t.Spells cs) :
    dateTime.Gives m ⟨o, '#' :: cs ++ rest⟩ none := by
  have hmark : (word "#").Gives .atomic ⟨o, '#' :: cs ++ rest⟩ (some ((), ⟨o + 1, cs ++ rest⟩)) :=
    scans_word "#" o
  exact gives_token_none (hmark.bind (datePart_none h).bind_none)

/-- A date without a time is none with a time. -/
theorem dateTime_none_of_date {d : Date} (hlow : 0 ≤ d.year) (hhigh : d.year ≤ 9999)
    (hrest : Ends rest) :
    dateTime.Gives m ⟨o, '#' :: d.chars ++ rest⟩ none := by
  have hmark : (word "#").Gives .atomic ⟨o, '#' :: d.chars ++ rest⟩
      (some ((), ⟨o + 1, d.chars ++ rest⟩)) :=
    scans_word "#" o
  have hnone : ∀ o, (word "T").Gives .atomic ⟨o, rest⟩ none :=
    fun o ↦ begins_word rfl _ _ (hrest.not rfl)
  exact gives_token_none (hmark.bind ((scans_datePart hlow hhigh _).bind (hnone _).bind_none))

theorem text_means {s : String} (h : Quotes s.toList cs) (o : Nat) :
    Token.Means ⟨.text, o, cs⟩ (.text s) := by
  intro text
  simp only [Token.value, h.unescape, String.ofList_toList]

theorem time_means {t : TimeOfDay} (h : t.Spells cs) (o : Nat) :
    Token.Means ⟨.time, o, '#' :: cs⟩ (.time t) := by
  intro text
  simp only [Token.value, Token.calendar, List.drop_succ_cons, List.drop_zero, h.read]
  rfl

theorem date_means (d : Date) (o : Nat) : Token.Means ⟨.date, o, '#' :: d.chars⟩ (.date d) := by
  intro text
  simp only [Token.value, Token.calendar, List.drop_succ_cons, List.drop_zero, Date.read_chars]
  rfl

theorem dateTime_means {t : DateTime} (h : t.time.Spells cs) (o : Nat) :
    Token.Means ⟨.dateTime, o, '#' :: (t.date.chars ++ 'T' :: cs)⟩ (.dateTime t) := by
  intro text
  simp only [Token.value, Token.calendar, List.drop_succ_cons, List.drop_zero,
    DateTime.read_spelled h]
  rfl

theorem long_means (o : Nat) (n : Int64) :
    Token.Means ⟨.integer, o, intDigits n.toInt⟩ (.long n) := by
  intro text
  simp only [Token.value, Token.isInteger_intDigits o n text]
  rfl

/-- A digit is none of the other characters that literals begin with. -/
theorem isDigit_ne {c : Char} (hc : c.isDigit = false) (d : Char) (hd : d.isDigit) :
    (d == c) = false := by
  refine beq_eq_false_iff_ne.mpr ?_
  rintro rfl
  simp [hc] at hd

/-- Every spelling of a literal is read as a token that stands for its value. -/
theorem scalar_gives (h : Spells v cs) (hrest : Ends rest) (o : Nat) :
    ∃ t, scalar.Gives m ⟨o, cs ++ rest⟩ (some (t, ⟨o + cs.length, rest⟩)) ∧ t.Means v := by
  cases h with
  | null => exact ⟨⟨.null, o, "null".toList⟩, (null_gives hrest).orElse, fun _ ↦ rfl⟩
  | yes =>
    have hnull : null.Gives m ⟨o, 't' :: (['r', 'u', 'e'] ++ rest)⟩ none := begins_null.refuses rfl
    exact ⟨⟨.boolean, o, "true".toList⟩, hnull.orElse_none (boolean_gives scans_true hrest).orElse,
      fun _ ↦ rfl⟩
  | no =>
    have hnull : null.Gives m ⟨o, 'f' :: (['a', 'l', 's', 'e'] ++ rest)⟩ none :=
      begins_null.refuses rfl
    exact ⟨⟨.boolean, o, "false".toList⟩,
      hnull.orElse_none (boolean_gives scans_false hrest).orElse, fun _ ↦ rfl⟩
  | long n =>
    have hother {first : Char → Bool} {p : Parser Token} (hp : p.Begins first)
        (hminus : first '-' = false) (hdigit : ∀ d : Char, d.isDigit → first d = false) :
        p.Gives m ⟨o, intDigits n.toInt ++ rest⟩ none :=
      hp m _ (intDigits_head n.toInt hminus hdigit)
    have hmark : ∀ d : Char, d.isDigit → (d == '#') = false := isDigit_ne rfl
    have hboolean : ∀ d : Char, d.isDigit → (d == 't' || d == 'f') = false :=
      fun d hd ↦ Bool.or_eq_false_iff.mpr ⟨isDigit_ne rfl d hd, isDigit_ne rfl d hd⟩
    refine ⟨⟨.integer, o, intDigits n.toInt⟩, ?_, long_means o n⟩
    exact (hother begins_null rfl (isDigit_ne rfl)).orElse_none <|
      (hother begins_boolean rfl hboolean).orElse_none <|
      (hother begins_dateTime rfl hmark).orElse_none <|
        (hother begins_date rfl hmark).orElse_none <|
      (hother begins_time rfl hmark).orElse_none <|
      (float_none n.toInt hrest).orElse_none (integer_gives n.toInt hrest).orElse
  | @text s cs h =>
    have hother {first : Char → Bool} {p : Parser Token} (hp : p.Begins first)
        (hquote : first '"' = false) :
        p.Gives m ⟨o, '"' :: (cs ++ '"' :: rest)⟩ none :=
      hp.refuses hquote
    refine ⟨⟨.text, o, cs⟩, ?_, text_means h o⟩
    have hrow : '"' :: (cs ++ ['"']) ++ rest = '"' :: (cs ++ '"' :: rest) := by simp
    have hlength : ('"' :: (cs ++ ['"'])).length = cs.length + 2 := by simp
    rw [hrow, hlength]
    exact (hother begins_null rfl).orElse_none <| (hother begins_boolean rfl).orElse_none <|
      (hother begins_dateTime rfl).orElse_none <| (hother begins_date rfl).orElse_none <|
      (hother begins_time rfl).orElse_none <| (hother begins_float rfl).orElse_none <|
      (hother begins_integer rfl).orElse_none (text_gives h)
  | @time t cs h =>
    refine ⟨⟨.time, o, '#' :: cs⟩, scalar_gives_mark rfl ?_, time_means h o⟩
    exact (dateTime_none h).orElse_none ((date_none h).orElse_none (time_gives h hrest).orElse)
  | @date d hlow hhigh =>
    refine ⟨⟨.date, o, '#' :: d.chars⟩, scalar_gives_mark rfl ?_, date_means d o⟩
    exact (dateTime_none_of_date hlow hhigh hrest).orElse_none (date_gives hlow hhigh).orElse
  | @dateTime t cs hlow hhigh h =>
    refine ⟨⟨.dateTime, o, '#' :: (t.date.chars ++ 'T' :: cs)⟩,
      scalar_gives_mark rfl ?_, dateTime_means h o⟩
    exact (dateTime_gives hlow hhigh h hrest).orElse

end Grammar

end Language

end EntityStore
