import EntityStore.Compile.Create
import EntityStore.Mapping.Read
import EntityStore.Mapping.Write
import EntityStore.Proofs.Calendar.Chronology
import EntityStore.Proofs.Mapping.Condition
import EntityStore.Proofs.Session.Run
import EntityStore.Proofs.Store.Order
import EntityStore.Proofs.Value.Stored
import EntityStore.Proofs.Value.Typing

/-!
Columns of times, dates and date-times keep the order of time: what a filter compares and what rows
are sorted by are texts, and these follow each other as the moments do that they tell
(`Record.temporal_order`). A year that is not written in its order is the exception, as
`late_day_before` shows, and so is a leap second within a minute, which is written as the second
after it.
-/

set_option autoImplicit false

namespace EntityStore

open EntityStore.Language (Comparator)

/-! ### Texts that are no numbers -/

/-- A text that begins as a number does, goes on with a mark and ends in a digit. -/
structure Marked (cs : List Char) : Prop where
  start : ∃ sign ds m rest, cs = sign ++ (ds ++ m :: rest) ∧
    (sign = [] ∨ sign = ['-'] ∨ sign = ['+']) ∧ ds ≠ [] ∧
    (∀ c ∈ ds, c.isDigit) ∧ (m = '-' ∨ m = ':')
  last : ∃ us c, cs = us ++ [c] ∧ c.isDigit

namespace Cell

theorem isAsciiSpace_of_isDigit {c : Char} (h : c.isDigit) : isAsciiSpace c = false := by
  have hbounds := toNat_of_isDigit h
  simp only [isAsciiSpace, Bool.or_eq_false_iff, Bool.and_eq_false_iff, beq_eq_false_iff_ne,
    decide_eq_false_iff_not]
  refine ⟨?_, .inr fun hle ↦ ?_⟩
  · rintro rfl
    cases h
  · have hle : c.toNat ≤ 13 := UInt32.le_iff_toNat_le.mp hle
    omega

theorem ofNumeral?_eq_none {ds rest : List Char} {m : Char} (hne : ds ≠ [])
    (hds : ∀ c ∈ ds, c.isDigit) (hm : m = '-' ∨ m = ':') (layout : Layout) (negative : Bool) :
    Binary.ofNumeral? layout negative (ds ++ m :: rest) = none := by
  have hmark : ¬m.isDigit ∧ m ≠ '.' ∧ m ≠ 'e' ∧ m ≠ 'E' := by
    rcases hm with rfl | rfl <;> decide
  have hspan : spanDigits (ds ++ m :: rest) = (ds, m :: rest) := by
    unfold spanDigits
    rw [List.takeWhile_append_of_pos hds, List.dropWhile_append_of_pos hds,
      List.takeWhile_cons_of_neg hmark.1, List.dropWhile_cons_of_neg hmark.1, List.append_nil]
  unfold Binary.ofNumeral?
  rw [hspan]
  simp [hne, hmark]

theorem numberOf?_eq_none {cs : List Char} (h : Marked cs) :
    numberOf? (String.ofList cs) = none := by
  obtain ⟨sign, ds, m, rest, hcs, hsign, hne, hds, hm⟩ := h.start
  obtain ⟨us, c, hlast, hc⟩ := h.last
  obtain ⟨d, ds', hcons⟩ := List.exists_cons_of_ne_nil hne
  have hd : d.isDigit := hds d (by simp [hcons])
  have hfirst : cs.dropWhile isAsciiSpace = cs := by
    rw [hcs, hcons]
    have hspace : ¬isAsciiSpace d := by simp [isAsciiSpace_of_isDigit hd]
    rcases hsign with rfl | rfl | rfl
    · exact List.dropWhile_cons_of_neg hspace
    all_goals exact List.dropWhile_cons_of_neg (by decide)
  have htrimmed : ((cs.dropWhile isAsciiSpace).reverse.dropWhile isAsciiSpace).reverse = cs := by
    rw [hfirst, hlast, List.reverse_append, List.reverse_singleton, List.singleton_append,
      List.dropWhile_cons_of_neg (by simp [isAsciiSpace_of_isDigit hc])]
    simp
  have hnone (negative : Bool) : Binary.ofNumeral? .double negative (ds ++ m :: rest) = none :=
    ofNumeral?_eq_none hne hds hm .double negative
  have hdigits : (ds ++ m :: rest).all Char.isDigit = false := by
    rcases hm with rfl | rfl <;> simp
  -- a sign is taken off before the number is read, and the digits and the mark are left
  have hsigned {s : Char} {tail : List Char} (hs : s = '-' ∨ s = '+') (heq : cs = s :: tail) :
      tail = ds ++ m :: rest := by
    rw [hcs] at heq
    rcases hsign with rfl | rfl | rfl
    · rw [hcons] at heq
      obtain ⟨rfl, -⟩ := List.cons.inj heq
      rcases hs with rfl | rfl <;> cases hd
    all_goals exact (List.cons.inj heq).2.symm
  unfold numberOf?
  rw [String.toList_ofList, htrimmed]
  dsimp only
  split
  · rw [hsigned (.inl rfl) rfl, hdigits, hnone]
    rfl
  · rw [hsigned (.inr rfl) rfl, hdigits, hnone]
    rfl
  · next hminus hplus =>
    have hplain : cs = ds ++ m :: rest := by
      rcases hsign with rfl | rfl | rfl
      · exact hcs
      · exact absurd hcs (hminus _)
      · exact absurd hcs (hplus _)
    rw [hplain, hdigits, hnone]
    rfl

end Cell

/-! ### Written moments -/

theorem paddedDigits_last (width n : Nat) :
    ∃ us c, paddedDigits width n = us ++ [c] ∧ c.isDigit := by
  obtain hnil | ⟨us, c, heq⟩ := List.eq_nil_or_concat (paddedDigits width n)
  · exact absurd hnil (paddedDigits_ne_nil width n)
  · rw [List.concat_eq_append] at heq
    have hc : c ∈ paddedDigits width n := by simp [heq]
    exact ⟨us, c, heq, isDigit_of_mem_paddedDigits hc⟩

theorem append_last {vs : List Char} (h : ∃ us c, vs = us ++ [c] ∧ c.isDigit) (ws : List Char) :
    ∃ us c, ws ++ vs = us ++ [c] ∧ c.isDigit := by
  obtain ⟨us, c, rfl, hc⟩ := h
  exact ⟨ws ++ us, c, (List.append_assoc ..).symm, hc⟩

theorem TimeOfDay.chars_last (t : TimeOfDay) : ∃ us c, t.chars = us ++ [c] ∧ c.isDigit := by
  unfold chars
  rcases fractionText_cases t.writtenNano_le with ⟨-, hnone⟩ | ⟨k, m, -, -, -, -, -, hsome⟩
  · rw [hnone, List.append_nil]
    exact append_last (append_last (paddedDigits_last 2 _) [':']) _
  · rw [hsome]
    exact append_last (append_last (paddedDigits_last _ m) ['.']) _

theorem TimeOfDay.chars_marked (t : TimeOfDay) : Marked t.chars where
  start :=
    ⟨[], paddedDigits 2 t.hour, ':', _, by simp [chars]; rfl, .inl rfl, paddedDigits_ne_nil _ _,
    fun _ ↦ isDigit_of_mem_paddedDigits, .inr rfl⟩
  last := t.chars_last

/-- A year is a number, and the mark after it shows that a date is none. -/
theorem Date.chars_start (d : Date) (us : List Char) :
    ∃ sign ds m rest, d.chars ++ us = sign ++ (ds ++ m :: rest) ∧
    (sign = [] ∨ sign = ['-'] ∨ sign = ['+']) ∧ ds ≠ [] ∧ (∀ c ∈ ds, c.isDigit) ∧
    (m = '-' ∨ m = ':') := by
  have hdigits {n : Nat} : ∀ c ∈ paddedDigits 4 n, c.isDigit := fun _ ↦ isDigit_of_mem_paddedDigits
  by_cases hplain : 0 ≤ d.year ∧ d.year ≤ 9999
  · exact ⟨[], paddedDigits 4 d.year.toNat, '-', _, by
      simp [chars, yearText, hplain]; rfl, .inl rfl,
      paddedDigits_ne_nil _ _, hdigits, .inl rfl⟩
  · refine ⟨[if d.year < 0 then '-' else '+'], paddedDigits 4 d.year.natAbs, '-', _,
      by simp [chars, yearText, hplain]; rfl, ?_, paddedDigits_ne_nil _ _, hdigits, .inl rfl⟩
    split <;> simp

theorem Date.chars_marked (d : Date) : Marked d.chars where
  start := by simpa using d.chars_start []
  last := append_last (append_last (paddedDigits_last 2 d.day) ['-']) _

theorem DateTime.chars_marked (t : DateTime) : Marked (t.chars ' ') where
  start := t.date.chars_start _
  last := append_last (append_last t.time.chars_last [' ']) _

/-! ### Temporal values -/

namespace FieldType

def isTemporal : FieldType → Bool
  | .time | .date | .dateTime => true
  | _ => false

end FieldType

namespace Value

/-- Which of two times, dates or date-times is the earlier one. -/
def chronology? : Value → Value → Option Ordering
  | .time t, .time u => some (t.order u)
  | .date d, .date e => some (d.order e)
  | .dateTime t, .dateTime u => some (t.order u)
  | _, _ => none

def year? : Value → Option Int
  | .date d => some d.year
  | .dateTime t => some t.date.year
  | _ => none

/-- Values whose years, if they have any, are written in their order. -/
def Aligned (v w : Value) : Prop :=
  ∀ y ∈ v.year?, ∀ z ∈ w.year?, Calendar.Aligned y z

variable {f : FieldType} {v w : Value}

/-- The cell of a temporal value is a text that no column takes for a number. -/
theorem cell_temporal (hf : f.isTemporal) (hv : v.type? = some f) :
    ∃ cs, v.cell = .text (String.ofList cs) ∧ Marked cs ∧ f.column v = v := by
  cases v with
  | time t =>
    cases hv
    exact ⟨_, rfl, t.chars_marked, rfl⟩
  | date d =>
    cases hv
    exact ⟨_, rfl, d.chars_marked, rfl⟩
  | dateTime t =>
    cases hv
    exact ⟨_, rfl, t.chars_marked, rfl⟩
  | _ => cases hv <;> cases hf

theorem stored_temporal (hf : f.isTemporal) (hv : v.type? = some f) (a : Affinity) :
    (f.column v).cell.stored a = v.cell := by
  obtain ⟨cs, hcell, hmarked, hcolumn⟩ := cell_temporal hf hv
  rw [hcolumn, hcell]
  cases a <;> simp [Cell.stored, Cell.numberOf?_eq_none hmarked]

theorem compared_temporal (hf : f.isTemporal) (hv : v.type? = some f) (a : Affinity) :
    v.cell.compared a = v.cell := by
  obtain ⟨cs, hcell, hmarked, -⟩ := cell_temporal hf hv
  rw [hcell]
  cases a <;> simp [Cell.compared, Cell.numberOf?_eq_none hmarked]

/-- The cells of temporal values are ordered as the moments that are read back from them. -/
theorem order_temporal (hf : f.isTemporal) (hv : v.type? = some f)
    (hw : w.type? = some f) (h : v.Aligned w) :
    ∃ o, v.readBack.chronology? w.readBack = some o ∧ v.cell.order w.cell = o := by
  cases v with
  | time t =>
    cases hv
    cases w <;> cases hw
    exact ⟨_, rfl, (compare_ofList ..).trans (TimeOfDay.compare_chars ..)⟩
  | date d =>
    cases hv
    cases w <;> cases hw
    exact ⟨_, rfl, (compare_ofList ..).trans (Date.compare_chars (h _ rfl _ rfl))⟩
  | dateTime t =>
    cases hv
    cases w <;> cases hw
    exact ⟨_, rfl, (compare_ofList ..).trans (DateTime.compare_chars (h _ rfl _ rfl) ' ')⟩
  | _ => cases hv <;> cases hf

end Value

namespace Record

variable {f : FieldType} {v w : Value} {name : String} {a b : Record}

/-- A row holds a value in the column of a field. -/
def HoldsValue (f : FieldType) (name : String) (v : Value) (a : Record) : Prop :=
  a.cell name = (f.column v).cell.stored (a.table.affinityOf name)

instance (f : FieldType) (name : String) (v : Value) (a : Record) :
    Decidable (a.HoldsValue f name v) :=
  inferInstanceAs (Decidable (_ = _))

/-- Filters and sorting go by time: of a row that holds a temporal value the condition that compares
the column with another one holds exactly if the moments stand so to each other, and beside a row
that holds the other value it is sorted as the moments follow each other. The moments are those that
the values tell, but that a leap second within a minute counts as the second after it, as which it
is written and read back. -/
theorem temporal_order (hf : f.isTemporal) (hv : v.type? = some f) (hw : w.type? = some f)
    (haligned : v.Aligned w) (ha : a.HoldsValue f name v) :
    ∃ o, v.readBack.chronology? w.readBack = some o ∧
      (v.Regular → w.Regular → v.chronology? w = some o) ∧
      (∀ (op : Comparison) (label : String) (store : Store) (env : Env),
        env.place? label = some (a.place label) →
        ∃ c, Mapping.comparison (.column label name) name (.compare op) w = .ok c ∧
          (c.test store).holds env = op.holds o) ∧
      ∀ b : Record, b.HoldsValue f name w → ∀ term : OrderTerm,
        Select.compareTerm term (a.cell name) (b.cell name) =
          if term.direction = some .descending then o.swap else o := by
  obtain ⟨o, hchronology, horder⟩ := Value.order_temporal hf hv hw haligned
  have hcell (v : Value) (hv : v.type? = some f) (a : Record) (ha : a.HoldsValue f name v) :
      a.cell name = v.cell :=
    ha.trans (Value.stored_temporal hf hv _)
  refine ⟨o, hchronology, fun hregular hregular' ↦ ?_, fun op label store env henv ↦ ?_,
    fun b hb term ↦ ?_⟩
  · rwa [v.readBack_eq_iff.mpr hregular, w.readBack_eq_iff.mpr hregular'] at hchronology
  · obtain ⟨c, hc⟩ : ∃ c, Mapping.comparison (.column label name) name (.compare op) w = .ok c :=
      Mapping.comparison_ok _ _ nofun
    refine ⟨c, hc, ?_⟩
    have hcompare : (a.cell name).compare? (w.cell.compared (a.table.affinityOf name)) =
        some o := by
      obtain ⟨cs, hvcell, -⟩ := Value.cell_temporal hf hv
      obtain ⟨ds, hwcell, -⟩ := Value.cell_temporal hf hw
      rw [hcell v hv a ha, Value.compared_temporal hf hw, ← horder, hvcell, hwcell]
      rfl
    have hsatisfies : a.satisfies name (.compare op) w = a.compares name op w.cell := by
      unfold satisfies
      split <;> simp_all [Value.type?]
    rw [Mapping.comparison_holds hc henv, hsatisfies, compares, hcompare, Option.any_some]
  · rw [hcell v hv a ha, hcell w hw b hb, Select.compareTerm, ← horder]
    split
    · next hdescending =>
      rw [if_pos hdescending]
      exact Std.OrientedCmp.eq_swap
    · next hascending => rw [if_neg hascending]

-- A leap second within a minute is written as the second after it: half of the one after 12:34:05
-- is before 12:34:06.2, and its cell after that of the latter.
example :
    have v : Value := .time ⟨12, 34, 5, 1500000000, rfl⟩
    have w : Value := .time ⟨12, 34, 6, 200000000, rfl⟩
    v.chronology? w = some .lt ∧ v.cell.order w.cell = .gt := by
  decide +kernel

/-- Two moments of one leap second. -/
def leapTable : Table :=
  ⟨"Log", some "@id", [⟨"at", .text, true⟩], [], [],
    [⟨1, [("at", .text "2016-12-31 23:59:60.500")]⟩,
    ⟨2, [("at", .text "2016-12-31 23:59:60.500001")]⟩], 2⟩

def leapSecond (nano : Nat) (h : Calendar.isClock 23 59 59 nano = true) : DateTime :=
  ⟨⟨2016, 12, 31, rfl⟩, ⟨23, 59, 59, nano, h⟩⟩

theorem temporal_order_of_leap_second :
    have v : Value := .dateTime (leapSecond 1500000000 rfl)
    have w : Value := .dateTime (leapSecond 1500001000 rfl)
    have a : Record := ⟨leapTable, ⟨1, [("at", .text "2016-12-31 23:59:60.500")]⟩⟩
    have b : Record := ⟨leapTable, ⟨2, [("at", .text "2016-12-31 23:59:60.500001")]⟩⟩
    v.chronology? w = some .lt ∧
      (∃ c, Mapping.comparison (.column "t" "at") "at" (.compare .lt) w = .ok c ∧
      (c.test ⟨true, [leapTable]⟩).holds [a.place "t"] = true) ∧
      Select.compareTerm ⟨.column "t" "at", some .descending⟩ (a.cell "at")
        (b.cell "at") = .gt := by
  intro v w a b
  have haligned : v.Aligned w := by
    rintro y ⟨⟩ z ⟨⟩
    exact .inl rfl
  have ha : a.HoldsValue .dateTime "at" v := by decide
  have hb : b.HoldsValue .dateTime "at" w := by decide
  obtain ⟨o, -, hexact, hfilter, hsort⟩ := temporal_order (f := .dateTime) rfl rfl rfl haligned ha
  have ho := hexact (.inr rfl) (.inr rfl)
  have hchronology : v.chronology? w = some .lt := by decide
  obtain rfl := Option.some.inj (ho.symm.trans hchronology)
  exact ⟨ho, hfilter .lt "t" _ [a.place "t"] (Env.place?_head a "t" []), hsort b hb _⟩

end Record

namespace Mapping

/-- Logs with a day. -/
def dayCalls : List Schema.Call :=
  [.addEntity "Log" .master, .addProperty "Log" (.field "day" (.ofType .date)), .commit]

def dayForm : Language.CreateForm Value :=
  ⟨"Log", [("day", .param "day")]⟩

/-- The logs before the year 2020. -/
def beforeForm : Language.QueryForm Value Int64 :=
  ⟨"Log", some (.predicate ["day"] (.compare .lt) (.literal (.date ⟨2020, 1, 1, rfl⟩))), none, none,
    [.field "day" none]⟩

/-- A year of more than four digits has a sign, and so a log of the year 10000 is found before the
year 2020. -/
theorem late_day_before : ∃ c t t' q rows,
    (Schema.empty.after dayCalls).compileCreate dayForm
      [("day", .value (.date ⟨10000, 1, 1, rfl⟩))] .empty = .ok c ∧
      (bootstrap (Schema.empty.after dayCalls)).run (.start true) = (.ok (), t) ∧
      (execute (Schema.empty.after dayCalls) c.instructions).run ⟨t.store, c.slots,
        t.log⟩ = (.ok (), t') ∧
      (Schema.empty.after dayCalls).compileQuery beforeForm = .ok q ∧
      (read t'.store [] q.tree).1 = .ok rows ∧ rows.length = 1 ∧
      (Value.date ⟨10000, 1, 1, rfl⟩).chronology? (.date ⟨2020, 1, 1, rfl⟩) = some .gt := by
  have hok :
      ((Schema.empty.after dayCalls).compileCreate dayForm
          [("day", .value (.date ⟨10000, 1, 1, rfl⟩))] .empty).toOption.any fun c ↦
        have t := (bootstrap (Schema.empty.after dayCalls)).run (.start true)
        have r :=
          (execute (Schema.empty.after dayCalls) c.instructions).run ⟨t.2.store, c.slots, t.2.log⟩
        t.1.isOk && (r.1.isOk &&
          ((Schema.empty.after dayCalls).compileQuery beforeForm).toOption.any fun q ↦
            (read r.2.store [] q.tree).1.toOption.any fun rows ↦ rows.length == 1) := by
    decide +kernel
  obtain ⟨c, hc, hok⟩ := (Option.any_eq_true _ _).mp hok
  obtain ⟨hboot, hok⟩ := Bool.and_eq_true_iff.mp hok
  obtain ⟨hrun, hok⟩ := Bool.and_eq_true_iff.mp hok
  obtain ⟨q, hq, hok⟩ := (Option.any_eq_true _ _).mp hok
  obtain ⟨rows, hrows, hlength⟩ := (Option.any_eq_true _ _).mp hok
  obtain ⟨⟨⟩, hboot⟩ := Except.isOk_iff.mp hboot
  obtain ⟨⟨⟩, hrun⟩ := Except.isOk_iff.mp hrun
  exact ⟨c, _, _, q, rows, Except.toOption_eq_some_iff.mp hc,
    Run.run_eq_ok hboot, Run.run_eq_ok hrun, Except.toOption_eq_some_iff.mp hq,
    Except.toOption_eq_some_iff.mp hrows, eq_of_beq hlength, rfl⟩

end Mapping

end EntityStore
