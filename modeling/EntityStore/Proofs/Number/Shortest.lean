import EntityStore.Number.Decimal
import EntityStore.Proofs.Number.Digits
import EntityStore.Proofs.Number.Rounding
import Mathlib.Data.Nat.Cast.Order.Field

/-!
The fewest digits that read back as a value: they are few, they stand for a number that is not
greater than those that round to the value, and they do not pass the value by more than one in the
last place (`Decimal.shortest_near`).
-/

set_option autoImplicit false

namespace EntityStore

namespace Decimal

/-- The number that a decimal stands for. -/
def value (d : Decimal) : ℚ :=
  d.coefficient * 10 ^ d.exponent

/-- The power of ten of the first digit: it is not too small, and not smaller than the length of the
denominator tells. -/
theorem leadingExponent_spec {n d : Nat} (hd : d ≠ 0) :
    (n : ℚ) / d < 10 ^ (leadingExponent n d + 1) ∧ -((natDigits d).length : Int) ≤
      leadingExponent n d := by
  obtain ⟨hpos, hscale⟩ := scaleTen_eq d ((natDigits n).length - (natDigits d).length)
  have hdpos : (0 : ℚ) < d := by exact_mod_cast Nat.pos_of_ne_zero hd
  have hposℚ : (0 : ℚ) < (scaleTen d ((natDigits n).length - (natDigits d).length)).2 := by
    exact_mod_cast hpos
  have hlength : 0 < (natDigits d).length := Nat.length_toDigits_pos
  have hlength' : 0 < (natDigits n).length := Nat.length_toDigits_pos
  have hlead : leadingExponent n d =
      if n * (scaleTen d ((natDigits n).length - (natDigits d).length)).2 ≥
          (scaleTen d ((natDigits n).length - (natDigits d).length)).1
        then ((natDigits n).length : Int) - (natDigits d).length
        else (natDigits n).length - (natDigits d).length - 1 := rfl
  rw [hlead]
  split
  · refine ⟨?_, by omega⟩
    have hn : (n : ℚ) < 10 ^ (natDigits n).length := by exact_mod_cast lt_pow_length_natDigits n
    have hd : (10 : ℚ) ^ ((natDigits d).length - 1) ≤ d := by
      exact_mod_cast pow_length_natDigits_le hd
    have hexponent : ((natDigits n).length : Int) - (natDigits d).length + 1 =
        (natDigits n).length - ((natDigits d).length - 1 : Nat) := by omega
    rw [hexponent, zpow_sub₀ (by norm_num), zpow_natCast, zpow_natCast,
      div_lt_div_iff₀ hdpos (by positivity)]
    exact mul_lt_mul hn hd (by positivity) (by positivity)
  · next hlt =>
    refine ⟨?_, by omega⟩
    rw [ge_iff_le, not_le, ← @Nat.cast_lt ℚ, Nat.cast_mul, ← lt_div_iff₀ hposℚ, hscale] at hlt
    rwa [sub_add_cancel, div_lt_iff₀ hdpos, mul_comm]

/-! ### Points of a grid -/

variable {layout : Layout} {tie : Tie} {m : Nat} {q step : Int} {d : Decimal}

/-- The whole steps in a value, before the one that may be added. -/
def steps (m : Nat) (q step : Int) : Nat :=
  4 * (scaleTwo m (q - 2)).1 * (scaleTen 1 step).2 / ((scaleTwo m (q - 2)).2 * (scaleTen 1 step).1)

theorem steps_le (m : Nat) (q step : Int) : (steps m q step : ℚ) ≤ m * 2 ^ q / 10 ^ step := by
  obtain ⟨-, hscale⟩ := scaleTwo_eq m (q - 2)
  obtain ⟨-, hstep⟩ := scaleTen_eq 1 step
  refine Nat.cast_div_le.trans (le_of_eq ?_)
  rw [Nat.cast_one, one_mul] at hstep
  rw [Nat.cast_mul, Nat.cast_mul, Nat.cast_mul, mul_div_mul_comm, mul_div_assoc,
    hscale, ← inv_div, hstep, zpow_sub₀ two_ne_zero, show (2 : ℚ) ^ (2 : ℤ) = 4 by norm_num]
  ring

/-- The two points next to a value, in the order in which they are tried. -/
def tried (m : Nat) (q step : Int) (up : Bool) : Nat × Nat :=
  if up then (steps m q step + 1, steps m q step) else (steps m q step, steps m q step + 1)

/-- A number of steps rounds to the value. -/
def rounds (layout : Layout) (m : Nat) (q step : Int) (c : Nat) : Bool :=
  let (low, high, closed) := roundingInterval layout m q
  let left := c * (scaleTen 1 step).1 * (scaleTwo 1 (q - 2)).2
  let right := (scaleTen 1 step).2 * (scaleTwo 1 (q - 2)).1
  if closed then low * right ≤ left && left ≤ high * right
  else low * right < left && left < high * right

theorem onGrid_eq_some (h : onGrid layout tie m q step = some d) :
    ∃ c, (c = steps m q step ∨ c = steps m q step + 1) ∧ c ≠ 0 ∧
    rounds layout m q step c ∧ d = ⟨c, step⟩ := by
  obtain ⟨up, hgrid⟩ : ∃ up : Bool, onGrid layout tie m q step =
      if (tried m q step up).1 ≠ 0 && rounds layout m q step (tried m q step up).1 then
        some ⟨(tried m q step up).1, step⟩
      else if (tried m q step up).2 ≠ 0 && rounds layout m q step (tried m q step up).2 then
        some ⟨(tried m q step up).2, step⟩
      else none := ⟨_, rfl⟩
  -- which of the two is tried first does not matter
  have hpair : ((tried m q step up).1 = steps m q step ∨
        (tried m q step up).1 = steps m q step + 1) ∧
      ((tried m q step up).2 = steps m q step ∨ (tried m q step up).2 = steps m q step + 1) := by
    cases up with
    | true => exact ⟨.inr rfl, .inl rfl⟩
    | false => exact ⟨.inl rfl, .inr rfl⟩
  rw [hgrid] at h
  split at h
  · next hfirst =>
    obtain ⟨hzero, hrounds⟩ := Bool.and_eq_true_iff.mp hfirst
    exact ⟨_, hpair.1, of_decide_eq_true hzero, hrounds, (Option.some.inj h).symm⟩
  · split at h
    · next hsecond =>
      obtain ⟨hzero, hrounds⟩ := Bool.and_eq_true_iff.mp hsecond
      exact ⟨_, hpair.2, of_decide_eq_true hzero, hrounds, (Option.some.inj h).symm⟩
    · cases h

/-- What rounds to a value is not more than half a unit above it. -/
theorem le_of_rounds {c : Nat} (h : rounds layout m q step c) :
    (c : ℚ) * 10 ^ step ≤ (m + 1 / 2) * 2 ^ q := by
  obtain ⟨hquarter, hquarters⟩ := scaleTwo_eq 1 (q - 2)
  obtain ⟨hstep, hsteps⟩ := scaleTen_eq 1 step
  have hle : c * (scaleTen 1 step).1 * (scaleTwo 1 (q - 2)).2 ≤
      (4 * m + 2) * ((scaleTen 1 step).2 * (scaleTwo 1 (q - 2)).1) := by
    unfold rounds roundingInterval at h
    dsimp only at h
    split at h
    · exact of_decide_eq_true (Bool.and_eq_true_iff.mp h).2
    · exact (of_decide_eq_true (Bool.and_eq_true_iff.mp h).2).le
  have hquarter : (0 : ℚ) < (scaleTwo 1 (q - 2)).2 := by exact_mod_cast hquarter
  have hstep : (0 : ℚ) < (scaleTen 1 step).2 := by exact_mod_cast hstep
  rw [Nat.cast_one, one_mul, div_eq_iff hquarter.ne'] at hquarters
  rw [Nat.cast_one, one_mul, div_eq_iff hstep.ne'] at hsteps
  have hleℚ : (c : ℚ) * (scaleTen 1 step).1 * (scaleTwo 1 (q - 2)).2 ≤
      (4 * m + 2) * ((scaleTen 1 step).2 * (scaleTwo 1 (q - 2)).1) := by exact_mod_cast hle
  rw [hsteps, hquarters, zpow_sub₀ two_ne_zero, show (2 : ℚ) ^ (2 : ℤ) = 4 by norm_num] at hleℚ
  refine le_of_mul_le_mul_right ?_ (mul_pos hstep hquarter)
  linarith

/-! ### The fewest digits -/

/-- A decimal of few digits and not too small a power of ten, at most a first bound and at most one
in its last place above a second one. -/
structure Near (high low : ℚ) (d : Decimal) : Prop where
  positive : d.coefficient ≠ 0
  short : d.coefficient ≤ 10 ^ 18
  least : -400 ≤ d.exponent
  below : d.value ≤ high
  above : d.value ≤ low + 10 ^ d.exponent

variable {high low : ℚ}

theorem onGrid_near {lead : Int} {k : Nat} (hhigh : (m + 1 / 2) * 2 ^ q ≤ high)
    (hlow : m * 2 ^ q ≤ low) (hless : (m : ℚ) * 2 ^ q < 10 ^ (lead + 1))
    (hlead : -380 ≤ lead) (hk : k ≤ 18) (h : onGrid layout tie m q (lead + 1 - k) = some d) :
    d.Near high low := by
  obtain ⟨c, hc, hzero, hrounds, rfl⟩ := onGrid_eq_some h
  have hpos : (0 : ℚ) < 10 ^ (lead + 1 - k) := by positivity
  have hle : (c : ℚ) ≤ steps m q (lead + 1 - k) + 1 := by
    rcases hc with rfl | rfl
    · exact le_add_of_nonneg_right zero_le_one
    · rw [Nat.cast_add, Nat.cast_one]
  have hsteps := steps_le m q (lead + 1 - k)
  refine ⟨hzero, ?_, show -400 ≤ lead + 1 - k by omega, (le_of_rounds hrounds).trans hhigh, ?_⟩
  · -- the whole steps are fewer than `10^k`
    have hless : (steps m q (lead + 1 - k) : ℚ) < ((10 ^ k : Nat) : ℚ) := by
      refine hsteps.trans_lt ?_
      rw [div_lt_iff₀ hpos, Nat.cast_pow, Nat.cast_ofNat, ← zpow_natCast, ← zpow_add₀ (by norm_num)]
      simpa using hless
    have hless : steps m q (lead + 1 - k) < 10 ^ k := by exact_mod_cast hless
    have hmost : 10 ^ k ≤ 10 ^ 18 := Nat.pow_le_pow_right (by decide) hk
    dsimp only
    omega
  · calc
      (c : ℚ) * 10 ^ (lead + 1 - k) ≤ (steps m q (lead + 1 - k) + 1) * 10 ^ (lead + 1 - k) := by
        gcongr
      _ ≤ (m * 2 ^ q / 10 ^ (lead + 1 - k) + 1) * 10 ^ (lead + 1 - k) := by gcongr
      _ = m * 2 ^ q + 10 ^ (lead + 1 - k) := by rw [add_mul, one_mul, div_mul_cancel₀ _ hpos.ne']
      _ ≤ low + 10 ^ (lead + 1 - k) := by gcongr

/-- What is found on the grids of up to 18 digits is near, and so is the mantissa itself. -/
theorem firstOnGrid_near {lead : Int} (hhigh : (m + 1 / 2) * 2 ^ q ≤ high) (hlow : m * 2 ^ q ≤ low)
    (hless : (m : ℚ) * 2 ^ q < 10 ^ (lead + 1)) (hlead : -380 ≤ lead)
    (hmantissa : Near high low ⟨m, 0⟩) {more digits : Nat} (h : digits + more ≤ 18) :
    (firstOnGrid layout tie m q lead more digits).Near high low := by
  induction more generalizing digits with
  | zero =>
    unfold firstOnGrid
    cases hgrid : onGrid layout tie m q (lead + 1 - digits) with
    | none => exact hmantissa
    | some d => exact onGrid_near hhigh hlow hless hlead h hgrid
  | succ more ih =>
    unfold firstOnGrid
    cases hgrid : onGrid layout tie m q (lead + 1 - digits) with
    | none => exact ih (by omega)
    | some d => exact onGrid_near hhigh hlow hless hlead (by omega) hgrid

theorem trim_value_le (d : Decimal) : d.trim.value ≤ d.value := by
  unfold trim
  dsimp only
  split
  · unfold value
    rw [Nat.cast_zero, zero_mul]
    positivity
  · unfold value
    dsimp only
    rw [zpow_add₀ (by norm_num), zpow_natCast, mul_comm ((10 : ℚ) ^ d.exponent), ← mul_assoc]
    gcongr
    exact_mod_cast Nat.div_mul_le_self _ _

theorem Near.trim (h : d.Near high low) : d.trim.Near high low := by
  have hvalue := trim_value_le d
  have hzeros := trailing_zeros_le h.positive
  obtain ⟨hcoefficient, hexponent⟩ : d.trim.coefficient =
      d.coefficient / Nat.pow 10 ((natDigits d.coefficient).reverse.takeWhile (· == '0')).length ∧
        d.exponent ≤ d.trim.exponent := by
    unfold Decimal.trim
    dsimp only
    rw [if_neg h.positive]
    exact ⟨rfl, by dsimp only; omega⟩
  refine ⟨?_, ?_, h.least.trans hexponent, hvalue.trans h.below, (hvalue.trans h.above).trans ?_⟩
  · rw [hcoefficient]
    exact (Nat.div_pos hzeros (Nat.pow_pos (by decide))).ne'
  · rw [hcoefficient]
    exact (Nat.div_le_self _ _).trans h.short
  · gcongr
    norm_num

/-- The fewest digits that read back as a value are near it. -/
theorem shortest_near (hm : m ≠ 0) (hshort : m ≤ 10 ^ 18) (hq : -1074 ≤ q)
    (hhigh : (m + 1 / 2) * 2 ^ q ≤ high) (hlow : m * 2 ^ q ≤ low) (hmhigh : m ≤ high)
    (hmlow : m ≤ low) : (shortest layout tie m q).Near high low := by
  obtain ⟨hpos, hscale⟩ := scaleTwo_eq m q
  obtain ⟨hless, hlead⟩ := leadingExponent_spec (n := (scaleTwo m q).1) hpos.ne'
  have hlength : (natDigits (scaleTwo m q).2).length ≤ 358 := by
    unfold scaleTwo
    split
    · exact length_natDigits_two_pow_le (by omega) (by decide)
    · exact show (natDigits 1).length ≤ 358 by decide
  rw [hscale] at hless
  have hmantissa : Near high low ⟨m, 0⟩ := by
    refine ⟨hm, hshort, show -400 ≤ (0 : Int) by decide, ?_, ?_⟩
    · simpa [value] using hmhigh
    · simpa [value] using hmlow.trans (le_add_of_nonneg_right zero_le_one)
  unfold shortest
  rw [if_neg hm]
  exact (firstOnGrid_near hhigh hlow hless (by omega) hmantissa (by decide)).trim

end Decimal

end EntityStore
