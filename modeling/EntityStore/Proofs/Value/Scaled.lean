import EntityStore.Proofs.Number.Shortest
import EntityStore.Value.Reader

/-!
Scaling a significand by a power of ten does not leave the finite numbers, where both are those of
the fewest digits of a finite number (`Decimal.scales_shortest`).
-/

set_option autoImplicit false

namespace EntityStore

/-- Units of a power of two that is a whole number. -/
def wholeUnits (m k : Nat) : Nat :=
  m * Nat.pow 2 k

theorem cast_wholeUnits (m k : Nat) : (wholeUnits m k : ℚ) = m * 2 ^ (k : Int) := by
  unfold wholeUnits
  rw [Nat.cast_mul, Nat.pow_eq, Nat.cast_pow, Nat.cast_ofNat, zpow_natCast]

theorem Layout.hasSize_wholeUnits {layout : Layout} {m k : Nat} (hm : m < layout.carry)
    (hlow : layout.lowest ≤ 0) (hhigh : k ≤ layout.highest) : layout.HasSize (wholeUnits m k) :=
  ⟨m, k, cast_wholeUnits m k, hm, hlow.trans (Int.natCast_nonneg k), hhigh⟩

/-- The greatest value of a format. -/
def Layout.greatest (layout : Layout) : Nat :=
  wholeUnits (layout.carry - 1) layout.highest.toNat

theorem Layout.hasSize_greatest {layout : Layout} (hlow : layout.lowest ≤ 0)
    (hhigh : 0 ≤ layout.highest) :
    layout.HasSize layout.greatest :=
  hasSize_wholeUnits (Nat.sub_lt (Nat.pow_pos (by decide)) (by decide)) hlow
    (Int.toNat_of_nonneg hhigh).le

/-- The size of a whole number. -/
theorem Binary.ofInt_below {layout : Layout} {n : Nat} {b : ℚ}
    (hb : layout.HasSize b) (h : (n : ℚ) ≤ b) :
    (Binary.ofInt layout n).Below b := by
  refine ofRatio_below hb one_ne_zero ?_ _
  rw [Int.natAbs_natCast, Nat.cast_one, div_one]
  exact h

namespace Stored

open Binary (ofDecimal ofInt)

variable {x : Binary} {b : ℚ} {n k : Nat}

/-! ### Powers of ten -/

/-- Half a unit above the values that lie below the greatest one. -/
def halfAbove : Nat :=
  wholeUnits (2 * Layout.double.carry - 3) 970

/-- The greatest value but one. -/
def lastBut : Nat :=
  wholeUnits (Layout.double.carry - 2) 971

/-- The greatest coefficient that the fewest digits of a finite number have before a power of
ten. -/
def mostBefore (k : Nat) : Nat :=
  min (10 ^ 18) (min (halfAbove / Nat.pow 10 k) (lastBut / Nat.pow 10 k + 1))

/-- The unit that a coefficient before a power of ten is counted in, and the most units that there
are. -/
def unitBefore (k : Nat) : Nat :=
  (mostBefore k).log2 - 52

def unitsBefore (k : Nat) : Nat :=
  (mostBefore k + (Nat.pow 2 (unitBefore k) - 1)) / Nat.pow 2 (unitBefore k)

theorem mostBefore_le (k : Nat) : mostBefore k ≤ wholeUnits (unitsBefore k) (unitBefore k) := by
  have hpos : 0 < 2 ^ unitBefore k := Nat.pow_pos (by decide)
  have hmod := Nat.div_add_mod (mostBefore k + (2 ^ unitBefore k - 1)) (2 ^ unitBefore k)
  have hless := Nat.mod_lt (mostBefore k + (2 ^ unitBefore k - 1)) hpos
  change mostBefore k ≤ (mostBefore k + (2 ^ unitBefore k - 1)) / 2 ^ unitBefore
    k * 2 ^ unitBefore k
  rw [Nat.mul_comm]
  omega

/-- A power of ten is held with a full mantissa, and times the greatest coefficient before it,
rounded up to a value, it does not pass the greatest value. -/
def staysFinite (k : Nat) : Bool :=
  match ofDecimal .double false 1 k with
  | .finite _ m q =>
    2 ^ 52 ≤ m && -52 ≤ q && (unitsBefore k < Layout.double.carry && unitBefore k ≤ 971 &&
      wholeUnits (unitsBefore k) (unitBefore k) * wholeUnits m
        (q + 52).toNat ≤ Layout.double.greatest * 2 ^ 52)
  | _ => false

theorem staysFinite_all : ∀ k : Nat, k < 309 → staysFinite k := by decide +kernel

theorem power_spec (hk : k < 309) : ∃ s m q, ofDecimal .double false 1 k = .finite s m q ∧
    (1 : ℚ) ≤ m * 2 ^ q ∧ Layout.double.HasSize (wholeUnits (unitsBefore k) (unitBefore k)) ∧
      (wholeUnits (unitsBefore k) (unitBefore k) : ℚ) * (m * 2 ^ q) ≤ Layout.double.greatest := by
  have hstays := staysFinite_all k hk
  unfold staysFinite at hstays
  split at hstays
  · next s m q heq =>
    simp only [Bool.and_eq_true, decide_eq_true_iff] at hstays
    obtain ⟨⟨hm, hq⟩, ⟨hunits, hunit⟩, hle⟩ := hstays
    have hm : (2 ^ 52 : ℚ) ≤ m := by exact_mod_cast hm
    refine ⟨s, m, q, heq, ?_, Layout.hasSize_wholeUnits hunits (by decide) (Int.ofNat_le.mpr hunit),
      ?_⟩
    · calc (1 : ℚ) = 2 ^ 52 * 2 ^ (-52 : Int) := by norm_num
        _ ≤ m * 2 ^ q :=
          mul_le_mul hm (zpow_le_zpow_right₀ one_le_two hq) (by positivity) (by positivity)
    · have hback : q = ((q + 52).toNat : Int) - (52 : Nat) := by omega
      generalize Layout.double.greatest = g at hle
      have hle : (wholeUnits (unitsBefore k) (unitBefore k) : ℚ) *
          (wholeUnits m (q + 52).toNat) ≤ g * 2 ^ 52 := by
        exact_mod_cast hle
      rw [hback, zpow_sub₀ two_ne_zero, zpow_natCast (2 : ℚ) 52, mul_div_assoc', mul_div_assoc',
        div_le_iff₀ (by positivity), ← cast_wholeUnits]
      exact hle
  · cases hstays

/-- A coefficient that is not too great before a power of ten, times the power, is finite. -/
theorem mul_power_finite (hk : k < 309) (hn : n ≤ mostBefore k) :
    ((ofInt .double n).mul .double (ofDecimal .double false 1 k)).isFinite := by
  obtain ⟨s, m, q, heq, -, hsize, hle⟩ := power_spec hk
  have hx : (ofInt .double n).Below (wholeUnits (unitsBefore k) (unitBefore k)) :=
    Binary.ofInt_below hsize (Nat.cast_le.mpr (hn.trans (mostBefore_le k)))
  rw [heq]
  exact (Binary.mul_below hx ⟨s, m, q, rfl, le_refl _⟩
    (Layout.hasSize_greatest (by decide) (by decide)) hle).isFinite

/-- Dividing by a power of ten does not make a number greater. -/
theorem div_power_below (hx : x.Below b) (hb : Layout.double.HasSize b) (hk : k < 309) :
    (x.div .double (ofDecimal .double false 1 k)).Below b := by
  obtain ⟨s, m, q, heq, hone, -⟩ := power_spec hk
  rw [heq]
  exact Binary.div_below hx hb hone

/-- Scaling by a negative power of ten answers. -/
theorem scaled_neg (hx : x.Below b) (hb : Layout.double.HasSize b) {e : Int} (he : e < 0) :
    ∃ y, scaled x k e = some y := by
  induction k generalizing x e with
  | zero => exact ⟨x, rfl⟩
  | succ k ih =>
    unfold scaled
    split
    · exact ⟨x, rfl⟩
    · split
      · next hk =>
        have hfinite := (div_power_below hx hb (Nat.lt_succ_of_le hk)).isFinite
        dsimp only
        rw [if_neg (show ¬e ≥ 0 by omega), if_pos hfinite]
        exact ⟨_, rfl⟩
      · rw [if_neg (show ¬e ≥ 0 by omega)]
        exact ih (div_power_below (k := 308) hx hb (by decide)) (by omega)

/-- A word is scaled by a negative power of ten. -/
theorem scaled_word (hn : n < UInt64.size) {e : Int} (he : e < 0) :
    ∃ y, scaled (ofInt .double n) k e = some y := by
  have hsize : Layout.double.HasSize (wholeUnits 1 64) :=
    Layout.hasSize_wholeUnits (by decide) (by decide) (by decide)
  exact scaled_neg (Binary.ofInt_below hsize (Nat.cast_le.mpr (hn.le.trans (by decide)))) hsize he

end Stored

namespace Decimal

open Stored

/-- Digits that are read and scaled without passing the greatest value. -/
structure Scales (d : Decimal) : Prop where
  zero : d.coefficient = 0 → d.exponent = 0
  short : d.coefficient ≤ 10 ^ 18
  least : -400 ≤ d.exponent
  most : d.exponent ≤ 308
  finite : 0 ≤ d.exponent → ((Binary.ofInt .double d.coefficient).mul .double
    (Binary.ofDecimal .double false 1 d.exponent.natAbs)).isFinite

variable {d : Decimal}

/-- A power of ten that is a whole number, and what stands before it. -/
theorem value_natCast {k : Nat} (h : d.exponent = k) :
    d.value = (d.coefficient * Nat.pow 10 k : Nat) := by
  unfold value
  rw [h, zpow_natCast, Nat.cast_mul, Nat.pow_eq, Nat.cast_pow, Nat.cast_ofNat]

theorem Near.scales (h : d.Near halfAbove lastBut) : d.Scales := by
  have hsmall {k : Nat} (hk : d.exponent = k) : d.coefficient ≤ mostBefore k ∧ k < 309 := by
    have hbelow := h.below
    have habove := h.above
    rw [value_natCast hk] at hbelow habove
    rw [hk, zpow_natCast] at habove
    have hpos : 0 < Nat.pow 10 k := Nat.pow_pos (by decide)
    have hbelow : d.coefficient * Nat.pow 10 k ≤ halfAbove := by exact_mod_cast hbelow
    have habove : d.coefficient * Nat.pow 10 k ≤ lastBut + Nat.pow 10 k := by exact_mod_cast habove
    refine ⟨le_min h.short (le_min ((Nat.le_div_iff_mul_le hpos).mpr hbelow) ?_), ?_⟩
    · rw [← Nat.add_div_right _ hpos]
      exact (Nat.le_div_iff_mul_le hpos).mpr habove
    · have hone : 1 ≤ d.coefficient := Nat.one_le_iff_ne_zero.mpr h.positive
      obtain ⟨n, hn, hless⟩ : ∃ n, n = 309 ∧ halfAbove < Nat.pow 10 n :=
        ⟨309, rfl, by decide +kernel⟩
      rw [← hn]
      exact (Nat.pow_lt_pow_iff_right (by decide)).mp
        (((Nat.le_mul_of_pos_left _ hone).trans hbelow).trans_lt hless)
  refine ⟨fun hzero ↦ absurd hzero h.positive, h.short, h.least, ?_, fun hnonneg ↦ ?_⟩
  · by_contra hgreat
    obtain ⟨k, hk⟩ := Int.eq_ofNat_of_zero_le (show 0 ≤ d.exponent by omega)
    have := (hsmall hk).2
    omega
  · obtain ⟨k, hk⟩ := Int.eq_ofNat_of_zero_le hnonneg
    obtain ⟨hcoefficient, hless⟩ := hsmall hk
    rw [hk, Int.natAbs_natCast]
    exact mul_power_finite hless hcoefficient

/-- The finite values other than the greatest one. -/
theorem below_greatest {m : Nat} {q : Int} (hm : m < Layout.double.carry)
    (hq : q ≤ Layout.double.highest)
    (h : (m, q) ≠ (Layout.double.carry - 1, Layout.double.highest)) :
    (m + 1 / 2 : ℚ) * 2 ^ q ≤ halfAbove ∧ (m : ℚ) * 2 ^ q ≤ lastBut := by
  change m < 2 ^ 53 at hm
  change q ≤ 971 at hq
  change (m, q) ≠ (2 ^ 53 - 1, 971) at h
  have hhalf : (halfAbove : ℚ) = (2 ^ 54 - 3) * 2 ^ ((970 : Nat) : Int) := by
    have hcount : ((2 * Layout.double.carry - 3 : Nat) : ℚ) = 2 ^ 54 - 3 := by
      rw [show 2 * Layout.double.carry - 3 = 2 ^ 54 - 3 by decide]
      norm_num
    unfold halfAbove
    rw [cast_wholeUnits, hcount]
  have htwo : (2 : ℚ) ^ (971 : Int) = 2 * 2 ^ ((970 : Nat) : Int) := by
    rw [show (971 : Int) = (970 : Nat) + 1 by rfl, zpow_add₀ two_ne_zero, zpow_one, mul_comm]
  have hlast : (lastBut : ℚ) = (2 ^ 54 - 4) * 2 ^ ((970 : Nat) : Int) := by
    have hcount : ((Layout.double.carry - 2 : Nat) : ℚ) = 2 ^ 53 - 2 := by
      rw [show Layout.double.carry - 2 = 2 ^ 53 - 2 by decide]
      norm_num
    unfold lastBut
    rw [cast_wholeUnits, hcount, Nat.cast_ofNat, htwo, ← mul_assoc]
    congr 1
    norm_num
  rw [hhalf, hlast]
  have hpos : (0 : ℚ) < 2 ^ ((970 : Nat) : Int) := by positivity
  by_cases htop : q = 971
  · subst htop
    have hm : (m : ℚ) ≤ 2 ^ 53 - 2 := by
      have hne : m ≠ 2 ^ 53 - 1 := fun heq ↦ h (by rw [heq])
      have : m + 2 ≤ 2 ^ 53 := by omega
      have : ((m + 2 : Nat) : ℚ) ≤ 2 ^ 53 := by exact_mod_cast this
      push_cast at this
      linarith
    rw [htwo, ← mul_assoc, ← mul_assoc]
    constructor
    · exact mul_le_mul_of_nonneg_right (by linarith) hpos.le
    · exact mul_le_mul_of_nonneg_right (by linarith) hpos.le
  · have hm : (m : ℚ) ≤ 2 ^ 53 - 1 := by
      have : m + 1 ≤ 2 ^ 53 := by omega
      have : ((m + 1 : Nat) : ℚ) ≤ 2 ^ 53 := by exact_mod_cast this
      push_cast at this
      linarith
    have hle : (2 : ℚ) ^ q ≤ 2 ^ ((970 : Nat) : Int) := zpow_le_zpow_right₀ one_le_two (by omega)
    constructor
    · exact mul_le_mul (by linarith) hle (by positivity) (by norm_num)
    · exact mul_le_mul (by linarith) hle (by positivity) (by norm_num)

/-- The fewest digits of a finite number are read and scaled without passing the greatest value. -/
theorem scales_shortest {layout : Layout} {m : Nat} {q : Int} (hm : m < Layout.double.carry)
    (hlow : Layout.double.lowest ≤ q) (hhigh : q ≤ Layout.double.highest)
    (hlayout : layout = .double ∨ (m, q) ≠ (Layout.double.carry - 1, Layout.double.highest)) :
    (shortest layout .even m q).Scales := by
  by_cases hzero : m = 0
  · have hshortest : shortest layout .even m q = ⟨0, 0⟩ := by
      unfold shortest
      rw [if_pos hzero]
    rw [hshortest]
    exact ⟨by decide, by decide, by decide, by decide, fun _ ↦ by decide +kernel⟩
  by_cases hgreatest : (m, q) = (Layout.double.carry - 1, Layout.double.highest)
  · obtain ⟨rfl, rfl⟩ := Prod.mk.inj hgreatest
    obtain rfl := hlayout.resolve_right fun h ↦ h rfl
    have hshortest : shortest .double .even (Layout.double.carry - 1) Layout.double.highest =
        ⟨17976931348623157, 292⟩ := by decide +kernel
    rw [hshortest]
    exact ⟨by decide, by decide, by decide, by decide, fun _ ↦ by decide +kernel⟩
  · obtain ⟨hhalf, hlast⟩ := below_greatest hm hhigh hgreatest
    have hmantissa : (m : ℚ) ≤ 2 ^ 53 := by exact_mod_cast hm.le
    have hshort : m ≤ 10 ^ 18 := hm.le.trans (by decide)
    have hmost : (2 ^ 53 : ℚ) ≤ lastBut := by
      have : 2 ^ 53 ≤ lastBut := by decide +kernel
      exact_mod_cast this
    have hhalfAbove : (lastBut : ℚ) ≤ halfAbove := Nat.cast_le.mpr (by decide +kernel)
    exact (shortest_near hzero hshort hlow hhalf hlast (hmantissa.trans (hmost.trans hhalfAbove))
      (hmantissa.trans hmost)).scales

/-- The digits are scaled by their power of ten. -/
theorem Scales.scaled_eq (h : d.Scales) :
    ∃ y, scaled (Binary.ofInt .double d.coefficient) (d.exponent.natAbs / 308 + 1) d.exponent =
      some y := by
  by_cases hneg : d.exponent < 0
  · exact scaled_word (h.short.trans_lt (by decide)) hneg
  · have hnonneg : d.exponent ≥ 0 := by omega
    have hmost := h.most
    unfold scaled
    split
    · exact ⟨_, rfl⟩
    · rw [if_pos (show d.exponent.natAbs ≤ 308 by omega)]
      dsimp only
      rw [if_pos (h.finite hnonneg)]
      exact ⟨_, rfl⟩

end Decimal

end EntityStore
