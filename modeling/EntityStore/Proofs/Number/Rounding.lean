import EntityStore.Number.Binary
import Mathlib.Algebra.Order.Field.Power
import Mathlib.Data.Rat.Cast.Order
import Mathlib.Tactic.Linarith
import Mathlib.Tactic.Positivity
import Mathlib.Tactic.Ring

/-!
Rounding does not pass a value of the format. A ratio that lies at or below one is rounded to a
finite value at or below it (`Binary.ofRatio_below`), and so are products and quotients.
-/

set_option autoImplicit false

namespace EntityStore

/-! ### Ratios -/

theorem scale_eq {b : Nat} (hb : 0 < b) (m : Nat) (q : Int) {r : Nat × Nat}
    (hr : r = if q < 0 then (m, Nat.pow b q.natAbs) else (m * Nat.pow b q.natAbs, 1)) :
    0 < r.2 ∧ (r.1 : ℚ) / r.2 = m * (b : ℚ) ^ q := by
  subst hr
  split
  · next hneg =>
    have hq : q = -(q.natAbs : Int) := by omega
    refine ⟨Nat.pow_pos hb, ?_⟩
    rw [hq, zpow_neg, zpow_natCast, Int.natAbs_neg, Int.natAbs_natCast, Nat.pow_eq,
      Nat.cast_pow, div_eq_mul_inv]
  · next hpos =>
    have hq : q = (q.natAbs : Int) := by omega
    refine ⟨Nat.one_pos, ?_⟩
    rw [hq, zpow_natCast, Int.natAbs_natCast, Nat.pow_eq, Nat.cast_one, div_one,
      Nat.cast_mul, Nat.cast_pow]

theorem scaleTwo_eq (m : Nat) (q : Int) :
    0 < (scaleTwo m q).2 ∧ ((scaleTwo m q).1 : ℚ) / (scaleTwo m q).2 = m * 2 ^ q :=
  scale_eq (by decide) m q rfl

theorem scaleTen_eq (m : Nat) (e : Int) :
    0 < (scaleTen m e).2 ∧ ((scaleTen m e).1 : ℚ) / (scaleTen m e).2 = m * 10 ^ e :=
  scale_eq (by decide) m e rfl

/-- Rounding does not pass a natural number. -/
theorem roundHalfEven_le {n d k : Nat} (hd : 0 < d) (h : n ≤ k * d) : roundHalfEven n d ≤ k := by
  have hdiv : n / d ≤ k := Nat.div_le_of_le_mul (by rwa [Nat.mul_comm])
  have hmod := Nat.div_add_mod n d
  -- rounding up needs a remainder, so that the quotient lies below
  have hless (hrest : 0 < n % d) : n / d < k := by
    refine Nat.lt_of_le_of_ne hdiv fun heq ↦ ?_
    rw [heq, Nat.mul_comm] at hmod
    omega
  unfold roundHalfEven
  dsimp only
  split
  · exact hdiv
  · split
    · exact hless (by omega)
    · have := hless (by omega)
      omega

/-- A number that is the size of a value of the format. -/
def Layout.HasSize (layout : Layout) (b : ℚ) : Prop :=
  ∃ (m : Nat) (q : Int), b = m * 2 ^ q ∧ m < layout.carry ∧ layout.lowest ≤ q ∧ q ≤ layout.highest

namespace Binary

variable {layout : Layout} {num den : Nat}

/-- The unit of a ratio: it counts a full mantissa, unless it is the least one, and the mantissa
does not overflow. -/
theorem unitExponent_spec (layout : Layout) (hnum : num ≠ 0) (hden : den ≠ 0) :
    layout.lowest ≤ unitExponent layout num den ∧
    (num : ℚ) / den < 2 ^ (unitExponent layout num den + layout.precision) ∧
      (unitExponent layout num den = layout.lowest ∨
        (2 : ℚ) ^ (unitExponent layout num den + layout.precision - 1) ≤ num / den) := by
  have hpos : (0 : ℚ) < den := by exact_mod_cast Nat.pos_of_ne_zero hden
  have hbelow : (2 : ℚ) ^ ((num.log2 : Int) - den.log2 - 1) ≤ num / den := by
    rw [le_div_iff₀ hpos, zpow_sub₀ two_ne_zero, zpow_sub₀ two_ne_zero, zpow_natCast,
      zpow_natCast, zpow_one]
    have hlow : ((2 ^ num.log2 : Nat) : ℚ) ≤ num := by exact_mod_cast Nat.log2_self_le hnum
    have hhigh : (den : ℚ) ≤ ((2 ^ (den.log2 + 1) : Nat) : ℚ) := by
      exact_mod_cast Nat.lt_log2_self.le
    rw [Nat.cast_pow, Nat.cast_ofNat] at hlow hhigh
    rw [div_div, div_mul_eq_mul_div, div_le_iff₀ (by positivity), ← pow_succ]
    exact mul_le_mul hlow hhigh hpos.le (by positivity)
  have habove : (num : ℚ) / den < 2 ^ ((num.log2 : Int) - den.log2 + 1) := by
    rw [div_lt_iff₀ hpos, zpow_add₀ two_ne_zero, zpow_sub₀ two_ne_zero, zpow_natCast,
      zpow_natCast, zpow_one]
    have hhigh : (num : ℚ) < ((2 ^ (num.log2 + 1) : Nat) : ℚ) := by exact_mod_cast Nat.lt_log2_self
    have hlow : ((2 ^ den.log2 : Nat) : ℚ) ≤ den := by exact_mod_cast Nat.log2_self_le hden
    rw [Nat.cast_pow, Nat.cast_ofNat] at hlow hhigh
    rw [div_mul_eq_mul_div, ← pow_succ, div_mul_eq_mul_div, lt_div_iff₀ (by positivity)]
    exact mul_lt_mul hhigh hlow (by positivity) (by positivity)
  obtain ⟨t, ht, hless, hfull⟩ : ∃ t, unitExponent layout num den = max layout.lowest t ∧
      (num : ℚ) / den < 2 ^ (t + layout.precision) ∧
      (2 : ℚ) ^ (t + layout.precision - 1) ≤ num / den := by
    obtain ⟨g, hg⟩ : ∃ g : Int, g = (num.log2 : Int) - den.log2 - layout.precision := ⟨_, rfl⟩
    have hguess : g + layout.precision = (num.log2 : Int) - den.log2 := by omega
    obtain ⟨hd, hscale⟩ := scaleTwo_eq den (g + layout.precision)
    have hd : (0 : ℚ) < (scaleTwo den (g + layout.precision)).2 := by exact_mod_cast hd
    have htight : num * (scaleTwo den (g + layout.precision)).2 ≥
        (scaleTwo den (g + layout.precision)).1 ↔
        (2 : ℚ) ^ ((num.log2 : Int) - den.log2) ≤ num / den := by
      rw [ge_iff_le, ← @Nat.cast_le ℚ, Nat.cast_mul, ← div_le_iff₀ hd, hscale, hguess, mul_comm,
        le_div_iff₀ hpos]
    refine ⟨if num * (scaleTwo den (g + layout.precision)).2 ≥
      (scaleTwo den (g + layout.precision)).1 then g + 1 else g, by rw [hg]; rfl, ?_⟩
    split
    · next hge =>
      rw [show g + 1 + layout.precision = (num.log2 : Int) - den.log2 + 1 by
        omega, add_sub_cancel_right]
      exact ⟨habove, htight.mp hge⟩
    · next hlt =>
      rw [hguess]
      exact ⟨not_le.mp fun hge ↦ hlt (htight.mpr hge), hbelow⟩
  rw [ht]
  rcases le_total layout.lowest t with hle | hle
  · rw [max_eq_right hle]
    exact ⟨hle, hless, .inr hfull⟩
  · rw [max_eq_left hle]
    exact ⟨le_refl _, hless.trans_le (zpow_le_zpow_right₀ one_le_two (by omega)), .inl rfl⟩

/-- Counting a ratio in units does not pass a whole number of units. -/
theorem count_le {q : Int} {k : Nat} (hden : den ≠ 0) (h : (num : ℚ) / den ≤ k * 2 ^ q) :
    roundHalfEven (num * (scaleTwo den q).2) (scaleTwo den q).1 ≤ k := by
  obtain ⟨hd, hscale⟩ := scaleTwo_eq den q
  generalize scaleTwo den q = scale at hd hscale ⊢
  obtain ⟨n, d⟩ := scale
  dsimp only at hd hscale ⊢
  have hdpos : (0 : ℚ) < d := by exact_mod_cast hd
  have hdenpos : (0 : ℚ) < den := by exact_mod_cast Nat.pos_of_ne_zero hden
  have hn : (n : ℚ) = den * 2 ^ q * d := (div_eq_iff hdpos.ne').mp hscale
  have hnpos : 0 < n := by
    have : (0 : ℚ) < n := by rw [hn]; positivity
    exact_mod_cast this
  refine roundHalfEven_le hnpos ?_
  rw [div_le_iff₀ hdenpos] at h
  have hle : ((num * d : Nat) : ℚ) ≤ ((k * n : Nat) : ℚ) := by
    rw [Nat.cast_mul, Nat.cast_mul, hn]
    calc (num : ℚ) * d ≤ k * 2 ^ q * den * d := by gcongr
      _ = k * (den * 2 ^ q * d) := by ring
  exact_mod_cast hle

/-- A value that is finite and in size at most a bound. -/
def Below (x : Binary) (b : ℚ) : Prop :=
  ∃ s m q, x = .finite s m q ∧ (m : ℚ) * 2 ^ q ≤ b

theorem Below.isFinite {x : Binary} {b : ℚ} (h : x.Below b) : x.isFinite := by
  obtain ⟨s, m, q, rfl, -⟩ := h
  rfl

/-- Rounding does not pass a value of the format. -/
theorem ofRatio_below {b : ℚ} (hb : layout.HasSize b) (hden : den ≠ 0)
    (h : (num : ℚ) / den ≤ b) (s : Bool) :
    (ofRatio layout s num den).Below b := by
  obtain ⟨M, Q, rfl, hM, hlow, hhigh⟩ := hb
  unfold ofRatio
  split
  · exact ⟨s, 0, layout.lowest, rfl, by rw [Nat.cast_zero, zero_mul]; positivity⟩
  · next hnum =>
    obtain ⟨hleast, -, hfull⟩ := unitExponent_spec layout hnum hden
    dsimp only
    generalize unitExponent layout num den = q at hleast hfull ⊢
    have hcarry : (M : ℚ) < 2 ^ (layout.precision : Int) := by
      rw [zpow_natCast]
      exact_mod_cast hM
    -- a greater unit would make the ratio pass the bound
    have hle : q ≤ Q := by
      by_contra hgt
      rcases hfull with rfl | hfull
      · exact hgt hlow
      · have hless : (M : ℚ) * 2 ^ Q < 2 ^ (q + layout.precision - 1) := by
          calc (M : ℚ) * 2 ^ Q < 2 ^ (layout.precision : Int) * 2 ^ Q := by gcongr
            _ = 2 ^ ((layout.precision : Int) + Q) := (zpow_add₀ two_ne_zero _ _).symm
            _ ≤ 2 ^ (q + layout.precision - 1) := zpow_le_zpow_right₀ one_le_two (by omega)
        exact absurd (hfull.trans h) (not_le.mpr hless)
    -- the bound counted in units is a natural number, which rounding does not pass
    obtain ⟨k, hk⟩ := Int.eq_ofNat_of_zero_le (Int.sub_nonneg.mpr hle)
    have hunits : (M : ℚ) * 2 ^ Q = ((M * 2 ^ k : Nat) : ℚ) * 2 ^ q := by
      rw [Nat.cast_mul, Nat.cast_pow, Nat.cast_ofNat, ← zpow_natCast, mul_assoc,
        ← zpow_add₀ two_ne_zero]
      congr 2
      omega
    have hround := count_le hden (h.trans hunits.le)
    generalize roundHalfEven _ _ = m at hround ⊢
    have hsize : (m : ℚ) * 2 ^ q ≤ (M : ℚ) * 2 ^ Q := by
      rw [hunits]
      gcongr
    split
    · next hm =>
      have hless : q < Q := by
        refine lt_of_le_of_ne hle ?_
        rintro rfl
        obtain rfl : k = 0 := by omega
        rw [pow_zero, Nat.mul_one] at hround
        omega
      rw [if_neg (by omega)]
      refine ⟨s, _, _, rfl, le_trans ?_ hsize⟩
      rw [zpow_add₀ two_ne_zero, zpow_one, mul_comm ((2 : ℚ) ^ q) 2, ← mul_assoc, hm]
      gcongr
      exact_mod_cast Nat.div_mul_le_self layout.carry 2
    · rw [if_neg (by omega)]
      exact ⟨s, m, q, rfl, hsize⟩

/-- The size of a product. -/
theorem mul_below {x y : Binary} {b c d : ℚ} (hx : x.Below b) (hy : y.Below c)
    (hd : layout.HasSize d) (hle : b * c ≤ d) :
    (x.mul layout y).Below d := by
  obtain ⟨s, m, q, rfl, hx⟩ := hx
  obtain ⟨t, m', q', rfl, hy⟩ := hy
  obtain ⟨hpos, hscale⟩ := scaleTwo_eq m q
  obtain ⟨hpos', hscale'⟩ := scaleTwo_eq m' q'
  change (ofRatio layout (s != t) ((scaleTwo m q).1 * (scaleTwo m' q').1)
      ((scaleTwo m q).2 * (scaleTwo m' q').2)).Below d
  refine ofRatio_below hd (Nat.mul_pos hpos hpos').ne' ?_ (s != t)
  rw [Nat.cast_mul, Nat.cast_mul, mul_div_mul_comm, hscale, hscale']
  exact (mul_le_mul hx hy (by positivity) (le_trans (by positivity) hx)).trans hle

/-- Dividing by a number that is not less than one does not pass a value of the format. -/
theorem div_below {x : Binary} {b : ℚ} (hx : x.Below b) (hb : layout.HasSize b)
    {s : Bool} {m : Nat} {q : Int} (hone : 1 ≤ (m : ℚ) * 2 ^ q) :
    (x.div layout (.finite s m q)).Below b := by
  obtain ⟨t, m', q', rfl, hx⟩ := hx
  obtain ⟨hpos, hscale⟩ := scaleTwo_eq m q
  obtain ⟨hpos', hscale'⟩ := scaleTwo_eq m' q'
  have hposℚ : (0 : ℚ) < (scaleTwo m q).2 := by exact_mod_cast hpos
  have hne : (scaleTwo m q).1 ≠ 0 := by
    intro hzero
    rw [hzero, Nat.cast_zero, zero_div] at hscale
    linarith
  change Below (if (scaleTwo m q).1 = 0 then .nan else
    ofRatio layout (t != s) ((scaleTwo m' q').1 * (scaleTwo m q).2)
      ((scaleTwo m' q').2 * (scaleTwo m q).1)) b
  rw [if_neg hne]
  refine ofRatio_below hb (Nat.mul_pos hpos' (Nat.pos_of_ne_zero hne)).ne' ?_ (t != s)
  rw [Nat.cast_mul, Nat.cast_mul, mul_div_mul_comm, hscale', ← inv_div, hscale, ← div_eq_mul_inv]
  exact (div_le_self (by positivity) hone).trans hx

/-! ### Numbers of a format -/

/-- A finite number of a format. -/
def Fits (layout : Layout) : Binary → Prop
  | .finite _ m q => m < layout.carry ∧ layout.lowest ≤ q ∧ q ≤ layout.highest
  | _ => False

instance (layout : Layout) (x : Binary) : Decidable (x.Fits layout) :=
  match x with
  | .finite _ m q =>
    inferInstanceAs (Decidable (m < layout.carry ∧ layout.lowest ≤ q ∧ q ≤ layout.highest))
  | .nan | .infinite _ => isFalse id

end Binary

end EntityStore
