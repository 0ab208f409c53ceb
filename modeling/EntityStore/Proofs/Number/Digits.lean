import EntityStore.Number.Digits
import Mathlib.Algebra.Group.Nat.Defs

/-!
The digits of a number: how many there are, and what stands at their two ends.
-/

set_option autoImplicit false

namespace EntityStore

theorem lt_pow_length_natDigits (n : Nat) : n < 10 ^ (natDigits n).length :=
  (Nat.length_toDigits_le_iff (by decide) Nat.length_toDigits_pos).mp (Nat.le_refl _)

theorem pow_length_natDigits_le {n : Nat} (h : n ≠ 0) : 10 ^ ((natDigits n).length - 1) ≤ n := by
  by_cases hone : (natDigits n).length - 1 = 0
  · rw [hone]
    exact Nat.pos_of_ne_zero h
  · have hiff := Nat.length_toDigits_le_iff (b := 10) (n := n) (by decide) (Nat.pos_of_ne_zero hone)
    have hlength : ¬(Nat.toDigits 10 n).length ≤ (natDigits n).length - 1 := by
      have : (Nat.toDigits 10 n).length = (natDigits n).length := rfl
      omega
    exact Nat.not_lt.mp fun hless ↦ hlength (hiff.mpr hless)

/-- Ten is more than the third power of two. -/
theorem length_natDigits_two_pow_le {k n : Nat} (h : k ≤ 3 * n) (hn : n ≠ 0) :
    (natDigits (Nat.pow 2 k)).length ≤ n := by
  refine (Nat.length_toDigits_le_iff (by decide) (Nat.pos_of_ne_zero hn)).mpr ?_
  calc Nat.pow 2 k ≤ 2 ^ (3 * n) := Nat.pow_le_pow_right (by decide) h
    _ = (2 ^ 3) ^ n := Nat.pow_mul ..
    _ < 10 ^ n := Nat.pow_lt_pow_left (by decide) hn

/-- No number but zero begins with a zero. -/
theorem head?_natDigits {n : Nat} (h : n ≠ 0) : ∃ c, (natDigits n).head? = some c ∧ c ≠ '0' := by
  induction n using Nat.strongRecOn with
  | ind n ih =>
    unfold natDigits
    rw [Nat.toDigits_eq_if (by decide)]
    split
    · exact ⟨_, rfl, fun heq ↦ h (Nat.digitChar_eq_zero.mp heq)⟩
    · next hten =>
      obtain ⟨c, hc, hzero⟩ := ih (n / 10) (by omega) (by omega)
      refine ⟨c, ?_, hzero⟩
      rw [List.head?_append]
      change ((natDigits (n / 10)).head?.or _) = some c
      rw [hc]
      rfl

/-- The zeros at the end of a number are fewer than its digits. -/
theorem trailing_zeros_le {n : Nat} (h : n ≠ 0) :
    10 ^ ((natDigits n).reverse.takeWhile (· == '0')).length ≤ n := by
  have hprefix := List.takeWhile_prefix (l := (natDigits n).reverse) (· == '0')
  have hlength := hprefix.length_le
  rw [List.length_reverse] at hlength
  have hne : ((natDigits n).reverse.takeWhile (· == '0')).length ≠ (natDigits n).length := by
    intro heq
    have hall : (natDigits n).reverse.takeWhile (· == '0') = (natDigits n).reverse :=
      hprefix.eq_of_length (by rw [heq, List.length_reverse])
    have hzeros : natDigits n = List.replicate (natDigits n).length '0' := by
      refine List.eq_replicate_iff.mpr ⟨rfl, fun c hc ↦ ?_⟩
      have hall : (natDigits n).reverse.all (· == '0') := hall ▸ List.all_takeWhile
      exact eq_of_beq (List.all_eq_true.mp hall c (List.mem_reverse.mpr hc))
    refine h ?_
    rw [← digitsValue_natDigits n, hzeros]
    simp [digitsValue, Nat.ofDigitChars_replicate_zero]
  exact Nat.le_trans (Nat.pow_le_pow_right (by decide) (by omega)) (pow_length_natDigits_le h)

/-- The digits that a numeral may begin with: nothing follows a zero. -/
structure WholeDigits (w : List Char) : Prop where
  digits : ∀ c ∈ w, c.isDigit
  head : w = ['0'] ∨ ∃ c, w.head? = some c ∧ c ≠ '0'

theorem isDigit_zero : ∀ c ∈ ['0'], c.isDigit :=
  List.forall_mem_singleton.mpr rfl

theorem wholeDigits_zero : WholeDigits ['0'] :=
  ⟨isDigit_zero, .inl rfl⟩

theorem wholeDigits_natDigits (n : Nat) : WholeDigits (natDigits n) := by
  refine ⟨fun c hc ↦ isDigit_of_mem_natDigits hc, ?_⟩
  by_cases h : n = 0
  · exact .inl (h ▸ Nat.toDigits_zero 10)
  · exact .inr (head?_natDigits h)

/-- Zeros may follow the digits of a number that is not zero. -/
theorem wholeDigits_append {n k : Nat} (h : n ≠ 0) :
    WholeDigits (natDigits n ++ List.replicate k '0') := by
  obtain ⟨c, hc, hzero⟩ := head?_natDigits h
  refine ⟨fun d hd ↦ ?_, .inr ⟨c, ?_, hzero⟩⟩
  · rcases List.mem_append.mp hd with hd | hd
    · exact isDigit_of_mem_natDigits hd
    · rw [List.eq_of_mem_replicate hd]
      decide
  · rw [List.head?_append, hc]
    rfl

theorem wholeDigits_take {n k : Nat} (h : n ≠ 0) (hk : k ≠ 0) :
    WholeDigits ((natDigits n).take k) := by
  obtain ⟨c, hc, hzero⟩ := head?_natDigits h
  refine ⟨fun d hd ↦ isDigit_of_mem_natDigits (List.mem_of_mem_take hd), .inr ⟨c, ?_, hzero⟩⟩
  rw [List.head?_take, if_neg hk, hc]

end EntityStore
