import Mathlib.Tactic

/-!
# Signed 32-bit arithmetic

An `int` is an integer between `-2 ^ 31` and `2 ^ 31`. Sums and products are taken
exactly and then wrapped, which is what two's-complement hardware does.
-/

namespace XV6AndConcurrency.Foundations

/-- The representative of `x` modulo `2 ^ 32` that an `int` holds. -/
@[irreducible]
def wrap32 (x : ℤ) : ℤ :=
  let r := (x % 4294967296).toNat
  if r < 2147483648 then (r : ℤ) else r - 4294967296

theorem wrap32_eq (x : ℤ) : wrap32 x = (x + 2147483648) % 4294967296 - 2147483648 := by
  unfold wrap32
  dsimp only
  split_ifs <;> omega

variable {x y : ℤ}

theorem wrap32_lt (x : ℤ) : wrap32 x < 2147483648 := by
  simp only [wrap32_eq]
  omega

theorem le_wrap32 (x : ℤ) : -2147483648 ≤ wrap32 x := by
  simp only [wrap32_eq]
  omega

theorem wrap32_of_range (h : -2147483648 ≤ x) (h' : x < 2147483648) : wrap32 x = x := by
  simp only [wrap32_eq]
  omega

/-- Wrapping depends on the residue only. -/
theorem wrap32_congr (h : x % 4294967296 = y % 4294967296) : wrap32 x = wrap32 y := by
  simp only [wrap32_eq]
  omega

theorem wrap32_emod (x : ℤ) : wrap32 x % 4294967296 = x % 4294967296 := by
  simp only [wrap32_eq]
  omega

/-- Counting up from zero, the next `int` that is 1 or -1 is `2 ^ 32 - 1`. -/
theorem natAbs_wrap32_succ {n : ℕ} (h : n ≠ 0) (h' : n < 4294967294) :
    2 ≤ (wrap32 (n + 1)).natAbs := by
  rw [wrap32_eq]
  omega

/-! ## Truncating division -/

variable {a c d : ℤ}

theorem tdiv_eq_iff_of_pos (hc : 0 < c) (hd : 0 < d) :
    a.tdiv d = c ↔ c * d ≤ a ∧ a < (c + 1) * d := by
  have hcd : 0 < c * d := mul_pos hc hd
  have hsucc : (c + 1) * d = c * d + d := by ring
  rcases le_or_gt 0 a with ha | ha
  · rw [Int.tdiv_eq_ediv_of_nonneg ha, Int.ediv_eq_iff_of_pos hd, hsucc]
  · have hneg : a.tdiv d ≤ 0 := by
      have h := Int.tdiv_nonneg (a := -a) (b := d) (by omega) (by omega)
      rw [Int.neg_tdiv] at h
      omega
    omega

/-- Truncating division hits `c > 0` exactly between two multiples of the divisor. -/
theorem tdiv_eq_iff (hc : 0 < c) :
    a.tdiv d = c ↔ c * d ≤ a ∧ a < (c + 1) * d ∨ (c + 1) * d < a ∧ a ≤ c * d := by
  have hsucc : (c + 1) * d = c * d + d := by ring
  rcases lt_trichotomy d 0 with hd | rfl | hd
  · have h := tdiv_eq_iff_of_pos (a := -a) hc (show 0 < -d by omega)
    rw [Int.neg_tdiv_neg, mul_neg, mul_neg] at h
    rw [h]
    omega
  · rw [Int.tdiv_zero]
    omega
  · rw [tdiv_eq_iff_of_pos hc hd]
    omega

/-- A divisor of two or more halves the quotient. -/
theorem natAbs_tdiv_le (h : 2 ≤ d.natAbs) : 2 * (a.tdiv d).natAbs ≤ a.natAbs := by
  have hquot : (a.tdiv d).natAbs ≤ a.natAbs / 2 := by
    rw [Int.natAbs_tdiv]
    exact Nat.div_le_div_left h (by decide)
  omega

/-- Rounding toward zero and rounding down differ below zero only. -/
theorem max_tdiv_eq_max_ediv (hd : 0 < d) : max 0 (a.tdiv d) = max 0 (a / d) := by
  rcases le_or_gt 0 a with ha | ha
  · rw [Int.tdiv_eq_ediv_of_nonneg ha]
  · have hdown : a / d < 0 := Int.ediv_neg_of_neg_of_pos ha hd
    have htrunc := Int.tdiv_nonneg (a := -a) (b := d) (by omega) hd.le
    rw [Int.neg_tdiv] at htrunc
    omega

/-- Quotients are ordered like the cross products. -/
theorem ediv_le_ediv_of_mul_le {b : ℤ} (hc : 0 < c) (hd : 0 < d) (h : a * d ≤ b * c) :
    a / c ≤ b / d := by
  rw [Int.le_ediv_iff_mul_le hd]
  have hquot : a / c * c ≤ a := Int.ediv_mul_le a hc.ne'
  have hcross : a / c * d * c ≤ b * c := calc
    a / c * d * c = a / c * c * d := by ring
    _ ≤ a * d := Int.mul_le_mul_of_nonneg_right hquot hd.le
    _ ≤ b * c := h
  exact le_of_mul_le_mul_right hcross hc

end XV6AndConcurrency.Foundations
