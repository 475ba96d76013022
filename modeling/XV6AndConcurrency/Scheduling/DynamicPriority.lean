import XV6AndConcurrency.Scheduling.Tasks

/-!
# The dynamic priority as arithmetic

While the counters of a process are small enough for an `int`, the index that the
scheduler computes is the documented formula, and the dynamic priority grows with the
running time and falls with the sleeping and the waiting time.
-/

namespace XV6AndConcurrency.Scheduling

open Foundations

/-- `max (Int ((3 * RTime - STime - WTime) * 50 / (RTime + WTime + STime + 1)), 0)`. -/
def rbiExact (runtime stime wtime : ℤ) : ℤ :=
  max 0 ((50 * (3 * runtime - stime - wtime)).tdiv (runtime + stime + wtime + 1))

/-- The counters of a process are not negative, and their sum leaves room for the products. -/
structure CountersFit (t : Task) : Prop where
  runtime : 0 ≤ t.runtime
  stime : 0 ≤ t.stime
  wtime : 0 ≤ t.wtime
  fits : 150 * (t.runtime + t.stime + t.wtime + 1) < 2147483648

section

variable {r s w r' s' w' : ℤ}

/-- With a positive divisor the clamp at zero hides the direction of the rounding. -/
theorem rbiExact_eq_ediv (hr : 0 ≤ r) (hs : 0 ≤ s) (hw : 0 ≤ w) :
    rbiExact r s w = max 0 (50 * (3 * r - s - w) / (r + s + w + 1)) :=
  max_tdiv_eq_max_ediv (by omega)

theorem rbiExact_nonneg : 0 ≤ rbiExact r s w := le_max_left _ _

theorem rbiExact_le (hr : 0 ≤ r) (hs : 0 ≤ s) (hw : 0 ≤ w) : rbiExact r s w ≤ 149 := by
  rw [rbiExact_eq_ediv hr hs hw]
  have hlt : 50 * (3 * r - s - w) / (r + s + w + 1) < 150 := by
    apply Int.ediv_lt_of_lt_mul <;> omega
  omega

/-- Running longer and sleeping or waiting less never lowers the index. -/
theorem rbiExact_mono (hr : 0 ≤ r) (hs' : 0 ≤ s') (hw' : 0 ≤ w') (hrun : r ≤ r') (hsleep : s' ≤ s)
    (hwait : w' ≤ w) : rbiExact r s w ≤ rbiExact r' s' w' := by
  rw [rbiExact_eq_ediv hr (by omega) (by omega), rbiExact_eq_ediv (by omega) hs' hw']
  apply max_le_max_left
  apply ediv_le_ediv_of_mul_le (by omega) (by omega)
  -- the difference of the cross products, with every term a product of two differences
  have hcross : 50 * (3 * r' - s' - w') * (r + s + w + 1) -
      50 * (3 * r - s - w) * (r' + s' + w' + 1) =
      200 * ((r' - r) * (s + w) + r * ((s - s') + (w - w'))) +
        150 * (r' - r) + 50 * ((s - s') + (w - w')) := by ring
  have hleft : 0 ≤ (r' - r) * (s + w) := mul_nonneg (by omega) (by omega)
  have hright : 0 ≤ r * ((s - s') + (w - w')) := mul_nonneg hr (by omega)
  linarith

end

variable {t t' : Task}

/-- The 32-bit computation is exact. -/
theorem rbiOf_eq_rbiExact (h : CountersFit t) : rbiOf t = rbiExact t.runtime t.stime t.wtime := by
  obtain ⟨hr, hs, hw, hfits⟩ := h
  have hnum : rbiNumerator t = 50 * (3 * t.runtime - t.stime - t.wtime) := by
    unfold rbiNumerator
    rw [wrap32_of_range (by omega) (by omega)]
    ring
  have hden : rbiDenominator t = t.runtime + t.stime + t.wtime + 1 :=
    wrap32_of_range (by omega) (by omega)
  have hquot := Int.natAbs_tdiv_le_natAbs (50 * (3 * t.runtime - t.stime - t.wtime))
    (t.runtime + t.stime + t.wtime + 1)
  dsimp only [rbiOf]
  rw [hnum, hden, wrap32_of_range (by omega) (by omega)]
  unfold rbiExact
  split_ifs <;> omega

theorem evaluate_dp_of_countersFit (h : CountersFit t) (hsp : 0 ≤ t.sp) (hsp' : t.sp ≤ 100) :
    (evaluate t).dp = min (t.sp + rbiExact t.runtime t.stime t.wtime) 100 := by
  have hle := rbiExact_le h.runtime h.stime h.wtime
  have hrbi := rbiOf_eq_rbiExact h
  rw [evaluate_dp_of_fits hsp (by unfold SumFits; omega)]
  unfold dynamicPriority
  rw [hrbi]

theorem evaluate_dp_mono (h : CountersFit t) (h' : CountersFit t') (hsp : 0 ≤ t.sp)
    (hsp' : t.sp ≤ 100) (hsame : t'.sp = t.sp) (hrun : t.runtime ≤ t'.runtime)
    (hsleep : t'.stime ≤ t.stime) (hwait : t'.wtime ≤ t.wtime) :
    (evaluate t).dp ≤ (evaluate t').dp := by
  have hmono := rbiExact_mono h.runtime h'.stime h'.wtime hrun hsleep hwait
  rw [evaluate_dp_of_countersFit h hsp hsp',
    evaluate_dp_of_countersFit h' (by omega) (by omega), hsame]
  exact min_le_min_right _ (by omega)

/-- The index is the documented formula, both results are bounded, and the priority
follows each counter in its direction. -/
theorem dynamic_priority_bounded_monotone (t : Task) (h : CountersFit t) (hsp : 0 ≤ t.sp)
    (hsp' : t.sp ≤ 100) :
    (evaluate t).rbi = rbiExact t.runtime t.stime t.wtime ∧
      (0 ≤ (evaluate t).rbi ∧ (evaluate t).rbi ≤ 149) ∧
      (t.sp ≤ (evaluate t).dp ∧ (evaluate t).dp ≤ 100) ∧
      ∀ t', CountersFit t' → t'.sp = t.sp → t.runtime ≤ t'.runtime → t'.stime ≤ t.stime →
        t'.wtime ≤ t.wtime → (evaluate t).dp ≤ (evaluate t').dp := by
  have hnonneg : 0 ≤ rbiExact t.runtime t.stime t.wtime := rbiExact_nonneg
  have hle := rbiExact_le h.runtime h.stime h.wtime
  have hdp := evaluate_dp_of_countersFit h hsp hsp'
  rw [evaluate_rbi, rbiOf_eq_rbiExact h]
  refine ⟨rfl, ⟨hnonneg, hle⟩, ⟨by omega, by omega⟩, ?_⟩
  intro t' h' hsame hrun hsleep hwait
  exact evaluate_dp_mono h h' hsp hsp' hsame hrun hsleep hwait

/-- A process that ran one tick and slept two. -/
theorem dynamic_priority_bounded_monotone_of_three :
    (evaluate { sp := 50, runtime := 1, stime := 2 }).rbi = rbiExact 1 2 0 ∧
      (evaluate { sp := 50, runtime := 1, stime := 2 }).dp ≤
        (evaluate { sp := 50, runtime := 2, stime := 2 }).dp := by
  obtain ⟨hrbi, -, -, hmono⟩ := dynamic_priority_bounded_monotone
    { sp := 50, runtime := 1, stime := 2 } ⟨by decide, by decide, by decide, by decide⟩
    (by decide) (by decide)
  refine ⟨hrbi, hmono _ ⟨by decide, by decide, by decide, by decide⟩ rfl ?_ ?_ ?_⟩ <;> decide

end XV6AndConcurrency.Scheduling
