import Mathlib.Data.Set.Basic
import Mathlib.Tactic

/-!
# Sorted lists of separated intervals

An interval is named by its first point; `stop` says where each one ends. A set that is a
union of finitely many intervals has one list of intervals in order with a gap after each:
the list of its maximal runs.
-/

namespace XV6AndConcurrency.Foundations

variable {stop stop' : ℕ → ℕ} {a b x : ℕ} {l l' : List ℕ}

/-- The points of the intervals of the list. -/
def Covered (stop : ℕ → ℕ) (l : List ℕ) (x : ℕ) : Prop := ∃ a ∈ l, a ≤ x ∧ x < stop a

/-- No interval is empty, and each ends before the next begins. -/
structure Separated (stop : ℕ → ℕ) (l : List ℕ) : Prop where
  pos : ∀ a ∈ l, a < stop a
  gap : l.Pairwise fun a b => stop a < b

@[simp] theorem covered_nil : ¬Covered stop [] x := by simp [Covered]

@[simp] theorem covered_cons :
    Covered stop (a :: l) x ↔ a ≤ x ∧ x < stop a ∨ Covered stop l x := by
  simp [Covered]

@[simp] theorem covered_append :
    Covered stop (l ++ l') x ↔ Covered stop l x ∨ Covered stop l' x := by
  simp [Covered, or_and_right, exists_or]

theorem covered_congr (h : ∀ a ∈ l, stop' a = stop a) :
    Covered stop' l x ↔ Covered stop l x := by
  constructor
  · rintro ⟨a, ha, hx⟩
    exact ⟨a, ha, h a ha ▸ hx⟩
  · rintro ⟨a, ha, hx⟩
    exact ⟨a, ha, (h a ha).symm ▸ hx⟩

namespace Separated

theorem tail (h : Separated stop (a :: l)) : Separated stop l where
  pos b hb := h.pos b (List.mem_cons_of_mem a hb)
  gap := h.gap.of_cons

/-- Behind the first interval and the gap after it. -/
theorem stop_lt (h : Separated stop (a :: l)) (hx : Covered stop l x) : stop a < x := by
  obtain ⟨b, hb, hbx, -⟩ := hx
  exact (List.rel_of_pairwise_cons h.gap hb).trans_le hbx

theorem le_of_covered (h : Separated stop (a :: l)) (hx : Covered stop (a :: l) x) : a ≤ x := by
  rcases covered_cons.mp hx with hx | hx
  · exact hx.1
  · exact ((h.pos a List.mem_cons_self).trans (h.stop_lt hx)).le

theorem covered_head (h : Separated stop (a :: l)) : Covered stop (a :: l) a :=
  covered_cons.mpr (.inl ⟨le_rfl, h.pos a List.mem_cons_self⟩)

theorem not_covered_stop (h : Separated stop l) (ha : a ∈ l) : ¬Covered stop l (stop a) := by
  induction l with
  | nil => exact covered_nil
  | cons b l ih =>
    intro hx
    rcases List.mem_cons.mp ha with rfl | ha
    · rcases covered_cons.mp hx with hx | hx
      · exact lt_irrefl _ hx.2
      · exact lt_irrefl _ (h.stop_lt hx)
    · rcases covered_cons.mp hx with hx | hx
      · have hab : b < stop b := h.pos b List.mem_cons_self
        have hba : stop b < a := List.rel_of_pairwise_cons h.gap ha
        have haa : a < stop a := h.pos a (List.mem_cons_of_mem b ha)
        omega
      · exact ih h.tail ha hx

/-- A run of points lies in one interval. -/
theorem exists_covering {s e : ℕ} (h : Separated stop l) (hlt : s < e)
    (hall : ∀ x, s ≤ x → x < e → Covered stop l x) : ∃ a ∈ l, a ≤ s ∧ e ≤ stop a := by
  obtain ⟨a, ha, has, hsa⟩ := hall s le_rfl hlt
  refine ⟨a, ha, has, not_lt.mp fun hae => ?_⟩
  exact h.not_covered_stop ha (hall (stop a) hsa.le hae)

/-- The points behind the first interval. -/
theorem covered_tail (h : Separated stop (a :: l)) :
    Covered stop l x ↔ Covered stop (a :: l) x ∧ stop a ≤ x := by
  constructor
  · exact fun hx => ⟨covered_cons.mpr (.inr hx), (h.stop_lt hx).le⟩
  · rintro ⟨hx, hle⟩
    rcases covered_cons.mp hx with hx | hx
    · exact absurd hx.2 (not_lt.mpr hle)
    · exact hx

/-- Only one list has these points. -/
theorem unique (h : Separated stop l) (h' : Separated stop' l')
    (heq : ∀ x, Covered stop l x ↔ Covered stop' l' x) :
    l = l' ∧ ∀ a ∈ l, stop a = stop' a := by
  induction l generalizing l' with
  | nil =>
    cases l' with
    | nil => simp
    | cons b l' => exact absurd ((heq b).mpr h'.covered_head) covered_nil
  | cons a l ih =>
    cases l' with
    | nil => exact absurd ((heq a).mp h.covered_head) covered_nil
    | cons b l' =>
      obtain rfl : a = b := by
        apply le_antisymm
        · exact h.le_of_covered ((heq b).mpr h'.covered_head)
        · exact h'.le_of_covered ((heq a).mp h.covered_head)
      have hstop : stop a = stop' a := by
        apply le_antisymm
        · by_contra hlt
          refine h'.not_covered_stop List.mem_cons_self ((heq _).mp (covered_cons.mpr (.inl ?_)))
          exact ⟨(h'.pos a List.mem_cons_self).le, not_le.mp hlt⟩
        · by_contra hlt
          refine h.not_covered_stop List.mem_cons_self ((heq _).mpr (covered_cons.mpr (.inl ?_)))
          exact ⟨(h.pos a List.mem_cons_self).le, not_le.mp hlt⟩
      obtain ⟨rfl, hrest⟩ := ih h.tail h'.tail fun x => by
        rw [h.covered_tail, h'.covered_tail, heq, hstop]
      refine ⟨rfl, fun c hc => ?_⟩
      rcases List.mem_cons.mp hc with rfl | hc
      · exact hstop
      · exact hrest c hc

end Separated

end XV6AndConcurrency.Foundations
