import Mathlib.Data.Nat.ModEq
import Mathlib.Data.List.Range
import Mathlib.Logic.Function.Basic
import Mathlib.Tactic

/-!
# Rings with wrapping counters

A ring of `N` slots whose two counters run modulo `M`, where `N` divides `M`: the writer
fills slot `hi % N` and the reader takes slot `lo % N`. The slots in between, in order, are
a queue as long as no more than `N` of them are in use.
-/

namespace XV6AndConcurrency.Foundations

variable {α : Type*} {M N lo hi : ℕ}

/-- The difference of the counters. -/
def span (M lo hi : ℕ) : ℕ := (hi + M - lo) % M

/-- The slots between the counters, the oldest first. -/
def window (M N : ℕ) (data : ℕ → α) (lo hi : ℕ) : List α :=
  (List.range (span M lo hi)).map fun i => data ((lo + i) % M % N)

@[simp] theorem window_length (data : ℕ → α) : (window M N data lo hi).length = span M lo hi := by
  simp [window]

theorem span_lt (hlo : lo < M) : span M lo hi < M := Nat.mod_lt _ (Nat.zero_lt_of_lt hlo)

/-- The counters before they wrapped. -/
theorem add_span (hlo : lo < M) (hhi : hi < M) : (lo + span M lo hi) % M = hi := by
  unfold span
  rw [Nat.add_mod_mod, show lo + (hi + M - lo) = hi + M by omega, Nat.add_mod_right]
  exact Nat.mod_eq_of_lt hhi

/-- How far the counters are apart is determined by where they are. -/
theorem span_unique {n : ℕ} (hlo : lo < M) (hn : n < M) (h : (lo + n) % M = hi) :
    span M lo hi = n := by
  have hhi : hi < M := h ▸ Nat.mod_lt _ (Nat.zero_lt_of_lt hlo)
  have heq : lo + span M lo hi ≡ lo + n [MOD M] := (add_span hlo hhi).trans h.symm
  exact Nat.ModEq.eq_of_lt_of_lt (heq.add_left_cancel' lo) (span_lt hlo) hn

theorem span_self (hlo : lo < M) : span M lo lo = 0 :=
  span_unique hlo (Nat.zero_lt_of_lt hlo) (Nat.mod_eq_of_lt hlo)

theorem span_eq_zero (hlo : lo < M) (hhi : hi < M) : span M lo hi = 0 ↔ lo = hi := by
  constructor
  · intro h
    rw [← add_span hlo hhi, h, Nat.add_zero, Nat.mod_eq_of_lt hlo]
  · rintro rfl
    exact span_self hlo

theorem span_succ (hlo : lo < M) (hhi : hi < M) (hn : span M lo hi + 1 < M) :
    span M lo ((hi + 1) % M) = span M lo hi + 1 := by
  refine span_unique hlo hn ?_
  rw [← Nat.add_assoc, Nat.add_mod, add_span hlo hhi, Nat.add_mod_mod]

theorem span_pred (hlo : lo < M) (hhi : hi < M) (hne : lo ≠ hi) :
    span M lo hi = span M ((lo + 1) % M) hi + 1 := by
  have hpos : span M lo hi ≠ 0 := fun h => hne ((span_eq_zero hlo hhi).mp h)
  have hlt : span M lo hi < M := span_lt hlo
  obtain ⟨n, hn⟩ := Nat.exists_eq_succ_of_ne_zero hpos
  have hspan : span M ((lo + 1) % M) hi = n := by
    refine span_unique (Nat.mod_lt _ (Nat.zero_lt_of_lt hlo)) (by omega) ?_
    rw [Nat.mod_add_mod, ← add_span hlo hhi, hn]
    congr 1
    omega
  rw [hspan, hn]

theorem window_self (hlo : lo < M) (data : ℕ → α) : window M N data lo lo = [] := by
  rw [window, span_self hlo]
  rfl

/-- The slot that is written is none of those that are still to be read. -/
theorem window_update (hM : N ∣ M) (hlo : lo < M) (hhi : hi < M) (hroom : span M lo hi < N)
    (data : ℕ → α) (x : α) :
    window M N (Function.update data (hi % N) x) lo hi = window M N data lo hi := by
  refine List.map_congr_left fun i hi' => Function.update_of_ne ?_ _ _
  rw [Nat.mod_mod_of_dvd _ hM, ← add_span hlo hhi, Nat.mod_mod_of_dvd _ hM]
  intro heq
  have hmod : lo + i ≡ lo + span M lo hi [MOD N] := heq
  have hi'' := List.mem_range.mp hi'
  have := Nat.ModEq.eq_of_lt_of_lt (hmod.add_left_cancel' lo) (by omega) hroom
  omega

theorem window_succ (hlo : lo < M) (hhi : hi < M) (hlt : span M lo hi + 1 < M) (data : ℕ → α) :
    window M N data lo ((hi + 1) % M) = window M N data lo hi ++ [data (hi % N)] := by
  unfold window
  rw [span_succ hlo hhi hlt, List.range_succ, List.map_append, List.map_singleton,
    add_span hlo hhi]

theorem window_push (hM : N ∣ M) (hlo : lo < M) (hhi : hi < M) (hroom : span M lo hi < N)
    (hlt : span M lo hi + 1 < M) (data : ℕ → α) (x : α) :
    window M N (Function.update data (hi % N) x) lo ((hi + 1) % M) =
      window M N data lo hi ++ [x] := by
  rw [window_succ hlo hhi hlt, window_update hM hlo hhi hroom, Function.update_self]

theorem window_pop (hlo : lo < M) (hhi : hi < M) (hne : lo ≠ hi) (data : ℕ → α) :
    window M N data lo hi = data (lo % N) :: window M N data ((lo + 1) % M) hi := by
  unfold window
  rw [span_pred hlo hhi hne, List.range_succ_eq_map, List.map_cons, List.map_map]
  congr 1
  · rw [Nat.add_zero, Nat.mod_eq_of_lt hlo]
  · refine List.map_congr_left fun i _ => ?_
    simp only [Function.comp_apply, Nat.mod_add_mod]
    congr 3
    omega

/-! ## Three counters -/

variable {mid : ℕ}

theorem span_add (hlo : lo < M) (hmid : mid < M) (hhi : hi < M)
    (hlt : span M lo mid + span M mid hi < M) :
    span M lo hi = span M lo mid + span M mid hi := by
  refine span_unique hlo hlt ?_
  rw [← Nat.add_assoc, Nat.add_mod, add_span hlo hmid, Nat.add_mod_mod, add_span hmid hhi]

/-- A counter in between cuts the queue in two. -/
theorem window_append (hlo : lo < M) (hmid : mid < M) (hhi : hi < M)
    (hlt : span M lo mid + span M mid hi < M) (data : ℕ → α) :
    window M N data lo hi = window M N data lo mid ++ window M N data mid hi := by
  unfold window
  rw [span_add hlo hmid hhi hlt, List.range_add, List.map_append, List.map_map]
  congr 1
  refine List.map_congr_left fun i _ => ?_
  rw [Function.comp_apply, ← Nat.add_assoc, Nat.add_mod, add_span hlo hmid, Nat.add_mod_mod]

end XV6AndConcurrency.Foundations
