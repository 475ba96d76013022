import Mathlib.Tactic

/-!
# Copying a range byte by byte

Addresses are 64-bit numbers and wrap. A copy in one direction moves a range intact unless a
place of the destination lies ahead of the copy in the source.
-/

namespace XV6AndConcurrency.Foundations

abbrev Address := BitVec 64

variable {α : Type*}

/-- The contents of `n` places from `s` on, moved to the places from `d` on. -/
def moved (m : Address → α) (d s : Address) (n : ℕ) : Address → α := fun a =>
  if (a - d).toNat < n then m (s + (a - d)) else m a

/-- Copy `n` places from the lowest one on. -/
def copyUp (m : Address → α) (d s : Address) : ℕ → Address → α
  | 0 => m
  | n + 1 => copyUp (Function.update m d (m s)) (d + 1) (s + 1) n

/-- Copy the `n` places below `s` from the highest one on. -/
def copyDown (m : Address → α) (d s : Address) : ℕ → Address → α
  | 0 => m
  | n + 1 => copyDown (Function.update m (d - 1) (m (s - 1))) (d - 1) (s - 1) n

variable {m : Address → α} {a d s : Address} {n : ℕ}

theorem moved_of_lt (h : (a - d).toNat < n) : moved m d s n a = m (s + (a - d)) := if_pos h

theorem moved_of_le (h : n ≤ (a - d).toNat) : moved m d s n a = m a := if_neg (not_lt.mpr h)

/-- The first place is copied before the others are. -/
theorem moved_succ (hn : n < 18446744073709551616) (h : d = s ∨ n + 1 ≤ (d - s).toNat) :
    moved (Function.update m d (m s)) (d + 1) (s + 1) n = moved m d s (n + 1) := by
  funext a
  by_cases had : a = d
  · subst had
    rw [moved_of_le (by bv_omega), Function.update_self, moved_of_lt (by bv_omega)]
    congr 1
    bv_omega
  by_cases hin : (a - d).toNat < n + 1
  · rw [moved_of_lt (by bv_omega), moved_of_lt hin, Function.update_of_ne (by bv_omega)]
    congr 1
    bv_omega
  · rw [moved_of_le (by bv_omega), moved_of_le (by bv_omega), Function.update_of_ne had]

theorem copyUp_eq (hn : n ≤ 18446744073709551616) (h : d = s ∨ n ≤ (d - s).toNat) :
    copyUp m d s n = moved m d s n := by
  induction n generalizing m d s with
  | zero =>
    funext a
    exact (moved_of_le (Nat.zero_le _)).symm
  | succ n ih =>
    unfold copyUp
    rw [ih (by omega) (by bv_omega), moved_succ (by omega) h]

/-- The last place is copied before the others are. -/
theorem moved_pred (hn : n < 18446744073709551616) (h : d = s ∨ n + 1 ≤ (s - d).toNat) :
    moved (Function.update m (d + BitVec.ofNat 64 n) (m (s + BitVec.ofNat 64 n))) d s n =
      moved m d s (n + 1) := by
  funext a
  by_cases had : a = d + BitVec.ofNat 64 n
  · subst had
    rw [moved_of_le (by bv_omega), Function.update_self, moved_of_lt (by bv_omega)]
    congr 1
    bv_omega
  by_cases hin : (a - d).toNat < n
  · rw [moved_of_lt hin, moved_of_lt (by omega), Function.update_of_ne (by bv_omega)]
  · rw [moved_of_le (by omega), moved_of_le (by bv_omega), Function.update_of_ne had]

theorem copyDown_eq (hn : n ≤ 18446744073709551616) (h : d = s ∨ n ≤ (s - d).toNat) :
    copyDown m (d + BitVec.ofNat 64 n) (s + BitVec.ofNat 64 n) n = moved m d s n := by
  induction n generalizing m with
  | zero =>
    funext a
    exact (moved_of_le (Nat.zero_le _)).symm
  | succ n ih =>
    have hpred : ∀ x : Address, x + BitVec.ofNat 64 (n + 1) - 1 = x + BitVec.ofNat 64 n := by
      intro x
      bv_omega
    unfold copyDown
    rw [hpred, hpred, ih (by omega) (h.imp_right (by omega)), moved_pred (by omega) h]

end XV6AndConcurrency.Foundations
