import Mathlib.Algebra.BigOperators.Group.Finset.Basic
import Mathlib.Tactic

/-!
# Counters that move one at a time

Sums of functions that differ at a single point, and the update of a counter by
one. Reference counting moves a reference from one kind of owner to another;
these are the equations such a move satisfies.
-/

namespace XV6AndConcurrency.Foundations

variable {α : Type} [DecidableEq α]

/-- Two sums whose terms differ at `a` only. -/
theorem sum_add_point {s : Finset α} {f g : α → ℕ} {a : α} (ha : a ∈ s)
    (h : ∀ x ∈ s, x ≠ a → g x = f x) : ∑ x ∈ s, g x + f a = ∑ x ∈ s, f x + g a := by
  have hg := Finset.add_sum_erase s g ha
  have hf := Finset.add_sum_erase s f ha
  have he : ∑ x ∈ s.erase a, g x = ∑ x ∈ s.erase a, f x := by
    apply Finset.sum_congr rfl
    intro x hx
    exact h x (Finset.mem_of_mem_erase hx) (Finset.ne_of_mem_erase hx)
  omega

/-- One more at `a`. -/
def bump (f : α → ℕ) (a : α) : α → ℕ := Function.update f a (f a + 1)

/-- One less at `a`. -/
def drop (f : α → ℕ) (a : α) : α → ℕ := Function.update f a (f a - 1)

variable (f : α → ℕ) (a b : α)

theorem bump_apply : bump f a b = f b + if b = a then 1 else 0 := by
  by_cases h : b = a
  · subst h
    simp [bump]
  · simp [bump, h]

theorem drop_apply : drop f a b = f b - if b = a then 1 else 0 := by
  by_cases h : b = a
  · subst h
    simp [drop]
  · simp [drop, h]

@[simp] theorem bump_self : bump f a a = f a + 1 := by simp [bump]

@[simp] theorem drop_bump : drop (bump f a) a = f := by
  funext b
  by_cases h : b = a
  · subst h
    simp [drop, bump]
  · simp [drop, bump, h]

theorem bump_drop (h : 0 < f a) : bump (drop f a) a = f := by
  funext b
  by_cases hb : b = a
  · subst hb
    simp only [bump, drop, Function.update_self]
    omega
  · simp [drop, bump, hb]

theorem bump_comm : bump (bump f a) b = bump (bump f b) a := by
  funext c
  simp only [bump_apply]
  omega

end XV6AndConcurrency.Foundations
