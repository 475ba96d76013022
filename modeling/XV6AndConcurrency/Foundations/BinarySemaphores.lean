import XV6AndConcurrency.Foundations.PointSums

/-!
# Binary semaphores

A family of semaphores that are taken and given back by threads: a thread has at most one
of them, from its wait to its post.
-/

namespace XV6AndConcurrency.Foundations

variable {θ : Type*} {sem sem' : ℕ → ℕ} {holds holds' : θ → Option ℕ} {x : θ} {i : ℕ}

/-- The semaphore is 1 and nobody has it, or it is 0 and one thread has it. -/
def Guarded (sem : ℕ → ℕ) (holds : θ → Option ℕ) (i : ℕ) : Prop :=
  sem i = 1 ∧ (∀ x, holds x ≠ some i) ∨
    sem i = 0 ∧ ∃ x, holds x = some i ∧ ∀ y, holds y = some i → y = x

/-- What a step of a thread does with the semaphores. -/
inductive Operation (sem sem' : ℕ → ℕ) (holds holds' : θ → Option ℕ) (x : θ) : Prop
  | keep (hsem : sem' = sem) (hx : holds' x = holds x)
  | wait (i : ℕ) (hpos : 0 < sem i) (hsem : sem' = drop sem i) (hnone : holds x = none)
      (hx : holds' x = some i)
  | post (i : ℕ) (hsem : sem' = bump sem i) (hhad : holds x = some i) (hx : holds' x = none)

namespace Guarded

theorem of_same (hI : Guarded sem holds i) (hsem : sem' i = sem i)
    (hholds : ∀ y, holds' y = some i ↔ holds y = some i) : Guarded sem' holds' i := by
  unfold Guarded
  simp only [hsem, ne_eq, hholds]
  exact hI

theorem operate (hI : Guarded sem holds i) (hothers : ∀ y, y ≠ x → holds' y = holds y)
    (h : Operation sem sem' holds holds' x) : Guarded sem' holds' i := by
  cases h with
  | keep hsem hx =>
    apply hI.of_same (by rw [hsem])
    intro y
    by_cases hy : y = x
    · rw [hy, hx]
    · rw [hothers y hy]
  | wait j hpos hsem hnone hx =>
    by_cases hj : i = j
    · subst hj
      obtain ⟨hone, hnobody⟩ | ⟨hzero, -⟩ := hI
      · refine Or.inr ⟨?_, x, hx, fun y hy => ?_⟩
        · rw [hsem, drop_apply, if_pos rfl, hone]
        · by_contra hne
          exact hnobody y (hothers y hne ▸ hy)
      · omega
    · apply hI.of_same (by simp [hsem, drop_apply, hj])
      intro y
      by_cases hy : y = x
      · subst hy
        simp [hnone, hx, Ne.symm hj]
      · rw [hothers y hy]
  | post j hsem hhad hx =>
    by_cases hj : i = j
    · subst hj
      obtain ⟨-, hnobody⟩ | ⟨hzero, y, -, hunique⟩ := hI
      · exact absurd hhad (hnobody x)
      · refine Or.inl ⟨by rw [hsem, bump_self, hzero], fun z hz => ?_⟩
        have hne : z ≠ x := by
          intro he
          rw [he, hx] at hz
          cases hz
        exact hne ((hunique z (hothers z hne ▸ hz)).trans (hunique x hhad).symm)
    · apply hI.of_same (by simp [hsem, bump_apply, hj])
      intro y
      by_cases hy : y = x
      · subst hy
        simp [hhad, hx, Ne.symm hj]
      · rw [hothers y hy]

/-- The value is 0 or 1. -/
theorem binary (hI : Guarded sem holds i) : sem i = 0 ∨ sem i = 1 := by
  obtain ⟨hone, -⟩ | ⟨hzero, -⟩ := hI
  · exact Or.inr hone
  · exact Or.inl hzero

/-- The value is 0 exactly while some thread has the semaphore. -/
theorem eq_zero_iff (hI : Guarded sem holds i) : sem i = 0 ↔ ∃ x, holds x = some i := by
  obtain ⟨hone, hnobody⟩ | ⟨hzero, x, hx, -⟩ := hI
  · constructor
    · omega
    · intro ⟨x, hx⟩
      exact absurd hx (hnobody x)
  · exact ⟨fun _ => ⟨x, hx⟩, fun _ => hzero⟩

/-- One thread at a time. -/
theorem exclusive {x y : θ} (hI : Guarded sem holds i) (hx : holds x = some i)
    (hy : holds y = some i) : x = y := by
  obtain ⟨-, hnobody⟩ | ⟨-, z, -, hunique⟩ := hI
  · exact absurd hx (hnobody x)
  · exact (hunique x hx).trans (hunique y hy).symm

end Guarded

end XV6AndConcurrency.Foundations
