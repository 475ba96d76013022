import XV6AndConcurrency.Foundations.PagedMemory

/-!
# Strings in memory

What a pointer to characters reaches: the bytes up to the first NUL.
-/

namespace XV6AndConcurrency.Foundations

/-- The characters of a string, at most `n`. -/
def cstr (p : ℕ → Byte) : ℕ → List Byte
  | 0 => []
  | n + 1 => if p 0 = 0 then [] else p 0 :: cstr (fun i => p (i + 1)) n

variable {p q : ℕ → Byte} {n : ℕ}

/-- Characters that are followed by a NUL, or that fill the buffer. -/
theorem cstr_eq_take {e : List Byte} (he : ∀ c ∈ e, c ≠ 0)
    (h : ∀ i < n, i ≤ e.length → p i = e.getD i 0) : cstr p n = e.take n := by
  induction n generalizing p e with
  | zero => rfl
  | succ n ih =>
    unfold cstr
    have hzero := h 0 (Nat.succ_pos n) (Nat.zero_le _)
    cases e with
    | nil => rw [if_pos (by simpa using hzero), List.take_nil]
    | cons c e =>
      rw [List.getD_cons_zero] at hzero
      rw [hzero, if_neg (he c List.mem_cons_self), List.take_succ_cons,
        ih (fun c hc => he c (List.mem_cons_of_mem _ hc)) fun i hi hle => ?_]
      simpa using h (i + 1) (Nat.succ_lt_succ hi) (Nat.succ_le_succ hle)

end XV6AndConcurrency.Foundations
