import XV6AndConcurrency.FileSystem.Layout
import XV6AndConcurrency.Foundations.CStrings
import XV6AndConcurrency.Foundations.DiskBlocks

/-!
# Names

The functions of `string.c` that compare and copy the names of files. A name is what a
pointer to characters reaches: the bytes up to the first NUL, and of these the first `DIRSIZ`.
-/

namespace XV6AndConcurrency.FileSystem

open Foundations

/-- `strncmp`. -/
def strncmp (p q : ℕ → Byte) : ℕ → ℤ
  | 0 => 0
  | n + 1 =>
    if p 0 ≠ 0 ∧ p 0 = q 0 then strncmp (fun i => p (i + 1)) (fun i => q (i + 1)) n
    else (p 0).toNat - (q 0).toNat

/-- The `n` bytes that `strncpy` stores. -/
def strncpy (t : ℕ → Byte) : ℕ → List Byte
  | 0 => []
  | n + 1 => t 0 :: if t 0 ≠ 0 then strncpy (fun i => t (i + 1)) n else List.replicate n 0

/-- `namecmp`. -/
def namecmp (s t : ℕ → Byte) : ℤ := strncmp s t dirsiz

variable {p q : ℕ → Byte} {n : ℕ}

/-- `strncmp` compares strings, cut off at the given length. -/
theorem strncmp_eq_zero : strncmp p q n = 0 ↔ cstr p n = cstr q n := by
  induction n generalizing p q with
  | zero => simp [strncmp, cstr]
  | succ n ih =>
    unfold strncmp cstr
    by_cases hsame : p 0 = q 0
    · rw [hsame]
      by_cases hzero : q 0 = 0
      · rw [if_pos hzero, if_pos hzero, if_neg fun h => h.1 hzero, sub_self]
        simp
      · rw [if_neg hzero, if_neg hzero, if_pos ⟨hzero, rfl⟩, ih]
        simp
    · rw [if_neg fun h => hsame h.2]
      constructor
      · intro h
        exact absurd (BitVec.eq_of_toNat_eq (by omega)) hsame
      · intro h
        split_ifs at h with hp hq hq
        · exact absurd (hp.trans hq.symm) hsame
        · exact absurd (List.cons.inj h).1 hsame

@[simp] theorem length_strncpy (t : ℕ → Byte) (n : ℕ) : (strncpy t n).length = n := by
  induction n generalizing t with
  | zero => rfl
  | succ n ih =>
    unfold strncpy
    split_ifs <;> simp [ih]

/-- A copied string is the string. -/
theorem cstr_strncpy (t : ℕ → Byte) (n : ℕ) :
    cstr (fun i => (strncpy t n).getD i 0) n = cstr t n := by
  induction n generalizing t with
  | zero => rfl
  | succ n ih =>
    unfold cstr strncpy
    simp only [List.getD_cons_zero, List.getD_cons_succ]
    by_cases hzero : t 0 = 0
    · rw [if_pos hzero, if_pos hzero]
    · rw [if_neg hzero, if_neg hzero, if_pos hzero, ih]

end XV6AndConcurrency.FileSystem
