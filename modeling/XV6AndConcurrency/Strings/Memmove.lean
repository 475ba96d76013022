import XV6AndConcurrency.Foundations.Moves
import XV6AndConcurrency.Foundations.PagedMemory

/-!
# The two versions of memmove

The kernel copies downwards only if the end of the source lies in the destination; the user
library does so whenever the source is not above the destination.
-/

namespace XV6AndConcurrency.Strings

open Foundations

/-- `memmove` of the kernel; `n` is a `uint`. -/
def kernelMemmove (m : Address → Byte) (dst src : Address) (n : ℕ) : Address → Byte :=
  if n = 0 then m
  else if src < dst ∧ dst < src + BitVec.ofNat 64 n then
    copyDown m (dst + BitVec.ofNat 64 n) (src + BitVec.ofNat 64 n) n
  else copyUp m dst src n

/-- `memmove` of the user library; `n` is an `int`. -/
def userMemmove (m : Address → Byte) (vdst vsrc : Address) (n : ℤ) : Address → Byte :=
  if vdst < vsrc then copyUp m vdst vsrc n.toNat
  else copyDown m (vdst + BitVec.ofInt 64 n) (vsrc + BitVec.ofInt 64 n) n.toNat

variable {m : Address → Byte} {dst src : Address} {n : ℕ}

theorem kernelMemmove_eq (hsrc : src.toNat + n ≤ 18446744073709551616)
    (hdst : dst.toNat + n ≤ 18446744073709551616) (hn : n < 4294967296) :
    kernelMemmove m dst src n = moved m dst src n := by
  unfold kernelMemmove
  split_ifs with hzero hbelow
  · subst hzero
    funext a
    exact (moved_of_le (Nat.zero_le _)).symm
  · apply copyDown_eq (by omega)
    right
    bv_omega
  · -- the destination is below the source, or behind its end
    apply copyUp_eq (by omega)
    by_cases hlt : src < dst
    · right
      have hend : ¬ dst < src + BitVec.ofNat 64 n := fun h => hbelow ⟨hlt, h⟩
      bv_omega
    · bv_omega

theorem userMemmove_eq (hsrc : src.toNat + n ≤ 18446744073709551616)
    (hdst : dst.toNat + n ≤ 18446744073709551616) (hn : n < 4294967296) :
    userMemmove m dst src n = moved m dst src n := by
  unfold userMemmove
  rw [Int.toNat_natCast, BitVec.ofInt_natCast]
  split_ifs with hlt
  · apply copyUp_eq (by omega)
    right
    bv_omega
  · apply copyDown_eq (by omega)
    bv_omega

/-- Both versions move the bytes as they were before the call, and change no other byte. -/
theorem memmove_moves (m : Address → Byte) (dst src : Address) (n : ℕ)
    (hsrc : src.toNat + n ≤ 18446744073709551616) (hdst : dst.toNat + n ≤ 18446744073709551616)
    (hn : n < 4294967296) :
    (∀ i < n, kernelMemmove m dst src n (dst + BitVec.ofNat 64 i) = m (src + BitVec.ofNat 64 i) ∧
      userMemmove m dst src n (dst + BitVec.ofNat 64 i) = m (src + BitVec.ofNat 64 i)) ∧
    (∀ a, (∀ i < n, a ≠ dst + BitVec.ofNat 64 i) →
      kernelMemmove m dst src n a = m a ∧ userMemmove m dst src n a = m a) ∧
    kernelMemmove m dst src n = userMemmove m dst src n := by
  rw [kernelMemmove_eq hsrc hdst hn, userMemmove_eq hsrc hdst hn]
  refine ⟨fun i hi => ?_, fun a ha => ?_, rfl⟩
  · have hval : moved m dst src n (dst + BitVec.ofNat 64 i) = m (src + BitVec.ofNat 64 i) := by
      rw [moved_of_lt (by bv_omega)]
      congr 1
      bv_omega
    exact ⟨hval, hval⟩
  · have hout : n ≤ (a - dst).toNat := by
      by_contra hlt
      refine ha (a - dst).toNat (not_le.mp hlt) ?_
      rw [BitVec.ofNat_toNat, BitVec.setWidth_eq]
      bv_omega
    exact ⟨moved_of_le hout, moved_of_le hout⟩

/-- Two bytes moved up by one place. -/
theorem memmove_moves_overlapping :
    kernelMemmove (fun a => a.setWidth 8) 1 0 2 =
      userMemmove (fun a => a.setWidth 8) 1 0 (2 : ℕ) :=
  (memmove_moves (fun a => a.setWidth 8) 1 0 2 (by decide) (by decide) (by decide)).2.2

end XV6AndConcurrency.Strings
