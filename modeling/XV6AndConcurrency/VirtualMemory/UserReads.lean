import XV6AndConcurrency.Foundations.PartialReads
import XV6AndConcurrency.VirtualMemory.Isolation

/-!
# Reading user memory

`copyin` and `copyinstr`, for any page table and any address. They go through the user's memory
a page at a time, and read what a reader of single bytes would read.
-/

namespace XV6AndConcurrency.VirtualMemory

open Foundations

/-- The loop of `copyin`: whether it returns 0, and the bytes stored at `dst`. `fuel` is at
least the number of bytes left. -/
def copyinLoop (pagetable : ℕ) : ℕ → ℕ → ℕ → List Byte → KernelM (Bool × List Byte)
  | 0, _, _, dst => pure (true, dst)
  | fuel + 1, srcva, len, dst =>
    if len = 0 then
      pure (true, dst)
    else do
      let va0 := pgrounddown srcva
      let pa0 ← walkaddr pagetable va0
      match pa0 with
      | none => pure (false, dst)
      | some pa0 => do
        let n := min (pgsize - (srcva - va0)) len
        let bytes ← look fun k => (List.range n).map fun i => k.mem pa0 (srcva - va0 + i)
        copyinLoop pagetable fuel ((va0 + pgsize) % 18446744073709551616) (len - n) (dst ++ bytes)

def copyin (pagetable srcva len : ℕ) : KernelM (Bool × List Byte) :=
  copyinLoop pagetable len srcva len []

/-- The inner loop of `copyinstr` over `n` bytes of a page: `got_null`, `max` and the bytes
stored at `dst`. -/
def copyinstrPage (page : ℕ → Byte) : ℕ → ℕ → ℕ → List Byte → Bool × ℕ × List Byte
  | 0, _, max, dst => (false, max, dst)
  | n + 1, p, max, dst =>
    if page p = 0 then (true, max, dst ++ [0])
    else copyinstrPage page n (p + 1) (max - 1) (dst ++ [page p])

/-- The loop of `copyinstr`. -/
def copyinstrLoop (pagetable : ℕ) : ℕ → ℕ → ℕ → Bool → List Byte → KernelM (Bool × List Byte)
  | 0, _, _, gotNull, dst => pure (gotNull, dst)
  | fuel + 1, srcva, max, gotNull, dst =>
    if gotNull = false ∧ 0 < max then do
      let va0 := pgrounddown srcva
      let pa0 ← walkaddr pagetable va0
      match pa0 with
      | none => pure (false, dst)
      | some pa0 => do
        let n := min (pgsize - (srcva - va0)) max
        let page ← look fun k => k.mem pa0
        let r := copyinstrPage page n (srcva - va0) max dst
        copyinstrLoop pagetable fuel ((va0 + pgsize) % 18446744073709551616) r.2.1 r.1 r.2.2
    else pure (gotNull, dst)

/-- `copyinstr`; every round stores a byte, so `max` rounds are enough. -/
def copyinstr (pagetable srcva max : ℕ) : KernelM (Bool × List Byte) :=
  copyinstrLoop pagetable max srcva max false []

/-! ## The bytes of the user -/

variable {k : Kernel} {r va srcva len max n fuel p : ℕ} {dst : List Byte}

/-- The byte at the user address `va`, where `walkaddr` finds a page. -/
def userByte (k : Kernel) (r va : ℕ) : Option Byte :=
  if va < maxva then (userPage (leaf k.mem r (va / 4096))).map fun p => k.mem p (va % 4096)
  else none

/-- What `walkaddr` finds for the page of an address. -/
theorem walkaddr_page (k : Kernel) (r va : ℕ) : walkaddr r (pgrounddown va) k =
    .ok (if va < maxva then userPage (leaf k.mem r (va / 4096)) else none, k) := by
  have hdown : pgrounddown va = va / 4096 * 4096 := rfl
  have hlt : va / 4096 * 4096 < maxva ↔ va < maxva := by
    rw [maxva_eq]
    omega
  rw [walkaddr_run, hdown, Nat.mul_div_cancel _ (by decide)]
  simp only [hlt]

theorem userByte_eq_none
    (h : (if va < maxva then userPage (leaf k.mem r (va / 4096)) else none) = none) :
    userByte k r va = none := by
  unfold userByte
  split_ifs at h ⊢
  · rw [h]
    rfl
  · rfl

/-- The bytes of a page that `walkaddr` finds. -/
theorem userByte_eq_some
    (h : (if va < maxva then userPage (leaf k.mem r (va / 4096)) else none) = some p) {i : ℕ}
    (hi : va % 4096 + i < 4096) : userByte k r (va + i) = some (k.mem p ((va + i) % 4096)) := by
  split_ifs at h with hlt
  have hpage : (va + i) / 4096 = va / 4096 := by omega
  have hmax : va + i < maxva := by
    rw [maxva_eq] at hlt ⊢
    omega
  unfold userByte
  rw [if_pos hmax, hpage, h]
  rfl

/-- The address of the next page, which the code computes modulo `2 ^ 64`. -/
theorem next_page (h : (if va < maxva then userPage (leaf k.mem r (va / 4096)) else none) = some p)
    (hn : n = min (4096 - va % 4096) len) (hlt : n < len) :
    (pgrounddown va + pgsize) % 18446744073709551616 = va + n := by
  split_ifs at h with hmax
  have hdown : pgrounddown va = va / 4096 * 4096 := rfl
  rw [maxva_eq] at hmax
  rw [hdown, pgsize]
  omega

/-- `copyin` reads byte by byte, up to the first byte that is not there. -/
theorem copyinLoop_eq (hfuel : len ≤ fuel) (k : Kernel) (r srcva : ℕ) (dst : List Byte) :
    copyinLoop r fuel srcva len dst k = .ok (((readFrom (userByte k r) srcva len).1,
      dst ++ (readFrom (userByte k r) srcva len).2), k) := by
  induction fuel generalizing srcva len dst with
  | zero =>
    obtain rfl := Nat.le_zero.mp hfuel
    simp [copyinLoop, readFrom]
  | succ fuel ih =>
    by_cases hlen : len = 0
    · subst hlen
      simp [copyinLoop, readFrom]
    have hoff : srcva - pgrounddown srcva = srcva % 4096 := by
      have hdown : pgrounddown srcva = srcva / 4096 * 4096 := rfl
      omega
    rw [copyinLoop, if_neg hlen]
    simp only [bind_run, walkaddr_page, ok_bind, hoff]
    cases hp : (if srcva < maxva then userPage (leaf k.mem r (srcva / 4096)) else none) with
    | none =>
      obtain ⟨len, rfl⟩ := Nat.exists_eq_succ_of_ne_zero hlen
      rw [readFrom, userByte_eq_none hp]
      simp
    | some p =>
      have hpg : pgsize - srcva % 4096 = 4096 - srcva % 4096 := rfl
      simp only [bind_run, look_run, ok_bind, hpg]
      set n := min (4096 - srcva % 4096) len with hn
      obtain ⟨f, hf⟩ : ∃ f : ℕ → Byte, ∀ x, f x = k.mem p (x % 4096) := ⟨_, fun _ => rfl⟩
      have hget : ∀ i < n, userByte k r (srcva + i) = some (f (srcva + i)) := by
        intro i hi
        rw [userByte_eq_some hp (by omega), hf]
      have hbytes : ((List.range n).map fun i => k.mem p (srcva % 4096 + i)) =
          (List.range n).map fun i => f (srcva + i) := by
        refine List.map_congr_left fun i hi => ?_
        have hi := List.mem_range.mp hi
        rw [hf, show srcva % 4096 + i = (srcva + i) % 4096 by omega]
      have hadd := readFrom_add f hget (len - n)
      rw [show n + (len - n) = len by omega] at hadd
      rw [hbytes, ih (by omega), hadd, List.append_assoc]
      by_cases hrest : len - n = 0
      · simp only [hrest, readFrom]
      · rw [next_page hp hn (by omega)]

theorem copyinstrPage_of_forall {page : ℕ → Byte} (h : ∀ i < n, page (p + i) ≠ 0) :
    copyinstrPage page n p max dst =
      (false, max - n, dst ++ (List.range n).map fun i => page (p + i)) := by
  induction n generalizing p max dst with
  | zero => simp [copyinstrPage]
  | succ n ih =>
    obtain ⟨h0, hnext⟩ := (forall_shift (P := fun x => page x ≠ 0)).mp h
    rw [copyinstrPage, if_neg h0, ih hnext, map_range_shift page, List.append_assoc, Nat.sub_sub,
      Nat.add_comm 1]
    rfl

theorem copyinstrPage_of_zero {page : ℕ → Byte} {j : ℕ} (h : ∀ i < j, page (p + i) ≠ 0)
    (hz : page (p + j) = 0) (hj : j < n) :
    (copyinstrPage page n p max dst).1 = true ∧
      (copyinstrPage page n p max dst).2.2 =
        dst ++ (List.range j).map (fun i => page (p + i)) ++ [0] := by
  induction j generalizing n p max dst with
  | zero =>
    obtain ⟨n, rfl⟩ := Nat.exists_eq_add_of_lt hj
    rw [Nat.zero_add, copyinstrPage, if_pos (by simpa using hz)]
    simp
  | succ j ih =>
    obtain ⟨n, rfl⟩ : ∃ m, n = m + 1 := ⟨n - 1, by omega⟩
    obtain ⟨h0, hnext⟩ := (forall_shift (P := fun x => page x ≠ 0)).mp h
    obtain ⟨hgot, hdst⟩ := @ih (max - 1) n (p + 1) (dst ++ [page p]) hnext
      (by rwa [Nat.add_right_comm]) (by omega)
    rw [copyinstrPage, if_neg h0]
    refine ⟨hgot, ?_⟩
    rw [hdst, map_range_shift page]
    simp

theorem copyinstrLoop_got (fuel srcva max : ℕ) :
    copyinstrLoop r fuel srcva max true dst k = .ok ((true, dst), k) := by
  cases fuel <;> simp [copyinstrLoop]

/-- `copyinstr` reads byte by byte, up to the NUL. -/
theorem copyinstrLoop_eq (hfuel : max ≤ fuel) (k : Kernel) (r srcva : ℕ) (dst : List Byte) :
    copyinstrLoop r fuel srcva max false dst k = .ok (((readUntil (userByte k r) 0 srcva max).1,
      dst ++ (readUntil (userByte k r) 0 srcva max).2), k) := by
  induction fuel generalizing srcva max dst with
  | zero =>
    obtain rfl := Nat.le_zero.mp hfuel
    simp [copyinstrLoop, readUntil]
  | succ fuel ih =>
    by_cases hmax : max = 0
    · subst hmax
      simp [copyinstrLoop, readUntil]
    have hoff : srcva - pgrounddown srcva = srcva % 4096 := by
      have hdown : pgrounddown srcva = srcva / 4096 * 4096 := rfl
      omega
    rw [copyinstrLoop, if_pos ⟨rfl, Nat.pos_of_ne_zero hmax⟩]
    simp only [bind_run, walkaddr_page, ok_bind, hoff]
    cases hp : (if srcva < maxva then userPage (leaf k.mem r (srcva / 4096)) else none) with
    | none =>
      rw [readUntil_of_none (userByte_eq_none hp)]
      simp
    | some p =>
      have hpg : pgsize - srcva % 4096 = 4096 - srcva % 4096 := rfl
      simp only [bind_run, look_run, ok_bind, hpg]
      set n := min (4096 - srcva % 4096) max with hn
      obtain ⟨f, hf⟩ : ∃ f : ℕ → Byte, ∀ x, f x = k.mem p (x % 4096) := ⟨_, fun _ => rfl⟩
      have hget : ∀ i < n, userByte k r (srcva + i) = some (f (srcva + i)) := by
        intro i hi
        rw [userByte_eq_some hp (by omega), hf]
      have hbyte : ∀ i < n, k.mem p (srcva % 4096 + i) = f (srcva + i) := by
        intro i hi
        rw [hf, show srcva % 4096 + i = (srcva + i) % 4096 by omega]
      by_cases hnul : ∃ j < n, k.mem p (srcva % 4096 + j) = 0
      · -- the string ends on this page
        obtain ⟨j, hj, hz, hfirst⟩ : ∃ j < n, k.mem p (srcva % 4096 + j) = 0 ∧
            ∀ i < j, k.mem p (srcva % 4096 + i) ≠ 0 :=
          ⟨Nat.find hnul, (Nat.find_spec hnul).1, (Nat.find_spec hnul).2,
            fun i hi hz => Nat.find_min hnul hi ⟨hi.trans (Nat.find_spec hnul).1, hz⟩⟩
        obtain ⟨hgot, hdst⟩ := @copyinstrPage_of_zero max n (srcva % 4096) dst _ j hfirst hz hj
        have hne : ∀ i < j, f (srcva + i) ≠ 0 := by
          intro i hi
          rw [← hbyte i (hi.trans hj)]
          exact hfirst i hi
        have hend : userByte k r (srcva + j) = some 0 := by
          rw [hget j hj, ← hbyte j hj, hz]
        have hadd := readUntil_add f (fun i hi => hget i (hi.trans hj)) hne (max - j - 1 + 1)
        rw [readUntil_of_some hend, show j + (max - j - 1 + 1) = max by omega] at hadd
        have hbytes : (List.range j).map (fun i => k.mem p (srcva % 4096 + i)) =
            (List.range j).map fun i => f (srcva + i) :=
          List.map_congr_left fun i hi => hbyte i ((List.mem_range.mp hi).trans hj)
        rw [hgot, hdst, copyinstrLoop_got, hadd, hbytes, List.append_assoc]
      · push Not at hnul
        have hne : ∀ i < n, f (srcva + i) ≠ 0 := by
          intro i hi
          rw [← hbyte i hi]
          exact hnul i hi
        have hadd := readUntil_add f hget hne (max - n)
        rw [show n + (max - n) = max by omega] at hadd
        have hbytes : (List.range n).map (fun i => k.mem p (srcva % 4096 + i)) =
            (List.range n).map fun i => f (srcva + i) :=
          List.map_congr_left fun i hi => hbyte i (List.mem_range.mp hi)
        have hle : max - n ≤ fuel := by omega
        rw [copyinstrPage_of_forall hnul]
        dsimp only
        rw [ih hle, hadd, hbytes, List.append_assoc]
        by_cases hrest : max - n = 0
        · simp only [hrest, readUntil]
        · rw [next_page hp hn (by omega)]

/-! ## What they return -/

/-- The byte of physical memory that the user address `va` is translated to. -/
def byteAt (k : Kernel) (r va : ℕ) : Byte := k.mem (pte2pa (leaf k.mem r (va / 4096))) (va % 4096)

theorem userByte_isSome (h : Open k r (va / 4096) → pte2pa (leaf k.mem r (va / 4096)) ≠ 0) :
    (userByte k r va).isSome ↔ Open k r (va / 4096) := by
  have hlt : va / 4096 * 4096 < maxva ↔ va < maxva := by
    rw [maxva_eq]
    omega
  unfold userByte userPage
  unfold Open at h ⊢
  rw [hlt] at h ⊢
  split_ifs with hva hpage
  · exact iff_of_true rfl ⟨hva, hpage.1, hpage.2.1⟩
  · refine iff_of_false Bool.false_ne_true ?_
    rintro ⟨-, hval, huser⟩
    exact hpage ⟨hval, huser, h ⟨hva, hval, huser⟩⟩
  · exact iff_of_false Bool.false_ne_true fun h => hva h.1

theorem userByte_eq (h : (userByte k r va).isSome) : userByte k r va = some (byteAt k r va) := by
  unfold userByte at h ⊢
  split_ifs at h ⊢ with hva
  · cases hp : userPage (leaf k.mem r (va / 4096)) with
    | none => simp [hp] at h
    | some p =>
      obtain ⟨-, -, rfl⟩ := userPage_eq_some hp
      rfl
  · exact absurd h Bool.false_ne_true

/-- `copyin` returns 0 exactly if every page of the range is mapped for the user. -/
theorem copyin_spec
    (hphys : ∀ i < len, Open k r ((srcva + i) / 4096) →
      pte2pa (leaf k.mem r ((srcva + i) / 4096)) ≠ 0) :
    ∃ ok dst, copyin r srcva len k = .ok ((ok, dst), k) ∧
      (ok = true ↔ ∀ i < len, Open k r ((srcva + i) / 4096)) ∧
      (ok = true → dst = (List.range len).map fun i => byteAt k r (srcva + i)) := by
  refine ⟨_, _, copyinLoop_eq le_rfl k r srcva [], ?_, ?_⟩
  · rw [readFrom_fst]
    exact forall₂_congr fun i hi => userByte_isSome (hphys i hi)
  · intro h
    have hget : ∀ i < len, userByte k r (srcva + i) = some (byteAt k r (srcva + i)) :=
      fun i hi => userByte_eq (readFrom_fst.mp h i hi)
    rw [readFrom_of_forall (byteAt k r) hget]
    rfl

/-- `copyinstr` returns 0 exactly if there is a NUL and everything up to it is mapped for the
user. -/
theorem copyinstr_spec
    (hphys : ∀ i < max, Open k r ((srcva + i) / 4096) →
      pte2pa (leaf k.mem r ((srcva + i) / 4096)) ≠ 0) :
    ∃ ok dst, copyinstr r srcva max k = .ok ((ok, dst), k) ∧ dst.length ≤ max ∧
      (ok = true ↔ ∃ n < max, byteAt k r (srcva + n) = 0 ∧
        ∀ i ≤ n, Open k r ((srcva + i) / 4096)) ∧
      (ok = true → ∃ n < max, (∀ i < n, byteAt k r (srcva + i) ≠ 0) ∧
        byteAt k r (srcva + n) = 0 ∧
        dst = (List.range (n + 1)).map fun i => byteAt k r (srcva + i)) := by
  refine ⟨_, _, copyinstrLoop_eq le_rfl k r srcva [], ?_, ?_, ?_⟩
  · exact length_readUntil_le
  · rw [readUntil_fst]
    refine exists_congr fun n => and_congr_right fun hn => ?_
    constructor
    · rintro ⟨hz, hall⟩
      have hsome : (userByte k r (srcva + n)).isSome := by
        rw [hz]
        rfl
      refine ⟨Option.some.inj ((userByte_eq hsome).symm.trans hz), fun i hi => ?_⟩
      rcases hi.lt_or_eq with hlt | rfl
      · exact (userByte_isSome (hphys i (hlt.trans hn))).mp (hall i hlt)
      · exact (userByte_isSome (hphys i hn)).mp hsome
    · rintro ⟨hz, hall⟩
      have hsome : ∀ i ≤ n, (userByte k r (srcva + i)).isSome :=
        fun i hi => (userByte_isSome (hphys i (hi.trans_lt hn))).mpr (hall i hi)
      refine ⟨?_, fun i hi => hsome i hi.le⟩
      rw [userByte_eq (hsome n le_rfl), hz]
  · intro h
    exact readUntil_snd (fun x => userByte_eq) h

/-- `copyin` and `copyinstr` read user memory exactly. -/
theorem user_memory_is_read_exactly (k : Kernel) (r srcva len max : ℕ)
    (hphys : ∀ i, i < len ∨ i < max → Open k r ((srcva + i) / 4096) →
      pte2pa (leaf k.mem r ((srcva + i) / 4096)) ≠ 0) :
    (∃ ok dst, copyin r srcva len k = .ok ((ok, dst), k) ∧
      (ok = true ↔ ∀ i < len, Open k r ((srcva + i) / 4096)) ∧
      (ok = true → dst = (List.range len).map fun i => byteAt k r (srcva + i))) ∧
    ∃ ok dst, copyinstr r srcva max k = .ok ((ok, dst), k) ∧ dst.length ≤ max ∧
      (ok = true ↔ ∃ n < max, byteAt k r (srcva + n) = 0 ∧
        ∀ i ≤ n, Open k r ((srcva + i) / 4096)) ∧
      (ok = true → ∃ n < max, (∀ i < n, byteAt k r (srcva + i) ≠ 0) ∧
        byteAt k r (srcva + n) = 0 ∧
        dst = (List.range (n + 1)).map fun i => byteAt k r (srcva + i)) :=
  ⟨copyin_spec fun i hi => hphys i (.inl hi), copyinstr_spec fun i hi => hphys i (.inr hi)⟩

/-- A table with one page for the user, which holds the string `a`. -/
def oneString : Kernel where
  mem := (((Memory.setWord (fun q o => if q = 16384 ∧ o = 0 then 97 else 0)
    4096 0 (pa2pte 8192 ||| pteV)).setWord 8192 0 (pa2pte 12288 ||| pteV)).setWord 12288 0
      (pa2pte 16384 ||| pteV ||| pteU ||| pteR))
  freelist := []
  referenceCount := fun _ => 0

theorem oneString_is_read_exactly :
    ∃ dst, copyinstr 4096 0 8 oneString = .ok ((true, dst), oneString) ∧ dst.length ≤ 8 := by
  have hleaf : leaf oneString.mem 4096 0 = pa2pte 16384 ||| pteV ||| pteU ||| pteR := by
    decide +kernel
  have hpage : ∀ i < 8, (0 + i) / 4096 = 0 := fun i hi => by omega
  have hopen : Open oneString 4096 0 := by
    rw [Open, hleaf]
    decide
  have hphys : ∀ i, i < 1 ∨ i < 8 → Open oneString 4096 ((0 + i) / 4096) →
      pte2pa (leaf oneString.mem 4096 ((0 + i) / 4096)) ≠ 0 := by
    intro i hi _
    rw [hpage i (by omega), hleaf]
    decide
  obtain ⟨ok, dst, hrun, hlen, hok, -⟩ :=
    (user_memory_is_read_exactly oneString 4096 0 1 8 hphys).2
  have htrue : ok = true := by
    refine hok.mpr ⟨1, by decide, by decide +kernel, fun i hi => ?_⟩
    rw [hpage i (by omega)]
    exact hopen
  exact ⟨dst, htrue ▸ hrun, hlen⟩

end XV6AndConcurrency.VirtualMemory
