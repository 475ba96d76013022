import Mathlib.Tactic

/-!
# Addresses and page-table entries

The constants of `riscv.h` and `memlayout.h` and the macros on page-table
entries. Addresses are natural numbers, the values of the `uint64` they stand
for; an entry is a 64-bit word, and the masks are the ones the code writes.
-/

namespace XV6AndConcurrency.VirtualMemory

def pgsize : ℕ := 4096
def kernbase : ℕ := 0x80000000
def phystop : ℕ := kernbase + 128 * 1024 * 1024

/-- One beyond the highest virtual address. -/
def maxva : ℕ := 1 <<< (9 + 9 + 9 + 12 - 1)

def trampolineVa : ℕ := maxva - pgsize
def trapframeVa : ℕ := trampolineVa - pgsize

theorem phystop_eq : phystop = 0x88000000 := rfl
theorem maxva_eq : maxva = 2 ^ 38 := rfl
/-- `PGROUNDUP` in 64-bit arithmetic. -/
def pgroundup (sz : ℕ) : ℕ := (sz + pgsize - 1) % 2 ^ 64 / pgsize * pgsize

def pgrounddown (a : ℕ) : ℕ := a / pgsize * pgsize

/-- `PX(level, va)`, the page-table index of `va` at a level. -/
def px (level va : ℕ) : ℕ := (va >>> (12 + 9 * level)) &&& 0x1FF

abbrev Pte := BitVec 64

def pteV : Pte := 1#64 <<< 0
def pteR : Pte := 1#64 <<< 1
def pteW : Pte := 1#64 <<< 2
def pteX : Pte := 1#64 <<< 3
def pteU : Pte := 1#64 <<< 4
def pteRsw : Pte := 1#64 <<< 8

def pa2pte (pa : ℕ) : Pte := (BitVec.ofNat 64 pa >>> 12) <<< 10
def pte2pa (w : Pte) : ℕ := ((w >>> 10) <<< 12).toNat
def pteFlags (w : Pte) : Pte := w &&& 0x3FF#64

/-- Where the linker put the kernel: `end`, the first address after it, and the
page of `trampoline.S`. -/
structure Layout where
  endAddr : ℕ
  trampoline : ℕ
  kernbase_le_trampoline : kernbase ≤ trampoline
  trampoline_lt_end : trampoline < endAddr
  trampoline_aligned : trampoline % pgsize = 0
  end_lt_phystop : endAddr < phystop

/-- The pages the allocator manages, as `kfree` tests them. -/
def IsPage (L : Layout) (pa : ℕ) : Prop :=
  pa % 4096 = 0 ∧ L.endAddr ≤ pa ∧ pa < phystop

instance (L : Layout) (pa : ℕ) : Decidable (IsPage L pa) :=
  inferInstanceAs (Decidable (_ ∧ _ ∧ _))

theorem IsPage.pos {L : Layout} {pa : ℕ} (h : IsPage L pa) : 0 < pa := by
  have h1 := L.kernbase_le_trampoline
  have h2 := L.trampoline_lt_end
  have h3 := h.2.1
  unfold kernbase at h1
  omega

/-! ## Bits of an entry

Proofs read an entry bit by bit. The names below are the bits the kernel tests;
the `simp` lemmas turn the masks of the code into them. -/

def pteBit (i : ℕ) (w : Pte) : Bool := w.getLsbD i

abbrev pteValid (w : Pte) : Bool := pteBit 0 w
abbrev pteReadable (w : Pte) : Bool := pteBit 1 w
abbrev pteWritable (w : Pte) : Bool := pteBit 2 w
abbrev pteUser (w : Pte) : Bool := pteBit 4 w
abbrev pteCow (w : Pte) : Bool := pteBit 8 w

theorem getLsbD_one_shiftLeft (n i : ℕ) (hn : n < 64) :
    (1#64 <<< n).getLsbD i = decide (i = n) := by
  by_cases hin : i = n
  · subst hin
    simp [hn]
  · simp only [hin, decide_false]
    simp
    omega

theorem and_one_shiftLeft_eq_zero_iff (w : Pte) {n : ℕ} (hn : n < 64) :
    w &&& (1#64 <<< n) = 0#64 ↔ w.getLsbD n = false := by
  constructor
  · intro h
    have hb : (w &&& (1#64 <<< n)).getLsbD n = false := by rw [h]; simp
    simpa [hn] using hb
  · intro h
    apply BitVec.eq_of_getLsbD_eq
    intro i _
    rw [BitVec.getLsbD_and, getLsbD_one_shiftLeft n i hn]
    by_cases hin : i = n
    · subst hin
      simp [h]
    · simp [hin]

theorem getLsbD_flagMask (i : ℕ) : (0x3FF#64).getLsbD i = decide (i < 10) := by
  by_cases hi : i < 64
  · have h : ∀ j : Fin 64, (0x3FF#64).getLsbD j = decide (j.val < 10) := by decide
    exact h ⟨i, hi⟩
  · rw [BitVec.getLsbD_of_ge _ _ (by omega)]
    simp
    omega

section Bits

variable (i : ℕ) (w v : Pte)

@[simp] theorem pteBit_zero : pteBit i 0#64 = false := by simp [pteBit]

@[simp] theorem pteBit_or : pteBit i (w ||| v) = (pteBit i w || pteBit i v) :=
  BitVec.getLsbD_or ..

@[simp] theorem pteBit_and : pteBit i (w &&& v) = (pteBit i w && pteBit i v) :=
  BitVec.getLsbD_and ..

@[simp] theorem pteBit_not : pteBit i (~~~w) = (decide (i < 64) && !pteBit i w) :=
  BitVec.getLsbD_not ..

@[simp] theorem pteBit_pteV : pteBit i pteV = decide (i = 0) :=
  getLsbD_one_shiftLeft 0 i (by omega)

@[simp] theorem pteBit_pteR : pteBit i pteR = decide (i = 1) :=
  getLsbD_one_shiftLeft 1 i (by omega)

@[simp] theorem pteBit_pteW : pteBit i pteW = decide (i = 2) :=
  getLsbD_one_shiftLeft 2 i (by omega)

@[simp] theorem pteBit_pteX : pteBit i pteX = decide (i = 3) :=
  getLsbD_one_shiftLeft 3 i (by omega)

@[simp] theorem pteBit_pteU : pteBit i pteU = decide (i = 4) :=
  getLsbD_one_shiftLeft 4 i (by omega)

@[simp] theorem pteBit_pteRsw : pteBit i pteRsw = decide (i = 8) :=
  getLsbD_one_shiftLeft 8 i (by omega)

@[simp] theorem pteBit_flagMask : pteBit i 0x3FF#64 = decide (i < 10) := getLsbD_flagMask i

@[simp] theorem pteBit_pteFlags : pteBit i (pteFlags w) = (pteBit i w && decide (i < 10)) := by
  simp [pteFlags]

end Bits

theorem pte_ext {w v : Pte} (h : ∀ i < 64, pteBit i w = pteBit i v) : w = v :=
  BitVec.eq_of_getLsbD_eq h

@[simp] theorem and_pteV_eq_zero (w : Pte) : w &&& pteV = 0#64 ↔ pteValid w = false :=
  and_one_shiftLeft_eq_zero_iff w (by omega)

@[simp] theorem and_pteW_eq_zero (w : Pte) : w &&& pteW = 0#64 ↔ pteWritable w = false :=
  and_one_shiftLeft_eq_zero_iff w (by omega)

@[simp] theorem and_pteU_eq_zero (w : Pte) : w &&& pteU = 0#64 ↔ pteUser w = false :=
  and_one_shiftLeft_eq_zero_iff w (by omega)

@[simp] theorem and_pteRsw_eq_zero (w : Pte) : w &&& pteRsw = 0#64 ↔ pteCow w = false :=
  and_one_shiftLeft_eq_zero_iff w (by omega)

/-- Words that agree above the flag bits point at the same page. -/
theorem pte2pa_congr {w v : Pte} (h : ∀ i, 10 ≤ i → pteBit i w = pteBit i v) :
    pte2pa w = pte2pa v := by
  have hs : w >>> 10 = v >>> 10 := by
    apply BitVec.eq_of_getLsbD_eq
    intro i _
    simp only [BitVec.getLsbD_ushiftRight]
    exact h _ (by omega)
  rw [pte2pa, pte2pa, hs]

theorem pte2pa_pa2pte {pa : ℕ} (ha : pa % 4096 = 0) (hb : pa < 2 ^ 56) :
    pte2pa (pa2pte pa) = pa := by
  simp only [pte2pa, pa2pte, BitVec.toNat_shiftLeft, BitVec.toNat_ushiftRight, BitVec.toNat_ofNat,
    Nat.shiftLeft_eq, Nat.shiftRight_eq_div_pow]
  omega

@[simp] theorem pteBit_pa2pte {i : ℕ} (hi : i < 10) (pa : ℕ) : pteBit i (pa2pte pa) = false := by
  simp [pteBit, pa2pte, hi]

theorem IsPage.lt_two_pow {L : Layout} {pa : ℕ} (h : IsPage L pa) : pa < 2 ^ 56 := by
  have hlt := h.2.2
  rw [phystop_eq] at hlt
  omega

/-- An entry made from a page and flag bits points at that page. -/
theorem pte2pa_pa2pte_or {L : Layout} {pa : ℕ} (hp : IsPage L pa) {f : Pte}
    (hf : ∀ i, 10 ≤ i → pteBit i f = false) : pte2pa (pa2pte pa ||| f) = pa := by
  have hc : pte2pa (pa2pte pa ||| f) = pte2pa (pa2pte pa) := by
    apply pte2pa_congr
    intro i hi
    simp [hf i hi]
  rw [hc, pte2pa_pa2pte hp.1 hp.lt_two_pow]

/-! ## Arithmetic of addresses -/

theorem px_eq (level va : ℕ) : px level va = va / 2 ^ (12 + 9 * level) % 512 := by
  rw [px, Nat.shiftRight_eq_div_pow, show (0x1FF : ℕ) = 2 ^ 9 - 1 by rfl,
    Nat.and_two_pow_sub_one_eq_mod]

theorem px_lt (level va : ℕ) : px level va < 512 := by
  rw [px_eq]
  omega

/-- Number of pages a size takes. -/
def npagesOf (sz : ℕ) : ℕ := (sz + 4095) / 4096

theorem pgroundup_eq {sz : ℕ} (h : sz < 2 ^ 63) : pgroundup sz = npagesOf sz * 4096 := by
  simp only [pgroundup, pgsize, npagesOf]
  omega

end XV6AndConcurrency.VirtualMemory
