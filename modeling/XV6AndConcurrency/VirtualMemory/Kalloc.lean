import XV6AndConcurrency.Foundations.PagedMemory
import XV6AndConcurrency.Foundations.PanicState
import XV6AndConcurrency.VirtualMemory.Riscv

/-!
# The physical page allocator

`kalloc.c`: the free list, the reference counts that copy-on-write fork added,
and the boot loop that fills the free list. The list is kept as a Lean list and
not threaded through the free pages, whose contents nobody reads. A reference
count is an integer of unbounded size: the code has an `int`, whose overflow C
leaves undefined.
-/

namespace XV6AndConcurrency.VirtualMemory

open Foundations

/-- The places where the memory code stops the machine. `kerneltrap` stands for
a kernel access through a null pointer or past the kernel stack. -/
inductive Panic
  | kfree
  | walk
  | mappagesSize
  | mappagesRemap
  | uvmunmapNotAligned
  | uvmunmapWalk
  | uvmunmapNotMapped
  | uvmunmapNotALeaf
  | uvmfirst
  | freewalkLeaf
  | uvmcopyPte
  | uvmcopyPage
  | uvmclear
  | loadseg
  | kerneltrap
  deriving DecidableEq, Repr

/-- Physical memory and the allocator's variables. Pages are named by their
physical address. -/
structure Kernel where
  mem : Memory
  freelist : List ℕ
  referenceCount : ℕ → ℤ

abbrev KernelM := Stoppable Kernel Panic

namespace Kernel

/-- `reference_count[pa / 4096]`. -/
def refs (k : Kernel) (pa : ℕ) : ℤ := k.referenceCount (pa / 4096)

def setRefs (k : Kernel) (pa : ℕ) (c : ℤ) : Kernel :=
  { k with referenceCount := Function.update k.referenceCount (pa / 4096) c }

def setMem (k : Kernel) (m : Memory) : Kernel := { k with mem := m }

end Kernel

/-- Drop a reference to `pa`; the last one puts the page on the free list. -/
def kfree (L : Layout) (pa : ℕ) : KernelM Unit :=
  if pa % 4096 ≠ 0 ∨ pa < L.endAddr ∨ phystop ≤ pa then
    stop .kfree
  else do
    modify fun k => k.setRefs pa (k.refs pa - 1)
    let temp ← look fun k => k.refs pa
    if temp > 0 then
      pure ()
    else do
      modify fun k => k.setMem (k.mem.fill pa 1#8)
      modify fun k => { k with freelist := pa :: k.freelist }

/-- Take the first page of the free list, or nothing. -/
def kalloc : KernelM (Option ℕ) := do
  let freelist ← look Kernel.freelist
  match freelist with
  | [] => pure none
  | r :: next => do
    modify fun k => { k with freelist := next }
    modify fun k => k.setRefs r 1
    modify fun k => k.setMem (k.mem.fill r 5#8)
    pure (some r)

/-- `freerange` over `n` pages from `p` on. -/
def freerange (L : Layout) (p : ℕ) : ℕ → KernelM Unit
  | 0 => pure ()
  | n + 1 => do
    kfree L p
    freerange L (p + pgsize) n

def kinit (L : Layout) : KernelM Unit :=
  freerange L (pgroundup L.endAddr) ((phystop - pgroundup L.endAddr) / pgsize)

/-- Before `kinit`: memory holds anything, `kmem` and `reference_count` are zero. -/
def Kernel.powerOn (m : Memory) : Kernel where
  mem := m
  freelist := []
  referenceCount := fun _ => 0

/-! ## What the allocator does to the state -/

namespace Kernel

variable (k : Kernel) (pa p : ℕ)

/-- The state after a `kfree` that does not panic. -/
def release (k : Kernel) (pa : ℕ) : Kernel :=
  if 1 < k.refs pa then k.setRefs pa (k.refs pa - 1)
  else { mem := k.mem.fill pa 1#8
         freelist := pa :: k.freelist
         referenceCount := (k.setRefs pa (k.refs pa - 1)).referenceCount }

@[simp] theorem setMem_mem (m : Memory) : (k.setMem m).mem = m := rfl
@[simp] theorem setMem_freelist (m : Memory) : (k.setMem m).freelist = k.freelist := rfl
@[simp] theorem setMem_refs (m : Memory) : (k.setMem m).refs p = k.refs p := rfl
@[simp] theorem setRefs_mem (c : ℤ) : (k.setRefs pa c).mem = k.mem := rfl
@[simp] theorem setRefs_freelist (c : ℤ) : (k.setRefs pa c).freelist = k.freelist := rfl

@[simp] theorem setRefs_refs_self (c : ℤ) : (k.setRefs pa c).refs pa = c := by
  simp [setRefs, refs]

/-- Counts of different pages are kept in different array cells. -/
theorem setRefs_refs_of_ne {pa p : ℕ} (ha : pa % 4096 = 0) (hp : p % 4096 = 0) (h : p ≠ pa)
    (c : ℤ) : (k.setRefs pa c).refs p = k.refs p := by
  have hd : p / 4096 ≠ pa / 4096 := by omega
  simp [setRefs, refs, Function.update_of_ne hd]

theorem release_refs_self : (k.release pa).refs pa = k.refs pa - 1 := by
  unfold release
  split_ifs
  · simp
  · simp [refs, setRefs]

theorem release_refs_of_ne {pa p : ℕ} (ha : pa % 4096 = 0) (hp : p % 4096 = 0) (h : p ≠ pa) :
    (k.release pa).refs p = k.refs p := by
  have hs := k.setRefs_refs_of_ne ha hp h (k.refs pa - 1)
  unfold release
  split_ifs
  · exact hs
  · exact hs

theorem release_freelist : (k.release pa).freelist =
    if 1 < k.refs pa then k.freelist else pa :: k.freelist := by
  unfold release
  split_ifs <;> rfl

theorem release_mem_of_ne {pa p : ℕ} (h : p ≠ pa) : (k.release pa).mem p = k.mem p := by
  unfold release
  split_ifs
  · rfl
  · exact Memory.fill_of_ne _ _ _ _ h

theorem release_mem_of_shared (h : 1 < k.refs pa) : (k.release pa).mem = k.mem := by
  unfold release
  rw [if_pos h]
  rfl

end Kernel

variable {L : Layout} {k : Kernel} {pa : ℕ}

theorem kfree_run (h : IsPage L pa) : kfree L pa k = .ok ((), k.release pa) := by
  obtain ⟨ha, hl, hu⟩ := h
  have hg : ¬(pa % 4096 ≠ 0 ∨ pa < L.endAddr ∨ phystop ≤ pa) := by omega
  unfold kfree
  rw [if_neg hg]
  by_cases hr : 1 < k.refs pa
  · simp [Kernel.release, hr]
  · simp [Kernel.release, hr]
    rfl

theorem kalloc_run_nil (h : k.freelist = []) : kalloc k = .ok (none, k) := by
  simp [kalloc, h]

/-- The state after `kalloc` took the page `r` and left the list `next`. -/
def Kernel.take (k : Kernel) (r : ℕ) (next : List ℕ) : Kernel where
  mem := k.mem.fill r 5#8
  freelist := next
  referenceCount := (k.setRefs r 1).referenceCount

theorem kalloc_run_cons {r : ℕ} {next : List ℕ} (h : k.freelist = r :: next) :
    kalloc k = .ok (some r, k.take r next) := by
  simp [kalloc, h]
  rfl

end XV6AndConcurrency.VirtualMemory
