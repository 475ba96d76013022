import XV6AndConcurrency.VirtualMemory.Kalloc

/-!
# Page tables in memory

The part of `vm.c` that reads and writes page-table pages. A `pte_t *` points
into a page-table page, so it is the page together with an index. Loops that
step through addresses a page at a time recurse on the number of pages left.
-/

namespace XV6AndConcurrency.VirtualMemory

open Foundations

/-- The address `&table[index]` of a page-table entry. -/
structure PteRef where
  table : ℕ
  index : ℕ
  deriving DecidableEq, Repr

def readPte (pte : PteRef) : KernelM Pte := look fun k => k.mem.word pte.table pte.index

def writePte (pte : PteRef) (w : Pte) : KernelM Unit :=
  modify fun k => k.setMem (k.mem.setWord pte.table pte.index w)

/-- `memset(pa, 0, PGSIZE)`. -/
def zeroPage (pa : ℕ) : KernelM Unit := modify fun k => k.setMem (k.mem.fill pa 0#8)

/-- One round of the loop of `walk`: follow the entry of `va` at `level`, or
create the page-table page it should point at. -/
def walkLevel (va : ℕ) (alloc : Bool) (level pagetable : ℕ) : KernelM (Option ℕ) := do
  let pte : PteRef := ⟨pagetable, px level va⟩
  let w ← readPte pte
  if w &&& pteV ≠ 0 then
    pure (some (pte2pa w))
  else if alloc then do
    let page ← kalloc
    match page with
    | none => pure none
    | some pagetable => do
      zeroPage pagetable
      writePte pte (pa2pte pagetable ||| pteV)
      pure (some pagetable)
  else
    pure none

def walk (pagetable va : ℕ) (alloc : Bool) : KernelM (Option PteRef) :=
  if maxva ≤ va then
    stop .walk
  else do
    let level1 ← walkLevel va alloc 2 pagetable
    match level1 with
    | none => pure none
    | some pagetable => do
      let level0 ← walkLevel va alloc 1 pagetable
      match level0 with
      | none => pure none
      | some pagetable => pure (some ⟨pagetable, px 0 va⟩)

/-- The physical address of a user page; `none` is the code's 0. -/
def walkaddr (pagetable va : ℕ) : KernelM (Option ℕ) :=
  if maxva ≤ va then
    pure none
  else do
    let pte ← walk pagetable va false
    match pte with
    | none => pure none
    | some pte => do
      let w ← readPte pte
      if w &&& pteV = 0 then pure none
      else if w &&& pteU = 0 then pure none
      else if pte2pa w = 0 then pure none
      else pure (some (pte2pa w))

/-- One round of `mappages`; `false` is its return value -1. -/
def mapPage (pagetable a pa : ℕ) (perm : Pte) : KernelM Bool := do
  let pte ← walk pagetable a true
  match pte with
  | none => pure false
  | some pte => do
    let w ← readPte pte
    if w &&& pteV ≠ 0 then
      stop .mappagesRemap
    else do
      writePte pte (pa2pte pa ||| perm ||| pteV)
      pure true

/-- The loop of `mappages` with `n` pages to go after this one. -/
def mappagesLoop (pagetable : ℕ) (perm : Pte) : ℕ → ℕ → ℕ → KernelM Bool
  | 0, a, pa => mapPage pagetable a pa perm
  | n + 1, a, pa => do
    let done ← mapPage pagetable a pa perm
    if done then mappagesLoop pagetable perm n (a + pgsize) (pa + pgsize)
    else pure false

/-- Map `size` bytes from `va` on; `true` is the return value 0. -/
def mappages (pagetable va size pa : ℕ) (perm : Pte) : KernelM Bool :=
  if size = 0 then
    stop .mappagesSize
  else
    mappagesLoop pagetable perm ((pgrounddown (va + size - 1) - pgrounddown va) / pgsize)
      (pgrounddown va) pa

variable (L : Layout)

/-- The conditional `kfree` of `uvmunmap`. -/
def kfreeIf (doFree : Bool) (pa : ℕ) : KernelM Unit := if doFree then kfree L pa else pure ()

def uvmunmapLoop (pagetable : ℕ) (doFree : Bool) : ℕ → ℕ → KernelM Unit
  | 0, _ => pure ()
  | n + 1, a => do
    let pte ← walk pagetable a false
    match pte with
    | none => stop .uvmunmapWalk
    | some pte => do
      let w ← readPte pte
      if w &&& pteV = 0 then
        stop .uvmunmapNotMapped
      else if pteFlags w = pteV then
        stop .uvmunmapNotALeaf
      else do
        kfreeIf L doFree (pte2pa w)
        writePte pte 0#64
        uvmunmapLoop pagetable doFree n (a + pgsize)

/-- Remove `npages` mappings from `va` on. -/
def uvmunmap (pagetable va npages : ℕ) (doFree : Bool) : KernelM Unit :=
  if va % pgsize ≠ 0 then stop .uvmunmapNotAligned
  else uvmunmapLoop L pagetable doFree npages va

/-- The loop of `freewalk` over the entries from `i` on, `n` of them; `free`
frees a page-table page of the level below. -/
def freewalkLoop (free : ℕ → KernelM Unit) (pagetable : ℕ) : ℕ → ℕ → KernelM Unit
  | 0, _ => pure ()
  | n + 1, i => do
    let pte ← readPte ⟨pagetable, i⟩
    if pte &&& pteV ≠ 0 ∧ pte &&& (pteR ||| pteW ||| pteX) = 0 then do
      free (pte2pa pte)
      writePte ⟨pagetable, i⟩ 0#64
      freewalkLoop free pagetable n (i + 1)
    else if pte &&& pteV ≠ 0 then
      stop .freewalkLeaf
    else
      freewalkLoop free pagetable n (i + 1)

/-- Free a page-table page and those below it. The recursion of the code stops
at the last level of the table; `depth` bounds it, as the kernel stack would. -/
def freewalk : ℕ → ℕ → KernelM Unit
  | 0, _ => stop .kerneltrap
  | depth + 1, pagetable => do
    freewalkLoop (freewalk depth) pagetable 512 0
    kfree L pagetable

end XV6AndConcurrency.VirtualMemory
