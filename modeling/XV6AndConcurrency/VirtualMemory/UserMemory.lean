import XV6AndConcurrency.VirtualMemory.PageTable

/-!
# User memory

The rest of `vm.c`: growing, shrinking, copying and freeing a user address
space, and the kernel's own writes into it. `cowtest_h` and the store-fault
branch of `usertrap` come from `trap.c`.
-/

namespace XV6AndConcurrency.VirtualMemory

open Foundations

def uvmcreate : KernelM (Option ℕ) := do
  let page ← kalloc
  match page with
  | none => pure none
  | some pagetable => do
    zeroPage pagetable
    pure (some pagetable)

variable (L : Layout)

/-- Load the first program. `kalloc` is not checked, and neither is `mappages`. -/
def uvmfirst (pagetable : ℕ) (src : List Byte) : KernelM Unit :=
  if pgsize ≤ src.length then
    stop .uvmfirst
  else do
    let page ← kalloc
    match page with
    | none => stop .kerneltrap
    | some mem => do
      zeroPage mem
      let _ ← mappages pagetable 0 pgsize mem (pteW ||| pteR ||| pteX ||| pteU)
      modify fun k => k.setMem (k.mem.putBytes mem 0 src)

/-- Shrink from `oldsz` to `newsz`. The page count fits the `int` it is kept in,
since user sizes stay below `MAXVA`. -/
def uvmdealloc (pagetable oldsz newsz : ℕ) : KernelM ℕ :=
  if oldsz ≤ newsz then
    pure oldsz
  else if pgroundup newsz < pgroundup oldsz then do
    uvmunmap L pagetable (pgroundup newsz) ((pgroundup oldsz - pgroundup newsz) / pgsize) true
    pure newsz
  else
    pure newsz

/-- The loop of `uvmalloc` with `n` pages to go, the next one at `a`. -/
def uvmallocLoop (pagetable oldsz : ℕ) (xperm : Pte) : ℕ → ℕ → KernelM Bool
  | 0, _ => pure true
  | n + 1, a => do
    let page ← kalloc
    match page with
    | none => do
      let _ ← uvmdealloc L pagetable a oldsz
      pure false
    | some mem => do
      zeroPage mem
      let mapped ← mappages pagetable a pgsize mem (pteR ||| pteU ||| xperm)
      if mapped then
        uvmallocLoop pagetable oldsz xperm n (a + pgsize)
      else do
        kfree L mem
        let _ ← uvmdealloc L pagetable a oldsz
        pure false

/-- Grow from `oldsz` to `newsz`; returns the new size, or 0. -/
def uvmalloc (pagetable oldsz newsz : ℕ) (xperm : Pte) : KernelM ℕ :=
  if newsz < oldsz then
    pure oldsz
  else do
    let grown ← uvmallocLoop L pagetable (pgroundup oldsz) xperm
      ((newsz - pgroundup oldsz + pgsize - 1) / pgsize) (pgroundup oldsz)
    if grown then pure newsz else pure 0

def uvmfree (pagetable sz : ℕ) : KernelM Unit := do
  let _ ← (if 0 < sz then uvmunmap L pagetable 0 (pgroundup sz / pgsize) true else pure ())
  freewalk L 3 pagetable

/-- The write-protection step of `uvmcopy`: a writable page becomes copy-on-write. -/
def protect (pte : PteRef) : KernelM Unit := do
  let w ← readPte pte
  if w &&& pteW ≠ 0 then do
    writePte pte (w &&& ~~~(1#64 <<< 2))
    let w ← readPte pte
    writePte pte (w ||| (1#64 <<< 8))
  else
    pure ()

/-- The loop of `uvmcopy` with `n` pages to go, the next one at `i`. -/
def uvmcopyLoop (old new : ℕ) : ℕ → ℕ → KernelM Bool
  | 0, _ => pure true
  | n + 1, i => do
    let pte ← walk old i false
    match pte with
    | none => stop .uvmcopyPte
    | some pte => do
      let w ← readPte pte
      if w &&& pteV = 0 then
        stop .uvmcopyPage
      else do
        protect pte
        let w ← readPte pte
        modify fun k => k.setRefs (pte2pa w) (k.refs (pte2pa w) + 1)
        let copied ← mappages new i 4096 (pte2pa w) (w &&& 0x3FF#64)
        if copied then
          uvmcopyLoop old new n (i + pgsize)
        else do
          uvmunmap L new 0 (i / pgsize) true
          pure false

/-- Share the parent's pages with the child; `true` is the return value 0. -/
def uvmcopy (old new sz : ℕ) : KernelM Bool :=
  uvmcopyLoop L old new ((sz + pgsize - 1) / pgsize) 0

def uvmclear (pagetable va : ℕ) : KernelM Unit := do
  let pte ← walk pagetable va false
  match pte with
  | none => stop .uvmclear
  | some pte => do
    let w ← readPte pte
    writePte pte (w &&& ~~~pteU)

/-- Point an entry at the fresh copy `mem`, writable and no longer copy-on-write. -/
def installCopy (pte : PteRef) (mem : ℕ) (flags : Pte) : KernelM Unit := do
  writePte pte (pa2pte mem ||| flags ||| (1#64 <<< 2))
  let w ← readPte pte
  writePte pte (w &&& ~~~pteRsw)

/-- Resolve a copy-on-write fault at `va`; `true` is the return value 0. -/
def cowtestH (pagetable va : ℕ) : KernelM Bool :=
  if maxva ≤ va then
    pure false
  else do
    let pte ← walk pagetable va false
    match pte with
    | none => pure false
    | some pte => do
      let w ← readPte pte
      if w &&& pteRsw = 0 ∨ w &&& pteU = 0 ∨ w &&& pteV = 0 then
        pure false
      else do
        let page ← kalloc
        match page with
        | none => pure false
        | some mem => do
          let w ← readPte pte
          modify fun k => k.setMem (k.mem.copyPage mem (pte2pa w))
          kfree L (pte2pa w)
          let w ← readPte pte
          installCopy pte mem (w &&& 0x3FF#64)
          pure true

/-- `usertrap` on a store page fault at `v`: whether `p->killed` gets set. -/
def usertrapStore (pagetable sz v : ℕ) : KernelM Bool := do
  let ret ← cowtestH L pagetable v
  pure (decide (sz ≤ v) || !ret)

/-- The copy-on-write branch of `copyout` for the page at `va`, mapped at `pa0`
so far: where the bytes go, and whether `p->killed` gets set. -/
def copyoutCow (pagetable sz va pa0 : ℕ) : KernelM (ℕ × Bool) := do
  let pte ← walk pagetable va false
  match pte with
  | none => stop .kerneltrap
  | some pte => do
    let w ← readPte pte
    if va < sz ∧ w &&& pteV ≠ 0 ∧ w &&& pteRsw ≠ 0 then do
      let page ← kalloc
      match page with
      | none => pure (pa0, true)
      | some mem => do
        modify fun k => k.setMem (k.mem.copyPage mem pa0)
        let w ← readPte pte
        uvmunmap L pagetable va 1 true
        installCopy pte mem (w &&& 0x3FF#64)
        pure (mem, false)
    else
      pure (pa0, decide (w = 0))

/-- The loop of `copyout`; `fuel` is at least the number of bytes left. The
first result is `true` for the return value 0, the second says whether
`p->killed` was set on the way. -/
def copyoutLoop (pagetable sz : ℕ) : ℕ → ℕ → List Byte → Bool → KernelM (Bool × Bool)
  | 0, _, _, killed => pure (true, killed)
  | fuel + 1, dstva, src, killed =>
    if src = [] then
      pure (true, killed)
    else do
      let va := pgrounddown dstva
      let pa0 ← walkaddr pagetable va
      match pa0 with
      | none => pure (false, killed)
      | some pa0 => do
        let dst ← copyoutCow L pagetable sz va pa0
        let n := pgsize - (dstva - va)
        modify fun k => k.setMem (k.mem.putBytes dst.1 (dstva - va) (src.take n))
        copyoutLoop pagetable sz fuel (va + pgsize) (src.drop n) (killed || dst.2)

/-- Copy `src` to the user address `dstva`, for the process of size `sz`. -/
def copyout (pagetable sz dstva : ℕ) (src : List Byte) : KernelM (Bool × Bool) :=
  copyoutLoop L pagetable sz src.length dstva src false

end XV6AndConcurrency.VirtualMemory
