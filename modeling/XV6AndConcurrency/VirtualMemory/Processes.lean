import XV6AndConcurrency.VirtualMemory.UserMemory

/-!
# The memory of a process

What `proc.c` and `exec.c` do to address spaces: building and freeing a page
table, `growproc`, `fork` and `exec`. The file system enters `exec` only through
`readi` on the locked inode, which is an arbitrary function of offset and length.
-/

namespace XV6AndConcurrency.VirtualMemory

open Foundations

/-- The fields of `struct proc` that the memory code uses. -/
structure Proc where
  pagetable : ℕ
  sz : ℕ
  trapframe : ℕ
  killed : Bool
  name : List Byte

variable (L : Layout)

/-- A page table with the trampoline and the trapframe and no user memory. -/
def procPagetable (trapframe : ℕ) : KernelM (Option ℕ) := do
  let page ← uvmcreate
  match page with
  | none => pure none
  | some pagetable => do
    let mapped ← mappages pagetable trampolineVa pgsize L.trampoline (pteR ||| pteX)
    if mapped then do
      let mapped ← mappages pagetable trapframeVa pgsize trapframe (pteR ||| pteW)
      if mapped then
        pure (some pagetable)
      else do
        uvmunmap L pagetable trampolineVa 1 false
        uvmfree L pagetable 0
        pure none
    else do
      uvmfree L pagetable 0
      pure none

def procFreepagetable (pagetable sz : ℕ) : KernelM Unit := do
  uvmunmap L pagetable trampolineVa 1 false
  uvmunmap L pagetable trapframeVa 1 false
  uvmfree L pagetable sz

/-- The allocations of `allocproc`: a trapframe page and a page table. -/
def allocproc : KernelM (Option Proc) := do
  let page ← kalloc
  match page with
  | none => pure none
  | some trapframe => do
    let table ← procPagetable L trapframe
    match table with
    | none => do
      kfree L trapframe
      pure none
    | some pagetable => pure (some ⟨pagetable, 0, trapframe, false, []⟩)

/-- The first user program, `exec("/init")`. -/
def initcode : List Byte :=
  [0x17, 0x05, 0x00, 0x00, 0x13, 0x05, 0x45, 0x02,
   0x97, 0x05, 0x00, 0x00, 0x93, 0x85, 0x35, 0x02,
   0x93, 0x08, 0x70, 0x00, 0x73, 0x00, 0x00, 0x00,
   0x93, 0x08, 0x20, 0x00, 0x73, 0x00, 0x00, 0x00,
   0xef, 0xf0, 0x9f, 0xff, 0x2f, 0x69, 0x6e, 0x69,
   0x74, 0x00, 0x00, 0x24, 0x00, 0x00, 0x00, 0x00,
   0x00, 0x00, 0x00, 0x00]

/-- The first process. The result of `allocproc` is not checked. -/
def userinit : KernelM Proc := do
  let np ← allocproc L
  match np with
  | none => stop .kerneltrap
  | some p => do
    uvmfirst p.pagetable initcode
    modify fun k => k.setMem (k.mem.setWord p.trapframe 3 0)
    modify fun k => k.setMem (k.mem.setWord p.trapframe 6 (BitVec.ofNat 64 pgsize))
    pure { p with sz := pgsize, name := "initcode".toList.map fun c => BitVec.ofNat 8 c.toNat }

/-- The memory that `freeproc` gives back. -/
def freeproc (p : Proc) : KernelM Unit := do
  kfree L p.trapframe
  procFreepagetable L p.pagetable p.sz

/-- `growproc(n)`: whether it returned 0, and `p->sz` afterwards. -/
def growproc (p : Proc) (n : ℤ) : KernelM (Bool × ℕ) :=
  if 0 < n then do
    let sz ← uvmalloc L p.pagetable p.sz (((p.sz + n) % 2 ^ 64).toNat) pteW
    if sz = 0 then pure (false, p.sz) else pure (true, sz)
  else if n < 0 then do
    let sz ← uvmdealloc L p.pagetable p.sz (((p.sz + n) % 2 ^ 64).toNat)
    pure (true, sz)
  else
    pure (true, p.sz)

/-- How `fork` ended: no process or memory for one, `uvmcopy` returned -1, or a child. -/
inductive ForkResult
  | noproc
  | copyFailed
  | child (np : Proc)

/-- `*(np->trapframe) = *(p->trapframe); np->trapframe->a0 = 0`. -/
def copyTrapframe (dst src : ℕ) : KernelM Unit := do
  modify fun k => k.setMem (k.mem.putBytes dst 0 ((List.range 288).map (k.mem src)))
  modify fun k => k.setMem (k.mem.setWord dst 14 0)

def fork (p : Proc) : KernelM ForkResult := do
  let np ← allocproc L
  match np with
  | none => pure .noproc
  | some np => do
    let copied ← uvmcopy L p.pagetable np.pagetable p.sz
    if copied then do
      copyTrapframe np.trapframe p.trapframe
      pure (.child { np with sz := p.sz, name := p.name })
    else do
      freeproc L np
      pure .copyFailed

/-! ## exec -/

/-- What `readi(ip, 0, dst, off, n)` delivers from the locked inode. -/
abbrev File := ℕ → ℕ → List Byte

/-- The little-endian field of `n` bytes at offset `o` of a header. -/
def field (bs : List Byte) (o n : ℕ) : ℕ := leNat (fun i => (bs[i]?).getD 0) o n

/-- Permissions of a segment from its program-header flags. -/
def flags2perm (flags : ℕ) : Pte :=
  (if flags &&& 0x1 ≠ 0 then pteX else 0) ||| (if flags &&& 0x2 ≠ 0 then pteW else 0)

/-- The loop of `loadseg` with `n` pages to go, at offset `i` of the segment. -/
def loadsegLoop (pagetable va : ℕ) (file : File) (offset sz : ℕ) : ℕ → ℕ → KernelM Bool
  | 0, _ => pure true
  | n + 1, i => do
    let pa ← walkaddr pagetable (va + i)
    match pa with
    | none => stop .loadseg
    | some pa => do
      let want := if sz - i < pgsize then sz - i else pgsize
      let got := (file ((offset + i) % 2 ^ 32) want).take want
      modify fun k => k.setMem (k.mem.putBytes pa 0 got)
      if got.length ≠ want then pure false
      else loadsegLoop pagetable va file offset sz n (i + pgsize)

def loadseg (pagetable va : ℕ) (file : File) (offset sz : ℕ) : KernelM Bool :=
  loadsegLoop pagetable va file offset sz ((sz + pgsize - 1) / pgsize) 0

/-- One round of the program-header loop: the size after it, or `none` for
`goto bad` together with the size to free. -/
def execSegment (pagetable : ℕ) (file : File) (off sz : ℕ) : KernelM (Bool × ℕ) :=
  let ph := (file off 56).take 56
  let flags := field ph 4 4
  let vaddr := field ph 16 8
  let filesz := field ph 32 8
  let memsz := field ph 40 8
  if ph.length ≠ 56 then pure (false, sz)
  else if field ph 0 4 ≠ 1 then pure (true, sz)
  else if memsz < filesz then pure (false, sz)
  else if (vaddr + memsz) % 2 ^ 64 < vaddr then pure (false, sz)
  else if vaddr % pgsize ≠ 0 then pure (false, sz)
  else do
    let sz1 ← uvmalloc L pagetable sz ((vaddr + memsz) % 2 ^ 64) (flags2perm flags)
    if sz1 = 0 then pure (false, sz)
    else do
      let loaded ← loadseg pagetable vaddr file (field ph 8 8 % 2 ^ 32) (filesz % 2 ^ 32)
      pure (loaded, sz1)

/-- The program-header loop with `n` headers to go, the next one at `off`. -/
def execLoad (pagetable : ℕ) (file : File) : ℕ → ℕ → ℕ → KernelM (Bool × ℕ)
  | 0, _, sz => pure (true, sz)
  | n + 1, off, sz => do
    let r ← execSegment L pagetable file off sz
    if r.1 then execLoad pagetable file n ((off + 56) % 2 ^ 32) r.2
    else pure r

/-- Subtraction of `uint64`s. -/
def sub64 (a b : ℕ) : ℕ := (a + 2 ^ 64 - b) % 2 ^ 64

/-- Push the argument strings. Returns whether `exec` goes on, the stack
pointer, the addresses pushed so far and whether `p->killed` was set. -/
def execArgs (pagetable psz stackbase : ℕ) :
    List (List Byte) → ℕ → List ℕ → Bool → KernelM (Bool × ℕ × List ℕ × Bool)
  | [], sp, ustack, killed => pure (true, sp, ustack, killed)
  | arg :: argv, sp, ustack, killed =>
    let sp1 := sub64 sp (arg.length + 1)
    let sp2 := sub64 sp1 (sp1 % 16)
    if 32 ≤ ustack.length then pure (false, sp, ustack, killed)
    else if sp2 < stackbase then pure (false, sp, ustack, killed)
    else do
      let r ← copyout L pagetable psz sp2 (arg ++ [0])
      if r.1 then execArgs pagetable psz stackbase argv sp2 (ustack ++ [sp2]) (killed || r.2)
      else pure (false, sp, ustack, killed || r.2)

/-- A `uint64` as eight bytes. -/
def bytes64 (v : ℕ) : List Byte := (List.range 8).map fun i => BitVec.ofNat 8 (v / 256 ^ i)

/-- The stack of the new image: guard page, stack page, strings and `argv[]`.
Returns whether `exec` goes on, the size mapped, `sp` and whether `p->killed`
was set. -/
def execStack (pagetable psz sz : ℕ) (argv : List (List Byte)) :
    KernelM (Bool × ℕ × ℕ × Bool) := do
  let sz0 := pgroundup sz
  let sz1 ← uvmalloc L pagetable sz0 (sz0 + 2 * pgsize) pteW
  if sz1 = 0 then pure (false, sz0, 0, false)
  else do
    uvmclear pagetable (sz1 - 2 * pgsize)
    let stackbase := sz1 - pgsize
    let r ← execArgs L pagetable psz stackbase argv sz1 [] false
    let sp1 := sub64 r.2.1 ((r.2.2.1.length + 1) * 8)
    let sp2 := sub64 sp1 (sp1 % 16)
    if r.1 = false then pure (false, sz1, 0, r.2.2.2)
    else if sp2 < stackbase then pure (false, sz1, 0, r.2.2.2)
    else do
      let c ← copyout L pagetable psz sp2 ((r.2.2.1 ++ [0]).flatMap bytes64)
      pure (c.1, sz1, sp2, r.2.2.2 || c.2)

/-- The component after the last slash, cut to the 15 bytes of `p->name`. -/
def lastComponent (path : List Byte) : List Byte :=
  ((path.reverse.takeWhile (· ≠ 0x2F#8)).reverse).take 15

/-- `exec` on an inode already looked up: `argc` if it succeeds, and the process. -/
def exec (p : Proc) (ip : Option File) (path : List Byte) (argv : List (List Byte)) :
    KernelM (Option ℕ × Proc) :=
  match ip with
  | none => pure (none, p)
  | some file =>
    let elf := (file 0 64).take 64
    if elf.length ≠ 64 then pure (none, p)
    else if field elf 0 4 ≠ 0x464C457F then pure (none, p)
    else do
      let table ← procPagetable L p.trapframe
      match table with
      | none => pure (none, p)
      | some pagetable => do
        let r ← execLoad L pagetable file (field elf 56 2) (field elf 32 8 % 2 ^ 32) 0
        if r.1 then do
          let s ← execStack L pagetable p.sz r.2 argv
          let killed := p.killed || s.2.2.2
          if s.1 then do
            modify fun k => k.setMem (k.mem.setWord p.trapframe 15 (BitVec.ofNat 64 s.2.2.1))
            modify fun k => k.setMem
              (k.mem.setWord p.trapframe 3 (BitVec.ofNat 64 (field elf 24 8)))
            modify fun k => k.setMem (k.mem.setWord p.trapframe 6 (BitVec.ofNat 64 s.2.2.1))
            procFreepagetable L p.pagetable p.sz
            pure (some argv.length, ⟨pagetable, s.2.1, p.trapframe, killed, lastComponent path⟩)
          else do
            procFreepagetable L pagetable s.2.1
            pure (none, { p with killed := killed })
        else do
          procFreepagetable L pagetable r.2
          pure (none, p)

end XV6AndConcurrency.VirtualMemory
