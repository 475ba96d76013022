import XV6AndConcurrency.VirtualMemory.Leaves
import XV6AndConcurrency.VirtualMemory.Processes

/-!
# The machine as a state transition system

The memory of the kernel together with the processes that live in it. A step is one
call into the memory code by some process, with any arguments, or a load or store that
the process executes itself. A step that names no process changes nothing, so that any
list of steps is a run; a step that panics ends the run.
-/

namespace XV6AndConcurrency.VirtualMemory

open Foundations

/-- The kernel, the processes with a page table, and the pages that pipes and argument
buffers own. `copyFailed` remembers that some `uvmcopy` has returned -1. -/
structure System where
  kernel : Kernel
  procs : List Proc
  buffers : List ℕ
  copyFailed : Bool

abbrev SystemM := Stoppable System Panic

inductive Op
  /-- a pipe or an argument buffer is allocated -/
  | kalloc
  /-- the owner of buffer `i` gives it back -/
  | kfree (i : ℕ)
  /-- `main` starts the first process -/
  | userinit
  | uvmalloc (i newsz flags : ℕ)
  | uvmdealloc (i newsz : ℕ)
  | growproc (i : ℕ) (n : BitVec 32)
  | fork (i : ℕ)
  /-- process `i` loads the byte at `va` -/
  | load (i va : ℕ)
  /-- process `i` stores `b` at `va` -/
  | store (i va : ℕ) (b : Byte)
  /-- a store page fault of process `i` at `va` reaches `usertrap` -/
  | storeFault (i va : ℕ)
  | copyout (i dstva : ℕ) (src : List Byte)
  | uvmclear (i va : ℕ)
  | exec (i : ℕ) (ip : Option File) (path : List Byte) (argv : List (List Byte))
  /-- process `i` exits and its parent collects it -/
  | exit (i : ℕ)

inductive Outcome
  | done
  | failed
  | killed
  | loaded (b : Byte)
  deriving DecidableEq, Repr

/-- The entry the hardware finds for `va`. -/
def translate (k : Kernel) (pagetable va : ℕ) : Pte :=
  if va < maxva then leaf k.mem pagetable (va / 4096) else 0#64

/-- A load in user mode; `none` is a page fault. -/
def userLoad (k : Kernel) (pagetable va : ℕ) : Option Byte :=
  let w := translate k pagetable va
  if pteValid w && pteUser w && pteReadable w then some (k.mem (pte2pa w) (va % 4096)) else none

/-- A store in user mode; `false` is a page fault. -/
def tryStore (pagetable va : ℕ) (b : Byte) : KernelM Bool := do
  let w ← look fun k => translate k pagetable va
  if pteValid w && pteUser w && pteWritable w then do
    modify fun k => k.setMem (k.mem.putBytes (pte2pa w) (va % 4096) [b])
    pure true
  else
    pure false

variable (L : Layout)

/-- A store, the trap it may cause, and the same store again after the trap. Returns
whether the process is killed. -/
def userStore (pagetable sz va : ℕ) (b : Byte) : KernelM Bool := do
  let stored ← tryStore pagetable va b
  if stored then
    pure false
  else do
    let killed ← usertrapStore L pagetable sz va
    if killed then pure true
    else do
      let _ ← tryStore pagetable va b
      pure false

/-- Run a function of the kernel. -/
def onKernel {α : Type} (x : KernelM α) : SystemM α := fun s =>
  match x s.kernel with
  | .ok (a, k) => .ok (a, { s with kernel := k })
  | .error e => .error e

/-- Run `f` on process `i`, if there is one. -/
def withProc (i : ℕ) (f : Proc → SystemM Outcome) : SystemM Outcome := do
  let procs ← look System.procs
  match procs[i]? with
  | none => pure .failed
  | some p => f p

def setProc (i : ℕ) (p : Proc) : SystemM Unit := modify fun s => { s with procs := s.procs.set i p }

/-- Remember that process `i` is to be killed. -/
def noteKilled (i : ℕ) (p : Proc) (killed : Bool) : SystemM Outcome := do
  setProc i { p with killed := p.killed || killed }
  pure (if killed then .killed else .done)

/-- Take over the size that `uvmalloc` returned, as its callers do. -/
def noteGrown (i : ℕ) (p : Proc) (sz : ℕ) : SystemM Outcome :=
  if sz = 0 then pure .failed
  else do
    setProc i { p with sz := sz }
    pure .done

/-- `userinit` runs once, right after `kinit`. -/
def mayInit (s : System) : Bool := s.procs.isEmpty && decide (16 ≤ s.kernel.freelist.length)

def step : Op → SystemM Outcome
  | .kalloc => do
    let page ← onKernel kalloc
    match page with
    | none => pure .failed
    | some p => do
      modify fun s => { s with buffers := p :: s.buffers }
      pure .done
  | .kfree i => do
    let buffers ← look System.buffers
    match buffers[i]? with
    | none => pure .failed
    | some p => do
      onKernel (kfree L p)
      modify fun s => { s with buffers := s.buffers.eraseIdx i }
      pure .done
  | .userinit => do
    let ready ← look mayInit
    if ready then do
      let p ← onKernel (userinit L)
      modify fun s => { s with procs := [p] }
      pure .done
    else
      pure .failed
  | .uvmalloc i newsz flags => withProc i fun p => do
    let sz ← onKernel (uvmalloc L p.pagetable p.sz newsz (flags2perm flags))
    noteGrown i p sz
  | .uvmdealloc i newsz => withProc i fun p => do
    let sz ← onKernel (uvmdealloc L p.pagetable p.sz newsz)
    setProc i { p with sz := sz }
    pure .done
  | .growproc i n => withProc i fun p => do
    let r ← onKernel (growproc L p n.toInt)
    setProc i { p with sz := r.2 }
    pure (if r.1 then .done else .failed)
  | .fork i => withProc i fun p => do
    let r ← onKernel (fork L p)
    match r with
    | .noproc => pure .failed
    | .copyFailed => do
      modify fun s => { s with copyFailed := true }
      pure .failed
    | .child np => do
      modify fun s => { s with procs := s.procs ++ [np] }
      pure .done
  | .load i va => withProc i fun p => do
    let b ← look fun s => userLoad s.kernel p.pagetable va
    match b with
    | none => noteKilled i p true
    | some b => pure (.loaded b)
  | .store i va b => withProc i fun p => do
    let killed ← onKernel (userStore L p.pagetable p.sz va b)
    noteKilled i p killed
  | .storeFault i va => withProc i fun p => do
    let killed ← onKernel (usertrapStore L p.pagetable p.sz va)
    noteKilled i p killed
  | .copyout i dstva src => withProc i fun p => do
    let r ← onKernel (copyout L p.pagetable p.sz dstva src)
    let _ ← noteKilled i p r.2
    pure (if r.1 then .done else .failed)
  | .uvmclear i va => withProc i fun p =>
    if va < p.sz then do
      onKernel (uvmclear p.pagetable va)
      pure .done
    else
      pure .failed
  | .exec i ip path argv => withProc i fun p => do
    let r ← onKernel (exec L p ip path argv)
    setProc i r.2
    pure (if r.1.isSome then .done else .failed)
  | .exit i => withProc i fun p => do
    onKernel (freeproc L p)
    modify fun s => { s with procs := s.procs.eraseIdx i }
    pure .done

/-- The steps of a list, in order. -/
def run : List Op → SystemM (List Outcome)
  | [] => pure []
  | op :: ops => do
    let o ← step L op
    let os ← run ops
    pure (o :: os)

/-- The state that `kinit` leaves. -/
def System.afterKinit (k : Kernel) : System := ⟨k, [], [], false⟩

/-- Power on, `kinit`, and then the steps of a list. -/
def boot (m : Memory) (ops : List Op) : Except Panic (List Outcome × System) := do
  let r ← kinit L (Kernel.powerOn m)
  run L ops (System.afterKinit r.2)

end XV6AndConcurrency.VirtualMemory
