import XV6AndConcurrency.Foundations.Transitions
import Mathlib.Data.Finset.Card
import Mathlib.Tactic

/-!
# Spinlocks and interrupts

`acquire`, `release`, `holding`, `push_off` and `pop_off` of `kernel/spinlock.c`, and the
two ends of `swtch` in `sched` and `scheduler`, on any number of CPUs. Each access to a lock
is a step of its own; what touches only the CPU's own registers and its `struct cpu` is
joined to the step before it. Kernel code between the calls is any sequence of calls.
-/

namespace XV6AndConcurrency.Synchronization.Spinlocks

open Foundations

variable {ι κ π : Type*}

/-- `struct spinlock`. -/
structure Spinlock (ι : Type*) where
  locked : Bool
  cpu : Option ι

/-- Who called `holding`. -/
inductive Caller
  | acquire | release | sched
  deriving DecidableEq

/-- Where a CPU is in the code of the locks. -/
inductive Pc (κ : Type*)
  | code
  /-- `lk->locked` in `holding`. -/
  | holding (caller : Caller) (lk : κ)
  /-- `lk->cpu == mycpu()` in `holding`. -/
  | holdingCpu (caller : Caller) (lk : κ)
  | swap (lk : κ)
  | setCpu (lk : κ)
  | clearCpu (lk : κ)
  | unlock (lk : κ)
  /-- `pop_off` at the end of `release`. -/
  | pop
  /-- `sched` behind its first check. -/
  | switch
  | panic (text : String)

inductive Thread (π : Type*)
  | scheduler
  | proc (p : π)
  deriving DecidableEq

/-- A CPU: `struct cpu`, the interrupt flag, and what runs. `held` and `pushes` record the
locks it has taken and the calls of `push_off` outside of `acquire`. -/
structure Core (κ π : Type*) where
  noff : ℕ
  intena : Bool
  intr : Bool
  thread : Thread π
  pc : Pc κ
  held : Finset κ
  pushes : ℕ

/-- A process that has not run, that runs, or that is in `sched` with its local `intena`. -/
inductive Place
  | new
  | running
  | out (intena : Bool)
  deriving DecidableEq

/-- The machine. Of `p->state` it has whether that is `RUNNING`; `before` records the interrupt
flag at a process's outermost `push_off`. -/
structure Machine (ι κ π : Type*) where
  core : ι → Core κ π
  lock : κ → Spinlock ι
  place : π → Place
  running : π → Bool
  before : π → Bool

inductive Action (κ π : Type*)
  | acquire (lk : κ)
  | release (lk : κ)
  | pushOff
  | popOff
  /-- `intr_on()`, or the return from an interrupt. -/
  | intrOn
  /-- `intr_off()`, or an interrupt. -/
  | intrOff
  /-- The process sets its `p->state` to `RUNNABLE`, `SLEEPING` or `ZOMBIE`. -/
  | leave
  | sched
  /-- `swtch` of the scheduler to a process. -/
  | resume (p : π)
  /-- The step that the CPU is at. -/
  | next

def pushOff (k : Core κ π) : Core κ π :=
  { k with
    intr := false
    intena := if k.noff = 0 then k.intr else k.intena
    noff := k.noff + 1 }

def popOff (k : Core κ π) : Core κ π :=
  if k.intr then { k with pc := .panic "pop_off - interruptible" }
  else if k.noff < 1 then { k with pc := .panic "pop_off" }
  else { k with noff := k.noff - 1, intr := decide (k.noff - 1 = 0) && k.intena }

/-- Back from `holding`. -/
def answer (k : Core κ π) (lk : κ) : Caller → Bool → Core κ π
  | .acquire, true => { k with pc := .panic "acquire" }
  | .acquire, false => { k with pc := .swap lk }
  | .release, true => { k with pc := .clearCpu lk }
  | .release, false => { k with pc := .panic "release" }
  | .sched, true => { k with pc := .switch }
  | .sched, false => { k with pc := .panic "sched p->lock" }

section

variable [DecidableEq ι] [DecidableEq κ] [DecidableEq π]

namespace Machine

def setCore (s : Machine ι κ π) (c : ι) (k : Core κ π) : Machine ι κ π :=
  { s with core := Function.update s.core c k }

def setLock (s : Machine ι κ π) (lk : κ) (l : Spinlock ι) : Machine ι κ π :=
  { s with lock := Function.update s.lock lk l }

/-- Record the interrupt flag where a process enters its outermost `push_off`. -/
def note (s : Machine ι κ π) (c : ι) : Machine ι κ π :=
  match (s.core c).thread with
  | .scheduler => s
  | .proc p =>
    if (s.core c).noff = 0 then
      { s with before := Function.update s.before p (s.core c).intr }
    else s

end Machine

variable (plock : π → κ)

def step (s : Machine ι κ π) (a : ι × Action κ π) : Option (Machine ι κ π) :=
  let c := a.1
  let k := s.core c
  match k.pc, a.2 with
  | .code, .acquire lk =>
    some ((s.note c).setCore c { pushOff k with pc := .holding .acquire lk })
  | .code, .release lk => some (s.setCore c { k with pc := .holding .release lk })
  | .code, .pushOff => some ((s.note c).setCore c { pushOff k with pushes := k.pushes + 1 })
  | .code, .popOff => some (s.setCore c { popOff k with pushes := k.pushes - 1 })
  | .code, .intrOn => some (s.setCore c { k with intr := true })
  | .code, .intrOff => some (s.setCore c { k with intr := false })
  | .code, .leave =>
    match k.thread with
    | .scheduler => none
    | .proc p => some { s with running := Function.update s.running p false }
  | .code, .sched =>
    match k.thread with
    | .scheduler => none
    | .proc p => some (s.setCore c { k with pc := .holding .sched (plock p) })
  | .code, .resume p =>
    match k.thread, s.place p with
    | .scheduler, .out intena =>
      some { s.setCore c { k with thread := .proc p, intena := intena } with
        place := Function.update s.place p .running
        running := Function.update s.running p true }
    | .scheduler, .new =>
      some { s.setCore c { k with thread := .proc p } with
        place := Function.update s.place p .running
        running := Function.update s.running p true
        before := Function.update s.before p k.intena }
    | _, _ => none
  | .holding caller lk, .next =>
    some (s.setCore c (if (s.lock lk).locked then { k with pc := .holdingCpu caller lk }
      else answer k lk caller false))
  | .holdingCpu caller lk, .next =>
    some (s.setCore c (answer k lk caller (decide ((s.lock lk).cpu = some c))))
  | .swap lk, .next =>
    if (s.lock lk).locked then some s
    else some ((s.setLock lk { s.lock lk with locked := true }).setCore c
      { k with pc := .setCpu lk, held := insert lk k.held })
  | .setCpu lk, .next =>
    some ((s.setLock lk { s.lock lk with cpu := some c }).setCore c { k with pc := .code })
  | .clearCpu lk, .next =>
    some ((s.setLock lk { s.lock lk with cpu := none }).setCore c { k with pc := .unlock lk })
  | .unlock lk, .next =>
    some ((s.setLock lk { s.lock lk with locked := false }).setCore c
      { k with pc := .pop, held := k.held.erase lk })
  | .pop, .next => some (s.setCore c (popOff { k with pc := .code }))
  | .switch, .next =>
    match k.thread with
    | .scheduler => none
    | .proc p =>
      if k.noff ≠ 1 then some (s.setCore c { k with pc := .panic "sched locks" })
      else if s.running p then some (s.setCore c { k with pc := .panic "sched running" })
      else if k.intr then some (s.setCore c { k with pc := .panic "sched interruptible" })
      else some { s.setCore c { k with thread := .scheduler, pc := .code } with
        place := Function.update s.place p (.out k.intena) }
  | _, _ => none

/-- How kernel code calls: no lock twice, none that it does not hold, `pop_off` for each
`push_off`, interrupts on or off only outside of all of them, and across `swtch` nothing but
the lock of the process, which has changed its state under that lock. -/
def Disciplined (s : Machine ι κ π) (a : ι × Action κ π) : Prop :=
  let k := s.core a.1
  match a.2 with
  | .acquire lk => lk ∉ k.held
  | .release lk => lk ∈ k.held
  | .popOff => 0 < k.pushes
  | .intrOn => k.noff = 0
  | .intrOff => k.noff = 0
  | .leave => ∀ p, k.thread = .proc p → plock p ∈ k.held
  | .sched =>
    ∀ p, k.thread = .proc p → k.held = {plock p} ∧ k.pushes = 0 ∧ s.running p = false
  | .resume p => k.held = {plock p} ∧ k.pushes = 0
  | .pushOff => True
  | .next => True

/-- After boot: no lock is taken and every CPU is in its scheduler. -/
structure Boot (s : Machine ι κ π) : Prop where
  noff : ∀ c, (s.core c).noff = 0
  thread : ∀ c, (s.core c).thread = .scheduler
  pc : ∀ c, (s.core c).pc = .code
  held : ∀ c, (s.core c).held = ∅
  pushes : ∀ c, (s.core c).pushes = 0
  locked : ∀ lk, (s.lock lk).locked = false
  cpu : ∀ lk, (s.lock lk).cpu = none
  place : ∀ p, s.place p = .new
  running : ∀ p, s.running p = false

end

end XV6AndConcurrency.Synchronization.Spinlocks
