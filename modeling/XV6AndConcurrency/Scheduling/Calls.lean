import XV6AndConcurrency.Foundations.Transitions
import XV6AndConcurrency.Scheduling.Pass

/-!
# System calls and clock ticks as whole operations

The process table under sequences of `fork`, `exit`, `wait`, `kill`, `sleep`, `wakeup`,
`set_priority`, clock ticks and scheduler passes, each taken as one step. A ledger on
the side counts ticks without wrapping; no step of the kernel reads it.
-/

namespace XV6AndConcurrency.Scheduling

open Foundations

/-- The slot of the first process. -/
def initproc : ℕ := 0

structure Sys where
  table : Table
  ticks : ℕ
  nextpid : ℤ

/-- How far a `fork` that found a slot gets. -/
inductive ForkOutcome
  | noMemory
  | copyFails
  | done

inductive Op
  | fork (me : ℕ) (outcome : ForkOutcome)
  | setPriority (me a0 a1 : ℕ)
  | tick
  | pass
  | roundRobin (p : ℕ)
  | yield (p : ℕ)
  | sleep (p chan : ℕ)
  | wakeup (chan : ℕ)
  | kill (a0 : ℕ)
  | exit (p : ℕ) (status : ℤ)
  | reap (me child : ℕ)
  | setOfile (me fd file : ℕ)

/-! ## The calls on the table -/

namespace Table

variable (T : Table)

/-- The loop that stops at the first slot with a property. -/
def findSlot (found : Task → Bool) : Option ℕ := slots.find? fun i => found (T i)

/-- A loop that treats every slot by itself. -/
def mapSlots (f : Task → Task) : Table := fun i => if i < nproc then f (T i) else T i

/-- The process on a CPU changes itself. -/
def onRunning (p : ℕ) (f : Task → Task) : Option Table :=
  if p < nproc ∧ (T p).state = .running then some (T.set p (f (T p))) else none

end Table

/-- `new_priority + 25 > 100 ? 100 : new_priority + 25` in unsigned 64-bit arithmetic. -/
def newDp (a1 : ℕ) : ℤ :=
  let sum := (a1 + 25) % 18446744073709551616
  if sum > 100 then 100 else sum

/-- The section of `sys_set_priority` at the process it finds. -/
def setPriorityTask (t : Task) (a1 : ℕ) : Task := { t with sp := wrap32 a1, rbi := 25 }

/-- `sys_set_priority` called by the running process `me`: the table and the result. -/
def sysSetPriority (T : Table) (me a0 a1 : ℕ) : Table × ℤ :=
  match T.findSlot fun t => t.pid = wrap32 a0 with
  | some i =>
    let T' := T.set i (setPriorityTask (T i) a1)
    if newDp a1 > (T i).dp then (T'.set me (yieldTask (T' me)), (T i).sp)
    else (T', (T i).sp)
  | none => if newDp a1 > 0 then (T.set me (yieldTask (T me)), 50) else (T, 50)

def kill (T : Table) (pid : ℤ) : Table :=
  match T.findSlot fun t => t.pid = pid with
  | some i => T.set i (killTask (T i))
  | none => T

/-- What `fork` writes into the child besides `allocproc`. -/
def childTask (parent child : Task) (me : ℕ) : Task :=
  { child with
    ofile := fun fd => if parent.ofile fd ≠ 0 then parent.ofile fd else child.ofile fd
    parent := some me, state := .runnable }

def forkTable (T : Table) (me : ℕ) (pid : ℤ) (ticks i : ℕ) : ForkOutcome → Table
  | .noMemory => T.set i (freeTask (foundTask (T i) pid ticks))
  | .copyFails => T.set i (freeTask (allocTask (T i) pid ticks))
  | .done => T.set i (childTask (T me) (allocTask (T i) pid ticks) me)

/-- One round of `reparent`. -/
def orphanTask (t : Task) (p : ℕ) : Task :=
  { t with parent := if t.parent = some p then some initproc else t.parent }

def reparent (T : Table) (p : ℕ) : Table := T.mapSlots (orphanTask · p)

/-- The closing of all files at the head of `exit`. -/
def closeFiles (t : Task) : Task := { t with ofile := fun _ => 0 }

/-- The two times that `waitx` returns. -/
def waitxTimes (t : Task) : ℕ × ℕ :=
  (t.rtime, toUint ((t.etime : ℤ) - t.ctime - t.rtime))

namespace Sys

/-- The state after `userinit`. -/
def boot : Sys where
  table := Table.set (fun _ => {}) initproc (readyTask (allocTask {} 1 0))
  ticks := 0
  nextpid := 2

variable (s : Sys)

/-- `allocproc` looks for an unused slot. -/
def freeSlot : Option ℕ := s.table.findSlot fun t => t.state = .unused

def step : Op → Option Sys
  | .fork me outcome =>
    if me < nproc ∧ (s.table me).state = .running then
      match s.freeSlot with
      | none => some s
      | some i => some { s with
          table := forkTable s.table me s.nextpid s.ticks i outcome
          nextpid := wrap32 (s.nextpid + 1) }
    else none
  | .setPriority me a0 a1 =>
    if me < nproc ∧ (s.table me).state = .running then
      some { s with table := (sysSetPriority s.table me a0 a1).1 }
    else none
  | .tick => some { s with ticks := incUint s.ticks, table := s.table.mapSlots updateTimeTask }
  | .pass =>
    match Scheduling.pass s.table with
    | (T, none) => some { s with table := T }
    | (T, some p) => some { s with table := T.set p (tidyTask (T p)) }
  | .roundRobin p =>
    if p < nproc ∧ (s.table p).state = .runnable then
      some { s with table := s.table.set p (tidyTask { s.table p with state := .running }) }
    else none
  | .yield p => (s.table.onRunning p yieldTask).map fun T => { s with table := T }
  | .sleep p chan => (s.table.onRunning p (sleepTask · chan)).map fun T => { s with table := T }
  | .wakeup chan => some { s with table := s.table.mapSlots (wakeupTask · chan) }
  | .kill a0 => some { s with table := Scheduling.kill s.table (wrap32 a0) }
  | .exit p status =>
    if p = initproc then none
    else ((reparent s.table p).onRunning p fun t => exitTask (closeFiles t) status s.ticks).map
      fun T => { s with table := T }
  | .reap me child =>
    if (s.table me).state = .running ∧ child < nproc ∧ (s.table child).state = .zombie ∧
        (s.table child).parent = some me then
      some { s with table := s.table.set child (freeTask (s.table child)) }
    else none
  | .setOfile me fd file =>
    (s.table.onRunning me fun t => { t with ofile := Function.update t.ofile fd file }).map
      fun T => { s with table := T }

end Sys

/-! ## What an operation does to one slot -/

/-- The values that an operation can leave in slot `i`. -/
inductive Touched (s : Sys) (i : ℕ) : Op → Task → Prop
  | same (op : Op) : Touched s i op (s.table i)
  | forked (me : ℕ) (outcome : ForkOutcome) (h : s.freeSlot = some i) :
      Touched s i (.fork me outcome) (forkTable s.table me s.nextpid s.ticks i outcome i)
  | prioritised (me a0 a1 : ℕ) (h : (s.table.findSlot fun t => t.pid = wrap32 a0) = some i) :
      Touched s i (.setPriority me a0 a1) (setPriorityTask (s.table i) a1)
  | prioritisedSelf (a0 a1 : ℕ) (h : (s.table.findSlot fun t => t.pid = wrap32 a0) = some i)
      (hrun : (s.table i).state = .running) :
      Touched s i (.setPriority i a0 a1) (yieldTask (setPriorityTask (s.table i) a1))
  | rescheduled (a0 a1 : ℕ) (hrun : (s.table i).state = .running) :
      Touched s i (.setPriority i a0 a1) (yieldTask (s.table i))
  | ticked (hi : i < nproc) : Touched s i .tick (updateTimeTask (s.table i))
  | evaluated (h : s.table.Runnable i) : Touched s i .pass (evaluate (s.table i))
  | dispatched (h : s.table.Runnable i) :
      Touched s i .pass (tidyTask (dispatch (evaluate (s.table i))))
  | switched (h : s.table.Runnable i) :
      Touched s i (.roundRobin i) (tidyTask { s.table i with state := .running })
  | yielded (hrun : (s.table i).state = .running) : Touched s i (.yield i) (yieldTask (s.table i))
  | slept (chan : ℕ) (hrun : (s.table i).state = .running) :
      Touched s i (.sleep i chan) (sleepTask (s.table i) chan)
  | woken (chan : ℕ) : Touched s i (.wakeup chan) (wakeupTask (s.table i) chan)
  | killed (a0 : ℕ) (h : (s.table.findSlot fun t => t.pid = wrap32 a0) = some i) :
      Touched s i (.kill a0) (killTask (s.table i))
  | orphaned (p : ℕ) (status : ℤ) : Touched s i (.exit p status) (orphanTask (s.table i) p)
  | exited (status : ℤ) (hrun : (s.table i).state = .running) :
      Touched s i (.exit i status)
        (exitTask (closeFiles (orphanTask (s.table i) i)) status s.ticks)
  | reaped (me : ℕ) (h : (s.table i).state = .zombie) :
      Touched s i (.reap me i) (freeTask (s.table i))
  | opened (fd file : ℕ) (hrun : (s.table i).state = .running) :
      Touched s i (.setOfile i fd file)
        { s.table i with ofile := Function.update (s.table i).ofile fd file }

variable {T T' : Table} {s s' : Sys} {op : Op} {i p : ℕ}

theorem Table.findSlot_eq_some {found : Task → Bool} (h : T.findSlot found = some i) :
    i < nproc ∧ found (T i) = true := by
  unfold findSlot at h
  have hfound := List.find?_some h
  exact ⟨mem_slots.mp (List.mem_of_find?_eq_some h), hfound⟩

theorem freeSlot_state (h : s.freeSlot = some i) :
    i < nproc ∧ (s.table i).state = .unused := by
  obtain ⟨hi, hstate⟩ := Table.findSlot_eq_some h
  exact ⟨hi, of_decide_eq_true hstate⟩

theorem Table.onRunning_eq_some {f : Task → Task} (h : T.onRunning p f = some T') :
    p < nproc ∧ (T p).state = .running ∧ T' = T.set p (f (T p)) := by
  unfold onRunning at h
  split_ifs at h with hp
  exact ⟨hp.1, hp.2, (Option.some.inj h).symm⟩

/-- A pass evaluates, and dispatches at most one process. -/
theorem pass_slot (T : Table) (i : ℕ) :
    (Scheduling.pass T).1 i = evaluated T i ∧ (Scheduling.pass T).2 ≠ some i ∨
      T.Runnable i ∧ Scheduling.pass T =
        ((Scheduling.evaluated T).set i (dispatch (evaluate (T i))), some i) := by
  by_cases hex : ∃ j, T.Runnable j ∧ 0 ≤ (evaluate (T j)).dp
  · obtain ⟨j, hj, hdp⟩ := hex
    obtain ⟨p, hp, -, -, hpass⟩ := pass_dispatches hj hdp
    rcases eq_or_ne i p with rfl | hi
    · exact .inr ⟨hp, hpass⟩
    · left
      rw [hpass]
      exact ⟨Table.set_of_ne _ _ hi, fun h => hi (Option.some.inj h).symm⟩
  · have hidle := pass_idle (T := T) fun j hj => by
      by_contra hge
      exact hex ⟨j, hj, not_lt.mp hge⟩
    left
    rw [hidle]
    exact ⟨rfl, by simp⟩

theorem touched_pass (s : Sys) (i : ℕ) :
    Touched s i .pass (evaluated s.table i) := by
  by_cases h : s.table.Runnable i
  · rw [evaluated_of_runnable h]
    exact .evaluated h
  · have hsame : evaluated s.table i = s.table i := if_neg h
    rw [hsame]
    exact .same _

theorem touched_set {p : ℕ} {t : Task} (h : Touched s p op t) (hi : i ≠ p → Touched s i op (T i)) :
    Touched s i op (T.set p t i) := by
  rw [Table.set_apply]
  split_ifs with heq
  · exact heq ▸ h
  · exact hi heq

theorem touched_setPriority {me a0 a1 : ℕ} (hrun : (s.table me).state = .running) :
    Touched s i (.setPriority me a0 a1) ((sysSetPriority s.table me a0 a1).1 i) := by
  unfold sysSetPriority
  cases hfind : s.table.findSlot fun t => t.pid = wrap32 a0 with
  | none =>
    dsimp only
    split_ifs
    · refine touched_set ?_ fun _ => .same _
      exact .rescheduled a0 a1 hrun
    · exact .same _
  | some j =>
    have hset : ∀ i, Touched s i (.setPriority me a0 a1)
        (s.table.set j (setPriorityTask (s.table j) a1) i) := fun i =>
      touched_set (.prioritised me a0 a1 hfind) fun _ => .same _
    dsimp only
    split_ifs
    · refine touched_set ?_ fun _ => hset i
      rw [Table.set_apply]
      split_ifs with heq
      · subst heq
        exact .prioritisedSelf a0 a1 hfind hrun
      · exact .rescheduled a0 a1 hrun
    · exact hset i

theorem touched_mapSlots {f : Task → Task} (h : i < nproc → Touched s i op (f (s.table i))) :
    Touched s i op (s.table.mapSlots f i) := by
  unfold Table.mapSlots
  split_ifs with hi
  · exact h hi
  · exact .same _

theorem touched_exit {p : ℕ} {status : ℤ} (h : (reparent s.table p).onRunning p
      (fun t => exitTask (closeFiles t) status s.ticks) = some T') :
    Touched s i (.exit p status) (T' i) := by
  obtain ⟨hp, hrun, rfl⟩ := Table.onRunning_eq_some h
  have hparent : reparent s.table p p = orphanTask (s.table p) p := if_pos hp
  rw [hparent] at hrun ⊢
  exact touched_set (.exited status hrun) fun _ => touched_mapSlots fun _ => .orphaned p status

/-- Every operation leaves in every slot one of the listed values. -/
theorem step_touched (h : s.step op = some s') (i : ℕ) : Touched s i op (s'.table i) := by
  have hon : ∀ {p : ℕ} {f : Task → Task} {op : Op},
      ((s.table.onRunning p f).map fun T => { s with table := T }) = some s' →
      ((s.table p).state = .running → Touched s p op (f (s.table p))) →
      Touched s i op (s'.table i) := by
    intro p f op heq htouch
    obtain ⟨T, hT, rfl⟩ := Option.map_eq_some_iff.mp heq
    obtain ⟨-, hrun, rfl⟩ := Table.onRunning_eq_some hT
    exact touched_set (htouch hrun) fun _ => .same _
  cases op with
  | fork me outcome =>
    simp only [Sys.step] at h
    split_ifs at h
    cases hfree : s.freeSlot with
    | none =>
      rw [hfree] at h
      obtain rfl := Option.some.inj h
      exact .same _
    | some j =>
      rw [hfree] at h
      obtain rfl := Option.some.inj h
      rcases eq_or_ne i j with rfl | hi
      · exact .forked me outcome hfree
      · have hsame : forkTable s.table me s.nextpid s.ticks j outcome i = s.table i := by
          cases outcome <;> exact Table.set_of_ne _ _ hi
        dsimp only
        rw [hsame]
        exact .same _
  | setPriority me a0 a1 =>
    simp only [Sys.step] at h
    split_ifs at h with hme
    obtain rfl := Option.some.inj h
    exact touched_setPriority hme.2
  | tick =>
    obtain rfl := Option.some.inj h
    exact touched_mapSlots fun hi => .ticked hi
  | pass =>
    rcases pass_slot s.table i with ⟨hsame, hne⟩ | ⟨hrun, hpass⟩
    · have hi : s'.table i = evaluated s.table i := by
        rw [← hsame]
        simp only [Sys.step] at h
        split at h <;> obtain rfl := Option.some.inj h
        · rename_i heq
          rw [heq]
        · rename_i p heq
          rw [heq] at hne ⊢
          exact Table.set_of_ne _ _ fun hp => hne (congrArg some hp.symm)
      rw [hi]
      exact touched_pass s i
    · simp only [Sys.step, hpass] at h
      obtain rfl := Option.some.inj h
      simpa using Touched.dispatched hrun
  | roundRobin p =>
    simp only [Sys.step] at h
    split_ifs at h with hp
    obtain rfl := Option.some.inj h
    exact touched_set (.switched hp) fun _ => .same _
  | yield p => exact hon h fun hrun => .yielded hrun
  | sleep p chan => exact hon h fun hrun => .slept chan hrun
  | wakeup chan =>
    obtain rfl := Option.some.inj h
    exact touched_mapSlots fun _ => .woken chan
  | kill a0 =>
    obtain rfl := Option.some.inj h
    unfold kill
    cases hfind : s.table.findSlot fun t => t.pid = wrap32 a0 with
    | none => exact .same _
    | some j => exact touched_set (.killed a0 hfind) fun _ => .same _
  | exit p status =>
    simp only [Sys.step] at h
    split_ifs at h
    obtain ⟨T, hT, rfl⟩ := Option.map_eq_some_iff.mp h
    exact touched_exit hT
  | reap me child =>
    simp only [Sys.step] at h
    split_ifs at h with hreap
    obtain rfl := Option.some.inj h
    exact touched_set (.reaped me hreap.2.2.1) fun _ => .same _
  | setOfile me fd file => exact hon h fun hrun => .opened fd file hrun

/-! ## The ledger -/

/-- The number of clock ticks, and for every slot those since its last allocation at
which the process was running, and those at which it was alive and not running. -/
structure Ledger where
  elapsed : ℕ := 0
  ran : ℕ → ℕ := fun _ => 0
  idle : ℕ → ℕ := fun _ => 0

/-- The process exists and has not exited. -/
def Task.alive (t : Task) : Bool := t.state ≠ .unused ∧ t.state ≠ .zombie

def Ledger.step (l : Ledger) (s : Sys) : Op → Ledger
  | .tick =>
    { elapsed := l.elapsed + 1
      ran := fun i => if (s.table i).state = .running then l.ran i + 1 else l.ran i
      idle := fun i => if (s.table i).alive ∧ (s.table i).state ≠ .running then l.idle i + 1
        else l.idle i }
  | .fork _ _ =>
    match s.freeSlot with
    | none => l
    | some i => { l with ran := Function.update l.ran i 0, idle := Function.update l.idle i 0 }
  | _ => l

/-- The system together with its ledger. -/
def tracedStep (r : Sys × Ledger) (op : Op) : Option (Sys × Ledger) :=
  (r.1.step op).map fun s => (s, r.2.step r.1 op)

theorem tracedStep_of_step {r : Sys × Ledger} (h : r.1.step op = some s') :
    tracedStep r op = some (s', r.2.step r.1 op) := by
  unfold tracedStep
  rw [h]
  rfl

theorem tracedStep_eq_some {r r' : Sys × Ledger} (h : tracedStep r op = some r') :
    r.1.step op = some r'.1 ∧ r'.2 = r.2.step r.1 op := by
  obtain ⟨s, hs, rfl⟩ := Option.map_eq_some_iff.mp h
  exact ⟨hs, rfl⟩

end XV6AndConcurrency.Scheduling
