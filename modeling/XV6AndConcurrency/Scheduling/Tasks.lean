import Mathlib.Logic.Function.Basic
import XV6AndConcurrency.Foundations.Int32

/-!
# The process table and its locked sections

The fields of `struct proc` that the priority scheduler, the clock and
`set_priority` work on, and what the code does to one process between `acquire`
and `release` of its `p->lock`. An `int` field is an integer that every write
wraps, a `uint` field a natural number.
-/

namespace XV6AndConcurrency.Scheduling

open Foundations

/-- `enum procstate`. -/
inductive ProcState
  | unused
  | used
  | sleeping
  | runnable
  | running
  | zombie
  deriving DecidableEq, Repr

/-- The fields of `struct proc` that scheduling and process bookkeeping use. A slot of
the table starts out zeroed; a pointer is the slot or address it points to. -/
structure Task where
  state : ProcState := .unused
  chan : ℕ := 0
  killed : ℤ := 0
  xstate : ℤ := 0
  pid : ℤ := 0
  parent : Option ℕ := none
  ofile : ℕ → ℕ := fun _ => 0
  rtime : ℕ := 0
  ctime : ℕ := 0
  etime : ℕ := 0
  sp : ℤ := 0
  dp : ℤ := 0
  rbi : ℤ := 0
  runtime : ℤ := 0
  stime : ℤ := 0
  wtime : ℤ := 0
  noScheduled : ℤ := 0
  startTime : ℤ := 0

/-- `NPROC`. -/
def nproc : ℕ := 64

/-- The array `proc`; only the slots below `nproc` exist. -/
abbrev Table := ℕ → Task

/-- The order in which every loop over `proc` visits the slots. -/
def slots : List ℕ := List.range nproc

theorem mem_slots {i : ℕ} : i ∈ slots ↔ i < nproc := List.mem_range

/-- Writing one slot. -/
def Table.set (T : Table) (i : ℕ) (t : Task) : Table := Function.update T i t

namespace Table

variable (T : Table) (i : ℕ) (t : Task)

@[simp] theorem set_self : T.set i t i = t := by
  unfold set
  exact Function.update_self i t T

theorem set_apply (j : ℕ) : T.set i t j = if j = i then t else T j := by
  unfold set
  exact Function.update_apply T i t j

variable {i} in
theorem set_of_ne {j : ℕ} (h : j ≠ i) : T.set i t j = T j := by
  unfold set
  exact Function.update_of_ne h t T

end Table

/-- Conversion of an `int` to `uint`. -/
def toUint (x : ℤ) : ℕ := (x % 4294967296).toNat

/-- Adding one to a `uint`. -/
def incUint (x : ℕ) : ℕ := (x + 1) % 4294967296

section

variable (t : Task)

/-! ## The recent behaviour index -/

/-- `(3 * p->runtime - p->stime - p->wtime) * 50`. -/
def rbiNumerator : ℤ := wrap32 ((3 * t.runtime - t.stime - t.wtime) * 50)

/-- `p->runtime + p->stime + p->wtime + 1`. -/
def rbiDenominator : ℤ := wrap32 (t.runtime + t.stime + t.wtime + 1)

/-- The index that the scheduler computes. Division by zero and the one overflowing
quotient are negative on this hardware, so either way the index is zero. -/
def rbiOf : ℤ :=
  let c := wrap32 ((rbiNumerator t).tdiv (rbiDenominator t))
  if c > 0 then c else 0

/-- The two assignments at the head of the scheduler's first loop. -/
def evaluate : Task :=
  let rbi := rbiOf t
  let sum := wrap32 (t.sp + rbi)
  { t with rbi := rbi, dp := if sum < 100 then sum else 100 }

/-! ## Sections of the scheduler -/

/-- First loop: evaluate a runnable process and keep the largest value. -/
def evalSection (max : ℤ) : Task × ℤ :=
  if t.state = .runnable then
    let t := evaluate t
    (t, if t.dp > max then t.dp else max)
  else (t, max)

/-- Second loop: is the process stored in `arr`? -/
def tied (max : ℤ) : Bool := t.state = .runnable ∧ t.dp = max

/-- Third loop: the running minimum of `no_scheduled` and its index. -/
def leastSection (i : ℕ) (best : ℤ × ℕ) : ℤ × ℕ :=
  if t.state = .runnable ∧ t.noScheduled < best.1 then (t.noScheduled, i) else best

/-- Fourth and fifth loop: is the process counted, or stored in `arr2`? -/
def counted (noSched : ℤ) : Bool := t.state = .runnable ∧ t.noScheduled = noSched

/-- Sixth loop: the running minimum `min_start` and its index. The comparison of
`ctime` with an `int` is unsigned. -/
def earliestSection (i : ℕ) (best : ℤ × ℕ) : ℤ × ℕ :=
  if t.state = .runnable ∧ t.ctime < toUint best.1 then (wrap32 t.ctime, i) else best

/-- The writes of the scheduler before `swtch`. -/
def dispatch : Task :=
  { t with noScheduled := wrap32 (t.noScheduled + 1), stime := 0, runtime := 0,
           state := .running }

/-! ## Sections of the other functions -/

/-- `allocproc` from the label `found` up to the allocations. -/
def foundTask (pid : ℤ) (ticks : ℕ) : Task :=
  { t with pid := pid, state := .used, rbi := 25, sp := 50, dp := 75, runtime := 0, stime := 0,
           wtime := 0, noScheduled := 0, startTime := wrap32 ticks }

/-- All that `allocproc` writes when its allocations succeed. -/
def allocTask (pid : ℤ) (ticks : ℕ) : Task :=
  { foundTask t pid ticks with rtime := 0, etime := 0, ctime := ticks }

/-- The scheduling part of `freeproc`. -/
def freeTask : Task :=
  { t with pid := 0, parent := none, chan := 0, killed := 0, xstate := 0, state := .unused }

/-- The last section of `fork`, and of `userinit`. -/
def readyTask : Task := { t with state := .runnable }

/-- The section of `yield`. -/
def yieldTask : Task := { t with state := .runnable }

/-- The section of `sleep` before the switch. -/
def sleepTask (chan : ℕ) : Task := { t with chan := chan, state := .sleeping }

/-- What `sleep` does with the lock when the process is switched to again. -/
def tidyTask : Task := { t with chan := 0 }

/-- One section of `wakeup`. -/
def wakeupTask (chan : ℕ) : Task :=
  if t.state = .sleeping ∧ t.chan = chan then { t with state := .runnable } else t

/-- The section of `kill` at the process with the given pid. -/
def killTask : Task :=
  { t with killed := 1, state := if t.state = .sleeping then .runnable else t.state }

/-- The last section of `exit`. -/
def exitTask (status : ℤ) (ticks : ℕ) : Task :=
  { t with xstate := status, state := .zombie, etime := ticks }

/-- One section of `update_time`. -/
def updateTimeTask : Task :=
  match t.state with
  | .running => { t with rtime := incUint t.rtime, runtime := wrap32 (t.runtime + 1) }
  | .sleeping => { t with stime := wrap32 (t.stime + 1) }
  | .runnable => { t with wtime := wrap32 (t.wtime + 1) }
  | _ => t

end

theorem evalSection_fst (t : Task) (max : ℤ) :
    (evalSection t max).1 = if t.state = .runnable then evaluate t else t := by
  dsimp only [evalSection]
  split_ifs <;> rfl

theorem evalSection_snd (t : Task) (max : ℤ) :
    (evalSection t max).2 =
      if t.state = .runnable ∧ (evaluate t).dp > max then (evaluate t).dp else max := by
  dsimp only [evalSection]
  by_cases h : t.state = .runnable
  · simp only [h, true_and, if_true]
  · rw [if_neg h, if_neg fun hgt => h hgt.1]

/-! ## The dynamic priority -/

variable (t : Task)

/-- `min (SP + RBI, 100)`, with the sum taken exactly. -/
def dynamicPriority : ℤ := min (t.sp + rbiOf t) 100

/-- The sum of the two priorities is an `int`. -/
def SumFits : Prop := t.sp + rbiOf t < 2147483648

instance : Decidable (SumFits t) := inferInstanceAs (Decidable (_ < _))

theorem rbiOf_nonneg : 0 ≤ rbiOf t := by
  dsimp only [rbiOf]
  split_ifs <;> omega

theorem rbiOf_lt : rbiOf t < 2147483648 := by
  have h := wrap32_lt ((rbiNumerator t).tdiv (rbiDenominator t))
  dsimp only [rbiOf]
  split_ifs <;> omega

@[simp] theorem evaluate_state : (evaluate t).state = t.state := rfl

@[simp] theorem evaluate_sp : (evaluate t).sp = t.sp := rfl

@[simp] theorem evaluate_rbi : (evaluate t).rbi = rbiOf t := by
  simp only [evaluate]

@[simp] theorem evaluate_noScheduled : (evaluate t).noScheduled = t.noScheduled := rfl

variable {t}

/-- The value the scheduler stores is the specified one as long as the sum fits. -/
theorem evaluate_dp_of_fits (hsp : 0 ≤ t.sp) (h : SumFits t) :
    (evaluate t).dp = dynamicPriority t := by
  have hrbi := rbiOf_nonneg t
  have hwrap : wrap32 (t.sp + rbiOf t) = t.sp + rbiOf t := wrap32_of_range (by omega) h
  unfold dynamicPriority
  change (if wrap32 (t.sp + rbiOf t) < 100 then _ else _) = _
  rw [hwrap]
  split <;> omega

/-- When the sum overflows, the stored value is negative. -/
theorem evaluate_dp_of_overflow (hsp : t.sp ≤ 100) (h : ¬ SumFits t) : (evaluate t).dp < 0 := by
  have hrbi := rbiOf_lt t
  have hneg : wrap32 (t.sp + rbiOf t) < 0 := by
    unfold SumFits at h
    rw [wrap32_eq]
    omega
  change (if wrap32 (t.sp + rbiOf t) < 100 then _ else _) < 0
  rw [if_pos (by omega)]
  exact hneg

theorem evaluate_dp_le (t : Task) : (evaluate t).dp ≤ 100 := by
  change (if wrap32 (t.sp + rbiOf t) < 100 then _ else _) ≤ _
  split <;> omega

theorem dynamicPriority_nonneg (hsp : 0 ≤ t.sp) : 0 ≤ dynamicPriority t := by
  have hrbi := rbiOf_nonneg t
  unfold dynamicPriority
  omega

end XV6AndConcurrency.Scheduling
