import XV6AndConcurrency.Foundations.Transitions
import XV6AndConcurrency.Scheduling.Pass

/-!
# Schedulers on many CPUs

Every CPU runs `scheduler` or the process it has switched to. A step is one section
between `acquire` and `release` of a `p->lock`, or one read outside a lock; a section
that ends in `swtch` extends to the `release` on the other side. The sections of
`yield`, `sleep`, `wakeup`, `kill`, `exit`, `fork`, `wait`, `update_time` and
`set_priority` come in between in any order.
-/

namespace XV6AndConcurrency.Scheduling

open Foundations

/-- Which scheduler the kernel is compiled with. -/
inductive Policy
  | pbs
  | rr

/-- Where a CPU is, with the values of the variables of `scheduler` that are still used. -/
inductive Pc
  | eval (i : ℕ) (max : ℤ)
  | tie (i : ℕ) (max : ℤ) (arr : List ℕ)
  | first (arr : List ℕ)
  | least (arr : List ℕ) (i : ℕ) (best : ℤ × ℕ)
  | counting (arr : List ℕ) (best : ℤ × ℕ) (i countSched : ℕ)
  | pick (arr : List ℕ) (ind : ℕ)
  | gather (arr : List ℕ) (noSched : ℤ) (i : ℕ) (arr2 : List ℕ)
  | readStart (arr2 : List ℕ)
  | earliest (arr2 : List ℕ) (i : ℕ) (best : ℤ × ℕ)
  | pick2 (arr2 : List ℕ) (ind2 : ℕ)
  | fallback (i : ℕ) (max : ℤ)
  | roundRobin (i : ℕ)
  /-- In the process `p`, with `c->proc` set; the scheduler goes on at `back`. -/
  | running (p : ℕ) (back : Pc)
  /-- In front of the use of an entry of an array that was never stored. -/
  | wild

/-- `c->proc`. -/
def Pc.proc : Pc → Option ℕ
  | .running p _ => some p
  | _ => none

/-- The head of the `for (;;)`. -/
def Policy.head : Policy → Pc
  | .pbs => .eval 0 0
  | .rr => .roundRobin 0

/-- `swtch` to a process after the writes `f`, which ends when the process, back in
`sched`'s caller or in `forkret`, releases its lock. -/
def switchTo (T : Table) (p : ℕ) (f : Task → Task) (back : Pc) : Table × Pc :=
  (T.set p (tidyTask (f (T p))), .running p back)

/-- The acquire, check and dispatch of a chosen entry of a candidate array. -/
def pickStep (T : Table) (arr : List ℕ) (ind : ℕ) (back : Pc) : Table × Pc :=
  match arr[ind]? with
  | none => (T, .wild)
  | some p =>
    if (T p).state = .runnable then switchTo T p dispatch back else (T, back)

/-- The next step of a CPU in `scheduler`; none of a CPU in a process, or in front of an entry
that nobody has stored. -/
def schedStep (policy : Policy) (T : Table) : Pc → Option (Table × Pc)
  | .eval i max =>
    if i < nproc then
      let r := evalSection (T i) max
      some (T.set i r.1, .eval (i + 1) r.2)
    else some (T, .tie 0 max [])
  | .tie i max arr =>
    if i < nproc then
      some (T, .tie (i + 1) max (if tied (T i) max then arr ++ [i] else arr))
    else if arr = [] then some (T, .fallback 0 max)
    else some (T, .first arr)
  | .first arr =>
    match arr[0]? with
    | none => some (T, .wild)
    | some p => some (T, .least arr 0 ((T p).noScheduled, 0))
  | .least arr i best =>
    match arr[i]? with
    | some p => some (T, .least arr (i + 1) (leastSection (T p) i best))
    | none => some (T, .counting arr best 0 0)
  | .counting arr best i countSched =>
    match arr[i]? with
    | some p => some (T, .counting arr best (i + 1)
        (if counted (T p) best.1 then countSched + 1 else countSched))
    | none =>
      if countSched = 1 then some (T, .pick arr best.2)
      else if countSched > 1 then some (T, .gather arr best.1 0 [])
      else some (T, policy.head)
  | .pick arr ind => some (pickStep T arr ind policy.head)
  | .gather arr noSched i arr2 =>
    match arr[i]? with
    | some p => some (T, .gather arr noSched (i + 1)
        (if counted (T p) noSched then arr2 ++ [p] else arr2))
    | none => some (T, .readStart arr2)
  | .readStart arr2 =>
    match arr2[0]? with
    | none => some (T, .wild)
    | some p => some (T, .earliest arr2 0 ((T p).startTime, 0))
  | .earliest arr2 i best =>
    match arr2[i]? with
    | some p => some (T, .earliest arr2 (i + 1) (earliestSection (T p) i best))
    | none => some (T, .pick2 arr2 best.2)
  | .pick2 arr2 ind2 => some (pickStep T arr2 ind2 policy.head)
  | .fallback i max =>
    if i < nproc then
      if tied (T i) max then some (switchTo T i dispatch (.fallback (i + 1) max))
      else some (T, .fallback (i + 1) max)
    else some (T, policy.head)
  | .roundRobin i =>
    if i < nproc then
      if (T i).state = .runnable then
        some (switchTo T i (fun t => { t with state := .running }) (.roundRobin (i + 1)))
      else some (T, .roundRobin (i + 1))
    else some (T, policy.head)
  | .running _ _ => none
  | .wild => none

/-- The table and where every CPU is. There are as many CPUs as one likes; those
that take no step stay at the head of their loop. -/
structure Machine where
  table : Table
  cpus : ℕ → Pc

inductive Action
  | sched (c : ℕ)
  /-- What is left in an entry that was never stored points to the slot `p`. -/
  | stray (c p : ℕ)
  | yield (c : ℕ)
  | sleep (c chan : ℕ)
  | exit (c : ℕ) (status : ℤ) (ticks : ℕ)
  | wakeup (i chan : ℕ)
  | kill (i : ℕ)
  | alloc (i : ℕ) (pid : ℤ) (ticks : ℕ)
  | allocFail (i : ℕ) (pid : ℤ) (ticks : ℕ)
  | ready (i : ℕ)
  | reap (i : ℕ)
  | updateTime (i : ℕ)
  | setPriority (i : ℕ) (sp : ℤ)

namespace Machine

variable (policy : Policy) (M : Machine)

/-- Every CPU is about to run its scheduler on the table `T`. -/
def boot (T : Table) : Machine := ⟨T, fun _ => policy.head⟩

def set (c : ℕ) (r : Table × Pc) : Machine := ⟨r.1, Function.update M.cpus c r.2⟩

/-- A section on slot `i` that finds it as `guard` says. -/
def onSlot (i : ℕ) (guard : Task → Prop) [DecidablePred guard] (f : Task → Task) :
    Option Machine :=
  if i < nproc ∧ guard (M.table i) then some ⟨M.table.set i (f (M.table i)), M.cpus⟩ else none

/-- A section of the process on CPU `c` that ends in `sched`. -/
def leave (c : ℕ) (f : Task → Task) : Option Machine :=
  match M.cpus c with
  | .running p back => some (M.set c (M.table.set p (f (M.table p)), back))
  | _ => none

/-- The acquire, check and dispatch of what an entry points to that was never stored. -/
def stray (c p : ℕ) : Option Machine :=
  match M.cpus c with
  | .wild => if p < nproc then some (M.set c (pickStep M.table [p] 0 policy.head)) else none
  | _ => none

def step : Action → Option Machine
  | .sched c => (schedStep policy M.table (M.cpus c)).map (M.set c)
  | .stray c p => M.stray policy c p
  | .yield c => M.leave c yieldTask
  | .sleep c chan => M.leave c (sleepTask · chan)
  | .exit c status ticks => M.leave c (exitTask · status ticks)
  | .wakeup i chan => M.onSlot i (fun _ => True) (wakeupTask · chan)
  | .kill i => M.onSlot i (fun _ => True) killTask
  | .alloc i pid ticks => M.onSlot i (·.state = .unused) (allocTask · pid ticks)
  | .allocFail i pid ticks =>
    M.onSlot i (·.state = .unused) fun t => freeTask (foundTask t pid ticks)
  | .ready i => M.onSlot i (·.state = .used) readyTask
  | .reap i => M.onSlot i (·.state = .zombie) freeTask
  | .updateTime i => M.onSlot i (fun _ => True) updateTimeTask
  | .setPriority i sp => M.onSlot i (fun _ => True) fun t => { t with sp := sp, rbi := 25 }

end Machine

/-! ## What a step can do -/

@[simp] theorem Policy.head_proc (policy : Policy) : policy.head.proc = none := by
  cases policy <;> rfl

/-- A step of a scheduler keeps the fields that the choice depends on. -/
def SameChoice (T T' : Table) : Prop :=
  ∀ j, (T' j).state = (T j).state ∧ (T' j).noScheduled = (T j).noScheduled

/-- A step of a scheduler takes the runnable process `p`. -/
structure Switched (T T' : Table) (pc : Pc) (p : ℕ) : Prop where
  runnable : (T p).state = .runnable
  table : ∃ t : Task, t.state = .running ∧ T' = T.set p t
  pc : ∃ back : Pc, back.proc = none ∧ pc = .running p back

variable {policy : Policy} {T T' : Table} {pc pc' : Pc} {arr : List ℕ} {p ind : ℕ}

theorem SameChoice.refl (T : Table) : SameChoice T T := fun _ => ⟨rfl, rfl⟩

theorem sameChoice_evalSection (T : Table) (i : ℕ) (max : ℤ) :
    SameChoice T (T.set i (evalSection (T i) max).1) := by
  intro j
  rw [evalSection_fst, Table.set_apply]
  split_ifs with hj
  · subst hj
    exact ⟨rfl, rfl⟩
  · subst hj
    exact ⟨rfl, rfl⟩
  · exact ⟨rfl, rfl⟩

theorem switchTo_switched (f : Task → Task) (back : Pc) (hrun : (T p).state = .runnable)
    (hf : ∀ t, (f t).state = .running) (hback : back.proc = none) :
    Switched T (switchTo T p f back).1 (switchTo T p f back).2 p :=
  ⟨hrun, ⟨tidyTask (f (T p)), hf (T p), rfl⟩, back, hback, rfl⟩

theorem pickStep_cases {back : Pc} (hback : back.proc = none)
    (h : pickStep T arr ind back = (T', pc')) :
    pc'.proc = none ∧ T' = T ∨ ∃ p, Switched T T' pc' p := by
  unfold pickStep at h
  split at h
  · obtain ⟨rfl, rfl⟩ := Prod.mk.inj h
    exact .inl ⟨rfl, rfl⟩
  · split_ifs at h with hrun
    · have hsw := switchTo_switched dispatch back hrun (fun _ => rfl) hback
      rw [h] at hsw
      exact .inr ⟨_, hsw⟩
    · obtain ⟨rfl, rfl⟩ := Prod.mk.inj h
      exact .inl ⟨hback, rfl⟩

/-- A step either leaves states and counts alone or switches to a runnable process. -/
theorem schedStep_cases (h : schedStep policy T pc = some (T', pc')) :
    pc'.proc = none ∧ SameChoice T T' ∨ ∃ p, Switched T T' pc' p := by
  have hsame : ∀ {pc₁ : Pc}, pc₁.proc = none → some (T, pc₁) = some (T', pc') →
      pc'.proc = none ∧ SameChoice T T' ∨ ∃ p, Switched T T' pc' p := by
    intro pc₁ hpc heq
    obtain ⟨rfl, rfl⟩ := Prod.mk.inj (Option.some.inj heq)
    exact .inl ⟨hpc, SameChoice.refl T⟩
  have hpick : ∀ {arr : List ℕ} {ind : ℕ}, some (pickStep T arr ind policy.head) = some (T', pc') →
      pc'.proc = none ∧ SameChoice T T' ∨ ∃ p, Switched T T' pc' p := by
    intro arr ind heq
    refine (pickStep_cases policy.head_proc (Option.some.inj heq)).imp_left ?_
    rintro ⟨hpc, rfl⟩
    exact ⟨hpc, SameChoice.refl _⟩
  cases pc with
  | eval i max =>
    simp only [schedStep] at h
    split_ifs at h
    · obtain ⟨rfl, rfl⟩ := Prod.mk.inj (Option.some.inj h)
      exact .inl ⟨rfl, sameChoice_evalSection T i max⟩
    · exact hsame rfl h
  | tie i max arr =>
    simp only [schedStep] at h
    split_ifs at h <;> exact hsame rfl h
  | first arr =>
    simp only [schedStep] at h
    split at h <;> exact hsame rfl h
  | least arr i best =>
    simp only [schedStep] at h
    split at h <;> exact hsame rfl h
  | counting arr best i count =>
    simp only [schedStep] at h
    split at h
    · exact hsame rfl h
    · split_ifs at h
      · exact hsame rfl h
      · exact hsame rfl h
      · exact hsame policy.head_proc h
  | pick arr ind => exact hpick h
  | gather arr noSched i arr2 =>
    simp only [schedStep] at h
    split at h <;> exact hsame rfl h
  | readStart arr2 =>
    simp only [schedStep] at h
    split at h <;> exact hsame rfl h
  | earliest arr2 i best =>
    simp only [schedStep] at h
    split at h <;> exact hsame rfl h
  | pick2 arr2 ind2 => exact hpick h
  | fallback i max =>
    simp only [schedStep] at h
    split_ifs at h with hlt htied
    · have hsw := switchTo_switched dispatch (.fallback (i + 1) max)
        (of_decide_eq_true htied).1 (fun _ => rfl) rfl
      rw [Option.some.inj h] at hsw
      exact .inr ⟨_, hsw⟩
    · exact hsame rfl h
    · exact hsame policy.head_proc h
  | roundRobin i =>
    simp only [schedStep] at h
    split_ifs at h with hlt hrun
    · have hsw := switchTo_switched (fun t => { t with state := .running })
        (.roundRobin (i + 1)) hrun (fun _ => rfl) rfl
      rw [Option.some.inj h] at hsw
      exact .inr ⟨_, hsw⟩
    · exact hsame rfl h
    · exact hsame policy.head_proc h
  | running p back => exact absurd h (by simp [schedStep])
  | wild => exact absurd h (by simp [schedStep])

/-- CPU `c` takes a step of its scheduler. -/
structure SchedEffect (policy : Policy) (M M' : Machine) (c : ℕ) (pc : Pc) : Prop where
  step : schedStep policy M.table (M.cpus c) = some (M'.table, pc)
  cpus : M'.cpus = Function.update M.cpus c pc

/-- CPU `c` looks at the slot `p`, to which an entry points that was never stored. -/
structure StrayEffect (policy : Policy) (M M' : Machine) (c p : ℕ) (pc : Pc) : Prop where
  wild : M.cpus c = .wild
  step : pickStep M.table [p] 0 policy.head = (M'.table, pc)
  cpus : M'.cpus = Function.update M.cpus c pc

/-- The process on CPU `c` switches back to the scheduler. -/
structure LeaveEffect (M M' : Machine) (c p : ℕ) : Prop where
  cpus : ∃ back, M.cpus c = .running p back ∧ M'.cpus = Function.update M.cpus c back
  table : ∃ t : Task, t.state ≠ .running ∧ t.noScheduled = (M.table p).noScheduled ∧
    M'.table = M.table.set p t

/-- A section elsewhere in the kernel works on slot `i`. -/
structure SlotEffect (M M' : Machine) (i : ℕ) : Prop where
  cpus : M'.cpus = M.cpus
  table : ∃ t : Task, (t.state = .running ↔ (M.table i).state = .running) ∧
    ((M.table i).state = .runnable →
      t.state = .runnable ∧ t.noScheduled = (M.table i).noScheduled) ∧
    M'.table = M.table.set i t

namespace Machine

variable {M M' : Machine} {a : Action}

theorem stray_effect {c p : ℕ} (h : M.stray policy c p = some M') :
    ∃ pc, StrayEffect policy M M' c p pc := by
  unfold stray at h
  split at h
  · rename_i hc
    split_ifs at h
    obtain rfl := Option.some.inj h
    exact ⟨_, hc, rfl, rfl⟩
  · exact absurd h (by simp)

theorem leave_effect {c : ℕ} {f : Task → Task} (h : M.leave c f = some M')
    (hstate : ∀ t, (f t).state ≠ .running) (hcount : ∀ t, (f t).noScheduled = t.noScheduled) :
    ∃ p, LeaveEffect M M' c p := by
  unfold leave at h
  split at h
  · obtain rfl := Option.some.inj h
    rename_i p back hc
    exact ⟨p, ⟨back, hc, rfl⟩, f (M.table p), hstate _, hcount _, rfl⟩
  · exact absurd h (by simp)

theorem onSlot_effect {i : ℕ} {guard : Task → Prop} [DecidablePred guard] {f : Task → Task}
    (h : M.onSlot i guard f = some M')
    (hrun : ∀ t, guard t → ((f t).state = .running ↔ t.state = .running))
    (hkeep : ∀ t, guard t → t.state = .runnable →
      (f t).state = .runnable ∧ (f t).noScheduled = t.noScheduled) : SlotEffect M M' i := by
  unfold onSlot at h
  split_ifs at h with hg
  obtain rfl := Option.some.inj h
  exact ⟨rfl, f (M.table i), hrun _ hg.2, hkeep _ hg.2, rfl⟩

theorem wakeupTask_running (t : Task) (chan : ℕ) :
    (wakeupTask t chan).state = .running ↔ t.state = .running := by
  unfold wakeupTask
  split_ifs with h
  · simp [h.1]
  · rfl

theorem updateTimeTask_state (t : Task) : (updateTimeTask t).state = t.state := by
  unfold updateTimeTask
  split <;> simp_all

theorem updateTimeTask_noScheduled (t : Task) :
    (updateTimeTask t).noScheduled = t.noScheduled := by
  unfold updateTimeTask
  split <;> rfl

/-- Every action is one of four kinds. -/
theorem step_cases (h : M.step policy a = some M') :
    (∃ c pc, a = .sched c ∧ SchedEffect policy M M' c pc) ∨
      (∃ c p pc, StrayEffect policy M M' c p pc) ∨ (∃ c p, LeaveEffect M M' c p) ∨
      ∃ i, SlotEffect M M' i := by
  cases a with
  | stray c p =>
    obtain ⟨pc, hstray⟩ := stray_effect h
    exact .inr (.inl ⟨c, p, pc, hstray⟩)
  | sched c =>
    obtain ⟨⟨T, pc⟩, hstep, rfl⟩ := Option.map_eq_some_iff.mp h
    exact .inl ⟨c, pc, rfl, hstep, rfl⟩
  | yield c =>
    rw [step] at h
    exact .inr (.inr (.inl ⟨c, leave_effect h (by simp [yieldTask]) fun _ => rfl⟩))
  | sleep c chan =>
    rw [step] at h
    exact .inr (.inr (.inl ⟨c, leave_effect h (by simp [sleepTask]) fun _ => rfl⟩))
  | exit c status ticks =>
    rw [step] at h
    exact .inr (.inr (.inl ⟨c, leave_effect h (by simp [exitTask]) fun _ => rfl⟩))
  | wakeup i chan =>
    rw [step] at h
    refine .inr (.inr (.inr ⟨i, onSlot_effect h (fun t _ => wakeupTask_running t chan) ?_⟩))
    intro t _ ht
    simp [wakeupTask, ht]
  | kill i =>
    rw [step] at h
    refine .inr (.inr (.inr ⟨i, onSlot_effect h (fun t _ => ?_) (fun t _ ht => ?_)⟩))
    · by_cases ht : t.state = .sleeping <;> simp [killTask, ht]
    · simp [killTask, ht]
  | alloc i pid ticks =>
    rw [step] at h
    refine .inr (.inr (.inr ⟨i, onSlot_effect h (fun t ht => ?_) (fun t ht hrun => ?_)⟩))
    · simp [allocTask, foundTask, ht]
    · simp [ht] at hrun
  | allocFail i pid ticks =>
    rw [step] at h
    refine .inr (.inr (.inr ⟨i, onSlot_effect h (fun t ht => ?_) (fun t ht hrun => ?_)⟩))
    · simp [freeTask, ht]
    · simp [ht] at hrun
  | ready i =>
    rw [step] at h
    refine .inr (.inr (.inr ⟨i, onSlot_effect h (fun t ht => ?_) (fun t ht hrun => ?_)⟩))
    · simp [readyTask, ht]
    · simp [ht] at hrun
  | reap i =>
    rw [step] at h
    refine .inr (.inr (.inr ⟨i, onSlot_effect h (fun t ht => ?_) (fun t ht hrun => ?_)⟩))
    · simp [freeTask, ht]
    · simp [ht] at hrun
  | updateTime i =>
    rw [step] at h
    refine .inr (.inr (.inr ⟨i, onSlot_effect h (fun t _ => ?_) (fun t _ ht => ⟨?_, ?_⟩)⟩))
    · rw [updateTimeTask_state]
    · rw [updateTimeTask_state, ht]
    · exact updateTimeTask_noScheduled t
  | setPriority i sp =>
    rw [step] at h
    exact .inr (.inr (.inr ⟨i, onSlot_effect h (fun _ _ => Iff.rfl) fun _ _ ht => ⟨ht, rfl⟩⟩))

end Machine

end XV6AndConcurrency.Scheduling
