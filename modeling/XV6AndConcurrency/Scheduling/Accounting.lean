import XV6AndConcurrency.Scheduling.Calls

/-!
# The times that `waitx` returns

`allocproc` takes the time of creation, `exit` the time of death and `update_time`
counts the ticks at which a process runs. All three are `uint`s; the ledger counts the
same ticks without wrapping.
-/

namespace XV6AndConcurrency.Scheduling

open Foundations

/-- The times of slot `i` agree with the ledger modulo `2 ^ 32`. -/
structure Accounts (s : Sys) (l : Ledger) (i : ℕ) : Prop where
  ran : (s.table i).state ≠ .unused → (s.table i).rtime = l.ran i % 4294967296
  alive : (s.table i).alive = true →
    ((s.table i).ctime + l.ran i + l.idle i) % 4294967296 = s.ticks
  dead : (s.table i).state = .zombie →
    ((s.table i).ctime + l.ran i + l.idle i) % 4294967296 = (s.table i).etime

variable {s s' : Sys} {l : Ledger} {op : Op} {i : ℕ} {t : Task}

theorem alive_eq_true {t : Task} : t.alive = true ↔ t.state ≠ .unused ∧ t.state ≠ .zombie := by
  simp [Task.alive]

/-- What the operations other than `fork` and the clock do to the times of a slot. -/
structure KeepsTimes (s : Sys) (t t' : Task) : Prop where
  rtime : t'.rtime = t.rtime
  ctime : t'.ctime = t.ctime
  used : t'.state ≠ .unused → t.state ≠ .unused
  alive : t'.alive = true → t.alive = true
  dead : t'.state = .zombie → t.state = .zombie ∧ t'.etime = t.etime ∨
    t.alive = true ∧ t'.etime = s.ticks

theorem KeepsTimes.of_alive {t t' : Task} (halive : t.alive = true) (hr : t'.rtime = t.rtime)
    (hc : t'.ctime = t.ctime) (hstate : t'.state ≠ .zombie) : KeepsTimes s t t' :=
  ⟨hr, hc, fun _ => (alive_eq_true.mp halive).1, fun _ => halive, fun h => absurd h hstate⟩

theorem KeepsTimes.of_state {t t' : Task} (hr : t'.rtime = t.rtime) (hc : t'.ctime = t.ctime)
    (he : t'.etime = t.etime) (hstate : t'.state = t.state) : KeepsTimes s t t' := by
  refine ⟨hr, hc, fun h => hstate ▸ h, fun h => ?_, fun h => .inl ⟨hstate ▸ h, he⟩⟩
  rw [alive_eq_true] at h ⊢
  rwa [hstate] at h

theorem alive_of_state {state : ProcState} (h : t.state = state) (hu : state ≠ .unused)
    (hz : state ≠ .zombie) : t.alive = true := by
  rw [alive_eq_true, h]
  exact ⟨hu, hz⟩

theorem KeepsTimes.wakeup (t : Task) (chan : ℕ) : KeepsTimes s t (wakeupTask t chan) := by
  unfold wakeupTask
  split_ifs with h
  · exact .of_alive (alive_of_state h.1 (by decide) (by decide)) rfl rfl (by simp)
  · exact .of_state rfl rfl rfl rfl

theorem KeepsTimes.kill (t : Task) : KeepsTimes s t (killTask t) := by
  unfold killTask
  by_cases h : t.state = .sleeping
  · exact .of_alive (alive_of_state h (by decide) (by decide)) rfl rfl (by simp [h])
  · exact .of_state rfl rfl rfl (if_neg h)

theorem Touched.keepsTimes (h : Touched s i op t) (htick : op ≠ .tick)
    (hfork : ∀ me outcome, op ≠ .fork me outcome) : KeepsTimes s (s.table i) t := by
  have hrunning : (s.table i).state = .running → (s.table i).alive = true :=
    fun hrun => alive_of_state hrun (by decide) (by decide)
  have hrunnable : s.table.Runnable i → (s.table i).alive = true :=
    fun hrun => alive_of_state hrun.2 (by decide) (by decide)
  cases h with
  | same => exact .of_state rfl rfl rfl rfl
  | forked me outcome hfree => exact absurd rfl (hfork me outcome)
  | prioritised me a0 a1 hfind => exact .of_state rfl rfl rfl rfl
  | prioritisedSelf a0 a1 hfind hrun =>
    exact .of_alive (hrunning hrun) rfl rfl (by simp [yieldTask])
  | rescheduled a0 a1 hrun => exact .of_alive (hrunning hrun) rfl rfl (by simp [yieldTask])
  | ticked _ => exact absurd rfl htick
  | evaluated hrun => exact .of_state rfl rfl rfl rfl
  | dispatched hrun =>
    exact .of_alive (hrunnable hrun) rfl rfl (by simp [tidyTask, dispatch])
  | switched hrun => exact .of_alive (hrunnable hrun) rfl rfl (by simp [tidyTask])
  | yielded hrun => exact .of_alive (hrunning hrun) rfl rfl (by simp [yieldTask])
  | slept chan hrun => exact .of_alive (hrunning hrun) rfl rfl (by simp [sleepTask])
  | woken chan => exact .wakeup _ chan
  | killed a0 hfind => exact .kill _
  | orphaned p status => exact .of_state rfl rfl rfl rfl
  | exited status hrun =>
    exact ⟨rfl, rfl, fun _ => (alive_eq_true.mp (hrunning hrun)).1, fun _ => hrunning hrun,
      fun _ => .inr ⟨hrunning hrun, rfl⟩⟩
  | reaped me hzombie =>
    refine ⟨rfl, rfl, fun h => absurd rfl h, fun h => ?_, fun h => ?_⟩
    · exact absurd rfl (alive_eq_true.mp h).1
    · simp [freeTask] at h
  | opened fd file hrun => exact .of_state rfl rfl rfl rfl

/-! ## The steps -/

theorem Accounts.keep (h : Accounts s l i) (hkeep : KeepsTimes s (s.table i) (s'.table i))
    (hticks : s'.ticks = s.ticks) : Accounts s' l i := by
  refine ⟨fun hused => ?_, fun halive => ?_, fun hdead => ?_⟩
  · rw [hkeep.rtime]
    exact h.ran (hkeep.used hused)
  · rw [hkeep.ctime, hticks]
    exact h.alive (hkeep.alive halive)
  · rw [hkeep.ctime]
    rcases hkeep.dead hdead with ⟨hz, he⟩ | ⟨halive, he⟩
    · rw [he]
      exact h.dead hz
    · rw [he]
      exact h.alive halive

theorem step_ticks (hstep : s.step op = some s') (htick : op ≠ .tick) : s'.ticks = s.ticks := by
  have hmap : ∀ {x : Option Table}, (x.map fun T => { s with table := T }) = some s' →
      s'.ticks = s.ticks := by
    intro x hx
    obtain ⟨T, -, rfl⟩ := Option.map_eq_some_iff.mp hx
    rfl
  cases op with
  | tick => exact absurd rfl htick
  | fork me outcome =>
    simp only [Sys.step] at hstep
    split_ifs at hstep
    split at hstep <;> obtain rfl := Option.some.inj hstep <;> rfl
  | setPriority me a0 a1 =>
    simp only [Sys.step] at hstep
    split_ifs at hstep
    obtain rfl := Option.some.inj hstep
    rfl
  | pass =>
    simp only [Sys.step] at hstep
    split at hstep <;> obtain rfl := Option.some.inj hstep <;> rfl
  | roundRobin p =>
    simp only [Sys.step] at hstep
    split_ifs at hstep
    obtain rfl := Option.some.inj hstep
    rfl
  | yield p => exact hmap hstep
  | sleep p chan => exact hmap hstep
  | wakeup chan =>
    obtain rfl := Option.some.inj hstep
    rfl
  | kill a0 =>
    obtain rfl := Option.some.inj hstep
    rfl
  | exit p status =>
    simp only [Sys.step] at hstep
    split_ifs at hstep
    exact hmap hstep
  | reap me child =>
    simp only [Sys.step] at hstep
    split_ifs at hstep
    obtain rfl := Option.some.inj hstep
    rfl
  | setOfile me fd file => exact hmap hstep

theorem updateTimeTask_times (t : Task) : (updateTimeTask t).state = t.state ∧
    (updateTimeTask t).ctime = t.ctime ∧ (updateTimeTask t).etime = t.etime ∧
    (updateTimeTask t).parent = t.parent ∧
    (updateTimeTask t).rtime = if t.state = .running then incUint t.rtime else t.rtime := by
  unfold updateTimeTask
  split <;> simp_all

/-- A tick adds one to the time of the process and to the ledger. -/
theorem Accounts.tick (h : Accounts s l i) (hi : i < nproc) (hstep : s.step .tick = some s') :
    Accounts s' (l.step s .tick) i := by
  obtain rfl := Option.some.inj hstep
  have hslot : s.table.mapSlots updateTimeTask i = updateTimeTask (s.table i) := if_pos hi
  obtain ⟨hstate, hc, he, -, hr⟩ := updateTimeTask_times (s.table i)
  have hran : (l.step s .tick).ran i =
      if (s.table i).state = .running then l.ran i + 1 else l.ran i := rfl
  have hidle : (l.step s .tick).idle i =
      if (s.table i).alive ∧ (s.table i).state ≠ .running then l.idle i + 1 else l.idle i := rfl
  refine ⟨fun hused => ?_, fun halive => ?_, fun hdead => ?_⟩
  · dsimp only at hused ⊢
    rw [hslot] at hused ⊢
    rw [hstate] at hused
    rw [hr, hran, h.ran hused, incUint]
    split_ifs <;> omega
  · dsimp only at halive ⊢
    rw [hslot] at halive ⊢
    have halive' : (s.table i).alive = true := by
      rw [alive_eq_true] at halive ⊢
      rwa [hstate] at halive
    have hold := h.alive halive'
    rw [hc, hran, hidle, incUint]
    by_cases hrun : (s.table i).state = .running
    · rw [if_pos hrun, if_neg fun hand => hand.2 hrun]
      omega
    · rw [if_neg hrun, if_pos ⟨halive', hrun⟩]
      omega
  · dsimp only at hdead ⊢
    rw [hslot] at hdead ⊢
    rw [hstate] at hdead
    have hnot : (s.table i).state ≠ .running := by
      rw [hdead]
      decide
    rw [hc, he, hran, hidle, if_neg hnot, if_neg fun hand => (alive_eq_true.mp hand.1).2 hdead]
    exact h.dead hdead

/-- The kernel's clock is an `uint`. -/
theorem Accounts.fork {me : ℕ} {outcome : ForkOutcome} (h : Accounts s l i)
    (hticks : s.ticks < 4294967296) (hstep : s.step (.fork me outcome) = some s') :
    Accounts s' (l.step s (.fork me outcome)) i := by
  simp only [Sys.step] at hstep
  split_ifs at hstep
  cases hfree : s.freeSlot with
  | none =>
    rw [hfree] at hstep
    obtain rfl := Option.some.inj hstep
    simp only [Ledger.step, hfree]
    exact h
  | some j =>
    rw [hfree] at hstep
    obtain rfl := Option.some.inj hstep
    simp only [Ledger.step, hfree]
    rcases eq_or_ne i j with rfl | hi
    · cases outcome with
      | noMemory =>
        constructor <;> intro hstate <;>
          simp [forkTable, freeTask, Task.alive] at hstate
      | copyFails =>
        constructor <;> intro hstate <;>
          simp [forkTable, freeTask, Task.alive] at hstate
      | done =>
        refine ⟨fun _ => ?_, fun _ => ?_, fun hdead => ?_⟩
        · simp [forkTable, childTask, allocTask]
        · simp only [forkTable, childTask, allocTask, Table.set_self, Function.update_self]
          omega
        · simp [forkTable, childTask] at hdead
    · have hsame : forkTable s.table me s.nextpid s.ticks j outcome i = s.table i := by
        cases outcome <;> exact Table.set_of_ne _ _ hi
      refine ⟨fun hused => ?_, fun halive => ?_, fun hdead => ?_⟩
      · dsimp only at hused ⊢
        rw [hsame] at hused ⊢
        rw [Function.update_of_ne hi]
        exact h.ran hused
      · dsimp only at halive ⊢
        rw [hsame] at halive ⊢
        rw [Function.update_of_ne hi, Function.update_of_ne hi]
        exact h.alive halive
      · dsimp only at hdead ⊢
        rw [hsame] at hdead ⊢
        rw [Function.update_of_ne hi, Function.update_of_ne hi]
        exact h.dead hdead

/-- The clock is below `2 ^ 32` and every slot agrees with the ledger. -/
structure Balanced (r : Sys × Ledger) : Prop where
  ticks : r.1.ticks < 4294967296
  accounts : ∀ i < nproc, Accounts r.1 r.2 i

theorem Balanced.step {r r' : Sys × Ledger} (h : Balanced r) (hstep : tracedStep r op = some r') :
    Balanced r' := by
  obtain ⟨hs, hl⟩ := tracedStep_eq_some hstep
  by_cases htick : op = .tick
  · subst htick
    refine ⟨?_, fun i hi => ?_⟩
    · obtain rfl := Option.some.inj hstep
      exact Nat.mod_lt _ (by decide)
    · rw [hl]
      exact (h.accounts i hi).tick hi hs
  · have hticks := step_ticks hs htick
    refine ⟨by rw [hticks]; exact h.ticks, fun i hi => ?_⟩
    rw [hl]
    by_cases hfork : ∃ me outcome, op = .fork me outcome
    · obtain ⟨me, outcome, rfl⟩ := hfork
      exact (h.accounts i hi).fork h.ticks hs
    · have hledger : r.2.step r.1 op = r.2 := by
        cases op with
        | tick => exact absurd rfl htick
        | fork me outcome => exact absurd ⟨me, outcome, rfl⟩ hfork
        | _ => rfl
      rw [hledger]
      exact (h.accounts i hi).keep ((step_touched hs i).keepsTimes htick
        fun me outcome heq => hfork ⟨me, outcome, heq⟩) hticks

theorem Balanced.boot : Balanced (Sys.boot, {}) := by
  refine ⟨by decide, fun i _ => ?_⟩
  have htable : ∀ f : Task → ℕ, f (readyTask (allocTask {} 1 0)) = 0 → f {} = 0 →
      f (Sys.boot.table i) = 0 := by
    intro f h1 h2
    unfold Sys.boot
    dsimp only
    rw [Table.set_apply]
    split_ifs
    · exact h1
    · exact h2
  refine ⟨fun _ => ?_, fun _ => ?_, fun _ => ?_⟩
  · exact htable Task.rtime rfl rfl
  · rw [htable Task.ctime rfl rfl]
    rfl
  · rw [htable Task.ctime rfl rfl, htable Task.etime rfl rfl]
    rfl

theorem reach_balanced {r : Sys × Ledger} (h : Reach tracedStep (Sys.boot, {}) r) : Balanced r :=
  ReachOf.invariant Balanced (fun _ _ _ _ hs hstep => hs.step hstep) Balanced.boot h

/-- The times of a child that is about to be reaped. -/
theorem Balanced.reap {r r' : Sys × Ledger} {me child : ℕ} (h : Balanced r)
    (hreap : tracedStep r (.reap me child) = some r') :
    (r.1.table child).rtime = r.2.ran child % 4294967296 ∧
      ((r.1.table child).ctime + r.2.ran child + r.2.idle child) % 4294967296 =
        (r.1.table child).etime := by
  obtain ⟨hs, -⟩ := tracedStep_eq_some hreap
  simp only [Sys.step] at hs
  split_ifs at hs with hok
  obtain ⟨-, hchild, hzombie, -⟩ := hok
  have hacc := h.accounts child hchild
  exact ⟨hacc.ran (by rw [hzombie]; decide), hacc.dead hzombie⟩

/-- When a child is reaped, `rtime` and `wtime` are its running and its other ticks up
to a multiple of `2 ^ 32`. For a child that lived fewer than `2 ^ 32` ticks they are
exact, and the subtraction in `wtime` does not go below zero. -/
theorem waitx_times_conserved (r r' : Sys × Ledger) (me child : ℕ)
    (h : Reach tracedStep (Sys.boot, {}) r) (hreap : tracedStep r (.reap me child) = some r') :
    (waitxTimes (r.1.table child)).1 = r.2.ran child % 4294967296 ∧
      (waitxTimes (r.1.table child)).2 = r.2.idle child % 4294967296 ∧
      (r.2.ran child + r.2.idle child < 4294967296 →
        (waitxTimes (r.1.table child)).1 = r.2.ran child ∧
        ((r.1.table child).rtime : ℤ) ≤
          toUint ((r.1.table child).etime - (r.1.table child).ctime) ∧
        (waitxTimes (r.1.table child)).2 = r.2.idle child) := by
  obtain ⟨hran, hdead⟩ := (reach_balanced h).reap hreap
  unfold waitxTimes toUint
  dsimp only
  omega

/-! ## A child that runs for `n` ticks -/

/-- The first process waits for its child, which has run for `n` ticks. -/
structure ChildRan (r : Sys × Ledger) (n : ℕ) : Prop where
  parent : (r.1.table 0).state = .running
  child : (r.1.table 1).state = .running
  family : (r.1.table 1).parent = some 0
  ran : r.2.ran 1 = n
  idle : r.2.idle 1 = 0

theorem childRan_zero : ∃ r, Reach tracedStep (Sys.boot, {}) r ∧ ChildRan r 0 := by
  have hcheck : (tracedStep (Sys.boot, {}) (.roundRobin 0)).any (fun r₁ =>
      (tracedStep r₁ (.fork 0 .done)).any (fun r₂ =>
        (tracedStep r₂ (.roundRobin 1)).any (fun r₃ =>
          (r₃.1.table 0).state = .running ∧ (r₃.1.table 1).state = .running ∧
            (r₃.1.table 1).parent = some 0 ∧ r₃.2.ran 1 = 0 ∧ r₃.2.idle 1 = 0))) = true := by
    decide +kernel
  obtain ⟨r₁, h₁, hcheck⟩ := (Option.any_eq_true _ _).mp hcheck
  obtain ⟨r₂, h₂, hcheck⟩ := (Option.any_eq_true _ _).mp hcheck
  obtain ⟨r₃, h₃, hcheck⟩ := (Option.any_eq_true _ _).mp hcheck
  obtain ⟨hp, hc, hf, hran, hidle⟩ := of_decide_eq_true hcheck
  exact ⟨r₃, ((ReachOf.single trivial h₁).trans (ReachOf.single trivial h₂)).trans
    (ReachOf.single trivial h₃), hp, hc, hf, hran, hidle⟩

theorem childRan (n : ℕ) : ∃ r, Reach tracedStep (Sys.boot, {}) r ∧ ChildRan r n := by
  induction n with
  | zero => exact childRan_zero
  | succ n ih =>
    obtain ⟨r, hreach, h⟩ := ih
    obtain ⟨r', hr'⟩ : ∃ r', tracedStep r .tick = some r' := ⟨_, rfl⟩
    obtain ⟨hs, hl⟩ := tracedStep_eq_some hr'
    have hslot : ∀ i < nproc, r'.1.table i = updateTimeTask (r.1.table i) := by
      intro i hi
      obtain rfl := Option.some.inj hr'
      exact if_pos hi
    refine ⟨r', ReachOf.trans hreach (ReachOf.single trivial hr'), ?_, ?_, ?_, ?_, ?_⟩
    · rw [hslot 0 (by decide), (updateTimeTask_times _).1, h.parent]
    · rw [hslot 1 (by decide), (updateTimeTask_times _).1, h.child]
    · rw [hslot 1 (by decide), (updateTimeTask_times _).2.2.2.1, h.family]
    · rw [hl]
      change (if (r.1.table 1).state = .running then r.2.ran 1 + 1 else r.2.ran 1) = n + 1
      rw [if_pos h.child, h.ran]
    · rw [hl]
      change (if (r.1.table 1).alive ∧ (r.1.table 1).state ≠ .running then _ else _) = 0
      rw [if_neg fun hand => hand.2 h.child, h.idle]

theorem reparent_apply (T : Table) (p : ℕ) (hi : i < nproc) :
    reparent T p i = orphanTask (T i) p := by
  unfold reparent Table.mapSlots
  exact if_pos hi

/-- The table after `exit`. -/
theorem step_exit {p : ℕ} (status : ℤ) (hinit : p ≠ initproc) (hp : p < nproc)
    (hrun : (s.table p).state = .running) :
    ∃ s', s.step (.exit p status) = some s' ∧ (s'.table p).state = .zombie ∧
      (s'.table p).parent = (orphanTask (s.table p) p).parent ∧
      ∀ i < nproc, i ≠ p → (s'.table i).state = (s.table i).state := by
  have hself := reparent_apply s.table p hp
  have hrun' : (reparent s.table p p).state = .running := by
    rw [hself]
    exact hrun
  have hon : (reparent s.table p).onRunning p (fun t => exitTask (closeFiles t) status s.ticks) =
      some ((reparent s.table p).set p
        (exitTask (closeFiles (reparent s.table p p)) status s.ticks)) :=
    if_pos ⟨hp, hrun'⟩
  have hstep : s.step (.exit p status) = some ⟨(reparent s.table p).set p
      (exitTask (closeFiles (reparent s.table p p)) status s.ticks), s.ticks, s.nextpid⟩ := by
    simp only [Sys.step, if_neg hinit, hon, Option.map_some]
  refine ⟨_, hstep, ?_, ?_, ?_⟩
  · simp [exitTask]
  · dsimp only
    rw [Table.set_self, hself]
    rfl
  · intro i hi hne
    dsimp only
    rw [Table.set_of_ne _ _ hne, reparent_apply s.table p hi]
    rfl

/-- The child exits and is reaped. -/
theorem ChildRan.reaped {r : Sys × Ledger} {n : ℕ} (h : ChildRan r n) :
    ∃ r₁ r₂, tracedStep r (.exit 1 0) = some r₁ ∧ tracedStep r₁ (.reap 0 1) = some r₂ ∧
      r₁.2.ran 1 = n ∧ r₁.2.idle 1 = 0 := by
  obtain ⟨s', hs', hzombie, hparent, hothers⟩ :=
    step_exit (s := r.1) (p := 1) 0 (by decide) (by decide) h.child
  have hfamily : (s'.table 1).parent = some 0 := by
    rw [hparent]
    simp [orphanTask, h.family]
  have hzero : (s'.table 0).state = .running := by
    rw [hothers 0 (by decide) (by decide), h.parent]
  have hreap : s'.step (.reap 0 1) =
      some ⟨s'.table.set 1 (freeTask (s'.table 1)), s'.ticks, s'.nextpid⟩ :=
    if_pos ⟨hzero, by decide, hzombie, hfamily⟩
  exact ⟨(s', r.2), _, tracedStep_of_step hs', tracedStep_of_step hreap, h.ran, h.idle⟩

/-- A child that ran for five ticks. -/
theorem waitx_times_of_five : ∃ r r', Reach tracedStep (Sys.boot, {}) r ∧
    tracedStep r (.reap 0 1) = some r' ∧ waitxTimes (r.1.table 1) = (5, 0) := by
  obtain ⟨r, hreach, hran⟩ := childRan 5
  obtain ⟨r₁, r₂, h₁, h₂, hn, hidle⟩ := hran.reaped
  have hreach₁ : Reach tracedStep (Sys.boot, {}) r₁ :=
    ReachOf.trans hreach (ReachOf.single trivial h₁)
  obtain ⟨hr, hw, -⟩ := waitx_times_conserved r₁ r₂ 0 1 hreach₁ h₂
  refine ⟨r₁, r₂, hreach₁, h₂, Prod.ext ?_ ?_⟩
  · rw [hr, hn]
  · rw [hw, hidle]

/-- The `uint` that counts the running ticks starts over after `2 ^ 32` of them. -/
theorem waitx_times_wrap :
    ¬ ∀ (r r' : Sys × Ledger) (me child : ℕ), Reach tracedStep (Sys.boot, {}) r →
      tracedStep r (.reap me child) = some r' →
      (waitxTimes (r.1.table child)).1 = r.2.ran child ∧
        ((r.1.table child).rtime : ℤ) ≤
          toUint ((r.1.table child).etime - (r.1.table child).ctime) ∧
        (waitxTimes (r.1.table child)).2 = r.2.idle child := by
  intro hclaim
  obtain ⟨r, hreach, hran⟩ := childRan 4294967296
  obtain ⟨r₁, r₂, h₁, h₂, hn, -⟩ := hran.reaped
  have hreach₁ : Reach tracedStep (Sys.boot, {}) r₁ :=
    ReachOf.trans hreach (ReachOf.single trivial h₁)
  have hrtime := (hclaim r₁ r₂ 0 1 hreach₁ h₂).1
  obtain ⟨hmod, -⟩ := (reach_balanced hreach₁).reap h₂
  have hwrap : (r₁.1.table 1).rtime = 4294967296 := hrtime.trans hn
  rw [hmod, hn] at hwrap
  exact absurd hwrap (by decide)

end XV6AndConcurrency.Scheduling
