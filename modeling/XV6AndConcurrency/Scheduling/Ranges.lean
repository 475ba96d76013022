import XV6AndConcurrency.Scheduling.Calls

/-!
# The range of the priorities

The static priority is in 0..100 and the dynamic one is a minimum with 100. The first
is written from an unchecked argument and the second is a sum that may leave the range
of an `int`; these are the two ways out of the range.
-/

namespace XV6AndConcurrency.Scheduling

open Foundations

/-- The priorities of a live process are in the documented ranges. -/
def InRange (t : Task) : Prop :=
  t.state ≠ .unused → (0 ≤ t.sp ∧ t.sp ≤ 100) ∧ 0 ≤ t.rbi ∧ 0 ≤ t.dp ∧ t.dp ≤ 100

def Sys.InRange (s : Sys) : Prop := ∀ i < nproc, Scheduling.InRange (s.table i)

/-- The new priority of a live process is, as an `int`, a static priority. -/
def PriorityOk (s : Sys) : Op → Prop
  | .setPriority _ a0 a1 => ∀ i, (s.table.findSlot fun t => t.pid = wrap32 a0) = some i →
      (s.table i).state ≠ .unused → 0 ≤ wrap32 a1 ∧ wrap32 a1 ≤ 100
  | _ => True

/-- The sums that a pass computes are `int`s. -/
def SumsOk (s : Sys) : Op → Prop
  | .pass => ∀ i, s.table.Runnable i → SumFits (s.table i)
  | _ => True

variable {s s' : Sys} {op : Op} {i : ℕ} {t t' : Task}

/-! ## One step -/

theorem InRange.of_fields (h : InRange t) (hstate : t'.state ≠ .unused → t.state ≠ .unused)
    (hsp : t'.sp = t.sp) (hrbi : t'.rbi = t.rbi) (hdp : t'.dp = t.dp) : InRange t' := by
  intro hlive
  rw [hsp, hrbi, hdp]
  exact h (hstate hlive)

theorem InRange.evaluate (h : InRange t) (hlive : t.state ≠ .unused) (hfits : SumFits t) :
    InRange (evaluate t) := by
  intro _
  obtain ⟨hsp, -⟩ := h hlive
  refine ⟨hsp, rbiOf_nonneg t, ?_, evaluate_dp_le t⟩
  rw [evaluate_dp_of_fits hsp.1 hfits]
  exact dynamicPriority_nonneg hsp.1

theorem InRange.setPriority {a1 : ℕ} (h : InRange t)
    (ha1 : t.state ≠ .unused → 0 ≤ wrap32 a1 ∧ wrap32 a1 ≤ 100) :
    InRange (setPriorityTask t a1) := by
  intro hlive
  obtain ⟨-, -, hdp⟩ := h hlive
  exact ⟨ha1 hlive, by simp [setPriorityTask], hdp⟩

theorem wakeupTask_fields (t : Task) (chan : ℕ) : (wakeupTask t chan).sp = t.sp ∧
    (wakeupTask t chan).rbi = t.rbi ∧ (wakeupTask t chan).dp = t.dp ∧
    ((wakeupTask t chan).state ≠ .unused → t.state ≠ .unused) := by
  unfold wakeupTask
  split_ifs with h
  · exact ⟨rfl, rfl, rfl, fun _ => by simp [h.1]⟩
  · exact ⟨rfl, rfl, rfl, id⟩

theorem killTask_live (t : Task) : (killTask t).state ≠ .unused → t.state ≠ .unused := by
  unfold killTask
  intro h hunused
  simp [hunused] at h

theorem updateTimeTask_fields (t : Task) : (updateTimeTask t).sp = t.sp ∧
    (updateTimeTask t).rbi = t.rbi ∧ (updateTimeTask t).dp = t.dp ∧
    (updateTimeTask t).state = t.state := by
  unfold updateTimeTask
  split <;> simp_all

theorem Touched.inRange (h : Touched s i op t) (hi : InRange (s.table i))
    (hprio : PriorityOk s op) (hsums : SumsOk s op) : InRange t := by
  have hlive : ∀ {state : ProcState}, state ≠ .unused → (s.table i).state = state →
      (s.table i).state ≠ .unused := fun hne heq => heq ▸ hne
  cases h with
  | same => exact hi
  | forked me outcome hfree =>
    cases outcome with
    | noMemory => exact fun h => absurd (by simp [forkTable, freeTask]) h
    | copyFails => exact fun h => absurd (by simp [forkTable, freeTask]) h
    | done =>
      intro _
      simp [forkTable, childTask, allocTask, foundTask]
  | prioritised me a0 a1 hfind => exact hi.setPriority (hprio i hfind)
  | prioritisedSelf a0 a1 hfind hrun =>
    exact (hi.setPriority (hprio i hfind)).of_fields (fun _ => hlive (by decide) hrun) rfl rfl rfl
  | rescheduled a0 a1 hrun =>
    exact hi.of_fields (fun _ => hlive (by decide) hrun) rfl rfl rfl
  | ticked _ =>
    obtain ⟨hsp, hrbi, hdp, hstate⟩ := updateTimeTask_fields (s.table i)
    exact hi.of_fields (by rw [hstate]; exact id) hsp hrbi hdp
  | evaluated hrun => exact hi.evaluate (hlive (by decide) hrun.2) (hsums i hrun)
  | dispatched hrun =>
    exact (hi.evaluate (hlive (by decide) hrun.2) (hsums i hrun)).of_fields
      (fun _ => hlive (by decide) hrun.2) rfl rfl rfl
  | switched hrun => exact hi.of_fields (fun _ => hlive (by decide) hrun.2) rfl rfl rfl
  | yielded hrun => exact hi.of_fields (fun _ => hlive (by decide) hrun) rfl rfl rfl
  | slept chan hrun => exact hi.of_fields (fun _ => hlive (by decide) hrun) rfl rfl rfl
  | woken chan =>
    obtain ⟨hsp, hrbi, hdp, hstate⟩ := wakeupTask_fields (s.table i) chan
    exact hi.of_fields hstate hsp hrbi hdp
  | killed a0 hfind => exact hi.of_fields (killTask_live _) rfl rfl rfl
  | orphaned p status => exact hi.of_fields id rfl rfl rfl
  | exited status hrun => exact hi.of_fields (fun _ => hlive (by decide) hrun) rfl rfl rfl
  | reaped me hzombie => exact fun h => absurd rfl h
  | opened fd file hrun => exact hi.of_fields id rfl rfl rfl

theorem Sys.InRange.step (h : s.InRange) (hprio : PriorityOk s op) (hsums : SumsOk s op)
    (hstep : s.step op = some s') : s'.InRange :=
  fun i hi => (step_touched hstep i).inRange (h i hi) hprio hsums

theorem Sys.boot_inRange : Sys.boot.InRange := by
  intro i _
  unfold Sys.boot
  dsimp only
  rw [Table.set_apply]
  split_ifs
  · intro _
    simp [readyTask, allocTask, foundTask]
  · exact fun h => absurd rfl h

/-! ## The two ways out -/

theorem sysSetPriority_found {T : Table} {a0 : ℕ} (me a1 : ℕ)
    (hfind : (T.findSlot fun t => t.pid = wrap32 a0) = some i) :
    ((sysSetPriority T me a0 a1).1 i).sp = wrap32 a1 ∧
      ((T i).state ≠ .unused → ((sysSetPriority T me a0 a1).1 i).state ≠ .unused) := by
  unfold sysSetPriority
  rw [hfind]
  dsimp only
  split_ifs
  · rcases eq_or_ne i me with rfl | hme
    · simp [yieldTask, setPriorityTask]
    · dsimp only
      rw [Table.set_of_ne _ _ hme]
      simp [setPriorityTask]
  · simp [setPriorityTask]

theorem pass_slot_dp (T : Table) (hi : T.Runnable i) :
    ((Scheduling.pass T).1 i).dp = (Scheduling.evaluate (T i)).dp ∧
      ((Scheduling.pass T).1 i).state ≠ .unused := by
  rcases pass_slot T i with ⟨hsame, -⟩ | ⟨-, hpass⟩
  · rw [hsame, evaluated_of_runnable hi, evaluate_state, hi.2]
    exact ⟨rfl, by decide⟩
  · rw [hpass]
    simp [dispatch]

/-- A step that breaks either condition leads out of the ranges at once. -/
theorem Sys.InRange.leaves (h : s.InRange) (hstep : s.step op = some s')
    (hbad : ¬ (PriorityOk s op ∧ SumsOk s op)) : ¬ s'.InRange := by
  intro h'
  cases op with
  | setPriority me a0 a1 =>
    have hprio : ¬ PriorityOk s (.setPriority me a0 a1) := fun hp => hbad ⟨hp, trivial⟩
    obtain ⟨i, hi⟩ := not_forall.mp hprio
    obtain ⟨hfind, hi⟩ := Classical.not_imp.mp hi
    obtain ⟨hlive, hout⟩ := Classical.not_imp.mp hi
    simp only [Sys.step] at hstep
    split_ifs at hstep
    obtain rfl := Option.some.inj hstep
    obtain ⟨hsp, hstate⟩ := sysSetPriority_found me a1 hfind
    obtain ⟨hrange, -⟩ := h' i (Table.findSlot_eq_some hfind).1 (hstate hlive)
    dsimp only at hrange
    rw [hsp] at hrange
    exact hout hrange
  | pass =>
    have hsums : ¬ SumsOk s .pass := fun hs => hbad ⟨trivial, hs⟩
    obtain ⟨i, hi⟩ := not_forall.mp hsums
    obtain ⟨hrun, hover⟩ := Classical.not_imp.mp hi
    have hlive : (s.table i).state ≠ .unused := by
      rw [hrun.2]
      decide
    have hneg := evaluate_dp_of_overflow (h i hrun.1 hlive).1.2 hover
    obtain ⟨hdp, hstate⟩ := pass_slot_dp s.table hrun
    have hout : ∀ T : Table, (T i).dp = ((Scheduling.pass s.table).1 i).dp →
        (T i).state = ((Scheduling.pass s.table).1 i).state → ¬ Scheduling.InRange (T i) := by
      intro T hTdp hTstate hrange
      have hnonneg := (hrange (hTstate ▸ hstate)).2.2.1
      omega
    refine hout s'.table ?_ ?_ (h' i hrun.1) <;>
    · simp only [Sys.step] at hstep
      split at hstep <;> obtain rfl := Option.some.inj hstep
      · rename_i heq
        rw [heq]
      · rename_i heq
        rw [heq]
        dsimp only
        rw [Table.set_apply]
        split_ifs with hp
        · subst hp
          rfl
        · rfl
  | _ => exact hbad ⟨trivial, trivial⟩

/-! ## The first `2 ^ 32 - 3` ticks -/

/-- The counters are those of a process that has seen at most `n` ticks since it was
created. -/
def Counted (n : ℕ) (t : Task) : Prop :=
  ∃ r z w : ℕ, t.runtime = wrap32 r ∧ t.stime = wrap32 z ∧ t.wtime = wrap32 w ∧ r + z + w ≤ n

theorem wrap32_zero : wrap32 0 = 0 := wrap32_of_range (by decide) (by decide)

theorem wrap32_add_one (n : ℕ) : wrap32 (wrap32 n + 1) = wrap32 (n + 1 : ℕ) := by
  apply wrap32_congr
  have h := wrap32_emod n
  push_cast
  omega

theorem Counted.of_fields {n : ℕ} (h : Counted n t) (hr : t'.runtime = t.runtime)
    (hz : t'.stime = t.stime) (hw : t'.wtime = t.wtime) : Counted n t' := by
  unfold Counted
  rw [hr, hz, hw]
  exact h

theorem Counted.fresh {n : ℕ} (hr : t.runtime = 0) (hz : t.stime = 0) (hw : t.wtime = 0) :
    Counted n t := by
  refine ⟨0, 0, 0, ?_, ?_, ?_, by omega⟩
  · rw [hr, Nat.cast_zero, wrap32_zero]
  · rw [hz, Nat.cast_zero, wrap32_zero]
  · rw [hw, Nat.cast_zero, wrap32_zero]

theorem Counted.dispatch {n : ℕ} (h : Counted n t) : Counted n (dispatch t) := by
  obtain ⟨r, z, w, -, -, hw, hle⟩ := h
  refine ⟨0, 0, w, ?_, ?_, hw, by omega⟩
  · rw [Nat.cast_zero, wrap32_zero]
    rfl
  · rw [Nat.cast_zero, wrap32_zero]
    rfl

theorem Counted.tick {n : ℕ} (h : Counted n t) : Counted (n + 1) (updateTimeTask t) := by
  obtain ⟨r, z, w, hr, hz, hw, hle⟩ := h
  unfold updateTimeTask
  split
  · exact ⟨r + 1, z, w, by rw [← wrap32_add_one, hr], hz, hw, by omega⟩
  · exact ⟨r, z + 1, w, hr, by rw [← wrap32_add_one, hz], hw, by omega⟩
  · exact ⟨r, z, w + 1, hr, hz, by rw [← wrap32_add_one, hw], by omega⟩
  · exact ⟨r, z, w, hr, hz, hw, by omega⟩

theorem Touched.counted {n : ℕ} (h : Touched s i op t) (hi : Counted n (s.table i))
    (hop : op ≠ .tick) : Counted n t := by
  cases h with
  | same => exact hi
  | forked me outcome hfree =>
    cases outcome <;> apply Counted.fresh <;>
      simp [forkTable, freeTask, childTask, allocTask, foundTask]
  | dispatched hrun =>
    have heval : Counted n (evaluate (s.table i)) := hi.of_fields rfl rfl rfl
    exact heval.dispatch
  | ticked _ => exact absurd rfl hop
  | woken chan =>
    unfold wakeupTask
    split_ifs
    · exact hi
    · exact hi
  | _ => exact hi

theorem rbiOf_le {b : ℤ} (hb : 0 ≤ b) (hb' : b < 2147483648)
    (h : (rbiNumerator t).tdiv (rbiDenominator t) ≤ b)
    (h' : -b ≤ (rbiNumerator t).tdiv (rbiDenominator t)) : rbiOf t ≤ b := by
  have hwrap : wrap32 ((rbiNumerator t).tdiv (rbiDenominator t)) =
      (rbiNumerator t).tdiv (rbiDenominator t) := wrap32_of_range (by omega) (by omega)
  dsimp only [rbiOf]
  rw [hwrap]
  split_ifs
  · exact h
  · exact hb

/-- A denominator that is neither 1 nor -1 halves the numerator at least. -/
theorem rbiOf_le_of_denominator (h : 2 ≤ (rbiDenominator t).natAbs) : rbiOf t ≤ 1073741824 := by
  have hlt : rbiNumerator t < 2147483648 := wrap32_lt _
  have hge : -2147483648 ≤ rbiNumerator t := le_wrap32 _
  have hhalf := natAbs_tdiv_le (a := rbiNumerator t) h
  refine rbiOf_le (by decide) (by decide) ?_ ?_
  · omega
  · omega

theorem rbiOf_of_fresh (hr : t.runtime = 0) (hz : t.stime = 0) (hw : t.wtime = 0) :
    rbiOf t = 0 := by
  have hnum : rbiNumerator t = 0 := by
    unfold rbiNumerator
    rw [hr, hz, hw]
    exact wrap32_zero
  dsimp only [rbiOf]
  rw [hnum, Int.zero_tdiv, wrap32_zero]
  rfl

theorem rbiDenominator_counted {r z w : ℕ} (hr : t.runtime = wrap32 r) (hz : t.stime = wrap32 z)
    (hw : t.wtime = wrap32 w) : rbiDenominator t = wrap32 ((r + z + w : ℕ) + 1) := by
  unfold rbiDenominator
  rw [hr, hz, hw]
  apply wrap32_congr
  have h1 := wrap32_emod r
  have h2 := wrap32_emod z
  have h3 := wrap32_emod w
  push_cast
  omega

/-- As long as the counters stay below `2 ^ 32 - 2` ticks, the index is at most `2 ^ 30`. -/
theorem Counted.rbiOf_le {n : ℕ} (h : Counted n t) (hn : n < 4294967294) :
    rbiOf t ≤ 1073741824 := by
  obtain ⟨r, z, w, hr, hz, hw, hle⟩ := h
  by_cases hzero : r + z + w = 0
  · obtain ⟨rfl, rfl, rfl⟩ : r = 0 ∧ z = 0 ∧ w = 0 := by omega
    rw [Nat.cast_zero, wrap32_zero] at hr hz hw
    rw [rbiOf_of_fresh hr hz hw]
    decide
  · apply rbiOf_le_of_denominator
    rw [rbiDenominator_counted hr hz hw]
    exact natAbs_wrap32_succ hzero (hle.trans_lt hn)

/-- What holds of every slot along a run in which new priorities are in range. -/
structure Tame (r : Sys × Ledger) : Prop where
  counted : ∀ i < nproc, Counted r.2.elapsed (r.1.table i)
  static : ∀ i < nproc, (r.1.table i).state ≠ .unused →
    0 ≤ (r.1.table i).sp ∧ (r.1.table i).sp ≤ 100

theorem Touched.static (h : Touched s i op t) (hprio : PriorityOk s op)
    (hi : (s.table i).state ≠ .unused → 0 ≤ (s.table i).sp ∧ (s.table i).sp ≤ 100) :
    t.state ≠ .unused → 0 ≤ t.sp ∧ t.sp ≤ 100 := by
  have hlive : ∀ {state : ProcState}, state ≠ .unused → (s.table i).state = state →
      (s.table i).state ≠ .unused := fun hne heq => heq ▸ hne
  cases h with
  | same => exact hi
  | forked me outcome hfree =>
    cases outcome with
    | noMemory => exact fun h => absurd (by simp [forkTable, freeTask]) h
    | copyFails => exact fun h => absurd (by simp [forkTable, freeTask]) h
    | done =>
      intro _
      simp [forkTable, childTask, allocTask, foundTask]
  | prioritised me a0 a1 hfind => exact hprio i hfind
  | prioritisedSelf a0 a1 hfind hrun => exact fun _ => hprio i hfind (hlive (by decide) hrun)
  | rescheduled a0 a1 hrun => exact fun _ => hi (hlive (by decide) hrun)
  | ticked _ =>
    obtain ⟨hsp, -, -, hstate⟩ := updateTimeTask_fields (s.table i)
    rw [hsp, hstate]
    exact hi
  | evaluated hrun => exact hi
  | dispatched hrun => exact fun _ => hi (hlive (by decide) hrun.2)
  | switched hrun => exact fun _ => hi (hlive (by decide) hrun.2)
  | yielded hrun => exact fun _ => hi (hlive (by decide) hrun)
  | slept chan hrun => exact fun _ => hi (hlive (by decide) hrun)
  | woken chan =>
    obtain ⟨hsp, -, -, hstate⟩ := wakeupTask_fields (s.table i) chan
    rw [hsp]
    exact fun h => hi (hstate h)
  | killed a0 hfind => exact fun h => hi (killTask_live _ h)
  | orphaned p status => exact hi
  | exited status hrun => exact fun _ => hi (hlive (by decide) hrun)
  | reaped me hzombie => exact fun h => absurd rfl h
  | opened fd file hrun => exact hi

theorem Ledger.step_elapsed (l : Ledger) (s : Sys) (hop : op ≠ .tick) :
    (l.step s op).elapsed = l.elapsed := by
  cases op with
  | tick => exact absurd rfl hop
  | fork me outcome =>
    simp only [Ledger.step]
    split <;> rfl
  | _ => rfl

theorem step_tick_slot (hstep : s.step .tick = some s') (hi : i < nproc) :
    s'.table i = updateTimeTask (s.table i) := by
  obtain rfl := Option.some.inj hstep
  exact if_pos hi

theorem Tame.step {r r' : Sys × Ledger} (h : Tame r) (hprio : PriorityOk r.1 op)
    (hstep : tracedStep r op = some r') : Tame r' := by
  obtain ⟨hs, hl⟩ := tracedStep_eq_some hstep
  refine ⟨fun i hi => ?_, fun i hi => (step_touched hs i).static hprio (h.static i hi)⟩
  rw [hl]
  by_cases hop : op = .tick
  · subst hop
    rw [step_tick_slot hs hi]
    exact (h.counted i hi).tick
  · rw [Ledger.step_elapsed r.2 r.1 hop]
    exact (step_touched hs i).counted (h.counted i hi) hop

theorem Tame.boot : Tame (Sys.boot, {}) := by
  refine ⟨fun i _ => ?_, fun i hi hlive => (Sys.boot_inRange i hi hlive).1⟩
  unfold Sys.boot
  dsimp only
  rw [Table.set_apply]
  split_ifs
  · exact Counted.fresh rfl rfl rfl
  · exact Counted.fresh rfl rfl rfl

/-- During the first `2 ^ 32 - 3` ticks no sum of priorities overflows. -/
theorem Tame.sumsOk {r : Sys × Ledger} (h : Tame r) (hn : r.2.elapsed < 4294967294) :
    SumsOk r.1 .pass := by
  intro i hi
  have hlive : (r.1.table i).state ≠ .unused := by
    rw [hi.2]
    decide
  have hsp := h.static i hi.1 hlive
  have hrbi := (h.counted i hi.1).rbiOf_le hn
  unfold SumFits
  omega

/-! ## Runs -/

/-- With a runnable process and sums that fit, a pass dispatches. -/
theorem Sys.InRange.dispatches (h : s.InRange) (hsums : SumsOk s .pass)
    (hi : s.table.Runnable i) : ∃ p, (Scheduling.pass s.table).2 = some p := by
  have hlive : (s.table i).state ≠ .unused := by
    rw [hi.2]
    decide
  have hdp := ((h i hi.1).evaluate hlive (hsums i hi) hlive).2.2.1
  obtain ⟨p, -, -, -, hpass⟩ := pass_dispatches hi hdp
  exact ⟨p, by rw [hpass]⟩

/-- The priorities stay in range, and a pass that sees a runnable process dispatches
one, along every run in which new priorities are in range and sums of priorities fit
an `int`. A step that breaks the condition leaves the range at once. The sums fit in
every run of fewer than `2 ^ 32 - 2` ticks. -/
theorem priorities_stay_in_range (s : Sys) :
    (ReachOf Sys.step (fun s op => PriorityOk s op ∧ SumsOk s op) Sys.boot s →
      s.InRange ∧ (SumsOk s .pass → (∃ i, s.table.Runnable i) →
        ∃ p, (Scheduling.pass s.table).2 = some p)) ∧
    (∀ op s', s.InRange → s.step op = some s' → ¬ (PriorityOk s op ∧ SumsOk s op) →
      ¬ s'.InRange) ∧
    ∀ l, ReachOf tracedStep (fun r op => PriorityOk r.1 op) (Sys.boot, {}) (s, l) →
      l.elapsed < 4294967294 → SumsOk s .pass := by
  refine ⟨fun h => ?_, fun op s' h hstep => h.leaves hstep, fun l h hn => ?_⟩
  · have hrange : s.InRange := ReachOf.invariant Sys.InRange
      (fun _ _ _ hok hs hstep => hs.step hok.1 hok.2 hstep) Sys.boot_inRange h
    refine ⟨hrange, ?_⟩
    rintro hsums ⟨i, hi⟩
    exact hrange.dispatches hsums hi
  · have htame : Tame (s, l) := ReachOf.invariant Tame
      (fun _ _ _ hok hs hstep => hs.step hok hstep) Tame.boot h
    exact htame.sumsOk hn

/-- The first process runs and sets its own priority to the given value. -/
def afterSetPriority (a1 : ℕ) : Option Sys :=
  (Sys.boot.step (.roundRobin 0)).bind fun s => s.step (.setPriority 0 1 a1)

theorem reach_afterSetPriority {ok : Sys → Op → Prop} {a1 : ℕ} (h : afterSetPriority a1 = some s)
    (hswitch : ok Sys.boot (.roundRobin 0)) (hset : ∀ s, ok s (.setPriority 0 1 a1)) :
    ReachOf Sys.step ok Sys.boot s := by
  obtain ⟨s₁, h₁, h₂⟩ := Option.bind_eq_some_iff.mp h
  exact (ReachOf.single hswitch h₁).trans (ReachOf.single (hset s₁) h₂)

/-- A priority of 10 is in range. -/
theorem priorities_in_range_after_ten : ∃ s, afterSetPriority 10 = some s ∧ s.InRange := by
  have hsome : (afterSetPriority 10).isSome = true := by decide +kernel
  obtain ⟨s, hs⟩ := Option.isSome_iff_exists.mp hsome
  have hreach : ReachOf Sys.step (fun s op => PriorityOk s op ∧ SumsOk s op) Sys.boot s :=
    reach_afterSetPriority hs ⟨trivial, trivial⟩
      fun _ => ⟨fun _ _ _ => by decide +kernel, trivial⟩
  exact ⟨s, hs, ((priorities_stay_in_range s).1 hreach).1⟩

/-- A process may give itself the static priority 1000. -/
theorem priorities_leave_range : ¬ ∀ s, Reach Sys.step Sys.boot s → s.InRange := by
  intro h
  have hout : (afterSetPriority 1000).any
      (fun s => (s.table 0).state ≠ .unused ∧ (s.table 0).sp = 1000) = true := by decide +kernel
  obtain ⟨s, hs, hsp⟩ := (Option.any_eq_true _ _).mp hout
  obtain ⟨hlive, hsp⟩ := of_decide_eq_true hsp
  have hreach : Reach Sys.step Sys.boot s :=
    reach_afterSetPriority hs trivial fun _ => trivial
  have hle := (h s hreach 0 (by decide) hlive).1.2
  rw [hsp] at hle
  exact absurd hle (by decide)

end XV6AndConcurrency.Scheduling
