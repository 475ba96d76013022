import XV6AndConcurrency.Scheduling.Ranges

/-!
# The default index of 25

`allocproc` and `set_priority` write 25 into the recent behaviour index of a process.
The next pass recomputes the index from the counters before it looks at it, so the 25
is only ever seen where the counters happen to give it.
-/

namespace XV6AndConcurrency.Scheduling

open Foundations

/-- The operation writes 25 into the index of the live process in slot `j`. -/
def Resets (s : Sys) (j : ℕ) : Op → Prop
  | .fork _ outcome => outcome = .done ∧ s.freeSlot = some j
  | .setPriority _ a0 _ => (s.table.findSlot fun t => t.pid = wrap32 a0) = some j ∧
      (s.table j).state ≠ .unused
  | _ => False

/-- The process in slot `j` is neither evaluated nor counted in a tick nor freed. -/
def Quiet (j : ℕ) (s : Sys) : Op → Prop
  | .pass => False
  | .tick => (s.table j).state ≠ .running ∧ (s.table j).state ≠ .sleeping ∧
      (s.table j).state ≠ .runnable
  | .reap _ child => child ≠ j
  | _ => True

/-- The quotient that the scheduler computes from the counters is 25. -/
def GivesDefault (t : Task) : Prop :=
  25 * rbiDenominator t ≤ rbiNumerator t ∧ rbiNumerator t < 26 * rbiDenominator t ∨
    26 * rbiDenominator t < rbiNumerator t ∧ rbiNumerator t ≤ 25 * rbiDenominator t

/-- For a process that is created: never. For one whose priority is set: when its
counters give 25 by themselves. -/
def DefaultHolds (s : Sys) (j : ℕ) : Op → Prop
  | .setPriority _ _ _ => GivesDefault (s.table j)
  | _ => False

variable {s s' : Sys} {op : Op} {j : ℕ} {t t' : Task}

theorem rbiOf_eq_default : rbiOf t = 25 ↔ GivesDefault t := by
  have hlt : rbiNumerator t < 2147483648 := wrap32_lt _
  have hge : -2147483648 ≤ rbiNumerator t := le_wrap32 _
  have hle := Int.natAbs_tdiv_le_natAbs (rbiNumerator t) (rbiDenominator t)
  have hwrap : rbiOf t = 25 ↔ (rbiNumerator t).tdiv (rbiDenominator t) = 25 := by
    generalize hq : (rbiNumerator t).tdiv (rbiDenominator t) = q at hle ⊢
    dsimp only [rbiOf]
    rw [hq, wrap32_eq]
    split_ifs <;> omega
  rw [hwrap, tdiv_eq_iff (by decide)]
  exact Iff.rfl

/-! ## Counters between the write and the pass -/

/-- Equal counters. -/
def SameCounters (t t' : Task) : Prop :=
  t'.runtime = t.runtime ∧ t'.stime = t.stime ∧ t'.wtime = t.wtime

theorem SameCounters.rbiOf_eq (h : SameCounters t t') : rbiOf t' = rbiOf t := by
  unfold rbiOf rbiNumerator rbiDenominator
  rw [h.1, h.2.1, h.2.2]

theorem SameCounters.trans {t'' : Task} (h : SameCounters t t') (h' : SameCounters t' t'') :
    SameCounters t t'' :=
  ⟨h'.1.trans h.1, h'.2.1.trans h.2.1, h'.2.2.trans h.2.2⟩

/-- A quiet operation keeps the counters of a live process, and keeps it live. -/
theorem Touched.quiet (h : Touched s j op t) (hlive : (s.table j).state ≠ .unused)
    (hquiet : Quiet j s op) : t.state ≠ .unused ∧ SameCounters (s.table j) t := by
  have hsame : SameCounters (s.table j) (s.table j) := ⟨rfl, rfl, rfl⟩
  cases h with
  | same => exact ⟨hlive, hsame⟩
  | forked me outcome hfree => exact absurd (freeSlot_state hfree).2 hlive
  | prioritised me a0 a1 hfind => exact ⟨hlive, hsame⟩
  | prioritisedSelf a0 a1 hfind hrun => exact ⟨by simp [yieldTask], hsame⟩
  | rescheduled a0 a1 hrun => exact ⟨by simp [yieldTask], hsame⟩
  | ticked _ =>
    have hid : updateTimeTask (s.table j) = s.table j := by
      unfold updateTimeTask
      split
      · exact absurd ‹_› hquiet.1
      · exact absurd ‹_› hquiet.2.1
      · exact absurd ‹_› hquiet.2.2
      · rfl
    rw [hid]
    exact ⟨hlive, hsame⟩
  | evaluated hrun => exact absurd hquiet id
  | dispatched hrun => exact absurd hquiet id
  | switched hrun => exact ⟨by simp [tidyTask], hsame⟩
  | yielded hrun => exact ⟨by simp [yieldTask], hsame⟩
  | slept chan hrun => exact ⟨by simp [sleepTask], hsame⟩
  | woken chan =>
    unfold wakeupTask
    split_ifs
    · exact ⟨by simp, hsame⟩
    · exact ⟨hlive, hsame⟩
  | killed a0 hfind =>
    refine ⟨?_, hsame⟩
    unfold killTask
    dsimp only
    split_ifs
    · decide
    · exact hlive
  | orphaned p status => exact ⟨hlive, hsame⟩
  | exited status hrun => exact ⟨by simp [exitTask], hsame⟩
  | reaped me hzombie => exact absurd rfl hquiet
  | opened fd file hrun => exact ⟨hlive, hsame⟩

theorem quiet_run (h : ReachOf Sys.step (Quiet j) s s') (hlive : (s.table j).state ≠ .unused) :
    SameCounters (s.table j) (s'.table j) := by
  have hinv : (s'.table j).state ≠ .unused ∧ SameCounters (s.table j) (s'.table j) := by
    refine ReachOf.invariant
      (fun u : Sys => (u.table j).state ≠ .unused ∧ SameCounters (s.table j) (u.table j))
      (fun u op u' hquiet hu hstep => ?_) ⟨hlive, rfl, rfl, rfl⟩ h
    obtain ⟨hlive', hsame⟩ := (step_touched hstep j).quiet hu.1 hquiet
    exact ⟨hlive', hu.2.trans hsame⟩
  exact hinv.2

/-! ## The write and the pass -/

theorem step_pass_slot (h : s.step .pass = some s') (hj : s.table.Runnable j) :
    (s'.table j).rbi = rbiOf (s.table j) ∧ (s'.table j).dp = (evaluate (s.table j)).dp := by
  have hslot : ((Scheduling.pass s.table).1 j).rbi = rbiOf (s.table j) ∧
      ((Scheduling.pass s.table).1 j).dp = (evaluate (s.table j)).dp := by
    rcases pass_slot s.table j with ⟨hsame, -⟩ | ⟨-, hpass⟩
    · rw [hsame, evaluated_of_runnable hj]
      exact ⟨evaluate_rbi _, rfl⟩
    · rw [hpass]
      simp [dispatch]
  simp only [Sys.step] at h
  split at h <;> obtain rfl := Option.some.inj h
  · rename_i heq
    rw [heq] at hslot
    exact hslot
  · rename_i p heq
    rw [heq] at hslot
    dsimp only at hslot ⊢
    rw [Table.set_apply]
    split_ifs with hp
    · subst hp
      exact hslot
    · exact hslot

/-- The field `sp` holds an `int`. -/
def SpInt (t : Task) : Prop := -2147483648 ≤ t.sp ∧ t.sp < 2147483648

theorem Touched.spInt (h : Touched s j op t) (hj : SpInt (s.table j)) : SpInt t := by
  cases h with
  | forked me outcome hfree =>
    cases outcome <;> simp [SpInt, forkTable, freeTask, childTask, allocTask, foundTask]
  | prioritised me a0 a1 hfind => exact ⟨le_wrap32 _, wrap32_lt _⟩
  | prioritisedSelf a0 a1 hfind hrun => exact ⟨le_wrap32 _, wrap32_lt _⟩
  | ticked _ =>
    unfold SpInt
    rw [(updateTimeTask_fields _).1]
    exact hj
  | woken chan =>
    unfold SpInt
    rw [(wakeupTask_fields _ chan).1]
    exact hj
  | _ => exact hj

theorem reach_spInt (h : Reach Sys.step Sys.boot s) (j : ℕ) : SpInt (s.table j) := by
  refine ReachOf.invariant (fun u : Sys => SpInt (u.table j))
    (fun u op u' _ hu hstep => (step_touched hstep j).spInt hu) ?_ h
  unfold Sys.boot
  dsimp only
  rw [Table.set_apply]
  split_ifs <;> simp [SpInt, readyTask, allocTask, foundTask]

/-- With an index of 25, the stored value is the specified one if the sum is an `int`. -/
theorem evaluate_dp_default (hsp : SpInt t) (h : rbiOf t = 25) :
    (evaluate t).dp = min (t.sp + 25) 100 ↔ t.sp + 25 < 2147483648 := by
  obtain ⟨hge, hlt⟩ := hsp
  change (if wrap32 (t.sp + rbiOf t) < 100 then wrap32 (t.sp + rbiOf t) else 100) = _ ↔ _
  rw [h, wrap32_eq]
  split_ifs <;> omega

/-- After the write the process is live, and its counters are zero or as before. -/
theorem resets_spec (hreset : Resets s j op) (hstep : s.step op = some s') :
    (s'.table j).state ≠ .unused ∧
      (rbiOf (s'.table j) = 25 ↔ DefaultHolds s j op) := by
  cases op with
  | fork me outcome =>
    obtain ⟨rfl, hfree⟩ := hreset
    simp only [Sys.step] at hstep
    split_ifs at hstep
    rw [hfree] at hstep
    obtain rfl := Option.some.inj hstep
    have hchild : forkTable s.table me s.nextpid s.ticks j .done j =
        childTask (s.table me) (allocTask (s.table j) s.nextpid s.ticks) me := Table.set_self _ _ _
    dsimp only
    rw [hchild]
    refine ⟨by simp [childTask], ?_⟩
    rw [rbiOf_of_fresh rfl rfl rfl]
    simp [DefaultHolds]
  | setPriority me a0 a1 =>
    obtain ⟨hfind, hlive⟩ := hreset
    obtain ⟨hlive', hsame⟩ := (step_touched hstep j).quiet hlive trivial
    refine ⟨hlive', ?_⟩
    rw [hsame.rbiOf_eq]
    exact rbiOf_eq_default
  | _ => exact absurd hreset id

theorem Quiet.reach (h : ReachOf Sys.step (Quiet j) s s') : Reach Sys.step s s' := by
  refine ReachOf.invariant (fun u => Reach Sys.step s u)
    (fun u op u' _ hu hstep => ?_) (ReachOf.refl s) h
  exact ReachOf.trans hu (ReachOf.single trivial hstep)

/-- A process is created or its priority set, and then it is quiet until the next pass:
that pass evaluates it with the index 25 exactly when its counters give 25 anyway, which
those of a new process do not. -/
theorem default_rbi_effective_iff (s₀ s₁ s₂ s₃ : Sys) (op : Op) (j : ℕ)
    (h₀ : Reach Sys.step Sys.boot s₀) (hreset : Resets s₀ j op) (h₁ : s₀.step op = some s₁)
    (hquiet : ReachOf Sys.step (Quiet j) s₁ s₂) (hrun : s₂.table.Runnable j)
    (h₃ : s₂.step .pass = some s₃) :
    ((s₃.table j).rbi = 25 ∧ (s₃.table j).dp = min ((s₂.table j).sp + 25) 100) ↔
      DefaultHolds s₀ j op ∧ (s₂.table j).sp + 25 < 2147483648 := by
  obtain ⟨hlive, hdefault⟩ := resets_spec hreset h₁
  have hsp : SpInt (s₂.table j) := by
    refine reach_spInt ?_ j
    exact ReachOf.trans (ReachOf.trans h₀ (ReachOf.single trivial h₁)) (Quiet.reach hquiet)
  have hrbi := (quiet_run hquiet hlive).rbiOf_eq
  obtain ⟨hrbi₃, hdp₃⟩ := step_pass_slot h₃ hrun
  rw [hrbi₃, hdp₃, ← hdefault, ← hrbi]
  constructor
  · rintro ⟨h25, hdp⟩
    exact ⟨h25, (evaluate_dp_default hsp h25).mp hdp⟩
  · rintro ⟨h25, hfits⟩
    exact ⟨h25, (evaluate_dp_default hsp h25).mpr hfits⟩

/-! ## The first fork -/

/-- The first process runs and forks; a pass follows. -/
theorem fork_then_pass : ∃ s₀ s₁ s₃, Reach Sys.step Sys.boot s₀ ∧ Resets s₀ 1 (.fork 0 .done) ∧
    s₀.step (.fork 0 .done) = some s₁ ∧ s₁.table.Runnable 1 ∧ s₁.step .pass = some s₃ := by
  have hcheck : (Sys.boot.step (.roundRobin 0)).any (fun s₀ =>
      s₀.freeSlot = some 1 ∧ (s₀.step (.fork 0 .done)).any
        (fun s₁ => s₁.table.Runnable 1) = true) = true := by decide +kernel
  obtain ⟨s₀, h₀, hcheck⟩ := (Option.any_eq_true _ _).mp hcheck
  obtain ⟨hfree, hfork⟩ := of_decide_eq_true hcheck
  obtain ⟨s₁, h₁, hrun⟩ := (Option.any_eq_true _ _).mp hfork
  have hpass : ∃ s₃, s₁.step .pass = some s₃ := by
    simp only [Sys.step]
    split <;> exact ⟨_, rfl⟩
  obtain ⟨s₃, h₃⟩ := hpass
  exact ⟨s₀, s₁, s₃, ReachOf.single trivial h₀, ⟨rfl, hfree⟩, h₁, of_decide_eq_true hrun, h₃⟩

/-- The first child is not evaluated with the index 25. -/
theorem default_rbi_effective_first_child : ∃ s₁ s₃ : Sys, s₁.table.Runnable 1 ∧
    s₁.step .pass = some s₃ ∧
    ¬ ((s₃.table 1).rbi = 25 ∧ (s₃.table 1).dp = min ((s₁.table 1).sp + 25) 100) := by
  obtain ⟨s₀, s₁, s₃, h₀, hreset, h₁, hrun, h₃⟩ := fork_then_pass
  refine ⟨s₁, s₃, hrun, h₃, ?_⟩
  rw [default_rbi_effective_iff s₀ s₁ s₁ s₃ _ 1 h₀ hreset h₁ (ReachOf.refl s₁) hrun h₃]
  exact fun h => h.1

/-- The 25 written by `allocproc` has no effect. -/
theorem default_rbi_lost :
    ¬ ∀ (s₀ s₁ s₂ s₃ : Sys) (op : Op) (j : ℕ), Reach Sys.step Sys.boot s₀ → Resets s₀ j op →
      s₀.step op = some s₁ → ReachOf Sys.step (Quiet j) s₁ s₂ → s₂.table.Runnable j →
      s₂.step .pass = some s₃ →
      (s₃.table j).rbi = 25 ∧ (s₃.table j).dp = min ((s₂.table j).sp + 25) 100 := by
  intro hclaim
  obtain ⟨s₀, s₁, s₃, h₀, hreset, h₁, hrun, h₃⟩ := fork_then_pass
  have h25 := (hclaim s₀ s₁ s₁ s₃ _ 1 h₀ hreset h₁ (ReachOf.refl s₁) hrun h₃).1
  rw [(step_pass_slot h₃ hrun).1] at h25
  exact (resets_spec hreset h₁).2.mp h25

end XV6AndConcurrency.Scheduling
