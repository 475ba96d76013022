import XV6AndConcurrency.Scheduling.Calls

/-!
# A new process starts clean

`allocproc` writes the scheduling fields of the slot it finds and relies on `freeproc`
and `exit` for the others. `kill` looks for a pid without looking at the state, and the
pid of an unused slot is 0.
-/

namespace XV6AndConcurrency.Scheduling

open Foundations

/-- What a new process must not inherit. -/
structure Clean (t : Task) : Prop where
  killed : t.killed = 0
  chan : t.chan = 0
  xstate : t.xstate = 0
  ofile : ∀ fd, t.ofile fd = 0
  parent : t.parent = none

/-- An unused slot is clean, and the files of a zombie are closed. -/
structure Tidy (t : Task) : Prop where
  unused : t.state = .unused → Clean t
  zombie : t.state = .zombie → ∀ fd, t.ofile fd = 0

def Sys.Tidy (s : Sys) : Prop := ∀ i < nproc, Scheduling.Tidy (s.table i)

/-- A call of `kill` does not find an unused slot. -/
def KillOk (s : Sys) : Op → Prop
  | .kill a0 => ∀ i, (s.table.findSlot fun t => t.pid = wrap32 a0) = some i →
      (s.table i).state ≠ .unused
  | _ => True

variable {s s' : Sys} {op : Op} {i : ℕ} {t t' : Task}

/-- `allocproc` neither sets nor clears what must be clean. -/
theorem clean_allocTask {pid : ℤ} {ticks : ℕ} : Clean (allocTask t pid ticks) ↔ Clean t :=
  ⟨fun ⟨h1, h2, h3, h4, h5⟩ => ⟨h1, h2, h3, h4, h5⟩,
    fun ⟨h1, h2, h3, h4, h5⟩ => ⟨h1, h2, h3, h4, h5⟩⟩

theorem Tidy.of_used (hu : t.state ≠ .unused) (hz : t.state ≠ .zombie) : Tidy t :=
  ⟨fun h => absurd h hu, fun h => absurd h hz⟩

theorem Tidy.of_state (h : Tidy t) (hstate : t'.state = t.state) (hk : t'.killed = t.killed)
    (hc : t'.chan = t.chan) (hx : t'.xstate = t.xstate) (hf : t'.ofile = t.ofile)
    (hp : t.parent = none → t'.parent = none) : Tidy t' := by
  refine ⟨fun hunused => ?_, fun hzombie => ?_⟩
  · obtain ⟨h1, h2, h3, h4, h5⟩ := h.unused (hstate ▸ hunused)
    exact ⟨hk.trans h1, hc.trans h2, hx.trans h3, fun fd => (congrFun hf fd).trans (h4 fd), hp h5⟩
  · rw [hf]
    exact h.zombie (hstate ▸ hzombie)

theorem Tidy.free (h : ∀ fd, t.ofile fd = 0) : Tidy (freeTask t) :=
  ⟨fun _ => ⟨rfl, rfl, rfl, h, rfl⟩, fun hz => absurd hz (by simp [freeTask])⟩

theorem Tidy.updateTime (h : Tidy t) : Tidy (updateTimeTask t) := by
  unfold updateTimeTask
  split
  · exact h.of_state rfl rfl rfl rfl rfl id
  · exact h.of_state rfl rfl rfl rfl rfl id
  · exact h.of_state rfl rfl rfl rfl rfl id
  · exact h

theorem Tidy.wakeup (h : Tidy t) (chan : ℕ) : Tidy (wakeupTask t chan) := by
  unfold wakeupTask
  split_ifs
  · exact .of_used (by simp) (by simp)
  · exact h

theorem Tidy.kill (h : Tidy t) (hused : t.state ≠ .unused) : Tidy (killTask t) := by
  unfold killTask
  by_cases hs : t.state = .sleeping
  · exact .of_used (by simp [hs]) (by simp [hs])
  · refine ⟨fun hu => ?_, fun hz => ?_⟩
    · dsimp only at hu
      rw [if_neg hs] at hu
      exact absurd hu hused
    · dsimp only at hz
      rw [if_neg hs] at hz
      exact h.zombie hz

theorem Tidy.orphan (h : Tidy t) (p : ℕ) : Tidy (orphanTask t p) := by
  refine h.of_state rfl rfl rfl rfl rfl fun hparent => ?_
  unfold orphanTask
  dsimp only
  rw [hparent]
  rfl

theorem Touched.tidy (h : Touched s i op t) (hi : Tidy (s.table i)) (hkill : KillOk s op) :
    Tidy t := by
  cases h with
  | same => exact hi
  | forked me outcome hfree =>
    have hclean := hi.unused (freeSlot_state hfree).2
    cases outcome with
    | noMemory =>
      simp only [forkTable, Table.set_self]
      exact .free hclean.ofile
    | copyFails =>
      simp only [forkTable, Table.set_self]
      exact .free hclean.ofile
    | done =>
      simp only [forkTable, Table.set_self]
      exact .of_used (by simp [childTask]) (by simp [childTask])
  | prioritised me a0 a1 hfind => exact hi.of_state rfl rfl rfl rfl rfl id
  | prioritisedSelf a0 a1 hfind hrun => exact .of_used (by simp [yieldTask]) (by simp [yieldTask])
  | rescheduled a0 a1 hrun => exact .of_used (by simp [yieldTask]) (by simp [yieldTask])
  | ticked _ => exact hi.updateTime
  | evaluated hrun => exact hi.of_state rfl rfl rfl rfl rfl id
  | dispatched hrun =>
    exact .of_used (by simp [tidyTask, dispatch]) (by simp [tidyTask, dispatch])
  | switched hrun => exact .of_used (by simp [tidyTask]) (by simp [tidyTask])
  | yielded hrun => exact .of_used (by simp [yieldTask]) (by simp [yieldTask])
  | slept chan hrun => exact .of_used (by simp [sleepTask]) (by simp [sleepTask])
  | woken chan => exact hi.wakeup chan
  | killed a0 hfind => exact hi.kill (hkill i hfind)
  | orphaned p status => exact hi.orphan p
  | exited status hrun => exact ⟨fun hu => absurd hu (by simp [exitTask]), fun _ _ => rfl⟩
  | reaped me hzombie => exact .free (hi.zombie hzombie)
  | opened fd file hrun => exact .of_used (by simp [hrun]) (by simp [hrun])

theorem Sys.Tidy.step (h : s.Tidy) (hkill : KillOk s op) (hstep : s.step op = some s') :
    s'.Tidy :=
  fun i hi => (step_touched hstep i).tidy (h i hi) hkill

theorem Sys.boot_tidy : Sys.boot.Tidy := by
  intro i _
  unfold Sys.boot
  dsimp only
  rw [Table.set_apply]
  split_ifs
  · exact .of_used (by simp [readyTask]) (by simp [readyTask])
  · exact ⟨fun _ => ⟨rfl, rfl, rfl, fun _ => rfl, rfl⟩, fun _ _ => rfl⟩

/-! ## `kill` -/

/-- `kill` changes at most the first slot with the pid. -/
theorem kill_changes {T : Table} {pid : ℤ} (h : kill T pid i ≠ T i) :
    (T.findSlot fun t => t.pid = pid) = some i ∧ (T i).pid = pid := by
  unfold kill at h
  cases hfind : T.findSlot fun t => t.pid = pid with
  | none =>
    rw [hfind] at h
    exact absurd rfl h
  | some j =>
    rw [hfind] at h
    dsimp only at h
    rcases eq_or_ne i j with rfl | hne
    · exact ⟨rfl, of_decide_eq_true (Table.findSlot_eq_some hfind).2⟩
    · rw [Table.set_of_ne _ _ hne] at h
      exact absurd rfl h

/-- Once `kill` has hit an unused slot, the slot is no longer clean. -/
theorem Sys.Tidy.spoiled (hstep : s.step op = some s') (hbad : ¬ KillOk s op) : ¬ s'.Tidy := by
  intro htidy
  cases op with
  | kill a0 =>
    obtain ⟨i, hi⟩ := not_forall.mp hbad
    obtain ⟨hfind, hunused⟩ := Classical.not_imp.mp hi
    rw [not_not] at hunused
    obtain rfl := Option.some.inj hstep
    have hslot : Scheduling.kill s.table (wrap32 a0) i = killTask (s.table i) := by
      unfold Scheduling.kill
      rw [hfind]
      exact Table.set_self _ _ _
    have hclean := (htidy i (Table.findSlot_eq_some hfind).1).unused (by
      dsimp only
      rw [hslot, killTask, hunused]
      rfl)
    have hkilled := hclean.killed
    dsimp only at hkilled
    rw [hslot] at hkilled
    exact absurd hkilled (by simp [killTask])
  | _ => exact hbad trivial

/-- As long as no `kill` finds an unused slot, every slot that `allocproc` can find gives
a clean process, and `kill` changes at most an allocated process with the given pid. The
first `kill` that does find one leaves it unclean for the next process. -/
theorem new_process_clean (s : Sys) :
    (ReachOf Sys.step KillOk Sys.boot s →
      (∀ i, s.freeSlot = some i → Clean (allocTask (s.table i) s.nextpid s.ticks)) ∧
      ∀ a0 i, KillOk s (.kill a0) → kill s.table (wrap32 a0) i ≠ s.table i →
        (s.table i).state ≠ .unused ∧ (s.table i).pid = wrap32 a0) ∧
    ∀ op s', s.step op = some s' → ¬ KillOk s op → ¬ s'.Tidy := by
  refine ⟨fun h => ⟨fun i hfree => ?_, fun a0 i hkill hne => ?_⟩, fun op s' => Sys.Tidy.spoiled⟩
  · have htidy : s.Tidy := ReachOf.invariant Sys.Tidy
      (fun _ _ _ hok hs hstep => hs.step hok hstep) Sys.boot_tidy h
    obtain ⟨hi, hunused⟩ := freeSlot_state hfree
    exact clean_allocTask.mpr ((htidy i hi).unused hunused)
  · obtain ⟨hfind, hpid⟩ := kill_changes hne
    exact ⟨hkill i hfind, hpid⟩

/-- A kill of the first process leaves the next slot clean. -/
theorem new_process_clean_after_kill : ∃ s, Sys.boot.step (.kill 1) = some s ∧
    s.freeSlot = some 1 ∧ Clean (allocTask (s.table 1) s.nextpid s.ticks) := by
  have hcheck : (Sys.boot.step (.kill 1)).any (fun s => s.freeSlot = some 1) = true := by
    decide +kernel
  obtain ⟨s, hs, hfree⟩ := (Option.any_eq_true _ _).mp hcheck
  have hok : KillOk Sys.boot (.kill 1) := by
    intro i hfind hunused
    have hzero : (Sys.boot.table.findSlot fun t => t.pid = wrap32 1) = some 0 := by
      decide +kernel
    obtain rfl : (0 : ℕ) = i := Option.some.inj (hzero.symm.trans hfind)
    exact absurd hunused (by decide)
  exact ⟨s, hs, of_decide_eq_true hfree,
    ((new_process_clean s).1 (ReachOf.single hok hs)).1 1 (of_decide_eq_true hfree)⟩

/-- After `kill(0)` the next process is born killed. -/
theorem new_process_killed : ¬ ∀ s, Reach Sys.step Sys.boot s → ∀ i, s.freeSlot = some i →
    Clean (allocTask (s.table i) s.nextpid s.ticks) := by
  intro hclaim
  have hcheck : (Sys.boot.step (.kill 0)).any
      (fun s => s.freeSlot = some 1 ∧ (s.table 1).killed = 1) = true := by decide +kernel
  obtain ⟨s, hs, hcheck⟩ := (Option.any_eq_true _ _).mp hcheck
  obtain ⟨hfree, hkilled⟩ := of_decide_eq_true hcheck
  have hreach : Reach Sys.step Sys.boot s := ReachOf.single trivial hs
  have hzero := (clean_allocTask.mp (hclaim s hreach 1 hfree)).killed
  rw [hkilled] at hzero
  exact absurd hzero (by decide)

end XV6AndConcurrency.Scheduling
