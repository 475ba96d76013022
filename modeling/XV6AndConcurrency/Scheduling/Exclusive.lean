import XV6AndConcurrency.Scheduling.Machine

/-!
# A process runs on at most one CPU

The scheduler chooses a candidate without holding its lock and looks again under the
lock before it switches. Every other writer of `p->state` works on its own process or
on one that is not running, so the running processes and the CPUs that run them stay
in bijection.
-/

namespace XV6AndConcurrency.Scheduling

open Foundations

/-- The running processes are those that some CPU has as its `c->proc`, each on one CPU. -/
structure Exclusive (M : Machine) : Prop where
  unique : ∀ c c' p, (M.cpus c).proc = some p → (M.cpus c').proc = some p → c = c'
  running : ∀ p, (M.table p).state = .running ↔ ∃ c, (M.cpus c).proc = some p
  back : ∀ c p b, M.cpus c = .running p b → b.proc = none

variable {policy : Policy} {M M' : Machine} {a : Action} {c i p : ℕ} {pc : Pc}

theorem schedStep_idle {T : Table} {r : Table × Pc} (h : schedStep policy T pc = some r) :
    pc.proc = none := by
  cases pc with
  | running q back => simp [schedStep] at h
  | _ => rfl

/-- CPU `c` moves within its scheduler or takes a runnable process. -/
structure MoveEffect (M M' : Machine) (c : ℕ) (pc : Pc) : Prop where
  idle : (M.cpus c).proc = none
  cpus : M'.cpus = Function.update M.cpus c pc
  effect : pc.proc = none ∧ SameChoice M.table M'.table ∨ ∃ p, Switched M.table M'.table pc p

theorem SchedEffect.move (h : SchedEffect policy M M' c pc) : MoveEffect M M' c pc :=
  ⟨schedStep_idle h.step, h.cpus, schedStep_cases h.step⟩

theorem StrayEffect.move (h : StrayEffect policy M M' c p pc) : MoveEffect M M' c pc := by
  refine ⟨by rw [h.wild]; rfl, h.cpus, ?_⟩
  refine (pickStep_cases policy.head_proc h.step).imp_left fun hsame => ⟨hsame.1, ?_⟩
  rw [hsame.2]
  exact SameChoice.refl _

/-- Every action moves a CPU in its scheduler, ends the turn of a process, or works on a slot. -/
theorem Machine.step_kinds (h : M.step policy a = some M') :
    (∃ c pc, MoveEffect M M' c pc) ∨ (∃ c p, LeaveEffect M M' c p) ∨ ∃ i, SlotEffect M M' i := by
  rcases Machine.step_cases h with ⟨c, pc, -, hsched⟩ | ⟨c, p, pc, hstray⟩ | hrest
  · exact .inl ⟨c, pc, hsched.move⟩
  · exact .inl ⟨c, pc, hstray.move⟩
  · exact .inr hrest

namespace Exclusive

/-- A CPU moves within its scheduler. -/
theorem of_same (h : Exclusive M) (hc : (M.cpus c).proc = none) (hpc : pc.proc = none)
    (hcpus : M'.cpus = Function.update M.cpus c pc)
    (hstate : ∀ j, (M'.table j).state = (M.table j).state) : Exclusive M' := by
  have hproc : ∀ d, (M'.cpus d).proc = (M.cpus d).proc := by
    intro d
    rw [hcpus]
    rcases eq_or_ne d c with rfl | hd
    · rw [Function.update_self, hpc, hc]
    · rw [Function.update_of_ne hd]
  refine ⟨fun d d' p hd hd' => ?_, fun p => ?_, fun d p b hd => ?_⟩
  · rw [hproc] at hd hd'
    exact h.unique d d' p hd hd'
  · rw [hstate, h.running]
    simp only [hproc]
  · rw [hcpus] at hd
    rcases eq_or_ne d c with rfl | hne
    · rw [Function.update_self] at hd
      rw [hd] at hpc
      exact absurd hpc (by simp [Pc.proc])
    · rw [Function.update_of_ne hne] at hd
      exact h.back d p b hd

/-- A CPU takes a runnable process: no CPU had it. -/
theorem of_switched (h : Exclusive M) (hc : (M.cpus c).proc = none)
    (hsw : Switched M.table M'.table pc p) (hcpus : M'.cpus = Function.update M.cpus c pc) :
    Exclusive M' := by
  obtain ⟨hrun, ⟨t, ht, htable⟩, back, hback, rfl⟩ := hsw
  have hfree : ∀ d, (M.cpus d).proc ≠ some p := by
    intro d hd
    have := (h.running p).mpr ⟨d, hd⟩
    rw [hrun] at this
    exact absurd this (by decide)
  have hself : (M'.cpus c).proc = some p := by
    rw [hcpus, Function.update_self]
    rfl
  have hother : ∀ d, d ≠ c → M'.cpus d = M.cpus d := by
    intro d hd
    rw [hcpus, Function.update_of_ne hd]
  refine ⟨fun d d' q hd hd' => ?_, fun q => ?_, fun d q b hd => ?_⟩
  · have hcase : ∀ d, (M'.cpus d).proc = some q → q = p → d = c := by
      intro d hd hq
      by_contra hne
      rw [hother d hne, hq] at hd
      exact hfree d hd
    by_cases hq : q = p
    · rw [hcase d hd hq, hcase d' hd' hq]
    · have hne : ∀ d, (M'.cpus d).proc = some q → d ≠ c := by
        rintro d hd rfl
        rw [hself] at hd
        exact hq (Option.some.inj hd).symm
      rw [hother d (hne d hd)] at hd
      rw [hother d' (hne d' hd')] at hd'
      exact h.unique d d' q hd hd'
  · rw [htable, Table.set_apply]
    split_ifs with hq
    · subst hq
      exact ⟨fun _ => ⟨c, hself⟩, fun _ => ht⟩
    · rw [h.running]
      constructor
      · rintro ⟨d, hd⟩
        refine ⟨d, ?_⟩
        rw [hother d, hd]
        rintro rfl
        rw [hc] at hd
        exact absurd hd (by simp)
      · rintro ⟨d, hd⟩
        refine ⟨d, ?_⟩
        rw [← hother d, hd]
        rintro rfl
        rw [hself] at hd
        exact hq (Option.some.inj hd).symm
  · rcases eq_or_ne d c with rfl | hne
    · rw [hcpus, Function.update_self] at hd
      obtain ⟨-, rfl⟩ := Pc.running.inj hd
      exact hback
    · rw [hother d hne] at hd
      exact h.back d q b hd

/-- The process on a CPU gives the CPU back: it ran on no other. -/
theorem of_leave (h : Exclusive M) (hleave : LeaveEffect M M' c p) : Exclusive M' := by
  obtain ⟨⟨back, hc, hcpus⟩, t, ht, -, htable⟩ := hleave
  have hback := h.back c p back hc
  have hp : (M.cpus c).proc = some p := by
    rw [hc]
    rfl
  have hproc : ∀ d q, (M'.cpus d).proc = some q ↔ q ≠ p ∧ (M.cpus d).proc = some q := by
    intro d q
    rw [hcpus]
    rcases eq_or_ne d c with rfl | hd
    · rw [Function.update_self, hback, hp]
      simp only [reduceCtorEq, Option.some.injEq, false_iff, not_and]
      exact fun hne heq => hne heq.symm
    · rw [Function.update_of_ne hd]
      refine ⟨fun hq => ⟨?_, hq⟩, And.right⟩
      rintro rfl
      exact hd (h.unique d c q hq hp)
  refine ⟨fun d d' q hd hd' => ?_, fun q => ?_, fun d q b hd => ?_⟩
  · exact h.unique d d' q ((hproc d q).mp hd).2 ((hproc d' q).mp hd').2
  · simp only [hproc]
    rw [htable, Table.set_apply]
    split_ifs with hq
    · simp [hq, ht]
    · simp [hq, h.running]
  · have hsome : (M'.cpus d).proc = some q := by
      rw [hd]
      rfl
    have hne : d ≠ c := by
      rintro rfl
      rw [hcpus, Function.update_self, hback] at hsome
      exact absurd hsome (by simp)
    rw [hcpus, Function.update_of_ne hne] at hd
    exact h.back d q b hd

/-- Nobody else starts or stops a running process. -/
theorem of_slot (h : Exclusive M) (hslot : SlotEffect M M' i) : Exclusive M' := by
  obtain ⟨hcpus, t, ht, -, htable⟩ := hslot
  refine ⟨fun d d' q hd hd' => ?_, fun q => ?_, fun d q b hd => ?_⟩
  · rw [hcpus] at hd hd'
    exact h.unique d d' q hd hd'
  · rw [htable, hcpus, Table.set_apply, ← h.running]
    split_ifs with hq
    · rw [hq, ht]
    · exact Iff.rfl
  · rw [hcpus] at hd
    exact h.back d q b hd

theorem step (h : Exclusive M) (hstep : M.step policy a = some M') : Exclusive M' := by
  rcases Machine.step_kinds hstep with ⟨c, pc, hmove⟩ | ⟨c, p, hleave⟩ | ⟨i, hslot⟩
  · rcases hmove.effect with ⟨hpc, hsame⟩ | ⟨p, hsw⟩
    · exact h.of_same hmove.idle hpc hmove.cpus fun j => (hsame j).1
    · exact h.of_switched hmove.idle hsw hmove.cpus
  · exact h.of_leave hleave
  · exact h.of_slot hslot

theorem boot {T : Table} (hT : ∀ p, (T p).state ≠ .running) :
    Exclusive (Machine.boot policy T) := by
  refine ⟨fun c c' p hc _ => ?_, fun p => ⟨fun hp => absurd hp (hT p), ?_⟩, fun c p b hc => ?_⟩
  · exact absurd hc (by simp [Machine.boot])
  · rintro ⟨c, hc⟩
    exact absurd hc (by simp [Machine.boot])
  · have := policy.head_proc
    rw [show policy.head = _ from hc] at this
    exact absurd this (by simp [Pc.proc])

end Exclusive

/-- From a table with no running process, in every interleaving: no two CPUs have the
same `c->proc`, the running processes are those on a CPU, and a scheduler switches to
runnable processes only. -/
theorem runs_on_one_cpu (policy : Policy) (T : Table) (hT : ∀ p, (T p).state ≠ .running)
    (M : Machine) (h : Reach (Machine.step policy) (Machine.boot policy T) M) :
    (∀ c c' p, (M.cpus c).proc = some p → (M.cpus c').proc = some p → c = c') ∧
      (∀ p, (M.table p).state = .running ↔ ∃ c, (M.cpus c).proc = some p) ∧
      ∀ a M' c p, M.step policy a = some M' → (M.cpus c).proc ≠ some p →
        (M'.cpus c).proc = some p → (M.table p).state = .runnable := by
  have hex : Exclusive M :=
    ReachOf.invariant Exclusive (fun _ _ _ _ hs hstep => hs.step hstep) (.boot hT) h
  refine ⟨hex.unique, hex.running, fun a M' c p hstep hnot hnow => ?_⟩
  rcases Machine.step_kinds hstep with ⟨d, pc, hmove⟩ | ⟨d, q, hleave⟩ | ⟨i, hslot⟩
  · rw [hmove.cpus] at hnow
    rcases eq_or_ne c d with rfl | hne
    · rw [Function.update_self] at hnow
      rcases hmove.effect with ⟨hpc, -⟩ | ⟨q, hsw⟩
      · rw [hpc] at hnow
        exact absurd hnow (by simp)
      · obtain ⟨hrun, -, back, -, rfl⟩ := hsw
        obtain rfl : q = p := Option.some.inj hnow
        exact hrun
    · rw [Function.update_of_ne hne] at hnow
      exact absurd hnow hnot
  · obtain ⟨⟨back, hd, hcpus⟩, -⟩ := hleave
    rw [hcpus] at hnow
    rcases eq_or_ne c d with rfl | hne
    · rw [Function.update_self, hex.back c q back hd] at hnow
      exact absurd hnow (by simp)
    · rw [Function.update_of_ne hne] at hnow
      exact absurd hnow hnot
  · rw [hslot.cpus] at hnow
    exact absurd hnow hnot

/-- The first process on an otherwise empty table, taken by CPU 3 under round robin. -/
theorem runs_on_one_cpu_after_switch :
    let T : Table := fun i => if i = 0 then { state := .runnable, pid := 1 } else {}
    let M := (Machine.boot .rr T).set 3 (switchTo T 0 (fun t => { t with state := .running })
      (.roundRobin 1))
    (M.cpus 3).proc = some 0 ∧ ∀ c, (M.cpus c).proc = some 0 → c = 3 := by
  intro T M
  have hT : ∀ p, (T p).state ≠ .running := by
    intro p
    dsimp only [T]
    split_ifs <;> decide
  have hstep : Reach (Machine.step .rr) (Machine.boot .rr T) M :=
    ReachOf.single (a := Action.sched 3) trivial rfl
  have hproc : (M.cpus 3).proc = some 0 := rfl
  exact ⟨hproc, fun c hc => (runs_on_one_cpu .rr T hT M hstep).1 c 3 0 hc hproc⟩

end XV6AndConcurrency.Scheduling
