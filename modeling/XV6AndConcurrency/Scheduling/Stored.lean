import XV6AndConcurrency.Scheduling.Exclusive
import XV6AndConcurrency.Scheduling.Solo

/-!
# The candidate arrays

The scheduler reads `arr[0]`, `arr[ind]`, `arr2[0]` and `arr2[ind2]`. The first array
is never empty there. The second one is filled in a loop of its own after the processes
that go into it were counted, with the locks released in between.
-/

namespace XV6AndConcurrency.Scheduling

open Foundations

namespace Pc

/-- Every entry of `arr` that is read, now or later in the pass, has been stored. -/
def ArrStored : Pc → Prop
  | .first arr => arr ≠ []
  | .least arr _ best => best.2 < arr.length
  | .counting arr best _ _ => best.2 < arr.length
  | .pick arr ind => ind < arr.length
  | .running _ back => back.ArrStored
  | _ => True

/-- An array entry that the next step reads outside its loop has been stored. -/
def ReadsStored : Pc → Prop
  | .first arr => arr ≠ []
  | .pick arr ind => ind < arr.length
  | .readStart arr2 => arr2 ≠ []
  | .pick2 arr2 ind2 => ind2 < arr2.length
  | .wild => False
  | _ => True

/-- The processes that were counted, or are still to be collected into an empty `arr2`,
and their `no_scheduled`. -/
def awaited : Pc → Option (List ℕ × ℤ)
  | .counting arr best _ countSched => if 2 ≤ countSched then some (arr, best.1) else none
  | .gather arr noSched i [] => some (arr.drop i, noSched)
  | _ => none

/-- Every entry of `arr2` that is read, now or later in the pass, has been stored. -/
def Arr2Stored : Pc → Prop
  | .readStart arr2 => arr2 ≠ []
  | .earliest arr2 _ best => best.2 < arr2.length
  | .pick2 arr2 ind2 => ind2 < arr2.length
  | .running _ back => back.Arr2Stored ∧ back.awaited = none
  | .wild => False
  | _ => True

/-- One of the awaited processes is still there. -/
def Supplied (T : Table) (pc : Pc) : Prop :=
  ∀ w, pc.awaited = some w → ∃ q ∈ w.1, counted (T q) w.2 = true

theorem readsStored {pc : Pc} (h : pc.ArrStored) (h2 : pc.Arr2Stored) : pc.ReadsStored := by
  cases pc <;> first | exact h | exact h2 | trivial

end Pc

/-- The process that the next scheduler step of CPU `c` switches to. -/
def Machine.dispatches (policy : Policy) (M : Machine) (c : ℕ) : Option ℕ :=
  (schedStep policy M.table (M.cpus c)).bind fun r => r.2.proc

/-- The step does not take the last process that another CPU has counted and still has
to collect. -/
def LeavesCounted (policy : Policy) (M : Machine) : Action → Prop
  | .sched c => ∀ p, M.dispatches policy c = some p → ∀ d, d ≠ c →
      ∀ w, (M.cpus d).awaited = some w → ∃ q ∈ w.1, q ≠ p ∧ counted (M.table q) w.2 = true
  | _ => True

variable {policy : Policy} {T T' : Table} {pc pc' : Pc} {M M' : Machine} {a : Action} {p : ℕ}

/-! ## The CPU that moves -/

theorem Policy.head_stored (policy : Policy) :
    policy.head.ArrStored ∧ policy.head.Arr2Stored ∧ policy.head.awaited = none := by
  cases policy <;> exact ⟨trivial, trivial, rfl⟩

/-- What a step of a CPU keeps at that CPU: `arr` in any case, `arr2` as long as the
counted processes are there. -/
def Advances (T T' : Table) (pc pc' : Pc) : Prop :=
  pc'.ArrStored ∧ (pc.Arr2Stored → pc.Supplied T → pc'.Arr2Stored ∧ pc'.Supplied T')

namespace Advances

theorem of_idle (harr : pc'.ArrStored) (harr2 : pc'.Arr2Stored) (hnone : pc'.awaited = none) :
    Advances T T' pc pc' := by
  refine ⟨harr, fun _ _ => ⟨harr2, fun w hw => ?_⟩⟩
  rw [hnone] at hw
  exact absurd hw (by simp)

theorem head (policy : Policy) : Advances T T' pc policy.head :=
  of_idle policy.head_stored.1 policy.head_stored.2.1 policy.head_stored.2.2

/-- At a stored entry the scheduler switches or starts over. -/
theorem of_pickStep {arr : List ℕ} {ind : ℕ} (hlt : pc.Arr2Stored → ind < arr.length)
    (hstep : pickStep T arr ind policy.head = (T', pc')) : Advances T T' pc pc' := by
  unfold pickStep at hstep
  split at hstep
  · obtain ⟨-, rfl⟩ := Prod.mk.inj hstep
    rename_i hnone
    rw [List.getElem?_eq_none_iff] at hnone
    exact ⟨trivial, fun harr2 => absurd (hlt harr2) (by omega)⟩
  · split_ifs at hstep <;> obtain ⟨-, rfl⟩ := Prod.mk.inj hstep
    · exact of_idle policy.head_stored.1 policy.head_stored.2 rfl
    · exact head policy

theorem counting {arr : List ℕ} {best : ℤ × ℕ} {i count : ℕ}
    (h : (Pc.counting arr best i count).ArrStored)
    (hstep : schedStep policy T (.counting arr best i count) = some (T', pc')) :
    Advances T T' (.counting arr best i count) pc' := by
  simp only [schedStep] at hstep
  split at hstep
  · obtain ⟨rfl, rfl⟩ := Prod.mk.inj (Option.some.inj hstep)
    rename_i p hget
    refine ⟨h, fun _ hsup => ⟨trivial, fun w hw => ?_⟩⟩
    dsimp only [Pc.awaited] at hw
    by_cases hp : counted (T p) best.1 = true
    · split_ifs at hw
      obtain rfl := Option.some.inj hw
      exact ⟨p, List.mem_of_getElem? hget, hp⟩
    · rw [if_neg hp] at hw
      exact hsup w hw
  · split_ifs at hstep with hone hmany <;>
      obtain ⟨rfl, rfl⟩ := Prod.mk.inj (Option.some.inj hstep)
    · exact of_idle h trivial rfl
    · refine ⟨trivial, fun _ hsup => ⟨trivial, fun w hw => ?_⟩⟩
      obtain rfl := Option.some.inj hw
      exact hsup (arr, best.1) (if_pos hmany)
    · exact head policy

theorem gather {arr arr2 : List ℕ} {noSched : ℤ} {i : ℕ}
    (hstep : schedStep policy T (.gather arr noSched i arr2) = some (T', pc')) :
    Advances T T' (.gather arr noSched i arr2) pc' := by
  simp only [schedStep] at hstep
  split at hstep <;> obtain ⟨rfl, rfl⟩ := Prod.mk.inj (Option.some.inj hstep)
  · rename_i p hget
    refine ⟨trivial, fun _ hsup => ⟨trivial, fun w hw => ?_⟩⟩
    by_cases hp : counted (T p) noSched = true
    · rw [if_pos hp] at hw
      cases arr2 <;> simp [Pc.awaited] at hw
    · rw [if_neg hp] at hw
      cases arr2 with
      | cons q arr2 => simp [Pc.awaited] at hw
      | nil =>
        obtain rfl := Option.some.inj hw
        obtain ⟨q, hq, hcounted⟩ := hsup (arr.drop i, noSched) rfl
        obtain ⟨hi, rfl⟩ := List.getElem?_eq_some_iff.mp hget
        rw [List.drop_eq_getElem_cons hi] at hq
        rcases List.mem_cons.mp hq with rfl | hq
        · exact absurd hcounted hp
        · exact ⟨q, hq, hcounted⟩
  · rename_i hnone
    rw [List.getElem?_eq_none_iff] at hnone
    refine ⟨trivial, fun _ hsup => ⟨?_, fun w hw => absurd hw (by simp [Pc.awaited])⟩⟩
    -- with nothing left to visit, an empty `arr2` would have nothing to wait for
    rintro rfl
    obtain ⟨q, hq, -⟩ := hsup (arr.drop i, noSched) rfl
    rw [List.drop_eq_nil_of_le hnone] at hq
    exact absurd hq (by simp)

theorem schedStep (h : pc.ArrStored) (hstep : schedStep policy T pc = some (T', pc')) :
    Advances T T' pc pc' := by
  cases pc with
  | eval i max =>
    simp only [Scheduling.schedStep] at hstep
    split_ifs at hstep <;> obtain ⟨-, rfl⟩ := Prod.mk.inj (Option.some.inj hstep)
    · exact of_idle trivial trivial rfl
    · exact of_idle trivial trivial rfl
  | tie i max arr =>
    simp only [Scheduling.schedStep] at hstep
    by_cases hi : i < nproc
    · rw [if_pos hi] at hstep
      obtain ⟨-, rfl⟩ := Prod.mk.inj (Option.some.inj hstep)
      exact of_idle trivial trivial rfl
    · rw [if_neg hi] at hstep
      by_cases harr : arr = []
      · rw [if_pos harr] at hstep
        obtain ⟨-, rfl⟩ := Prod.mk.inj (Option.some.inj hstep)
        exact of_idle trivial trivial rfl
      · rw [if_neg harr] at hstep
        obtain ⟨-, rfl⟩ := Prod.mk.inj (Option.some.inj hstep)
        exact of_idle harr trivial rfl
  | first arr =>
    have hpos := List.length_pos_iff.mpr h
    simp only [Scheduling.schedStep, List.getElem?_eq_getElem hpos] at hstep
    obtain ⟨-, rfl⟩ := Prod.mk.inj (Option.some.inj hstep)
    exact of_idle hpos trivial rfl
  | least arr i best =>
    simp only [Scheduling.schedStep] at hstep
    split at hstep <;> obtain ⟨-, rfl⟩ := Prod.mk.inj (Option.some.inj hstep)
    · rename_i p hget
      refine of_idle ?_ trivial rfl
      change (leastSection (T p) i best).2 < arr.length
      unfold leastSection
      split_ifs
      · exact (List.getElem?_eq_some_iff.mp hget).1
      · exact h
    · exact of_idle h trivial rfl
  | counting arr best i count => exact counting h hstep
  | pick arr ind => exact of_pickStep (fun _ => h) (Option.some.inj hstep)
  | gather arr noSched i arr2 => exact gather hstep
  | readStart arr2 =>
    simp only [Scheduling.schedStep] at hstep
    split at hstep <;> obtain ⟨-, rfl⟩ := Prod.mk.inj (Option.some.inj hstep)
    · rename_i hnone
      rw [List.getElem?_eq_none_iff] at hnone
      exact ⟨trivial, fun harr2 => absurd (List.length_pos_iff.mpr harr2) (by omega)⟩
    · rename_i hget
      exact of_idle trivial (List.getElem?_eq_some_iff.mp hget).1 rfl
  | earliest arr2 i best =>
    simp only [Scheduling.schedStep] at hstep
    split at hstep <;> obtain ⟨-, rfl⟩ := Prod.mk.inj (Option.some.inj hstep)
    · rename_i p hget
      refine ⟨trivial, fun harr2 _ => ⟨?_, fun w hw => absurd hw (by simp [Pc.awaited])⟩⟩
      change (earliestSection (T p) i best).2 < arr2.length
      unfold earliestSection
      split_ifs
      · exact (List.getElem?_eq_some_iff.mp hget).1
      · exact harr2
    · exact ⟨trivial, fun harr2 _ => ⟨harr2, fun w hw => absurd hw (by simp [Pc.awaited])⟩⟩
  | pick2 arr2 ind2 => exact of_pickStep (fun harr2 => harr2) (Option.some.inj hstep)
  | fallback i max =>
    simp only [Scheduling.schedStep] at hstep
    split_ifs at hstep <;> obtain ⟨-, rfl⟩ := Prod.mk.inj (Option.some.inj hstep)
    · exact of_idle trivial ⟨trivial, rfl⟩ rfl
    · exact of_idle trivial trivial rfl
    · exact head policy
  | roundRobin i =>
    simp only [Scheduling.schedStep] at hstep
    split_ifs at hstep <;> obtain ⟨-, rfl⟩ := Prod.mk.inj (Option.some.inj hstep)
    · exact of_idle trivial ⟨trivial, rfl⟩ rfl
    · exact of_idle trivial trivial rfl
    · exact head policy
  | running p back => simp [Scheduling.schedStep] at hstep
  | wild => simp [Scheduling.schedStep] at hstep

end Advances

/-! ## The other CPUs -/

theorem Pc.Supplied.mono (h : pc.Supplied T)
    (hmono : ∀ q n, counted (T q) n = true → counted (T' q) n = true) : pc.Supplied T' := by
  intro w hw
  obtain ⟨q, hq, hcounted⟩ := h w hw
  exact ⟨q, hq, hmono q w.2 hcounted⟩

theorem counted_eq_true {t : Task} {n : ℤ} :
    counted t n = true ↔ t.state = .runnable ∧ t.noScheduled = n := by
  simp [counted]

theorem SameChoice.counted (h : SameChoice T T') (q : ℕ) (n : ℤ)
    (hq : counted (T q) n = true) : counted (T' q) n = true := by
  rw [counted_eq_true] at hq ⊢
  rw [(h q).1, (h q).2]
  exact hq

/-- Writing a slot that was not runnable, or keeping what makes it count. -/
theorem counted_set {t : Task} {i : ℕ}
    (h : (T i).state = .runnable → t.state = .runnable ∧ t.noScheduled = (T i).noScheduled)
    (q : ℕ) (n : ℤ) (hq : counted (T q) n = true) : counted (T.set i t q) n = true := by
  rw [counted_eq_true] at hq ⊢
  rw [Table.set_apply]
  split_ifs with hi
  · subst hi
    obtain ⟨hstate, hcount⟩ := h hq.1
    exact ⟨hstate, hcount.trans hq.2⟩
  · exact hq

/-! ## Runs -/

/-- What holds of `arr` in every state. -/
def ArrInv (M : Machine) : Prop := ∀ c, (M.cpus c).ArrStored

/-- What holds of both arrays as long as no step takes the last counted process. -/
structure StoredInv (M : Machine) : Prop where
  exclusive : Exclusive M
  arr : ArrInv M
  arr2 : ∀ c, (M.cpus c).Arr2Stored
  supplied : ∀ c, (M.cpus c).Supplied M.table

theorem ArrInv.step (h : ArrInv M) (hstep : M.step policy a = some M') : ArrInv M' := by
  intro d
  rcases Machine.step_cases hstep with
    ⟨c, pc, -, hsched⟩ | ⟨c, p, pc, hstray⟩ | ⟨c, p, hleave⟩ | ⟨i, hslot⟩
  · rw [hsched.cpus]
    rcases eq_or_ne d c with rfl | hd
    · rw [Function.update_self]
      exact (Advances.schedStep (h d) hsched.step).1
    · rw [Function.update_of_ne hd]
      exact h d
  · rw [hstray.cpus]
    rcases eq_or_ne d c with rfl | hd
    · rw [Function.update_self]
      have hadvances : Advances M.table M'.table .wild pc :=
        Advances.of_pickStep (fun hfalse => hfalse.elim) hstray.step
      exact hadvances.1
    · rw [Function.update_of_ne hd]
      exact h d
  · obtain ⟨⟨back, hc, hcpus⟩, -⟩ := hleave
    rw [hcpus]
    rcases eq_or_ne d c with rfl | hd
    · rw [Function.update_self]
      have hd := h d
      rw [hc] at hd
      exact hd
    · rw [Function.update_of_ne hd]
      exact h d
  · rw [hslot.cpus]
    exact h d

namespace StoredInv

/-- A scheduler step keeps the other CPUs supplied if it meets the condition. -/
theorem supplied_other (h : StoredInv M) {c d : ℕ} (hd : d ≠ c)
    (hok : LeavesCounted policy M (.sched c)) (hsched : SchedEffect policy M M' c pc) :
    (M.cpus d).Supplied M'.table := by
  rcases schedStep_cases hsched.step with ⟨-, hsame⟩ | ⟨p, hsw⟩
  · exact (h.supplied d).mono hsame.counted
  · obtain ⟨-, ⟨t, -, htable⟩, back, -, rfl⟩ := hsw
    intro w hw
    have hdisp : M.dispatches policy c = some p := by
      simp [Machine.dispatches, hsched.step, Pc.proc]
    obtain ⟨q, hq, hne, hcounted⟩ := hok p hdisp d hd w hw
    rw [htable]
    exact ⟨q, hq, by rwa [Table.set_of_ne _ _ hne]⟩

theorem step (h : StoredInv M) (hok : LeavesCounted policy M a)
    (hstep : M.step policy a = some M') : StoredInv M' := by
  suffices hall : ∀ d, (M'.cpus d).Arr2Stored ∧ (M'.cpus d).Supplied M'.table from
    ⟨h.exclusive.step hstep, h.arr.step hstep, fun d => (hall d).1, fun d => (hall d).2⟩
  intro d
  rcases Machine.step_cases hstep with
    ⟨c, pc, rfl, hsched⟩ | ⟨c, p, pc, hstray⟩ | ⟨c, p, hleave⟩ | ⟨i, hslot⟩
  · rw [hsched.cpus]
    rcases eq_or_ne d c with rfl | hd
    · rw [Function.update_self]
      exact (Advances.schedStep (h.arr d) hsched.step).2 (h.arr2 d) (h.supplied d)
    · rw [Function.update_of_ne hd]
      exact ⟨h.arr2 d, h.supplied_other hd hok hsched⟩
  · -- no entry has been used that was never stored
    have hwild := h.arr2 c
    rw [hstray.wild] at hwild
    exact hwild.elim
  · obtain ⟨⟨back, hc, hcpus⟩, t, -, -, htable⟩ := hleave
    -- the process that leaves was running, so nobody had counted on it
    have hrun : (M.table p).state = .running := by
      refine (h.exclusive.running p).mpr ⟨c, ?_⟩
      rw [hc]
      rfl
    rw [hcpus, htable]
    rcases eq_or_ne d c with rfl | hd
    · rw [Function.update_self]
      have hback := h.arr2 d
      rw [hc] at hback
      refine ⟨hback.1, fun w hw => ?_⟩
      rw [hback.2] at hw
      exact absurd hw (by simp)
    · rw [Function.update_of_ne hd]
      refine ⟨h.arr2 d, (h.supplied d).mono (counted_set fun hp => ?_)⟩
      rw [hrun] at hp
      exact absurd hp (by decide)
  · obtain ⟨hcpus, t, -, hkeep, htable⟩ := hslot
    rw [hcpus, htable]
    exact ⟨h.arr2 d, (h.supplied d).mono (counted_set hkeep)⟩

theorem boot (hT : ∀ p, (T p).state ≠ .running) : StoredInv (Machine.boot policy T) := by
  refine ⟨.boot hT, fun _ => policy.head_stored.1, fun _ => policy.head_stored.2.1, ?_⟩
  intro c w hw
  rw [show ((Machine.boot policy T).cpus c).awaited = none from policy.head_stored.2.2] at hw
  exact absurd hw (by simp)

end StoredInv

/-- In every interleaving `arr[ind]` is a stored entry; and as long as no dispatch takes
the last process that another CPU has counted and not yet collected, so are `arr2[0]`
and `arr2[ind2]`. -/
theorem candidates_stored (policy : Policy) (T : Table) (hT : ∀ p, (T p).state ≠ .running) :
    (∀ M, Reach (Machine.step policy) (Machine.boot policy T) M →
      ∀ c arr ind, M.cpus c = .pick arr ind → ind < arr.length) ∧
    ∀ M, ReachOf (Machine.step policy) (LeavesCounted policy) (Machine.boot policy T) M →
      ∀ c, (M.cpus c).ReadsStored := by
  constructor
  · intro M h c arr ind hc
    have harr : ArrInv M := ReachOf.invariant ArrInv (fun _ _ _ _ hs hstep => hs.step hstep)
      (fun _ => policy.head_stored.1) h
    have hstored := harr c
    rw [hc] at hstored
    exact hstored
  · intro M h c
    have hinv : StoredInv M := ReachOf.invariant StoredInv
      (fun _ _ _ hok hs hstep => hs.step hok hstep) (StoredInv.boot hT) h
    exact Pc.readsStored (hinv.arr c) (hinv.arr2 c)

/-! ## Two runs on two waiting processes -/

theorem twoEqual_not_running (p : ℕ) : (twoEqual p).state ≠ .running := by
  unfold twoEqual
  split_ifs <;> decide

theorem twoEqual_of_lt {i : ℕ} (h : i < 2) : twoEqual i = { state := .runnable, sp := 50 } :=
  if_pos h

theorem evalLoop_twoEqual : (evalLoop twoEqual).2 = 50 := by
  have heval := evalLoop_evaluatedBelow twoEqual
  have hdp : ∀ j < 2, (evaluate (twoEqual j)).dp = 50 := by
    intro j hj
    rw [twoEqual_of_lt hj]
    decide +kernel
  have hle := heval.le 0 (by decide) (by decide)
  rw [hdp 0 (by decide)] at hle
  rcases heval.attained with hzero | ⟨j, hj, hrun, hjdp⟩
  · omega
  · rw [← hjdp]
    exact hdp j (runnable_twoEqual ⟨hj, hrun⟩)

theorem candidates_twoEqual :
    candidates (evaluated twoEqual) (evalLoop twoEqual).2 = [0, 1] := by
  rw [evalLoop_twoEqual]
  decide +kernel

/-- A scheduler that is left alone counts both processes. -/
theorem solo_twoEqual : Solo .pbs (twoEqual, Policy.pbs.head)
    (evaluated twoEqual, .gather [0, 1] 0 0 []) := by
  have hcount := (solo_first twoEqual candidates_twoEqual).trans
    ((solo_least .pbs (evaluated twoEqual) [0, 1] _).trans
      (solo_counting .pbs (evaluated twoEqual) [0, 1] _))
  have hleast : leastLoop (evaluated twoEqual) [0, 1]
      ((evaluated twoEqual 0).noScheduled, 0) = (0, 0) := by decide +kernel
  have htwo : countLoop (evaluated twoEqual) [0, 1] 0 = 2 := by decide +kernel
  rw [hleast, htwo] at hcount
  exact hcount

/-- As long as a scheduler has not switched, it has changed nothing that counts. -/
theorem Solo.sameChoice {r r' : Table × Pc} (h : Solo policy r r') :
    r'.2.proc ≠ none ∨ SameChoice r.1 r'.1 := by
  induction h with
  | refl => exact .inr (SameChoice.refl _)
  | @tail r₁ r₂ _ hlast ih =>
    obtain ⟨_, _, hstep⟩ := hlast
    rcases ih with hproc | hsame
    · exact absurd (schedStep_idle hstep) hproc
    · rcases schedStep_cases hstep with ⟨-, hsame'⟩ | ⟨p, hsw⟩
      · refine .inr fun j => ⟨?_, ?_⟩
        · rw [(hsame' j).1, (hsame j).1]
        · rw [(hsame' j).2, (hsame j).2]
      · obtain ⟨-, -, back, -, hpc⟩ := hsw
        refine .inl ?_
        rw [hpc]
        exact Option.some_ne_none p

/-- Where nobody else waits for a process, a scheduler may take any. -/
theorem leavesCounted_of_quiet {c : ℕ} {r : Table × Pc}
    (h : ∀ d, d ≠ c → (M.cpus d).awaited = none) : LeavesCounted policy (M.set c r) (.sched c) := by
  intro p _ d hd w hw
  have hcpu : (M.set c r).cpus d = M.cpus d := Function.update_of_ne hd _ _
  rw [hcpu, h d hd] at hw
  exact absurd hw (by simp)

theorem counted_evaluated_twoEqual {j : ℕ} (hj : j < 2) :
    counted (evaluated twoEqual j) 0 = true := by
  interval_cases j <;> decide +kernel

theorem evaluate_twoEqual_nonneg {j : ℕ} (hj : j < 2) :
    0 ≤ (evaluate (evaluated twoEqual j)).dp ∧
      0 ≤ (evaluate (evaluated (evaluated twoEqual) j)).dp := by
  interval_cases j <;> constructor <;> decide +kernel

/-- CPU 0 has counted both processes when CPU 1 takes one of them; the other is left for
`arr2`. -/
theorem candidates_stored_one_taken : ∃ M p arr2,
    ReachOf (Machine.step .pbs) (LeavesCounted .pbs) (Machine.boot .pbs twoEqual) M ∧
      M.cpus 1 = .running p Policy.pbs.head ∧ M.cpus 0 = .readStart arr2 ∧
      (M.cpus 0).ReadsStored := by
  obtain ⟨p, T₂, -, hsolo₁, -, -⟩ := solo_dispatches (T := evaluated twoEqual) (i := 0)
    (by decide) (evaluate_twoEqual_nonneg (by decide)).1
  let M₀ := Machine.boot .pbs twoEqual
  let M₁ := M₀.set 0 (evaluated twoEqual, .gather [0, 1] 0 0 [])
  let M₂ := M₁.set 1 (T₂, .running p Policy.pbs.head)
  let M₃ := M₂.set 0 (T₂, .readStart (gatherLoop T₂ [0, 1] 0))
  have hhead : ∀ d, (M₀.cpus d).awaited = none := fun d => Policy.pbs.head_stored.2.2
  have hrun₀ : ReachOf (Machine.step .pbs) (LeavesCounted .pbs) M₀ M₁ := by
    have hreach : ReachOf (Machine.step .pbs) (LeavesCounted .pbs)
        (M₀.set 0 (twoEqual, Policy.pbs.head)) M₁ :=
      Solo.reach (fun r _ => leavesCounted_of_quiet fun d _ => hhead d) solo_twoEqual
    rwa [show M₀.set 0 (twoEqual, Policy.pbs.head) = M₀ from Machine.set_self rfl] at hreach
  have hrun₁ : ReachOf (Machine.step .pbs) (LeavesCounted .pbs) M₁ M₂ := by
    rw [← show M₁.set 1 (evaluated twoEqual, Policy.pbs.head) = M₁ from Machine.set_self rfl]
    refine Solo.reach (fun r hr => ?_) hsolo₁
    intro q hq d hd w hw
    rw [show (M₁.set 1 r).cpus d = M₁.cpus d from Function.update_of_ne hd _ _] at hw
    by_cases hd0 : d = 0
    · subst hd0
      obtain rfl := Option.some.inj hw
      -- CPU 1 has not switched before, so both are still there
      have hsame : SameChoice (evaluated twoEqual) r.1 := by
        refine hr.sameChoice.resolve_left fun hproc => ?_
        obtain ⟨r', hr', -⟩ := Option.bind_eq_some_iff.mp hq
        rw [Machine.set_cpus_self] at hr'
        exact hproc (schedStep_idle hr')
      by_cases hq0 : q = 0
      · exact ⟨1, by simp, by omega, hsame.counted 1 0 (counted_evaluated_twoEqual (by decide))⟩
      · exact ⟨0, by simp, Ne.symm hq0,
          hsame.counted 0 0 (counted_evaluated_twoEqual (by decide))⟩
    · rw [show M₁.cpus d = M₀.cpus d from Function.update_of_ne hd0 _ _, hhead d] at hw
      exact absurd hw (by simp)
  have hrun₂ : ReachOf (Machine.step .pbs) (LeavesCounted .pbs) M₂ M₃ := by
    rw [← show M₂.set 0 (T₂, .gather [0, 1] 0 0 []) = M₂ from Machine.set_self rfl]
    refine Solo.reach (fun r _ => leavesCounted_of_quiet fun d hd => ?_)
      (solo_gather .pbs T₂ [0, 1] 0)
    by_cases hd1 : d = 1
    · rw [hd1]
      rfl
    · rw [show M₂.cpus d = M₁.cpus d from Function.update_of_ne hd1 _ _,
        show M₁.cpus d = M₀.cpus d from Function.update_of_ne hd _ _]
      exact hhead d
  have hrun := (hrun₀.trans hrun₁).trans hrun₂
  refine ⟨M₃, p, _, hrun, rfl, rfl, ?_⟩
  exact (candidates_stored .pbs twoEqual twoEqual_not_running).2 M₃ hrun 0

/-- Two more schedulers, one after the other, leave nobody runnable. -/
theorem solo_both_taken : ∃ p q T₂ T₃,
    Solo .pbs (evaluated twoEqual, Policy.pbs.head) (T₂, .running p Policy.pbs.head) ∧
    Solo .pbs (T₂, Policy.pbs.head) (T₃, .running q Policy.pbs.head) ∧
    ∀ j, (T₃ j).state ≠ .runnable := by
  obtain ⟨p, T₂, hp, hsolo₁, hp₂, hrest₂⟩ := solo_dispatches (T := evaluated twoEqual) (i := 0)
    (by decide) (evaluate_twoEqual_nonneg (by decide)).1
  have hp2 : p < 2 := runnable_twoEqual (runnable_evaluated.mp hp)
  have hlt : ∀ j, (T₂ j).state = .runnable → j = 1 - p := by
    intro j hj
    have hjp : j ≠ p := by
      rintro rfl
      rw [hp₂] at hj
      exact absurd hj (by decide)
    rw [hrest₂ j hjp, evaluated_state, evaluated_state] at hj
    have hj2 : j < 2 := by
      by_contra hge
      rw [twoEqual, if_neg hge] at hj
      exact absurd hj (by decide)
    omega
  have hq2 : 1 - p < 2 := by omega
  have hqp : 1 - p ≠ p := by omega
  have hq : T₂.Runnable (1 - p) := by
    refine ⟨hq2.trans (by decide), ?_⟩
    rw [hrest₂ _ hqp, evaluated_state, evaluated_state, twoEqual_of_lt hq2]
  have hqdp : 0 ≤ (evaluate (T₂ (1 - p))).dp := by
    rw [hrest₂ _ hqp]
    exact (evaluate_twoEqual_nonneg hq2).2
  obtain ⟨q, T₃, hrun, hsolo₂, hq₃, hrest₃⟩ := solo_dispatches hq hqdp
  refine ⟨p, q, T₂, T₃, hsolo₁, hsolo₂, fun j hj => ?_⟩
  have hjq : j ≠ q := by
    rintro rfl
    rw [hq₃] at hj
    exact absurd hj (by decide)
  rw [hrest₃ j hjq, evaluated_state] at hj
  exact hjq ((hlt j hj).trans (hlt q hrun.2).symm)

/-- CPU 0 counts two processes, CPUs 1 and 2 take them, and CPU 0 reads `arr2[0]` of an
array in which it has stored nothing. -/
theorem counted_candidates_taken :
    ¬ ∀ T : Table, (∀ p, (T p).state ≠ .running) →
      ∀ M, Reach (Machine.step .pbs) (Machine.boot .pbs T) M → ∀ c, (M.cpus c).ReadsStored := by
  intro hclaim
  obtain ⟨p, q, T₂, T₃, hsolo₁, hsolo₂, hnone⟩ := solo_both_taken
  have hsolo₃ := solo_gather .pbs T₃ [0, 1] 0
  have hempty : gatherLoop T₃ [0, 1] 0 = [] := by
    simp [gatherLoop, counted, hnone]
  rw [hempty] at hsolo₃
  let M₀ := Machine.boot .pbs twoEqual
  let M₁ := M₀.set 0 (evaluated twoEqual, .gather [0, 1] 0 0 [])
  let M₂ := M₁.set 1 (T₂, .running p Policy.pbs.head)
  let M₃ := M₂.set 2 (T₃, .running q Policy.pbs.head)
  have hrun₀ : Reach (Machine.step .pbs) M₀ M₁ := Solo.reach_from rfl solo_twoEqual
  have hrun₁ : Reach (Machine.step .pbs) M₁ M₂ := Solo.reach_from rfl hsolo₁
  have hrun₂ : Reach (Machine.step .pbs) M₂ M₃ := Solo.reach_from rfl hsolo₂
  have hrun₃ : Reach (Machine.step .pbs) M₃ (M₃.set 0 (T₃, .readStart [])) :=
    Solo.reach_from rfl hsolo₃
  have hbad := hclaim twoEqual twoEqual_not_running _
    (((hrun₀.trans hrun₁).trans hrun₂).trans hrun₃) 0
  rw [Machine.set_cpus_self] at hbad
  exact hbad rfl

end XV6AndConcurrency.Scheduling
