import XV6AndConcurrency.Scheduling.Calls

/-!
# What `set_priority` promises

The call returns the old static priority, installs the new one with the default index,
and reschedules when the priority of the process increased, that is when its value fell.
The code decides about the rescheduling by comparing a new dynamic priority with the
old one.
-/

namespace XV6AndConcurrency.Scheduling

open Foundations

variable {T : Table} {me a0 a1 i j : ℕ}

/-- A slot holds the process with this pid; 0 is the pid of no process. -/
def Table.Holds (T : Table) (pid : ℤ) (i : ℕ) : Prop :=
  i < nproc ∧ (T i).pid = pid ∧ pid ≠ 0

/-- The call on behalf of the running process `me` has served the process in slot `i`. -/
structure Served (T : Table) (me i : ℕ) (new : ℤ) (r : Table × ℤ) : Prop where
  returns : r.2 = (T i).sp
  target : { r.1 i with state := (T i).state } = { T i with sp := new, rbi := 25 }
  others : ∀ j ≠ i, { r.1 j with state := (T j).state } = T j
  states : ∀ j ≠ me, (r.1 j).state = (T j).state
  yields : (r.1 me).state = .runnable ↔ new < (T i).sp

/-- The contract of `set_priority`: a process with the pid is served, and without one
nothing changes. -/
def MeetsContract (T : Table) (me a0 a1 : ℕ) : Prop :=
  (∃ i, T.Holds (wrap32 a0) i ∧ Served T me i (wrap32 a1) (sysSetPriority T me a0 a1)) ∨
    (¬ ∃ i, T.Holds (wrap32 a0) i) ∧ (sysSetPriority T me a0 a1).1 = T

/-- Comparing dynamic priorities agrees with comparing static ones. For an absent pid the
old dynamic priority counts as 0; the pid 0 is that of the free slots. -/
def ComparisonsAgree (T : Table) (a0 a1 : ℕ) : Prop :=
  match T.findSlot fun t => t.pid = wrap32 a0 with
  | none => newDp a1 ≤ 0
  | some i =>
    if wrap32 a0 = 0 then newDp a1 ≤ (T i).dp ∧ (T i).sp = wrap32 a1 ∧ (T i).rbi = 25
    else newDp a1 > (T i).dp ↔ wrap32 a1 < (T i).sp

theorem Table.findSlot_eq_none {found : Task → Bool} (h : T.findSlot found = none)
    (hi : i < nproc) : found (T i) = false := by
  unfold findSlot at h
  have hall := List.find?_eq_none.mp h i (mem_slots.mpr hi)
  simpa using hall

/-! ## What the call does -/

/-- The caller gives up the CPU. -/
def Table.yielded (T : Table) (me : ℕ) : Table := T.set me (yieldTask (T me))

theorem Table.yielded_apart (T : Table) (me j : ℕ) (state : ProcState) :
    { T.yielded me j with state := state } = { T j with state := state } := by
  unfold yielded
  rw [Table.set_apply]
  split_ifs with h
  · rw [h]
    rfl
  · rfl

/-- The table after the writes to the process in slot `i`. -/
def Table.reset (T : Table) (i a1 : ℕ) : Table := T.set i (setPriorityTask (T i) a1)

theorem Table.reset_state (T : Table) (i a1 j : ℕ) : (T.reset i a1 j).state = (T j).state := by
  unfold reset
  rw [Table.set_apply]
  split_ifs with h
  · rw [h]
    rfl
  · rfl

theorem sysSetPriority_of_some (me a1 : ℕ)
    (h : (T.findSlot fun t => t.pid = wrap32 a0) = some i) :
    sysSetPriority T me a0 a1 =
      (if newDp a1 > (T i).dp then (T.reset i a1).yielded me else T.reset i a1, (T i).sp) := by
  unfold sysSetPriority
  rw [h]
  dsimp only
  split_ifs <;> rfl

theorem sysSetPriority_of_none (me a1 : ℕ)
    (h : (T.findSlot fun t => t.pid = wrap32 a0) = none) :
    sysSetPriority T me a0 a1 = (if newDp a1 > 0 then T.yielded me else T, 50) := by
  unfold sysSetPriority
  rw [h]
  dsimp only
  split_ifs <;> rfl

/-- Yielding is visible in the state of the caller. -/
theorem yielded_iff {c : Prop} [Decidable c] (hme : (T me).state = .running) :
    ((if c then T.yielded me else T) me).state = .runnable ↔ c := by
  split_ifs with h
  · simp [Table.yielded, yieldTask, h]
  · simp [hme, h]

theorem if_yielded_apart {c : Prop} [Decidable c] (T : Table) (me j : ℕ) (state : ProcState) :
    { (if c then T.yielded me else T) j with state := state } = { T j with state := state } := by
  split_ifs
  · exact Table.yielded_apart T me j state
  · rfl

theorem sysSetPriority_yields (a1 : ℕ) (hme : (T me).state = .running)
    (h : (T.findSlot fun t => t.pid = wrap32 a0) = some i) :
    ((sysSetPriority T me a0 a1).1 me).state = .runnable ↔ newDp a1 > (T i).dp := by
  rw [sysSetPriority_of_some me a1 h]
  exact yielded_iff (by rw [Table.reset_state, hme])

/-- Where the comparisons agree, the process that the loop finds is served. -/
theorem served_of_found (hme : (T me).state = .running)
    (hfind : (T.findSlot fun t => t.pid = wrap32 a0) = some i)
    (h : newDp a1 > (T i).dp ↔ wrap32 a1 < (T i).sp) :
    Served T me i (wrap32 a1) (sysSetPriority T me a0 a1) := by
  have hyields := sysSetPriority_yields a1 hme hfind
  rw [sysSetPriority_of_some me a1 hfind] at hyields ⊢
  refine ⟨rfl, ?_, fun j hj => ?_, fun j hj => ?_, hyields.trans h⟩
  · rw [if_yielded_apart]
    unfold Table.reset
    rw [Table.set_self]
    rfl
  · rw [if_yielded_apart]
    unfold Table.reset
    rw [Table.set_of_ne _ _ hj]
  · dsimp only
    rw [← Table.reset_state T i a1 j]
    split_ifs
    · exact congrArg Task.state (Table.set_of_ne _ _ hj)
    · rfl

/-- Whichever process the call serves, the comparisons agree on the one the loop finds. -/
theorem agree_of_served (hme : (T me).state = .running)
    (hfind : (T.findSlot fun t => t.pid = wrap32 a0) = some i)
    (h : Served T me j (wrap32 a1) (sysSetPriority T me a0 a1)) :
    newDp a1 > (T i).dp ↔ wrap32 a1 < (T i).sp := by
  rw [← sysSetPriority_yields a1 hme hfind, h.yields]
  rcases eq_or_ne i j with rfl | hne
  · rfl
  · -- two processes have the pid, and both already had the new priority
    have hsp : (T i).sp = wrap32 a1 := by
      rw [← h.others i hne, sysSetPriority_of_some me a1 hfind]
      have happart := congrArg Task.sp
        (if_yielded_apart (c := newDp a1 > (T i).dp) (T.reset i a1) me i (T i).state)
      refine happart.trans ?_
      unfold Table.reset
      rw [Table.set_self]
      rfl
    have hsame : (T i).sp = (T j).sp := by
      rw [← h.returns, sysSetPriority_of_some me a1 hfind]
    rw [hsame]

/-- For a pid that no process has, the call must leave the table alone. -/
theorem meetsContract_of_not_holds (h : ¬ ∃ i, T.Holds (wrap32 a0) i) :
    MeetsContract T me a0 a1 ↔ (sysSetPriority T me a0 a1).1 = T := by
  unfold MeetsContract
  constructor
  · rintro (⟨i, hi, -⟩ | ⟨-, hsame⟩)
    · exact absurd ⟨i, hi⟩ h
    · exact hsame
  · exact fun hsame => .inr ⟨h, hsame⟩

theorem if_yielded_eq_iff {c : Prop} [Decidable c] (hme : (T me).state = .running) :
    (if c then T.yielded me else T) = T ↔ ¬ c := by
  constructor
  · intro hsame hc
    have hstate := (yielded_iff (c := c) hme).mpr hc
    rw [hsame, hme] at hstate
    cases hstate
  · exact fun hc => if_neg hc

/-- `set_priority` meets its contract exactly where the two comparisons agree. -/
theorem set_priority_contract_iff (T : Table) (me a0 a1 : ℕ) (hme : (T me).state = .running) :
    MeetsContract T me a0 a1 ↔ ComparisonsAgree T a0 a1 := by
  unfold ComparisonsAgree
  cases hfind : T.findSlot fun t => t.pid = wrap32 a0 with
  | none =>
    have hnone : ¬ ∃ i, T.Holds (wrap32 a0) i := by
      rintro ⟨i, hi, hpid, -⟩
      have hno := Table.findSlot_eq_none hfind hi
      simp [hpid] at hno
    rw [meetsContract_of_not_holds hnone, sysSetPriority_of_none me a1 hfind]
    rw [if_yielded_eq_iff hme, not_lt]
  | some i =>
    obtain ⟨hi, hpid⟩ := Table.findSlot_eq_some hfind
    have hpid : (T i).pid = wrap32 a0 := of_decide_eq_true hpid
    dsimp only
    split_ifs with hzero
    · have hnone : ¬ ∃ i, T.Holds (wrap32 a0) i := fun ⟨_, _, _, hne⟩ => hne hzero
      rw [meetsContract_of_not_holds hnone]
      constructor
      · intro hsame
        have hyields := sysSetPriority_yields a1 hme hfind
        have hself := congrArg (fun T' : Table => { T' i with state := (T i).state }) hsame
        rw [sysSetPriority_of_some me a1 hfind] at hself
        dsimp only at hself
        rw [if_yielded_apart] at hself
        unfold Table.reset at hself
        rw [Table.set_self] at hself
        rw [hsame, hme] at hyields
        refine ⟨not_lt.mp fun hlt => ?_, (congrArg Task.sp hself).symm,
          (congrArg Task.rbi hself).symm⟩
        exact absurd (hyields.mpr hlt) (by decide)
      · rintro ⟨hdp, hsp, hrbi⟩
        rw [sysSetPriority_of_some me a1 hfind]
        dsimp only
        rw [if_neg (not_lt.mpr hdp)]
        have hself : setPriorityTask (T i) a1 = T i := by
          unfold setPriorityTask
          rw [← hsp, ← hrbi]
        unfold Table.reset
        rw [hself]
        exact Function.update_eq_self i T
    · constructor
      · rintro (⟨j, -, hserved⟩ | ⟨hnone, -⟩)
        · exact agree_of_served hme hfind hserved
        · exact absurd ⟨i, hi, hpid, hzero⟩ hnone
      · exact fun hagree => .inl ⟨i, ⟨hi, hpid, hzero⟩, served_of_found hme hfind hagree⟩

/-- The first process as `allocproc` leaves it, on a CPU. -/
def onlyInit : Table := Table.set (fun _ => {}) 0 { allocTask {} 1 0 with state := .running }

theorem onlyInit_found : (onlyInit.findSlot fun t => t.pid = wrap32 (1 : ℕ)) = some 0 := by
  decide +kernel

/-- Giving a new process the priority it has changes nothing and reschedules nothing. -/
theorem set_priority_contract_of_same : MeetsContract onlyInit 0 1 50 := by
  apply (set_priority_contract_iff onlyInit 0 1 50 (by decide)).mpr
  unfold ComparisonsAgree
  rw [onlyInit_found]
  decide +kernel

/-- Raising the priority of a new process from 50 to 40 does not reschedule. -/
theorem set_priority_breaks_contract :
    ¬ ∀ (T : Table) (me a0 a1 : ℕ), me < nproc → (T me).state = .running →
      MeetsContract T me a0 a1 := by
  intro h
  rcases h onlyInit 0 1 40 (by decide) (by decide) with ⟨j, -, hserved⟩ | ⟨hnone, -⟩
  · have hagree := agree_of_served (by decide) onlyInit_found hserved
    revert hagree
    decide +kernel
  · exact hnone ⟨0, by decide, by decide +kernel, by decide +kernel⟩

end XV6AndConcurrency.Scheduling
