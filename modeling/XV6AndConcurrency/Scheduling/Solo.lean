import XV6AndConcurrency.Scheduling.Machine

/-!
# A CPU that is left alone

While no other CPU moves, the small steps of a scheduler add up to the loops of a pass:
the machine refines the pass.
-/

namespace XV6AndConcurrency.Scheduling

open Foundations

/-- What a CPU reaches by steps of its own scheduler only. -/
def Solo (policy : Policy) : Table × Pc → Table × Pc → Prop :=
  Reach fun (s : Table × Pc) (_ : Unit) => schedStep policy s.1 s.2

variable {policy : Policy} {T T' : Table} {pc pc' : Pc} {arr : List ℕ} {max : ℤ} {i p : ℕ}

theorem Solo.step {r r' : Table × Pc} (h : schedStep policy r.1 r.2 = some r') :
    Solo policy r r' :=
  ReachOf.single (a := ()) trivial h

/-- Steps of one CPU are steps of the machine. -/
theorem Solo.reach {ok : Machine → Action → Prop} {M : Machine} {c : ℕ} {r r' : Table × Pc}
    (hok : ∀ r₁, Solo policy r r₁ → ok (M.set c r₁) (.sched c)) (h : Solo policy r r') :
    ReachOf (Machine.step policy) ok (M.set c r) (M.set c r') := by
  induction h with
  | refl => exact ReachOf.refl _
  | @tail r₁ r₂ hsolo hlast ih =>
    obtain ⟨_, _, hstep⟩ := hlast
    refine ih.trans (ReachOf.single (a := .sched c) (hok r₁ hsolo) ?_)
    dsimp only at hstep
    simp [Machine.step, Machine.set, hstep]

@[simp] theorem Machine.set_cpus_self (M : Machine) (c : ℕ) (r : Table × Pc) :
    (M.set c r).cpus c = r.2 := by
  unfold Machine.set
  exact Function.update_self _ _ _

theorem Machine.set_self {M : Machine} {c : ℕ} (h : M.cpus c = pc) :
    M.set c (M.table, pc) = M := by
  subst h
  simp [Machine.set]

/-- Steps of one CPU from where it is. -/
theorem Solo.reach_from {M : Machine} {c : ℕ} {r : Table × Pc} (hpc : M.cpus c = pc)
    (h : Solo policy (M.table, pc) r) : Reach (Machine.step policy) M (M.set c r) := by
  have hreach : ReachOf (Machine.step policy) (fun _ _ => True) (M.set c (M.table, pc))
      (M.set c r) := Solo.reach (fun _ _ => trivial) h
  rw [Machine.set_self hpc] at hreach
  exact hreach

section Loops

variable (policy T)

theorem slots_getElem? (hi : i < nproc) : slots[i]? = some i := by
  rw [slots, List.getElem?_range hi]

theorem solo_eval :
    Solo policy (T, .eval 0 0) ((evalLoop T).1, .tie 0 (evalLoop T).2 []) := by
  have hround : ∀ k < nproc, Solo policy
      ((loop evalRound (slots.take k) (T, 0)).1, .eval k (loop evalRound (slots.take k) (T, 0)).2)
      ((loop evalRound (slots.take (k + 1)) (T, 0)).1,
        .eval (k + 1) (loop evalRound (slots.take (k + 1)) (T, 0)).2) := by
    intro k hk
    apply Solo.step
    rw [loop_take_succ (slots_getElem? hk)]
    simp [schedStep, evalRound, hk]
  have hloop := ReachOf.iterate hround
  have hall : slots.take nproc = slots := List.take_of_length_le (by simp [slots])
  rw [hall] at hloop
  refine hloop.trans (Solo.step ?_)
  simp [schedStep, evalLoop]

theorem solo_tie (max : ℤ) :
    Solo policy (T, .tie 0 max [])
      (T, if candidates T max = [] then .fallback 0 max else .first (candidates T max)) := by
  have hround : ∀ k < nproc, Solo policy
      (T, .tie k max ((slots.take k).filter fun i => tied (T i) max))
      (T, .tie (k + 1) max ((slots.take (k + 1)).filter fun i => tied (T i) max)) := by
    intro k hk
    apply Solo.step
    have hsucc : slots.take (k + 1) = slots.take k ++ [k] := by
      rw [List.take_add_one, slots_getElem? hk]
      rfl
    rw [hsucc, List.filter_append]
    by_cases htied : tied (T k) max = true
    · simp [schedStep, hk, htied]
    · simp [schedStep, hk, htied]
  have hloop := ReachOf.iterate hround
  have hall : slots.take nproc = slots := List.take_of_length_le (by simp [slots])
  rw [hall] at hloop
  refine hloop.trans (Solo.step ?_)
  simp only [schedStep, lt_irrefl, if_false]
  change (if candidates T max = [] then _ else _) = _
  split_ifs with h <;> rfl

theorem solo_least (arr : List ℕ) (best : ℤ × ℕ) :
    Solo policy (T, .least arr 0 best) (T, .counting arr (leastLoop T arr best) 0 0) := by
  have hround : ∀ k < arr.length, Solo policy
      (T, .least arr k (leastLoop T (arr.take k) best))
      (T, .least arr (k + 1) (leastLoop T (arr.take (k + 1)) best)) := by
    intro k hk
    apply Solo.step
    have hget := List.getElem?_eq_getElem hk
    simp only [schedStep, hget, leastLoop]
    rw [loop_take_succ hget]
  have hloop := ReachOf.iterate hround
  rw [List.take_length] at hloop
  exact hloop.trans (Solo.step (by simp [schedStep]))

theorem solo_counting (arr : List ℕ) (best : ℤ × ℕ) :
    Solo policy (T, .counting arr best 0 0)
      (T, if countLoop T arr best.1 = 1 then .pick arr best.2
        else if countLoop T arr best.1 > 1 then .gather arr best.1 0 []
        else policy.head) := by
  have hround : ∀ k < arr.length, Solo policy
      (T, .counting arr best k (countLoop T (arr.take k) best.1))
      (T, .counting arr best (k + 1) (countLoop T (arr.take (k + 1)) best.1)) := by
    intro k hk
    apply Solo.step
    have hget := List.getElem?_eq_getElem hk
    simp only [schedStep, hget, countLoop, List.take_succ_eq_append_getElem hk,
      List.countP_append, List.countP_singleton]
    split_ifs <;> rfl
  have hloop := ReachOf.iterate hround
  rw [List.take_length] at hloop
  refine hloop.trans (Solo.step ?_)
  simp only [schedStep, List.getElem?_eq_none le_rfl]
  split_ifs <;> rfl

theorem solo_gather (arr : List ℕ) (noSched : ℤ) :
    Solo policy (T, .gather arr noSched 0 []) (T, .readStart (gatherLoop T arr noSched)) := by
  have hround : ∀ k < arr.length, Solo policy
      (T, .gather arr noSched k (gatherLoop T (arr.take k) noSched))
      (T, .gather arr noSched (k + 1) (gatherLoop T (arr.take (k + 1)) noSched)) := by
    intro k hk
    apply Solo.step
    have hget := List.getElem?_eq_getElem hk
    simp only [schedStep, hget, gatherLoop, List.take_succ_eq_append_getElem hk,
      List.filter_append]
    by_cases hcounted : counted (T arr[k]) noSched = true
    · simp [hcounted]
    · simp [hcounted]
  have hloop := ReachOf.iterate hround
  rw [List.take_length] at hloop
  exact hloop.trans (Solo.step (by simp [schedStep]))

theorem solo_earliest (arr2 : List ℕ) (best : ℤ × ℕ) :
    Solo policy (T, .earliest arr2 0 best) (T, .pick2 arr2 (earliestLoop T arr2 best).2) := by
  have hround : ∀ k < arr2.length, Solo policy
      (T, .earliest arr2 k (earliestLoop T (arr2.take k) best))
      (T, .earliest arr2 (k + 1) (earliestLoop T (arr2.take (k + 1)) best)) := by
    intro k hk
    apply Solo.step
    have hget := List.getElem?_eq_getElem hk
    simp only [schedStep, hget, earliestLoop]
    rw [loop_take_succ hget]
  have hloop := ReachOf.iterate hround
  rw [List.take_length] at hloop
  exact hloop.trans (Solo.step (by simp [schedStep]))

end Loops

/-! ## A whole pass -/

/-- What `swtch` adds to the table that a pass leaves. -/
def switched (T : Table) (p : ℕ) : Table := T.set p (tidyTask (T p))

/-- Up to the point where the tied processes are known. -/
theorem solo_first (T : Table) (harr : candidates (evaluated T) (evalLoop T).2 = i :: arr) :
    Solo .pbs (T, Policy.pbs.head)
      (evaluated T, .least (i :: arr) 0 ((evaluated T i).noScheduled, 0)) := by
  have heval := solo_eval .pbs T
  rw [evalLoop_fst] at heval
  have htie := solo_tie .pbs (evaluated T) (evalLoop T).2
  rw [if_neg (by rw [harr]; exact List.cons_ne_nil _ _), harr] at htie
  exact (heval.trans htie).trans (Solo.step rfl)

/-- The step at a chosen entry does what a pass does there. -/
theorem pickStep_of_dispatchAt {ind : ℕ} (back : Pc) (h : dispatchAt T arr ind = (T', some p)) :
    pickStep T arr ind back = (switched T' p, .running p back) := by
  unfold dispatchAt at h
  cases hget : arr[ind]? with
  | none => simp [hget] at h
  | some q =>
    simp only [hget] at h
    split_ifs at h with hrun
    · obtain ⟨rfl, hq⟩ := Prod.mk.inj h
      obtain rfl := Option.some.inj hq
      simp [pickStep, hget, hrun, switchTo, switched, Table.set]
    · exact absurd (Prod.mk.inj h).2 (by simp)

/-- A CPU that is left alone dispatches what the pass dispatches. -/
theorem solo_pass (h : pass T = (T', some p)) :
    Solo .pbs (T, Policy.pbs.head) (switched T' p, .running p Policy.pbs.head) := by
  dsimp only [pass] at h
  rw [evalLoop_fst] at h
  cases harr : candidates (evaluated T) (evalLoop T).2 with
  | nil =>
    rw [choose_of_no_candidate harr] at h
    exact absurd (Prod.mk.inj h).2 (by simp)
  | cons first rest =>
    have hleast := (solo_first T harr).trans (solo_least .pbs (evaluated T) (first :: rest)
      ((evaluated T first).noScheduled, 0))
    have hcount := hleast.trans (solo_counting .pbs (evaluated T) (first :: rest) _)
    simp only [choose, harr] at h
    split_ifs at h with hone hmany
    · rw [if_pos hone] at hcount
      exact hcount.trans (Solo.step (congrArg some (pickStep_of_dispatchAt _ h)))
    · rw [if_neg hone, if_pos hmany] at hcount
      have hgather := hcount.trans (solo_gather .pbs (evaluated T) (first :: rest) _)
      split at h
      · exact absurd (Prod.mk.inj h).2 (by simp)
      · rename_i first2 rest2 heq
        rw [heq] at hgather
        have hstart := hgather.trans (Solo.step rfl)
        exact (hstart.trans (solo_earliest .pbs (evaluated T) (first2 :: rest2) _)).trans
          (Solo.step (congrArg some (pickStep_of_dispatchAt _ h)))
    · exact absurd (Prod.mk.inj h).2 (by simp)

/-- With a runnable process of non-negative priority, a CPU that is left alone switches
to a runnable process and changes the state of no other. -/
theorem solo_dispatches (hi : T.Runnable i) (hdp : 0 ≤ (evaluate (T i)).dp) :
    ∃ p T', T.Runnable p ∧ Solo .pbs (T, Policy.pbs.head) (T', .running p Policy.pbs.head) ∧
      (T' p).state = .running ∧ ∀ j, j ≠ p → T' j = evaluated T j := by
  obtain ⟨p, hp, -, -, hpass⟩ := pass_dispatches hi hdp
  refine ⟨p, _, hp, solo_pass hpass, ?_, fun j hj => ?_⟩
  · simp [switched, tidyTask, dispatch]
  · rw [switched, Table.set_of_ne _ _ hj, Table.set_of_ne _ _ hj]

end XV6AndConcurrency.Scheduling
