import XV6AndConcurrency.Foundations.Loops
import XV6AndConcurrency.Scheduling.Tasks

/-!
# One undisturbed pass of the priority scheduler

A pass is one round of the `for (;;)` of `scheduler` compiled with `PBS`, up to the
`swtch` to the chosen process, on a table that nobody else changes meanwhile. The
specification ranks a smaller dynamic priority higher; the first loop of a pass
looks for the largest one.
-/

namespace XV6AndConcurrency.Scheduling

open Foundations

/-! ## The loops -/

/-- One round of the first loop, on the table and the largest priority so far. -/
def evalRound (i _ : ℕ) (r : Table × ℤ) : Table × ℤ :=
  let e := evalSection (r.1 i) r.2
  (r.1.set i e.1, e.2)

/-- First loop: fresh priorities for the runnable processes, and the largest of them. -/
def evalLoop (T : Table) : Table × ℤ := loop evalRound slots (T, 0)

/-- Second loop: the array `arr`. -/
def candidates (T : Table) (max : ℤ) : List ℕ := slots.filter fun i => tied (T i) max

/-- Third loop: the least `no_scheduled` and the index in `arr` where it was found. -/
def leastLoop (T : Table) (arr : List ℕ) (best : ℤ × ℕ) : ℤ × ℕ :=
  loop (fun p i best => leastSection (T p) i best) arr best

/-- Fourth loop: `count_sched`. -/
def countLoop (T : Table) (arr : List ℕ) (noSched : ℤ) : ℕ :=
  arr.countP fun p => counted (T p) noSched

/-- Fifth loop: the array `arr2`. -/
def gatherLoop (T : Table) (arr : List ℕ) (noSched : ℤ) : List ℕ :=
  arr.filter fun p => counted (T p) noSched

/-- Sixth loop: `min_start` and the index in `arr2` where it was found. -/
def earliestLoop (T : Table) (arr2 : List ℕ) (best : ℤ × ℕ) : ℤ × ℕ :=
  loop (fun p i best => earliestSection (T p) i best) arr2 best

/-- The check and the dispatch of the process at an index of a candidate array. -/
def dispatchAt (T : Table) (arr : List ℕ) (ind : ℕ) : Table × Option ℕ :=
  match arr[ind]? with
  | none => (T, none)
  | some p =>
    if (T p).state = .runnable then (T.set p (dispatch (T p)), some p) else (T, none)

/-- The loop over all slots that runs when the second loop stored nothing. -/
def fallbackLoop (T : Table) (max : ℤ) : Table × Option ℕ :=
  match slots.find? fun i => tied (T i) max with
  | none => (T, none)
  | some p => (T.set p (dispatch (T p)), some p)

/-- Everything after the second loop. -/
def choose (T : Table) (max : ℤ) : Table × Option ℕ :=
  match candidates T max with
  | [] => fallbackLoop T max
  | first :: rest =>
    let arr := first :: rest
    let best := leastLoop T arr ((T first).noScheduled, 0)
    let countSched := countLoop T arr best.1
    if countSched = 1 then dispatchAt T arr best.2
    else if countSched > 1 then
      match gatherLoop T arr best.1 with
      | [] => (T, none)
      | first2 :: rest2 =>
        let arr2 := first2 :: rest2
        dispatchAt T arr2 (earliestLoop T arr2 ((T first2).startTime, 0)).2
    else (T, none)

/-- A pass: the table it leaves and the slot it switches to, if any. -/
def pass (T : Table) : Table × Option ℕ :=
  let r := evalLoop T
  choose r.1 r.2

/-! ## What the loops compute -/

/-- A slot holds a process that the scheduler considers. -/
def Table.Runnable (T : Table) (i : ℕ) : Prop := i < nproc ∧ (T i).state = .runnable

instance (T : Table) (i : ℕ) : Decidable (T.Runnable i) := inferInstanceAs (Decidable (_ ∧ _))

/-- The table after the first loop. -/
def evaluated (T : Table) : Table := fun i => if T.Runnable i then evaluate (T i) else T i

variable {T : Table} {max : ℤ} {i p : ℕ}

theorem evaluated_of_runnable (h : T.Runnable i) : evaluated T i = evaluate (T i) := if_pos h

@[simp] theorem evaluated_state (T : Table) (i : ℕ) : (evaluated T i).state = (T i).state := by
  unfold evaluated
  split_ifs <;> simp

/-- The state of the first loop after the slots below `k`. -/
structure EvaluatedBelow (T : Table) (k : ℕ) (r : Table × ℤ) : Prop where
  table : ∀ j, r.1 j = if j < k ∧ (T j).state = .runnable then evaluate (T j) else T j
  nonneg : 0 ≤ r.2
  le : ∀ j < k, (T j).state = .runnable → (evaluate (T j)).dp ≤ r.2
  attained : r.2 = 0 ∨ ∃ j < k, (T j).state = .runnable ∧ (evaluate (T j)).dp = r.2

theorem EvaluatedBelow.step {k : ℕ} {r : Table × ℤ} (h : EvaluatedBelow T k r) :
    EvaluatedBelow T (k + 1) (evalRound k k r) := by
  have hk : r.1 k = T k := by
    rw [h.table, if_neg (by omega)]
  dsimp only [evalRound]
  rw [hk, evalSection_fst, evalSection_snd]
  refine ⟨fun j => ?_, ?_, fun j hj hrun => ?_, ?_⟩
  · rcases eq_or_ne j k with rfl | hj
    · simp
    · have hlt : j < k + 1 ↔ j < k := by omega
      dsimp only
      rw [Table.set_of_ne _ _ hj, h.table]
      simp only [hlt]
  · have := h.nonneg
    dsimp only
    split_ifs <;> omega
  · rcases eq_or_ne j k with rfl | hne
    · dsimp only
      split_ifs with hgt
      · exact le_rfl
      · exact not_lt.mp fun hlt => hgt ⟨hrun, hlt⟩
    · have := h.le j (by omega) hrun
      dsimp only
      split_ifs <;> omega
  · dsimp only
    split_ifs with hgt
    · exact .inr ⟨k, by omega, hgt.1, rfl⟩
    · refine h.attained.imp id ?_
      rintro ⟨j, hj, hrun, hdp⟩
      exact ⟨j, by omega, hrun, hdp⟩

theorem evalLoop_evaluatedBelow (T : Table) : EvaluatedBelow T nproc (evalLoop T) := by
  have hlen : slots.length = nproc := List.length_range
  rw [← hlen]
  refine loop_invariant (EvaluatedBelow T) ⟨fun j => by simp, le_rfl, by simp, .inl rfl⟩ ?_
  intro k a r hget hr
  have ha : a = k := by
    obtain ⟨hlt, rfl⟩ := List.getElem?_eq_some_iff.mp hget
    exact List.getElem_range hlt
  subst ha
  exact hr.step

theorem evalLoop_fst (T : Table) : (evalLoop T).1 = evaluated T := by
  funext j
  exact (evalLoop_evaluatedBelow T).table j

variable {arr : List ℕ} {noSched : ℤ} {best : ℤ × ℕ} {ind : ℕ}

theorem mem_candidates : i ∈ candidates T max ↔ T.Runnable i ∧ (T i).dp = max := by
  simp [candidates, mem_slots, tied, Table.Runnable, and_assoc]

theorem leastLoop_eq (T : Table) (arr : List ℕ) (best : ℤ × ℕ) :
    leastLoop T arr best =
      loop (keepLeast (fun p => (T p).state = .runnable) fun p => (T p).noScheduled) arr best :=
  rfl

/-- The third loop ends at a stored candidate with the least `no_scheduled`. -/
theorem leastLoop_spec (hrun : ∀ p ∈ arr, (T p).state = .runnable) (hfirst : arr[0]? = some i) :
    ∃ p, arr[(leastLoop T arr ((T i).noScheduled, 0)).2]? = some p ∧
      (T p).noScheduled = (leastLoop T arr ((T i).noScheduled, 0)).1 ∧
      ∀ q ∈ arr, (T p).noScheduled ≤ (T q).noScheduled := by
  obtain ⟨p, hget, hkey⟩ : ∃ p, arr[(leastLoop T arr ((T i).noScheduled, 0)).2]? = some p ∧
      (T p).noScheduled = (leastLoop T arr ((T i).noScheduled, 0)).1 := by
    rw [leastLoop_eq]
    rcases loop_keepLeast_attained arr (fun p => (T p).state = .runnable)
      (fun p => (T p).noScheduled) ((T i).noScheduled, 0) with h | ⟨p, hget, -, hkey⟩
    · rw [h]
      exact ⟨i, hfirst, rfl⟩
    · exact ⟨p, hget, hkey⟩
  refine ⟨p, hget, hkey, fun q hq => ?_⟩
  rw [hkey, leastLoop_eq]
  exact (loop_keepLeast_le arr (fun p => (T p).state = .runnable) _ _).2 q hq (hrun q hq)

/-- The sixth loop never leaves `arr2`. -/
theorem earliestLoop_lt (harr : arr ≠ []) (minStart : ℤ) :
    (earliestLoop T arr (minStart, 0)).2 < arr.length := by
  have h : (earliestLoop T arr (minStart, 0)).2 < max 1 arr.length := by
    refine loop_invariant (fun k (b : ℤ × ℕ) => b.2 < max 1 k) (by simp) ?_
    intro k p b _ hb
    unfold earliestSection
    split_ifs
    · exact lt_max_of_lt_right (Nat.lt_succ_self k)
    · exact hb.trans_le (max_le_max le_rfl (Nat.le_succ k))
  have hpos := List.length_pos_iff.mpr harr
  omega

theorem dispatchAt_of_get (hrun : (T p).state = .runnable) (h : arr[ind]? = some p) :
    dispatchAt T arr ind = (T.set p (dispatch (T p)), some p) := by
  unfold dispatchAt
  rw [h]
  exact if_pos hrun

/-- `p` is what the selection makes of `arr`: with the least `no_scheduled` and alone in
that, or the entry of `arr2` that the sixth loop ends at. -/
def Selected (T : Table) (arr : List ℕ) (p : ℕ) : Prop :=
  ∃ noSched, (∀ q ∈ arr, noSched ≤ (T q).noScheduled) ∧ p ∈ gatherLoop T arr noSched ∧
    (gatherLoop T arr noSched = [p] ∨
      ∃ first, (gatherLoop T arr noSched)[0]? = some first ∧
        (gatherLoop T arr noSched)[(earliestLoop T (gatherLoop T arr noSched)
          ((T first).startTime, 0)).2]? = some p)

/-- With a candidate, one of the candidates is selected and dispatched. -/
theorem choose_of_candidate (h : candidates T max ≠ []) :
    ∃ p ∈ candidates T max, Selected T (candidates T max) p ∧
      choose T max = (T.set p (dispatch (T p)), some p) := by
  have hrun : ∀ p ∈ candidates T max, (T p).state = .runnable :=
    fun p hp => (mem_candidates.mp hp).1.2
  cases harr : candidates T max with
  | nil => exact absurd harr h
  | cons first rest =>
    rw [harr] at hrun
    obtain ⟨p, hget, hkey, hleast⟩ := leastLoop_spec hrun (List.getElem?_cons_zero (l := rest))
    have hmem := List.mem_of_getElem? hget
    unfold choose
    rw [harr]
    dsimp only
    generalize leastLoop T (first :: rest) ((T first).noScheduled, 0) = best at hget hkey
    rw [hkey] at hleast
    have hp : p ∈ gatherLoop T (first :: rest) best.1 :=
      List.mem_filter.mpr ⟨hmem, by simp [counted, hrun p hmem, hkey]⟩
    have hcount : countLoop T (first :: rest) best.1 =
        (gatherLoop T (first :: rest) best.1).length := List.countP_eq_length_filter
    have hpos := List.length_pos_of_mem hp
    rw [hcount]
    split_ifs with hone hmany
    · obtain ⟨q, hq⟩ := List.length_eq_one_iff.mp hone
      have hpq : p = q := by
        rw [hq] at hp
        exact List.mem_singleton.mp hp
      exact ⟨p, hmem, ⟨best.1, hleast, hp, .inl (hpq ▸ hq)⟩, dispatchAt_of_get (hrun p hmem) hget⟩
    · cases hgather : gatherLoop T (first :: rest) best.1 with
      | nil => simp [hgather] at hp
      | cons first2 rest2 =>
        obtain ⟨q, hq⟩ : ∃ q, (first2 :: rest2)[(earliestLoop T (first2 :: rest2)
            ((T first2).startTime, 0)).2]? = some q :=
          ⟨_, List.getElem?_eq_getElem (earliestLoop_lt (List.cons_ne_nil first2 rest2) _)⟩
        have hq2 : q ∈ gatherLoop T (first :: rest) best.1 := by
          rw [hgather]
          exact List.mem_of_getElem? hq
        have hq1 : q ∈ first :: rest := (List.mem_filter.mp hq2).1
        refine ⟨q, hq1, ⟨best.1, hleast, hq2, .inr ⟨first2, ?_, ?_⟩⟩,
          dispatchAt_of_get (hrun q hq1) hq⟩
        · rw [hgather]
          rfl
        · rw [hgather]
          exact hq
    · omega

/-- Without a candidate, nothing is dispatched. -/
theorem choose_of_no_candidate (h : candidates T max = []) : choose T max = (T, none) := by
  have hfind : (slots.find? fun i => tied (T i) max) = none := by
    rw [List.find?_eq_none]
    exact fun i hi htied => List.filter_eq_nil_iff.mp h i hi htied
  unfold choose
  rw [h]
  dsimp only [fallbackLoop]
  rw [hfind]

/-! ## The outcome of a pass -/

theorem runnable_evaluated : (evaluated T).Runnable i ↔ T.Runnable i := by
  simp [Table.Runnable]

/-- When some runnable process has a priority of at least zero, the pass dispatches the
selected one of those with the largest. -/
theorem pass_selects (hi : T.Runnable i) (hdp : 0 ≤ (evaluate (T i)).dp) :
    ∃ p, T.Runnable p ∧ 0 ≤ (evaluate (T p)).dp ∧
      (∀ j, T.Runnable j → (evaluate (T j)).dp ≤ (evaluate (T p)).dp) ∧
      Selected (evaluated T) (candidates (evaluated T) (evaluate (T p)).dp) p ∧
      pass T = ((evaluated T).set p (dispatch (evaluate (T p))), some p) := by
  have heval := evalLoop_evaluatedBelow T
  have hle : ∀ j, T.Runnable j → (evaluate (T j)).dp ≤ (evalLoop T).2 :=
    fun j hj => heval.le j hj.1 hj.2
  obtain ⟨j, hj, hjdp⟩ : ∃ j, T.Runnable j ∧ (evaluate (T j)).dp = (evalLoop T).2 := by
    rcases heval.attained with hzero | ⟨j, hlt, hrun, hj⟩
    · exact ⟨i, hi, le_antisymm (hle i hi) (hzero ▸ hdp)⟩
    · exact ⟨j, ⟨hlt, hrun⟩, hj⟩
  have hcand : candidates (evaluated T) (evalLoop T).2 ≠ [] := by
    refine List.ne_nil_of_mem (a := j) (mem_candidates.mpr ⟨runnable_evaluated.mpr hj, ?_⟩)
    rw [evaluated_of_runnable hj]
    exact hjdp
  obtain ⟨p, hp, hsel, hpass⟩ := choose_of_candidate hcand
  obtain ⟨hrun, hpdp⟩ := mem_candidates.mp hp
  rw [runnable_evaluated] at hrun
  rw [evaluated_of_runnable hrun] at hpdp hpass
  refine ⟨p, hrun, hpdp ▸ heval.nonneg, fun k hk => hpdp ▸ hle k hk, hpdp ▸ hsel, ?_⟩
  dsimp only [pass]
  rw [evalLoop_fst]
  exact hpass

theorem pass_dispatches (hi : T.Runnable i) (hdp : 0 ≤ (evaluate (T i)).dp) :
    ∃ p, T.Runnable p ∧ 0 ≤ (evaluate (T p)).dp ∧
      (∀ j, T.Runnable j → (evaluate (T j)).dp ≤ (evaluate (T p)).dp) ∧
      pass T = ((evaluated T).set p (dispatch (evaluate (T p))), some p) := by
  obtain ⟨p, hp, hnonneg, hmax, -, hpass⟩ := pass_selects hi hdp
  exact ⟨p, hp, hnonneg, hmax, hpass⟩

/-- When every runnable process has a negative priority, the pass dispatches nobody. -/
theorem pass_idle (h : ∀ i, T.Runnable i → (evaluate (T i)).dp < 0) :
    pass T = (evaluated T, none) := by
  dsimp only [pass]
  rw [evalLoop_fst]
  apply choose_of_no_candidate
  rw [List.eq_nil_iff_forall_not_mem]
  intro i hi
  obtain ⟨hrun, hdp⟩ := mem_candidates.mp hi
  rw [runnable_evaluated] at hrun
  rw [evaluated_of_runnable hrun] at hdp
  have hneg := h i hrun
  have hnonneg := (evalLoop_evaluatedBelow T).nonneg
  omega

/-! ## The priority order -/

/-- The pass switches to a runnable process that no runnable process outranks. -/
def RunsHighest (T : Table) : Prop :=
  ∃ p, (pass T).2 = some p ∧ T.Runnable p ∧
    ∀ j, T.Runnable j → dynamicPriority (T p) ≤ dynamicPriority (T j)

/-- The processes that the arithmetic of the first loop ranks at all have one priority. -/
def OneRank (T : Table) : Prop :=
  (∃ i, T.Runnable i ∧ SumFits (T i)) ∧
    ∀ i j, T.Runnable i → T.Runnable j → SumFits (T i) → SumFits (T j) →
      dynamicPriority (T i) = dynamicPriority (T j)

/-- Static priorities are in the documented range. -/
def StaticInRange (T : Table) : Prop := ∀ i < nproc, 0 ≤ (T i).sp ∧ (T i).sp ≤ 100

theorem StaticInRange.fits_of_dp_nonneg (hsp : StaticInRange T) (hi : i < nproc)
    (h : 0 ≤ (evaluate (T i)).dp) : SumFits (T i) := by
  by_contra hover
  have hneg := evaluate_dp_of_overflow (hsp i hi).2 hover
  omega

theorem StaticInRange.dp_eq (hsp : StaticInRange T) (hi : i < nproc) (hfits : SumFits (T i)) :
    (evaluate (T i)).dp = dynamicPriority (T i) :=
  evaluate_dp_of_fits (hsp i hi).1 hfits

/-- A pass serves the highest priority exactly when there is only one to serve. -/
theorem pass_runs_highest_iff (T : Table) (hsp : StaticInRange T) :
    RunsHighest T ↔ OneRank T := by
  by_cases hex : ∃ i, T.Runnable i ∧ SumFits (T i)
  · obtain ⟨i, hi, hfits⟩ := hex
    have hdp : 0 ≤ (evaluate (T i)).dp := by
      rw [hsp.dp_eq hi.1 hfits]
      exact dynamicPriority_nonneg (hsp i hi.1).1
    obtain ⟨p, hp, hpdp, hmax, hpass⟩ := pass_dispatches hi hdp
    have hpfits := hsp.fits_of_dp_nonneg hp.1 hpdp
    have hpmax : ∀ j, T.Runnable j → SumFits (T j) →
        dynamicPriority (T j) ≤ dynamicPriority (T p) := by
      intro j hj hjfits
      rw [← hsp.dp_eq hj.1 hjfits, ← hsp.dp_eq hp.1 hpfits]
      exact hmax j hj
    constructor
    · rintro ⟨q, hq, -, hmin⟩
      rw [hpass] at hq
      obtain rfl : p = q := Option.some.inj hq
      have hall : ∀ j, T.Runnable j → SumFits (T j) →
          dynamicPriority (T j) = dynamicPriority (T p) :=
        fun j hj hjfits => le_antisymm (hpmax j hj hjfits) (hmin j hj)
      refine ⟨⟨i, hi, hfits⟩, fun j k hj hk hjfits hkfits => ?_⟩
      rw [hall j hj hjfits, hall k hk hkfits]
    · rintro ⟨-, hsame⟩
      refine ⟨p, by rw [hpass], hp, fun j hj => ?_⟩
      by_cases hjfits : SumFits (T j)
      · exact (hsame p j hp hj hpfits hjfits).le
      · -- an overflowing sum is far above the cap of 100
        have hcap : dynamicPriority (T j) = 100 := by
          unfold SumFits at hjfits
          unfold dynamicPriority
          omega
        rw [hcap]
        exact min_le_right _ _
  · constructor
    · rintro ⟨p, hp, -⟩
      have hidle := pass_idle (T := T) fun i hi =>
        evaluate_dp_of_overflow (hsp i hi.1).2 fun hfits => hex ⟨i, hi, hfits⟩
      rw [hidle] at hp
      exact absurd hp (by simp)
    · exact fun h => absurd h.1 hex

/-- Two processes that wait with fresh counters, one of each end of the scale. -/
def twoWaiting : Table := fun i =>
  if i = 0 then { state := .runnable, pid := 1, sp := 10 }
  else if i = 1 then { state := .runnable, pid := 2, sp := 90 } else {}

theorem twoWaiting_other (hi : i ≠ 0) (hi' : i ≠ 1) : twoWaiting i = {} := by
  simp [twoWaiting, hi, hi']

theorem twoWaiting_inRange : StaticInRange twoWaiting := by
  intro i _
  rcases eq_or_ne i 0 with rfl | h0
  · decide
  · rcases eq_or_ne i 1 with rfl | h1
    · decide
    · rw [twoWaiting_other h0 h1]
      decide

theorem runnable_twoWaiting : twoWaiting.Runnable i → i = 0 ∨ i = 1 := by
  intro h
  by_contra hne
  rw [not_or] at hne
  have hstate := h.2
  rw [twoWaiting_other hne.1 hne.2] at hstate
  exact absurd hstate (by decide)

/-- Two processes of the default priority. -/
def twoEqual : Table := fun i => if i < 2 then { state := .runnable, sp := 50 } else {}

theorem runnable_twoEqual (h : twoEqual.Runnable i) : i < 2 := by
  by_contra hge
  have hstate := h.2
  rw [twoEqual, if_neg hge] at hstate
  exact absurd hstate (by decide)

/-- Of two equal priorities either one will do. -/
theorem pass_runs_highest_of_equal : RunsHighest twoEqual := by
  refine (pass_runs_highest_iff _ ?_).mpr ⟨⟨0, by decide, by decide +kernel⟩, ?_⟩
  · intro i _
    unfold twoEqual
    split_ifs <;> decide
  · intro i j hi hj _ _
    unfold twoEqual
    rw [if_pos (runnable_twoEqual hi), if_pos (runnable_twoEqual hj)]

/-- The process with priority 90 runs although one with priority 10 waits. -/
theorem pass_runs_lowest :
    ¬ ∀ T : Table, StaticInRange T → (∃ i, T.Runnable i) → RunsHighest T := by
  intro h
  obtain ⟨q, hq, -, hmin⟩ := h twoWaiting twoWaiting_inRange ⟨0, by decide⟩
  have h1 : twoWaiting.Runnable 1 := by decide
  obtain ⟨p, hp, -, hmax, hpass⟩ := pass_dispatches h1 (by decide +kernel)
  rw [hpass] at hq
  obtain rfl : p = q := Option.some.inj hq
  have hle := hmin 0 (by decide)
  have hge := hmax 1 h1
  rcases runnable_twoWaiting hp with rfl | rfl
  · exact absurd hge (by decide +kernel)
  · exact absurd hle (by decide +kernel)

end XV6AndConcurrency.Scheduling
