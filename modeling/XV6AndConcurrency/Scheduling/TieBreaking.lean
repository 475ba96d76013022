import XV6AndConcurrency.Scheduling.Pass

/-!
# How a pass breaks ties

Among the processes with the largest value, the pass takes the one that was scheduled
least often, then the one created first, then the one in the lowest slot.
-/

namespace XV6AndConcurrency.Scheduling

open Foundations

variable {T : Table} {max : ℤ} {p q : ℕ}

/-- Fewer times scheduled, else created earlier, else in a slot that is not higher. -/
def Precedes (T : Table) (p q : ℕ) : Prop :=
  (T p).noScheduled < (T q).noScheduled ∨
    (T p).noScheduled = (T q).noScheduled ∧
      ((T p).ctime < (T q).ctime ∨ (T p).ctime = (T q).ctime ∧ p ≤ q)

theorem Precedes.refl (T : Table) (p : ℕ) : Precedes T p p := .inr ⟨rfl, .inr ⟨rfl, le_rfl⟩⟩

/-- The two copies of the creation time agree, as `allocproc` leaves them. -/
def StartsAtCreation (T : Table) : Prop :=
  ∀ i, T.Runnable i → (T i).ctime < 4294967296 ∧ (T i).startTime = wrap32 (T i).ctime

theorem toUint_wrap32 {n : ℕ} (h : n < 4294967296) : toUint (wrap32 n) = n := by
  unfold toUint
  rw [wrap32_emod]
  omega

/-- The `int` in the loop's variable is the narrowed creation time. -/
def Narrowed (best : ℤ × ℕ) (best' : ℕ × ℕ) : Prop :=
  best'.1 < 4294967296 ∧ best = (wrap32 best'.1, best'.2)

/-- The sixth loop searches for the least creation time. -/
theorem earliestLoop_eq {arr : List ℕ} (hctime : ∀ p ∈ arr, (T p).ctime < 4294967296) {first : ℕ}
    (hfirst : first ∈ arr) :
    earliestLoop T arr (wrap32 (T first).ctime, 0) =
      let best := loop (keepLeast (fun p => (T p).state = .runnable) fun p => (T p).ctime) arr
        ((T first).ctime, 0)
      (wrap32 best.1, best.2) := by
  unfold earliestLoop
  have h : Narrowed (loop (fun p i best => earliestSection (T p) i best) arr
      (wrap32 (T first).ctime, 0))
    (loop (keepLeast (fun p => (T p).state = .runnable) fun p => (T p).ctime) arr
      ((T first).ctime, 0)) := loop_rel _ ⟨hctime first hfirst, rfl⟩ ?_
  · exact h.2
  · intro p hp i b c hbc
    obtain ⟨hlt, rfl⟩ := hbc
    unfold earliestSection keepLeast
    dsimp only
    rw [toUint_wrap32 hlt]
    split_ifs
    · exact ⟨hctime p hp, rfl⟩
    · exact ⟨hlt, rfl⟩

/-- The entry that the sixth loop ends at precedes every entry of `arr2`. -/
theorem earliestLoop_spec {arr : List ℕ} {first : ℕ} {noSched : ℤ} (hsorted : arr.Pairwise (· < ·))
    (hrun : ∀ p ∈ arr, (T p).state = .runnable) (hsched : ∀ p ∈ arr, (T p).noScheduled = noSched)
    (hctime : ∀ p ∈ arr, (T p).ctime < 4294967296) (hfirst : arr[0]? = some first) 
    (hget : arr[(earliestLoop T arr (wrap32 (T first).ctime, 0)).2]? = some p) (hq : q ∈ arr) :
    Precedes T p q := by
  rw [earliestLoop_eq hctime (List.mem_of_getElem? hfirst)] at hget
  obtain ⟨a, ha, -, hall⟩ := loop_keepLeast_first (fun p => (T p).state = .runnable)
    (fun p => (T p).ctime) hrun hfirst
  obtain rfl : a = p := Option.some.inj (ha.symm.trans hget)
  obtain ⟨j, hj⟩ := List.mem_iff_getElem?.mp hq
  obtain ⟨hle, hlt⟩ := hall j q hj
  right
  refine ⟨by rw [hsched a (List.mem_of_getElem? ha), hsched q hq], ?_⟩
  rcases hle.lt_or_eq with hless | hsame
  · exact .inl hless
  · refine .inr ⟨hsame, ?_⟩
    -- an entry before `a` would have a later creation time
    have hindex := not_lt.mp fun hbefore => (hlt hbefore).ne hsame
    obtain ⟨ha', rfl⟩ := List.getElem?_eq_some_iff.mp ha
    obtain ⟨hj', rfl⟩ := List.getElem?_eq_some_iff.mp hj
    rcases hindex.eq_or_lt with heq | hlt'
    · simp [heq]
    · exact (List.pairwise_iff_getElem.mp hsorted _ _ ha' hj' hlt').le

theorem candidates_sorted (T : Table) (max : ℤ) : (candidates T max).Pairwise (· < ·) :=
  List.pairwise_lt_range.filter _

/-- The chosen candidate precedes every other one. -/
theorem choose_precedes (hstart : StartsAtCreation T) (h : Selected T (candidates T max) p)
    (hq : q ∈ candidates T max) : Precedes T p q := by
  have hrun : ∀ p ∈ candidates T max, T.Runnable p := fun p hp => (mem_candidates.mp hp).1
  obtain ⟨noSched, hleast, hp, hlast⟩ := h
  have hgather : ∀ q, q ∈ gatherLoop T (candidates T max) noSched ↔
      q ∈ candidates T max ∧ (T q).noScheduled = noSched := by
    intro q
    simp only [gatherLoop, List.mem_filter, counted, Bool.decide_and, Bool.and_eq_true,
      decide_eq_true_eq]
    exact ⟨fun hmem => ⟨hmem.1, hmem.2.2⟩, fun hmem => ⟨hmem.1, (hrun q hmem.1).2, hmem.2⟩⟩
  rcases (hleast q hq).lt_or_eq with hlt | heq
  · left
    rw [((hgather p).mp hp).2]
    exact hlt
  · have hq' := (hgather q).mpr ⟨hq, heq.symm⟩
    rcases hlast with hone | ⟨first, hfirst, hget⟩
    · rw [hone, List.mem_singleton] at hq'
      rw [hq']
      exact Precedes.refl T p
    · have hfirstRun := hrun first ((hgather first).mp (List.mem_of_getElem? hfirst)).1
      rw [(hstart first hfirstRun).2] at hget
      exact earliestLoop_spec ((candidates_sorted T max).filter _)
        (fun q hq => (hrun q ((hgather q).mp hq).1).2) (fun q hq => ((hgather q).mp hq).2)
        (fun q hq => (hstart q (hrun q ((hgather q).mp hq).1)).1) hfirst hget hq'

/-! ## The dispatched process -/

/-- What a pass that switches to `p` has done to the table. -/
structure Dispatches (T : Table) (p : ℕ) : Prop where
  switched : (pass T).2 = some p
  runnable : T.Runnable p
  running : ((pass T).1 p).state = .running
  precedes : ∀ q, T.Runnable q → ((pass T).1 q).dp = ((pass T).1 p).dp → Precedes T p q
  counted : ((pass T).1 p).noScheduled = wrap32 ((T p).noScheduled + 1)
  reset : ((pass T).1 p).runtime = 0 ∧ ((pass T).1 p).stime = 0
  others : ∀ q ≠ p, { (pass T).1 q with rbi := (T q).rbi, dp := (T q).dp } = T q

theorem evaluated_others (T : Table) (q : ℕ) :
    { evaluated T q with rbi := (T q).rbi, dp := (T q).dp } = T q := by
  unfold evaluated
  split_ifs <;> rfl

theorem StartsAtCreation.evaluated (h : StartsAtCreation T) : StartsAtCreation (evaluated T) := by
  intro i hi
  rw [runnable_evaluated] at hi
  rw [evaluated_of_runnable hi]
  exact h i hi

/-- A pass over processes with priorities in range moves exactly one of them from runnable
to running, the first of its priority in the order of precedence. -/
theorem pass_breaks_ties (T : Table) (hrun : ∃ i, T.Runnable i)
    (hdp : ∀ i, T.Runnable i → 0 ≤ (evaluate (T i)).dp ∧ (evaluate (T i)).dp ≤ 100)
    (hstart : StartsAtCreation T) : ∃ p, Dispatches T p := by
  obtain ⟨i, hi⟩ := hrun
  obtain ⟨p, hp, -, -, hsel, hpass⟩ := pass_selects hi (hdp i hi).1
  have hfst : (pass T).1 = (evaluated T).set p (dispatch (evaluate (T p))) := by rw [hpass]
  have hself : (pass T).1 p = dispatch (evaluate (T p)) := by rw [hfst, Table.set_self]
  have hother : ∀ q ≠ p, (pass T).1 q = evaluated T q := by
    intro q hq
    rw [hfst, Table.set_of_ne _ _ hq]
  refine ⟨p, ⟨by rw [hpass], hp, by rw [hself]; rfl, ?_, by rw [hself]; rfl,
    by rw [hself]; exact ⟨rfl, rfl⟩, ?_⟩⟩
  · intro q hq hsame
    rcases eq_or_ne q p with rfl | hne
    · exact Precedes.refl T q
    · have hmem : q ∈ candidates (evaluated T) (evaluate (T p)).dp := by
        rw [hother q hne, hself, evaluated_of_runnable hq] at hsame
        rw [mem_candidates, runnable_evaluated, evaluated_of_runnable hq]
        exact ⟨hq, hsame⟩
      have hprec := choose_precedes hstart.evaluated hsel hmem
      unfold Precedes at hprec ⊢
      rw [evaluated_of_runnable hp, evaluated_of_runnable hq] at hprec
      exact hprec
  · intro q hq
    rw [hother q hq]
    exact evaluated_others T q

/-- Of two processes alike in everything, the one in slot 0 runs. -/
theorem pass_breaks_ties_of_equal : ∃ p, Dispatches twoEqual p := by
  apply pass_breaks_ties
  · exact ⟨0, by decide⟩
  · intro i hi
    unfold twoEqual
    rw [if_pos (runnable_twoEqual hi)]
    decide +kernel
  · intro i hi
    unfold twoEqual
    rw [if_pos (runnable_twoEqual hi)]
    decide +kernel

end XV6AndConcurrency.Scheduling
