import Mathlib.Data.List.TakeWhile
import Mathlib.Data.List.DropRight
import Mathlib.Tactic

/-!
# Maximal runs

The maximal runs of the entries of a list that are no separators, in order.
-/

namespace XV6AndConcurrency.Foundations

variable {α : Type*}

/-- The maximal runs without an entry that satisfies `p`. -/
def runs (p : α → Bool) (l : List α) : List (List α) := (l.splitOnP p).filter (· ≠ [])

variable {p : α → Bool} {l r : List α} {a : α}

@[simp] theorem runs_nil (p : α → Bool) : runs p [] = [] := by simp [runs]

theorem runs_append_cons (l r : List α) (ha : p a = true) :
    runs p (l ++ a :: r) = runs p l ++ runs p r := by
  unfold runs
  rw [List.splitOnP_append_cons l r ha, List.filter_append]

/-- A separator in front belongs to no run. -/
theorem runs_cons (ha : p a = true) : runs p (a :: l) = runs p l := by
  simpa using runs_append_cons [] l ha

theorem runs_dropWhile (p : α → Bool) (l : List α) : runs p (l.dropWhile p) = runs p l := by
  induction l with
  | nil => rfl
  | cons a l ih =>
    by_cases ha : p a = true
    · rw [List.dropWhile_cons_of_pos ha, ih, runs_cons ha]
    · rw [List.dropWhile_cons_of_neg ha]

theorem runs_of_forall (hl : l ≠ []) (h : ∀ a ∈ l, p a = false) : runs p l = [l] := by
  unfold runs
  rw [List.splitOnP_eq_singleton h]
  simp [hl]

/-- A list that does not begin with a separator begins with a run. -/
theorem takeWhile_ne_nil (hhead : l.dropWhile p = l) (hl : l ≠ []) :
    l.takeWhile (fun a => !p a) ≠ [] := by
  cases l with
  | nil => exact absurd rfl hl
  | cons a l =>
    have ha : p a = false := by
      by_contra ha
      have hlen := congrArg List.length hhead
      rw [List.dropWhile_cons_of_pos (by simpa using ha), List.length_cons] at hlen
      have hle := (List.dropWhile_sublist p (l := l)).length_le
      omega
    simp [ha]

theorem length_rest_lt (hhead : l.dropWhile p = l) (hl : l ≠ []) :
    (l.dropWhile fun a => !p a).length < l.length := by
  have hsplit := congrArg List.length
    (List.takeWhile_append_dropWhile (p := fun a => !p a) (l := l))
  have hpos := List.length_pos_iff.mpr (takeWhile_ne_nil hhead hl)
  rw [List.length_append] at hsplit
  omega

/-- What the head and the rest of the runs are. -/
theorem runs_eq_cons (hhead : l.dropWhile p = l) (hl : l ≠ []) :
    runs p l = l.takeWhile (fun a => !p a) :: runs p (l.dropWhile fun a => !p a) := by
  have hrun := takeWhile_ne_nil hhead hl
  have hfree : ∀ a ∈ l.takeWhile (fun a => !p a), p a = false := by
    intro a ha
    simpa using List.mem_takeWhile_imp ha
  have hsplit := List.takeWhile_append_dropWhile (p := fun a => !p a) (l := l)
  rcases hrest : l.dropWhile (fun a => !p a) with _ | ⟨a, rest⟩
  · rw [hrest, List.append_nil] at hsplit
    rw [runs_nil, hsplit]
    rw [hsplit] at hrun hfree
    exact runs_of_forall hl hfree
  · have ha : p a = true := by
      have h := List.head_dropWhile_not (p := fun a => !p a) (l := l) (by simp [hrest])
      simpa [hrest] using h
    conv_lhs => rw [← hsplit, hrest, runs_append_cons _ _ ha, runs_of_forall hrun hfree]
    rw [runs_cons ha]
    rfl

theorem runs_eq_nil : runs p l = [] ↔ l.dropWhile p = [] := by
  rw [← runs_dropWhile]
  constructor
  · intro h
    by_contra hne
    rw [runs_eq_cons (by rw [List.dropWhile_idempotent]) hne] at h
    exact List.cons_ne_nil _ _ h
  · intro h
    rw [h, runs_nil]

/-- A run is not empty, and has entries of the list that are no separators. -/
theorem mem_runs (h : r ∈ runs p l) : r ≠ [] ∧ ∀ a ∈ r, p a = false ∧ a ∈ l := by
  induction hlen : l.length using Nat.strong_induction_on generalizing l with
  | h n ih =>
    rw [← runs_dropWhile] at h
    by_cases hnil : l.dropWhile p = []
    · rw [hnil, runs_nil] at h
      exact absurd h List.not_mem_nil
    rw [runs_eq_cons (List.dropWhile_idempotent ..) hnil] at h
    set l' := l.dropWhile p with hl'
    have hsub : ∀ a ∈ l', a ∈ l := fun a ha => (List.dropWhile_sublist p).subset ha
    have hle : l'.length ≤ l.length := (List.dropWhile_sublist p).length_le
    rcases List.mem_cons.mp h with rfl | hrest
    · refine ⟨takeWhile_ne_nil (List.dropWhile_idempotent ..) hnil, fun a ha => ?_⟩
      exact ⟨by simpa using List.mem_takeWhile_imp ha,
        hsub a ((List.takeWhile_sublist _).subset ha)⟩
    · have hlt : (l'.dropWhile fun a => !p a).length < l'.length :=
        length_rest_lt (List.dropWhile_idempotent ..) hnil
      obtain ⟨hne, hmem⟩ := ih _ (by omega) hrest rfl
      exact ⟨hne, fun a ha => ⟨(hmem a ha).1,
        hsub a ((List.dropWhile_sublist _).subset (hmem a ha).2)⟩⟩

end XV6AndConcurrency.Foundations
