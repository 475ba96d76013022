import Mathlib.Tactic

/-!
# Lines

A list is its closed lines, each followed by a terminator, and a last, open line without one.
A reader that keeps the open line can process the list in any pieces.
-/

namespace XV6AndConcurrency.Foundations

variable {α : Type*} [BEq α] [LawfulBEq α]

/-- The lines that a terminator follows. -/
def closedLines (nl : α) (l : List α) : List (List α) := (l.splitOn nl).dropLast

/-- What comes after the last terminator. -/
def openLine (nl : α) (l : List α) : List α := (l.splitOn nl).getLast (by simp)

variable {nl : α} {l r x : List α}

theorem splitOn_of_notMem (h : nl ∉ l) : l.splitOn nl = [l] := by
  rw [List.splitOn_eq_splitOnP]
  apply List.splitOnP_eq_singleton
  intro a ha
  have hne : a ≠ nl := fun heq => h (heq ▸ ha)
  simpa using hne

theorem splitOn_append_cons (h : nl ∉ x) (l : List α) :
    (x ++ nl :: l).splitOn nl = x :: l.splitOn nl := by
  rw [List.splitOn_eq_splitOnP, List.splitOnP_append_cons _ _ (by simp),
    ← List.splitOn_eq_splitOnP, ← List.splitOn_eq_splitOnP, splitOn_of_notMem h]
  rfl

theorem closedLines_of_notMem (h : nl ∉ l) : closedLines nl l = [] := by
  rw [closedLines, splitOn_of_notMem h]
  rfl

theorem openLine_of_notMem (h : nl ∉ l) : openLine nl l = l := by
  simp only [openLine, splitOn_of_notMem h, List.getLast_singleton]

theorem closedLines_append_cons (h : nl ∉ x) (l : List α) :
    closedLines nl (x ++ nl :: l) = x :: closedLines nl l := by
  rw [closedLines, splitOn_append_cons h, List.dropLast_cons_of_ne_nil (by simp)]
  rfl

theorem openLine_append_cons (h : nl ∉ x) (l : List α) :
    openLine nl (x ++ nl :: l) = openLine nl l := by
  simp only [openLine, splitOn_append_cons h]
  exact List.getLast_cons (by simp)

/-- Line by line from the front. -/
theorem line_induction {P : List α → Prop} (hopen : ∀ l, nl ∉ l → P l)
    (hline : ∀ x l, nl ∉ x → P l → P (x ++ nl :: l)) (l : List α) : P l := by
  induction hlen : l.length using Nat.strong_induction_on generalizing l with
  | h n ih =>
    by_cases hmem : nl ∈ l
    · obtain ⟨x, l, rfl, hx⟩ := List.eq_append_cons_of_mem hmem
      refine hline x l hx (ih _ ?_ l rfl)
      rw [← hlen, List.length_append, List.length_cons]
      omega
    · exact hopen l hmem

/-- A list in two pieces: the open line of the first goes on in the second. -/
theorem closedLines_append (nl : α) (l r : List α) :
    closedLines nl (l ++ r) = closedLines nl l ++ closedLines nl (openLine nl l ++ r) := by
  induction l using @line_induction _ _ _ nl with
  | hopen l h => rw [closedLines_of_notMem h, openLine_of_notMem h, List.nil_append]
  | hline x l h ih =>
    rw [List.append_assoc, List.cons_append, closedLines_append_cons h, closedLines_append_cons h,
      openLine_append_cons h, ih, List.cons_append]

theorem length_lt_of_mem_closedLines (h : x ∈ closedLines nl l) : x.length < l.length := by
  induction l using @line_induction _ _ _ nl with
  | hopen l hl => rw [closedLines_of_notMem hl] at h; exact absurd h List.not_mem_nil
  | hline y l hy ih =>
    rw [closedLines_append_cons hy] at h
    rw [List.length_append, List.length_cons]
    rcases List.mem_cons.mp h with rfl | h
    · omega
    · have := ih h
      omega

theorem notMem_openLine (nl : α) (l : List α) : nl ∉ openLine nl l := by
  induction l using @line_induction _ _ _ nl with
  | hopen l hl => rwa [openLine_of_notMem hl]
  | hline x l hx ih => rwa [openLine_append_cons hx]

theorem mem_of_mem_openLine {a : α} (h : a ∈ openLine nl l) : a ∈ l := by
  induction l using @line_induction _ _ _ nl with
  | hopen l hl => rwa [openLine_of_notMem hl] at h
  | hline x l hx ih =>
    rw [openLine_append_cons hx] at h
    exact List.mem_append_right _ (List.mem_cons_of_mem _ (ih h))

/-- A list that goes on without a terminator has no short first line. -/
theorem le_length_of_head?_closedLines (h : nl ∉ l)
    (hx : (closedLines nl (l ++ r)).head? = some x) : l.length ≤ x.length := by
  by_cases hmem : nl ∈ r
  · obtain ⟨y, r, rfl, hy⟩ := List.eq_append_cons_of_mem hmem
    have hfree : nl ∉ l ++ y := fun hc => (List.mem_append.mp hc).elim h hy
    rw [← List.append_assoc, closedLines_append_cons hfree, List.head?_cons] at hx
    rw [← Option.some.inj hx, List.length_append]
    omega
  · have hfree : nl ∉ l ++ r := fun hc => (List.mem_append.mp hc).elim h hmem
    rw [closedLines_of_notMem hfree] at hx
    exact absurd hx (by simp)

end XV6AndConcurrency.Foundations
