import Mathlib.Tactic

/-!
# Writing into a list

A list that is written at any offset up to its length and grows when the end is passed.
-/

namespace XV6AndConcurrency.Foundations

variable {α : Type*}

/-- The list with `l'` from index `off` on. -/
def splice (l : List α) (off : ℕ) (l' : List α) : List α :=
  l.take off ++ l' ++ l.drop (off + l'.length)

variable {l l' : List α} {off : ℕ}

@[simp] theorem splice_nil (l : List α) (off : ℕ) : splice l off [] = l := by simp [splice]

theorem length_splice (h : off ≤ l.length) :
    (splice l off l').length = max l.length (off + l'.length) := by
  simp only [splice, List.length_append, List.length_take, List.length_drop]
  omega

theorem getElem?_splice (h : off ≤ l.length) (i : ℕ) :
    (splice l off l')[i]? = if off ≤ i ∧ i < off + l'.length then l'[i - off]? else l[i]? := by
  have htake : (l.take off).length = off := by rw [List.length_take, Nat.min_eq_left h]
  unfold splice
  rcases lt_or_ge i off with hlt | hge
  · rw [if_neg (by omega), List.append_assoc, List.getElem?_append_left (by omega),
      List.getElem?_take_of_lt hlt]
  rcases lt_or_ge i (off + l'.length) with hin | hout
  · rw [if_pos ⟨hge, hin⟩, List.getElem?_append_left (by rw [List.length_append]; omega),
      List.getElem?_append_right (by omega), htake]
  · rw [if_neg (by omega), List.getElem?_append_right (by rw [List.length_append]; omega),
      List.length_append, htake, List.getElem?_drop]
    congr 1
    omega

/-- A list is a splice as soon as it has the right length and entries. -/
theorem eq_splice {m : List α} (h : off ≤ l.length)
    (hlen : m.length = max l.length (off + l'.length))
    (hin : ∀ i < l'.length, m[off + i]? = l'[i]?)
    (hout : ∀ i < l.length, i < off ∨ off + l'.length ≤ i → m[i]? = l[i]?) :
    m = splice l off l' := by
  apply List.ext_getElem?
  intro i
  rw [getElem?_splice h]
  split_ifs with hi
  · obtain ⟨k, rfl⟩ := Nat.exists_eq_add_of_le hi.1
    rw [Nat.add_sub_cancel_left]
    exact hin k (by omega)
  · by_cases hlt : i < l.length
    · exact hout i hlt (by omega)
    · rw [List.getElem?_eq_none (not_lt.mp hlt), List.getElem?_eq_none (by omega)]

end XV6AndConcurrency.Foundations
