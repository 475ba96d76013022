import Mathlib.Data.List.Basic
import Mathlib.Tactic

/-!
# Counted loops over a list

The loop `for (i = 0; i < n; i++)` that reads the `i`-th entry of an array and
updates a state, with the invariant rule for it and the search for a minimum that
such loops are written for.
-/

namespace XV6AndConcurrency.Foundations

variable {α β : Type*}

/-- Run `body entry index` over the entries of a list, the first one at index `i`. -/
def loopFrom (body : α → ℕ → β → β) : ℕ → List α → β → β
  | _, [], b => b
  | i, a :: l, b => loopFrom body (i + 1) l (body a i b)

def loop (body : α → ℕ → β → β) (l : List α) (b : β) : β := loopFrom body 0 l b

variable {body : α → ℕ → β → β} {l : List α} {b : β}

theorem loopFrom_append (body : α → ℕ → β → β) (i : ℕ) (l l' : List α) (b : β) :
    loopFrom body i (l ++ l') b = loopFrom body (i + l.length) l' (loopFrom body i l b) := by
  induction l generalizing i b with
  | nil => rfl
  | cons a l ih =>
    simp only [List.cons_append, loopFrom, List.length_cons, ih]
    rw [Nat.add_right_comm, Nat.add_assoc]

@[simp] theorem loop_nil : loop body [] b = b := rfl

/-- The last round of a loop. -/
theorem loop_concat (l : List α) (a : α) :
    loop body (l ++ [a]) b = body a l.length (loop body l b) := by
  simp [loop, loopFrom_append, loopFrom]

theorem loop_take_succ {k : ℕ} {a : α} (h : l[k]? = some a) :
    loop body (l.take (k + 1)) b = body a k (loop body (l.take k) b) := by
  obtain ⟨hk, rfl⟩ := List.getElem?_eq_some_iff.mp h
  rw [List.take_succ_eq_append_getElem hk, loop_concat, List.length_take,
    Nat.min_eq_left (Nat.le_of_lt hk)]

/-- What holds before the first round and survives every round holds at the end. -/
theorem loop_invariant (P : ℕ → β → Prop) (hinit : P 0 b)
    (hstep : ∀ k a b, l[k]? = some a → P k b → P (k + 1) (body a k b)) :
    P l.length (loop body l b) := by
  have h : ∀ k ≤ l.length, P k (loop body (l.take k) b) := by
    intro k
    induction k with
    | zero =>
      intro _
      simpa using hinit
    | succ k ih =>
      intro hk
      have hget := List.getElem?_eq_getElem (show k < l.length by omega)
      rw [loop_take_succ hget]
      exact hstep k _ _ hget (ih (by omega))
  simpa using h l.length le_rfl

/-- Two loops over one list, compared round by round. -/
theorem loop_rel {γ : Type*} {body' : α → ℕ → γ → γ} (R : β → γ → Prop) {c : γ} (hinit : R b c)
    (hstep : ∀ a ∈ l, ∀ i b c, R b c → R (body a i b) (body' a i c)) :
    R (loop body l b) (loop body' l c) := by
  induction l using List.reverseRecOn with
  | nil => exact hinit
  | append_singleton l a ih =>
    rw [loop_concat, loop_concat]
    apply hstep a (by simp)
    exact ih fun a' ha' => hstep a' (by simp [ha'])

/-! ## The search for a least key -/

section

variable {κ : Type*} [LinearOrder κ] (admissible : α → Prop) [DecidablePred admissible]
  (key : α → κ)

/-- Replace the best key so far, and where it was found, by a strictly smaller one. -/
def keepLeast (a : α) (i : ℕ) (best : κ × ℕ) : κ × ℕ :=
  if admissible a ∧ key a < best.1 then (key a, i) else best

variable (l) (best : κ × ℕ)

/-- The search never ends above an admissible key or its starting value. -/
theorem loop_keepLeast_le :
    (loop (keepLeast admissible key) l best).1 ≤ best.1 ∧
      ∀ a ∈ l, admissible a → (loop (keepLeast admissible key) l best).1 ≤ key a := by
  induction l using List.reverseRecOn with
  | nil => simp
  | append_singleton l a ih =>
    obtain ⟨hbest, hall⟩ := ih
    rw [loop_concat]
    unfold keepLeast at *
    split_ifs with h
    · refine ⟨h.2.le.trans hbest, fun c hc hadm => ?_⟩
      rcases List.mem_append.mp hc with hc | hc
      · exact h.2.le.trans (hall c hc hadm)
      · rw [List.mem_singleton.mp hc]
    · refine ⟨hbest, fun c hc hadm => ?_⟩
      rcases List.mem_append.mp hc with hc | hc
      · exact hall c hc hadm
      · rw [List.mem_singleton.mp hc] at hadm ⊢
        exact not_lt.mp fun hlt => h ⟨hadm, hlt⟩

/-- What the search returns was found where it says, unless nothing was found. -/
theorem loop_keepLeast_attained :
    loop (keepLeast admissible key) l best = best ∨
      ∃ a, l[(loop (keepLeast admissible key) l best).2]? = some a ∧ admissible a ∧
        key a = (loop (keepLeast admissible key) l best).1 := by
  refine loop_invariant (fun _ b => b = best ∨
    ∃ a, l[b.2]? = some a ∧ admissible a ∧ key a = b.1) (.inl rfl) ?_
  intro k a b hget hb
  unfold keepLeast
  split_ifs with h
  · exact .inr ⟨a, hget, h.1, rfl⟩
  · exact hb

variable {l} in
/-- Started at the first entry, the search ends at the first of the least keys. -/
theorem loop_keepLeast_first {first : α} (hadm : ∀ a ∈ l, admissible a)
    (hfirst : l[0]? = some first) :
    ∃ a, l[(loop (keepLeast admissible key) l (key first, 0)).2]? = some a ∧
      (loop (keepLeast admissible key) l (key first, 0)).1 = key a ∧
      ∀ i c, l[i]? = some c → key a ≤ key c ∧
        (i < (loop (keepLeast admissible key) l (key first, 0)).2 → key a < key c) := by
  have h := @loop_invariant _ _ (keepLeast admissible key) l (key first, 0)
    (fun k best => best.2 ≤ k ∧ ∃ a, l[best.2]? = some a ∧ best.1 = key a ∧
      ∀ i c, i < k → l[i]? = some c → key a ≤ key c ∧ (i < best.2 → key a < key c))
    ⟨le_rfl, first, hfirst, rfl, by simp⟩ ?_
  · obtain ⟨-, a, hget, hkey, hall⟩ := h
    exact ⟨a, hget, hkey, fun i c hc => hall i c (List.getElem?_eq_some_iff.mp hc).1 hc⟩
  · intro k a best hget hbest
    obtain ⟨hle, m, hm, hkey, hall⟩ := hbest
    have ha : admissible a := hadm a (List.mem_of_getElem? hget)
    unfold keepLeast
    split_ifs with h
    · refine ⟨Nat.le_succ k, a, hget, rfl, fun i c hi hc => ?_⟩
      have hlt : key a < key m := hkey ▸ h.2
      rcases Nat.lt_succ_iff_lt_or_eq.mp hi with hi | rfl
      · have hmc := (hall i c hi hc).1
        exact ⟨(hlt.trans_le hmc).le, fun _ => hlt.trans_le hmc⟩
      · obtain rfl : a = c := Option.some.inj (hget.symm.trans hc)
        exact ⟨le_rfl, fun habs => absurd habs (lt_irrefl i)⟩
    · refine ⟨by omega, m, hm, hkey, fun i c hi hc => ?_⟩
      rcases Nat.lt_succ_iff_lt_or_eq.mp hi with hi | rfl
      · exact hall i c hi hc
      · obtain rfl : a = c := Option.some.inj (hget.symm.trans hc)
        refine ⟨?_, fun habs => absurd habs (not_lt.mpr hle)⟩
        rw [← hkey]
        exact not_lt.mp fun hlt => h ⟨ha, hlt⟩

end

end XV6AndConcurrency.Foundations
