import Mathlib.Data.List.Perm.Basic
import Mathlib.Tactic

/-!
# Walks along singly linked circles

A pointer loop follows one `next` map until a test stops it. Around a circle it can start
at any node, and the one node that stops it is found within a round.
-/

namespace XV6AndConcurrency.Foundations

variable {α : Type*} {next next' : α → α} {stop : α → Bool}

/-- `for (p = a; !stop(p); p = next(p));` with at most `fuel` tests. -/
def walk (next : α → α) (stop : α → Bool) : ℕ → α → Option α
  | 0, _ => none
  | fuel + 1, p => if stop p then some p else walk next stop fuel (next p)

/-- The links lead from `a` through the nodes of the list to `c`. -/
def Trail (next : α → α) : α → List α → α → Prop
  | a, [], c => next a = c
  | a, b :: l, c => next a = b ∧ Trail next b l c

variable {a b c p r x : α} {l l' P Q : List α} {fuel : ℕ}

theorem trail_append : Trail next a (l ++ b :: l') c ↔ Trail next a l b ∧ Trail next b l' c := by
  induction l generalizing a with
  | nil => rfl
  | cons x l ih => simp only [List.cons_append, Trail, ih, and_assoc]

/-- The links of the nodes before the last are all that matters. -/
theorem Trail.congr (h : Trail next a l c) (heq : ∀ x ∈ a :: l, next' x = next x) :
    Trail next' a l c := by
  induction l generalizing a with
  | nil => exact (heq a List.mem_cons_self).trans h
  | cons x l ih =>
    obtain ⟨hx, hrest⟩ := h
    constructor
    · exact (heq a List.mem_cons_self).trans hx
    · exact ih hrest fun y hy => heq y (List.mem_cons_of_mem a hy)

/-- The same nodes, entered from another one. -/
theorem Trail.enter (h : Trail next a l c) (hb : next' b = next a)
    (heq : ∀ x ∈ l, next' x = next x) : Trail next' b l c := by
  cases l with
  | nil => exact hb.trans h
  | cons x l => exact ⟨hb.trans h.1, h.2.congr heq⟩

/-- What follows a node of the path, and how to replace it. -/
theorem Trail.splice (h : Trail next r l c) (heq : r :: l = P ++ p :: Q) :
    Trail next p Q c ∧ ∀ (next' : α → α) (Q' : List α), (∀ x ∈ P, next' x = next x) →
      Trail next' p Q' c → ∃ l', r :: l' = P ++ p :: Q' ∧ Trail next' r l' c := by
  cases P with
  | nil =>
    obtain ⟨rfl, rfl⟩ := List.cons.inj heq
    exact ⟨h, fun next' Q' _ h' => ⟨Q', rfl, h'⟩⟩
  | cons y P =>
    obtain ⟨rfl, rfl⟩ := List.cons.inj heq
    obtain ⟨hP, hQ⟩ := trail_append.mp h
    refine ⟨hQ, fun next' Q' hsame h' => ⟨P ++ p :: Q', rfl, ?_⟩⟩
    exact trail_append.mpr ⟨hP.congr hsame, h'⟩

/-- The links determine the nodes up to the first visit of the last. -/
theorem Trail.unique (h : Trail next a l c) (h' : Trail next a l' c) (hc : c ∉ l)
    (hc' : c ∉ l') : l = l' := by
  induction l generalizing a l' with
  | nil =>
    cases l' with
    | nil => rfl
    | cons b l' =>
      have hb : c = b := Eq.trans (Eq.symm h) h'.1
      exact absurd (hb ▸ List.mem_cons_self) hc'
  | cons b l ih =>
    obtain ⟨rfl, hrest⟩ := h
    cases l' with
    | nil =>
      have hb : next a = c := h'
      exact absurd (hb ▸ List.mem_cons_self) hc
    | cons d l' =>
      obtain ⟨rfl, hrest'⟩ := h'
      rw [ih hrest hrest' (fun hm => hc (List.mem_cons_of_mem _ hm))
        fun hm => hc' (List.mem_cons_of_mem _ hm)]

/-- A circle read from another of its nodes. -/
theorem Trail.rotate (h : Trail next r l r) (hp : p ∈ r :: l) :
    ∃ l', Trail next p l' p ∧ (p :: l').Perm (r :: l) := by
  rcases List.mem_cons.mp hp with rfl | hp
  · exact ⟨l, h, List.Perm.refl _⟩
  · obtain ⟨u, v, rfl⟩ := List.append_of_mem hp
    obtain ⟨hu, hv⟩ := trail_append.mp h
    refine ⟨v ++ r :: u, trail_append.mpr ⟨hv, hu⟩, ?_⟩
    exact (List.perm_append_comm : (p :: v ++ r :: u).Perm (r :: u ++ p :: v))

theorem walk_of_stop (h : stop p = true) : walk next stop (fuel + 1) p = some p := if_pos h

/-- More fuel changes nothing. -/
theorem walk_mono {k : ℕ} (h : walk next stop fuel p = some x) :
    walk next stop (fuel + k) p = some x := by
  induction fuel generalizing p with
  | zero => cases h
  | succ fuel ih =>
    rw [Nat.add_right_comm]
    unfold walk at h ⊢
    split_ifs at h ⊢ with hstop
    · exact h
    · exact ih h

/-- A walk passes the nodes that do not stop it. -/
theorem walk_trail (h : Trail next p l c) (hgo : ∀ x ∈ p :: l, stop x = false) :
    walk next stop (fuel + l.length + 1) p = walk next stop fuel c := by
  induction l generalizing p with
  | nil =>
    have hp : next p = c := h
    rw [List.length_nil, walk, hgo p List.mem_cons_self, hp]
    rfl
  | cons y l ih =>
    obtain ⟨rfl, hrest⟩ := h
    rw [List.length_cons, walk, hgo p List.mem_cons_self]
    exact ih hrest fun x hx => hgo x (List.mem_cons_of_mem p hx)

/-- Around a circle the walk ends at the one node that stops it. -/
theorem walk_circle (h : Trail next r l r) (hnodup : (r :: l).Nodup) (hp : p ∈ r :: l)
    (hx : x ∈ r :: l) (hstop : ∀ y ∈ r :: l, stop y = true ↔ y = x) (hfuel : l.length < fuel) :
    walk next stop fuel p = some x := by
  obtain ⟨l', hl', hperm⟩ := h.rotate hp
  have hlen : l'.length = l.length := Nat.succ.inj hperm.length_eq
  rcases List.mem_cons.mp (hperm.mem_iff.mpr hx) with rfl | hx'
  · obtain ⟨fuel, rfl⟩ := Nat.exists_eq_succ_of_ne_zero (Nat.ne_zero_of_lt hfuel)
    exact walk_of_stop ((hstop x hp).mpr rfl)
  · obtain ⟨u, v, rfl⟩ := List.append_of_mem hx'
    have hnot : x ∉ p :: u := by
      have hn := hperm.nodup_iff.mpr hnodup
      rw [← List.cons_append, List.nodup_append] at hn
      exact fun hmem => hn.2.2 x hmem x List.mem_cons_self rfl
    have hgo : ∀ y ∈ p :: u, stop y = false := by
      intro y hy
      have hmem : y ∈ r :: l := hperm.mem_iff.mp (List.mem_append_left (x :: v) hy)
      exact Bool.eq_false_iff.mpr fun h => hnot ((hstop y hmem).mp h ▸ hy)
    rw [List.length_append, List.length_cons] at hlen
    obtain ⟨k, rfl⟩ : ∃ k, fuel = k + 1 + u.length + 1 := ⟨fuel - u.length - 2, by omega⟩
    rw [walk_trail (trail_append.mp hl').1 hgo]
    exact walk_of_stop ((hstop x hx).mpr rfl)

end XV6AndConcurrency.Foundations
