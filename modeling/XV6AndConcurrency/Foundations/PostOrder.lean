import Mathlib.Tactic

/-!
# Nodes below a node

The nodes that can be reached from `t` along fewer than `d` steps, each listed after the
nodes below it. `next` names the neighbours of a node by an index, and `order` is the order
in which the indices are tried.
-/

namespace XV6AndConcurrency.Foundations

variable {α ι : Type} (next : α → ι → Option α) (order : List ι)

/-- The nodes less than `d` steps below `t`, children before parents. -/
def postOrder : ℕ → α → List α
  | 0, _ => []
  | d + 1, t => (order.filterMap (next t)).flatMap (postOrder d) ++ [t]

/-- The node at the end of a path from `t`. -/
def follow : α → List ι → Option α
  | t, [] => some t
  | t, i :: path => (next t i).bind fun u => follow u path

/-- A path of fewer than `d` steps along indices of `order`. -/
def Within (d : ℕ) (path : List ι) : Prop := path.length < d ∧ ∀ i ∈ path, i ∈ order

variable {next order} {d : ℕ} {t u x : α} {i : ι} {path : List ι}

theorem within_nil (hd : 0 < d) : Within order d [] := ⟨hd, by simp⟩

theorem within_cons : Within order (d + 1) (i :: path) ↔ i ∈ order ∧ Within order d path := by
  simp only [Within, List.length_cons, Nat.add_lt_add_iff_right, List.forall_mem_cons]
  tauto

theorem not_within_zero : ¬ Within order 0 path := fun h => Nat.not_lt_zero _ h.1

theorem mem_postOrder_succ : x ∈ postOrder next order (d + 1) t ↔
    x = t ∨ ∃ i ∈ order, ∃ u, next t i = some u ∧ x ∈ postOrder next order d u := by
  simp only [postOrder, List.mem_append, List.mem_flatMap, List.mem_filterMap, List.mem_singleton]
  constructor
  · rintro (⟨u, ⟨i, hi, hu⟩, hx⟩ | rfl)
    · exact Or.inr ⟨i, hi, u, hu, hx⟩
    · exact Or.inl rfl
  · rintro (rfl | ⟨i, hi, u, hu, hx⟩)
    · exact Or.inr rfl
    · exact Or.inl ⟨u, ⟨i, hi, hu⟩, hx⟩

/-- The nodes listed are the ends of the paths. -/
theorem mem_postOrder : x ∈ postOrder next order d t ↔
    ∃ path, Within order d path ∧ follow next t path = some x := by
  induction d generalizing t with
  | zero =>
    simp only [postOrder, List.not_mem_nil, false_iff, not_exists, not_and]
    exact fun path h => absurd h not_within_zero
  | succ d ih =>
    rw [mem_postOrder_succ]
    constructor
    · rintro (rfl | ⟨i, hi, u, hu, hx⟩)
      · exact ⟨[], within_nil (Nat.succ_pos d), rfl⟩
      · obtain ⟨path, hw, hf⟩ := ih.mp hx
        exact ⟨i :: path, within_cons.mpr ⟨hi, hw⟩, by simp [follow, hu, hf]⟩
    · rintro ⟨path, hw, hf⟩
      cases path with
      | nil => exact Or.inl (Option.some.inj hf).symm
      | cons i path =>
        obtain ⟨hi, hw⟩ := within_cons.mp hw
        obtain ⟨u, hu, hx⟩ := Option.bind_eq_some_iff.mp hf
        exact Or.inr ⟨i, hi, u, hu, ih.mpr ⟨path, hw, hx⟩⟩

/-- Where every node is reached by one path, no node is listed twice. -/
theorem nodup_postOrder (horder : order.Nodup)
    (h : ∀ p q x, Within order d p → Within order d q → follow next t p = some x →
      follow next t q = some x → p = q) : (postOrder next order d t).Nodup := by
  induction d generalizing t with
  | zero => exact List.nodup_nil
  | succ d ih =>
    have hchild : ∀ {i u p x}, i ∈ order → next t i = some u → Within order d p →
        follow next u p = some x →
        Within order (d + 1) (i :: p) ∧ follow next t (i :: p) = some x := by
      intro i u p x hi hu hw hf
      exact ⟨within_cons.mpr ⟨hi, hw⟩, by simp [follow, hu, hf]⟩
    rw [postOrder, List.nodup_append']
    refine ⟨List.nodup_flatMap.mpr ⟨?_, ?_⟩, List.nodup_singleton t, ?_⟩
    · intro u hu
      obtain ⟨i, hi, hu⟩ := List.mem_filterMap.mp hu
      apply ih
      intro p q x hp hq hfp hfq
      obtain ⟨hp', hfp'⟩ := hchild hi hu hp hfp
      obtain ⟨hq', hfq'⟩ := hchild hi hu hq hfq
      exact (List.cons.inj (h _ _ x hp' hq' hfp' hfq')).2
    · rw [List.pairwise_filterMap]
      apply (List.pairwise_of_forall_mem_list (r := fun i j => i ∈ order ∧ j ∈ order)
        fun i hi j hj => ⟨hi, hj⟩).and horder |>.imp
      rintro i j ⟨⟨hi, hj⟩, hne⟩ u hu v hv x hxu hxv
      obtain ⟨p, hp, hfp⟩ := mem_postOrder.mp hxu
      obtain ⟨q, hq, hfq⟩ := mem_postOrder.mp hxv
      obtain ⟨hp', hfp'⟩ := hchild hi hu hp hfp
      obtain ⟨hq', hfq'⟩ := hchild hj hv hq hfq
      exact hne (List.cons.inj (h _ _ x hp' hq' hfp' hfq')).1
    · rw [List.disjoint_singleton]
      intro ht
      obtain ⟨u, hu, hx⟩ := List.mem_flatMap.mp ht
      obtain ⟨i, hi, hu⟩ := List.mem_filterMap.mp hu
      obtain ⟨p, hp, hfp⟩ := mem_postOrder.mp hx
      obtain ⟨hp', hfp'⟩ := hchild hi hu hp hfp
      have := h _ [] t hp' (within_nil (Nat.succ_pos d)) hfp' rfl
      simp at this

end XV6AndConcurrency.Foundations
