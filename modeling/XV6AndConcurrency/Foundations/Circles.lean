import Mathlib.Data.List.Basic
import Mathlib.Logic.Function.Basic
import Mathlib.Tactic

/-!
# Doubly linked circles

Nodes with two links each. A segment leads from one node through a list of nodes to
another, along `next`, and back along `prev`; a circle is a segment from a head to itself.
A node is unlinked with two writes and linked in behind the head with four.
-/

namespace XV6AndConcurrency.Foundations

variable {ν : Type*}

/-- The links of all nodes. -/
structure Links (ν : Type*) where
  next : ν → ν
  prev : ν → ν

namespace Links

section

variable [DecidableEq ν] (t : Links ν) (b x : ν)

def setNext : Links ν := { t with next := Function.update t.next b x }

def setPrev : Links ν := { t with prev := Function.update t.prev b x }

/-- `b->next->prev = b->prev; b->prev->next = b->next`. -/
def unlink : Links ν :=
  let t := t.setPrev (t.next b) (t.prev b)
  t.setNext (t.prev b) (t.next b)

/-- `b->next = head.next; b->prev = &head; head.next->prev = b; head.next = b`. -/
def pushFront (h b : ν) : Links ν :=
  let t := (t.setNext b (t.next h)).setPrev b h
  (t.setPrev (t.next h) b).setNext h b

end

/-- From `a` through the nodes of the list to `c`. -/
def Seg (t : Links ν) : ν → List ν → ν → Prop
  | a, [], c => t.next a = c ∧ t.prev c = a
  | a, b :: l, c => t.next a = b ∧ t.prev b = a ∧ Seg t b l c

/-- All nodes of the list, each once, in a circle through `h`. -/
structure Circle (t : Links ν) (h : ν) (l : List ν) : Prop where
  seg : t.Seg h l h
  nodup : (h :: l).Nodup

variable {t t' : Links ν} {a b c h : ν} {l l' : List ν}

theorem seg_append : t.Seg a (l ++ b :: l') c ↔ t.Seg a l b ∧ t.Seg b l' c := by
  induction l generalizing a with
  | nil => simp [Seg, and_assoc]
  | cons x l ih => simp [Seg, ih, and_assoc]

/-- Only the links along the segment matter. -/
theorem Seg.congr (hs : t.Seg a l c) (hnext : ∀ x ∈ a :: l, t'.next x = t.next x)
    (hprev : ∀ x ∈ l ++ [c], t'.prev x = t.prev x) : t'.Seg a l c := by
  induction l generalizing a with
  | nil =>
    rw [Seg, hnext a (by simp), hprev c (by simp)]
    exact hs
  | cons x l ih =>
    obtain ⟨h1, h2, hs⟩ := hs
    refine ⟨(hnext a (by simp)).trans h1, (hprev x (by simp)).trans h2, ih hs ?_ ?_⟩
    · exact fun y hy => hnext y (List.mem_cons_of_mem _ hy)
    · exact fun y hy => hprev y (by simp only [List.cons_append, List.mem_cons, hy, or_true])

theorem Seg.next_mem (hs : t.Seg a l c) : t.next a ∈ l ++ [c] := by
  cases l with
  | nil => simp [hs.1]
  | cons x l => simp [hs.1]

theorem Seg.prev_mem (hs : t.Seg a l c) : t.prev c ∈ a :: l := by
  induction l generalizing a with
  | nil => simp [hs.2]
  | cons x l ih => exact List.mem_cons_of_mem _ (ih hs.2.2)

/-- A segment is one in the other direction. -/
theorem Seg.reverse (hs : t.Seg a l c) : Links.Seg ⟨t.prev, t.next⟩ c l.reverse a := by
  induction l generalizing a with
  | nil => exact ⟨hs.2, hs.1⟩
  | cons x l ih =>
    obtain ⟨h1, h2, hs⟩ := hs
    rw [List.reverse_cons]
    exact seg_append.mpr ⟨ih hs, h2, h1⟩

section

variable [DecidableEq ν]

theorem unlink_next (t : Links ν) (b : ν) :
    (t.unlink b).next = Function.update t.next (t.prev b) (t.next b) := by
  simp only [unlink, setPrev, setNext, Function.update_apply, ite_self]

theorem unlink_prev (t : Links ν) (b : ν) :
    (t.unlink b).prev = Function.update t.prev (t.next b) (t.prev b) := rfl

/-- Unlinking the node between two segments joins them. -/
theorem Seg.unlink (hl : t.Seg a l b) (hr : t.Seg b l' c) (hnodup : (a :: (l ++ l')).Nodup)
    (hc : c ∉ l ++ l') : (t.unlink b).Seg a (l ++ l') c := by
  induction l generalizing a with
  | nil =>
    obtain ⟨h1, h2⟩ := hl
    cases l' with
    | nil =>
      rw [List.append_nil, Seg, unlink_next, unlink_prev, h2, hr.1]
      exact ⟨Function.update_self _ _ _, Function.update_self _ _ _⟩
    | cons x l' =>
      obtain ⟨h3, h4, hr⟩ := hr
      rw [List.nil_append] at hnodup hc ⊢
      refine ⟨?_, ?_, hr.congr (fun y hy => ?_) fun y hy => ?_⟩
      · rw [unlink_next, h2, h3, Function.update_self]
      · rw [unlink_prev, h2, h3, Function.update_self]
      · rw [unlink_next, h2, Function.update_of_ne]
        rintro rfl
        exact (List.nodup_cons.mp hnodup).1 hy
      · rw [unlink_prev, h3, Function.update_of_ne]
        rintro rfl
        obtain hy | hy := List.mem_append.mp hy
        · exact (List.nodup_cons.mp (List.nodup_cons.mp hnodup).2).1 hy
        · obtain rfl := List.mem_singleton.mp hy
          exact hc List.mem_cons_self
  | cons x l ih =>
    obtain ⟨h1, h2, hl⟩ := hl
    rw [List.cons_append] at hnodup hc ⊢
    obtain ⟨ha, hnodup⟩ := List.nodup_cons.mp hnodup
    refine ⟨?_, ?_, ih hl hnodup fun hmem => hc (List.mem_cons_of_mem _ hmem)⟩
    · -- the node before `b` is another one
      rw [unlink_next, Function.update_of_ne]
      · exact h1
      · rintro rfl
        refine ha ?_
        obtain hmem | hmem := List.mem_cons.mp hl.prev_mem
        · rw [hmem]
          exact List.mem_cons_self
        · exact List.mem_cons_of_mem _ (List.mem_append_left _ hmem)
    · rw [unlink_prev, Function.update_of_ne]
      · exact h2
      · rintro rfl
        obtain hmem | hmem := List.mem_append.mp hr.next_mem
        · exact (List.nodup_cons.mp hnodup).1 (List.mem_append_right _ hmem)
        · rw [List.mem_singleton.mp hmem] at hc
          exact hc List.mem_cons_self

theorem Circle.unlink (hs : t.Circle h (l ++ b :: l')) : (t.unlink b).Circle h (l ++ l') := by
  obtain ⟨hseg, hnodup⟩ := hs
  obtain ⟨hl, hr⟩ := seg_append.mp hseg
  have hsub : (h :: (l ++ l')).Sublist (h :: (l ++ b :: l')) :=
    ((List.Sublist.refl l).append (List.sublist_cons_self b l')).cons_cons h
  have hnodup' := hnodup.sublist hsub
  exact ⟨hl.unlink hr hnodup' (List.nodup_cons.mp hnodup').1, hnodup'⟩

theorem pushFront_next (t : Links ν) (h b : ν) :
    (t.pushFront h b).next = Function.update (Function.update t.next b (t.next h)) h b := rfl

theorem pushFront_prev (t : Links ν) (h b : ν) :
    (t.pushFront h b).prev = Function.update (Function.update t.prev b h) (t.next h) b := by
  simp only [pushFront, setPrev, setNext, Function.update_apply, ite_self]

theorem Circle.pushFront (hs : t.Circle h l) (hb : b ∉ h :: l) :
    (t.pushFront h b).Circle h (b :: l) := by
  obtain ⟨hseg, hnodup⟩ := hs
  have hbh : b ≠ h := fun heq => hb (heq ▸ List.mem_cons_self)
  have hbl : b ∉ l := fun hmem => hb (List.mem_cons_of_mem _ hmem)
  have hnext : ∀ x, x ≠ h → x ≠ b → (t.pushFront h b).next x = t.next x := by
    intro x hx hxb
    rw [pushFront_next, Function.update_of_ne hx, Function.update_of_ne hxb]
  have hprev : ∀ x, x ≠ t.next h → x ≠ b → (t.pushFront h b).prev x = t.prev x := by
    intro x hx hxb
    rw [pushFront_prev, Function.update_of_ne hx, Function.update_of_ne hxb]
  have hfirst : (t.pushFront h b).next b = t.next h := by
    rw [pushFront_next, Function.update_of_ne hbh, Function.update_self]
  have hback : (t.pushFront h b).prev (t.next h) = b := by
    rw [pushFront_prev, Function.update_self]
  refine ⟨⟨?_, ?_, ?_⟩, ?_⟩
  · rw [pushFront_next, Function.update_self]
  · rw [pushFront_prev, Function.update_of_ne, Function.update_self]
    intro heq
    have hmem := hseg.next_mem
    rw [← heq] at hmem
    obtain hmem | hmem := List.mem_append.mp hmem
    · exact hbl hmem
    · exact hbh (List.mem_singleton.mp hmem)
  · cases l with
    | nil =>
      rw [hseg.1] at hfirst hback
      exact ⟨hfirst, hback⟩
    | cons x l =>
      obtain ⟨h1, -, hseg⟩ := hseg
      rw [h1] at hfirst hback
      obtain ⟨hh, hnodup⟩ := List.nodup_cons.mp hnodup
      refine ⟨hfirst, hback, hseg.congr (fun y hy => hnext y ?_ ?_) fun y hy => hprev y ?_ ?_⟩
      · rintro rfl
        exact hh hy
      · rintro rfl
        exact hbl hy
      · rw [h1]
        rintro rfl
        obtain hy | hy := List.mem_append.mp hy
        · exact (List.nodup_cons.mp hnodup).1 hy
        · rw [List.mem_singleton.mp hy] at hh
          exact hh List.mem_cons_self
      · rintro rfl
        obtain hy | hy := List.mem_append.mp hy
        · exact hbl (List.mem_cons_of_mem _ hy)
        · exact hbh (List.mem_singleton.mp hy)
  · obtain ⟨hh, hnodup⟩ := List.nodup_cons.mp hnodup
    refine List.nodup_cons.mpr ⟨?_, List.nodup_cons.mpr ⟨hbl, hnodup⟩⟩
    rw [List.mem_cons, not_or]
    exact ⟨hbh.symm, hh⟩

end

/-! ## Walks -/

/-- `for(b = start; b != &head; b = b->next)`: the first node with the property. The
outer `none` stands for a walk that did not come to an end. -/
def search [DecidableEq ν] (next : ν → ν) (h : ν) (P : ν → Bool) : ℕ → ν → Option (Option ν)
  | 0, _ => none
  | n + 1, b =>
    if b = h then some none
    else if P b then some (some b)
    else search next h P n (next b)

theorem Seg.search [DecidableEq ν] {P : ν → Bool} {n : ℕ} (hs : t.Seg a l h) (hh : h ∉ l)
    (hn : l.length < n) :
    Links.search t.next h P n (t.next a) = some (l.find? P) := by
  induction l generalizing a n with
  | nil =>
    obtain ⟨n, rfl⟩ := Nat.exists_eq_add_of_lt hn
    rw [hs.1, Links.search, if_pos rfl]
    rfl
  | cons x l ih =>
    obtain ⟨h1, -, hs⟩ := hs
    cases n with
    | zero => omega
    | succ n =>
      obtain ⟨hx, hh⟩ : h ≠ x ∧ h ∉ l := by simpa using hh
      rw [h1, Links.search, if_neg (Ne.symm hx), List.find?_cons]
      cases hP : P x with
      | true => rfl
      | false => exact ih hs hh (by simpa using hn)

end Links

end XV6AndConcurrency.Foundations
