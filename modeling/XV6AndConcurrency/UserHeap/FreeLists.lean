import XV6AndConcurrency.Foundations.Intervals
import XV6AndConcurrency.UserHeap.Umalloc

/-!
# The free list

The free blocks form a circle through `base`, in the order of their addresses, with a gap
behind each. `free` puts a block in its place and joins it with what it touches.
-/

namespace XV6AndConcurrency.UserHeap

open Foundations

variable {h h' : Heap} {base bp p q v x nu fuel : ℕ} {L P Q : List ℕ}

namespace Heap

@[simp] theorem setPtr_ptr : (h.setPtr p v).ptr = Function.update h.ptr p v := rfl
@[simp] theorem setPtr_size : (h.setPtr p v).size = h.size := rfl
@[simp] theorem setPtr_freep : (h.setPtr p v).freep = h.freep := rfl
@[simp] theorem setPtr_sz : (h.setPtr p v).sz = h.sz := rfl
@[simp] theorem setPtr_room : (h.setPtr p v).room = h.room := rfl
@[simp] theorem setPtr_stop : (h.setPtr p v).stop = h.stop := rfl
@[simp] theorem setSize_ptr : (h.setSize p v).ptr = h.ptr := rfl
@[simp] theorem setSize_size :
    (h.setSize p v).size = Function.update h.size p (v % 4294967296) := rfl
@[simp] theorem setSize_freep : (h.setSize p v).freep = h.freep := rfl
@[simp] theorem setSize_sz : (h.setSize p v).sz = h.sz := rfl
@[simp] theorem setSize_room : (h.setSize p v).room = h.room := rfl

theorem setSize_stop_self (hv : v < 4294967296) : (h.setSize p v).stop p = p + 16 * v := by
  simp [stop, Nat.mod_eq_of_lt hv]

theorem setSize_stop_of_ne (hne : q ≠ p) : (h.setSize p v).stop q = h.stop q := by
  simp [stop, Function.update_of_ne hne]

end Heap

/-- The circle of free blocks, `base` being an empty block below all others. -/
structure FreeList (base : ℕ) (h : Heap) (L : List ℕ) : Prop where
  ring : Trail h.ptr base L base
  empty : h.size base = 0
  pos : ∀ a ∈ L, 0 < h.size a
  gap : (base :: L).Pairwise fun a b => h.stop a < b
  freep : h.freep ∈ base :: L

/-- The headers outside a list are as they were, and so is the kernel's side. -/
structure SameBut (l : List ℕ) (h h' : Heap) : Prop where
  ptr : ∀ x ∉ l, h'.ptr x = h.ptr x
  size : ∀ x ∉ l, h'.size x = h.size x
  sz : h'.sz = h.sz
  room : h'.room = h.room

theorem SameBut.stop (hs : SameBut P h h') (hx : x ∉ P) : h'.stop x = h.stop x := by
  rw [Heap.stop, Heap.stop, hs.size x hx]

theorem le_stop (h : Heap) (p : ℕ) : p ≤ h.stop p := Nat.le_add_right p _

theorem lt_stop (hpos : 0 < h.size p) : p < h.stop p := by
  unfold Heap.stop
  omega

theorem stop_of_empty (hempty : h.size p = 0) : h.stop p = p := by
  rw [Heap.stop, hempty, mul_zero, add_zero]

namespace FreeList

theorem nodup (hf : FreeList base h L) : (base :: L).Nodup := by
  refine hf.gap.imp ?_
  intro a b hab heq
  exact absurd (hab.trans_le heq.ge) (not_lt.mpr (le_stop h a))

theorem separated (hf : FreeList base h L) : Separated h.stop L where
  pos a ha := lt_stop (hf.pos a ha)
  gap := hf.gap.of_cons

theorem base_lt (hf : FreeList base h L) (hx : x ∈ L) : base < x :=
  (le_stop h base).trans_lt (List.rel_of_pairwise_cons hf.gap hx)

/-- A block that has units is not the empty one at the base. -/
theorem ne_base (hf : FreeList base h L) (hnu : 0 < nu) (hfit : nu ≤ h.size x) : x ≠ base := by
  rintro rfl
  rw [hf.empty] at hfit
  omega

theorem mem_of_fit (hf : FreeList base h L) (heq : base :: L = P ++ p :: x :: Q) (hnu : 0 < nu)
    (hfit : nu ≤ h.size x) : x ∈ L := by
  have hmem : x ∈ base :: L := by simp [heq]
  exact (List.mem_cons.mp hmem).resolve_left (hf.ne_base hnu hfit)

theorem covered_base (hf : FreeList base h L) :
    Covered h.stop (base :: L) x ↔ Covered h.stop L x := by
  rw [covered_cons, stop_of_empty hf.empty]
  refine or_iff_right ?_
  rintro ⟨hle, hlt⟩
  exact absurd hlt (not_lt.mpr hle)

section

variable (hf : FreeList base h L) (heq : base :: L = P ++ p :: Q)

include hf heq

theorem gap_split : (P ++ p :: Q).Pairwise fun a b => h.stop a < b := heq ▸ hf.gap

theorem stop_lt_of_mem_left {a : ℕ} (ha : a ∈ P) : h.stop a < p :=
  (List.pairwise_append.mp (hf.gap_split heq)).2.2 a ha p List.mem_cons_self

theorem gap_right : (p :: Q).Pairwise fun a b => h.stop a < b :=
  (List.pairwise_append.mp (hf.gap_split heq)).2.1

theorem stop_lt_of_mem_right {a : ℕ} (ha : a ∈ Q) : h.stop p < a :=
  List.rel_of_pairwise_cons (hf.gap_right heq) ha

theorem lt_of_mem_left {a : ℕ} (ha : a ∈ P) : a < p :=
  (le_stop h a).trans_lt (hf.stop_lt_of_mem_left heq ha)

theorem lt_of_mem_right {a : ℕ} (ha : a ∈ Q) : p < a :=
  (le_stop h p).trans_lt (hf.stop_lt_of_mem_right heq ha)

theorem mem_of_mem_right {a : ℕ} (ha : a ∈ Q) : a ∈ L := by
  cases P with
  | nil =>
    obtain ⟨-, rfl⟩ := List.cons.inj heq
    exact ha
  | cons y P =>
    obtain ⟨-, rfl⟩ := List.cons.inj heq
    simp [ha]

/-- Each link goes to the next block, or from the last one to `base`. -/
theorem ptr_eq : (∃ c ∈ Q, h.ptr p = c ∧ h.stop p < c) ∨ Q = [] ∧ h.ptr p = base := by
  have htrail := (hf.ring.splice heq).1
  cases Q with
  | nil => exact .inr ⟨rfl, htrail⟩
  | cons c Q =>
    exact .inl ⟨c, List.mem_cons_self, htrail.1, hf.stop_lt_of_mem_right heq List.mem_cons_self⟩

end

/-- Blocks in the order of their addresses do not overlap. -/
theorem stop_lt_of_lt {a b : ℕ} (hf : FreeList base h L) (ha : a ∈ base :: L)
    (hb : b ∈ base :: L) (hab : a < b) : h.stop a < b := by
  obtain ⟨P, Q, heq⟩ := List.append_of_mem ha
  rw [heq] at hb
  rcases List.mem_append.mp hb with hb | hb
  · exact absurd (hf.lt_of_mem_left heq hb) (not_lt.mpr hab.le)
  · rcases List.mem_cons.mp hb with rfl | hb
    · exact absurd hab (lt_irrefl _)
    · exact hf.stop_lt_of_mem_right heq hb

/-- A link leads no further than to the next block. -/
theorem ptr_le_of_lt {a b : ℕ} (hf : FreeList base h L) (ha : a ∈ base :: L)
    (hb : b ∈ base :: L) (hab : a < b) : a < h.ptr a ∧ h.ptr a ≤ b := by
  obtain ⟨P, Q, heq⟩ := List.append_of_mem ha
  have hbQ : b ∈ Q := by
    rw [heq] at hb
    rcases List.mem_append.mp hb with hb | hb
    · exact absurd (hf.lt_of_mem_left heq hb) (not_lt.mpr hab.le)
    · exact (List.mem_cons.mp hb).resolve_left hab.ne'
  obtain ⟨c, Q, rfl⟩ := List.exists_cons_of_ne_nil (List.ne_nil_of_mem hbQ)
  have hptr : h.ptr a = c := (hf.ring.splice heq).1.1
  have heq' : base :: L = (P ++ [a]) ++ c :: Q := by simp [heq]
  constructor
  · exact hptr ▸ hf.lt_of_mem_right heq List.mem_cons_self
  · rw [hptr]
    rcases List.mem_cons.mp hbQ with rfl | hbQ
    · exact le_rfl
    · exact (hf.lt_of_mem_right heq' hbQ).le

theorem lt_ptr_or {a : ℕ} (hf : FreeList base h L) (ha : a ∈ base :: L) :
    a < h.ptr a ∨ h.ptr a = base := by
  obtain ⟨P, Q, heq⟩ := List.append_of_mem ha
  rcases hf.ptr_eq heq with ⟨c, -, hptr, hlt⟩ | ⟨-, hptr⟩
  · exact .inl (hptr ▸ (le_stop h a).trans_lt hlt)
  · exact .inr hptr

theorem base_le (hf : FreeList base h L) (hx : x ∈ base :: L) : base ≤ x := by
  rcases List.mem_cons.mp hx with rfl | hx
  · exact le_rfl
  · exact (hf.base_lt hx).le

/-- The list cut at the last block below `bp`. -/
theorem cut (hf : FreeList base h L) (hbase : base < bp)
    (hbp : ∀ a ∈ L, h.stop a ≤ bp ∨ bp < a) :
    ∃ P p Q, base :: L = P ++ p :: Q ∧ h.stop p ≤ bp ∧ p < bp ∧ ∀ a ∈ Q, bp < a := by
  have hcut : ∀ (l : List ℕ) (a : ℕ), (a :: l).Pairwise (fun a b => h.stop a < b) →
      h.stop a ≤ bp → a < bp → (∀ b ∈ l, h.stop b ≤ bp ∨ bp < b) → (∀ b ∈ l, 0 < h.size b) →
      ∃ P p Q, a :: l = P ++ p :: Q ∧ h.stop p ≤ bp ∧ p < bp ∧ ∀ b ∈ Q, bp < b := by
    intro l
    induction l with
    | nil => exact fun a _ hstop hlt _ _ => ⟨[], a, [], rfl, hstop, hlt, by simp⟩
    | cons b l ih =>
      intro a hgap hstop hlt hall hpos
      rcases hall b List.mem_cons_self with hb | hb
      · obtain ⟨P, p, Q, heq, hp⟩ := ih b hgap.of_cons hb
          ((lt_stop (hpos b List.mem_cons_self)).trans_le hb)
          (fun c hc => hall c (List.mem_cons_of_mem b hc))
          (fun c hc => hpos c (List.mem_cons_of_mem b hc))
        exact ⟨a :: P, p, Q, by rw [heq, List.cons_append], hp⟩
      · refine ⟨[], a, b :: l, rfl, hstop, hlt, fun c hc => ?_⟩
        rcases List.mem_cons.mp hc with rfl | hc
        · exact hb
        · exact hb.trans ((le_stop h b).trans_lt (List.rel_of_pairwise_cons hgap.of_cons hc))
  exact hcut L base hf.gap ((stop_of_empty hf.empty).trans_le hbase.le) hbase hbp hf.pos

/-- The search of `free` ends at that block. -/
theorem search_eq (hf : FreeList base h L) (heq : base :: L = P ++ p :: Q) (hp : p < bp)
    (hQ : ∀ a ∈ Q, bp < a) (hfuel : L.length < fuel) : search h bp fuel = some p := by
  have hmem : p ∈ base :: L := by simp [heq]
  refine walk_circle hf.ring hf.nodup hf.freep hmem ?_ hfuel
  intro y hy
  simp only [Bool.or_eq_true, decide_eq_true_eq]
  have hlow := hf.base_le hmem
  rcases lt_trichotomy y p with hyp | rfl | hpy
  · have hnext := hf.ptr_le_of_lt hy hmem hyp
    omega
  · refine iff_of_true ?_ rfl
    rcases hf.ptr_eq heq with ⟨c, hc, hptr, -⟩ | ⟨-, hptr⟩
    · exact .inl ⟨hp, hptr ▸ hQ c hc⟩
    · exact .inr ⟨hptr ▸ hlow, .inl hp⟩
  · have hyQ : bp < y := by
      rw [heq] at hy
      rcases List.mem_append.mp hy with hy | hy
      · exact absurd (hf.lt_of_mem_left heq hy) (not_lt.mpr hpy.le)
      · exact hQ y ((List.mem_cons.mp hy).resolve_left hpy.ne')
    have hnext := hf.lt_ptr_or hy
    omega

end FreeList

/-- A new tail behind one of the blocks. -/
theorem FreeList.retail {M : List ℕ} (h' : Heap) (hf : FreeList base h L)
    (heq : base :: L = P ++ p :: Q)
    (hptr : ∀ x ∈ P, h'.ptr x = h.ptr x) (hsize : ∀ x ∈ P, h'.size x = h.size x)
    (htrail : Trail h'.ptr p M base) (hgap : (p :: M).Pairwise fun a b => h'.stop a < b)
    (hpos : ∀ c ∈ M, 0 < h'.size c) (hle : h.size p ≤ h'.size p)
    (hempty : p = base → h'.size p = 0) (hfreep : h'.freep = p) :
    ∃ L', base :: L' = P ++ p :: M ∧ FreeList base h' L' := by
  obtain ⟨L', hL', hring⟩ := (hf.ring.splice heq).2 h'.ptr M hptr htrail
  have hstop : ∀ x ∈ P, h'.stop x = h.stop x := fun x hx => by
    rw [Heap.stop, Heap.stop, hsize x hx]
  have hold := heq ▸ hf.gap
  obtain ⟨hP, -, hcross⟩ := List.pairwise_append.mp hold
  have hmem : ∀ x ∈ P ++ [p], x = base ∨ x ∈ L := by
    intro x hx
    have hx' : x ∈ base :: L := by
      rw [heq]
      rcases List.mem_append.mp hx with hx | hx
      · exact List.mem_append_left _ hx
      · simp [List.mem_singleton.mp hx]
    exact List.mem_cons.mp hx'
  have hnodup : (base :: L').Pairwise fun a b => h'.stop a < b := by
    rw [hL', List.pairwise_append]
    refine ⟨hP.imp_of_mem fun ha _ hab => (hstop _ ha).trans_lt hab, hgap, fun a ha b hb => ?_⟩
    rw [hstop a ha]
    have hap := hcross a ha p List.mem_cons_self
    rcases List.mem_cons.mp hb with rfl | hb
    · exact hap
    · exact hap.trans ((le_stop h' p).trans_lt (List.rel_of_pairwise_cons hgap hb))
  have hbase : h'.size base = 0 := by
    cases P with
    | nil =>
      obtain ⟨rfl, -⟩ := List.cons.inj hL'
      exact hempty rfl
    | cons y P =>
      obtain ⟨rfl, -⟩ := List.cons.inj hL'
      rw [hsize base List.mem_cons_self, hf.empty]
  refine ⟨L', hL', hring, hbase, fun a ha => ?_, hnodup, ?_⟩
  · have hne : a ≠ base := by
      rintro rfl
      exact absurd (List.rel_of_pairwise_cons hnodup ha) (not_lt.mpr (le_stop h' a))
    have ha' : a ∈ P ++ p :: M := hL' ▸ List.mem_cons_of_mem base ha
    rcases List.mem_append.mp ha' with haP | ha'
    · rw [hsize a haP]
      exact hf.pos a ((hmem a (List.mem_append_left _ haP)).resolve_left hne)
    · rcases List.mem_cons.mp ha' with rfl | haM
      · exact (hf.pos a ((hmem a (by simp)).resolve_left hne)).trans_le hle
      · exact hpos a haM
  · rw [hfreep, hL']
    simp

/-! ## Joining two blocks -/

/-- Let the block at `b` follow the one at `a`, as part of it where the two touch. -/
def attach (h : Heap) (a b : ℕ) : Heap :=
  if h.stop a = b then (h.setSize a (h.size a + h.size b)).setPtr a (h.ptr b)
  else h.setPtr a b

theorem joinNext_eq : joinNext h bp p = attach h bp (h.ptr p) := rfl

theorem joinPrev_eq : joinPrev h bp p = attach h p bp := rfl

theorem attach_sameBut (h : Heap) (a b : ℕ) : SameBut [a] h (attach h a b) := by
  unfold attach
  split_ifs
  · constructor <;> simp +contextual
  · constructor <;> simp +contextual

@[simp] theorem attach_freep (h : Heap) (a b : ℕ) : (attach h a b).freep = h.freep := by
  unfold attach
  split_ifs <;> rfl

theorem attach_size {a b : ℕ} (hne : h.stop a ≠ b) : (attach h a b).size = h.size := by
  rw [attach, if_neg hne]
  rfl

/-- A block and the blocks behind it, joined at the front. -/
theorem attach_spec (base : ℕ) {a b : ℕ} {M : List ℕ}
    (hpath : Trail (Function.update h.ptr a b) a M base)
    (hgap : M.Pairwise fun x y => h.stop x < y) (hpos : ∀ c ∈ M, 0 < h.size c)
    (hlt : ∀ c ∈ M, a < c) (hle : ∀ c ∈ M, h.stop a ≤ c)
    (hsize : ∀ c ∈ M, h.size a + h.size c < 4294967296) (hbase : M = [] → h.stop a ≠ base) :
    ∃ M', Trail (attach h a b).ptr a M' base ∧
      (a :: M').Pairwise (fun x y => (attach h a b).stop x < y) ∧ M' ⊆ M ∧
      h.size a ≤ (attach h a b).size a ∧
      ∀ x, Covered (attach h a b).stop (a :: M') x ↔ Covered h.stop (a :: M) x := by
  have hsame := attach_sameBut h a b
  have hstop : ∀ c ∈ M, (attach h a b).stop c = h.stop c := fun c hc =>
    hsame.stop (by simpa using (hlt c hc).ne')
  have hgap' : M.Pairwise fun x y => (attach h a b).stop x < y :=
    hgap.imp_of_mem fun hx _ hxy => (hstop _ hx).trans_lt hxy
  cases M with
  | nil =>
    have hb : b = base := by simpa [Trail] using hpath
    have hne : h.stop a ≠ b := hb ▸ hbase rfl
    have hstop' : (attach h a b).stop a = h.stop a := by
      rw [Heap.stop, Heap.stop, attach_size hne]
    refine ⟨[], ?_, by simp, by simp, (attach_size hne ▸ le_rfl), by simp [hstop']⟩
    rw [attach, if_neg hne]
    simpa [Trail] using hb
  | cons c M =>
    obtain ⟨hb, hrest⟩ := hpath
    rw [Function.update_self] at hb
    subst hb
    have hagree : ∀ x ∈ b :: M, (attach h a b).ptr x = Function.update h.ptr a b x := by
      intro x hx
      rw [hsame.ptr x (by simpa using (hlt x hx).ne'),
        Function.update_of_ne (hlt x hx).ne']
    by_cases htouch : h.stop a = b
    · have hnew : (attach h a b).stop a = h.stop b := by
        rw [attach, if_pos htouch, Heap.setPtr_stop,
          Heap.setSize_stop_self (hsize b List.mem_cons_self)]
        unfold Heap.stop at htouch ⊢
        omega
      refine ⟨M, ?_, List.pairwise_cons.mpr ⟨fun x hx => ?_, hgap'.of_cons⟩,
        List.subset_cons_self b M, ?_, fun x => ?_⟩
      · apply hrest.enter
        · rw [attach, if_pos htouch, Heap.setPtr_ptr, Function.update_self,
            Function.update_of_ne (hlt b List.mem_cons_self).ne']
        · exact fun x hx => hagree x (List.mem_cons_of_mem b hx)
      · rw [hnew]
        exact List.rel_of_pairwise_cons hgap hx
      · rw [attach, if_pos htouch, Heap.setPtr_size, Heap.setSize_size, Function.update_self,
          Nat.mod_eq_of_lt (hsize b List.mem_cons_self)]
        exact Nat.le_add_right _ _
      · have hb : b < h.stop b := lt_stop (hpos b List.mem_cons_self)
        have ha : a ≤ h.stop a := le_stop h a
        rw [covered_cons, covered_cons, covered_cons, hnew,
          covered_congr fun c hc => hstop c (List.mem_cons_of_mem b hc), ← or_assoc]
        refine or_congr_left ?_
        omega
    · have hnew : (attach h a b).stop a = h.stop a := by
        rw [Heap.stop, Heap.stop, attach_size htouch]
      refine ⟨b :: M, ⟨?_, hrest.congr hagree⟩, List.pairwise_cons.mpr ⟨fun x hx => ?_, hgap'⟩,
        List.Subset.refl _, (attach_size htouch ▸ le_rfl), fun x => ?_⟩
      · rw [attach, if_neg htouch, Heap.setPtr_ptr, Function.update_self]
      · rw [hnew]
        have hb : h.stop a < b := lt_of_le_of_ne (hle b List.mem_cons_self) htouch
        rcases List.mem_cons.mp hx with rfl | hx
        · exact hb
        · exact hb.trans ((le_stop h b).trans_lt (List.rel_of_pairwise_cons hgap hx))
      · rw [covered_cons, covered_cons (a := a), hnew, covered_congr hstop]

/-! ## `free` -/

/-- The block goes into the list, which covers its bytes from then on. -/
theorem free_spec (hf : FreeList base h L) (hbase : base < bp) (hpos : 0 < h.size bp)
    (hclear : ∀ a ∈ L, h.stop a ≤ bp ∨ h.stop bp ≤ a)
    (hbound : ∀ a ∈ bp :: L, h.stop a < 68719476736) (hfuel : L.length < fuel) :
    ∃ h' L', free fuel h (bp + 16) = some h' ∧ FreeList base h' L' ∧ L' ⊆ bp :: L ∧
      SameBut (bp :: base :: L) h h' ∧
      ∀ x, Covered h'.stop L' x ↔ bp ≤ x ∧ x < h.stop bp ∨ Covered h.stop L x := by
  have hbp := lt_stop hpos
  obtain ⟨P, p, Q, heq, hstop, hp, hQ⟩ := hf.cut hbase fun a ha =>
    (hclear a ha).imp_right hbp.trans_le
  have hbaseP : ∀ x ∈ P ++ p :: Q, x = base ∨ x ∈ L := fun x hx =>
    List.mem_cons.mp (heq ▸ hx)
  have hQL : ∀ c ∈ Q, c ∈ L := fun c hc => hf.mem_of_mem_right heq hc
  have hpmem : p ∈ base :: L := by simp [heq]
  have hpQ := hf.gap_right heq
  have hQstop : ∀ c ∈ Q, h.stop bp ≤ c := fun c hc =>
    (hclear c (hQL c hc)).resolve_left fun hle =>
      absurd ((le_stop h c).trans hle) (not_le.mpr (hQ c hc))
  -- the block joined with what is above it
  obtain ⟨M, hM, hMgap, hMQ, hMsize, hMcov⟩ := attach_spec (h := h) base
    (a := bp) (b := h.ptr p) (M := Q)
    ((hf.ring.splice heq).1.enter (Function.update_self _ _ _) fun x hx =>
      Function.update_of_ne (hQ x hx).ne' _ _)
    hpQ.of_cons (fun c hc => hf.pos c (hQL c hc)) hQ hQstop
    (fun c hc => by
      have h1 := hQstop c hc
      have h2 := hbound c (List.mem_cons_of_mem bp (hQL c hc))
      unfold Heap.stop at h1 h2
      omega)
    (fun _ => by omega)
  have hsame1 := attach_sameBut h bp (h.ptr p)
  rw [← joinNext_eq] at hM hMgap hMsize hMcov hsame1
  generalize hh1 : joinNext h bp p = h1 at *
  have hlt : ∀ c ∈ bp :: M, p < c := by
    intro c hc
    rcases List.mem_cons.mp hc with rfl | hc
    · exact hp
    · exact hp.trans (hQ c (hMQ hc))
  have hpbp : p ∉ [bp] := by simpa using hp.ne
  have hstop1 : h1.stop p ≤ bp := (hsame1.stop hpbp).trans_le hstop
  have hpos1 : ∀ c ∈ bp :: M, 0 < h1.size c := by
    intro c hc
    rcases List.mem_cons.mp hc with rfl | hc
    · exact hpos.trans_le hMsize
    · rw [hsame1.size c (by simpa using (hQ c (hMQ hc)).ne')]
      exact hf.pos c (hQL c (hMQ hc))
  have hbound1 : ∀ c ∈ bp :: M, h1.stop c < 68719476736 := by
    intro c hc
    have hc1 := lt_stop (hpos1 c hc)
    obtain ⟨d, hd, -, hlast⟩ := (hMcov (h1.stop c - 1)).mp ⟨c, hc, by omega, by omega⟩
    have hd' : d ∈ bp :: L := by
      rcases List.mem_cons.mp hd with rfl | hd
      · exact List.mem_cons_self
      · exact List.mem_cons_of_mem bp (hQL d hd)
    have := hbound d hd'
    omega
  -- and then with what is below it
  obtain ⟨M', hM', hMgap', hMM', hpsize, hcov⟩ := attach_spec (h := h1) base
    (a := p) (b := bp) (M := bp :: M)
    ⟨Function.update_self _ _ _, hM.congr fun x hx =>
      Function.update_of_ne (hlt x hx).ne' _ _⟩
    hMgap hpos1 hlt
    (fun c hc => by
      rcases List.mem_cons.mp hc with rfl | hc
      · exact hstop1
      · exact hstop1.trans (hQ c (hMQ hc)).le)
    (fun c hc => by
      have h1' := hbound1 c hc
      have h2 := hlt c hc
      have h3 : h1.stop p ≤ c := by
        rcases List.mem_cons.mp hc with rfl | hc
        · exact hstop1
        · exact hstop1.trans (hQ c (hMQ hc)).le
      unfold Heap.stop at h1' h3
      omega)
    (fun hnil => absurd hnil (List.cons_ne_nil _ _))
  have hsame2 := attach_sameBut h1 p bp
  rw [← joinPrev_eq] at hM' hMgap' hpsize hcov hsame2
  generalize hh2 : joinPrev h1 bp p = h2 at *
  have hsame : ∀ x, x ≠ bp → x ≠ p → h2.ptr x = h.ptr x ∧ h2.size x = h.size x := by
    intro x hx hxp
    have hx1 : x ∉ [bp] := by simpa using hx
    have hx2 : x ∉ [p] := by simpa using hxp
    exact ⟨(hsame2.ptr x hx2).trans (hsame1.ptr x hx1),
      (hsame2.size x hx2).trans (hsame1.size x hx1)⟩
  have hPsame : ∀ x ∈ P, h2.ptr x = h.ptr x ∧ h2.size x = h.size x := fun x hx =>
    hsame x ((hf.lt_of_mem_left heq hx).trans hp).ne (hf.lt_of_mem_left heq hx).ne
  obtain ⟨L', hL', hf'⟩ := hf.retail { h2 with freep := p } heq
    (fun x hx => (hPsame x hx).1) (fun x hx => (hPsame x hx).2) hM' hMgap'
    (fun c hc => by
      have hc' := hMM' hc
      have hne : c ∉ [p] := by simpa using (hlt c hc').ne'
      exact (hsame2.size c hne).symm ▸ hpos1 c hc')
    ((hsame1.size p hpbp).ge.trans hpsize)
    (fun hpb => by
      subst hpb
      have hne : h1.stop p ≠ bp := by
        rw [hsame1.stop hpbp, stop_of_empty hf.empty]
        exact hbase.ne
      show h2.size p = 0
      rw [← hh2, joinPrev_eq, attach_size hne, hsame1.size p hpbp, hf.empty])
    rfl
  refine ⟨{ h2 with freep := p }, L', ?_, hf', ?_, ⟨?_, ?_, ?_, ?_⟩, fun x => ?_⟩
  · have hsearch := hf.search_eq heq hp hQ hfuel
    simp only [free, Nat.add_sub_cancel, hsearch, Option.map_some, hh1, hh2]
  · intro a ha
    have hne : a ≠ base := (hf'.base_lt ha).ne'
    have ha' : a ∈ P ++ p :: M' := hL' ▸ List.mem_cons_of_mem base ha
    have hmem : a = bp ∨ a ∈ P ++ p :: Q := by
      rcases List.mem_append.mp ha' with ha' | ha'
      · exact .inr (List.mem_append_left _ ha')
      · rcases List.mem_cons.mp ha' with rfl | ha'
        · exact .inr (by simp)
        · rcases List.mem_cons.mp (hMM' ha') with rfl | ha'
          · exact .inl rfl
          · exact .inr (by simp [hMQ ha'])
    rcases hmem with rfl | hmem
    · exact List.mem_cons_self
    · exact List.mem_cons_of_mem bp ((hbaseP a hmem).resolve_left hne)
  · intro x hx
    have hne : x ≠ bp ∧ x ∉ base :: L := not_or.mp (List.mem_cons.not.mp hx)
    exact (hsame x hne.1 fun hxp => hne.2 (hxp ▸ hpmem)).1
  · intro x hx
    have hne : x ≠ bp ∧ x ∉ base :: L := not_or.mp (List.mem_cons.not.mp hx)
    exact (hsame x hne.1 fun hxp => hne.2 (hxp ▸ hpmem)).2
  · exact hsame2.sz.trans hsame1.sz
  · exact hsame2.room.trans hsame1.room
  · have hPcov : Covered h2.stop P x ↔ Covered h.stop P x :=
      covered_congr fun a ha => by rw [Heap.stop, Heap.stop, (hPsame a ha).2]
    have hp1 : h1.stop p = h.stop p := hsame1.stop hpbp
    rw [← hf'.covered_base, hL', ← hf.covered_base, heq, covered_append, covered_append]
    show Covered h2.stop P x ∨ Covered h2.stop (p :: M') x ↔ _
    rw [hPcov, hcov, covered_cons (a := p), hMcov, covered_cons, covered_cons (a := p), hp1,
      or_left_comm (a := p ≤ x ∧ x < h.stop p), or_left_comm]

end XV6AndConcurrency.UserHeap
