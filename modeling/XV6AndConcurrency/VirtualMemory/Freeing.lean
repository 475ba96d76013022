import XV6AndConcurrency.VirtualMemory.Unmapping

/-!
# Specification of freewalk

`freewalk` runs when no entry of a table is valid any more. It takes the
page-table pages apart from the leaves up, and ends with the root on the free
list and every other table as it was.
-/

namespace XV6AndConcurrency.VirtualMemory

open Foundations

/-- No entry of the table rooted at `r` is valid. -/
def Clean (m : Memory) (r : ℕ) : Prop := ∀ x < vpnLimit, pteValid (leaf m r x) = false

variable {L : Layout} {k k' : Kernel} {roots : Finset ℕ} {held : ℕ → ℕ} {r t p i : ℕ}
  {a : Position}

/-- Loop of `freewalk` over entries none of which is valid. -/
theorem freewalkLoop_drained (free : ℕ → KernelM Unit) {n : ℕ}
    (h : ∀ j, i ≤ j → j < i + n → pteValid (k.mem.word t j) = false) :
    freewalkLoop free t n i k = .ok ((), k) := by
  induction n generalizing i with
  | zero => rfl
  | succ n ih =>
    have h0 := h i le_rfl (by omega)
    have hrec := ih (i := i + 1) fun j h1 h2 => h j (by omega) (by omega)
    simp [freewalkLoop, readPte, h0, hrec]

/-- A last-level page of a clean table holds no valid entry. -/
theorem drained_of_clean {j : ℕ} (hclean : Clean k.mem r) (ha : At k.mem roots (.last r i j) t) :
    Drained k.mem t := by
  obtain ⟨-, hi, hj, u, hu, hut⟩ := ha
  intro l hl
  have h2 : vpn2 (i * 262144 + j * 512 + l) = i := by
    unfold vpn2
    omega
  have h1 : vpn1 (i * 262144 + j * 512 + l) = j := by
    unfold vpn1
    omega
  have h0 : vpn0 (i * 262144 + j * 512 + l) = l := by
    unfold vpn0
    omega
  have hv := hclean (i * 262144 + j * 512 + l) (by unfold vpnLimit; omega)
  simpa [leaf, leafTable, h2, h1, h0, hu, hut] using hv

theorem freewalk_last {j d : ℕ} (h : Balanced L k roots held) (hclean : Clean k.mem r)
    (ha : At k.mem roots (.last r i j) t) :
    freewalk L (d + 1) t k = .ok ((), k.release t) := by
  have hd := drained_of_clean hclean ha
  have hloop := freewalkLoop_drained (k := k) (t := t) (freewalk L d) (i := 0) (n := 512)
    fun j _ hj => hd j (by omega)
  simp [freewalk, hloop, kfree_run (h.isPage_of_table ⟨_, ha⟩)]

/-- What freeing the part of a table below one entry leaves: the page `p` below the
entry is drained and about to be released, the rest is as before. -/
structure Emptied (L : Layout) (k k' : Kernel) (roots : Finset ℕ) (held : ℕ → ℕ)
    (a : Position) (t p : ℕ) : Prop where
  coherent : Coherent L k' roots held
  drained : Drained k'.mem p
  table : k'.mem t = k.mem t
  base : k'.mem a.base = k.mem a.base
  clean : Clean k'.mem a.base
  keeps : Keeps k k' roots held (fun s _ => s = a.base)

/-- The position of an inner page depends on the root page only. -/
theorem at_of_base (hf : Forest k.mem roots) (hin : a.inner = true) (ha : At k.mem roots a t)
    (hb : a.base ≠ t → k'.mem a.base = k.mem a.base) : At k'.mem roots a t := by
  cases a with
  | root s => exact ha
  | mid s j =>
    have hst : s ≠ t := by
      rintro rfl
      have := hf.unique ha (b := .root s) ⟨ha.1, rfl⟩
      simp at this
    exact ⟨ha.1, ha.2.1, (nextTable_congr (hb hst) j).trans ha.2.2⟩
  | last s j l => simp [Position.inner] at hin

/-- A page below an inner page is neither that page nor the root. -/
theorem child_ne (hf : Forest k.mem roots) (hin : a.inner = true) (ha : At k.mem roots a t)
    (hi : i < 512) (hnext : nextTable k.mem t i = some p) : t ≠ p ∧ a.base ≠ p := by
  have hc := at_child ha hin hi hnext
  constructor
  · rintro rfl
    have := hf.unique ha hc
    cases a <;> simp [Position.child, Position.inner] at this hin
  · rintro rfl
    have := hf.unique hc (b := .root a.base) ⟨ha.base_mem, rfl⟩
    cases a <;> simp [Position.child] at this

/-- Releasing a drained page and clearing the entry that points at it. -/
theorem release_unlink (h : Coherent L k roots held) (hin : a.inner = true)
    (ha : At k.mem roots a t) (hi : i < 512) (hnext : nextTable k.mem t i = some p)
    (hd : Drained k.mem p) (hclean : Clean k.mem a.base) :
    let k' := (k.release p).setMem ((k.release p).mem.setWord t i 0#64)
    Coherent L k' roots held ∧ Clean k'.mem a.base ∧
      Keeps k k' roots held (fun s _ => s = a.base) ∧ k'.mem t = k.mem.setWord t i 0#64 t ∧
      (a.base ≠ t → k'.mem a.base = k.mem a.base) := by
  obtain ⟨hne, hbp⟩ := child_ne h.forest hin ha hi hnext
  have hb := h.toBalanced.unlink ha hin hi hnext hd hclean
  have htab : IsTable k.mem roots t := ⟨a, ha⟩
  -- the entry is cleared first
  have hleaf : ∀ s ∈ roots, ∀ x < vpnLimit, s ≠ a.base →
      leaf (k.mem.setWord t i 0#64) s x = leaf k.mem s x := fun s hs x hx hsb =>
    leaf_unlink_of_ne h.forest ha hin hnext hs hx hsb
  have hclean1 : Clean (k.mem.setWord t i 0#64) a.base := fun x hx =>
    not_valid_leaf_unlink h.forest ha hin hnext ha.base_mem hx (hclean x hx)
  have hc1 : Coherent L (k.setMem (k.mem.setWord t i 0#64)) roots (bump held p) := by
    refine ⟨hb, h.sharing.shrink ?_ ?_⟩
    · intro s hs x hx hval
      have hsb : s ≠ a.base := by
        rintro rfl
        rw [Kernel.setMem_mem, hclean1 x (hx.trans userVpns_lt)] at hval
        simp at hval
      exact ⟨hs, .of_eq (hleaf s hs x (hx.trans userVpns_lt) hsb)⟩
    · intro s hs x hx q hq _ hz
      rw [bump_apply, hz, if_neg]
      rintro rfl
      have hpos : 0 < mapCount k.mem roots q := by
        have hsb : s ≠ a.base := by
          rintro rfl
          have := hclean1 x (hx.trans userVpns_lt)
          rw [Kernel.setMem_mem] at hq
          simp [Maps, this] at hq
        refine mapCount_pos hs hx ?_
        rw [← hleaf s hs x (hx.trans userVpns_lt) hsb]
        exact hq
      exact h.not_table_of_mapped hpos ⟨_, at_child ha hin hi hnext⟩
  have hk1 : Keeps k (k.setMem (k.mem.setWord t i 0#64)) roots held (fun s _ => s = a.base) := by
    have hbytes : ∀ q, 0 < mapCount k.mem roots q + held q →
        (k.mem.setWord t i 0#64) q = k.mem q := by
      intro q hq
      apply Memory.setWord_of_ne
      rintro rfl
      have := h.alone q htab
      omega
    refine .of_leaves hleaf ?_ ?_
    · intro s hs x hx _ q hq
      have := mapCount_pos hs hx hq
      exact hbytes q (by omega)
    · intro q hq
      exact hbytes q (by omega)
  have hrel := hc1.release (p := p) (by simp)
  have hk2 := release_keeps hc1.toBalanced (p := p) (by simp) (D := fun s _ => s = a.base)
  rw [drop_bump] at hrel hk2
  have hpt : ¬ IsTable (k.mem.setWord t i 0#64) roots p :=
    hc1.not_table_of_held (p := p) (by simp)
  simp only [release_setWord hne]
  refine ⟨hrel, ?_, hk1.trans hk2, ?_, ?_⟩
  · intro x hx
    rw [leaf_congr _ ha.base_mem hx]
    · exact hclean1 x hx
    · intro u hu
      apply Kernel.release_mem_of_ne
      rintro rfl
      exact hpt hu
  · exact Kernel.release_mem_of_ne _ hne
  · intro hbt
    rw [Kernel.release_mem_of_ne _ hbp]
    exact Memory.setWord_of_ne _ _ _ _ _ hbt

/-- The loop of `freewalk` over the entries of an inner page from `i` on, given what
freeing the pages below does. -/
theorem freewalkLoop_spec {f : ℕ → KernelM Unit} {n : ℕ} (hin : a.inner = true)
    (hfree : ∀ k j p, Coherent L k roots held → At k.mem roots a t → Clean k.mem a.base →
      j < 512 → nextTable k.mem t j = some p →
      Ensures (f p) (fun _ k' => ∃ k'', k' = k''.release p ∧
        Emptied L k k'' roots held a t p) k)
    (h : Coherent L k roots held) (ha : At k.mem roots a t) (hclean : Clean k.mem a.base)
    (hn : i + n = 512) (hdone : ∀ j < i, pteValid (k.mem.word t j) = false) :
    Ensures (freewalkLoop f t n i) (fun _ k' =>
      Coherent L k' roots held ∧ At k'.mem roots a t ∧ Drained k'.mem t ∧ Clean k'.mem a.base ∧
      Keeps k k' roots held (fun s _ => s = a.base) ∧
      (a.base ≠ t → k'.mem a.base = k.mem a.base)) k := by
  induction n generalizing k i with
  | zero =>
    refine .of_pure ⟨h, ha, ?_, hclean, .refl, fun _ => rfl⟩
    intro j hj
    exact hdone j (by omega)
  | succ n ih =>
    unfold freewalkLoop
    refine .bind_of_run (a := k.mem.word t i) (t := k) rfl ?_
    by_cases hval : pteValid (k.mem.word t i) = true
    · have hnext : nextTable k.mem t i = some (pte2pa (k.mem.word t i)) := by
        simp [nextTable, hval]
      have hplain : k.mem.word t i &&& (pteR ||| pteW ||| pteX) = 0#64 := by
        have hfl := h.forest.plain ha hin (i := i) (by omega) hval
        apply pte_ext
        intro j _
        have hj : pteBit j (pteFlags (k.mem.word t i)) = pteBit j pteV := by rw [hfl]
        simp only [pteBit_pteFlags, pteBit_pteV] at hj
        by_cases hj10 : j < 10
        · simp only [hj10, decide_true, Bool.and_true] at hj
          simp [hj]
          omega
        · simp
          omega
      rw [if_pos ⟨by simp [hval], hplain⟩]
      refine .bind (hfree k i _ h ha hclean (by omega) hnext) ?_
      rintro _ _ ⟨k1, rfl, he⟩
      have ha1 : At k1.mem roots a t := at_of_base h.forest hin ha fun _ => he.base
      have hnext1 : nextTable k1.mem t i = some (pte2pa (k.mem.word t i)) := by
        rw [nextTable_congr he.table, hnext]
      obtain ⟨hc2, hclean2, hk2, ht2, hb2⟩ :=
        release_unlink he.coherent hin ha1 (by omega) hnext1 he.drained he.clean
      refine .bind_of_run (a := ()) rfl ?_
      refine (ih hc2 (at_of_base he.coherent.forest hin ha1 hb2) hclean2 (by omega) ?_).mono ?_
      · intro j hj
        rw [Memory.word_congr ht2]
        by_cases hji : j = i
        · subst hji
          simp
        · rw [Memory.word_setWord_of_ne _ _ _ _ _ _ (Or.inr hji), Memory.word_congr he.table]
          exact hdone j (by omega)
      · rintro _ k3 ⟨hc3, ha3, hd3, hclean3, hk3, hb3⟩
        refine ⟨hc3, ha3, hd3, hclean3, (he.keeps.trans hk2).trans hk3, ?_⟩
        intro hbt
        exact ((hb3 hbt).trans (hb2 hbt)).trans he.base
    · have hval : pteValid (k.mem.word t i) = false := by simpa using hval
      rw [if_neg (by simp [hval]), if_neg (by simp [hval])]
      refine ih h ha hclean (by omega) ?_
      intro j hj
      by_cases hji : j = i
      · subst hji
        exact hval
      · exact hdone j (by omega)

/-- Freeing a clean table: its pages go back to the allocator, every other table
and every held page is as before. -/
theorem freewalk_spec (h : Coherent L k roots held) (hr : r ∈ roots) (hclean : Clean k.mem r) :
    Ensures (freewalk L 3 r) (fun _ k' => Coherent L k' (roots.erase r) held ∧
      Keeps k k' (roots.erase r) held (fun _ _ => False)) k := by
  -- the middle level
  have hmid : ∀ i, ∀ k t, Coherent L k roots held → At k.mem roots (.mid r i) t →
      Clean k.mem r → Ensures (freewalkLoop (freewalk L 1) t 512 0) (fun _ k' =>
        Coherent L k' roots held ∧ At k'.mem roots (.mid r i) t ∧ Drained k'.mem t ∧
        Clean k'.mem r ∧ Keeps k k' roots held (fun s _ => s = r) ∧
        (r ≠ t → k'.mem r = k.mem r)) k := by
    intro i k t hc ha hcl
    refine freewalkLoop_spec (a := .mid r i) rfl ?_ hc ha hcl (by omega) (by omega)
    intro k j p hc ha hcl hj hnext
    have hchild := at_child ha rfl hj hnext
    refine .of_run (freewalk_last hc.toBalanced hcl hchild) ⟨k, rfl, hc,
      drained_of_clean hcl hchild, rfl, rfl, hcl, .refl⟩
  -- the root
  have hroot := freewalkLoop_spec (a := .root r) (t := r) (f := freewalk L 2) (L := L)
    (k := k) (i := 0) (n := 512) rfl (by
      intro k j p hc ha hcl hj hnext
      have hchild : At k.mem roots (.mid r j) p := at_child ha rfl hj hnext
      have hne := (child_ne hc.forest rfl ha hj hnext).1
      refine .bind (hmid j k p hc hchild hcl) ?_
      rintro _ k1 ⟨hc1, ha1, hd1, hcl1, hk1, hb1⟩
      refine .of_run (kfree_run (hc1.isPage_of_table ⟨_, ha1⟩)) ⟨k1, rfl, hc1, hd1, ?_, ?_, hcl1,
        hk1⟩
      · exact hb1 hne
      · exact hb1 hne) h ⟨hr, rfl⟩ hclean (by omega) (by omega)
  refine .bind hroot ?_
  rintro _ k1 ⟨hc1, ha1, hd1, hcl1, hk1, -⟩
  refine .of_run (kfree_run (hc1.isPage_of_table ⟨_, ha1⟩)) ?_
  have hb := hc1.toBalanced.eraseRoot hr hd1
  have hc2 : Coherent L k1 (roots.erase r) (bump held r) := by
    refine ⟨hb, hc1.sharing.shrink ?_ ?_⟩
    · exact fun s hs x _ _ => ⟨Finset.mem_of_mem_erase hs, .of_eq rfl⟩
    · intro s hs x hx q hq _ hz
      rw [bump_apply, hz, if_neg]
      rintro rfl
      exact hc1.not_table_of_mapped (mapCount_pos (Finset.mem_of_mem_erase hs) hx hq)
        ⟨.root q, hr, rfl⟩
  have hrel := hc2.release (p := r) (by simp)
  have hk2 := release_keeps hc2.toBalanced (p := r) (by simp) (D := fun _ _ => False)
  rw [drop_bump] at hrel hk2
  refine ⟨hrel, KeepsUpTo.trans ?_ hk2⟩
  have hke := hk1.weaken_roots (Finset.erase_subset r roots)
  exact hke.narrow fun s hs _ => Finset.ne_of_mem_erase hs

end XV6AndConcurrency.VirtualMemory
