import XV6AndConcurrency.VirtualMemory.Sharing

/-!
# Specifications of mapping, unmapping and freeing tables

One round of `mappages`, the loop of `uvmunmap` and the recursion of `freewalk`.
The code frees a page before it clears the entry that maps it, so the books are
wrong for a moment; the two writes are to different pages and commute, and the
proofs do them in the other order.
-/

namespace XV6AndConcurrency.VirtualMemory

open Foundations

variable {L : Layout} {k k' : Kernel} {roots : Finset ℕ} {held held' : ℕ → ℕ} {r t v p i : ℕ}

/-! ## Mapping one page -/

theorem maps_mkPte {perm : Pte} (hp : IsPage L p)
    (hperm : ∀ i, 10 ≤ i → pteBit i perm = false) : Maps (pa2pte p ||| perm ||| pteV) p := by
  refine ⟨by simp, ?_⟩
  rw [BitVec.or_assoc]
  apply pte2pa_pa2pte_or hp
  intro i hi
  have : ¬ i = 0 := by omega
  simp [hperm i hi, this]

theorem mappages_page (r v p : ℕ) (perm : Pte) :
    mappages r (v * 4096) pgsize p perm = mapPage r (v * 4096) p perm := by
  have h1 : pgrounddown (v * 4096) = v * 4096 := by simp [pgrounddown, pgsize]
  have h2 : pgrounddown (v * 4096 + pgsize - 1) = v * 4096 := by
    simp only [pgrounddown, pgsize]
    omega
  unfold mappages
  rw [if_neg (by simp [pgsize]), h1, h2]
  simp [mappagesLoop]

/-- `mapPage` writes the entry of `v`, or finds no memory for a page-table page. -/
theorem mapPage_walk (h : Balanced L k roots held) (hr : r ∈ roots) (hv : v * 4096 < maxva)
    (hinv : pteValid (leaf k.mem r v) = false) (p : ℕ) (perm : Pte) :
    Ensures (mapPage r (v * 4096) p perm) (fun ok k' => ∃ k1,
      Balanced L k1 roots held ∧ SameLeaves k k1 roots ∧
      Keeps k k1 roots held (fun _ _ => False) ∧
      k.freelist.length ≤ k1.freelist.length + 2 ∧
      match ok with
      | false => k' = k1 ∧ k.freelist.length ≤ 1
      | true => ∃ t, leafTable k1.mem r v = some t ∧
          k' = k1.setMem (k1.mem.setWord t (vpn0 v) (pa2pte p ||| perm ||| pteV))) k := by
  have hdiv : v * 4096 / 4096 = v := by omega
  have hvl : v < vpnLimit := by
    rw [maxva_eq] at hv
    unfold vpnLimit
    omega
  unfold mapPage
  refine .bind (walk_spec h hr hv) ?_
  rintro res k1 ⟨hb, hl, hk, hlen, hres⟩
  cases res with
  | none => exact .of_pure ⟨k1, hb, hl, hk, hlen, rfl, hres⟩
  | some ref =>
    obtain ⟨hidx, htab⟩ := hres
    rw [hdiv] at hidx htab
    have hw : k1.mem.word ref.table ref.index = leaf k.mem r v := by
      rw [← hl r hr v hvl, leaf, htab, hidx]
    refine .of_run (a := true) (t := k1.setMem (k1.mem.setWord ref.table (vpn0 v)
      (pa2pte p ||| perm ||| pteV))) ?_ ⟨k1, hb, hl, hk, hlen, ref.table, htab, rfl⟩
    rw [hidx] at hw
    simp [readPte, writePte, hw, hinv, hidx]

/-- Mapping a page in hand at the free user page `v`. -/
theorem mapPage_spec (h : Coherent L k roots held) (hr : r ∈ roots) (hv : v < userVpns)
    (hinv : pteValid (leaf k.mem r v) = false) (hp : 0 < held p)
    (hfresh : ∀ x < userVpns, ¬ Maps (leaf k.mem r x) p) {perm : Pte}
    (hperm : ∀ i, 10 ≤ i → pteBit i perm = false)
    (hwr : pteWritable perm = true →
      pteCow perm = false ∧ held p = 1 ∧ mapCount k.mem roots p = 0) :
    Ensures (mapPage r (v * 4096) p perm) (fun ok k' =>
      k.freelist.length ≤ k'.freelist.length + 2 ∧
      match ok with
      | false => Coherent L k' roots held ∧ Keeps k k' roots held (fun _ _ => False) ∧
          k.freelist.length ≤ 1
      | true => Coherent L k' roots (drop held p) ∧
          leaf k'.mem r v = pa2pte p ||| perm ||| pteV ∧
          Keeps k k' roots held (fun s x => s = r ∧ x = v)) k := by
  have hva : v * 4096 < maxva := by
    rw [maxva_eq]
    unfold userVpns at hv
    omega
  have hvl := hv.trans userVpns_lt
  refine (mapPage_walk h.toBalanced hr hva hinv p perm).mono ?_
  rintro ok k' ⟨k1, hb, hl, hk, hlen, hok⟩
  cases ok with
  | false =>
    obtain ⟨rfl, hfl⟩ := hok
    exact ⟨hlen, h.of_sameLeaves hb hl (fun _ _ hz => hz), hk, hfl⟩
  | true =>
    obtain ⟨t, ht, rfl⟩ := hok
    have hc := h.of_sameLeaves hb hl (fun _ _ hz => hz)
    have hmaps := maps_mkPte (h.isPage_of_held hp) hperm
    have hleaf := fun s (hs : s ∈ roots) x (hx : x < userVpns) =>
      leaf_setLeaf hb.forest hr hvl ht (pa2pte p ||| perm ||| pteV) hs (hx.trans userVpns_lt)
    have hold := not_maps_of_not_valid hinv
    refine ⟨hlen, ⟨?_, ?_⟩, ?_, ?_⟩
    · apply hb.setLeaf hr hv ht
      intro q
      rw [hl r hr v hvl, if_neg (hold q), drop_apply]
      by_cases hq : q = p
      · subst hq
        simp only [if_true, if_pos hmaps]
        omega
      · have : ¬ Maps (pa2pte p ||| perm ||| pteV) q := fun hm => hq (hm.2.symm.trans hmaps.2)
        simp [hq, this]
    · refine hc.sharing.setLeaf hr hv hmaps hp ?_ ?_ ?_ hleaf
      · intro x hx
        rw [hl r hr x (hx.trans userVpns_lt)]
        exact hfresh x hx
      · intro hw
        obtain ⟨h1, h2, h3⟩ := hwr (by simpa using hw)
        refine ⟨by simpa using h1, by simp [drop_apply, h2], ?_⟩
        · rw [mapCount_congr (m := k.mem), h3]
          intro s hs x hx
          rw [hl s hs x (hx.trans userVpns_lt)]
      · intro q hq _ hz
        simp [drop_apply, hz]
    · simp [leaf_setLeaf hb.forest hr hvl ht _ hr hvl]
    · exact (hk.mono fun _ _ hF => hF.elim).trans (keeps_setLeaf hb hr hvl ht _)

/-- Mapping the trampoline or the trapframe. -/
theorem mapPage_top_spec (h : Coherent L k roots held) (hr : r ∈ roots) (hv : userVpns ≤ v)
    (hva : v * 4096 < maxva) (hinv : pteValid (leaf k.mem r v) = false) (p : ℕ) (perm : Pte) :
    Ensures (mapPage r (v * 4096) p perm) (fun ok k' =>
      Coherent L k' roots held ∧ k.freelist.length ≤ k'.freelist.length + 2 ∧
      match ok with
      | false => Keeps k k' roots held (fun _ _ => False) ∧ k.freelist.length ≤ 1
      | true => leaf k'.mem r v = pa2pte p ||| perm ||| pteV ∧
          Keeps k k' roots held (fun s x => s = r ∧ x = v)) k := by
  have hvl : v < vpnLimit := by
    rw [maxva_eq] at hva
    unfold vpnLimit
    omega
  refine (mapPage_walk h.toBalanced hr hva hinv p perm).mono ?_
  rintro ok k' ⟨k1, hb, hl, hk, hlen, hok⟩
  have hc := h.of_sameLeaves hb hl (fun _ _ hz => hz)
  cases ok with
  | false =>
    obtain ⟨rfl, hfl⟩ := hok
    exact ⟨hc, hlen, hk, hfl⟩
  | true =>
    obtain ⟨t, ht, rfl⟩ := hok
    have hleaf := fun s (hs : s ∈ roots) x (hx : x < vpnLimit) =>
      leaf_setLeaf hb.forest hr hvl ht (pa2pte p ||| perm ||| pteV) hs hx
    refine ⟨⟨hb.setTop hr hv hvl ht _, ?_⟩, hlen, by simp [hleaf r hr v hvl],
      (hk.mono fun _ _ hF => hF.elim).trans (keeps_setLeaf hb hr hvl ht _)⟩
    apply hc.sharing.shrink
    · intro s hs x hx _
      refine ⟨hs, .of_eq ?_⟩
      rw [Kernel.setMem_mem, hleaf s hs x (hx.trans userVpns_lt), if_neg (by omega)]
    · exact fun _ _ _ _ _ _ _ hz => hz

/-! ## Unmapping -/

theorem release_setWord (hne : t ≠ p) (w : Pte) :
    (k.release p).setMem ((k.release p).mem.setWord t i w) =
      (k.setMem (k.mem.setWord t i w)).release p := by
  have hrefs : (k.setMem (k.mem.setWord t i w)).refs p = k.refs p := rfl
  by_cases hr : 1 < k.refs p
  · simp only [Kernel.release, hrefs, if_pos hr]
    rfl
  · have hcomm := Memory.setWord_fill_comm k.mem t p i 1#8 w hne.symm
    simp only [Kernel.release, hrefs, if_neg hr]
    simp only [Kernel.setMem, Kernel.setRefs, hcomm]

/-- Freeing the page of a user entry and clearing the entry. -/
theorem release_clearLeaf (h : Coherent L k roots held) (hr : r ∈ roots) (hv : v < userVpns)
    (ht : leafTable k.mem r v = some t) (hm : Maps (leaf k.mem r v) p) :
    let k' := (k.release p).setMem ((k.release p).mem.setWord t (vpn0 v) 0#64)
    Coherent L k' roots held ∧ Keeps k k' roots held (fun s x => s = r ∧ x = v) ∧
      ∀ s ∈ roots, ∀ x < vpnLimit,
        leaf k'.mem s x = if s = r ∧ x = v then 0#64 else leaf k.mem s x := by
  have hvl := hv.trans userVpns_lt
  have hne : t ≠ p := by
    rintro rfl
    exact h.not_table_of_mapped (mapCount_pos hr hv hm) ⟨_, leafTable_at hr hvl ht⟩
  have hc := h.clearLeaf hr hv ht hm
  have hrel := hc.release (p := p) (by simp)
  have hkeep := release_keeps hc.toBalanced (p := p) (by simp) (D := fun s x => s = r ∧ x = v)
  rw [drop_bump] at hrel hkeep
  simp only [release_setWord hne]
  refine ⟨hrel, (keeps_setLeaf h.toBalanced hr hvl ht _).trans hkeep, ?_⟩
  intro s hs x hx
  rw [← leaf_setLeaf h.forest hr hvl ht 0#64 hs hx]
  apply leaf_congr _ hs hx
  intro u hu
  apply Kernel.release_mem_of_ne
  rintro rfl
  exact hc.not_table_of_held (p := u) (by simp) hu

/-- The entries `uvmunmap` meets are leaves. -/
theorem pteFlags_ne_of_readable {w : Pte} (h : pteReadable w = true) : pteFlags w ≠ pteV := by
  intro hc
  have : pteBit 1 (pteFlags w) = pteBit 1 pteV := by rw [hc]
  simp [h] at this

theorem leafTable_of_valid {m : Memory} (h : pteValid (leaf m r v) = true) :
    ∃ t, leafTable m r v = some t ∧ leaf m r v = m.word t (vpn0 v) := by
  unfold leaf at h ⊢
  cases ht : leafTable m r v with
  | none =>
    rw [ht] at h
    simp at h
  | some t => exact ⟨t, rfl, rfl⟩

/-- `uvmunmap` with freeing removes the mappings of `n` user pages from `v` on. -/
theorem uvmunmapLoop_spec {n : ℕ} (h : Coherent L k roots held) (hr : r ∈ roots)
    (hn : v + n ≤ userVpns)
    (hval : ∀ x, v ≤ x → x < v + n →
      pteValid (leaf k.mem r x) = true ∧ pteReadable (leaf k.mem r x) = true) :
    Ensures (uvmunmapLoop L r true n (v * 4096)) (fun _ k' =>
      Coherent L k' roots held ∧
      (∀ s ∈ roots, ∀ x < vpnLimit,
        leaf k'.mem s x = if s = r ∧ v ≤ x ∧ x < v + n then 0#64 else leaf k.mem s x) ∧
      Keeps k k' roots held (fun s x => s = r ∧ v ≤ x ∧ x < v + n)) k := by
  induction n generalizing k v with
  | zero =>
    refine .of_pure ⟨h, ?_, .refl⟩
    intro s hs x hx
    rw [if_neg (by omega)]
  | succ n ih =>
    obtain ⟨hv0, hr0⟩ := hval v le_rfl (by omega)
    obtain ⟨t, ht, hw⟩ := leafTable_of_valid hv0
    have hvu : v < userVpns := by omega
    have hva : v * 4096 < maxva := by
      rw [maxva_eq]
      unfold userVpns at hvu
      omega
    have hm : Maps (leaf k.mem r v) (pte2pa (leaf k.mem r v)) := ⟨hv0, rfl⟩
    have hpage := h.isPage_of_mapped (mapCount_pos hr hvu hm)
    obtain ⟨hc1, hk1, hl1⟩ := release_clearLeaf h hr hvu ht hm
    have hdiv : v * 4096 / 4096 = v := by omega
    have hgoal : uvmunmapLoop L r true (n + 1) (v * 4096) k =
        uvmunmapLoop L r true n ((v + 1) * 4096) ((k.release (pte2pa (leaf k.mem r v))).setMem
          ((k.release (pte2pa (leaf k.mem r v))).mem.setWord t (vpn0 v) 0#64)) := by
      rw [show (v + 1) * 4096 = v * 4096 + pgsize by unfold pgsize; omega]
      simp [uvmunmapLoop, walk_false_run hva, hdiv, leafRef, ht, readPte, ← hw, hv0,
        pteFlags_ne_of_readable hr0, kfreeIf, kfree_run hpage, writePte]
    have hrec := ih hc1 (v := v + 1) (by omega) (by
      intro x hx1 hx2
      have hxu : x < userVpns := by omega
      rw [hl1 r hr x (hxu.trans userVpns_lt), if_neg (by omega)]
      exact hval x (by omega) (by omega))
    unfold Ensures at hrec ⊢
    rw [hgoal]
    refine Ensures.mono hrec ?_
    rintro _ k' ⟨hc', hl', hk'⟩
    refine ⟨hc', ?_, ?_⟩
    · intro s hs x hx
      rw [hl' s hs x hx]
      have := hl1 s hs x hx
      split_ifs with h1 h2 h2
      · rfl
      · omega
      · rw [this, if_pos (by omega)]
      · rw [this, if_neg (by omega)]
    · exact (hk1.mono (by omega)).trans (hk'.mono (by omega))

/-- `uvmunmap` of the trampoline or the trapframe, which frees nothing. -/
theorem uvmunmap_top_spec (h : Coherent L k roots held) (hr : r ∈ roots) (hv : userVpns ≤ v)
    (hva : v * 4096 < maxva) (hval : pteValid (leaf k.mem r v) = true)
    (hread : pteReadable (leaf k.mem r v) = true) :
    Ensures (uvmunmap L r (v * 4096) 1 false) (fun _ k' =>
      Coherent L k' roots held ∧
      (∀ s ∈ roots, ∀ x < vpnLimit,
        leaf k'.mem s x = if s = r ∧ x = v then 0#64 else leaf k.mem s x) ∧
      Keeps k k' roots held (fun s x => s = r ∧ x = v)) k := by
  have hvl : v < vpnLimit := by
    rw [maxva_eq] at hva
    unfold vpnLimit
    omega
  obtain ⟨t, ht, hw⟩ := leafTable_of_valid hval
  have hdiv : v * 4096 / 4096 = v := by omega
  have hleaf := fun s (hs : s ∈ roots) x (hx : x < vpnLimit) =>
    leaf_setLeaf h.forest hr hvl ht 0#64 hs hx
  refine .of_run (a := ()) (t := k.setMem (k.mem.setWord t (vpn0 v) 0#64)) ?_
    ⟨⟨h.toBalanced.setTop hr hv hvl ht _, ?_⟩, hleaf, keeps_setLeaf h.toBalanced hr hvl ht _⟩
  · simp [uvmunmap, pgsize, uvmunmapLoop, walk_false_run hva, hdiv, leafRef, ht, readPte, ← hw,
      hval, pteFlags_ne_of_readable hread, kfreeIf, writePte]
  · apply h.sharing.shrink
    · intro s hs x hx _
      refine ⟨hs, .of_eq ?_⟩
      rw [Kernel.setMem_mem, hleaf s hs x (hx.trans userVpns_lt), if_neg (by omega)]
    · exact fun _ _ _ _ _ _ _ hz => hz

end XV6AndConcurrency.VirtualMemory
