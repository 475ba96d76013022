import XV6AndConcurrency.VirtualMemory.ProcessTables

/-!
# Specification of copy-on-write faults

`cowtest_h` and the copy-on-write branch of `copyout` give the process a private copy
of a page. They are written differently, one frees the old page and then rewrites the
entry, the other unmaps the entry and then writes it again, but both end in the state
`resolve`.
-/

namespace XV6AndConcurrency.VirtualMemory

open Foundations

/-- The entry after a fault has been resolved with the fresh page `p`. -/
def resolvedPte (p : ℕ) (w : Pte) : Pte := (pa2pte p ||| w &&& 0x3FF#64 ||| pteW) &&& ~~~pteRsw

namespace Kernel

/-- The fresh page `p` holds a copy of the page `q`. -/
def duplicate (k : Kernel) (p : ℕ) (next : List ℕ) (q : ℕ) : Kernel :=
  (k.take p next).setMem ((k.take p next).mem.copyPage p q)

/-- The entry `i` of the table page `t`, which mapped `q`, maps the copy `p`, and the
reference to `q` is dropped. -/
def resolve (k : Kernel) (t i p : ℕ) (next : List ℕ) (q : ℕ) (w : Pte) : Kernel :=
  ((k.duplicate p next q).release q).setMem
    (((k.duplicate p next q).release q).mem.setWord t i (resolvedPte p w))

end Kernel

variable {L : Layout} {k k' : Kernel} {roots : Finset ℕ} {held : ℕ → ℕ} {r t v p q va sz : ℕ}
  {next : List ℕ} {w : Pte}

theorem resolvedPte_maps (hp : IsPage L p) (hw : pteValid w = true) : Maps (resolvedPte p w) p := by
  refine ⟨by simp [resolvedPte, hw], ?_⟩
  rw [← pte2pa_pa2pte hp.1 hp.lt_two_pow]
  unfold resolvedPte
  apply pte2pa_congr
  intro i hi
  have h10 : ¬ i < 10 := by omega
  have h2 : ¬ i = 2 := by omega
  have h8 : ¬ i = 8 := by omega
  by_cases h64 : i < 64
  · rw [pte2pa_pa2pte hp.1 hp.lt_two_pow]
    simp [h10, h2, h8, h64]
  · have hlast : ∀ u : Pte, pteBit i u = false := fun u => BitVec.getLsbD_of_ge _ _ (by omega)
    rw [hlast, hlast]

theorem resolvedPte_writable (p : ℕ) (w : Pte) : pteWritable (resolvedPte p w) = true := by
  simp [resolvedPte]

theorem resolvedPte_not_cow (p : ℕ) (w : Pte) : pteCow (resolvedPte p w) = false := by
  simp [resolvedPte]

theorem resolvedPte_access (p : ℕ) (hw : pteCow w = true) : SameAccess w (resolvedPte p w) := by
  refine ⟨?_, by simp [resolvedPte, hw]⟩
  intro i hi h2 h8
  have h64 : i < 64 := by omega
  simp [resolvedPte, hi, h2, h8, h64]

/-! ## The state after a fault -/

section Resolve

variable (h : Balanced L k roots held) (hr : r ∈ roots) (hv : v < userVpns)
  (ht : leafTable k.mem r v = some t) (hm : Maps (leaf k.mem r v) q)
  (hfl : k.freelist = p :: next)

include h hfl in
/-- The page at the head of the free list is not a page-table page and nobody maps it. -/
theorem fresh_head : ¬ IsTable k.mem roots p ∧ mapCount k.mem roots p = 0 ∧ held p = 0 := by
  have hp : p ∈ k.freelist := by simp [hfl]
  have hz := h.owners_eq_zero hp
  unfold owners at hz
  exact ⟨h.free_not_table hp, by omega, by omega⟩

include h hr hv ht hm hfl

/-- The three pages at work are different. -/
theorem resolve_distinct : t ≠ p ∧ t ≠ q ∧ q ≠ p := by
  have hvl := hv.trans userVpns_lt
  have htab : IsTable k.mem roots t := ⟨_, leafTable_at hr hvl ht⟩
  have hmc := mapCount_pos hr hv hm
  obtain ⟨hpt, hp0, -⟩ := fresh_head h hfl
  refine ⟨?_, ?_, ?_⟩
  · rintro rfl
    exact hpt htab
  · rintro rfl
    exact h.not_table_of_mapped hmc htab
  · rintro rfl
    omega

omit h hr hv ht hm hfl in
theorem duplicate_other {x : ℕ} (hx : x ≠ p) : (k.duplicate p next q).mem x = k.mem x := by
  rw [Kernel.duplicate, Kernel.setMem_mem, Memory.copyPage_of_ne _ _ hx]
  exact Memory.fill_of_ne _ _ _ _ hx

theorem duplicate_copy : (k.duplicate p next q).mem p = k.mem q := by
  have hqp := (resolve_distinct h hr hv ht hm hfl).2.2
  rw [Kernel.duplicate, Kernel.setMem_mem, Memory.copyPage_self]
  exact Memory.fill_of_ne _ _ _ _ hqp

omit hm in
theorem duplicate_leafTable : leafTable (k.duplicate p next q).mem r v = some t := by
  obtain ⟨hpt, -, -⟩ := fresh_head h hfl
  rw [← ht]
  refine leafTable_congr ?_ hr (hv.trans userVpns_lt)
  intro u hu
  apply duplicate_other
  rintro rfl
  exact hpt hu

/-- Clearing the entry and dropping the reference, as `uvmunmap` does, or the other way
round, as `cowtest_h` does, and then writing the new entry. -/
theorem resolve_eq : k.resolve t (vpn0 v) p next q w =
    ((k.duplicate p next q).setMem ((k.duplicate p next q).mem.setWord t (vpn0 v)
      (resolvedPte p w))).release q := by
  rw [Kernel.resolve, release_setWord (resolve_distinct h hr hv ht hm hfl).2.1]

end Resolve

/-- After the fault the entry maps a private copy with the same bytes; nobody else sees
a difference. -/
theorem resolve_spec (h : Coherent L k roots held) (hr : r ∈ roots) (hv : v < userVpns)
    (ht : leafTable k.mem r v = some t) (hm : Maps (leaf k.mem r v) q)
    (hfl : k.freelist = p :: next) :
    let k' := k.resolve t (vpn0 v) p next q (leaf k.mem r v)
    Coherent L k' roots held ∧
      (∀ s ∈ roots, ∀ x < vpnLimit, leaf k'.mem s x =
        if s = r ∧ x = v then resolvedPte p (leaf k.mem r v) else leaf k.mem s x) ∧
      Keeps k k' roots held (fun s x => s = r ∧ x = v) ∧ k'.mem p = k.mem q := by
  have hvl := hv.trans userVpns_lt
  obtain ⟨htp, htq, hqp⟩ := resolve_distinct h.toBalanced hr hv ht hm hfl
  obtain ⟨hpt, hp0, hh0⟩ := fresh_head h.toBalanced hfl
  -- the copy is made
  obtain ⟨res, k1, hrun, hres⟩ := kalloc_coherent h
  rw [kalloc_run_cons hfl] at hrun
  cases hrun
  obtain ⟨hc1, hl1, hk1, -, hm1, -, -⟩ := hres
  obtain ⟨hc2, hl2, hk2, hm2⟩ := write_fresh hc1 hh0 hm1
    (m := (k.take p next).mem.copyPage p q) fun x hx => Memory.copyPage_of_ne _ _ hx
  have hl : SameLeaves k (k.duplicate p next q) roots := hl1.trans hl2
  have hkd : Keeps k (k.duplicate p next q) roots held (fun _ _ => False) := hk1.trans hk2
  have ht2 := duplicate_leafTable (q := q) h.toBalanced hr hv ht hfl
  change Coherent L (k.duplicate p next q) roots (bump held p) at hc2
  change mapCount (k.duplicate p next q).mem roots p = 0 at hm2
  -- the entry is rewritten
  have hpage := hc2.isPage_of_held (p := p) (by simp)
  have hmaps := resolvedPte_maps hpage hm.1
  have hleaf := fun s (hs : s ∈ roots) x (hx : x < vpnLimit) =>
    leaf_setLeaf hc2.forest hr hvl ht2 (resolvedPte p (leaf k.mem r v)) hs hx
  have hold : leaf (k.duplicate p next q).mem r v = leaf k.mem r v := hl r hr v hvl
  have hmiff : ∀ x, Maps (leaf (k.duplicate p next q).mem r v) x ↔ x = q := by
    intro x
    rw [hold]
    constructor
    · intro hx
      exact hx.2.symm.trans hm.2
    · rintro rfl
      exact hm
  have hpiff : ∀ x, Maps (resolvedPte p (leaf k.mem r v)) x ↔ x = p := by
    intro x
    constructor
    · intro hx
      exact hx.2.symm.trans hmaps.2
    · rintro rfl
      exact hmaps
  have hc3 : Coherent L ((k.duplicate p next q).setMem ((k.duplicate p next q).mem.setWord t
      (vpn0 v) (resolvedPte p (leaf k.mem r v)))) roots (bump held q) := by
    refine ⟨hc2.toBalanced.setLeaf hr hv ht2 ?_, hc2.sharing.setLeaf hr hv hmaps (by simp) ?_ ?_ ?_
      fun s hs x hx => hleaf s hs x (hx.trans userVpns_lt)⟩
    · intro x
      simp only [hmiff, hpiff, bump_apply]
      omega
    · intro x hx hmx
      have := mapCount_pos hr hx hmx
      omega
    · intro _
      refine ⟨resolvedPte_not_cow _ _, ?_, hm2⟩
      rw [bump_apply, hh0, if_neg hqp.symm]
    · intro x hxp hxm hz
      rw [hmiff] at hxm
      rw [bump_apply] at hz ⊢
      rw [if_neg hxm]
      omega
  -- the old page loses a reference
  have hrel := hc3.release (p := q) (by simp)
  have hk4 := release_keeps hc3.toBalanced (p := q) (by simp) (D := fun s x => s = r ∧ x = v)
  rw [drop_bump] at hrel hk4
  have hk3 := (keeps_setLeaf hc2.toBalanced hr hvl ht2
    (resolvedPte p (leaf k.mem r v))).weaken_held (g := held) (by simp [bump_apply]; omega)
  simp only [resolve_eq h.toBalanced hr hv ht hm hfl]
  refine ⟨hrel, ?_, ((hkd.mono fun _ _ hF => hF.elim).trans hk3).trans hk4, ?_⟩
  · intro s hs x hx
    rw [leaf_congr (m := (k.duplicate p next q).mem.setWord t (vpn0 v)
      (resolvedPte p (leaf k.mem r v))) ?_ hs hx, hleaf s hs x hx]
    · split_ifs
      · rfl
      · exact hl s hs x hx
    · intro u hu
      apply Kernel.release_mem_of_ne
      rintro rfl
      exact hc3.not_table_of_held (p := u) (by simp) hu
  · rw [Kernel.release_mem_of_ne _ hqp.symm, Kernel.setMem_mem, Memory.setWord_of_ne _ _ _ _ _
      htp.symm]
    exact duplicate_copy h.toBalanced hr hv ht hm hfl

/-! ## cowtest_h -/

/-- The entry asks for a copy before a user write. -/
def CowEntry (w : Pte) : Prop := pteCow w = true ∧ pteUser w = true ∧ pteValid w = true

instance (w : Pte) : Decidable (CowEntry w) := inferInstanceAs (Decidable (_ ∧ _ ∧ _))

theorem cowtestH_refuse
    (hno : va < maxva → CowEntry (leaf k.mem r (va / 4096)) → k.freelist = []) :
    cowtestH L r va k = .ok (false, k) := by
  unfold cowtestH
  by_cases hva : maxva ≤ va
  · simp [hva]
  · rw [if_neg hva]
    have hva' : va < maxva := by omega
    simp only [bind_run, walk_false_run hva', ok_bind, leafRef]
    cases ht : leafTable k.mem r (va / 4096) with
    | none => rfl
    | some t =>
      have hw : k.mem.word t (vpn0 (va / 4096)) = leaf k.mem r (va / 4096) := by rw [leaf, ht]
      by_cases hc : CowEntry (leaf k.mem r (va / 4096))
      · obtain ⟨h8, h4, h0⟩ := hc
        have hnil := hno hva' ⟨h8, h4, h0⟩
        simp [readPte, hw, h8, h4, h0, kalloc_run_nil hnil]
      · have hc' : pteCow (leaf k.mem r (va / 4096)) = false ∨
            pteUser (leaf k.mem r (va / 4096)) = false ∨
            pteValid (leaf k.mem r (va / 4096)) = false := by
          unfold CowEntry at hc
          grind
        simp only [Option.map_some, bind_run, readPte, look_run, ok_bind, hw]
        rw [if_pos (by simpa using hc')]
        rfl

theorem cowtestH_resolve (h : Balanced L k roots held) (hr : r ∈ roots) (hva : va / 4096 < userVpns)
    (hc : CowEntry (leaf k.mem r (va / 4096))) (hfl : k.freelist = p :: next) :
    ∃ t, leafTable k.mem r (va / 4096) = some t ∧ cowtestH L r va k =
      .ok (true, k.resolve t (vpn0 (va / 4096)) p next (pte2pa (leaf k.mem r (va / 4096)))
        (leaf k.mem r (va / 4096))) := by
  obtain ⟨h8, h4, h0⟩ := hc
  obtain ⟨t, ht, hw⟩ := leafTable_of_valid h0
  refine ⟨t, ht, ?_⟩
  have hva' : va < maxva := by
    rw [maxva_eq]
    unfold userVpns at hva
    omega
  have hm : Maps (leaf k.mem r (va / 4096)) (pte2pa (leaf k.mem r (va / 4096))) := ⟨h0, rfl⟩
  obtain ⟨htp, htq, hqp⟩ := resolve_distinct h hr hva ht hm hfl
  have hpage := h.isPage_of_mapped (mapCount_pos hr hva hm)
  generalize leaf k.mem r (va / 4096) = w at *
  have hw1 : (k.take p next).mem.word t (vpn0 (va / 4096)) = w := by
    rw [hw]
    exact Memory.word_congr (Memory.fill_of_ne _ _ _ _ htp) _
  have hw3 : ((k.duplicate p next (pte2pa w)).release (pte2pa w)).mem.word t
      (vpn0 (va / 4096)) = w := by
    rw [Memory.word_congr (Kernel.release_mem_of_ne _ htq), Memory.word_congr (duplicate_other htp),
      ← hw]
  have h2 : 1#64 <<< 2 = pteW := rfl
  unfold cowtestH installCopy
  rw [if_neg (by omega), h2]
  simp only [bind_run, walk_false_run hva', ok_bind, leafRef, ht, Option.map_some]
  simp only [readPte, look_run, ok_bind, ← hw]
  rw [if_neg (by simp [h8, h4, h0])]
  simp only [bind_run, kalloc_run_cons hfl, ok_bind, look_run, hw1, modify_run]
  rw [kfree_run hpage]
  simp only [ok_bind, writePte, modify_run, pure_run, Kernel.setMem_mem,
    Memory.word_setWord_self]
  unfold Kernel.duplicate at hw3
  simp only [Kernel.resolve, resolvedPte, Kernel.duplicate, Kernel.setMem,
    Memory.setWord_setWord] at hw3 ⊢
  simp only [hw3]

/-! ## The copy-on-write branch of copyout -/

/-- Nothing to copy, or no memory for it: the bytes go to the page that is mapped. -/
theorem copyoutCow_inplace (hva : v * 4096 < maxva) (hval : pteValid (leaf k.mem r v) = true)
    (hno : v * 4096 < sz → pteCow (leaf k.mem r v) = true → k.freelist = []) :
    copyoutCow L r sz (v * 4096) q k =
      .ok ((q, decide (v * 4096 < sz) && pteCow (leaf k.mem r v)), k) := by
  obtain ⟨t, ht, hw⟩ := leafTable_of_valid hval
  have hdiv : v * 4096 / 4096 = v := by omega
  have hne : leaf k.mem r v ≠ 0#64 := by
    intro hz
    rw [hz] at hval
    simp at hval
  unfold copyoutCow
  simp only [bind_run, walk_false_run hva, ok_bind, leafRef, hdiv, ht, Option.map_some, readPte,
    look_run, ← hw]
  by_cases hc : v * 4096 < sz ∧ pteCow (leaf k.mem r v) = true
  · rw [if_pos ⟨hc.1, by simp [hval], by simp [hc.2]⟩]
    simp [kalloc_run_nil (hno hc.1 hc.2), hc.1, hc.2]
  · have hneg : ¬(v * 4096 < sz ∧ leaf k.mem r v &&& pteV ≠ 0 ∧
        leaf k.mem r v &&& pteRsw ≠ 0) := by
      rintro ⟨h1, -, h3⟩
      exact hc ⟨h1, by simpa using h3⟩
    rw [if_neg hneg]
    have hd : (decide (v * 4096 < sz) && pteCow (leaf k.mem r v)) = false := by
      by_contra hcon
      exact hc (by simpa using hcon)
    simp [hne, hd]

/-- With memory for a copy, the branch ends in the state `cowtest_h` ends in. -/
theorem copyoutCow_resolve (h : Balanced L k roots held) (hr : r ∈ roots) (hv : v < userVpns)
    (hval : pteValid (leaf k.mem r v) = true) (hcow : pteCow (leaf k.mem r v) = true)
    (hsz : v * 4096 < sz) (hfl : k.freelist = p :: next) :
    ∃ t, leafTable k.mem r v = some t ∧
      copyoutCow L r sz (v * 4096) (pte2pa (leaf k.mem r v)) k =
        .ok ((p, false), k.resolve t (vpn0 v) p next (pte2pa (leaf k.mem r v))
          (leaf k.mem r v)) := by
  obtain ⟨t, ht, hw⟩ := leafTable_of_valid hval
  refine ⟨t, ht, ?_⟩
  have hva : v * 4096 < maxva := by
    rw [maxva_eq]
    unfold userVpns at hv
    omega
  have hdiv : v * 4096 / 4096 = v := by omega
  have hm : Maps (leaf k.mem r v) (pte2pa (leaf k.mem r v)) := ⟨hval, rfl⟩
  obtain ⟨htp, htq, hqp⟩ := resolve_distinct h hr hv ht hm hfl
  have hpage := h.isPage_of_mapped (mapCount_pos hr hv hm)
  have ht2 := duplicate_leafTable (q := pte2pa (leaf k.mem r v)) h hr hv ht hfl
  generalize leaf k.mem r v = w at *
  have hw2 : (k.duplicate p next (pte2pa w)).mem.word t (vpn0 v) = w := by
    rw [Memory.word_congr (duplicate_other htp), ← hw]
  have hflags : pteFlags w ≠ pteV := by
    intro hc
    have : pteBit 8 (pteFlags w) = pteBit 8 pteV := by rw [hc]
    simp [hcow] at this
  have hunmap : uvmunmap L r (v * 4096) 1 true (k.duplicate p next (pte2pa w)) =
      .ok ((), ((k.duplicate p next (pte2pa w)).release (pte2pa w)).setMem
        (((k.duplicate p next (pte2pa w)).release (pte2pa w)).mem.setWord t (vpn0 v) 0#64)) := by
    simp [uvmunmap, pgsize, uvmunmapLoop, walk_false_run hva, hdiv, leafRef, ht2, readPte, hw2,
      hval, hflags, kfreeIf, kfree_run hpage, writePte]
  have h2 : 1#64 <<< 2 = pteW := rfl
  unfold copyoutCow installCopy
  rw [h2]
  simp only [bind_run, walk_false_run hva, ok_bind, leafRef, hdiv, ht, Option.map_some, readPte,
    look_run, ← hw]
  rw [if_pos ⟨hsz, by simp [hval], by simp [hcow]⟩]
  simp only [bind_run, kalloc_run_cons hfl, ok_bind, modify_run, look_run]
  change ((uvmunmap L r (v * 4096) 1 true (k.duplicate p next (pte2pa w))) >>= _) = _
  rw [hunmap]
  rw [Kernel.duplicate, Kernel.setMem_mem] at hw2
  simp only [ok_bind, writePte, modify_run, pure_run, Kernel.setMem_mem,
    Memory.word_setWord_self, hw2]
  simp only [Kernel.resolve, resolvedPte, Kernel.duplicate, Kernel.setMem, Memory.setWord_setWord]

end XV6AndConcurrency.VirtualMemory
