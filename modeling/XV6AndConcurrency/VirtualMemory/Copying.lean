import XV6AndConcurrency.VirtualMemory.ProcessTables

/-!
# Specification of uvmcopy and fork

`uvmcopy` goes through the pages of the parent, takes the write permission away,
raises the count of the page and maps it in the child. When there is no memory for a
page-table page of the child, the pages mapped so far are released, but the count
raised for the page at hand is not lowered again: that page stays held for ever.
-/

namespace XV6AndConcurrency.VirtualMemory

open Foundations

variable {L : Layout} {k k' : Kernel} {roots : Finset ℕ} {held : ℕ → ℕ} {r c t v n i : ℕ}
  {T U : Finset ℕ}

/-- The entry of a page after `uvmcopy` has protected it. -/
def protectedPte (w : Pte) : Pte := if w &&& pteW ≠ 0 then w &&& ~~~pteW ||| pteRsw else w

theorem protectedPte_alike (w : Pte) : Alike w (protectedPte w) := by
  unfold protectedPte
  by_cases hw : pteWritable w = true
  · rw [if_pos (by simp [hw])]
    refine ⟨⟨?_, by simp [hw]⟩, ?_⟩
    · intro i hi h2 h8
      have h64 : i < 64 := by omega
      simp [h2, h8, h64]
    · apply pte2pa_congr
      intro i hi
      have h2 : ¬ i = 2 := by omega
      have h8 : ¬ i = 8 := by omega
      by_cases h64 : i < 64
      · simp [h2, h8, h64]
      · have : pteBit i w = false := BitVec.getLsbD_of_ge _ _ (by omega)
        simp [h8, this]
  · rw [if_neg (by simpa using hw)]
    exact .refl w

theorem protectedPte_not_writable (w : Pte) : pteWritable (protectedPte w) = false := by
  unfold protectedPte
  by_cases hw : pteWritable w = true
  · rw [if_pos (by simp [hw])]
    simp
  · rw [if_neg (by simpa using hw)]
    simpa using hw

theorem protect_run (t i : ℕ) (k : Kernel) : protect ⟨t, i⟩ k =
    .ok ((), if pteWritable (k.mem.word t i) then
      k.setMem (k.mem.setWord t i (protectedPte (k.mem.word t i))) else k) := by
  have h2 : 1#64 <<< 2 = pteW := rfl
  have h8 : 1#64 <<< 8 = pteRsw := rfl
  unfold protect
  rw [h2, h8]
  by_cases hw : pteWritable (k.mem.word t i) = true
  · simp [readPte, writePte, hw, protectedPte, Kernel.setMem]
  · simp [readPte, hw]

/-- Protecting a page changes only how a write to it is carried out. -/
theorem protect_spec (h : Coherent L k roots held) (hr : r ∈ roots) (hv : v < userVpns)
    (ht : leafTable k.mem r v = some t) :
    Ensures (protect ⟨t, vpn0 v⟩) (fun _ k' => Coherent L k' roots held ∧
      Shares k k' roots held (fun _ _ => False) ∧
      k'.mem.word t (vpn0 v) = leaf k'.mem r v ∧ pteWritable (leaf k'.mem r v) = false) k := by
  have hvl := hv.trans userVpns_lt
  have hw : k.mem.word t (vpn0 v) = leaf k.mem r v := by rw [leaf, ht]
  refine .of_run (protect_run t (vpn0 v) k) ?_
  rw [hw]
  split_ifs with hwr
  · have halike := protectedPte_alike (leaf k.mem r v)
    have hleaf := fun s (hs : s ∈ roots) x (hx : x < vpnLimit) =>
      leaf_setLeaf h.forest hr hvl ht (protectedPte (leaf k.mem r v)) hs hx
    have hk := keeps_setLeaf h.toBalanced hr hvl ht (protectedPte (leaf k.mem r v))
    refine ⟨h.tameLeaf hr hv ht (fun p => halike.maps p) ?_, ?_, ?_, ?_⟩
    · intro p hp
      refine ⟨(halike.maps p).mp hp, ?_⟩
      rw [protectedPte_not_writable]
      simp
    · refine ⟨?_, ?_, ?_, hk.held⟩
      · intro s hs x hx _
        rw [Kernel.setMem_mem, hleaf s hs x hx]
        split_ifs with hsx
        · rw [hsx.1, hsx.2]
          exact halike
        · exact .refl _
      · intro s hs x hx hu _
        rw [Kernel.setMem_mem, hleaf s hs x hx, if_neg (by omega)]
      · intro s hs x hx _ p hp
        apply Memory.setWord_of_ne
        rintro rfl
        have := (h.alone p ⟨_, leafTable_at hr hvl ht⟩).1
        have := mapCount_pos hs hx hp
        omega
    · rw [Kernel.setMem_mem, hleaf r hr v hvl]
      simp
    · rw [Kernel.setMem_mem, hleaf r hr v hvl, if_pos ⟨rfl, rfl⟩]
      exact protectedPte_not_writable _
  · exact ⟨h, .refl, hw, by simpa using hwr⟩

/-- The entry of the child, made from the page and the flags of the parent's. -/
theorem alike_childPte {w : Pte} (hp : IsPage L (pte2pa w)) (hv : pteValid w = true) :
    Alike w (pa2pte (pte2pa w) ||| w &&& 0x3FF#64 ||| pteV) := by
  have hhigh : ∀ i, 10 ≤ i → pteBit i (w &&& 0x3FF#64) = false := by
    intro i hi
    simp
    omega
  refine ⟨⟨?_, by simp⟩, (maps_mkPte hp hhigh).2⟩
  intro i hi _ _
  by_cases h0 : i = 0
  · subst h0
    simp [hv]
  · simp [hi, h0]

/-- What is known after the pages below `i` have been shared. -/
structure Shared (m : Memory) (r c n i : ℕ) (T U : Finset ℕ) : Prop where
  parent : Shape m r n T
  child : Shape m c i U
  alike : ∀ x < i, Alike (leaf m r x) (leaf m c x)

/-- Sharing one page: the child's entry is a copy of the parent's protected one. -/
theorem uvmcopy_page {p : ℕ} {w : Pte} (h : Coherent L k roots held) (hr : r ∈ roots)
    (hc : c ∈ roots) (hrc : r ≠ c) (hs : Shared k.mem r c n i T U) (hi : i < n)
    (hw : w = leaf k.mem r i) (hp : p = pte2pa w) (hwr : pteWritable w = false) :
    Ensures (mappages c (i * 4096) 4096 p (w &&& 0x3FF#64)) (fun ok k' =>
      match ok with
      | false => Coherent L k' roots (bump held p) ∧
          Keeps k k' roots held (fun _ _ => False)
      | true => Coherent L k' roots held ∧ Shared k'.mem r c n (i + 1) T U ∧
          Keeps k k' roots held (fun s x => s = c ∧ x = i))
      (k.setRefs p (k.refs p + 1)) := by
  subst hw hp
  have hiu : i < userVpns := hi.trans_le hs.parent.le
  have hil := hiu.trans userVpns_lt
  have hv := (hs.parent.valid i hil).mpr (Or.inl hi)
  have hmaps : Maps (leaf k.mem r i) (pte2pa (leaf k.mem r i)) := ⟨hv, rfl⟩
  have hpage := h.isPage_of_mapped (mapCount_pos hr hiu hmaps)
  have hret := h.retain hr hiu hmaps hwr
  have hinv : pteValid (leaf k.mem c i) = false := by
    have hU : i ∉ U := fun hU => by
      have := (hs.child.above i hU).1
      omega
    simpa [hU] using hs.child.valid i hil
  have hfresh : ∀ x < userVpns, ¬ Maps (leaf k.mem c x) (pte2pa (leaf k.mem r i)) := by
    intro x hx hm
    have hU : x ∉ U := fun hU => by
      have := (hs.child.above x hU).1
      omega
    have hxi : x < i := by simpa [hU, hm.1] using hs.child.valid x (hx.trans userVpns_lt)
    have := h.sharing.inj hr hx hiu (((hs.alike x hxi).maps _).mp hm) hmaps
    omega
  rw [show mappages c (i * 4096) 4096 (pte2pa (leaf k.mem r i)) (leaf k.mem r i &&& 0x3FF#64) =
    mapPage c (i * 4096) (pte2pa (leaf k.mem r i)) (leaf k.mem r i &&& 0x3FF#64) from
    mappages_page _ _ _ _]
  refine (mapPage_spec hret hc hiu hinv (p := pte2pa (leaf k.mem r i)) (by simp) hfresh ?_
    ?_).mono ?_
  · intro j hj
    simp
    omega
  · intro hwp
    simp [hwr] at hwp
  · rintro ok k1 ⟨-, hok⟩
    have hweak : ∀ q, 0 < held q → 0 < bump held (pte2pa (leaf k.mem r i)) q := by
      intro q hq
      rw [bump_apply]
      omega
    cases ok with
    | false =>
      obtain ⟨hc1, hk1, -⟩ := hok
      have hk1' := hk1.weaken_held (g := held) hweak
      exact ⟨hc1, hk1'.slot, hk1'.top, hk1'.bytes, hk1'.held⟩
    | true =>
      obtain ⟨hc1, hleaf, hk1⟩ := hok
      rw [drop_bump] at hc1
      have hk1' := hk1.weaken_held (g := held) hweak
      have hk : Keeps k k1 roots held (fun s x => s = c ∧ x = i) :=
        ⟨hk1'.slot, hk1'.top, hk1'.bytes, hk1'.held⟩
      have hri := hk.alike hr hil (by simp [hrc])
      have hci : Alike (leaf k1.mem r i) (leaf k1.mem c i) := by
        rw [hleaf]
        exact hri.symm.trans (alike_childPte hpage hv)
      have hr1 : Shape k1.mem r n T := hs.parent.keep hk hr (by simp [hrc])
      have hv1 := (hr1.valid i hil).mpr (Or.inl hi)
      refine ⟨hc1, ⟨hr1, hs.child.extend hc hk hiu ?_ ?_, ?_⟩, hk⟩
      · rw [hci.valid]
        exact hv1
      · rw [hci.readable]
        exact hr1.readable i hil hv1
      · intro x hx
        by_cases hxi : x = i
        · subst hxi
          exact hci
        · have hxl : x < vpnLimit := by omega
          have h1 := hk.alike hr hxl (by simp [hrc])
          have h2 := hk.alike hc hxl (by omega)
          exact (h1.symm.trans (hs.alike x (by omega))).trans h2

/-- The loop of `uvmcopy`. A failure leaves one more reference to a page of the parent. -/
theorem uvmcopyLoop_spec {j : ℕ} (h : Coherent L k roots held) (hr : r ∈ roots) (hc : c ∈ roots)
    (hrc : r ≠ c) (hs : Shared k.mem r c n i T U) (hj : i + j = n) :
    Ensures (uvmcopyLoop L r c j (i * 4096)) (fun ok k' =>
      Shares k k' roots held (fun s x => s = c ∧ x < n) ∧
      match ok with
      | false => ∃ p, (∃ x < n, Maps (leaf k.mem r x) p) ∧
          Coherent L k' roots (bump held p) ∧ Shape k'.mem c 0 U
      | true => Coherent L k' roots held ∧ Shared k'.mem r c n n T U) k := by
  induction j generalizing k i with
  | zero =>
    obtain rfl : i = n := by omega
    exact .of_pure ⟨.refl, h, hs⟩
  | succ j ih =>
    have hi : i < n := by omega
    have hiu : i < userVpns := hi.trans_le hs.parent.le
    have hil := hiu.trans userVpns_lt
    have hva : i * 4096 < maxva := by
      rw [maxva_eq]
      unfold userVpns at hiu
      omega
    have hdiv : i * 4096 / 4096 = i := by omega
    have hv := (hs.parent.valid i hil).mpr (Or.inl hi)
    obtain ⟨t, ht, hw⟩ := leafTable_of_valid hv
    unfold uvmcopyLoop
    refine .bind_of_run (walk_false_run hva r k) ?_
    rw [hdiv]
    simp only [leafRef, ht, Option.map_some]
    refine .bind_of_run (a := leaf k.mem r i) (t := k) (by simp [readPte, hw]) ?_
    rw [if_neg (by simp [hv])]
    refine .bind (protect_spec h hr hiu ht) ?_
    rintro _ k1 ⟨hc1, hk1, hw1, hwr1⟩
    refine .bind_of_run (a := leaf k1.mem r i) (t := k1) (by simp [readPte, hw1]) ?_
    have hs1 : Shared k1.mem r c n i T U := by
      refine ⟨hs.parent.keep hk1 hr (by simp), hs.child.keep hk1 hc (by simp), ?_⟩
      intro x hx
      have hxl : x < vpnLimit := by omega
      exact ((hk1.alike hr hxl (by simp)).symm.trans (hs.alike x hx)).trans
        (hk1.alike hc hxl (by simp))
    refine .modify_bind (.bind (uvmcopy_page hc1 hr hc hrc hs1 hi rfl rfl hwr1) ?_)
    intro ok k2 hok
    cases ok with
    | false =>
      obtain ⟨hc2, hk2⟩ := hok
      have hk12 := hk1.trans hk2.shares
      have hpages : i * 4096 / pgsize = i - 0 := by
        unfold pgsize
        omega
      have hun := uvmunmap_shape hc2 hc (hs.child.keep hk12 hc (by simp)) (Nat.zero_le i)
      rw [Nat.zero_mul, ← hpages] at hun
      refine .bind hun ?_
      rintro _ k3 ⟨hc3, hs3, hk3⟩
      have hpage := (hk1.alike hr hil (by simp)).page
      refine .of_pure ⟨?_, _, ⟨i, hi, hv, hpage.symm⟩, hc3, hs3⟩
      have hk3' := hk3.weaken_held (g := held) (by
        intro q hq
        rw [bump_apply]
        omega)
      exact (hk12.mono fun _ _ hF => hF.elim).trans (hk3'.shares.mono (by omega))
    | true =>
      obtain ⟨hc2, hs2, hk2⟩ := hok
      have hstep : i * 4096 + pgsize = (i + 1) * 4096 := by
        unfold pgsize
        omega
      rw [if_pos rfl, hstep]
      refine (ih hc2 hs2 (by omega)).mono ?_
      rintro ok k3 ⟨hk3, hok⟩
      refine ⟨((hk1.mono fun _ _ hF => hF.elim).trans (hk2.shares.mono (by omega))).trans hk3, ?_⟩
      cases ok with
      | true => exact hok
      | false =>
        obtain ⟨p, ⟨x, hx, hm⟩, hok⟩ := hok
        have hxl := (hx.trans_le hs.parent.le).trans userVpns_lt
        have hcx : ¬ (r = c ∧ x = i) := fun h => hrc h.1
        have hback := (hk1.alike hr hxl (by simp)).trans (hk2.alike hr hxl hcx)
        exact ⟨p, ⟨x, hx, (hback.maps p).mp hm⟩, hok⟩

/-- `uvmcopy` on a child without user memory. -/
theorem uvmcopy_spec {sz : ℕ} (h : Coherent L k roots held) (hr : r ∈ roots) (hc : c ∈ roots)
    (hrc : r ≠ c) (hsr : Shape k.mem r (npagesOf sz) T) (hsc : Shape k.mem c 0 U) :
    Ensures (uvmcopy L r c sz) (fun ok k' =>
      Shares k k' roots held (fun s x => s = c ∧ x < npagesOf sz) ∧
      match ok with
      | false => ∃ p, (∃ x < npagesOf sz, Maps (leaf k.mem r x) p) ∧
          Coherent L k' roots (bump held p) ∧ Shape k'.mem c 0 U
      | true => Coherent L k' roots held ∧
          Shared k'.mem r c (npagesOf sz) (npagesOf sz) T U) k := by
  have := uvmcopyLoop_spec (j := npagesOf sz) h hr hc hrc ⟨hsr, hsc, by omega⟩ (by omega)
  rwa [Nat.zero_mul] at this

/-! ## fork -/

/-- Pages that are alike show the process the same. -/
theorem pageView_alike {m : Memory} (h : Alike (leaf m r v) (leaf m c v)) :
    pageView m c v = pageView m r v := by
  unfold pageView
  rw [h.valid, h.page, h.user, h.writes]

/-- The child sees the memory of the parent; nobody else sees a difference. A failed
copy leaves a page of the parent held. -/
theorem fork_spec {p : Proc} (h : Coherent L k roots held) (hr : p.pagetable ∈ roots)
    (hs : Shape k.mem p.pagetable (npagesOf p.sz) topVpns) :
    Ensures (fork L p) (fun res k' => Shares k k' roots held (fun _ _ => False) ∧
      match res with
      | .noproc => Coherent L k' roots held
      | .copyFailed => ∃ q, Coherent L k' roots (bump held q)
      | .child np => np.pagetable ∉ roots ∧ np.sz = p.sz ∧
          mapCount k'.mem (insert np.pagetable roots) np.trapframe = 0 ∧
          Coherent L k' (insert np.pagetable roots) (bump held np.trapframe) ∧
          Shape k'.mem np.pagetable (npagesOf np.sz) topVpns ∧
          (∀ x < npagesOf p.sz,
            Alike (leaf k'.mem p.pagetable x) (leaf k'.mem np.pagetable x))) k := by
  unfold fork
  refine .bind (allocproc_spec h) ?_
  intro res k1 hres
  cases res with
  | none =>
    obtain ⟨hc1, hk1, -⟩ := hres
    exact .of_pure ⟨hk1.shares, hc1⟩
  | some np =>
    obtain ⟨hsz, hnew, h0, hm1, hc1, hs1, hk1, -⟩ := hres
    have hne : p.pagetable ≠ np.pagetable := fun he => hnew (he ▸ hr)
    have hr1 := Finset.mem_insert_of_mem (b := np.pagetable) hr
    have hn1 := Finset.mem_insert_self np.pagetable roots
    refine .bind (uvmcopy_spec hc1 hr1 hn1 hne (hs.keep hk1 hr (by simp)) hs1) ?_
    rintro ok k2 ⟨hk2, hok⟩
    have hk2' : Shares k1 k2 roots held (fun _ _ => False) := by
      refine (hk2.old_roots hnew fun s x hD => hD.1).weaken_held ?_
      intro q hq
      rw [bump_apply]
      omega
    have hk12 := hk1.shares.trans hk2'
    cases ok with
    | false =>
      obtain ⟨q, -, hc2, hs2⟩ := hok
      have hfree := freeproc_spec (p := np) hc2 hn1 (by rw [hsz]; exact hs2)
        (by simp [bump_apply])
      rw [erase_insert_self hnew, bump_comm, drop_bump] at hfree
      refine .bind hfree ?_
      rintro _ k3 ⟨hc3, hk3⟩
      refine .of_pure ⟨hk12.trans (hk3.shares.weaken_held ?_), q, hc3⟩
      intro x hx
      rw [bump_apply]
      omega
    | true =>
      obtain ⟨hc2, hsh⟩ := hok
      -- nobody maps the trapframe of the child
      have hm2 : mapCount k2.mem (insert np.pagetable roots) np.trapframe = 0 := by
        by_contra hpos
        obtain ⟨s, hs', x, hx, hmx⟩ := mapCount_pos_iff.mp (Nat.pos_of_ne_zero hpos)
        have hxl := hx.trans userVpns_lt
        have hold : ∃ u ∈ insert np.pagetable roots, Maps (leaf k1.mem u x) np.trapframe := by
          by_cases hsn : s = np.pagetable ∧ x < npagesOf p.sz
          · obtain ⟨rfl, hxn⟩ := hsn
            refine ⟨p.pagetable, hr1, ?_⟩
            have ha := hk2.alike hr1 hxl (by simp [hne])
            exact (ha.maps _).mp (((hsh.alike x hxn).maps _).mp hmx)
          · exact ⟨s, hs', ((hk2.alike hs' hxl hsn).maps _).mp hmx⟩
        obtain ⟨u, hu, hmu⟩ := hold
        have := mapCount_pos hu hx hmu
        omega
      have hcopy : ∀ m : Memory, ∀ q, q ≠ np.trapframe →
          ((m.putBytes np.trapframe 0 ((List.range 288).map (m p.trapframe))).setWord
            np.trapframe 14 0) q = m q := by
        intro m q hq
        rw [Memory.setWord_of_ne _ _ _ _ _ hq, Memory.putBytes_of_ne _ _ _ _ _ hq]
      obtain ⟨hc3, hl3, hk3, hm3⟩ := write_fresh hc2 h0 hm2 (hcopy k2.mem)
      refine .bind_of_run (a := ()) (t := k2.setMem ((k2.mem.putBytes np.trapframe 0
        ((List.range 288).map (k2.mem p.trapframe))).setWord np.trapframe 14 0)) rfl ?_
      refine .of_pure ⟨hk12.trans (hk3.old_roots hnew (by simp)).shares, hnew, rfl, hm3, hc3,
        hsh.child.same hl3 hn1, ?_⟩
      intro x hx
      have hxl : x < vpnLimit := by
        have := hs.le
        have := userVpns_lt
        omega
      rw [hl3 _ hr1 x hxl, hl3 _ hn1 x hxl]
      exact hsh.alike x hx

end XV6AndConcurrency.VirtualMemory
