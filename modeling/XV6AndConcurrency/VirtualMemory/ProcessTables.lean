import XV6AndConcurrency.VirtualMemory.Growing
import XV6AndConcurrency.VirtualMemory.Processes

/-!
# Specifications of process page tables

Building and freeing the table of a process, its trapframe page, the first user
page and `growproc`. The bounds on the free list say when building cannot fail,
which is what `userinit` relies on.
-/

namespace XV6AndConcurrency.VirtualMemory

open Foundations

variable {L : Layout} {k k' : Kernel} {roots : Finset ℕ} {held : ℕ → ℕ} {r v n p : ℕ}
  {T : Finset ℕ}

theorem trampolineVa_eq : trampolineVa = trampolineVpn * 4096 := rfl
theorem trapframeVa_eq_vpn : trapframeVa = trapframeVpn * 4096 := rfl

theorem trampolineVpn_bounds : userVpns ≤ trampolineVpn ∧ trampolineVpn * 4096 < maxva := by
  decide

theorem trapframeVpn_bounds : userVpns ≤ trapframeVpn ∧ trapframeVpn * 4096 < maxva := by
  decide

/-! ## The pages at the top -/

theorem Shape.addTop (h : Shape k.mem r n T) (hr : r ∈ roots)
    (hk : Keeps k k' roots held (fun s x => s = r ∧ x = v)) (hv : userVpns ≤ v)
    (hvl : v < vpnLimit) (hval : pteValid (leaf k'.mem r v) = true)
    (hread : pteReadable (leaf k'.mem r v) = true)
    (hkern : pteUser (leaf k'.mem r v) = false ∧ pteCow (leaf k'.mem r v) = false) :
    Shape k'.mem r n (insert v T) where
  le := h.le
  above x hx := by
    rcases Finset.mem_insert.mp hx with rfl | hx
    · exact ⟨hv, hvl⟩
    · exact h.above x hx
  valid x hx := by
    by_cases hxv : x = v
    · subst hxv
      simp [hval]
    · rw [(hk.alike hr hx (by omega)).valid, h.valid x hx]
      simp [hxv]
  readable x hx hx' := by
    by_cases hxv : x = v
    · subst hxv
      exact hread
    · have ha := hk.alike hr hx (by omega)
      rw [ha.valid] at hx'
      rw [ha.readable, h.readable x hx hx']
  kernel x hx := by
    by_cases hxv : x = v
    · subst hxv
      exact hkern
    · have hxT := Finset.mem_of_mem_insert_of_ne hx hxv
      obtain ⟨h1, h2⟩ := h.above x hxT
      rw [hk.top r hr x h2 h1 (by omega)]
      exact h.kernel x hxT

theorem Shape.dropTop (h : Shape k.mem r n T) (hv : userVpns ≤ v)
    (hl : ∀ x < vpnLimit, leaf k'.mem r x = if x = v then 0#64 else leaf k.mem r x) :
    Shape k'.mem r n (T.erase v) where
  le := h.le
  above x hx := h.above x (Finset.mem_of_mem_erase hx)
  valid x hx := by
    have hle := h.le
    rw [hl x hx]
    split_ifs with hxv
    · subst hxv
      simp
      omega
    · rw [h.valid x hx]
      simp [hxv]
  readable x hx := by
    rw [hl x hx]
    split_ifs with hxv
    · simp
    · exact h.readable x hx
  kernel x hx := by
    have hxT := Finset.mem_of_mem_erase hx
    rw [hl x (h.above x hxT).2, if_neg (Finset.ne_of_mem_erase hx)]
    exact h.kernel x hxT

/-- Mapping a page at the top that only the kernel may use. -/
theorem mappages_top_spec (h : Coherent L k roots held) (hr : r ∈ roots)
    (hs : Shape k.mem r n T) (hv : userVpns ≤ v) (hva : v * 4096 < maxva) (hvT : v ∉ T) (p : ℕ)
    {perm : Pte} (hread : pteReadable perm = true)
    (hkern : pteUser perm = false ∧ pteCow perm = false) :
    Ensures (mappages r (v * 4096) pgsize p perm) (fun ok k' =>
      Coherent L k' roots held ∧ k.freelist.length ≤ k'.freelist.length + 2 ∧
      match ok with
      | false => Shape k'.mem r n T ∧ Keeps k k' roots held (fun _ _ => False) ∧
          k.freelist.length ≤ 1
      | true => Shape k'.mem r n (insert v T) ∧
          Keeps k k' roots held (fun s x => s = r ∧ x = v)) k := by
  have hvl : v < vpnLimit := by
    rw [maxva_eq] at hva
    unfold vpnLimit
    omega
  have hinv : pteValid (leaf k.mem r v) = false := by
    have hle := hs.le
    have := hs.valid v hvl
    simp only [hvT, or_false] at this
    have hn : ¬ v < n := by omega
    simpa [hn] using this
  rw [mappages_page]
  refine (mapPage_top_spec h hr hv hva hinv p perm).mono ?_
  rintro ok k' ⟨hc, hlen, hok⟩
  refine ⟨hc, hlen, ?_⟩
  cases ok with
  | false =>
    obtain ⟨hk, hfl⟩ := hok
    exact ⟨hs.keep hk hr (by simp), hk, hfl⟩
  | true =>
    obtain ⟨hleaf, hk⟩ := hok
    refine ⟨hs.addTop hr hk hv hvl ?_ ?_ ?_, hk⟩
    · rw [hleaf]
      simp
    · rw [hleaf]
      simp [hread]
    · rw [hleaf]
      simp [hkern.1, hkern.2]

theorem uvmunmap_top_shape (h : Coherent L k roots held) (hr : r ∈ roots)
    (hs : Shape k.mem r n T) (hv : userVpns ≤ v) (hva : v * 4096 < maxva) (hvT : v ∈ T) :
    Ensures (uvmunmap L r (v * 4096) 1 false) (fun _ k' =>
      Coherent L k' roots held ∧ Shape k'.mem r n (T.erase v) ∧
      Keeps k k' roots held (fun s x => s = r ∧ x = v)) k := by
  have hvl := (hs.above v hvT).2
  have hval := (hs.valid v hvl).mpr (Or.inr hvT)
  refine (uvmunmap_top_spec h hr hv hva hval (hs.readable v hvl hval)).mono ?_
  rintro _ k' ⟨hc, hl, hk⟩
  refine ⟨hc, hs.dropTop hv ?_, hk⟩
  intro x hx
  rw [hl r hr x hx]
  simp

/-! ## Tables of processes -/

theorem erase_insert_self (hr : r ∉ roots) : (insert r roots).erase r = roots :=
  Finset.erase_insert hr

/-- What is kept of the tables that were there before a new root. -/
theorem KeepsUpTo.old_roots {R : Pte → Pte → Prop} {D : ℕ → ℕ → Prop}
    (h : KeepsUpTo R k k' (insert r roots) held D)
    (hr : r ∉ roots) (hD : ∀ s x, D s x → s = r) :
    KeepsUpTo R k k' roots held (fun _ _ => False) := by
  refine (h.weaken_roots (Finset.subset_insert r roots)).narrow ?_
  intro s hs x hDs
  exact hr (hD s x hDs ▸ hs)

theorem uvmfree_new {sz : ℕ} (h : Coherent L k (insert r roots) held) (hr : r ∉ roots)
    (hs : Shape k.mem r (npagesOf sz) ∅) :
    Ensures (uvmfree L r sz) (fun _ k' => Coherent L k' roots held ∧
      Keeps k k' roots held (fun _ _ => False)) k := by
  have := uvmfree_spec h (Finset.mem_insert_self r roots) hs
  rwa [erase_insert_self hr] at this

/-- `proc_pagetable` builds a table with the two top pages, or undoes what it did. -/
theorem procPagetable_spec (h : Coherent L k roots held) (trapframe : ℕ) :
    Ensures (procPagetable L trapframe) (fun res k' =>
      match res with
      | none => Coherent L k' roots held ∧ Keeps k k' roots held (fun _ _ => False) ∧
          k.freelist.length ≤ 4
      | some r => r ∉ roots ∧ Coherent L k' (insert r roots) held ∧ Shape k'.mem r 0 topVpns ∧
          Keeps k k' roots held (fun _ _ => False) ∧
          k.freelist.length ≤ k'.freelist.length + 5) k := by
  unfold procPagetable
  refine .bind (uvmcreate_spec h) ?_
  intro res k1 hres
  cases res with
  | none =>
    obtain ⟨rfl, hnil⟩ := hres
    exact .of_pure ⟨h, .refl, by simp [hnil]⟩
  | some r =>
    obtain ⟨hr, hc1, hcl1, hk1, hlen1⟩ := hres
    have hmem := Finset.mem_insert_self r roots
    rw [trampolineVa_eq]
    refine .bind (mappages_top_spec hc1 hmem (Shape.of_clean hcl1) trampolineVpn_bounds.1
      trampolineVpn_bounds.2 (by simp) L.trampoline (by simp) (by simp)) ?_
    rintro ok k2 ⟨hc2, hlen2, hok2⟩
    cases ok with
    | false =>
      obtain ⟨hs2, hk2, hfl2⟩ := hok2
      refine .bind (uvmfree_new hc2 hr hs2) ?_
      rintro _ k3 ⟨hc3, hk3⟩
      refine .of_pure ⟨hc3, ?_, by omega⟩
      exact (hk1.trans (hk2.old_roots hr (by simp))).trans hk3
    | true =>
      obtain ⟨hs2, hk2⟩ := hok2
      have hk12 := hk1.trans (hk2.old_roots hr (by simp))
      rw [if_pos rfl, trapframeVa_eq_vpn]
      refine .bind (mappages_top_spec hc2 hmem hs2 trapframeVpn_bounds.1 trapframeVpn_bounds.2
        (by simp [trapframeVpn, trampolineVpn]) trapframe (by simp) (by simp)) ?_
      rintro ok k3 ⟨hc3, hlen3, hok3⟩
      cases ok with
      | false =>
        obtain ⟨hs3, hk3, hfl3⟩ := hok3
        refine .bind (uvmunmap_top_shape hc3 hmem hs3 trampolineVpn_bounds.1
          trampolineVpn_bounds.2 (by simp)) ?_
        rintro _ k4 ⟨hc4, hs4, hk4⟩
        rw [Finset.erase_insert (by simp)] at hs4
        refine .bind (uvmfree_new hc4 hr hs4) ?_
        rintro _ k5 ⟨hc5, hk5⟩
        refine .of_pure ⟨hc5, ?_, by omega⟩
        exact ((hk12.trans (hk3.old_roots hr (by simp))).trans
          (hk4.old_roots hr (by simp))).trans hk5
      | true =>
        obtain ⟨hs3, hk3⟩ := hok3
        exact .of_pure ⟨hr, hc3, hs3, hk12.trans (hk3.old_roots hr (by simp)), by omega⟩

/-- `proc_freepagetable` gives back all that the table of a process owns. -/
theorem procFreepagetable_spec {sz : ℕ} (h : Coherent L k roots held) (hr : r ∈ roots)
    (hs : Shape k.mem r (npagesOf sz) topVpns) :
    Ensures (procFreepagetable L r sz) (fun _ k' => Coherent L k' (roots.erase r) held ∧
      Keeps k k' (roots.erase r) held (fun _ _ => False)) k := by
  unfold procFreepagetable
  rw [trampolineVa_eq, trapframeVa_eq_vpn]
  refine .bind (uvmunmap_top_shape h hr hs trampolineVpn_bounds.1 trampolineVpn_bounds.2
    (by simp [topVpns])) ?_
  rintro _ k1 ⟨hc1, hs1, hk1⟩
  have hT : (topVpns.erase trampolineVpn).erase trapframeVpn = ∅ := by decide
  refine .bind (uvmunmap_top_shape hc1 hr hs1 trapframeVpn_bounds.1 trapframeVpn_bounds.2
    (by simp [topVpns, trapframeVpn, trampolineVpn])) ?_
  rintro _ k2 ⟨hc2, hs2, hk2⟩
  rw [hT] at hs2
  refine (uvmfree_spec hc2 hr hs2).mono ?_
  rintro _ k3 ⟨hc3, hk3⟩
  refine ⟨hc3, KeepsUpTo.trans ?_ hk3⟩
  have hk := (hk1.mono (E := fun s _ => s = r) fun _ _ hD => hD.1).trans
    (hk2.mono fun _ _ hD => hD.1)
  exact (hk.weaken_roots (Finset.erase_subset r roots)).narrow fun s hs _ =>
    Finset.ne_of_mem_erase hs

theorem procFreepagetable_new {sz : ℕ} (h : Coherent L k (insert r roots) held) (hr : r ∉ roots)
    (hs : Shape k.mem r (npagesOf sz) topVpns) :
    Ensures (procFreepagetable L r sz) (fun _ k' => Coherent L k' roots held ∧
      Keeps k k' roots held (fun _ _ => False)) k := by
  have := procFreepagetable_spec h (Finset.mem_insert_self r roots) hs
  rwa [erase_insert_self hr] at this

theorem allocproc_spec (h : Coherent L k roots held) :
    Ensures (allocproc L) (fun res k' =>
      match res with
      | none => Coherent L k' roots held ∧ Keeps k k' roots held (fun _ _ => False) ∧
          k.freelist.length ≤ 5
      | some np => np.sz = 0 ∧ np.pagetable ∉ roots ∧ held np.trapframe = 0 ∧
          mapCount k'.mem (insert np.pagetable roots) np.trapframe = 0 ∧
          Coherent L k' (insert np.pagetable roots) (bump held np.trapframe) ∧
          Shape k'.mem np.pagetable 0 topVpns ∧ Keeps k k' roots held (fun _ _ => False) ∧
          k.freelist.length ≤ k'.freelist.length + 6) k := by
  unfold allocproc
  refine .bind (kalloc_coherent h) ?_
  intro res k1 hres
  cases res with
  | none =>
    obtain ⟨rfl, hnil⟩ := hres
    exact .of_pure ⟨h, .refl, by simp [hnil]⟩
  | some tf =>
    obtain ⟨hc1, -, hk1, h0, hm1, -, hfl⟩ := hres
    have hlen : k.freelist.length = k1.freelist.length + 1 := by simp [hfl]
    refine .bind (procPagetable_spec hc1 tf) ?_
    intro res k2 hres2
    cases res with
    | none =>
      obtain ⟨hc2, hk2, hlen2⟩ := hres2
      have hrel := hc2.release (p := tf) (by simp)
      have hk3 := release_keeps hc2.toBalanced (p := tf) (by simp) (D := fun _ _ => False)
      rw [drop_bump] at hrel hk3
      refine .bind_of_run (kfree_run (hc2.isPage_of_held (p := tf) (by simp))) ?_
      refine .of_pure ⟨hrel, (hk1.trans (hk2.weaken_held ?_)).trans hk3, by omega⟩
      intro q hq
      rw [bump_apply]
      omega
    | some r =>
      obtain ⟨hr, hc2, hs2, hk2, hlen2⟩ := hres2
      have hm2 : mapCount k2.mem (insert r roots) tf = 0 := by
        rw [mapCount_insert hr, mapCount_congr (m := k1.mem), hm1]
        · intro s hs x hx
          exact (hk2.alike hs (hx.trans userVpns_lt) (by simp)).maps tf
        · intro x hx
          have hT : x ∉ topVpns := fun hT => by
            have := (hs2.above x hT).1
            omega
          simpa [hT] using hs2.valid x (hx.trans userVpns_lt)
      refine .of_pure ⟨rfl, hr, h0, hm2, hc2, hs2, hk1.trans (hk2.weaken_held ?_), by omega⟩
      intro q hq
      rw [bump_apply]
      omega

theorem freeproc_spec {p : Proc} (h : Coherent L k roots held) (hr : p.pagetable ∈ roots)
    (hs : Shape k.mem p.pagetable (npagesOf p.sz) topVpns) (htf : 0 < held p.trapframe) :
    Ensures (freeproc L p) (fun _ k' =>
      Coherent L k' (roots.erase p.pagetable) (drop held p.trapframe) ∧
      Keeps k k' (roots.erase p.pagetable) (drop held p.trapframe) (fun _ _ => False)) k := by
  unfold freeproc
  refine .bind_of_run (kfree_run (h.isPage_of_held htf)) ?_
  have hc1 := h.release htf
  have hk1 := release_keeps h.toBalanced htf (D := fun _ _ => False)
  refine (procFreepagetable_spec hc1 hr (hs.keep hk1 hr (by simp))).mono ?_
  rintro _ k2 ⟨hc2, hk2⟩
  exact ⟨hc2, (hk1.weaken_roots (Finset.erase_subset _ _)).trans hk2⟩

/-! ## Writing user memory -/

/-- A write to a page that is mapped somewhere is seen by the entries that map it. -/
theorem write_mapped (h : Coherent L k roots held) (hp : 0 < mapCount k.mem roots p)
    {m : Memory} (hm : ∀ q, q ≠ p → m q = k.mem q) (hheld : held p = 0) :
    Coherent L (k.setMem m) roots held ∧ SameLeaves k (k.setMem m) roots ∧
      Keeps k (k.setMem m) roots held (fun s x => x < userVpns ∧ Maps (leaf k.mem s x) p) := by
  have htab : ∀ t, IsTable k.mem roots t → m t = k.mem t := by
    intro t ht
    apply hm
    rintro rfl
    exact h.not_table_of_mapped hp ht
  have hl : SameLeaves k (k.setMem m) roots := sameLeaves_of_tables htab
  refine ⟨h.write_data htab, hl, .of_leaves (fun s hs x hx _ => hl s hs x hx) ?_ ?_⟩
  · intro s hs x hx hD q hq
    apply hm
    rintro rfl
    exact hD ⟨hx, hq⟩
  · intro q hq
    apply hm
    rintro rfl
    omega

/-- A write to a page through its only, writable entry. -/
theorem write_writable (h : Coherent L k roots held) (hr : r ∈ roots) (hv : v < userVpns)
    (hp : Maps (leaf k.mem r v) p) (hw : pteWritable (leaf k.mem r v) = true) {m : Memory}
    (hm : ∀ q, q ≠ p → m q = k.mem q) :
    Coherent L (k.setMem m) roots held ∧ SameLeaves k (k.setMem m) roots ∧
      Keeps k (k.setMem m) roots held (fun s x => s = r ∧ x = v) := by
  obtain ⟨-, hheld, hu⟩ := h.sharing.exclusive hr hv hp hw
  obtain ⟨hc, hl, hk⟩ := write_mapped h (mapCount_pos hr hv hp) hm hheld
  refine ⟨hc, hl, .of_leaves (fun s hs x hx _ => hl s hs x hx) ?_ hk.held⟩
  intro s hs x hx hD q hq
  refine hk.bytes s hs x hx ?_ q hq
  rintro ⟨-, hm'⟩
  exact hD (hu hs hx hm')

/-- `uvmfirst` on an empty table, with memory for a page and two page-table pages. -/
theorem uvmfirst_spec {src : List Byte} (h : Coherent L k roots held) (hr : r ∈ roots)
    (hs : Shape k.mem r 0 T) (hsrc : src.length < pgsize) (hfree : 3 ≤ k.freelist.length) :
    Ensures (uvmfirst r src) (fun _ k' => Coherent L k' roots held ∧ Shape k'.mem r 1 T ∧
      pteWritable (leaf k'.mem r 0) = true ∧
      Keeps k k' roots held (fun s x => s = r ∧ x = 0)) k := by
  unfold uvmfirst
  rw [if_neg (by omega)]
  refine .bind (kalloc_coherent h) ?_
  intro res k1 hres
  cases res with
  | none =>
    obtain ⟨-, hnil⟩ := hres
    simp [hnil] at hfree
  | some p =>
    obtain ⟨hc1, hl1, hk1, h0, hm1, -, hfl⟩ := hres
    have hlen : k.freelist.length = k1.freelist.length + 1 := by simp [hfl]
    obtain ⟨hc2, hl2, hk2, hm2⟩ := write_fresh hc1 h0 hm1 (m := k1.mem.fill p 0#8)
      fun q hq => Memory.fill_of_ne _ _ _ _ hq
    have hk12 := hk1.trans hk2
    have hs2 : Shape (k1.setMem (k1.mem.fill p 0#8)).mem r 0 T := hs.keep hk12 hr (by simp)
    have hperm : PermOk (pteW ||| pteX) := by
      intro i h2 h3
      simp [h2, h3]
    have hmask : pteW ||| pteR ||| pteX ||| pteU = pteR ||| pteU ||| (pteW ||| pteX) := by decide
    have hmap := mapPage_zeroed hc2 hr hs2 h0 hm2 (by simp) hperm
    rw [← hmask, Nat.zero_mul] at hmap
    refine .modify_bind (.bind hmap ?_)
    rintro ok k3 ⟨hlen3, hok⟩
    rw [Kernel.setMem_freelist] at hlen3
    cases ok with
    | false =>
      obtain ⟨-, -, hfl3⟩ := hok
      rw [Kernel.setMem_freelist] at hfl3
      omega
    | true =>
      obtain ⟨hc3, hs3, hk3, hmaps, hw, -, -⟩ := hok
      have hu : (0 : ℕ) < userVpns := by decide
      obtain ⟨hc4, hl4, hk4⟩ := write_writable hc3 hr hu hmaps (by rw [hw]; simp)
        (m := k3.mem.putBytes p 0 src) fun q hq => Memory.putBytes_of_ne _ _ _ _ _ hq
      have hk13 := (hk12.mono (E := fun s x => s = r ∧ x = 0) fun _ _ hF => hF.elim).trans
        (hk3.weaken_held (g := held) (by simp [bump_apply]; omega))
      refine .of_modify ⟨hc4, hs3.same hl4 hr, ?_, hk13.trans hk4⟩
      rw [hl4 r hr 0 (hu.trans userVpns_lt), hw]
      simp

/-! ## sbrk -/

/-- The size `growproc` asks for; a size below zero wraps around and is left alone. -/
def growTarget (sz : ℕ) (n : ℤ) : ℕ := if sz + n < 0 then sz else (sz + n).toNat

/-- `growproc` gives the process the size it asked for, or leaves it as it was. -/
theorem growproc_spec {p : Proc} {n : ℤ} (h : Coherent L k roots held)
    (hr : p.pagetable ∈ roots) (hs : Shape k.mem p.pagetable (npagesOf p.sz) T)
    (hlo : -2 ^ 31 ≤ n) (hhi : n < 2 ^ 31) :
    Ensures (growproc L p n) (fun res k' =>
      Coherent L k' roots held ∧ Shape k'.mem p.pagetable (npagesOf res.2) T ∧
      Keeps k k' roots held (fun s x => s = p.pagetable ∧ x < userVpns ∧
        (npagesOf res.2 ≤ x ∨ npagesOf p.sz ≤ x)) ∧
      (∀ x, npagesOf p.sz ≤ x → x < npagesOf res.2 →
        FreshSlot k k' roots held p.pagetable pteW x) ∧
      res.2 = if res.1 then growTarget p.sz n else p.sz) k := by
  have hlt := npagesOf_lt hs.le
  have hle := hs.le
  unfold growproc
  split_ifs with hpos hneg
  · have hsz : ((p.sz + n) % 2 ^ 64).toNat = growTarget p.sz n := by
      unfold growTarget
      rw [if_neg (by omega), Int.emod_eq_of_lt (by omega) (by omega)]
    have hgt : p.sz < growTarget p.sz n := by
      unfold growTarget
      rw [if_neg (by omega)]
      omega
    rw [hsz]
    refine .bind (uvmalloc_spec h hr hs permOk_pteW) ?_
    rintro sz k1 ⟨hc1, hk1, ⟨rfl, hs1, hz1⟩ | ⟨rfl, hs1⟩⟩
    · rw [max_eq_right hgt.le] at hs1 hz1 ⊢
      rw [if_neg (by omega)]
      exact .of_pure ⟨hc1, hs1, hk1.mono (by omega), hz1, rfl⟩
    · rw [if_pos rfl]
      exact .of_pure ⟨hc1, hs1, hk1.mono (by omega), by simp; omega, rfl⟩
  · refine .bind (uvmdealloc_spec h hr hs) ?_
    rintro sz k1 ⟨hsz, hc1, hs1, hk1⟩
    have htgt : sz = growTarget p.sz n := by
      rw [hsz]
      unfold growTarget
      split_ifs with hwrap
      · omega
      · rw [Int.emod_eq_of_lt (by omega) (by omega)]
        omega
    have hmono : npagesOf sz ≤ npagesOf p.sz := by
      have : sz ≤ p.sz := by
        rw [hsz]
        exact min_le_left _ _
      unfold npagesOf
      omega
    refine .of_pure ⟨hc1, hs1, hk1.mono ?_, by simp; omega, htgt⟩
    rintro s x ⟨rfl, h1, h2⟩
    exact ⟨rfl, by omega, Or.inl h1⟩
  · have hz : n = 0 := by omega
    exact .of_pure ⟨h, hs, .refl, by simp; omega, by simp [growTarget, hz]⟩

end XV6AndConcurrency.VirtualMemory
