import XV6AndConcurrency.VirtualMemory.Boot

/-!
# The two ways to resolve a fault

`usertrap` with `cowtest_h`, and the copy-on-write branch of `copyout`, on an entry that
is valid, user accessible and copy-on-write. They agree when the address is below the size
of the process and there is a free page. Otherwise `usertrap` kills the process, and
`copyout` writes the bytes to the shared page.
-/

namespace XV6AndConcurrency.VirtualMemory

open Foundations

variable {L : Layout} {k k' : Kernel} {roots : Finset ℕ} {held : ℕ → ℕ} {r n sz va : ℕ}
  {T : Finset ℕ}

/-- The entry for `va` is writable and maps a page of its own that holds what the shared
page held before. -/
def PrivateCopy (k k' : Kernel) (r va : ℕ) : Prop :=
  let w := leaf k'.mem r (va / 4096)
  pteWritable w = true ∧ k'.refs (pte2pa w) = 1 ∧ pte2pa w ≠ pte2pa (leaf k.mem r (va / 4096)) ∧
    k'.mem (pte2pa w) = k.mem (pte2pa (leaf k.mem r (va / 4096)))

/-- Both paths resolve the fault, with one result. -/
def BothResolve (L : Layout) (k : Kernel) (r sz va : ℕ) : Prop :=
  ∃ k1 k2 dst, usertrapStore L r sz va k = .ok (false, k1) ∧
    copyoutCow L r sz (pgrounddown va) (pte2pa (leaf k.mem r (va / 4096))) k =
      .ok ((dst, false), k2) ∧
    dst = pte2pa (leaf k2.mem r (va / 4096)) ∧
    pteFlags (leaf k1.mem r (va / 4096)) = pteFlags (leaf k2.mem r (va / 4096)) ∧
    PrivateCopy k k1 r va ∧ PrivateCopy k k2 r va ∧ ∀ q, k1.refs q = k2.refs q

/-- The table, the counts and the page at `va` are as before. -/
def Untouched (k k' : Kernel) (r va : ℕ) : Prop :=
  (∀ x < vpnLimit, leaf k'.mem r x = leaf k.mem r x) ∧ (∀ q, k'.refs q = k.refs q) ∧
    k'.mem (pte2pa (leaf k.mem r (va / 4096))) = k.mem (pte2pa (leaf k.mem r (va / 4096)))

/-- Both paths refuse: the process is killed, `copyout` returns -1, and nothing changes. -/
def BothRefuse (L : Layout) (k : Kernel) (r sz va : ℕ) : Prop :=
  (∃ k1, usertrapStore L r sz va k = .ok (true, k1) ∧ Untouched k k1 r va) ∧
    ∀ b, ∃ killed k2, copyout L r sz va [b] k = .ok ((false, killed), k2) ∧ Untouched k k2 r va

section Paths

variable (h : Coherent L k roots held) (hr : r ∈ roots) (hs : Shape k.mem r n T)
  (hva : va < maxva) (hc : CowEntry (leaf k.mem r (va / 4096)))
include h hr hs hva hc

omit h hr in
theorem cowEntry_lt : va / 4096 < userVpns :=
  (hs.lt_of_user (lt_vpnLimit_of_lt_maxva hva) hc.2.2 hc.2.1).trans_le hs.le

theorem bothResolve_of_free (hsz : va < sz) (hne : k.freelist ≠ []) : BothResolve L k r sz va := by
  obtain ⟨p, next, hfl⟩ := List.exists_cons_of_ne_nil hne
  have hv := cowEntry_lt hs hva hc
  have hm : Maps (leaf k.mem r (va / 4096)) (pte2pa (leaf k.mem r (va / 4096))) := ⟨hc.2.2, rfl⟩
  obtain ⟨t, ht, hrun⟩ := cowtestH_resolve h.toBalanced hr hv hc hfl
  have hpsz : va / 4096 * 4096 < sz := by omega
  obtain ⟨t', ht', hcopy⟩ := copyoutCow_resolve h.toBalanced hr hv hc.2.2 hc.1 hpsz hfl
  obtain rfl : t = t' := by simpa [ht] using ht'
  obtain ⟨-, -, hqp⟩ := resolve_distinct h.toBalanced hr hv ht hm hfl
  obtain ⟨hc1, hl1, -, hbytes⟩ := resolve_spec h hr hv ht hm hfl
  have hpage := ((h.free p).mp (by simp [hfl])).1
  have hqpage := h.isPage_of_mapped (mapCount_pos hr hv hm)
  generalize hk1 : k.resolve t (vpn0 (va / 4096)) p next (pte2pa (leaf k.mem r (va / 4096)))
    (leaf k.mem r (va / 4096)) = k1 at *
  have hown : leaf k1.mem r (va / 4096) = resolvedPte p (leaf k.mem r (va / 4096)) := by
    rw [hl1 r hr _ (hv.trans userVpns_lt), if_pos ⟨rfl, rfl⟩]
  have hmp : pte2pa (leaf k1.mem r (va / 4096)) = p := by
    rw [hown]
    exact (resolvedPte_maps hpage hc.2.2).2
  have hrefs : k1.refs p = 1 := by
    rw [← hk1]
    exact (Kernel.release_refs_of_ne _ hqpage.1 hpage.1 hqp.symm).trans
      (Kernel.setRefs_refs_self _ _ _)
  have hpriv : PrivateCopy k k1 r va := by
    refine ⟨?_, ?_, ?_, ?_⟩
    · rw [hown]
      exact resolvedPte_writable _ _
    · rw [hmp]
      exact hrefs
    · rw [hmp]
      exact hqp.symm
    · rw [hmp]
      exact hbytes
  refine ⟨k1, k1, p, ?_, hcopy, hmp.symm, rfl, hpriv, hpriv, fun _ => rfl⟩
  have hkill : decide (sz ≤ va) = false := by simpa using hsz
  simp [usertrapStore, hrun, hkill]

omit h hr hs hva hc in
/-- `usertrap` lets the process go on only below its size and with a free page. -/
theorem usertrapStore_false (hrun : usertrapStore L r sz va k = .ok (false, k')) :
    va < sz ∧ k.freelist ≠ [] := by
  constructor
  · by_contra hle
    have hd : decide (sz ≤ va) = true := by simpa using hle
    unfold usertrapStore at hrun
    simp only [bind_run] at hrun
    cases hcow : cowtestH L r va k with
    | error e => simp [hcow] at hrun
    | ok res => simp [hcow, hd] at hrun
  · intro hnil
    have href : cowtestH L r va k = .ok (false, k) := cowtestH_refuse fun _ _ => hnil
    simp [usertrapStore, href] at hrun

/-- `copyout` does not refuse the write. -/
theorem copyout_cow_returns (sz : ℕ) (b : Byte) :
    Ensures (copyout L r sz va [b]) (fun res _ => res.1 = true) k := by
  have hv := cowEntry_lt hs hva hc
  have hm : Maps (leaf k.mem r (va / 4096)) (pte2pa (leaf k.mem r (va / 4096))) := ⟨hc.2.2, rfl⟩
  have hpos := (h.isPage_of_mapped (mapCount_pos hr hv hm)).pos
  have hpage : userPage (leaf k.mem r (va / 4096)) = some (pte2pa (leaf k.mem r (va / 4096))) :=
    if_pos ⟨hc.2.2, hc.2.1, by omega⟩
  have hdown : pgrounddown va = va / 4096 * 4096 := rfl
  have hdiv : va / 4096 * 4096 / 4096 = va / 4096 := by omega
  unfold copyout
  rw [List.length_singleton]
  unfold copyoutLoop
  rw [if_neg (by simp)]
  refine .bind_of_run (walkaddr_run _ _ k) ?_
  rw [hdown, if_pos (by omega), hdiv, hpage]
  refine .bind (copyoutCow_spec h hr hv hc.2.2 sz) ?_
  intro dst k1 _
  exact .modify_bind (.of_pure rfl)

theorem not_bothRefuse (sz : ℕ) : ¬ BothRefuse L k r sz va := by
  rintro ⟨-, hcopy⟩
  obtain ⟨killed, k2, hrun, -⟩ := hcopy 0
  have := (copyout_cow_returns h hr hs hva hc sz 0).unique hrun
  simp at this

end Paths

/-- The two paths agree exactly when the address is below the size of the process and a
page is free. -/
theorem fault_paths_agree_iff (h : Coherent L k roots held) (hr : r ∈ roots)
    (hs : Shape k.mem r n T) (hva : va < maxva) (hc : CowEntry (leaf k.mem r (va / 4096)))
    (sz : ℕ) : BothResolve L k r sz va ∨ BothRefuse L k r sz va ↔ va < sz ∧ k.freelist ≠ [] := by
  constructor
  · rintro (⟨k1, k2, dst, hrun, -⟩ | href)
    · exact usertrapStore_false hrun
    · exact absurd href (not_bothRefuse h hr hs hva hc sz)
  · rintro ⟨hsz, hne⟩
    exact Or.inl (bothResolve_of_free h hr hs hva hc hsz hne)

/-! ## A small machine -/

/-- A kernel that leaves twenty pages to the allocator. -/
def smallLayout : Layout where
  endAddr := phystop - 20 * pgsize
  trampoline := kernbase
  kernbase_le_trampoline := by decide
  trampoline_lt_end := by decide
  trampoline_aligned := by decide
  end_lt_phystop := by decide

/-- The first process forks, and buffers take the rest of the memory. -/
def exhaust : List Op := [.userinit, .fork 0] ++ List.replicate 7 .kalloc

/-- With memory left, both paths resolve the first fault after a fork. -/
theorem fault_paths_agree_after_fork :
    ∃ os s p, boot smallLayout (fun _ _ => 0) [.userinit, .fork 0] = .ok (os, s) ∧ p ∈ s.procs ∧
      CowEntry (leaf s.kernel.mem p.pagetable (0 / 4096)) ∧
      (BothResolve smallLayout s.kernel p.pagetable p.sz 0 ∨
        BothRefuse smallLayout s.kernel p.pagetable p.sz 0 ↔
        0 < p.sz ∧ s.kernel.freelist ≠ []) := by
  obtain ⟨os, s, hrun, leak, hinv, -⟩ := boot_run smallLayout (fun _ _ => 0) [.userinit, .fork 0]
  have heval : ((boot smallLayout (fun _ _ => 0) [.userinit, .fork 0]).toOption.any fun x =>
      x.2.procs.head?.any fun p =>
        decide (CowEntry (leaf x.2.kernel.mem p.pagetable (0 / 4096)))) = true := by
    decide +kernel
  rw [hrun] at heval
  obtain ⟨k, procs, buffers, copyFailed⟩ := s
  cases procs with
  | nil => cases heval
  | cons p rest =>
    have hp : p ∈ p :: rest := List.mem_cons_self
    have hcow : CowEntry (leaf k.mem p.pagetable (0 / 4096)) := of_decide_eq_true heval
    exact ⟨os, _, p, hrun, hp, hcow, fault_paths_agree_iff hinv.coherent (mem_rootsOf hp)
      (hinv.shape p hp) (by decide) hcow p.sz⟩

/-- Without memory they part, on an address below the size of the process. -/
theorem fault_paths_disagree :
    ∃ os s p, boot smallLayout (fun _ _ => 0) exhaust = .ok (os, s) ∧ p ∈ s.procs ∧ 0 < p.sz ∧
      CowEntry (leaf s.kernel.mem p.pagetable (0 / 4096)) ∧
      ¬ (BothResolve smallLayout s.kernel p.pagetable p.sz 0 ∨
        BothRefuse smallLayout s.kernel p.pagetable p.sz 0) := by
  obtain ⟨os, s, hrun, leak, hinv, -⟩ := boot_run smallLayout (fun _ _ => 0) exhaust
  have heval : ((boot smallLayout (fun _ _ => 0) exhaust).toOption.any fun x =>
      x.2.procs.head?.any fun p => decide (CowEntry (leaf x.2.kernel.mem p.pagetable (0 / 4096)) ∧
        0 < p.sz ∧ x.2.kernel.freelist = [])) = true := by
    decide +kernel
  rw [hrun] at heval
  obtain ⟨k, procs, buffers, copyFailed⟩ := s
  cases procs with
  | nil => cases heval
  | cons p rest =>
    have hp : p ∈ p :: rest := List.mem_cons_self
    obtain ⟨hcow, hsz, hnil⟩ : CowEntry (leaf k.mem p.pagetable (0 / 4096)) ∧ 0 < p.sz ∧
      k.freelist = [] := of_decide_eq_true heval
    refine ⟨os, _, p, hrun, hp, hsz, hcow, ?_⟩
    rintro (⟨k1, k2, dst, hst, -⟩ | href)
    · exact (usertrapStore_false hst).2 hnil
    · exact not_bothRefuse hinv.coherent (mem_rootsOf hp) (hinv.shape p hp) (by decide) hcow p.sz
        href

end XV6AndConcurrency.VirtualMemory
