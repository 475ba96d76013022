import XV6AndConcurrency.VirtualMemory.FaultPaths

/-!
# What a failing uvmcopy keeps

The count of a page is raised before the mapping that can fail, and the cleanup walks the
pages before it only. So `uvmcopy` never returns -1 without leaving one count too high.
-/

namespace XV6AndConcurrency.VirtualMemory

open Foundations

variable {L : Layout} {k k' : Kernel} {roots : Finset ℕ} {held : ℕ → ℕ} {r c sz q : ℕ}
  {T U : Finset ℕ}

/-- A failing `uvmcopy` between `k1` and `k2` into the table of the new process `np`, in a
`fork` that began in `k`, has given everything back. -/
structure GivesBack (L : Layout) (k k1 k2 : Kernel) (np : Proc) : Prop where
  counts : ∀ i, k2.referenceCount i = k1.referenceCount i
  unmapped : ∀ x < userVpns, pteValid (leaf k2.mem np.pagetable x) = false
  free : ∀ k3, freeproc L np k2 = .ok ((), k3) → ∀ q, q ∈ k3.freelist ↔ q ∈ k.freelist

/-- A mapped page has one reference for every entry that maps it and every holder. -/
theorem Coherent.refs_of_mapped (h : Coherent L k roots held)
    (hq : 0 < mapCount k.mem roots q) : k.refs q = mapCount k.mem roots q + held q := by
  have howners : owners k.mem roots held q = mapCount k.mem roots q + held q := by
    unfold owners
    rw [if_neg (h.not_table_of_mapped hq), Nat.add_zero]
  rw [(h.busy q (by omega)).2, howners]
  push_cast
  rfl

/-- The count of one page of the parent is one higher than before. -/
theorem uvmcopy_failure (h : Coherent L k roots held) (hr : r ∈ roots) (hc : c ∈ roots)
    (hrc : r ≠ c) (hsr : Shape k.mem r (npagesOf sz) T) (hsc : Shape k.mem c 0 U)
    (hrun : uvmcopy L r c sz k = .ok (false, k')) :
    ∃ x < npagesOf sz,
      k'.refs (pte2pa (leaf k.mem r x)) = k.refs (pte2pa (leaf k.mem r x)) + 1 := by
  obtain ⟨hk, q, ⟨x, hx, hval, rfl⟩, hc', hsc'⟩ := (uvmcopy_spec h hr hc hrc hsr hsc).unique hrun
  have hpos := mapCount_pos hr (hx.trans_le hsr.le) (p := pte2pa (leaf k.mem r x)) ⟨hval, rfl⟩
  -- the child maps nothing before and after, and the others map what they mapped
  have hsame : mapCount k'.mem roots (pte2pa (leaf k.mem r x)) =
      mapCount k.mem roots (pte2pa (leaf k.mem r x)) := by
    apply mapCount_congr
    intro s hs y hy
    have hyl := hy.trans userVpns_lt
    by_cases hsc'' : s = c
    · subst hsc''
      have hno : ∀ {m : Memory}, Shape m s 0 U → pteValid (leaf m s y) = false := by
        intro m hm
        have hU : y ∉ U := fun hU => by
          have := (hm.above y hU).1
          omega
        simpa [hU] using hm.valid y hyl
      exact iff_of_false (not_maps_of_not_valid (hno hsc') _) (not_maps_of_not_valid (hno hsc) _)
    · exact (hk.alike hs hyl fun hD => hsc'' hD.1).maps _
  refine ⟨x, hx, ?_⟩
  rw [hc'.refs_of_mapped (by omega), h.refs_of_mapped hpos, hsame, bump_apply, if_pos rfl]
  push_cast
  ring

/-- In every state of every run and for every process, a `uvmcopy` that fails leaves the
count of a page of the parent raised, and so does not give back everything it took. -/
theorem uvmcopy_never_gives_back (L : Layout) (m : Memory) (ops : List Op) :
    ∃ os s, boot L m ops = .ok (os, s) ∧ ∀ p ∈ s.procs, ∀ np k1 k2,
      allocproc L s.kernel = .ok (some np, k1) →
      uvmcopy L p.pagetable np.pagetable p.sz k1 = .ok (false, k2) →
      (∃ x < npagesOf p.sz, k2.refs (pte2pa (leaf k1.mem p.pagetable x)) =
        k1.refs (pte2pa (leaf k1.mem p.pagetable x)) + 1) ∧ ¬ GivesBack L s.kernel k1 k2 np := by
  obtain ⟨os, s, hrun, leak, hinv, -⟩ := boot_run L m ops
  refine ⟨os, s, hrun, fun p hp np k1 k2 halloc hcopy => ?_⟩
  obtain ⟨-, hnew, -, -, hc1, hs1, hk1, -⟩ := (allocproc_spec hinv.coherent).unique halloc
  have hr := mem_rootsOf hp
  have hne : p.pagetable ≠ np.pagetable := fun he => hnew (he ▸ hr)
  obtain ⟨x, hx, hrefs⟩ := uvmcopy_failure hc1 (Finset.mem_insert_of_mem hr)
    (Finset.mem_insert_self _ _) hne ((hinv.shape p hp).keep hk1 hr (by simp)) hs1 hcopy
  refine ⟨⟨x, hx, hrefs⟩, fun hback => ?_⟩
  have := hback.counts (pte2pa (leaf k1.mem p.pagetable x) / 4096)
  unfold Kernel.refs at hrefs
  omega

/-- The first process, and buffers that leave five pages, one too few for a fork. -/
def almostExhaust : List Op := .userinit :: List.replicate 8 .kalloc

/-- The last page-table page of the child is missing; the only page of the parent keeps a
count of two. -/
theorem uvmcopy_keeps_reference :
    ∃ os s p np k1 k2, boot smallLayout (fun _ _ => 0) almostExhaust = .ok (os, s) ∧
      p ∈ s.procs ∧ allocproc smallLayout s.kernel = .ok (some np, k1) ∧
      uvmcopy smallLayout p.pagetable np.pagetable p.sz k1 = .ok (false, k2) ∧
      ¬ GivesBack smallLayout s.kernel k1 k2 np := by
  obtain ⟨os, s, hrun, -⟩ := boot_run smallLayout (fun _ _ => 0) almostExhaust
  have heval : ((boot smallLayout (fun _ _ => 0) almostExhaust).toOption.any fun x =>
      x.2.procs.head?.any fun p => (allocproc smallLayout x.2.kernel).toOption.any fun y =>
        y.1.any fun np => (uvmcopy smallLayout p.pagetable np.pagetable p.sz y.2).toOption.any
          fun z => decide (z.1 = false ∧
            y.2.refs (pte2pa (leaf y.2.mem p.pagetable 0)) = 1 ∧
            z.2.refs (pte2pa (leaf y.2.mem p.pagetable 0)) = 2)) = true := by
    decide +kernel
  rw [hrun] at heval
  obtain ⟨k, procs, buffers, copyFailed⟩ := s
  cases procs with
  | nil => cases heval
  | cons p rest =>
    change (allocproc smallLayout k).toOption.any _ = true at heval
    cases halloc : allocproc smallLayout k with
    | error e =>
      rw [halloc] at heval
      cases heval
    | ok y =>
      rw [halloc] at heval
      obtain ⟨np, k1⟩ := y
      cases np with
      | none => cases heval
      | some np =>
        change (uvmcopy smallLayout p.pagetable np.pagetable p.sz k1).toOption.any _ = true at heval
        cases hcopy : uvmcopy smallLayout p.pagetable np.pagetable p.sz k1 with
        | error e =>
          rw [hcopy] at heval
          cases heval
        | ok z =>
          rw [hcopy] at heval
          obtain ⟨res, k2⟩ := z
          obtain ⟨hres, hone, htwo⟩ := of_decide_eq_true heval
          dsimp only at hres hone htwo
          subst hres
          refine ⟨os, _, p, np, k1, k2, hrun, by simp, halloc, hcopy, fun hback => ?_⟩
          have := hback.counts (pte2pa (leaf k1.mem p.pagetable 0) / 4096)
          unfold Kernel.refs at hone htwo
          omega

end XV6AndConcurrency.VirtualMemory
