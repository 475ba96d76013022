import XV6AndConcurrency.VirtualMemory.Boot

/-!
# Reference counts are exact

The owners of a page, counted over the processes: the user entries below `sz` that map
it, and the owners that are not entries. In a run in which no copy has failed the
allocator's count of a page is the number of its owners, and the free list holds the
pages without one, each once.
-/

namespace XV6AndConcurrency.VirtualMemory

open Foundations

variable {L : Layout} {s : System} {q : ℕ}

/-- Valid entries below `sz` that map `q`, over all processes. -/
def userEntries (s : System) (q : ℕ) : ℕ :=
  (s.procs.map fun p => ((Finset.range (npagesOf p.sz)).filter fun x =>
    Maps (leaf s.kernel.mem p.pagetable x) q).card).sum

/-- Places in the page tables at which `q` stands as a page-table page. -/
noncomputable def tablePlaces (s : System) (q : ℕ) : ℕ :=
  {a | At s.kernel.mem (rootsOf s.procs) a q}.ncard

/-- Owners other than entries: page tables, trapframes, and pipes and argument buffers. -/
noncomputable def otherOwners (s : System) (q : ℕ) : ℕ :=
  tablePlaces s q + (s.procs.map Proc.trapframe).count q + s.buffers.count q

theorem card_maps {m : Memory} {r n N : ℕ} (hn : n ≤ N)
    (h : ∀ x < N, Maps (leaf m r x) q → x < n) :
    ∑ x ∈ Finset.range N, (if Maps (leaf m r x) q then 1 else 0) =
      ((Finset.range n).filter fun x => Maps (leaf m r x) q).card := by
  rw [Finset.sum_boole, Nat.cast_id]
  refine congrArg Finset.card ?_
  ext x
  simp only [Finset.mem_filter, Finset.mem_range]
  constructor
  · rintro ⟨hx, hm⟩
    exact ⟨h x hx hm, hm⟩
  · rintro ⟨hx, hm⟩
    exact ⟨hx.trans_le hn, hm⟩

/-- A sum over the tables is a sum over the processes. -/
theorem sum_rootsOf {procs : List Proc} (h : (procs.map Proc.pagetable).Nodup) (N : ℕ)
    (f : ℕ → ℕ → ℕ) : ∑ x ∈ rootsOf procs ×ˢ Finset.range N, f x.1 x.2 =
      (procs.map fun p => ∑ x ∈ Finset.range N, f p.pagetable x).sum := by
  rw [Finset.sum_product, rootsOf, List.sum_toFinset _ h, List.map_map]
  rfl

theorem mapCount_eq_userEntries {leak : ℕ → ℕ} (h : Inv L s.kernel s.procs s.buffers leak) :
    mapCount s.kernel.mem (rootsOf s.procs) q = userEntries s q := by
  unfold mapCount userEntries
  rw [sum_rootsOf h.nodup userVpns fun r x => if Maps (leaf s.kernel.mem r x) q then 1 else 0]
  refine congrArg List.sum ?_
  apply List.map_congr_left
  intro p hp
  have hs := h.shape p hp
  apply card_maps hs.le
  intro x hx hm
  rcases (hs.valid x (hx.trans userVpns_lt)).mp hm.1 with hlt | hT
  · exact hlt
  · have := (hs.above x hT).1
    omega

open Classical in
theorem tablePlaces_eq (h : Forest s.kernel.mem (rootsOf s.procs)) :
    tablePlaces s q = if IsTable s.kernel.mem (rootsOf s.procs) q then 1 else 0 := by
  unfold tablePlaces
  split_ifs with ht
  · obtain ⟨a, ha⟩ := ht
    rw [Set.ncard_eq_one]
    refine ⟨a, Set.eq_singleton_iff_unique_mem.mpr ⟨ha, fun b hb => h.unique hb ha⟩⟩
  · have hempty : {a | At s.kernel.mem (rootsOf s.procs) a q} = ∅ :=
      Set.eq_empty_of_forall_notMem fun a ha => ht ⟨a, ha⟩
    rw [hempty, Set.ncard_empty]

theorem owners_eq {leak : ℕ → ℕ} (h : Inv L s.kernel s.procs s.buffers leak)
    (hz : ∀ q, leak q = 0) :
    owners s.kernel.mem (rootsOf s.procs) (heldBy s.procs s.buffers leak) q =
      userEntries s q + otherOwners s q := by
  rw [owners, mapCount_eq_userEntries h, otherOwners, tablePlaces_eq h.coherent.forest, heldBy, hz]
  omega

/-- Over every run whose calls of `uvmcopy` return 0, the counts are exact. -/
theorem reference_counts_exact (L : Layout) (m : Memory) (ops : List Op) :
    ∃ os s, boot L m ops = .ok (os, s) ∧ (s.copyFailed = false → ∀ q, IsPage L q →
      (0 < userEntries s q + otherOwners s q →
        s.kernel.refs q = userEntries s q + otherOwners s q ∧ q ∉ s.kernel.freelist) ∧
      (userEntries s q + otherOwners s q = 0 →
        s.kernel.refs q ≤ 0 ∧ s.kernel.freelist.count q = 1)) := by
  obtain ⟨os, s, hrun, leak, hinv, hz⟩ := boot_run L m ops
  refine ⟨os, s, hrun, fun hf q hq => ?_⟩
  have hown := owners_eq (q := q) hinv (hz hf)
  have hc := hinv.coherent
  rw [← hown]
  constructor
  · intro hpos
    refine ⟨?_, fun hfree => ?_⟩
    · rw [(hc.busy q hpos).2, hown]
      push_cast
      rfl
    · have := ((hc.free q).mp hfree).2
      omega
  · intro h0
    have hfree := (hc.free q).mpr ⟨hq, h0⟩
    exact ⟨hc.spent q hfree, List.count_eq_one_of_mem hc.nodup hfree⟩

end XV6AndConcurrency.VirtualMemory
