import XV6AndConcurrency.VirtualMemory.Writing

/-!
# Specification of exec

`exec` builds a second table beside the ones in use. `Building` says how far it is: the
table has some pages, all of them its own, and the tables in use are as they were when
`exec` started. Every step keeps this, so a failure at any place can free the new table,
and success can free the old one.
-/

namespace XV6AndConcurrency.VirtualMemory

open Foundations

/-- A new table `r` of `n` pages is being built; nothing else has changed since `k0`. -/
structure Building (L : Layout) (k0 k : Kernel) (roots : Finset ℕ) (held : ℕ → ℕ) (r n : ℕ) :
    Prop where
  new : r ∉ roots
  coherent : Coherent L k (insert r roots) held
  shape : Shape k.mem r n topVpns
  apart : ∀ x < userVpns, ∀ p, Maps (leaf k.mem r x) p →
    held p = 0 ∧ ∀ s ∈ roots, ∀ y < userVpns, ¬ Maps (leaf k.mem s y) p
  nocow : ∀ x < userVpns, pteValid (leaf k.mem r x) = true → pteCow (leaf k.mem r x) = false
  keeps : Keeps k0 k roots held (fun _ _ => False)

/-- Every page below `n` may be used from user mode. -/
def AllUser (m : Memory) (r n : ℕ) : Prop := ∀ x < n, pteUser (leaf m r x) = true

variable {L : Layout} {k0 k k' : Kernel} {roots : Finset ℕ} {held : ℕ → ℕ} {r n i sz : ℕ}

namespace Building

theorem mem (_ : Building L k0 k roots held r n) : r ∈ insert r roots :=
  Finset.mem_insert_self r roots

/-- A write through the new table touches nothing but its own pages. -/
theorem wrote (h : Building L k0 k roots held r n) (hc : Coherent L k' (insert r roots) held)
    (hw : Wrote k k' (insert r roots) held r) : Building L k0 k' roots held r n := by
  have hne : ∀ s ∈ roots, s ≠ r := fun s hs he => h.new (he ▸ hs)
  have hother : ∀ s ∈ roots, ∀ x < vpnLimit, leaf k'.mem s x = leaf k.mem s x := fun s hs x hx =>
    hw.other s (Finset.mem_insert_of_mem hs) x hx (Or.inl (hne s hs))
  refine ⟨h.new, hc, h.shape.wrote hw h.mem, ?_, ?_, h.keeps.trans (Keeps.of_leaves ?_ ?_ ?_)⟩
  · intro x hx p hp
    rcases hw.own x hx with he | ⟨-, hwr⟩
    · rw [he] at hp
      obtain ⟨h0, hno⟩ := h.apart x hx p hp
      refine ⟨h0, fun s hs y hy => ?_⟩
      rw [hother s hs y (hy.trans userVpns_lt)]
      exact hno s hs y hy
    · obtain ⟨-, h0, hu⟩ := hc.sharing.exclusive h.mem hx hp hwr
      refine ⟨h0, fun s hs y hy hm => ?_⟩
      exact hne s hs (hu (Finset.mem_insert_of_mem hs) hy hm).1
  · intro x hx hv
    rcases hw.own x hx with he | ⟨-, hwr⟩
    · rw [he] at hv ⊢
      exact h.nocow x hx hv
    · exact (hc.sharing.exclusive h.mem hx ⟨hv, rfl⟩ hwr).1
  · exact fun s hs x hx _ => hother s hs x hx
  · intro s hs x hx _ q hq
    refine hw.bytes q (Or.inr ⟨s, Finset.mem_insert_of_mem hs, hne s hs, x, hx, hq⟩) ?_
    intro y hy hm
    exact (h.apart y hy q hm).2 s hs x hx hq
  · intro q hq
    refine hw.bytes q (Or.inl hq) ?_
    intro y hy hm
    have := (h.apart y hy q hm).1
    omega

/-- More pages for the new table. -/
theorem uvmalloc {newsz : ℕ} {perm : Pte} (h : Building L k0 k roots held r (npagesOf sz))
    (hperm : PermOk perm) :
    Ensures (uvmalloc L r sz newsz perm) (fun sz1 k' =>
      (sz1 = max sz newsz ∧ Building L k0 k' roots held r (npagesOf sz1) ∧
        (AllUser k.mem r (npagesOf sz) → AllUser k'.mem r (npagesOf sz1))) ∨
      (sz1 = 0 ∧ Building L k0 k' roots held r (npagesOf sz) ∧
        (AllUser k.mem r (npagesOf sz) → AllUser k'.mem r (npagesOf sz)))) k := by
  refine (uvmalloc_spec h.coherent h.mem h.shape hperm).mono ?_
  rintro sz1 k1 ⟨hc1, hk1, hres⟩
  have hle := h.shape.le
  have hold : ∀ x < npagesOf sz, leaf k1.mem r x = leaf k.mem r x := fun x hx =>
    (hk1.slot r h.mem x (by have := userVpns_lt; omega) (by omega)).symm
  have hkr : Keeps k k1 roots held (fun _ _ => False) := hk1.old_roots h.new fun _ _ hD => hD.1
  have hother : ∀ s ∈ roots, ∀ x < vpnLimit, leaf k1.mem s x = leaf k.mem s x := fun s hs x hx =>
    (hkr.slot s hs x hx (by simp)).symm
  have hmake : ∀ {n'}, Shape k1.mem r n' topVpns → (∀ x, npagesOf sz ≤ x → x < n' →
      FreshSlot k k1 (insert r roots) held r perm x) → Building L k0 k1 roots held r n' := by
    intro n' hs' hfresh
    have hlt : ∀ x < userVpns, pteValid (leaf k1.mem r x) = true → x < n' := by
      intro x hx hv
      rcases (hs'.valid x (hx.trans userVpns_lt)).mp hv with hlt | hT
      · exact hlt
      · have := (hs'.above x hT).1
        omega
    refine ⟨h.new, hc1, hs', ?_, ?_, h.keeps.trans hkr⟩
    · intro x hx p hp
      have hxn := hlt x hx hp.1
      by_cases hxo : x < npagesOf sz
      · rw [hold x hxo] at hp
        obtain ⟨h0, hno⟩ := h.apart x hx p hp
        refine ⟨h0, fun s hs y hy => ?_⟩
        rw [hother s hs y (hy.trans userVpns_lt)]
        exact hno s hs y hy
      · obtain ⟨h0, hm0⟩ := (hfresh x (by omega) hxn).fresh p hp
        refine ⟨h0, fun s hs y hy hm => ?_⟩
        rw [hother s hs y (hy.trans userVpns_lt)] at hm
        have := mapCount_pos (Finset.mem_insert_of_mem (b := r) hs) hy hm
        omega
    · intro x hx hv
      by_cases hxo : x < npagesOf sz
      · rw [hold x hxo] at hv ⊢
        exact h.nocow x hx hv
      · exact (hfresh x (by omega) (hlt x hx hv)).cow
  rcases hres with ⟨rfl, hs1, hf1⟩ | ⟨rfl, hs1⟩
  · refine Or.inl ⟨rfl, hmake hs1 hf1, ?_⟩
    intro hu x hx
    by_cases hxo : x < npagesOf sz
    · rw [hold x hxo]
      exact hu x hxo
    · have hview := (hf1 x (by omega) hx).view
      unfold pageView zeroedPage at hview
      split_ifs at hview
      simpa using congrArg (Option.map UserPage.user) hview
  · refine Or.inr ⟨rfl, hmake hs1 (by omega), ?_⟩
    intro hu x hx
    rw [hold x hx]
    exact hu x hx

end Building

/-! ## Loading segments -/

theorem AllUser.wrote (h : AllUser k.mem r n) (hw : Wrote k k' roots held r) (hr : r ∈ roots)
    (hn : n ≤ userVpns) : AllUser k'.mem r n := by
  intro x hx
  rw [(hw.access hr hr ((hx.trans_le hn).trans userVpns_lt)).user]
  exact h x hx

/-- `walkaddr` finds every page of the new table. -/
theorem Building.walkaddr {x : ℕ} (h : Building L k0 k roots held r n) (hu : AllUser k.mem r n)
    (hx : x < n) : VirtualMemory.walkaddr r (x * 4096) k =
      .ok (some (pte2pa (leaf k.mem r x)), k) ∧
      x < userVpns ∧ Maps (leaf k.mem r x) (pte2pa (leaf k.mem r x)) := by
  have hxu : x < userVpns := hx.trans_le h.shape.le
  have hva : x * 4096 < maxva := by
    rw [maxva_eq]
    unfold userVpns at hxu
    omega
  have hval := (h.shape.valid _ (hxu.trans userVpns_lt)).mpr (Or.inl hx)
  have hm : Maps (leaf k.mem r x) (pte2pa (leaf k.mem r x)) := ⟨hval, rfl⟩
  have hpage := h.coherent.isPage_of_mapped (mapCount_pos h.mem hxu hm)
  refine ⟨?_, hxu, hm⟩
  rw [walkaddr_run, if_pos hva, show x * 4096 / 4096 = x by omega, userPage,
    if_pos ⟨hval, hu x hx, hpage.pos.ne'⟩]

theorem loadsegLoop_spec {a j : ℕ} (file : File) (offset sz : ℕ)
    (h : Building L k0 k roots held r n) (hu : AllUser k.mem r n) (hn : j ≠ 0 → a + i + j ≤ n) :
    Ensures (loadsegLoop r (a * 4096) file offset sz j (i * 4096)) (fun _ k' =>
      Building L k0 k' roots held r n ∧ AllUser k'.mem r n) k := by
  induction j generalizing k i with
  | zero => exact .of_pure ⟨h, hu⟩
  | succ j ih =>
    have hlt := hn (by omega)
    obtain ⟨hrun, hxu, hm⟩ := h.walkaddr (x := a + i) hu (by omega)
    unfold loadsegLoop
    rw [show a * 4096 + i * 4096 = (a + i) * 4096 by omega]
    refine .bind_of_run hrun (.modify_bind ?_)
    obtain ⟨hc1, -, hw1⟩ := wrote_page h.coherent h.mem hxu hm
      (m := k.mem.putBytes (pte2pa (leaf k.mem r (a + i))) 0
        ((file ((offset + i * 4096) % 2 ^ 32)
          (if sz - i * 4096 < pgsize then sz - i * 4096 else pgsize)).take
          (if sz - i * 4096 < pgsize then sz - i * 4096 else pgsize)))
      fun q hq => Memory.putBytes_of_ne _ _ _ _ _ hq
    have hb1 := h.wrote hc1 hw1
    have hu1 := hu.wrote hw1 h.mem h.shape.le
    have hstep : i * 4096 + pgsize = (i + 1) * 4096 := by
      unfold pgsize
      omega
    rw [hstep]
    generalize (if sz - i * 4096 < pgsize then sz - i * 4096 else pgsize) = want at hb1 hu1 ⊢
    by_cases hshort : ((file ((offset + i * 4096) % 2 ^ 32) want).take want).length ≠ want
    · rw [if_pos hshort]
      exact .of_pure ⟨hb1, hu1⟩
    · rw [if_neg hshort]
      exact ih hb1 hu1 (by omega)

theorem permOk_flags2perm (flags : ℕ) : PermOk (flags2perm flags) := by
  intro i h2 h3
  unfold flags2perm
  split_ifs <;> simp [h2, h3]

theorem execSegment_spec {file : File} {off : ℕ}
    (h : Building L k0 k roots held r (npagesOf sz)) (hu : AllUser k.mem r (npagesOf sz)) :
    Ensures (execSegment L r file off sz) (fun res k' =>
      Building L k0 k' roots held r (npagesOf res.2) ∧ AllUser k'.mem r (npagesOf res.2)) k := by
  unfold execSegment
  simp only
  generalize (file off 56).take 56 = ph
  split_ifs with h1 h2 h3 h4 h5
  · exact .of_pure ⟨h, hu⟩
  · exact .of_pure ⟨h, hu⟩
  · exact .of_pure ⟨h, hu⟩
  · exact .of_pure ⟨h, hu⟩
  · exact .of_pure ⟨h, hu⟩
  · refine .bind (h.uvmalloc (permOk_flags2perm _)) ?_
    rintro sz1 k1 (⟨hmax, hb1, hu1⟩ | ⟨rfl, hb1, hu1⟩)
    · by_cases hz : sz1 = 0
      · rw [if_pos hz]
        have hsz : sz = sz1 := by omega
        rw [hsz] at hu hu1
        rw [hsz]
        exact .of_pure ⟨hb1, hu1 hu⟩
      · rw [if_neg hz]
        have halign : field ph 16 8 = field ph 16 8 / 4096 * 4096 := by
          unfold pgsize at h5
          omega
        have hpages : ∀ j, j ≠ 0 → j = (field ph 32 8 % 2 ^ 32 + pgsize - 1) / pgsize →
            field ph 16 8 / 4096 + 0 + j ≤ npagesOf sz1 := by
          intro j hj0 hj
          have hv : field ph 16 8 < 2 ^ 64 := leNat_lt _ _ _
          have hm : field ph 40 8 < 2 ^ 64 := leNat_lt _ _ _
          unfold pgsize at hj
          unfold npagesOf
          omega
        have hload := loadsegLoop_spec file (field ph 8 8 % 2 ^ 32) (field ph 32 8 % 2 ^ 32)
          (i := 0) (j := (field ph 32 8 % 2 ^ 32 + pgsize - 1) / pgsize) hb1 (hu1 hu)
          fun hj => hpages _ hj rfl
        rw [← halign, Nat.zero_mul] at hload
        refine .bind hload ?_
        rintro loaded k2 ⟨hb2, hu2⟩
        exact .of_pure ⟨hb2, hu2⟩
    · rw [if_pos rfl]
      exact .of_pure ⟨hb1, hu1 hu⟩

theorem execLoad_spec {file : File} {off m : ℕ}
    (h : Building L k0 k roots held r (npagesOf sz)) (hu : AllUser k.mem r (npagesOf sz)) :
    Ensures (execLoad L r file m off sz) (fun res k' =>
      Building L k0 k' roots held r (npagesOf res.2)) k := by
  induction m generalizing k off sz with
  | zero => exact .of_pure h
  | succ m ih =>
    unfold execLoad
    refine .bind (execSegment_spec h hu) ?_
    rintro res k1 ⟨hb1, hu1⟩
    split_ifs
    · exact ih hb1 hu1
    · exact .of_pure hb1

/-! ## The stack -/

theorem maps_and_not_pteU (w : Pte) (p : ℕ) : Maps (w &&& ~~~pteU) p ↔ Maps w p := by
  have hpage : pte2pa (w &&& ~~~pteU) = pte2pa w := by
    apply pte2pa_congr
    intro i hi
    have h4 : ¬ i = 4 := by omega
    by_cases h64 : i < 64
    · simp [h4, h64]
    · have : pteBit i w = false := BitVec.getLsbD_of_ge _ _ (by omega)
      simp [this]
  simp [Maps, hpage]

/-- `uvmclear` takes the user permission of one page away. -/
theorem uvmclear_spec {v va : ℕ} (h : Coherent L k roots held) (hr : r ∈ roots)
    (hdiv : va / 4096 = v) (hv : v < userVpns) (hval : pteValid (leaf k.mem r v) = true) :
    Ensures (uvmclear r va) (fun _ k' => Coherent L k' roots held ∧
      (∀ s ∈ roots, ∀ x < vpnLimit, leaf k'.mem s x =
        if s = r ∧ x = v then leaf k.mem r v &&& ~~~pteU else leaf k.mem s x) ∧
      Keeps k k' roots held (fun s x => s = r ∧ x = v) ∧
      ∀ p, 0 < mapCount k.mem roots p → k'.mem p = k.mem p) k := by
  have hvl := hv.trans userVpns_lt
  have hva : va < maxva := by
    rw [maxva_eq]
    unfold userVpns at hv
    omega
  obtain ⟨t, ht, hw⟩ := leafTable_of_valid hval
  refine .of_run (a := ())
    (t := k.setMem (k.mem.setWord t (vpn0 v) (leaf k.mem r v &&& ~~~pteU))) ?_
    ⟨h.tameLeaf hr hv ht (maps_and_not_pteU _) ?_,
      fun s hs x hx => leaf_setLeaf h.forest hr hvl ht _ hs hx,
      keeps_setLeaf h.toBalanced hr hvl ht _, ?_⟩
  · simp [uvmclear, walk_false_run hva, hdiv, leafRef, ht, readPte, writePte, ← hw]
  · intro p hp
    refine ⟨(maps_and_not_pteU _ p).mp hp, ?_⟩
    simp
  · intro p hp
    apply Memory.setWord_of_ne
    rintro rfl
    have := (h.alone p ⟨_, leafTable_at hr hvl ht⟩).1
    omega

theorem Shape.clear {v : ℕ} {T : Finset ℕ} (h : Shape k.mem r n T) (hv : v < userVpns)
    (hl : ∀ x < vpnLimit, leaf k'.mem r x =
      if x = v then leaf k.mem r v &&& ~~~pteU else leaf k.mem r x) : Shape k'.mem r n T where
  le := h.le
  above := h.above
  valid x hx := by
    rw [hl x hx]
    split_ifs with hxv
    · subst hxv
      simpa using h.valid x hx
    · exact h.valid x hx
  readable x hx := by
    rw [hl x hx]
    split_ifs with hxv
    · subst hxv
      simpa using h.readable x hx
    · exact h.readable x hx
  kernel x hx := by
    obtain ⟨h1, h2⟩ := h.above x hx
    rw [hl x h2, if_neg (by omega)]
    exact h.kernel x hx

theorem Building.uvmclear {v : ℕ} (h : Building L k0 k roots held r n) (hv : v < n) :
    Ensures (uvmclear r (v * 4096)) (fun _ k' => Building L k0 k' roots held r n) k := by
  have hvu : v < userVpns := hv.trans_le h.shape.le
  have hval := (h.shape.valid v (hvu.trans userVpns_lt)).mpr (Or.inl hv)
  refine (uvmclear_spec h.coherent h.mem (by omega) hvu hval).mono ?_
  rintro _ k1 ⟨hc1, hl1, hk1, -⟩
  have hkr : Keeps k k1 roots held (fun _ _ => False) := hk1.old_roots h.new fun _ _ hD => hD.1
  have hmaps : ∀ x < userVpns, ∀ p, Maps (leaf k1.mem r x) p → Maps (leaf k.mem r x) p := by
    intro x hx p hp
    rw [hl1 r h.mem x (hx.trans userVpns_lt)] at hp
    split_ifs at hp with hxv
    · obtain ⟨-, rfl⟩ := hxv
      exact (maps_and_not_pteU _ p).mp hp
    · exact hp
  refine ⟨h.new, hc1, h.shape.clear hvu ?_, ?_, ?_, h.keeps.trans hkr⟩
  · intro x hx
    rw [hl1 r h.mem x hx]
    simp
  · intro x hx p hp
    obtain ⟨h0, hno⟩ := h.apart x hx p (hmaps x hx p hp)
    refine ⟨h0, fun s hs y hy => ?_⟩
    rw [← hkr.slot s hs y (hy.trans userVpns_lt) (by simp)]
    exact hno s hs y hy
  · intro x hx hv1
    rw [hl1 r h.mem x (hx.trans userVpns_lt)] at hv1 ⊢
    split_ifs at hv1 ⊢ with hxv
    · rw [hxv.2] at hx
      simpa using h.nocow v hx hval
    · exact h.nocow x hx hv1

theorem Building.copyout {psz dstva : ℕ} {src : List Byte} (h : Building L k0 k roots held r n) :
    Ensures (copyout L r psz dstva src) (fun _ k' => Building L k0 k' roots held r n) k := by
  refine (copyout_spec h.coherent h.mem h.shape).mono ?_
  rintro _ k1 ⟨hc1, -, hw1⟩
  exact h.wrote hc1 hw1

theorem execArgs_spec {psz stackbase sp : ℕ} {argv : List (List Byte)} {ustack : List ℕ}
    {killed : Bool} (h : Building L k0 k roots held r n) :
    Ensures (execArgs L r psz stackbase argv sp ustack killed) (fun _ k' =>
      Building L k0 k' roots held r n) k := by
  induction argv generalizing k sp ustack killed with
  | nil => exact .of_pure h
  | cons arg argv ih =>
    unfold execArgs
    simp only
    split_ifs
    · exact .of_pure h
    · exact .of_pure h
    · refine .bind h.copyout ?_
      intro res k1 hb1
      split_ifs
      · exact ih hb1
      · exact .of_pure hb1

theorem execStack_spec {psz : ℕ} {argv : List (List Byte)}
    (h : Building L k0 k roots held r (npagesOf sz)) :
    Ensures (execStack L r psz sz argv) (fun res k' =>
      Building L k0 k' roots held r (npagesOf res.2.1)) k := by
  have hlt := npagesOf_lt h.shape.le
  have hround : pgroundup sz = npagesOf sz * 4096 := pgroundup_eq (by omega)
  have hpages : npagesOf (npagesOf sz * 4096) = npagesOf sz := by
    unfold npagesOf
    omega
  have h0 : Building L k0 k roots held r (npagesOf (npagesOf sz * 4096)) := by
    rw [hpages]
    exact h
  unfold execStack
  rw [hround]
  refine .bind (h0.uvmalloc permOk_pteW) ?_
  rintro sz1 k1 (⟨hmax, hb1, -⟩ | ⟨rfl, hb1, -⟩)
  · have hsz1 : sz1 = (npagesOf sz + 2) * 4096 := by
      unfold pgsize at hmax
      omega
    have hn1 : npagesOf sz1 = npagesOf sz + 2 := by
      rw [hsz1]
      unfold npagesOf
      omega
    have hguard : sz1 - 2 * pgsize = npagesOf sz * 4096 := by
      unfold pgsize
      omega
    rw [if_neg (by omega), hguard]
    refine .bind (hb1.uvmclear (by omega)) ?_
    intro _ k2 hb2
    refine .bind (execArgs_spec hb2) ?_
    intro res k3 hb3
    dsimp only
    split
    · exact .of_pure hb3
    · split
      · exact .of_pure hb3
      · refine .bind hb3.copyout ?_
        intro c k4 hb4
        exact .of_pure hb4
  · rw [if_pos rfl]
    exact .of_pure hb1

/-! ## exec -/

/-- The image of `p` has been replaced by that of `np`. -/
structure Replaced (L : Layout) (k k' : Kernel) (roots : Finset ℕ) (held : ℕ → ℕ) (p np : Proc) :
    Prop where
  new : np.pagetable ∉ roots
  trapframe : np.trapframe = p.trapframe
  coherent : Coherent L k' (insert np.pagetable (roots.erase p.pagetable)) held
  shape : Shape k'.mem np.pagetable (npagesOf np.sz) topVpns
  apart : ∀ x < userVpns, ∀ q, Maps (leaf k'.mem np.pagetable x) q →
    held q = 0 ∧ ∀ s ∈ roots.erase p.pagetable, ∀ y < userVpns, ¬ Maps (leaf k'.mem s y) q
  nocow : ∀ x < userVpns, pteValid (leaf k'.mem np.pagetable x) = true →
    pteCow (leaf k'.mem np.pagetable x) = false
  keeps : Keeps k k' (roots.erase p.pagetable) (fun _ => 0) (fun _ _ => False)

/-- Writing the trapframe, a held page that nobody maps. -/
theorem write_trapframe {t : ℕ} {m : Memory} (h : Coherent L k roots held) (htf : 0 < held t)
    (hm0 : mapCount k.mem roots t = 0) (hm : ∀ q, q ≠ t → m q = k.mem q) :
    Coherent L (k.setMem m) roots held ∧ SameLeaves k (k.setMem m) roots ∧
      Keeps k (k.setMem m) roots (fun _ => 0) (fun _ _ => False) := by
  obtain ⟨hb, hl, -⟩ := write_held h.toBalanced htf hm
  refine ⟨h.of_sameLeaves hb hl (fun _ _ hz => hz), hl, .of_sameLeaves hl ?_⟩
  intro q hq
  apply hm
  rintro rfl
  omega

/-- `exec` replaces the image of the process or leaves everything as it was. -/
theorem exec_spec {p : Proc} {ip : Option File} {path : List Byte} {argv : List (List Byte)}
    (h : Coherent L k roots held) (hr : p.pagetable ∈ roots)
    (hs : Shape k.mem p.pagetable (npagesOf p.sz) topVpns) (htf : 0 < held p.trapframe)
    (htm : mapCount k.mem roots p.trapframe = 0) :
    Ensures (exec L p ip path argv) (fun res k' =>
      match res.1 with
      | none => res.2.pagetable = p.pagetable ∧ res.2.sz = p.sz ∧ res.2.trapframe = p.trapframe ∧
          Coherent L k' roots held ∧ Keeps k k' roots held (fun _ _ => False)
      | some _ => Replaced L k k' roots held p res.2) k := by
  cases ip with
  | none => exact .of_pure ⟨rfl, rfl, rfl, h, .refl⟩
  | some file =>
    unfold exec
    simp only
    split_ifs
    · exact .of_pure ⟨rfl, rfl, rfl, h, .refl⟩
    · exact .of_pure ⟨rfl, rfl, rfl, h, .refl⟩
    · refine .bind (procPagetable_spec h p.trapframe) ?_
      intro table k1 htable
      cases table with
      | none =>
        obtain ⟨hc1, hk1, -⟩ := htable
        exact .of_pure ⟨rfl, rfl, rfl, hc1, hk1⟩
      | some r =>
        obtain ⟨hnew, hc1, hs1, hk1, -⟩ := htable
        have hinv : ∀ x < userVpns, pteValid (leaf k1.mem r x) = false := by
          intro x hx
          have hT : x ∉ topVpns := fun hT => by
            have := (hs1.above x hT).1
            omega
          simpa [hT] using hs1.valid x (hx.trans userVpns_lt)
        have hb1 : Building L k k1 roots held r (npagesOf 0) := by
          refine ⟨hnew, hc1, hs1, ?_, ?_, hk1⟩
          · intro x hx q hq
            exact absurd hq (not_maps_of_not_valid (hinv x hx) q)
          · intro x hx hv
            rw [hinv x hx] at hv
            simp at hv
        refine .bind (execLoad_spec hb1 (by simp [AllUser, npagesOf])) ?_
        intro res k2 hb2
        split_ifs
        · refine .bind (execStack_spec hb2) ?_
          intro st k3 hb3
          split_ifs
          · -- the trapframe is set up, then the old image goes
            have hne : p.pagetable ≠ r := fun he => hnew (he ▸ hr)
            have htm3 : mapCount k3.mem (insert r roots) p.trapframe = 0 := by
              by_contra hpos
              obtain ⟨s, hs', x, hx, hmx⟩ := mapCount_pos_iff.mp (Nat.pos_of_ne_zero hpos)
              rcases Finset.mem_insert.mp hs' with rfl | hs'
              · have := (hb3.apart x hx _ hmx).1
                omega
              · rw [← hb3.keeps.slot s hs' x (hx.trans userVpns_lt) (by simp)] at hmx
                have := mapCount_pos hs' hx hmx
                omega
            refine .modify_bind (.modify_bind (.modify_bind ?_))
            obtain ⟨hc4, hl4, hk4⟩ := write_trapframe hb3.coherent htf htm3
              (m := ((k3.mem.setWord p.trapframe 15 (BitVec.ofNat 64 st.2.2.1)).setWord
                p.trapframe 3 (BitVec.ofNat 64 (field ((file 0 64).take 64) 24 8))).setWord
                p.trapframe 6 (BitVec.ofNat 64 st.2.2.1)) (by
                intro q hq
                rw [Memory.setWord_of_ne _ _ _ _ _ hq, Memory.setWord_of_ne _ _ _ _ _ hq,
                  Memory.setWord_of_ne _ _ _ _ _ hq])
            have hro : p.pagetable ∈ insert r roots := Finset.mem_insert_of_mem hr
            have hs4 : Shape k3.mem p.pagetable (npagesOf p.sz) topVpns :=
              hs.keep hb3.keeps hr (by simp)
            have hfree := procFreepagetable_spec hc4 hro (hs4.same hl4 hro)
            have hroots : (insert r roots).erase p.pagetable =
                insert r (roots.erase p.pagetable) := Finset.erase_insert_of_ne hne.symm
            rw [hroots] at hfree
            refine .bind hfree ?_
            rintro _ k5 ⟨hc5, hk5⟩
            have hrn : r ∈ insert r (roots.erase p.pagetable) := Finset.mem_insert_self _ _
            have hleaf : ∀ s ∈ insert r (roots.erase p.pagetable), ∀ x < vpnLimit,
                leaf k5.mem s x = leaf k3.mem s x := by
              intro s hs' x hx
              have hmem : s ∈ insert r roots := by
                rw [← hroots] at hs'
                exact Finset.mem_of_mem_erase hs'
              rw [← hk5.slot s hs' x hx (by simp), ← hk4.slot s hmem x hx (by simp)]
            refine .of_pure ⟨hnew, rfl, hc5, ?_, ?_, ?_, ?_⟩
            · exact (hb3.shape.same hl4 hb3.mem).keep hk5 hrn (by simp)
            · intro x hx q hq
              rw [hleaf r hrn x (hx.trans userVpns_lt)] at hq
              obtain ⟨h0, hno⟩ := hb3.apart x hx q hq
              refine ⟨h0, fun s hs' y hy => ?_⟩
              rw [hleaf s (Finset.mem_insert_of_mem hs') y (hy.trans userVpns_lt)]
              exact hno s (Finset.mem_of_mem_erase hs') y hy
            · intro x hx hv
              rw [hleaf r hrn x (hx.trans userVpns_lt)] at hv ⊢
              exact hb3.nocow x hx hv
            · have hsub : roots.erase p.pagetable ⊆ roots := Finset.erase_subset _ _
              have h1 := (hb3.keeps.weaken_roots hsub).weaken_held (g := fun _ => 0) (by simp)
              have h2 := hk4.weaken_roots (hsub.trans (Finset.subset_insert r roots))
              have h3 := (hk5.weaken_roots (Finset.subset_insert r _)).weaken_held
                (g := fun _ => 0) (by simp)
              exact (h1.trans h2).trans h3
          · refine .bind (procFreepagetable_new hb3.coherent hnew hb3.shape) ?_
            rintro _ k4 ⟨hc4, hk4⟩
            exact .of_pure ⟨rfl, rfl, rfl, hc4, hb3.keeps.trans hk4⟩
        · refine .bind (procFreepagetable_new hb2.coherent hnew hb2.shape) ?_
          rintro _ k3 ⟨hc3, hk3⟩
          exact .of_pure ⟨rfl, rfl, rfl, hc3, hb2.keeps.trans hk3⟩

end XV6AndConcurrency.VirtualMemory
