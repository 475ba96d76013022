import XV6AndConcurrency.VirtualMemory.Freeing
import XV6AndConcurrency.VirtualMemory.UserMemory

/-!
# The shape of an address space

`Shape m r n T` says that the table rooted at `r` maps the user pages below `n`,
the pages `T` at the top and nothing else. `pageView` is what a process can see of
one of its pages. The specifications of growing, shrinking and freeing user memory
are stated with the two.
-/

namespace XV6AndConcurrency.VirtualMemory

open Foundations

def trapframeVpn : ℕ := userVpns
def trampolineVpn : ℕ := userVpns + 1

/-- The two pages that every process has above its user memory. -/
def topVpns : Finset ℕ := {trapframeVpn, trampolineVpn}

/-- The valid entries are the user pages below `n` and the pages `T`. -/
structure Shape (m : Memory) (r n : ℕ) (T : Finset ℕ) : Prop where
  le : n ≤ userVpns
  above : ∀ x ∈ T, userVpns ≤ x ∧ x < vpnLimit
  valid : ∀ x < vpnLimit, pteValid (leaf m r x) = true ↔ x < n ∨ x ∈ T
  readable : ∀ x < vpnLimit, pteValid (leaf m r x) = true → pteReadable (leaf m r x) = true
  kernel : ∀ x ∈ T, pteUser (leaf m r x) = false ∧ pteCow (leaf m r x) = false

/-- What a process can see of one of its pages. -/
structure UserPage where
  bytes : ℕ → Byte
  user : Bool
  writes : Bool

/-- The page at `x` as the process sees it: whether a store goes through does not
depend on a copy being made first. -/
def pageView (m : Memory) (r x : ℕ) : Option UserPage :=
  if pteValid (leaf m r x) then
    some ⟨m (pte2pa (leaf m r x)), pteUser (leaf m r x),
      pteWritable (leaf m r x) || pteCow (leaf m r x)⟩
  else
    none

variable {L : Layout} {k k' : Kernel} {roots : Finset ℕ} {held : ℕ → ℕ} {r n x p : ℕ}
  {T : Finset ℕ} {D : ℕ → ℕ → Prop} {R : Pte → Pte → Prop} [KeepsAccess R]

theorem KeepsUpTo.view (h : KeepsUpTo R k k' roots held D) (hr : r ∈ roots) (hx : x < userVpns)
    (hD : ¬ D r x) : pageView k'.mem r x = pageView k.mem r x := by
  have ha := h.alike hr (hx.trans userVpns_lt) hD
  unfold pageView
  rw [ha.valid, ha.page, ha.user, ha.writes]
  by_cases hv : pteValid (leaf k.mem r x) = true
  · rw [if_pos hv, if_pos hv, h.bytes r hr x hx hD _ ⟨hv, rfl⟩]
  · rw [if_neg hv, if_neg hv]

namespace Shape

/-- A table whose entries were kept has the shape it had. -/
theorem keep (h : Shape k.mem r n T) (hk : KeepsUpTo R k k' roots held D) (hr : r ∈ roots)
    (hD : ∀ x, ¬ D r x) : Shape k'.mem r n T where
  le := h.le
  above := h.above
  valid x hx := by rw [(hk.alike hr hx (hD x)).valid, h.valid x hx]
  readable x hx hv := by
    have ha := hk.alike hr hx (hD x)
    rw [ha.valid] at hv
    rw [ha.readable, h.readable x hx hv]
  kernel x hx := by
    obtain ⟨h1, h2⟩ := h.above x hx
    rw [hk.top r hr x h2 h1 (hD x)]
    exact h.kernel x hx

/-- The entries of a table are all that its shape depends on. -/
theorem congr (h : Shape k.mem r n T) (hl : ∀ x < vpnLimit, leaf k'.mem r x = leaf k.mem r x) :
    Shape k'.mem r n T where
  le := h.le
  above := h.above
  valid x hx := by rw [hl x hx, h.valid x hx]
  readable x hx := by
    rw [hl x hx]
    exact h.readable x hx
  kernel x hx := by
    rw [hl x (h.above x hx).2]
    exact h.kernel x hx

theorem same (h : Shape k.mem r n T) (hl : SameLeaves k k' roots) (hr : r ∈ roots) :
    Shape k'.mem r n T :=
  h.congr (hl r hr)

theorem of_clean (h : Clean k.mem r) : Shape k.mem r 0 ∅ where
  le := Nat.zero_le _
  above := by simp
  valid x hx := by simp [h x hx]
  readable x hx hv := by simp [h x hx] at hv
  kernel := by simp

theorem clean (h : Shape k.mem r 0 ∅) : Clean k.mem r := by
  intro x hx
  have := h.valid x hx
  simpa using this

/-- Physical memory bounds the size of an address space. -/
theorem pages_le (h : Shape k.mem r n T) (hc : Coherent L k roots held) (hr : r ∈ roots) :
    n ≤ 32768 := by
  have hmaps : ∀ x < n, Maps (leaf k.mem r x) (pte2pa (leaf k.mem r x)) := fun x hx =>
    ⟨(h.valid x (hx.trans_le h.le |>.trans userVpns_lt)).mpr (Or.inl hx), rfl⟩
  have hpage : ∀ x < n, IsPage L (pte2pa (leaf k.mem r x)) := fun x hx =>
    hc.isPage_of_mapped (mapCount_pos hr (hx.trans_le h.le) (hmaps x hx))
  have hL1 := L.kernbase_le_trampoline
  have hL2 := L.trampoline_lt_end
  have hcard := Finset.card_le_card_of_injOn (s := Finset.range n) (t := Finset.range 32768)
    (fun x => (pte2pa (leaf k.mem r x) - kernbase) / 4096) (by
      intro x hx
      obtain ⟨h1, h2, h3⟩ := hpage x (by simpa using hx)
      rw [phystop_eq] at h3
      have hk : kernbase = 0x80000000 := rfl
      simp only [Finset.coe_range, Set.mem_Iio]
      omega) (by
      intro x hx y hy hxy
      have hx' : x < n := by simpa using hx
      have hy' : y < n := by simpa using hy
      obtain ⟨h1, h2, h3⟩ := hpage x hx'
      obtain ⟨h4, h5, h6⟩ := hpage y hy'
      have hk : kernbase = 0x80000000 := rfl
      have heq : pte2pa (leaf k.mem r x) = pte2pa (leaf k.mem r y) := by
        simp only at hxy
        omega
      exact hc.sharing.inj hr (hx'.trans_le h.le) (hy'.trans_le h.le) (hmaps x hx')
        ⟨(hmaps y hy').1, heq.symm⟩)
  simpa using hcard

end Shape

/-! ## Fresh pages -/

theorem kalloc_coherent (h : Coherent L k roots held) : Ensures kalloc (fun res k' =>
    match res with
    | none => k' = k ∧ k.freelist = []
    | some p => Coherent L k' roots (bump held p) ∧ SameLeaves k k' roots ∧
        Keeps k k' roots held (fun _ _ => False) ∧ held p = 0 ∧ mapCount k'.mem roots p = 0 ∧
        (∀ q, q ≠ p → k'.mem q = k.mem q) ∧ k.freelist = p :: k'.freelist) k := by
  refine (kalloc_spec h.toBalanced).mono ?_
  intro res k' hres
  cases res with
  | none => exact hres
  | some p =>
    obtain ⟨hb, hl, hk, h0, hm0, -, -, hother, hfl⟩ := hres
    refine ⟨h.of_sameLeaves hb hl ?_, hl, hk, h0, ?_, hother, hfl⟩
    · intro q hq hz
      rw [bump_apply, hz, if_neg]
      rintro rfl
      omega
    · rw [mapCount_congr (m := k.mem), hm0]
      intro s hs x hx
      rw [hl s hs x (hx.trans userVpns_lt)]

/-- Writing to a page in hand that nobody maps. -/
theorem write_fresh (h : Coherent L k roots (bump held p)) (h0 : held p = 0)
    (hm0 : mapCount k.mem roots p = 0) {m : Memory} (hm : ∀ q, q ≠ p → m q = k.mem q) :
    Coherent L (k.setMem m) roots (bump held p) ∧ SameLeaves k (k.setMem m) roots ∧
      Keeps k (k.setMem m) roots held (fun _ _ => False) ∧ mapCount m roots p = 0 := by
  obtain ⟨hb, hl, -⟩ := write_held h.toBalanced (p := p) (by simp) hm
  refine ⟨h.of_sameLeaves hb hl (fun _ _ hz => hz), hl, .of_sameLeaves hl ?_, ?_⟩
  · intro q hq
    apply hm
    rintro rfl
    omega
  · rw [mapCount_congr (m := k.mem), hm0]
    intro s hs x hx
    have := hl s hs x (hx.trans userVpns_lt)
    rw [Kernel.setMem_mem] at this
    rw [this]

/-- `uvmcreate` makes an empty table, or finds no memory. -/
theorem uvmcreate_spec (h : Coherent L k roots held) : Ensures uvmcreate (fun res k' =>
    match res with
    | none => k' = k ∧ k.freelist = []
    | some r => r ∉ roots ∧ Coherent L k' (insert r roots) held ∧ Clean k'.mem r ∧
        Keeps k k' roots held (fun _ _ => False) ∧
        k.freelist.length = k'.freelist.length + 1) k := by
  unfold uvmcreate
  refine .bind (kalloc_coherent h) ?_
  intro res k1 hres
  cases res with
  | none =>
    obtain ⟨rfl, hnil⟩ := hres
    exact .of_pure ⟨rfl, hnil⟩
  | some r =>
    obtain ⟨hc1, hl1, hk1, h0, hm0, -, hfl⟩ := hres
    obtain ⟨hc2, hl2, hk2, hm2⟩ := write_fresh hc1 h0 hm0 (m := k1.mem.fill r 0#8)
      fun q hq => Memory.fill_of_ne _ _ _ _ hq
    have hz : ∀ j, (k1.mem.fill r 0#8).word r j = 0#64 := fun j => by simp
    have hnt := hc2.not_table_of_held (p := r) (by simp)
    have hnr : r ∉ roots := fun hr => hnt ⟨.root r, hr, rfl⟩
    have hb := hc2.toBalanced.insertRoot hz (by simp [h0]) hm2
    rw [drop_bump] at hb
    refine .of_run (a := some r) (t := k1.setMem (k1.mem.fill r 0#8)) rfl
      ⟨hnr, ⟨hb, hc2.sharing.shrink ?_ ?_⟩, ?_, hk1.trans hk2, by simp [hfl]⟩
    · intro s hs x hx hval
      rcases Finset.mem_insert.mp hs with rfl | hs
      · rw [Kernel.setMem_mem, leaf_of_zero hz (hx.trans userVpns_lt)] at hval
        simp at hval
      · exact ⟨hs, .of_eq rfl⟩
    · intro s hs x hx q _ _ hq
      rw [bump_apply] at hq
      omega
    · intro x hx
      rw [Kernel.setMem_mem, leaf_of_zero hz hx]
      exact pteValid_zero

/-! ## Shrinking -/

theorem uvmunmap_spec {v n : ℕ} (h : Coherent L k roots held) (hr : r ∈ roots)
    (hn : v + n ≤ userVpns)
    (hval : ∀ x, v ≤ x → x < v + n →
      pteValid (leaf k.mem r x) = true ∧ pteReadable (leaf k.mem r x) = true) :
    Ensures (uvmunmap L r (v * 4096) n true) (fun _ k' =>
      Coherent L k' roots held ∧
      (∀ s ∈ roots, ∀ x < vpnLimit,
        leaf k'.mem s x = if s = r ∧ v ≤ x ∧ x < v + n then 0#64 else leaf k.mem s x) ∧
      Keeps k k' roots held (fun s x => s = r ∧ v ≤ x ∧ x < v + n)) k := by
  unfold uvmunmap
  rw [if_neg (by simp [pgsize])]
  exact uvmunmapLoop_spec h hr hn hval

/-- Cutting a table down to `n'` user pages. -/
theorem Shape.cut {n' : ℕ} (h : Shape k.mem r n T) (hn : n' ≤ n)
    (hl : ∀ x < vpnLimit, leaf k'.mem r x = if n' ≤ x ∧ x < n then 0#64 else leaf k.mem r x) :
    Shape k'.mem r n' T where
  le := hn.trans h.le
  above := h.above
  valid x hx := by
    rw [hl x hx]
    split_ifs with hc
    · have hT : x ∉ T := fun hT => by
        have := (h.above x hT).1
        have := h.le
        omega
      simp [hT]
      omega
    · rw [h.valid x hx]
      constructor
      · rintro (h1 | h1)
        · exact Or.inl (by omega)
        · exact Or.inr h1
      · rintro (h1 | h1)
        · exact Or.inl (by omega)
        · exact Or.inr h1
  readable x hx := by
    rw [hl x hx]
    split_ifs with hc
    · simp
    · exact h.readable x hx
  kernel x hx := by
    obtain ⟨h1, h2⟩ := h.above x hx
    have := h.le
    rw [hl x h2, if_neg (by omega)]
    exact h.kernel x hx

theorem uvmunmap_shape {n' : ℕ} (h : Coherent L k roots held) (hr : r ∈ roots)
    (hs : Shape k.mem r n T) (hn : n' ≤ n) :
    Ensures (uvmunmap L r (n' * 4096) (n - n') true) (fun _ k' =>
      Coherent L k' roots held ∧ Shape k'.mem r n' T ∧
      Keeps k k' roots held (fun s x => s = r ∧ n' ≤ x ∧ x < n)) k := by
  have hle := hs.le
  refine (uvmunmap_spec h hr (by omega) ?_).mono ?_
  · intro x h1 h2
    have hx : x < vpnLimit := (show x < userVpns by omega).trans userVpns_lt
    have hv := (hs.valid x hx).mpr (Or.inl (by omega))
    exact ⟨hv, hs.readable x hx hv⟩
  · rintro _ k' ⟨hc', hl', hk'⟩
    refine ⟨hc', hs.cut hn ?_, hk'.mono (by omega)⟩
    intro x hx
    rw [hl' r hr x hx]
    exact if_congr (by omega) rfl rfl

theorem npagesOf_lt {sz : ℕ} (h : npagesOf sz ≤ userVpns) : sz < 2 ^ 38 := by
  unfold npagesOf userVpns at h
  omega

/-- `uvmdealloc` leaves the pages below the new size. -/
theorem uvmdealloc_spec {oldsz newsz : ℕ} (h : Coherent L k roots held) (hr : r ∈ roots)
    (hs : Shape k.mem r (npagesOf oldsz) T) :
    Ensures (uvmdealloc L r oldsz newsz) (fun sz k' =>
      sz = min oldsz newsz ∧ Coherent L k' roots held ∧ Shape k'.mem r (npagesOf sz) T ∧
      Keeps k k' roots held (fun s x => s = r ∧ npagesOf sz ≤ x ∧ x < npagesOf oldsz)) k := by
  have hlt := npagesOf_lt hs.le
  unfold uvmdealloc
  by_cases hle : oldsz ≤ newsz
  · rw [if_pos hle]
    exact .of_pure ⟨(min_eq_left hle).symm, h, hs, .refl⟩
  · have hmin : newsz = min oldsz newsz := (min_eq_right (by omega)).symm
    rw [if_neg hle, pgroundup_eq (by omega), pgroundup_eq (by omega)]
    have hnle : npagesOf newsz ≤ npagesOf oldsz := by
      unfold npagesOf
      omega
    have hcount : (npagesOf oldsz * 4096 - npagesOf newsz * 4096) / pgsize =
        npagesOf oldsz - npagesOf newsz := by
      unfold pgsize
      omega
    split_ifs with hc
    · rw [hcount]
      refine .bind (uvmunmap_shape h hr hs hnle) ?_
      rintro _ k1 ⟨hc1, hs1, hk1⟩
      exact .of_pure ⟨hmin, hc1, hs1, hk1⟩
    · have heq : npagesOf newsz = npagesOf oldsz := by omega
      exact .of_pure ⟨hmin, h, heq ▸ hs, .refl⟩

/-- `uvmfree` gives back the user pages and the table. -/
theorem uvmfree_spec {sz : ℕ} (h : Coherent L k roots held) (hr : r ∈ roots)
    (hs : Shape k.mem r (npagesOf sz) ∅) :
    Ensures (uvmfree L r sz) (fun _ k' => Coherent L k' (roots.erase r) held ∧
      Keeps k k' (roots.erase r) held (fun _ _ => False)) k := by
  have hlt := npagesOf_lt hs.le
  have hcount : pgroundup sz / pgsize = npagesOf sz - 0 := by
    rw [pgroundup_eq (by omega)]
    unfold pgsize
    omega
  have hunmap : Ensures (if 0 < sz then uvmunmap L r 0 (pgroundup sz / pgsize) true else pure ())
      (fun _ k' => Coherent L k' roots held ∧ Shape k'.mem r 0 ∅ ∧
        Keeps k k' roots held (fun s _ => s = r)) k := by
    split_ifs with hc
    · rw [hcount]
      have := uvmunmap_shape h hr hs (Nat.zero_le _)
      rw [Nat.zero_mul] at this
      refine this.mono ?_
      rintro _ k1 ⟨hc1, hs1, hk1⟩
      exact ⟨hc1, hs1, hk1.mono fun _ _ hD => hD.1⟩
    · have hz : npagesOf sz = 0 := by
        unfold npagesOf
        omega
      exact .of_pure ⟨h, hz ▸ hs, .refl⟩
  unfold uvmfree
  refine .bind hunmap ?_
  rintro _ k1 ⟨hc1, hs1, hk1⟩
  refine (freewalk_spec hc1 hr hs1.clean).mono ?_
  rintro _ k2 ⟨hc2, hk2⟩
  refine ⟨hc2, KeepsUpTo.trans ?_ hk2⟩
  have hke := hk1.weaken_roots (Finset.erase_subset r roots)
  exact hke.narrow fun s hs _ hD => Finset.ne_of_mem_erase hs hD

end XV6AndConcurrency.VirtualMemory
