import XV6AndConcurrency.VirtualMemory.AddressSpace

/-!
# Specification of growing user memory

`uvmalloc` maps zeroed pages one at a time. When memory runs out, for a page or for
a page-table page, it removes the pages it has mapped and the table has the shape
it started with.
-/

namespace XV6AndConcurrency.VirtualMemory

open Foundations

/-- The permissions `uvmalloc` is asked for: writable, executable, both or none. -/
def PermOk (perm : Pte) : Prop := ∀ i, i ≠ 2 → i ≠ 3 → pteBit i perm = false

theorem permOk_pteW : PermOk pteW := by
  intro i h2 _
  simp [h2]

/-- A fresh page of user memory. -/
def zeroedPage (perm : Pte) : UserPage := ⟨fun _ => 0#8, true, pteWritable perm⟩

variable {L : Layout} {k k' : Kernel} {roots : Finset ℕ} {held : ℕ → ℕ} {r n i n0 : ℕ}
  {T : Finset ℕ} {perm : Pte}

theorem Shape.extend (h : Shape k.mem r n T) (hr : r ∈ roots)
    (hk : Keeps k k' roots held (fun s x => s = r ∧ x = n)) (hn : n < userVpns)
    (hv : pteValid (leaf k'.mem r n) = true) (hread : pteReadable (leaf k'.mem r n) = true) :
    Shape k'.mem r (n + 1) T where
  le := hn
  above := h.above
  valid x hx := by
    by_cases hxn : x = n
    · subst hxn
      simp [hv]
    · rw [(hk.alike hr hx (by omega)).valid, h.valid x hx]
      constructor
      · rintro (h1 | h1)
        · exact Or.inl (by omega)
        · exact Or.inr h1
      · rintro (h1 | h1)
        · exact Or.inl (by omega)
        · exact Or.inr h1
  readable x hx hval := by
    by_cases hxn : x = n
    · subst hxn
      exact hread
    · have ha := hk.alike hr hx (by omega)
      rw [ha.valid] at hval
      rw [ha.readable, h.readable x hx hval]
  kernel x hx := by
    obtain ⟨h1, h2⟩ := h.above x hx
    rw [hk.top r hr x h2 h1 (by omega)]
    exact h.kernel x hx

/-- The pages mapped so far are given back. -/
theorem uvmdealloc_undo (h : Coherent L k roots held) (hr : r ∈ roots) (hs : Shape k.mem r i T)
    (hi : n0 ≤ i) : Ensures (uvmdealloc L r (i * 4096) (n0 * 4096)) (fun _ k' =>
      Coherent L k' roots held ∧ Shape k'.mem r n0 T ∧
      Keeps k k' roots held (fun s x => s = r ∧ n0 ≤ x ∧ x < userVpns)) k := by
  have hpages : ∀ j, npagesOf (j * 4096) = j := by
    intro j
    unfold npagesOf
    omega
  have hle := hs.le
  have hs' : Shape k.mem r (npagesOf (i * 4096)) T := by
    rw [hpages]
    exact hs
  refine (uvmdealloc_spec h hr hs').mono ?_
  rintro sz k' ⟨hsz, hc, hsh, hk⟩
  have hsz' : npagesOf sz = n0 := by
    rw [hsz, min_eq_right (by omega), hpages]
  rw [hsz'] at hsh hk
  rw [hpages] at hk
  exact ⟨hc, hsh, hk.mono (by omega)⟩

/-- One more page of user memory: the page in hand `p` is mapped at `i`. -/
theorem mapPage_zeroed {p : ℕ} (h : Coherent L k roots (bump held p)) (hr : r ∈ roots)
    (hs : Shape k.mem r i T) (h0 : held p = 0) (hm0 : mapCount k.mem roots p = 0)
    (hz : k.mem p = fun _ => 0#8) (hperm : PermOk perm) :
    Ensures (mappages r (i * 4096) pgsize p (pteR ||| pteU ||| perm)) (fun ok k' =>
      k.freelist.length ≤ k'.freelist.length + 2 ∧
      match ok with
      | false => Coherent L k' roots (bump held p) ∧
          Keeps k k' roots (bump held p) (fun _ _ => False) ∧ k.freelist.length ≤ 1
      | true => Coherent L k' roots held ∧ Shape k'.mem r (i + 1) T ∧
          Keeps k k' roots (bump held p) (fun s x => s = r ∧ x = i) ∧
          Maps (leaf k'.mem r i) p ∧ pteWritable (leaf k'.mem r i) = pteWritable perm ∧
          pteCow (leaf k'.mem r i) = false ∧
          pageView k'.mem r i = some (zeroedPage perm)) k := by
  have hi : i < userVpns := by
    have := hs.pages_le h hr
    unfold userVpns
    omega
  have hinv : pteValid (leaf k.mem r i) = false := by
    have hT : i ∉ T := fun hT => by
      have := (hs.above i hT).1
      omega
    have := hs.valid i (hi.trans userVpns_lt)
    simpa [hT] using this
  have hpage := h.isPage_of_held (p := p) (by simp)
  have hhigh : ∀ i, 10 ≤ i → pteBit i (pteR ||| pteU ||| perm) = false := by
    intro i hi
    have h1 : ¬ i = 1 := by omega
    have h4 : ¬ i = 4 := by omega
    simp [h1, h4, hperm i (by omega) (by omega)]
  rw [mappages_page]
  refine (mapPage_spec h hr hi hinv (p := p) (by simp) ?_ hhigh ?_).mono ?_
  · intro x hx hm
    have := mapCount_pos hr hx hm
    omega
  · intro _
    exact ⟨by simp [hperm 8 (by omega) (by omega)], by simp [h0], hm0⟩
  · rintro ok k' ⟨hlen, hok⟩
    refine ⟨hlen, ?_⟩
    cases ok with
    | false => exact hok
    | true =>
      obtain ⟨hc, hleaf, hk⟩ := hok
      rw [drop_bump] at hc
      have hv : pteValid (leaf k'.mem r i) = true := by
        rw [hleaf]
        simp
      have hmaps : Maps (leaf k'.mem r i) p := by
        rw [hleaf]
        exact maps_mkPte hpage hhigh
      refine ⟨hc, hs.extend hr hk hi hv (by rw [hleaf]; simp), hk, hmaps,
        by rw [hleaf]; simp, by rw [hleaf]; simp [hperm 8 (by omega) (by omega)], ?_⟩
      have hbytes := hk.held p (by simp)
      unfold pageView zeroedPage
      rw [if_pos hv, hmaps.2, hbytes, hz, hleaf]
      simp [hperm 8 (by omega) (by omega)]

/-- The entry of `x` is new since the state `k0`: its page is zeroed and was nobody's. -/
structure FreshSlot (k0 k : Kernel) (roots : Finset ℕ) (held : ℕ → ℕ) (r : ℕ) (perm : Pte)
    (x : ℕ) : Prop where
  view : pageView k.mem r x = some (zeroedPage perm)
  writable : pteWritable (leaf k.mem r x) = pteWritable perm
  cow : pteCow (leaf k.mem r x) = false
  fresh : ∀ p, Maps (leaf k.mem r x) p → held p = 0 ∧ mapCount k0.mem roots p = 0

theorem FreshSlot.keep {k0 : Kernel} {x : ℕ} {D : ℕ → ℕ → Prop}
    (h : FreshSlot k0 k roots held r perm x) (hk : Keeps k k' roots held D) (hr : r ∈ roots)
    (hx : x < userVpns) (hD : ¬ D r x) : FreshSlot k0 k' roots held r perm x := by
  have hl := hk.slot r hr x (hx.trans userVpns_lt) hD
  refine ⟨(hk.view hr hx hD).trans h.view, ?_, ?_, ?_⟩
  · rw [← hl]
    exact h.writable
  · rw [← hl]
    exact h.cow
  · rw [← hl]
    exact h.fresh

/-- A page that nobody maps now was mapped by nobody before the pages from `n0` on were
added. -/
theorem unmapped_before {k0 : Kernel} {p : ℕ} (hs0 : Shape k0.mem r n0 T)
    (hk0 : Keeps k0 k roots held (fun s x => s = r ∧ n0 ≤ x ∧ x < userVpns))
    (hp : mapCount k.mem roots p = 0) : mapCount k0.mem roots p = 0 := by
  by_contra hpos
  obtain ⟨s, hs, x, hx, hm⟩ := mapCount_pos_iff.mp (Nat.pos_of_ne_zero hpos)
  have hxl := hx.trans userVpns_lt
  by_cases hD : s = r ∧ n0 ≤ x ∧ x < userVpns
  · obtain ⟨rfl, h1, -⟩ := hD
    have hT : x ∉ T := fun hT => by
      have := (hs0.above x hT).1
      omega
    have := (hs0.valid x hxl).mp hm.1
    simp only [hT, or_false] at this
    omega
  · have := mapCount_pos hs hx (((hk0.alike hs hxl hD).maps p).mpr hm)
    omega

theorem uvmallocLoop_spec {k0 : Kernel} (hs0 : Shape k0.mem r n0 T)
    (hk0 : Keeps k0 k roots held (fun s x => s = r ∧ n0 ≤ x ∧ x < userVpns))
    (h : Coherent L k roots held) (hr : r ∈ roots) (hs : Shape k.mem r i T)
    (hi : n0 ≤ i) (hperm : PermOk perm)
    (hz : ∀ x, n0 ≤ x → x < i → FreshSlot k0 k roots held r perm x) :
    Ensures (uvmallocLoop L r (n0 * 4096) perm n (i * 4096)) (fun ok k' =>
      Coherent L k' roots held ∧
      Keeps k0 k' roots held (fun s x => s = r ∧ n0 ≤ x ∧ x < userVpns) ∧
      match ok with
      | false => Shape k'.mem r n0 T
      | true => Shape k'.mem r (i + n) T ∧
          ∀ x, n0 ≤ x → x < i + n → FreshSlot k0 k' roots held r perm x) k := by
  induction n generalizing k i with
  | zero => exact .of_pure ⟨h, hk0, hs, hz⟩
  | succ n ih =>
    unfold uvmallocLoop
    refine .bind (kalloc_coherent h) ?_
    intro res k1 hres
    cases res with
    | none =>
      obtain ⟨rfl, -⟩ := hres
      refine .bind (uvmdealloc_undo h hr hs hi) ?_
      rintro _ k2 ⟨hc2, hs2, hk2⟩
      exact .of_pure ⟨hc2, hk0.trans hk2, hs2⟩
    | some p =>
      obtain ⟨hc1, hl1, hk1, h0, hm1, -, -⟩ := hres
      obtain ⟨hc2, hl2, hk2, hm2⟩ := write_fresh hc1 h0 hm1 (m := k1.mem.fill p 0#8)
        fun q hq => Memory.fill_of_ne _ _ _ _ hq
      have hk12 := hk1.trans hk2
      have hs2 : Shape (k1.setMem (k1.mem.fill p 0#8)).mem r i T := hs.keep hk12 hr (by simp)
      have hk02 := hk0.trans (hk12.mono fun _ _ hF => hF.elim)
      have hiu : i ≤ userVpns := hs.le
      refine .modify_bind ?_
      refine .bind (mapPage_zeroed hc2 hr hs2 h0 hm2 (by simp) hperm) ?_
      rintro ok k3 ⟨-, hok⟩
      cases ok with
      | false =>
        obtain ⟨hc3, hk3, -⟩ := hok
        have hk3' := hk3.weaken_held (g := held) (by simp [bump_apply]; omega)
        have hrel := hc3.release (p := p) (by simp)
        have hk4 := release_keeps hc3.toBalanced (p := p) (by simp) (D := fun _ _ => False)
        rw [drop_bump] at hrel hk4
        refine .bind_of_run (kfree_run (hc3.isPage_of_held (p := p) (by simp))) ?_
        have hk25 := hk3'.trans hk4
        refine .bind (uvmdealloc_undo hrel hr (hs2.keep hk25 hr (by simp)) hi) ?_
        rintro _ k6 ⟨hc6, hs6, hk6⟩
        exact .of_pure ⟨hc6, (hk02.trans (hk25.mono fun _ _ hF => hF.elim)).trans hk6, hs6⟩
      | true =>
        obtain ⟨hc3, hs3, hk3, hmaps, hwr, hcow, hview⟩ := hok
        have hk3' := hk3.weaken_held (g := held) (by simp [bump_apply]; omega)
        have hk13 := (hk12.mono (E := fun s x => s = r ∧ x = i) fun _ _ hF => hF.elim).trans hk3'
        have hiu' := hs3.le
        have hstep : i * 4096 + pgsize = (i + 1) * 4096 := by
          unfold pgsize
          omega
        rw [if_pos rfl, hstep]
        refine (ih (hk02.trans (hk3'.mono (by omega))) hc3 hs3 (by omega) ?_).mono ?_
        · intro x h1 h2
          by_cases hxi : x = i
          · subst hxi
            refine ⟨hview, hwr, hcow, ?_⟩
            intro q hq
            obtain rfl : q = p := hq.2.symm.trans hmaps.2
            exact ⟨h0, unmapped_before hs0 hk02 hm2⟩
          · exact (hz x h1 (by omega)).keep hk13 hr (by omega) (by omega)
        · rintro ok k4 ⟨hc4, hk4, hok4⟩
          refine ⟨hc4, hk4, ?_⟩
          cases ok with
          | false => exact hok4
          | true =>
            rw [show i + (n + 1) = i + 1 + n by omega]
            exact hok4

/-- `uvmalloc` returns the new size and has mapped zeroed pages up to it, or returns
0 and the table has the shape it had. -/
theorem uvmalloc_spec {oldsz newsz : ℕ} (h : Coherent L k roots held) (hr : r ∈ roots)
    (hs : Shape k.mem r (npagesOf oldsz) T) (hperm : PermOk perm) :
    Ensures (uvmalloc L r oldsz newsz perm) (fun sz k' =>
      Coherent L k' roots held ∧
      Keeps k k' roots held (fun s x => s = r ∧ npagesOf oldsz ≤ x ∧ x < userVpns) ∧
      ((sz = max oldsz newsz ∧ Shape k'.mem r (npagesOf sz) T ∧
        ∀ x, npagesOf oldsz ≤ x → x < npagesOf sz → FreshSlot k k' roots held r perm x) ∨
        (sz = 0 ∧ Shape k'.mem r (npagesOf oldsz) T))) k := by
  have hlt := npagesOf_lt hs.le
  unfold uvmalloc
  by_cases hn : newsz < oldsz
  · rw [if_pos hn]
    refine .of_pure ⟨h, .refl, Or.inl ⟨(max_eq_left (by omega)).symm, hs, ?_⟩⟩
    intro x h1 h2
    omega
  · rw [if_neg hn, pgroundup_eq (by omega)]
    have hcount : npagesOf oldsz + (newsz - npagesOf oldsz * 4096 + pgsize - 1) / pgsize =
        npagesOf newsz := by
      unfold npagesOf pgsize
      omega
    refine .bind (uvmallocLoop_spec hs .refl h hr hs le_rfl hperm (by omega)) ?_
    rintro ok k1 ⟨hc1, hk1, hok⟩
    cases ok with
    | false => exact .of_pure ⟨hc1, hk1, Or.inr ⟨rfl, hok⟩⟩
    | true =>
      rw [hcount] at hok
      exact .of_pure ⟨hc1, hk1, Or.inl ⟨(max_eq_right (by omega)).symm, hok⟩⟩

end XV6AndConcurrency.VirtualMemory
