import XV6AndConcurrency.VirtualMemory.Mapping

/-!
# The slots of a page table

`walk` and `mappages` on page tables about which nothing is known but their shape.
Whatever `kalloc` answers on the way, the pages found stay where they are and no entry
changes, so a slot belongs to one virtual page for good.
-/

namespace XV6AndConcurrency.VirtualMemory

open Foundations

/-- Every page-table page is a page of the allocator, reached by one path, and not free. -/
structure TableState (L : Layout) (k : Kernel) (roots : Finset ℕ) : Prop where
  forest : Forest k.mem roots
  pages : ∀ t, IsTable k.mem roots t → IsPage L t
  nodup : k.freelist.Nodup
  free : ∀ p ∈ k.freelist, IsPage L p ∧ ¬ IsTable k.mem roots p

/-- The page tables of a state whose books agree with the owners are well formed. -/
theorem Balanced.tableState {L : Layout} {k : Kernel} {roots : Finset ℕ} {held : ℕ → ℕ}
    (h : Balanced L k roots held) : TableState L k roots := by
  refine ⟨h.forest, fun t ht => h.isPage_of_table ht, h.nodup, ?_⟩
  intro p hp
  exact ⟨((h.free p).mp hp).1, h.free_not_table hp⟩

/-- The PTE that `walk` finds for `va`; 0 where there is no slot for it. -/
def pteOf (pagetable va : ℕ) : KernelM Pte := do
  let pte ← walk pagetable va false
  match pte with
  | none => pure 0#64
  | some pte => readPte pte

/-- Page-table pages may have been added; the others are where they were, and no entry has
changed. -/
structure Grows (k k' : Kernel) (roots : Finset ℕ) : Prop where
  leaves : SameLeaves k k' roots
  paths : ∀ a t, At k.mem roots a t → At k'.mem roots a t

variable {L : Layout} {k k' k'' : Kernel} {roots : Finset ℕ} {r t v x va pa n : ℕ}
  {a : Position} {ref : PteRef}

theorem Grows.refl : Grows k k roots := ⟨fun _ _ _ _ => rfl, fun _ _ h => h⟩

theorem Grows.trans (h : Grows k k' roots) (h' : Grows k' k'' roots) : Grows k k'' roots :=
  ⟨h.leaves.trans h'.leaves, fun a t ha => h'.paths a t (h.paths a t ha)⟩

theorem pteOf_run (hva : va < maxva) (r : ℕ) (k : Kernel) :
    pteOf r va k = .ok (leaf k.mem r (va / pgsize), k) := by
  have hw := walk_false_run hva r k
  unfold leafRef at hw
  unfold pteOf leaf pgsize
  cases ht : leafTable k.mem r (va / 4096) with
  | none => simp [hw, ht]
  | some t => simp [hw, ht, readPte]

/-! ## Slots and pages -/

theorem leafRef_eq_some : leafRef k.mem r v = some ref ↔
    leafTable k.mem r v = some ref.table ∧ ref.index = vpn0 v := by
  obtain ⟨table, index⟩ := ref
  simp [leafRef, eq_comm]

theorem leafRef_at (hr : r ∈ roots) (hv : v < vpnLimit) (h : leafRef k.mem r v = some ref) :
    At k.mem roots (.last r (vpn2 v) (vpn1 v)) ref.table :=
  leafTable_at hr hv (leafRef_eq_some.mp h).1

theorem leafRef_of_at (h : At k.mem roots (.last r (vpn2 v) (vpn1 v)) t) :
    leafRef k.mem r v = some ⟨t, vpn0 v⟩ := by
  obtain ⟨-, -, -, u, hu, ht⟩ := h
  simp [leafRef, leafTable, hu, ht]

/-- Two virtual pages do not share a slot. -/
theorem leafRef_inj (hf : Forest k.mem roots) (hr : r ∈ roots) (hv : v < vpnLimit)
    (hx : x < vpnLimit) (h : leafRef k.mem r v = some ref) (h' : leafRef k.mem r x = some ref) :
    v = x := by
  have hp := hf.unique (leafRef_at hr hv h) (leafRef_at hr hx h')
  simp only [Position.last.injEq] at hp
  have h0 := (leafRef_eq_some.mp h).2.symm.trans (leafRef_eq_some.mp h').2
  exact vpn_inj hp.2.1 hp.2.2 h0

/-- A slot stays the slot of its page. -/
theorem Grows.leafRef (h : Grows k k' roots) (hr : r ∈ roots) (hv : v < vpnLimit)
    (hs : leafRef k.mem r v = some ref) : leafRef k'.mem r v = some ref := by
  have ha := leafRef_of_at (h.paths _ _ (leafRef_at hr hv hs))
  rw [ha, ← (leafRef_eq_some.mp hs).2]

theorem walkLevel_of_next (alloc : Bool) {level pagetable : ℕ}
    (h : nextTable k.mem pagetable (px level va) = some t) :
    walkLevel va alloc level pagetable k = .ok (some t, k) := by
  obtain ⟨hv, rfl⟩ := nextTable_eq_some.mp h
  simp [walkLevel, readPte, hv]

/-- `walk` to a slot that is there finds it and changes nothing. -/
theorem walk_of_leafRef (hva : va < maxva) (alloc : Bool)
    (h : leafRef k.mem r (va / 4096) = some ref) :
    walk r va alloc k = .ok (some ref, k) := by
  obtain ⟨ht, hi⟩ := leafRef_eq_some.mp h
  obtain ⟨u, hu, ht⟩ := Option.bind_eq_some_iff.mp ht
  rw [← px_two hva] at hu
  rw [← px_one] at ht
  have h2 := walkLevel_of_next alloc hu
  have h1 := walkLevel_of_next alloc ht
  unfold walk
  rw [if_neg (not_le.mpr hva)]
  simp only [bind_run, h2, ok_bind, h1, pure_run, px_zero, ← hi]

/-! ## Walking -/

/-- One level of `walk`, with or without allocation. -/
theorem walkLevel_grows (h : TableState L k roots) (ha : At k.mem roots a t)
    (hin : a.inner = true) (va level : ℕ) (alloc : Bool) :
    Ensures (walkLevel va alloc level t) (fun res k' => TableState L k' roots ∧
      Grows k k' roots ∧ ∀ u, res = some u → At k'.mem roots (a.child (px level va)) u) k := by
  have hi := px_lt level va
  cases hnext : nextTable k.mem t (px level va) with
  | some p =>
    refine .of_run (walkLevel_of_next alloc hnext) ⟨h, .refl, ?_⟩
    intro u hu
    cases hu
    exact at_child ha hin hi hnext
  | none =>
    have hval : pteValid (k.mem.word t (px level va)) = false := by
      simpa [nextTable] using hnext
    unfold walkLevel
    refine .bind_of_run (a := k.mem.word t (px level va)) (t := k) rfl ?_
    rw [if_neg (by simp [hval])]
    cases alloc with
    | false => exact .of_pure ⟨h, .refl, by simp⟩
    | true =>
      rw [if_pos rfl]
      cases hk : k.freelist with
      | nil =>
        refine .bind_of_run (kalloc_run_nil hk) ?_
        exact .of_pure ⟨h, .refl, by simp⟩
      | cons p next =>
        refine .bind_of_run (kalloc_run_cons hk) ?_
        have hfree := h.free p (by simp [hk])
        have hne : ∀ u, IsTable k.mem roots u → u ≠ p := by
          rintro u hu rfl
          exact hfree.2 hu
        -- the page is taken and zeroed, then linked
        have hm : ∀ u, IsTable k.mem roots u →
            ((k.take p next).mem.fill p 0#8) u = k.mem u := by
          intro u hu
          rw [Memory.fill_of_ne _ _ _ _ (hne u hu)]
          exact Memory.fill_of_ne _ _ _ _ (hne u hu)
        have hf1 := h.forest.congr hm
        have hat1 := at_congr hm
        have ha1 := (hat1 a t).mpr ha
        have hn1 := (nextTable_congr (hm t ⟨a, ha⟩) (px level va)).trans hnext
        have hp1 : ¬ IsTable ((k.take p next).mem.fill p 0#8) roots p := fun hc =>
          hfree.2 ((isTable_congr hm p).mp hc)
        have hz : ∀ j, ((k.take p next).mem.fill p 0#8).word p j = 0#64 := fun j => by simp
        have hmaps := Balanced.maps_link hfree.1
        have hflags := Balanced.pteFlags_link p
        have hat2 := at_link hf1 ha1 hin hi hn1 hp1 hz _ hmaps
        have htab2 := isTable_link hf1 ha1 hin hi hn1 hp1 hz _ hmaps
        have hnd := h.nodup
        rw [hk, List.nodup_cons] at hnd
        refine .of_run (a := some p) rfl ⟨⟨hf1.link ha1 hin hi hn1 hp1 hz _ hmaps hflags, ?_,
          hnd.2, ?_⟩, ⟨?_, ?_⟩, ?_⟩
        · intro u hu
          rcases (htab2 u).mp hu with hu | rfl
          · exact h.pages u ((isTable_congr hm u).mp hu)
          · exact hfree.1
        · intro q hq
          have hqk := h.free q (by rw [hk]; exact List.mem_cons_of_mem _ hq)
          refine ⟨hqk.1, ?_⟩
          intro hc
          rcases (htab2 q).mp hc with hc | rfl
          · exact hqk.2 ((isTable_congr hm q).mp hc)
          · exact hnd.1 hq
        · intro s hs y hy
          exact (leaf_link hf1 ha1 hin hn1 hp1 hz _ hmaps hs hy).trans (leaf_congr hm hs hy)
        · intro b u hb
          exact (hat2 b u).mpr (Or.inl ((hat1 b u).mpr hb))
        · intro u hu
          cases hu
          exact (hat2 _ _).mpr (Or.inr ⟨rfl, rfl⟩)

/-- `walk` changes no entry, and what it finds is the slot of the page of `va`. -/
theorem walk_grows (h : TableState L k roots) (hr : r ∈ roots) (hva : va < maxva) (alloc : Bool) :
    Ensures (walk r va alloc) (fun res k' => TableState L k' roots ∧ Grows k k' roots ∧
      ∀ ref, res = some ref → leafRef k'.mem r (va / 4096) = some ref) k := by
  have ha : At k.mem roots (.root r) r := ⟨hr, rfl⟩
  unfold walk
  rw [if_neg (not_le.mpr hva)]
  apply (walkLevel_grows h ha rfl va 2 alloc).bind
  rintro res1 k1 ⟨h1, hg1, hres1⟩
  cases res1 with
  | none => exact .of_pure ⟨h1, hg1, by simp⟩
  | some t =>
    have hc1 := hres1 t rfl
    apply (walkLevel_grows h1 hc1 rfl va 1 alloc).bind
    rintro res2 k2 ⟨h2, hg2, hres2⟩
    have hg := hg1.trans hg2
    cases res2 with
    | none => exact .of_pure ⟨h2, hg, by simp⟩
    | some u =>
      have hc2 := hres2 u rfl
      rw [px_two hva, px_one] at hc2
      refine .of_pure ⟨h2, hg, ?_⟩
      intro ref href
      cases href
      rw [px_zero]
      exact leafRef_of_at hc2

theorem vpn_lt (hva : va < maxva) : va / 4096 < vpnLimit := by
  rw [maxva_eq] at hva
  unfold vpnLimit
  omega

/-- After a successful walk, another one ends at the same slot exactly when it is for the
same page. -/
theorem walk_slot_iff (h : TableState L k roots) (hr : r ∈ roots) {va' : ℕ} (hva : va < maxva)
    (hva' : va' < maxva) {alloc alloc' : Bool} {slot : PteRef} {res : Option PteRef}
    (hw : walk r va alloc k = .ok (some slot, k')) (hw' : walk r va' alloc' k' = .ok (res, k'')) :
    res = some slot ↔ va / pgsize = va' / pgsize := by
  obtain ⟨h1, -, hs⟩ := (walk_grows h hr hva alloc).unique hw
  obtain ⟨h2, hg, hs'⟩ := (walk_grows h1 hr hva' alloc').unique hw'
  have hslot := hs slot rfl
  constructor
  · intro hres
    exact leafRef_inj h2.forest hr (vpn_lt hva) (vpn_lt hva')
      (hg.leafRef hr (vpn_lt hva) hslot) (hs' slot hres)
  · intro hpage
    unfold pgsize at hpage
    rw [hpage] at hslot
    rw [walk_of_leafRef hva' alloc' hslot] at hw'
    cases hw'
    rfl

/-! ## Mapping a range -/

/-- The map `f` after `n` pages from the virtual page `v` on were mapped to the physical
pages from `pa` on. -/
def mapRange (f : ℕ → Pte) (v pa : ℕ) (perm : Pte) (n : ℕ) : ℕ → Pte := fun x =>
  if v ≤ x ∧ x < v + n then pa2pte (pa + (x - v) * pgsize) ||| perm ||| pteV else f x

section MapRange

variable (f : ℕ → Pte) (perm : Pte)

@[simp] theorem mapRange_zero : mapRange f v pa perm 0 = f := by
  funext x
  unfold mapRange
  rw [if_neg (by omega)]

theorem mapRange_outside (h : x < v ∨ v + n ≤ x) : mapRange f v pa perm n x = f x := by
  unfold mapRange
  rw [if_neg (by omega)]

/-- The first page of the range, then the rest of it. -/
theorem mapRange_succ :
    mapRange f v pa perm (n + 1) x =
      mapRange (Function.update f v (pa2pte pa ||| perm ||| pteV)) (v + 1) (pa + pgsize) perm n
        x := by
  unfold mapRange
  by_cases hx : x = v
  · subst hx
    simp
  · by_cases hin : v + 1 ≤ x ∧ x < v + 1 + n
    · rw [if_pos hin, if_pos (by omega)]
      have : pa + pgsize + (x - (v + 1)) * pgsize = pa + (x - v) * pgsize := by
        rw [show x - v = x - (v + 1) + 1 by omega, Nat.add_mul]
        omega
      rw [this]
    · rw [if_neg hin, if_neg (by omega), Function.update_of_ne hx]

/-- The entries of a range point at consecutive pages, with the permissions given. -/
theorem mapRange_maps {i : ℕ} (hi : i < n) (hpa : pa % pgsize = 0)
    (hb : pa + n * pgsize ≤ 2 ^ 56) (hperm : ∀ j, 10 ≤ j → pteBit j perm = false) :
    Maps (mapRange f v pa perm n (v + i)) (pa + i * pgsize) ∧
      pteFlags (mapRange f v pa perm n (v + i)) = perm ||| pteV := by
  have he : mapRange f v pa perm n (v + i) = pa2pte (pa + i * pgsize) ||| perm ||| pteV := by
    unfold mapRange
    rw [if_pos (by omega), Nat.add_sub_cancel_left]
  rw [he]
  unfold pgsize at hpa hb ⊢
  refine ⟨⟨by simp, ?_⟩, ?_⟩
  · have hc : pte2pa (pa2pte (pa + i * 4096) ||| perm ||| pteV) =
        pte2pa (pa2pte (pa + i * 4096)) := by
      apply pte2pa_congr
      intro j hj
      have : ¬ j = 0 := by omega
      simp [hperm j hj, this]
    rw [hc]
    exact pte2pa_pa2pte (by omega) (by omega)
  · apply pte_ext
    intro j _
    by_cases hj : j < 10
    · simp [hj]
    · have : ¬ j = 0 := by omega
      simp [hj, hperm j (by omega), this]

end MapRange

/-- From `k` to `k'`, `n` pages of the table rooted at `r` were mapped, and no other entry
of any table has changed. -/
def RangeMapped (k k' : Kernel) (roots : Finset ℕ) (r v pa : ℕ) (perm : Pte) (n : ℕ) : Prop :=
  ∀ s ∈ roots, ∀ x < vpnLimit, leaf k'.mem s x =
    if s = r then mapRange (leaf k.mem r) v pa perm n x else leaf k.mem s x

theorem TableState.setLeaf (h : TableState L k roots) (hr : r ∈ roots) (hv : v < vpnLimit)
    (ht : leafTable k.mem r v = some t) (w : Pte) :
    TableState L (k.setMem (k.mem.setWord t (vpn0 v) w)) roots := by
  have htab : ∀ x, IsTable (k.mem.setWord t (vpn0 v) w) roots x ↔ IsTable k.mem roots x :=
    fun x => exists_congr fun a => at_setLeaf h.forest hr hv ht w a x
  refine ⟨h.forest.setLeaf hr hv ht w, fun x hx => h.pages x ((htab x).mp hx), h.nodup, ?_⟩
  intro p hp
  exact ⟨(h.free p hp).1, fun hc => (h.free p hp).2 ((htab p).mp hc)⟩

/-- One round of `mappages` on a page that is not mapped. -/
theorem mapPage_maps (h : TableState L k roots) (hr : r ∈ roots) (hva : va < maxva)
    (hnew : pteValid (leaf k.mem r (va / 4096)) = false) (perm : Pte) :
    Ensures (mapPage r va pa perm) (fun done k' => TableState L k' roots ∧
      RangeMapped k k' roots r (va / 4096) pa perm (if done then 1 else 0)) k := by
  have hv := vpn_lt hva
  unfold mapPage
  apply (walk_grows h hr hva true).bind
  rintro res k1 ⟨h1, hg, hres⟩
  cases res with
  | none =>
    refine .of_pure ⟨h1, ?_⟩
    intro s hs x hx
    rw [hg.leaves s hs x hx]
    by_cases hsr : s = r
    · simp [hsr]
    · simp [hsr]
  | some ref =>
    obtain ⟨ht, hi⟩ := leafRef_eq_some.mp (hres ref rfl)
    obtain ⟨table, index⟩ := ref
    obtain rfl : index = vpn0 (va / 4096) := hi
    simp only at ht
    have hword : k1.mem.word table (vpn0 (va / 4096)) = leaf k.mem r (va / 4096) := by
      rw [← hg.leaves r hr _ hv]
      simp [leaf, ht]
    refine .bind_of_run (a := k1.mem.word table (vpn0 (va / 4096))) (t := k1) rfl ?_
    rw [if_neg (by simp [hword, hnew])]
    refine .of_run (a := true) rfl ⟨h1.setLeaf hr hv ht _, ?_⟩
    intro s hs x hx
    refine (leaf_setLeaf h1.forest hr hv ht _ hs hx).trans ?_
    rw [hg.leaves s hs x hx]
    by_cases hsr : s = r
    · subst hsr
      rw [if_pos rfl, if_pos rfl, mapRange_succ, mapRange_zero, Function.update_apply]
      simp
    · simp [hsr]

/-- The loop of `mappages`: all the pages of the range are mapped, or the first few. -/
theorem mappagesLoop_maps (perm : Pte) (h : TableState L k roots) (hr : r ∈ roots)
    (hva : va + n * 4096 < maxva)
    (hnew : ∀ i ≤ n, pteValid (leaf k.mem r (va / 4096 + i)) = false) :
    Ensures (mappagesLoop r perm n va pa) (fun done k' => TableState L k' roots ∧
      ∃ m, (if done then m = n + 1 else m ≤ n) ∧
        RangeMapped k k' roots r (va / 4096) pa perm m) k := by
  induction n generalizing k va pa with
  | zero =>
    apply (mapPage_maps h hr (by omega) (hnew 0 le_rfl) perm).mono
    rintro done k' ⟨h', hm⟩
    refine ⟨h', _, ?_, hm⟩
    cases done <;> simp
  | succ n ih =>
    unfold mappagesLoop
    apply (mapPage_maps h hr (by omega) (hnew 0 (Nat.zero_le _)) perm).bind
    rintro done k1 ⟨h1, hm1⟩
    cases done with
    | false => exact .of_pure ⟨h1, 0, Nat.zero_le _, hm1⟩
    | true =>
      rw [if_pos rfl]
      have hnext : (va + pgsize) / 4096 = va / 4096 + 1 := by
        unfold pgsize
        omega
      have hfirst : ∀ x < vpnLimit, leaf k1.mem r x =
          mapRange (leaf k.mem r) (va / 4096) pa perm 1 x := by
        intro x hx
        simpa using hm1 r hr x hx
      have hnew1 : ∀ i ≤ n, pteValid (leaf k1.mem r ((va + pgsize) / 4096 + i)) = false := by
        intro i hi
        have hlt : va / 4096 + 1 + i < vpnLimit := by
          rw [maxva_eq] at hva
          unfold vpnLimit
          omega
        rw [hnext, hfirst _ hlt, mapRange_outside _ _ (Or.inr (by omega))]
        have := hnew (i + 1) (by omega)
        rwa [show va / 4096 + (i + 1) = va / 4096 + 1 + i by omega] at this
      have hva1 : va + pgsize + n * 4096 < maxva := by
        unfold pgsize
        omega
      apply (ih h1 hva1 hnew1).mono
      rintro done k2 ⟨h2, m, hm, hm2⟩
      refine ⟨h2, m + 1, ?_, ?_⟩
      · cases done
        · simpa using hm
        · simpa using hm
      · intro s hs x hx
        rw [hm2 s hs x hx, hnext]
        by_cases hsr : s = r
        · subst hsr
          rw [if_pos rfl, if_pos rfl, mapRange_succ]
          unfold mapRange
          split_ifs with hin
          · rfl
          · rw [hfirst x hx, mapRange_succ, mapRange_zero]
        · rw [if_neg hsr, if_neg hsr, hm1 s hs x hx, if_neg hsr]

/-- Number of pages that `size` bytes from `va` on lie in. -/
def pagesOf (va size : ℕ) : ℕ := (va + size - 1) / pgsize - va / pgsize + 1

/-- `mappages` on a range none of whose pages is mapped. -/
theorem mappages_maps (pa : ℕ) (perm : Pte) {size : ℕ} (h : TableState L k roots) (hr : r ∈ roots)
    (hsize : 0 < size) (hva : va + size ≤ maxva)
    (hnew : ∀ i < pagesOf va size, pteValid (leaf k.mem r (va / pgsize + i)) = false) :
    Ensures (mappages r va size pa perm) (fun done k' => TableState L k' roots ∧
      ∃ n, (if done then n = pagesOf va size else n < pagesOf va size) ∧
        RangeMapped k k' roots r (va / pgsize) pa perm n) k := by
  have hcount : (pgrounddown (va + size - 1) - pgrounddown va) / pgsize + 1 =
      pagesOf va size := by
    unfold pgrounddown pagesOf pgsize
    omega
  have hstart : pgrounddown va / 4096 = va / 4096 := by
    unfold pgrounddown pgsize
    omega
  have hend : pgrounddown va + (pgrounddown (va + size - 1) - pgrounddown va) / pgsize * 4096 <
      maxva := by
    unfold pgrounddown pgsize
    omega
  unfold mappages
  rw [if_neg (by omega)]
  apply (mappagesLoop_maps perm h hr hend ?_).mono
  · rintro done k' ⟨h', n, hn, hm⟩
    rw [hstart] at hm
    refine ⟨h', n, ?_, hm⟩
    cases done
    · simp only [Bool.false_eq_true, if_false] at hn ⊢
      omega
    · simp only [if_true] at hn ⊢
      omega
  · intro i hi
    rw [hstart]
    exact hnew i (by omega)

end XV6AndConcurrency.VirtualMemory
