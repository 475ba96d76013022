import XV6AndConcurrency.Foundations.PointSums
import XV6AndConcurrency.VirtualMemory.Leaves

/-!
# Who owns a page

A page is owned once by every user entry that maps it, once by the table it is a
page of, and by the `held` references: trapframes, pipes, argument buffers, and
pages that a function has allocated and not yet handed on. `Balanced` says that
the allocator's books agree with the owners. Moving a reference between two kinds
of owner leaves the number of owners alone, so most writes keep the balance for
one reason, `Balanced.of_owners`.
-/

namespace XV6AndConcurrency.VirtualMemory

open Foundations

/-- The virtual pages below the trapframe, those that user memory may take. -/
def userVpns : ℕ := 67108862

theorem userVpns_lt : userVpns < vpnLimit := by decide

/-- Number of user entries of the tables that map the page `p`. -/
def mapCount (m : Memory) (roots : Finset ℕ) (p : ℕ) : ℕ :=
  ∑ x ∈ roots ×ˢ Finset.range userVpns, if Maps (leaf m x.1 x.2) p then 1 else 0

open Classical in
/-- Number of owners of a page. -/
noncomputable def owners (m : Memory) (roots : Finset ℕ) (held : ℕ → ℕ) (p : ℕ) : ℕ :=
  mapCount m roots p + held p + if IsTable m roots p then 1 else 0

/-- The reference counts and the free list agree with the owners. -/
structure Balanced (L : Layout) (k : Kernel) (roots : Finset ℕ) (held : ℕ → ℕ) : Prop where
  forest : Forest k.mem roots
  nodup : k.freelist.Nodup
  busy : ∀ p, 0 < owners k.mem roots held p →
    IsPage L p ∧ k.refs p = owners k.mem roots held p
  free : ∀ p, p ∈ k.freelist ↔ IsPage L p ∧ owners k.mem roots held p = 0
  spent : ∀ p ∈ k.freelist, k.refs p ≤ 0
  alone : ∀ t, IsTable k.mem roots t → mapCount k.mem roots t = 0 ∧ held t = 0

theorem owners_congr {m m' : Memory} {roots roots' : Finset ℕ} {held held' : ℕ → ℕ} {p : ℕ}
    (h : mapCount m' roots' p + held' p = mapCount m roots p + held p)
    (ht : IsTable m' roots' p ↔ IsTable m roots p) :
    owners m' roots' held' p = owners m roots held p := by
  unfold owners
  rw [h]
  by_cases hc : IsTable m roots p
  · rw [if_pos hc, if_pos (ht.mpr hc)]
  · rw [if_neg hc, if_neg (fun hm => hc (ht.mp hm))]

/-! ## Counting entries -/

section MapCount

variable {m m' : Memory} {roots : Finset ℕ} {r v p : ℕ}

theorem mapCount_congr
    (h : ∀ s ∈ roots, ∀ x < userVpns, Maps (leaf m' s x) p ↔ Maps (leaf m s x) p) :
    mapCount m' roots p = mapCount m roots p := by
  apply Finset.sum_congr rfl
  rintro ⟨s, x⟩ hx
  simp only [Finset.mem_product, Finset.mem_range] at hx
  simp only [h s hx.1 x hx.2]

/-- Changing one entry moves the counts of the pages it mapped and maps now. -/
theorem mapCount_point {w : Pte} (hr : r ∈ roots) (hv : v < userVpns)
    (h : ∀ s ∈ roots, ∀ x < userVpns,
      leaf m' s x = if s = r ∧ x = v then w else leaf m s x) :
    mapCount m' roots p + (if Maps (leaf m r v) p then 1 else 0) =
      mapCount m roots p + if Maps w p then 1 else 0 := by
  have hmem : (r, v) ∈ roots ×ˢ Finset.range userVpns := by simp [hr, hv]
  have hw : leaf m' r v = w := by simp [h r hr v hv]
  have hs := sum_add_point (f := fun x => if Maps (leaf m x.1 x.2) p then 1 else 0)
    (g := fun x => if Maps (leaf m' x.1 x.2) p then 1 else 0) hmem (by
      rintro ⟨s, x⟩ hx hne
      simp only [Finset.mem_product, Finset.mem_range] at hx
      have hc : ¬(s = r ∧ x = v) := fun hc => hne (by rw [hc.1, hc.2])
      simp [h s hx.1 x hx.2, hc])
  simp only [hw] at hs
  exact hs

theorem mapCount_pos_iff : 0 < mapCount m roots p ↔
    ∃ s ∈ roots, ∃ x < userVpns, Maps (leaf m s x) p := by
  rw [mapCount, Finset.sum_pos_iff]
  constructor
  · rintro ⟨⟨s, x⟩, hx, hp⟩
    simp only [Finset.mem_product, Finset.mem_range] at hx
    refine ⟨s, hx.1, x, hx.2, ?_⟩
    by_contra hc
    simp [hc] at hp
  · rintro ⟨s, hs, x, hx, hm⟩
    exact ⟨(s, x), by simp [hs, hx], by simp [hm]⟩

theorem mapCount_pos (hr : r ∈ roots) (hv : v < userVpns) (h : Maps (leaf m r v) p) :
    0 < mapCount m roots p :=
  mapCount_pos_iff.mpr ⟨r, hr, v, hv, h⟩

theorem mapCount_insert (hp : r ∉ roots) (h : ∀ x < userVpns, pteValid (leaf m r x) = false) :
    mapCount m (insert r roots) p = mapCount m roots p := by
  have hz : ∑ x ∈ Finset.range userVpns, (if Maps (leaf m r x) p then 1 else 0) = 0 := by
    apply Finset.sum_eq_zero
    intro x hx
    rw [if_neg (not_maps_of_not_valid (h x (Finset.mem_range.mp hx)) p)]
  unfold mapCount
  rw [Finset.sum_product, Finset.sum_product, Finset.sum_insert hp, hz, Nat.zero_add]

theorem mapCount_erase (hr : r ∈ roots) (h : ∀ x < userVpns, pteValid (leaf m r x) = false) :
    mapCount m (roots.erase r) p = mapCount m roots p := by
  have := mapCount_insert (p := p) (Finset.notMem_erase r roots) h
  rw [Finset.insert_erase hr] at this
  exact this.symm

end MapCount

namespace Balanced

variable {L : Layout} {k : Kernel} {roots : Finset ℕ} {held : ℕ → ℕ} {p t r v : ℕ}

/-- A write that leaves every page as many owners as before keeps the balance. -/
theorem of_owners (h : Balanced L k roots held) {m' : Memory} {roots' : Finset ℕ}
    {held' : ℕ → ℕ} (hf : Forest m' roots')
    (ho : ∀ p, owners m' roots' held' p = owners k.mem roots held p)
    (ha : ∀ t, IsTable m' roots' t → mapCount m' roots' t = 0 ∧ held' t = 0) :
    Balanced L (k.setMem m') roots' held' where
  forest := hf
  nodup := h.nodup
  busy p hp := by
    rw [Kernel.setMem_mem, ho] at hp ⊢
    exact h.busy p hp
  free p := by
    rw [Kernel.setMem_mem, ho]
    exact h.free p
  spent := h.spent
  alone := ha

/-- A free page is owned by nobody. -/
theorem owners_eq_zero (h : Balanced L k roots held) (hp : p ∈ k.freelist) :
    owners k.mem roots held p = 0 := ((h.free p).mp hp).2

theorem not_free_of_owned (h : Balanced L k roots held) (hp : 0 < owners k.mem roots held p) :
    p ∉ k.freelist := fun hm => by
  have := h.owners_eq_zero hm
  omega

theorem owners_of_table (h : Balanced L k roots held) (ht : IsTable k.mem roots t) :
    owners k.mem roots held t = 1 := by
  have := h.alone t ht
  simp [owners, ht, this.1, this.2]

theorem isPage_of_table (h : Balanced L k roots held) (ht : IsTable k.mem roots t) :
    IsPage L t := (h.busy t (by rw [h.owners_of_table ht]; omega)).1

theorem not_table_of_held (h : Balanced L k roots held) (hp : 0 < held p) :
    ¬ IsTable k.mem roots p := fun ht => by
  have := (h.alone p ht).2
  omega

theorem not_table_of_mapped (h : Balanced L k roots held) (hp : 0 < mapCount k.mem roots p) :
    ¬ IsTable k.mem roots p := fun ht => by
  have := (h.alone p ht).1
  omega

theorem owners_of_not_table (hp : ¬ IsTable k.mem roots p) :
    owners k.mem roots held p = mapCount k.mem roots p + held p := by
  simp [owners, hp]

theorem isPage_of_held (h : Balanced L k roots held) (hp : 0 < held p) : IsPage L p := by
  apply (h.busy p _).1
  unfold owners
  omega

theorem isPage_of_mapped (h : Balanced L k roots held) (hp : 0 < mapCount k.mem roots p) :
    IsPage L p := by
  apply (h.busy p _).1
  unfold owners
  omega

/-- Writing to pages that are not page-table pages. -/
theorem write_data (h : Balanced L k roots held) {m' : Memory}
    (hm : ∀ t, IsTable k.mem roots t → m' t = k.mem t) :
    Balanced L (k.setMem m') roots held := by
  have hc : ∀ p, mapCount m' roots p = mapCount k.mem roots p := by
    intro p
    apply mapCount_congr
    intro s hs x hx
    rw [leaf_congr hm hs (hx.trans userVpns_lt)]
  apply h.of_owners (h.forest.congr hm)
  · intro p
    exact owners_congr (by rw [hc]) (isTable_congr hm p)
  · intro t ht
    rw [hc]
    exact h.alone t ((isTable_congr hm t).mp ht)

/-! ## Allocation and release -/

theorem free_not_table (h : Balanced L k roots held) (hp : p ∈ k.freelist) :
    ¬ IsTable k.mem roots p := fun ht => by
  have := h.owners_of_table ht
  have := h.owners_eq_zero hp
  omega

theorem owners_bump (p q : ℕ) : owners k.mem roots (bump held p) q =
    owners k.mem roots held q + if q = p then 1 else 0 := by
  simp only [owners, bump_apply]
  omega

theorem kalloc (h : Balanced L k roots held) {next : List ℕ} (hk : k.freelist = p :: next) :
    Balanced L (k.take p next) roots (bump held p) := by
  have hp : p ∈ k.freelist := by simp [hk]
  have hm : ∀ t, IsTable k.mem roots t → (k.take p next).mem t = k.mem t := by
    intro t ht
    apply Memory.fill_of_ne
    rintro rfl
    exact h.free_not_table hp ht
  have hw := h.write_data hm
  have ho : ∀ q, owners (k.take p next).mem roots (bump held p) q =
      owners (k.take p next).mem roots held q + if q = p then 1 else 0 := by
    intro q
    exact owners_bump (k := k.take p next) p q
  have hpz : owners (k.take p next).mem roots held p = 0 := by
    have := (hw.free p).mp hp
    exact this.2
  have hpage := ((h.free p).mp hp).1
  have hnd : p ∉ next ∧ next.Nodup := by
    have := h.nodup
    rw [hk] at this
    exact List.nodup_cons.mp this
  have hrefs : ∀ q, IsPage L q → q ≠ p → (k.take p next).refs q = k.refs q := by
    intro q hq hne
    exact k.setRefs_refs_of_ne hpage.1 hq.1 hne 1
  refine ⟨hw.forest, hnd.2, ?_, ?_, ?_, ?_⟩
  · intro q hq
    rw [ho] at hq ⊢
    by_cases hqp : q = p
    · subst hqp
      refine ⟨hpage, ?_⟩
      rw [hpz]
      simp [Kernel.take, Kernel.refs, Kernel.setRefs]
    · rw [if_neg hqp] at hq ⊢
      obtain ⟨hqP, hqr⟩ := hw.busy q hq
      refine ⟨hqP, ?_⟩
      rw [hrefs q hqP hqp]
      exact hqr
  · intro q
    rw [ho]
    have hfree := hw.free q
    rw [show (k.setMem (k.take p next).mem).freelist = p :: next from hk] at hfree
    by_cases hqp : q = p
    · subst hqp
      simp [Kernel.take, hnd.1]
    · rw [if_neg hqp, Nat.add_zero]
      simpa [hqp, Kernel.take] using hfree
  · intro q hq
    have hqk : q ∈ k.freelist := by
      rw [hk]
      exact List.mem_cons_of_mem _ hq
    have hne : q ≠ p := fun hc => hnd.1 (hc ▸ hq)
    rw [hrefs q ((h.free q).mp hqk).1 hne]
    exact h.spent q hqk
  · intro t ht
    obtain ⟨ht1, ht2⟩ := hw.alone t ht
    refine ⟨ht1, ?_⟩
    rw [bump_apply, ht2, if_neg]
    rintro rfl
    have := hw.owners_of_table ht
    change owners (k.take t next).mem roots held t = 1 at this
    omega

theorem release (h : Balanced L k roots held) (hp : 0 < held p) :
    Balanced L (k.release p) roots (drop held p) := by
  have hnt := h.not_table_of_held hp
  have hpage := h.isPage_of_held hp
  have hown : 0 < owners k.mem roots held p := by
    unfold owners
    omega
  have hrefs := (h.busy p hown).2
  have hm : ∀ t, IsTable k.mem roots t → (k.release p).mem t = k.mem t := by
    intro t ht
    apply k.release_mem_of_ne
    rintro rfl
    exact hnt ht
  have hw := h.write_data hm
  have ho : ∀ q, owners (k.release p).mem roots held q =
      owners (k.release p).mem roots (drop held p) q + if q = p then 1 else 0 := by
    intro q
    rw [← owners_bump, bump_drop held p hp]
  have hpw : (k.refs p : ℤ) = owners (k.release p).mem roots held p :=
    (hw.busy p (by
      have := (hw.free p).not.mp (h.not_free_of_owned hown)
      simp only [not_and] at this
      exact Nat.pos_of_ne_zero (this hpage))).2
  have hr : ∀ q, IsPage L q → q ≠ p → (k.release p).refs q = k.refs q := fun q hq hne =>
    k.release_refs_of_ne hpage.1 hq.1 hne
  have hnf := h.not_free_of_owned hown
  refine ⟨hw.forest, ?_, ?_, ?_, ?_, ?_⟩
  · rw [k.release_freelist]
    split_ifs
    · exact h.nodup
    · exact List.nodup_cons.mpr ⟨hnf, h.nodup⟩
  · intro q hq
    have hoq := ho q
    by_cases hqp : q = p
    · subst hqp
      rw [if_pos rfl] at hoq
      refine ⟨hpage, ?_⟩
      rw [k.release_refs_self, hpw, hoq]
      push_cast
      omega
    · rw [if_neg hqp, Nat.add_zero] at hoq
      rw [← hoq] at hq ⊢
      obtain ⟨hqP, hqr⟩ := hw.busy q hq
      exact ⟨hqP, by rw [hr q hqP hqp]; exact hqr⟩
  · intro q
    have hoq := ho q
    have hfree := hw.free q
    rw [k.release_freelist]
    by_cases hqp : q = p
    · subst hqp
      rw [if_pos rfl] at hoq
      split_ifs with h1
      · simp only [hnf, false_iff, not_and]
        intro _
        omega
      · simp only [List.mem_cons, true_or, true_iff]
        exact ⟨hpage, by omega⟩
    · rw [if_neg hqp, Nat.add_zero] at hoq
      rw [← hoq]
      split_ifs
      · exact hfree
      · simpa [hqp] using hfree
  · intro q hq
    rw [k.release_freelist] at hq
    by_cases hqp : q = p
    · subst hqp
      split_ifs at hq with h1
      · exact absurd hq hnf
      · rw [k.release_refs_self]
        omega
    · have hqk : q ∈ k.freelist := by
        split_ifs at hq
        · exact hq
        · simpa [hqp] using hq
      rw [hr q ((h.free q).mp hqk).1 hqp]
      exact h.spent q hqk
  · intro t ht
    obtain ⟨h1, h2⟩ := hw.alone t ht
    refine ⟨h1, ?_⟩
    rw [drop_apply, h2]
    omega

/-- `reference_count[p] += 1` for a page that somebody owns. -/
theorem retain (h : Balanced L k roots held) (hp : 0 < mapCount k.mem roots p) :
    Balanced L (k.setRefs p (k.refs p + 1)) roots (bump held p) := by
  have hpage := h.isPage_of_mapped hp
  have hnt := h.not_table_of_mapped hp
  have hown : 0 < owners k.mem roots held p := by
    unfold owners
    omega
  have hnf := h.not_free_of_owned hown
  have hr : ∀ q, IsPage L q → q ≠ p → (k.setRefs p (k.refs p + 1)).refs q = k.refs q :=
    fun q hq hne => k.setRefs_refs_of_ne hpage.1 hq.1 hne _
  refine ⟨h.forest, h.nodup, ?_, ?_, ?_, ?_⟩
  · intro q hq
    rw [Kernel.setRefs_mem, owners_bump] at hq ⊢
    by_cases hqp : q = p
    · subst hqp
      refine ⟨hpage, ?_⟩
      rw [k.setRefs_refs_self, (h.busy q hown).2, if_pos rfl]
      push_cast
      omega
    · rw [if_neg hqp, Nat.add_zero] at hq ⊢
      obtain ⟨hqP, hqr⟩ := h.busy q hq
      exact ⟨hqP, by rw [hr q hqP hqp]; exact hqr⟩
  · intro q
    rw [Kernel.setRefs_mem, Kernel.setRefs_freelist, owners_bump]
    by_cases hqp : q = p
    · subst hqp
      simp [hnf]
    · rw [if_neg hqp, Nat.add_zero]
      exact h.free q
  · intro q hq
    have hne : q ≠ p := fun hc => hnf (hc ▸ hq)
    rw [hr q ((h.free q).mp hq).1 hne]
    exact h.spent q hq
  · intro t ht
    obtain ⟨h1, h2⟩ := h.alone t ht
    refine ⟨h1, ?_⟩
    rw [bump_apply, h2, if_neg]
    rintro rfl
    exact hnt ht

/-! ## Writing page tables -/

/-- Writing a user entry hands the reference of the page it mapped to `held`, and
takes the one of the page it maps now from there. -/
theorem setLeaf (h : Balanced L k roots held) (hr : r ∈ roots) (hv : v < userVpns)
    (ht : leafTable k.mem r v = some t) {w : Pte} {held' : ℕ → ℕ}
    (hmove : ∀ p, held' p + (if Maps w p then 1 else 0) =
      held p + if Maps (leaf k.mem r v) p then 1 else 0) :
    Balanced L (k.setMem (k.mem.setWord t (vpn0 v) w)) roots held' := by
  have hl := hv.trans userVpns_lt
  have htab : ∀ x, IsTable (k.mem.setWord t (vpn0 v) w) roots x ↔ IsTable k.mem roots x :=
    fun x => exists_congr fun a => at_setLeaf h.forest hr hl ht w a x
  have hc : ∀ p, mapCount (k.mem.setWord t (vpn0 v) w) roots p + held' p =
      mapCount k.mem roots p + held p := by
    intro p
    have hpt := mapCount_point (p := p) (w := w) hr hv
      (fun s hs x hx => leaf_setLeaf h.forest hr hl ht w hs (hx.trans userVpns_lt))
    have := hmove p
    omega
  apply h.of_owners (h.forest.setLeaf hr hl ht w)
  · intro p
    exact owners_congr (hc p) (htab p)
  · intro x hx
    have := h.alone x ((htab x).mp hx)
    have := hc x
    omega

/-- The entries of the trampoline and the trapframe own nothing. -/
theorem setTop (h : Balanced L k roots held) (hr : r ∈ roots) (hv : userVpns ≤ v)
    (hl : v < vpnLimit) (ht : leafTable k.mem r v = some t) (w : Pte) :
    Balanced L (k.setMem (k.mem.setWord t (vpn0 v) w)) roots held := by
  have htab : ∀ x, IsTable (k.mem.setWord t (vpn0 v) w) roots x ↔ IsTable k.mem roots x :=
    fun x => exists_congr fun a => at_setLeaf h.forest hr hl ht w a x
  have hc : ∀ p, mapCount (k.mem.setWord t (vpn0 v) w) roots p = mapCount k.mem roots p := by
    intro p
    apply mapCount_congr
    intro s hs x hx
    rw [leaf_setLeaf h.forest hr hl ht w hs (hx.trans userVpns_lt), if_neg (by omega)]
  apply h.of_owners (h.forest.setLeaf hr hl ht w)
  · intro p
    exact owners_congr (by rw [hc]) (htab p)
  · intro x hx
    rw [hc]
    exact h.alone x ((htab x).mp hx)

/-- The entry that points at a page-table page. -/
theorem maps_link (hp : IsPage L p) : Maps (pa2pte p ||| pteV) p := by
  refine ⟨by simp, ?_⟩
  apply pte2pa_pa2pte_or hp
  intro i hi
  simp
  omega

theorem pteFlags_link (p : ℕ) : pteFlags (pa2pte p ||| pteV) = pteV := by
  apply pte_ext
  intro i _
  by_cases hi : i < 10
  · simp [hi]
  · have : ¬ i = 0 := by omega
    simp [hi, this]

/-- A zeroed page in hand becomes a page-table page. -/
theorem link (h : Balanced L k roots held) {a : Position} {i : ℕ} (ha : At k.mem roots a t)
    (hin : a.inner = true) (hi : i < 512) (hnew : nextTable k.mem t i = none)
    (hz : ∀ j, k.mem.word p j = 0#64) (hp : held p = 1) (hmp : mapCount k.mem roots p = 0) :
    Balanced L (k.setMem (k.mem.setWord t i (pa2pte p ||| pteV))) roots (drop held p) := by
  have hnt := h.not_table_of_held (p := p) (by omega)
  have hw := maps_link (h.isPage_of_held (p := p) (by omega))
  have hc : ∀ q, mapCount (k.mem.setWord t i (pa2pte p ||| pteV)) roots q =
      mapCount k.mem roots q := by
    intro q
    apply mapCount_congr
    intro s hs x hx
    rw [leaf_link h.forest ha hin hnew hnt hz _ hw hs (hx.trans userVpns_lt)]
  have htab := isTable_link h.forest ha hin hi hnew hnt hz _ hw
  apply h.of_owners (h.forest.link ha hin hi hnew hnt hz _ hw (pteFlags_link p))
  · intro q
    by_cases hq : q = p
    · subst hq
      unfold owners
      rw [hc, if_pos ((htab q).mpr (Or.inr rfl)), if_neg hnt, drop_apply, if_pos rfl]
      omega
    · apply owners_congr
      · rw [hc, drop_apply, if_neg hq, Nat.sub_zero]
      · rw [htab]
        simp [hq]
  · intro x hx
    rw [hc, drop_apply]
    rcases (htab x).mp hx with hx | rfl
    · have := h.alone x hx
      omega
    · simp [hmp, hp]

/-- A drained page-table page is taken out of its table and back in hand. -/
theorem unlink (h : Balanced L k roots held) {a : Position} {i : ℕ} (ha : At k.mem roots a t)
    (hin : a.inner = true) (hi : i < 512) (hnext : nextTable k.mem t i = some p)
    (hd : Drained k.mem p) (hclean : ∀ x < vpnLimit, pteValid (leaf k.mem a.base x) = false) :
    Balanced L (k.setMem (k.mem.setWord t i 0#64)) roots (bump held p) := by
  have hpt : IsTable k.mem roots p := ⟨_, at_child ha hin hi hnext⟩
  have hc : ∀ q, mapCount (k.mem.setWord t i 0#64) roots q = mapCount k.mem roots q := by
    intro q
    apply mapCount_congr
    intro s hs x hx
    have hxl := hx.trans userVpns_lt
    by_cases hsb : s = a.base
    · subst hsb
      have h1 := hclean x hxl
      have h2 := not_valid_leaf_unlink h.forest ha hin hnext hs hxl h1
      simp [Maps, h1, h2]
    · rw [leaf_unlink_of_ne h.forest ha hin hnext hs hxl hsb]
  have htab := isTable_unlink h.forest ha hin hi hnext hd
  apply h.of_owners (h.forest.unlink ha hin hi hnext hd)
  · intro q
    by_cases hq : q = p
    · subst hq
      have hn : ¬ IsTable (k.mem.setWord t i 0#64) roots q := fun hm => ((htab q).mp hm).2 rfl
      unfold owners
      rw [hc, if_neg hn, if_pos hpt, bump_apply, if_pos rfl]
      omega
    · apply owners_congr
      · rw [hc, bump_apply, if_neg hq, Nat.add_zero]
      · rw [htab]
        simp [hq]
  · intro x hx
    obtain ⟨hx, hxp⟩ := (htab x).mp hx
    rw [hc, bump_apply, if_neg hxp, Nat.add_zero]
    exact h.alone x hx

/-- A zeroed page in hand becomes the root of an empty table. -/
theorem insertRoot (h : Balanced L k roots held) (hz : ∀ j, k.mem.word p j = 0#64)
    (hp : held p = 1) (hmp : mapCount k.mem roots p = 0) :
    Balanced L k (insert p roots) (drop held p) := by
  have hnt := h.not_table_of_held (p := p) (by omega)
  have hnr : p ∉ roots := fun hr => hnt ⟨.root p, hr, rfl⟩
  have hc : ∀ q, mapCount k.mem (insert p roots) q = mapCount k.mem roots q := by
    intro q
    apply mapCount_insert hnr
    intro x hx
    rw [leaf_of_zero hz (hx.trans userVpns_lt)]
    exact pteValid_zero
  have htab : ∀ x, IsTable k.mem (insert p roots) x ↔ IsTable k.mem roots x ∨ x = p :=
    isTable_insert hz
  apply h.of_owners (h.forest.insert hnt hz)
  · intro q
    by_cases hq : q = p
    · subst hq
      unfold owners
      rw [hc, if_pos ((htab q).mpr (Or.inr rfl)), if_neg hnt, drop_apply, if_pos rfl]
      omega
    · apply owners_congr
      · rw [hc, drop_apply, if_neg hq, Nat.sub_zero]
      · rw [htab]
        simp [hq]
  · intro x hx
    rw [hc, drop_apply]
    rcases (htab x).mp hx with hx | rfl
    · have := h.alone x hx
      omega
    · simp [hmp, hp]

/-- A drained root is taken out of the set of tables and back in hand. -/
theorem eraseRoot (h : Balanced L k roots held) (hr : r ∈ roots) (hd : Drained k.mem r) :
    Balanced L k (roots.erase r) (bump held r) := by
  have hc : ∀ q, mapCount k.mem (roots.erase r) q = mapCount k.mem roots q := by
    intro q
    apply mapCount_erase hr
    intro x hx
    unfold leaf leafTable
    rw [hd.next_none (vpn2_lt (hx.trans userVpns_lt))]
    exact pteValid_zero
  have hrt : IsTable k.mem roots r := ⟨.root r, hr, rfl⟩
  have htab := isTable_erase h.forest hr hd
  apply h.of_owners (h.forest.erase hd)
  · intro q
    by_cases hq : q = r
    · subst hq
      have hn : ¬ IsTable k.mem (roots.erase q) q := fun hm => ((htab q).mp hm).2 rfl
      unfold owners
      rw [hc, if_neg hn, if_pos hrt, bump_apply, if_pos rfl]
      omega
    · apply owners_congr
      · rw [hc, bump_apply, if_neg hq, Nat.add_zero]
      · rw [htab]
        simp [hq]
  · intro x hx
    obtain ⟨hx, hxr⟩ := (htab x).mp hx
    rw [hc, bump_apply, if_neg hxr, Nat.add_zero]
    exact h.alone x hx

end Balanced

end XV6AndConcurrency.VirtualMemory
