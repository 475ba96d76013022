import XV6AndConcurrency.VirtualMemory.Mapping

/-!
# The sharing discipline

Copy-on-write rests on one fact: a page that some entry lets the hardware write
is mapped by that entry alone and owned by nobody else. `Sharing` states it
together with the fact that a table maps no page twice, and `Coherent` adds it to
the balance of the books. The functions of the kernel are specified against
`Coherent` from here on.
-/

namespace XV6AndConcurrency.VirtualMemory

open Foundations

/-- A writable page has one entry and no other owner, and no table maps a page twice. -/
structure Sharing (m : Memory) (roots : Finset ℕ) (held : ℕ → ℕ) : Prop where
  exclusive : ∀ {r v p}, r ∈ roots → v < userVpns → Maps (leaf m r v) p →
    pteWritable (leaf m r v) = true → pteCow (leaf m r v) = false ∧ held p = 0 ∧
      ∀ {s x}, s ∈ roots → x < userVpns → Maps (leaf m s x) p → s = r ∧ x = v
  inj : ∀ {r v x p}, r ∈ roots → v < userVpns → x < userVpns → Maps (leaf m r v) p →
    Maps (leaf m r x) p → v = x

/-- The entry `w'` maps nothing that `w` does not, and does not write more. -/
def Tamer (w w' : Pte) : Prop :=
  ∀ p, Maps w' p → Maps w p ∧
    (pteWritable w' = true → pteWritable w = true ∧ pteCow w' = pteCow w)

theorem Tamer.of_eq {w w' : Pte} (h : w' = w) : Tamer w w' := by
  subst h
  exact fun _ hp => ⟨hp, fun hw => ⟨hw, rfl⟩⟩

namespace Sharing

variable {m m' : Memory} {roots roots' : Finset ℕ} {held held' : ℕ → ℕ} {r v p : ℕ}

/-- Taking permissions and mappings away keeps the discipline. -/
theorem shrink (h : Sharing m roots held)
    (hm : ∀ s ∈ roots', ∀ x < userVpns, pteValid (leaf m' s x) = true →
      s ∈ roots ∧ Tamer (leaf m s x) (leaf m' s x))
    (hh : ∀ s ∈ roots', ∀ x < userVpns, ∀ p, Maps (leaf m' s x) p →
      pteWritable (leaf m' s x) = true → held p = 0 → held' p = 0) :
    Sharing m' roots' held' where
  exclusive := by
    intro s x p hs hx hp hw
    obtain ⟨hsr, ht⟩ := hm s hs x hx hp.1
    obtain ⟨hpm, hwm⟩ := ht p hp
    obtain ⟨hw1, hc1⟩ := hwm hw
    obtain ⟨hc, hz, hu⟩ := h.exclusive hsr hx hpm hw1
    refine ⟨hc1.trans hc, hh s hs x hx p hp hw hz, ?_⟩
    intro s' x' hs' hx' hp'
    obtain ⟨hsr', ht'⟩ := hm s' hs' x' hx' hp'.1
    exact hu hsr' hx' (ht' p hp').1
  inj := by
    intro s x y p hs hx hy hpx hpy
    obtain ⟨hsr, htx⟩ := hm s hs x hx hpx.1
    obtain ⟨-, hty⟩ := hm s hs y hy hpy.1
    exact h.inj hsr hx hy (htx p hpx).1 (hty p hpy).1

/-- Mapping a page in hand at `v`. A writable entry needs a page that nobody maps. -/
theorem setLeaf (h : Sharing m roots held) (hr : r ∈ roots) (hv : v < userVpns)
    {w : Pte} (hw : Maps w p) (hp : 0 < held p)
    (hfresh : ∀ x < userVpns, ¬ Maps (leaf m r x) p)
    (hwr : pteWritable w = true → pteCow w = false ∧ held' p = 0 ∧ mapCount m roots p = 0)
    (hh : ∀ q, q ≠ p → ¬ Maps (leaf m r v) q → held q = 0 → held' q = 0)
    (hl : ∀ s ∈ roots, ∀ x < userVpns,
      leaf m' s x = if s = r ∧ x = v then w else leaf m s x) :
    Sharing m' roots held' where
  exclusive := by
    intro s x q hs hx hq hwq
    rw [hl s hs x hx] at hq hwq ⊢
    by_cases hsx : s = r ∧ x = v
    · rw [if_pos hsx] at hq hwq ⊢
      obtain rfl : p = q := hw.2.symm.trans hq.2
      obtain ⟨hc, hz, hm0⟩ := hwr hwq
      refine ⟨hc, hz, ?_⟩
      intro s' x' hs' hx' hq'
      rw [hl s' hs' x' hx'] at hq'
      by_cases hsx' : s' = r ∧ x' = v
      · exact ⟨hsx'.1.trans hsx.1.symm, hsx'.2.trans hsx.2.symm⟩
      · rw [if_neg hsx'] at hq'
        have := mapCount_pos hs' hx' hq'
        omega
    · rw [if_neg hsx] at hq hwq ⊢
      obtain ⟨hc, hz, hu⟩ := h.exclusive hs hx hq hwq
      have hqp : q ≠ p := by
        rintro rfl
        omega
      refine ⟨hc, hh q hqp ?_ hz, ?_⟩
      · intro hm
        have := hu hr hv hm
        exact hsx ⟨this.1.symm, this.2.symm⟩
      · intro s' x' hs' hx' hq'
        rw [hl s' hs' x' hx'] at hq'
        split_ifs at hq' with hsx'
        · exact absurd (hq'.2.symm.trans hw.2) hqp
        · exact hu hs' hx' hq'
  inj := by
    intro s x y q hs hx hy hqx hqy
    rw [hl s hs x hx] at hqx
    rw [hl s hs y hy] at hqy
    split_ifs at hqx hqy with h1 h2 h2
    · exact h1.2.trans h2.2.symm
    · obtain rfl : p = q := hw.2.symm.trans hqx.2
      exact absurd (h1.1 ▸ hqy) (hfresh y hy)
    · obtain rfl : p = q := hw.2.symm.trans hqy.2
      exact absurd (h2.1 ▸ hqx) (hfresh x hx)
    · exact h.inj hs hx hy hqx hqy

end Sharing

/-- The books balance and the sharing discipline holds. -/
structure Coherent (L : Layout) (k : Kernel) (roots : Finset ℕ) (held : ℕ → ℕ) : Prop
    extends Balanced L k roots held where
  sharing : Sharing k.mem roots held

variable {L : Layout} {k k' : Kernel} {roots : Finset ℕ} {held held' : ℕ → ℕ} {r t v p : ℕ}

namespace Coherent

theorem of_sameLeaves (h : Coherent L k roots held) (hb : Balanced L k' roots held')
    (hl : SameLeaves k k' roots)
    (hh : ∀ p, 0 < mapCount k.mem roots p → held p = 0 → held' p = 0) :
    Coherent L k' roots held' where
  toBalanced := hb
  sharing := by
    apply h.sharing.shrink
    · intro s hs x hx _
      exact ⟨hs, .of_eq (hl s hs x (hx.trans userVpns_lt))⟩
    · intro s hs x hx p hp _ hz
      rw [hl s hs x (hx.trans userVpns_lt)] at hp
      exact hh p (mapCount_pos hs hx hp) hz

/-- Removing one user entry puts its reference in hand. -/
theorem clearLeaf (h : Coherent L k roots held) (hr : r ∈ roots) (hv : v < userVpns)
    (ht : leafTable k.mem r v = some t) (hm : Maps (leaf k.mem r v) p) :
    Coherent L (k.setMem (k.mem.setWord t (vpn0 v) 0#64)) roots (bump held p) where
  toBalanced := by
    apply h.toBalanced.setLeaf hr hv ht
    intro q
    have hq : Maps (leaf k.mem r v) q ↔ q = p := by
      constructor
      · intro hq
        exact hq.2.symm.trans hm.2
      · rintro rfl
        exact hm
    simp [bump_apply, hq, not_maps_of_not_valid pteValid_zero]
  sharing := by
    have hl := fun s (hs : s ∈ roots) x (hx : x < userVpns) =>
      leaf_setLeaf h.forest hr (hv.trans userVpns_lt) ht 0#64 hs (hx.trans userVpns_lt)
    apply h.sharing.shrink
    · intro s hs x hx hval
      refine ⟨hs, ?_⟩
      rw [Kernel.setMem_mem, hl s hs x hx] at hval ⊢
      split_ifs at hval ⊢
      · simp at hval
      · exact .of_eq rfl
    · intro s hs x hx q hq hw hz
      rw [Kernel.setMem_mem, hl s hs x hx] at hq hw
      split_ifs at hq hw with hsx
      · simp [Maps] at hq
      · rw [bump_apply, hz, if_neg]
        rintro rfl
        have := (h.sharing.exclusive hs hx hq hw).2.2 hr hv hm
        exact hsx ⟨this.1.symm, this.2.symm⟩

/-- Changing the permissions of one user entry without making it more writable. -/
theorem tameLeaf (h : Coherent L k roots held) (hr : r ∈ roots) (hv : v < userVpns)
    (ht : leafTable k.mem r v = some t) {w : Pte} (hm : ∀ p, Maps w p ↔ Maps (leaf k.mem r v) p)
    (hw : Tamer (leaf k.mem r v) w) :
    Coherent L (k.setMem (k.mem.setWord t (vpn0 v) w)) roots held where
  toBalanced := by
    apply h.toBalanced.setLeaf hr hv ht
    intro q
    simp only [hm]
  sharing := by
    have hl := fun s (hs : s ∈ roots) x (hx : x < userVpns) =>
      leaf_setLeaf h.forest hr (hv.trans userVpns_lt) ht w hs (hx.trans userVpns_lt)
    apply h.sharing.shrink
    · intro s hs x hx _
      refine ⟨hs, ?_⟩
      rw [Kernel.setMem_mem, hl s hs x hx]
      split_ifs with hsx
      · rw [hsx.1, hsx.2]
        exact hw
      · exact .of_eq rfl
    · intro s hs x hx q _ _ hz
      exact hz

theorem write_data (h : Coherent L k roots held) {m' : Memory}
    (hm : ∀ t, IsTable k.mem roots t → m' t = k.mem t) :
    Coherent L (k.setMem m') roots held :=
  h.of_sameLeaves (h.toBalanced.write_data hm) (sameLeaves_of_tables hm) fun _ _ hz => hz

/-- Giving back a page in hand. -/
theorem release (h : Coherent L k roots held) (hp : 0 < held p) :
    Coherent L (k.release p) roots (drop held p) := by
  apply h.of_sameLeaves (h.toBalanced.release hp)
  · apply sameLeaves_of_tables
    intro t ht
    apply k.release_mem_of_ne
    rintro rfl
    exact h.not_table_of_held hp ht
  · intro q _ hz
    rw [drop_apply, hz, Nat.zero_sub]

/-- Raising the count of a page that is not writable anywhere. -/
theorem retain (h : Coherent L k roots held) (hr : r ∈ roots) (hv : v < userVpns)
    (hm : Maps (leaf k.mem r v) p) (hw : pteWritable (leaf k.mem r v) = false) :
    Coherent L (k.setRefs p (k.refs p + 1)) roots (bump held p) where
  toBalanced := h.toBalanced.retain (mapCount_pos hr hv hm)
  sharing := by
    apply h.sharing.shrink
    · exact fun s hs x _ _ => ⟨hs, .of_eq rfl⟩
    · intro s hs x hx q hq hwq hz
      rw [bump_apply, hz, if_neg]
      rintro rfl
      obtain ⟨rfl, rfl⟩ := (h.sharing.exclusive hs hx hq hwq).2.2 hr hv hm
      rw [Kernel.setRefs_mem] at hwq
      simp [hw] at hwq

end Coherent

/-! ## What releasing a page keeps -/

/-- Releasing a reference in hand changes no byte that anybody else owns. -/
theorem release_keeps (h : Balanced L k roots held) (hp : 0 < held p) {D : ℕ → ℕ → Prop} :
    Keeps k (k.release p) roots (drop held p) D := by
  have hnt := h.not_table_of_held hp
  have hown : owners k.mem roots held p = mapCount k.mem roots p + held p :=
    Balanced.owners_of_not_table hnt
  have hrefs := (h.busy p (by omega)).2
  apply Keeps.of_sameLeaves
  · apply sameLeaves_of_tables
    intro t ht
    apply k.release_mem_of_ne
    rintro rfl
    exact hnt ht
  · intro q hq
    by_cases hqp : q = p
    · subst hqp
      rw [drop_apply, if_pos rfl] at hq
      rw [k.release_mem_of_shared q (by omega)]
    · exact k.release_mem_of_ne hqp

/-- Clearing an entry and dropping its reference. -/
theorem keeps_setLeaf (h : Balanced L k roots held) (hr : r ∈ roots) (hv : v < vpnLimit)
    (ht : leafTable k.mem r v = some t) (w : Pte) :
    Keeps k (k.setMem (k.mem.setWord t (vpn0 v) w)) roots held (fun s x => s = r ∧ x = v) := by
  have htab : IsTable k.mem roots t := ⟨_, leafTable_at hr hv ht⟩
  have hne : ∀ p, 0 < mapCount k.mem roots p + held p → p ≠ t := by
    rintro p hp rfl
    have := h.alone p htab
    omega
  have hleaf : ∀ s ∈ roots, ∀ x < vpnLimit, ¬(s = r ∧ x = v) →
      leaf (k.mem.setWord t (vpn0 v) w) s x = leaf k.mem s x := by
    intro s hs x hx hD
    rw [leaf_setLeaf h.forest hr hv ht w hs hx, if_neg hD]
  refine .of_leaves hleaf ?_ ?_
  · intro s hs x hx _ p hp
    have := mapCount_pos hs hx hp
    exact Memory.setWord_of_ne _ _ _ _ _ (hne p (by omega))
  · intro p hp
    exact Memory.setWord_of_ne _ _ _ _ _ (hne p (by omega))

end XV6AndConcurrency.VirtualMemory
