import XV6AndConcurrency.VirtualMemory.Ownership

/-!
# Specifications of walking and mapping

`walk` with allocation and one round of `mappages`, against the ledger of owners
and the maps from virtual pages to entries. Every specification has the same
shape: the balance afterwards, the entries afterwards, and what is kept.
-/

namespace XV6AndConcurrency.VirtualMemory

open Foundations

/-- The two entries allow the same: they differ at most in the page they map and in
how a write reaches it, directly or after a copy. -/
structure SameAccess (w w' : Pte) : Prop where
  bits : ∀ i < 10, i ≠ 2 → i ≠ 8 → pteBit i w' = pteBit i w
  writes : (pteWritable w' || pteCow w') = (pteWritable w || pteCow w)

/-- The two entries give the same access to the same page. -/
structure Alike (w w' : Pte) : Prop extends SameAccess w w' where
  page : pte2pa w' = pte2pa w

namespace SameAccess

variable {w w' w'' : Pte}

theorem trans (h : SameAccess w w') (h' : SameAccess w' w'') : SameAccess w w'' :=
  ⟨fun i hi h2 h8 => (h'.bits i hi h2 h8).trans (h.bits i hi h2 h8), h'.writes.trans h.writes⟩

theorem valid (h : SameAccess w w') : pteValid w' = pteValid w :=
  h.bits 0 (by omega) (by omega) (by omega)

theorem readable (h : SameAccess w w') : pteReadable w' = pteReadable w :=
  h.bits 1 (by omega) (by omega) (by omega)

theorem user (h : SameAccess w w') : pteUser w' = pteUser w :=
  h.bits 4 (by omega) (by omega) (by omega)

end SameAccess

namespace Alike

variable {w w' w'' : Pte}

theorem refl (w : Pte) : Alike w w := ⟨⟨fun _ _ _ _ => rfl, rfl⟩, rfl⟩

theorem of_eq (h : w' = w) : Alike w w' := h ▸ refl w

theorem trans (h : Alike w w') (h' : Alike w' w'') : Alike w w'' :=
  ⟨h.toSameAccess.trans h'.toSameAccess, h'.page.trans h.page⟩

theorem symm (h : Alike w w') : Alike w' w :=
  ⟨⟨fun i hi h2 h8 => (h.bits i hi h2 h8).symm, h.writes.symm⟩, h.page.symm⟩

theorem maps (h : Alike w w') (p : ℕ) : Maps w' p ↔ Maps w p := by
  rw [Maps, Maps, h.valid, h.page]

end Alike

/-- What may happen to an entry that nobody meant to change. -/
class KeepsAccess (R : Pte → Pte → Prop) : Prop where
  refl : ∀ w, R w w
  trans : ∀ {w w' w''}, R w w' → R w' w'' → R w w''
  alike : ∀ {w w'}, R w w' → Alike w w'

instance : KeepsAccess Eq := ⟨fun _ => rfl, Eq.trans, fun h => .of_eq h.symm⟩

instance : KeepsAccess Alike := ⟨Alike.refl, Alike.trans, id⟩

/-- The entries outside `D` are related by `R` to what they were, those of the
trampoline and the trapframe are unchanged, the user pages they map and the held pages
keep their bytes. -/
structure KeepsUpTo (R : Pte → Pte → Prop) (k k' : Kernel) (roots : Finset ℕ) (held : ℕ → ℕ)
    (D : ℕ → ℕ → Prop) : Prop where
  slot : ∀ s ∈ roots, ∀ x < vpnLimit, ¬ D s x → R (leaf k.mem s x) (leaf k'.mem s x)
  top : ∀ s ∈ roots, ∀ x < vpnLimit, userVpns ≤ x → ¬ D s x → leaf k'.mem s x = leaf k.mem s x
  bytes : ∀ s ∈ roots, ∀ x < userVpns, ¬ D s x → ∀ p, Maps (leaf k.mem s x) p →
    k'.mem p = k.mem p
  held : ∀ p, 0 < held p → k'.mem p = k.mem p

/-- The entries outside `D` are unchanged, and so are the bytes behind them. -/
abbrev Keeps (k k' : Kernel) (roots : Finset ℕ) (held : ℕ → ℕ) (D : ℕ → ℕ → Prop) : Prop :=
  KeepsUpTo Eq k k' roots held D

/-- The entries outside `D` give the access they gave before, to the same bytes. -/
abbrev Shares (k k' : Kernel) (roots : Finset ℕ) (held : ℕ → ℕ) (D : ℕ → ℕ → Prop) : Prop :=
  KeepsUpTo Alike k k' roots held D

/-- No entry of any table has changed. -/
def SameLeaves (k k' : Kernel) (roots : Finset ℕ) : Prop :=
  ∀ s ∈ roots, ∀ x < vpnLimit, leaf k'.mem s x = leaf k.mem s x

namespace KeepsUpTo

variable {R : Pte → Pte → Prop} [KeepsAccess R] {k k' k'' : Kernel} {roots roots' : Finset ℕ}
  {held held' : ℕ → ℕ} {D E : ℕ → ℕ → Prop}

theorem refl : KeepsUpTo R k k roots held D :=
  ⟨fun _ _ _ _ _ => KeepsAccess.refl _, fun _ _ _ _ _ _ => rfl, fun _ _ _ _ _ _ _ => rfl,
    fun _ _ => rfl⟩

theorem alike (h : KeepsUpTo R k k' roots held D) {s x : ℕ} (hs : s ∈ roots) (hx : x < vpnLimit)
    (hD : ¬ D s x) : Alike (leaf k.mem s x) (leaf k'.mem s x) :=
  KeepsAccess.alike (h.slot s hs x hx hD)

theorem shares (h : KeepsUpTo R k k' roots held D) : Shares k k' roots held D :=
  ⟨fun _ hs _ hx hD => h.alike hs hx hD, h.top, h.bytes, h.held⟩

theorem trans (h : KeepsUpTo R k k' roots held D) (h' : KeepsUpTo R k' k'' roots held D) :
    KeepsUpTo R k k'' roots held D where
  slot s hs x hx hD := KeepsAccess.trans (h.slot s hs x hx hD) (h'.slot s hs x hx hD)
  top s hs x hx hu hD := (h'.top s hs x hx hu hD).trans (h.top s hs x hx hu hD)
  bytes s hs x hx hD p hp := by
    have ha := h.alike hs (hx.trans userVpns_lt) hD
    exact (h'.bytes s hs x hx hD p ((ha.maps p).mpr hp)).trans (h.bytes s hs x hx hD p hp)
  held p hp := (h'.held p hp).trans (h.held p hp)

omit [KeepsAccess R] in
theorem mono (h : KeepsUpTo R k k' roots held D) (hDE : ∀ s x, D s x → E s x) :
    KeepsUpTo R k k' roots held E where
  slot s hs x hx hE := h.slot s hs x hx fun hD => hE (hDE s x hD)
  top s hs x hx hu hE := h.top s hs x hx hu fun hD => hE (hDE s x hD)
  bytes s hs x hx hE := h.bytes s hs x hx fun hD => hE (hDE s x hD)
  held := h.held

omit [KeepsAccess R] in
theorem weaken_held {g : ℕ → ℕ} (h : KeepsUpTo R k k' roots held D)
    (hh : ∀ p, 0 < g p → 0 < held p) : KeepsUpTo R k k' roots g D :=
  ⟨h.slot, h.top, h.bytes, fun p hp => h.held p (hh p hp)⟩

omit [KeepsAccess R] in
theorem weaken_roots (h : KeepsUpTo R k k' roots held D) (hr : roots' ⊆ roots) :
    KeepsUpTo R k k' roots' held D :=
  ⟨fun s hs => h.slot s (hr hs), fun s hs => h.top s (hr hs), fun s hs => h.bytes s (hr hs),
    h.held⟩

omit [KeepsAccess R] in
/-- Entries that `D` names and no table has need not be excepted. -/
theorem narrow (h : KeepsUpTo R k k' roots held D) (hD : ∀ s ∈ roots, ∀ x, ¬ D s x) :
    KeepsUpTo R k k' roots held E :=
  ⟨fun s hs x hx _ => h.slot s hs x hx (hD s hs x),
    fun s hs x hx hu _ => h.top s hs x hx hu (hD s hs x),
    fun s hs x hx _ => h.bytes s hs x hx (hD s hs x), h.held⟩

end KeepsUpTo

namespace Keeps

variable {k k' : Kernel} {roots : Finset ℕ} {held : ℕ → ℕ} {D : ℕ → ℕ → Prop}

theorem of_leaves (hl : ∀ s ∈ roots, ∀ x < vpnLimit, ¬ D s x → leaf k'.mem s x = leaf k.mem s x)
    (hb : ∀ s ∈ roots, ∀ x < userVpns, ¬ D s x → ∀ p, Maps (leaf k.mem s x) p →
      k'.mem p = k.mem p) (hh : ∀ p, 0 < held p → k'.mem p = k.mem p) :
    Keeps k k' roots held D :=
  ⟨fun s hs x hx hD => (hl s hs x hx hD).symm, fun s hs x hx _ => hl s hs x hx, hb, hh⟩

/-- Unchanged entries and unchanged bytes of the owned pages. -/
theorem of_sameLeaves (hl : SameLeaves k k' roots)
    (hm : ∀ p, 0 < mapCount k.mem roots p + held p → k'.mem p = k.mem p) :
    Keeps k k' roots held D := by
  refine of_leaves (fun s hs x hx _ => hl s hs x hx) ?_ fun p hp => hm p (by omega)
  intro s hs x hx _ p hp
  have := mapCount_pos hs hx hp
  exact hm p (by omega)

end Keeps

theorem SameLeaves.trans {k k' k'' : Kernel} {roots : Finset ℕ} (h : SameLeaves k k' roots)
    (h' : SameLeaves k' k'' roots) : SameLeaves k k'' roots := fun s hs x hx =>
  (h' s hs x hx).trans (h s hs x hx)

theorem sameLeaves_of_tables {k k' : Kernel} {roots : Finset ℕ}
    (h : ∀ t, IsTable k.mem roots t → k'.mem t = k.mem t) : SameLeaves k k' roots :=
  fun _ hs _ hx => leaf_congr h hs hx

variable {L : Layout} {k : Kernel} {roots : Finset ℕ} {held : ℕ → ℕ} {r t v p : ℕ}

/-! ## Pages taken from the free list -/

/-- What `kalloc` gives: nothing when the list is empty, or a page in hand. -/
theorem kalloc_spec (h : Balanced L k roots held) : Ensures kalloc (fun res k' =>
    match res with
    | none => k' = k ∧ k.freelist = []
    | some p => Balanced L k' roots (bump held p) ∧ SameLeaves k k' roots ∧
        Keeps k k' roots held (fun _ _ => False) ∧ held p = 0 ∧ mapCount k.mem roots p = 0 ∧
        (∀ a t, At k.mem roots a t → At k'.mem roots a t) ∧ ¬ IsTable k'.mem roots p ∧
        (∀ q, q ≠ p → k'.mem q = k.mem q) ∧ k.freelist = p :: k'.freelist) k := by
  cases hk : k.freelist with
  | nil => exact .of_run (kalloc_run_nil hk) ⟨rfl, rfl⟩
  | cons p next =>
    refine .of_run (kalloc_run_cons hk) ?_
    have hmem : p ∈ k.freelist := by simp [hk]
    have hz := h.owners_eq_zero hmem
    have hnt := h.free_not_table hmem
    have hother : ∀ q, q ≠ p → (k.take p next).mem q = k.mem q := fun q hq =>
      Memory.fill_of_ne _ _ _ _ hq
    have htab : ∀ t, IsTable k.mem roots t → (k.take p next).mem t = k.mem t := by
      intro t ht
      exact hother t fun hc => hnt (hc ▸ ht)
    have hsl : SameLeaves k (k.take p next) roots := sameLeaves_of_tables htab
    unfold owners at hz
    refine ⟨h.kalloc hk, hsl, .of_sameLeaves hsl ?_, by omega, by omega,
      fun a t ha => (at_congr htab a t).mpr ha,
      fun hc => hnt ((isTable_congr htab p).mp hc), hother, rfl⟩
    intro q hq
    apply hother
    rintro rfl
    omega

/-- Writing only to a page in hand changes nothing that anybody else owns. -/
theorem write_held (h : Balanced L k roots held) {m' : Memory} (hp : 0 < held p)
    (hm : ∀ q, q ≠ p → m' q = k.mem q) :
    Balanced L (k.setMem m') roots held ∧ SameLeaves k (k.setMem m') roots ∧
      ∀ a t, At k.mem roots a t → At m' roots a t := by
  have htab : ∀ t, IsTable k.mem roots t → m' t = k.mem t := by
    intro t ht
    apply hm
    rintro rfl
    exact h.not_table_of_held hp ht
  exact ⟨h.write_data htab, sameLeaves_of_tables htab, fun a t ha => (at_congr htab a t).mpr ha⟩

/-! ## Walking with allocation -/

/-- One level of `walk`: the entry points at a page-table page afterwards, or
memory has run out. -/
theorem walkLevel_spec (h : Balanced L k roots held) {a : Position} (ha : At k.mem roots a t)
    (hin : a.inner = true) (va level : ℕ) :
    Ensures (walkLevel va true level t) (fun res k' =>
      Balanced L k' roots held ∧ SameLeaves k k' roots ∧
      Keeps k k' roots held (fun _ _ => False) ∧
      (∀ b u, At k.mem roots b u → At k'.mem roots b u) ∧
      k.freelist.length ≤ k'.freelist.length + 1 ∧
      match res with
      | none => k.freelist = []
      | some u => nextTable k'.mem t (px level va) = some u ∧
          At k'.mem roots (a.child (px level va)) u) k := by
  have hi := px_lt level va
  by_cases hval : pteValid (k.mem.word t (px level va)) = true
  · have hnext : nextTable k.mem t (px level va) =
        some (pte2pa (k.mem.word t (px level va))) := by simp [nextTable, hval]
    refine .of_run (a := some (pte2pa (k.mem.word t (px level va)))) (t := k) ?_ ?_
    · simp [walkLevel, readPte, hval]
    · exact ⟨h, fun _ _ _ _ => rfl, .refl, fun _ _ hb => hb, Nat.le_succ _, hnext,
        at_child ha hin hi hnext⟩
  · have hval : pteValid (k.mem.word t (px level va)) = false := by simpa using hval
    have hnone : nextTable k.mem t (px level va) = none := by simp [nextTable, hval]
    unfold walkLevel
    refine .bind_of_run (a := k.mem.word t (px level va)) (t := k) rfl ?_
    rw [if_neg (by simp [hval]), if_pos rfl]
    refine .bind (kalloc_spec h) ?_
    rintro res k1 hres
    cases res with
    | none =>
      obtain ⟨rfl, hnil⟩ := hres
      exact .of_pure ⟨h, fun _ _ _ _ => rfl, .refl, fun _ _ hb => hb, Nat.le_succ _, hnil⟩
    | some p =>
      obtain ⟨hb1, hl1, hk1, hp0, hm0, hat1, hnt1, hother, hfl⟩ := hres
      have hne : t ≠ p := by
        rintro rfl
        exact hnt1 ⟨a, hat1 a t ha⟩
      -- the page is zeroed, then linked
      have hw1 : ∀ q, q ≠ p → (k1.mem.fill p 0#8) q = k1.mem q := fun q hq =>
        Memory.fill_of_ne _ _ _ _ hq
      obtain ⟨hb2, hl2, hat2⟩ := write_held hb1 (p := p) (by simp) hw1
      have ha2 : At (k1.mem.fill p 0#8) roots a t := hat2 a t (hat1 a t ha)
      have hmt : (k1.mem.fill p 0#8) t = k.mem t := (hw1 t hne).trans (hother t hne)
      have hnone2 : nextTable (k1.mem.fill p 0#8) t (px level va) = none := by
        rw [nextTable_congr hmt, hnone]
      have hz : ∀ j, (k1.mem.fill p 0#8).word p j = 0#64 := fun j => by simp
      have hm2 : mapCount (k1.mem.fill p 0#8) roots p = 0 := by
        rw [mapCount_congr (m := k.mem) (p := p)]
        · exact hm0
        · intro s hs x hx
          have := (hl1.trans hl2) s hs x (hx.trans userVpns_lt)
          change leaf (k1.mem.fill p 0#8) s x = _ at this
          rw [this]
      have hnt2 := hb2.not_table_of_held (p := p) (by simp)
      have hpage := hb2.isPage_of_held (p := p) (by simp)
      have hb3 := hb2.link ha2 hin hi hnone2 hz (by simp [hp0]) hm2
      rw [drop_bump] at hb3
      have hmaps := Balanced.maps_link hpage
      have hat3 := at_link hb2.forest ha2 hin hi hnone2 hnt2 hz _ hmaps
      refine .of_run (a := some p)
        (t := k1.setMem ((k1.mem.fill p 0#8).setWord t (px level va) (pa2pte p ||| pteV)))
        rfl ?_
      have hl3 : SameLeaves k (k1.setMem
          ((k1.mem.fill p 0#8).setWord t (px level va) (pa2pte p ||| pteV))) roots := by
        intro s hs x hx
        exact (leaf_link hb2.forest ha2 hin hnone2 hnt2 hz _ hmaps hs hx).trans
          ((hl1.trans hl2) s hs x hx)
      refine ⟨hb3, hl3, .of_sameLeaves hl3 ?_, ?_, ?_, ?_, ?_⟩
      · intro q hq
        have hqt : q ≠ t := by
          rintro rfl
          have := h.alone q ⟨a, ha⟩
          omega
        have hqp : q ≠ p := by
          rintro rfl
          omega
        change (k1.mem.fill p 0#8).setWord t _ _ q = _
        rw [Memory.setWord_of_ne _ _ _ _ _ hqt, hw1 q hqp, hother q hqp]
      · intro b u hb
        exact (hat3 b u).mpr (Or.inl (hat2 b u (hat1 b u hb)))
      · simp [hfl]
      · simp [nextTable, hmaps.1, hmaps.2]
      · exact (hat3 _ _).mpr (Or.inr ⟨rfl, rfl⟩)

/-- `walk` with allocation finds the entry of `va`, creating page-table pages on
the way, or memory has run out. No entry changes. -/
theorem walk_spec (h : Balanced L k roots held) (hr : r ∈ roots) {va : ℕ} (hva : va < maxva) :
    Ensures (walk r va true) (fun res k' =>
      Balanced L k' roots held ∧ SameLeaves k k' roots ∧
      Keeps k k' roots held (fun _ _ => False) ∧
      k.freelist.length ≤ k'.freelist.length + 2 ∧
      match res with
      | none => k.freelist.length ≤ 1
      | some ref => ref.index = vpn0 (va / 4096) ∧
          leafTable k'.mem r (va / 4096) = some ref.table) k := by
  have ha : At k.mem roots (.root r) r := ⟨hr, rfl⟩
  unfold walk
  rw [if_neg (not_le.mpr hva)]
  refine .bind (walkLevel_spec h ha rfl va 2) ?_
  rintro res1 k1 ⟨hb1, hl1, hk1, hat1, hs1, hres1⟩
  cases res1 with
  | none => exact .of_pure ⟨hb1, hl1, hk1, by omega, by simp [hres1]⟩
  | some t =>
    obtain ⟨hn1, hc1⟩ := hres1
    refine .bind (walkLevel_spec hb1 hc1 rfl va 1) ?_
    rintro res2 k2 ⟨hb2, hl2, hk2, hat2, hs2, hres2⟩
    have hk := hk1.trans hk2
    cases res2 with
    | none => exact .of_pure ⟨hb2, hl1.trans hl2, hk, by omega, by simpa [hres2] using hs1⟩
    | some u =>
      obtain ⟨hn2, -⟩ := hres2
      refine .of_pure ⟨hb2, hl1.trans hl2, hk, by omega, px_zero va, ?_⟩
      -- the first level still points at `t` after the second has been filled in
      have hn1' := (hat2 _ _ hc1).2.2
      rw [px_two hva] at hn1'
      rw [px_one] at hn2
      simp [leafTable, hn1', hn2]

end XV6AndConcurrency.VirtualMemory
