import XV6AndConcurrency.VirtualMemory.PageTable

/-!
# A page table as a map from virtual pages to entries

`leaf m r v` is the entry that the table rooted at `r` holds for the virtual page
number `v`. The page-table pages reachable from a set of roots are named by their
position; `Forest` says that positions are unique, which is all that is needed to
read a write to one entry as the update of one value of one map.
-/

namespace XV6AndConcurrency.VirtualMemory

open Foundations

/-- The page-table page that entry `i` of the table page `t` points at. -/
def nextTable (m : Memory) (t i : ℕ) : Option ℕ :=
  if pteValid (m.word t i) then some (pte2pa (m.word t i)) else none

/-- The three indices of a virtual page number. -/
def vpn2 (v : ℕ) : ℕ := v / 262144
def vpn1 (v : ℕ) : ℕ := v / 512 % 512
def vpn0 (v : ℕ) : ℕ := v % 512

/-- The last-level page-table page for the virtual page `v`. -/
def leafTable (m : Memory) (r v : ℕ) : Option ℕ :=
  (nextTable m r (vpn2 v)).bind fun t => nextTable m t (vpn1 v)

/-- The entry for the virtual page `v`; 0 where the table has no page for it. -/
def leaf (m : Memory) (r v : ℕ) : Pte :=
  match leafTable m r v with
  | none => 0#64
  | some t => m.word t (vpn0 v)

/-- Number of virtual pages a three-level table distinguishes. -/
def vpnLimit : ℕ := 134217728

theorem vpn2_lt {v : ℕ} (h : v < vpnLimit) : vpn2 v < 512 := by
  unfold vpnLimit at h
  unfold vpn2
  omega

theorem vpn1_lt (v : ℕ) : vpn1 v < 512 := by
  unfold vpn1
  omega

theorem vpn_inj {v x : ℕ} (h2 : vpn2 v = vpn2 x) (h1 : vpn1 v = vpn1 x) (h0 : vpn0 v = vpn0 x) :
    v = x := by
  unfold vpn2 at h2
  unfold vpn1 at h1
  unfold vpn0 at h0
  omega

/-- The entry `w` maps the physical page `p`. -/
def Maps (w : Pte) (p : ℕ) : Prop := pteValid w = true ∧ pte2pa w = p

instance (w : Pte) (p : ℕ) : Decidable (Maps w p) := inferInstanceAs (Decidable (_ ∧ _))

theorem pteValid_zero : pteValid 0#64 = false := by simp

theorem not_maps_of_not_valid {w : Pte} (h : pteValid w = false) (p : ℕ) : ¬ Maps w p := by
  simp [Maps, h]

theorem nextTable_eq_some {m : Memory} {t i p : ℕ} :
    nextTable m t i = some p ↔ pteValid (m.word t i) = true ∧ pte2pa (m.word t i) = p := by
  simp [nextTable]

theorem nextTable_congr {m m' : Memory} {t : ℕ} (h : m' t = m t) (i : ℕ) :
    nextTable m' t i = nextTable m t i := by
  simp [nextTable, Memory.word_congr h]

/-! ## Walking without allocation -/

theorem walkLevel_false_run (va level pagetable : ℕ) (k : Kernel) :
    walkLevel va false level pagetable k =
      .ok (nextTable k.mem pagetable (px level va), k) := by
  unfold walkLevel nextTable
  by_cases h : pteValid (k.mem.word pagetable (px level va)) = true
  · simp [readPte, h]
  · simp [readPte, h]

/-- Where `walk` finds the entry of the virtual page `v`. -/
def leafRef (m : Memory) (r v : ℕ) : Option PteRef :=
  (leafTable m r v).map fun t => ⟨t, vpn0 v⟩

theorem px_two {va : ℕ} (h : va < maxva) : px 2 va = vpn2 (va / 4096) := by
  rw [maxva_eq] at h
  rw [px_eq, vpn2]
  omega

theorem px_one (va : ℕ) : px 1 va = vpn1 (va / 4096) := by
  rw [px_eq, vpn1]
  omega

theorem px_zero (va : ℕ) : px 0 va = vpn0 (va / 4096) := by
  rw [px_eq, vpn0]
  omega

/-- `walk` without allocation reads the table and changes nothing. -/
theorem walk_false_run {va : ℕ} (h : va < maxva) (r : ℕ) (k : Kernel) :
    walk r va false k = .ok (leafRef k.mem r (va / 4096), k) := by
  unfold walk leafRef leafTable
  rw [if_neg (not_le.mpr h)]
  simp only [bind_run, walkLevel_false_run, ok_bind, px_two h, px_zero]
  cases nextTable k.mem r (vpn2 (va / 4096)) with
  | none => rfl
  | some t =>
    simp only [bind_run, walkLevel_false_run, ok_bind, Option.bind_some, px_one]
    cases nextTable k.mem t (vpn1 (va / 4096)) <;> rfl

/-! ## Positions in a set of tables -/

/-- The place of a page-table page: a root, the page below entry `i` of a root, or
the page below entry `j` of that one. -/
inductive Position
  | root (r : ℕ)
  | mid (r i : ℕ)
  | last (r i j : ℕ)
  deriving DecidableEq

/-- The page `t` stands at a position of the tables rooted in `roots`. -/
def At (m : Memory) (roots : Finset ℕ) : Position → ℕ → Prop
  | .root r, t => r ∈ roots ∧ t = r
  | .mid r i, t => r ∈ roots ∧ i < 512 ∧ nextTable m r i = some t
  | .last r i j, t => r ∈ roots ∧ i < 512 ∧ j < 512 ∧
      ∃ u, nextTable m r i = some u ∧ nextTable m u j = some t

/-- `t` is a page-table page of one of the tables. -/
def IsTable (m : Memory) (roots : Finset ℕ) (t : ℕ) : Prop := ∃ a, At m roots a t

/-- Positions that hold pointers to further page-table pages. -/
def Position.inner : Position → Bool
  | .last .. => false
  | _ => true

/-- Every page-table page is reachable by exactly one path, and an entry that
points at one has no permission bits. -/
structure Forest (m : Memory) (roots : Finset ℕ) : Prop where
  unique : ∀ {t a b}, At m roots a t → At m roots b t → a = b
  plain : ∀ {a t i}, At m roots a t → a.inner = true → i < 512 →
    pteValid (m.word t i) = true → pteFlags (m.word t i) = pteV

variable {m m' : Memory} {roots : Finset ℕ} {r t v i j : ℕ}

theorem leafTable_at (hr : r ∈ roots) (hv : v < vpnLimit) (h : leafTable m r v = some t) :
    At m roots (.last r (vpn2 v) (vpn1 v)) t := by
  unfold leafTable at h
  obtain ⟨u, hu, ht⟩ := Option.bind_eq_some_iff.mp h
  exact ⟨hr, vpn2_lt hv, vpn1_lt v, u, hu, ht⟩

/-- Memories that agree on the page-table pages have the same tables. -/
theorem at_congr (h : ∀ t, IsTable m roots t → m' t = m t) (a : Position) (t : ℕ) :
    At m' roots a t ↔ At m roots a t := by
  cases a with
  | root r => exact Iff.rfl
  | mid r i =>
    simp only [At]
    refine and_congr_right fun hr => and_congr_right fun _ => ?_
    rw [nextTable_congr (h r ⟨.root r, hr, rfl⟩)]
  | last r i j =>
    simp only [At]
    refine and_congr_right fun hr => and_congr_right fun hi => and_congr_right fun _ =>
      exists_congr fun u => ?_
    rw [nextTable_congr (h r ⟨.root r, hr, rfl⟩)]
    refine and_congr_right fun hu => ?_
    rw [nextTable_congr (h u ⟨.mid r i, hr, hi, hu⟩)]

theorem isTable_congr (h : ∀ t, IsTable m roots t → m' t = m t) (t : ℕ) :
    IsTable m' roots t ↔ IsTable m roots t :=
  exists_congr fun a => at_congr h a t

theorem Forest.congr (hf : Forest m roots) (h : ∀ t, IsTable m roots t → m' t = m t) :
    Forest m' roots where
  unique ha hb := hf.unique ((at_congr h _ _).mp ha) ((at_congr h _ _).mp hb)
  plain := by
    intro a t i ha hin hi hv
    have ha' := (at_congr h _ _).mp ha
    have hw := Memory.word_congr (h t ⟨a, ha'⟩) i
    rw [hw] at hv ⊢
    exact hf.plain ha' hin hi hv

theorem leafTable_congr (h : ∀ t, IsTable m roots t → m' t = m t) (hr : r ∈ roots)
    (hv : v < vpnLimit) : leafTable m' r v = leafTable m r v := by
  have hi := vpn2_lt hv
  unfold leafTable
  rw [nextTable_congr (h r ⟨.root r, hr, rfl⟩)]
  cases hu : nextTable m r (vpn2 v) with
  | none => simp only [Option.bind_none]
  | some u =>
    simp only [Option.bind_some]
    exact nextTable_congr (h u ⟨.mid r _, hr, hi, hu⟩) _

theorem leaf_congr (h : ∀ t, IsTable m roots t → m' t = m t) (hr : r ∈ roots)
    (hv : v < vpnLimit) : leaf m' r v = leaf m r v := by
  unfold leaf
  rw [leafTable_congr h hr hv]
  cases ht : leafTable m r v with
  | none => rfl
  | some t => exact Memory.word_congr (h t ⟨_, leafTable_at hr hv ht⟩) _

/-! ## Writing one entry -/

section SetLeaf

variable (hf : Forest m roots) (hr : r ∈ roots) (hv : v < vpnLimit) (ht : leafTable m r v = some t)
  (w : Pte)
include hf hr hv ht

/-- Pointers between page-table pages are not touched by a write to a last-level page. -/
theorem nextTable_setLeaf {a : Position} {u : ℕ} (ha : At m roots a u) (hin : a.inner = true)
    (j : ℕ) : nextTable (m.setWord t (vpn0 v) w) u j = nextTable m u j := by
  have hne : u ≠ t := by
    rintro rfl
    have := hf.unique ha (leafTable_at hr hv ht)
    subst this
    simp [Position.inner] at hin
  exact nextTable_congr (Memory.setWord_of_ne _ _ _ _ _ hne) j

theorem at_setLeaf (a : Position) (u : ℕ) :
    At (m.setWord t (vpn0 v) w) roots a u ↔ At m roots a u := by
  cases a with
  | root s => exact Iff.rfl
  | mid s i =>
    simp only [At]
    refine and_congr_right fun hs => and_congr_right fun _ => ?_
    rw [nextTable_setLeaf hf hr hv ht w (a := .root s) ⟨hs, rfl⟩ rfl]
  | last s i j =>
    simp only [At]
    refine and_congr_right fun hs => and_congr_right fun hi => and_congr_right fun _ =>
      exists_congr fun x => ?_
    rw [nextTable_setLeaf hf hr hv ht w (a := .root s) ⟨hs, rfl⟩ rfl]
    refine and_congr_right fun hx => ?_
    rw [nextTable_setLeaf hf hr hv ht w (a := .mid s i) ⟨hs, hi, hx⟩ rfl]

theorem Forest.setLeaf : Forest (m.setWord t (vpn0 v) w) roots where
  unique ha hb := hf.unique ((at_setLeaf hf hr hv ht w _ _).mp ha)
    ((at_setLeaf hf hr hv ht w _ _).mp hb)
  plain := by
    intro a u i ha hin hi hval
    have ha' := (at_setLeaf hf hr hv ht w _ _).mp ha
    have hne : u ≠ t := by
      rintro rfl
      have := hf.unique ha' (leafTable_at hr hv ht)
      subst this
      simp [Position.inner] at hin
    have hw := Memory.word_setWord_of_ne m t u (vpn0 v) i w (Or.inl hne)
    rw [hw] at hval ⊢
    exact hf.plain ha' hin hi hval

theorem leafTable_setLeaf {s x : ℕ} (hs : s ∈ roots) (hx : x < vpnLimit) :
    leafTable (m.setWord t (vpn0 v) w) s x = leafTable m s x := by
  have hi := vpn2_lt hx
  unfold leafTable
  rw [nextTable_setLeaf hf hr hv ht w (a := .root s) ⟨hs, rfl⟩ rfl]
  cases hu : nextTable m s (vpn2 x) with
  | none => simp only [Option.bind_none]
  | some u =>
    simp only [Option.bind_some]
    exact nextTable_setLeaf hf hr hv ht w (a := .mid s _) ⟨hs, hi, hu⟩ rfl _

/-- A write to the entry of `v` under `r` updates that map at that page only. -/
theorem leaf_setLeaf {s x : ℕ} (hs : s ∈ roots) (hx : x < vpnLimit) :
    leaf (m.setWord t (vpn0 v) w) s x = if s = r ∧ x = v then w else leaf m s x := by
  have hlt := leafTable_setLeaf hf hr hv ht w hs hx
  by_cases hsx : s = r ∧ x = v
  · obtain ⟨rfl, rfl⟩ := hsx
    simp [leaf, hlt, ht]
  · rw [if_neg hsx]
    unfold leaf
    rw [hlt]
    cases hu : leafTable m s x with
    | none => rfl
    | some u =>
      apply Memory.word_setWord_of_ne
      by_contra hc
      push Not at hc
      obtain ⟨rfl, hmod⟩ := hc
      have hp := hf.unique (leafTable_at hs hx hu) (leafTable_at hr hv ht)
      simp only [Position.last.injEq] at hp
      exact hsx ⟨hp.1, vpn_inj hp.2.1 hp.2.2 hmod⟩

end SetLeaf

/-! ## Linking and unlinking page-table pages -/

/-- The position below entry `i`. -/
def Position.child : Position → ℕ → Position
  | .root r, i => .mid r i
  | .mid r i, j => .last r i j
  | .last r i j, _ => .last r i j

/-- The root of the table a position belongs to. -/
def Position.base : Position → ℕ
  | .root r => r
  | .mid r _ => r
  | .last r _ _ => r

/-- The page holds no valid entry. -/
def Drained (m : Memory) (t : ℕ) : Prop := ∀ i < 512, pteValid (m.word t i) = false

theorem Drained.next_none {m : Memory} {t i : ℕ} (h : Drained m t) (hi : i < 512) :
    nextTable m t i = none := by
  simp [nextTable, h i hi]

theorem drained_of_zero {m : Memory} {t : ℕ} (h : ∀ i, m.word t i = 0#64) : Drained m t := by
  intro i _
  rw [h i]
  exact pteValid_zero

theorem At.base_mem {a : Position} (h : At m roots a t) : a.base ∈ roots := by
  cases a with
  | root r => exact h.1
  | mid r i => exact h.1
  | last r i j => exact h.1

section Link

variable {p : ℕ} {a : Position} (hf : Forest m roots) (ha : At m roots a t)
  (hin : a.inner = true) (hi : i < 512) (hnew : nextTable m t i = none)
  (hp : ¬ IsTable m roots p) (hz : ∀ j, m.word p j = 0#64)
  (w : Pte) (hw : Maps w p)

include hw in
theorem nextTable_link (u j : ℕ) : nextTable (m.setWord t i w) u j =
    if u = t ∧ j = i then some p else nextTable m u j := by
  by_cases h : u = t ∧ j = i
  · obtain ⟨rfl, rfl⟩ := h
    simp [nextTable, hw.1, hw.2]
  · rw [if_neg h]
    have hne : u ≠ t ∨ j ≠ i := by tauto
    simp [nextTable, Memory.word_setWord_of_ne m t u i j w hne]

include hf ha hin hi hnew hp hz hw

theorem at_link (b : Position) (x : ℕ) : At (m.setWord t i w) roots b x ↔
    At m roots b x ∨ (b = a.child i ∧ x = p) := by
  have hpt : p ≠ t := fun h => hp (h ▸ ⟨a, ha⟩)
  have hpn : ∀ l < 512, nextTable m p l = none := fun l hl =>
    (drained_of_zero hz).next_none hl
  cases b with
  | root s =>
    have hne : Position.root s ≠ a.child i := by cases a <;> simp [Position.child]
    simp [At, hne]
  | mid s j =>
    by_cases hs : s ∈ roots ∧ j < 512
    · by_cases hst : s = t ∧ j = i
      · obtain ⟨rfl, rfl⟩ := hst
        have hroot : a = .root s := hf.unique ha ⟨hs.1, rfl⟩
        subst hroot
        simp [At, nextTable_link w hw, hs, hnew, Position.child, eq_comm]
      · have hne : Position.mid s j ≠ a.child i := by
          intro hc
          cases a with
          | root r =>
            simp only [Position.child, Position.mid.injEq] at hc
            exact hst ⟨hc.1.trans ha.2.symm, hc.2⟩
          | mid r l => simp [Position.child] at hc
          | last r l n => simp [Position.child] at hc
        simp [At, nextTable_link w hw, hst, hne]
    · have hne : Position.mid s j ≠ a.child i := by
        intro hc
        cases a with
        | root r =>
          simp only [Position.child, Position.mid.injEq] at hc
          exact hs ⟨hc.1 ▸ ha.1, hc.2 ▸ hi⟩
        | mid r l => simp [Position.child] at hc
        | last r l n => simp [Position.child] at hc
      simp only [At, hne, false_and, or_false]
      constructor
      · rintro ⟨h1, h2, -⟩
        exact absurd ⟨h1, h2⟩ hs
      · rintro ⟨h1, h2, -⟩
        exact absurd ⟨h1, h2⟩ hs
  | last s j l =>
    constructor
    · rintro ⟨hs, hj, hl, u, hu, hx⟩
      rw [nextTable_link w hw] at hu
      split_ifs at hu with h1
      · -- the new page has no entries yet
        obtain rfl : p = u := by simpa using hu
        rw [nextTable_link w hw, if_neg (fun h => hpt h.1), hpn l hl] at hx
        simp at hx
      · rw [nextTable_link w hw] at hx
        split_ifs at hx with h2
        · obtain ⟨rfl, rfl⟩ := h2
          have hmid : a = .mid s j := hf.unique ha ⟨hs, hj, hu⟩
          subst hmid
          exact Or.inr ⟨rfl, by simpa using hx.symm⟩
        · exact Or.inl ⟨hs, hj, hl, u, hu, hx⟩
    · rintro (⟨hs, hj, hl, u, hu, hx⟩ | ⟨hc, rfl⟩)
      · refine ⟨hs, hj, hl, u, ?_, ?_⟩
        · rw [nextTable_link w hw, if_neg]
          · exact hu
          · rintro ⟨rfl, rfl⟩
            rw [hnew] at hu
            simp at hu
        · rw [nextTable_link w hw, if_neg]
          · exact hx
          · rintro ⟨rfl, rfl⟩
            rw [hnew] at hx
            simp at hx
      · cases a with
        | root r => simp [Position.child] at hc
        | mid r n =>
          simp only [Position.child, Position.last.injEq] at hc
          obtain ⟨rfl, rfl, rfl⟩ := hc
          refine ⟨ha.1, ha.2.1, hi, t, ?_, ?_⟩
          · rw [nextTable_link w hw, if_neg]
            · exact ha.2.2
            · rintro ⟨rfl, rfl⟩
              have hroot : At m roots (.root s) s := ⟨ha.1, rfl⟩
              have := hf.unique ha hroot
              simp at this
          · simp [nextTable_link w hw]
        | last r n q => simp [Position.inner] at hin

theorem isTable_link (x : ℕ) : IsTable (m.setWord t i w) roots x ↔ IsTable m roots x ∨ x = p := by
  simp only [IsTable, at_link hf ha hin hi hnew hp hz w hw]
  constructor
  · rintro ⟨b, hb | hb⟩
    · exact Or.inl ⟨b, hb⟩
    · exact Or.inr hb.2
  · rintro (⟨b, hb⟩ | rfl)
    · exact ⟨b, Or.inl hb⟩
    · exact ⟨a.child i, Or.inr ⟨rfl, rfl⟩⟩

theorem Forest.link (hflags : pteFlags w = pteV) : Forest (m.setWord t i w) roots where
  unique := by
    intro x b c hb hc
    rw [at_link hf ha hin hi hnew hp hz w hw] at hb hc
    rcases hb with hb | ⟨rfl, rfl⟩ <;> rcases hc with hc | ⟨rfl, hx⟩
    · exact hf.unique hb hc
    · exact absurd ⟨b, hx ▸ hb⟩ hp
    · exact absurd ⟨c, hc⟩ hp
    · rfl
  plain := by
    intro b x j hb hbin hj hval
    rw [at_link hf ha hin hi hnew hp hz w hw] at hb
    have hpt : p ≠ t := fun h => hp (h ▸ ⟨a, ha⟩)
    rcases hb with hb | ⟨rfl, rfl⟩
    · by_cases hxt : x = t ∧ j = i
      · obtain ⟨rfl, rfl⟩ := hxt
        simpa using hflags
      · have hwd := Memory.word_setWord_of_ne m t x i j w (by tauto)
        rw [hwd] at hval ⊢
        exact hf.plain hb hbin hj hval
    · have hwd := Memory.word_setWord_of_ne m t x i j w (Or.inl hpt)
      rw [hwd, hz j, pteValid_zero] at hval
      simp at hval

omit hi in
/-- A fresh page-table page changes no entry of any map. -/
theorem leaf_link {s x : ℕ} (hs : s ∈ roots) (hx : x < vpnLimit) :
    leaf (m.setWord t i w) s x = leaf m s x := by
  have hpt : p ≠ t := fun h => hp (h ▸ ⟨a, ha⟩)
  have hpn : ∀ l < 512, nextTable m p l = none := fun l hl =>
    (drained_of_zero hz).next_none hl
  unfold leaf leafTable
  rw [nextTable_link w hw]
  split_ifs with h1
  · obtain ⟨rfl, h1⟩ := h1
    rw [h1, hnew]
    simp only [Option.bind_some, Option.bind_none]
    rw [nextTable_link w hw, if_neg (fun h => hpt h.1), hpn _ (vpn1_lt x)]
  · cases hu : nextTable m s (vpn2 x) with
    | none => simp only [Option.bind_none]
    | some u =>
      simp only [Option.bind_some]
      rw [nextTable_link w hw]
      split_ifs with h2
      · obtain ⟨rfl, h2⟩ := h2
        rw [h2, hnew]
        simp only
        rw [Memory.word_setWord_of_ne m _ _ _ _ w (Or.inl hpt), hz]
      · cases hq : nextTable m u (vpn1 x) with
        | none => simp only
        | some q =>
          simp only
          apply Memory.word_setWord_of_ne
          by_contra hc
          push Not at hc
          have hmem : At m roots (.last s (vpn2 x) (vpn1 x)) q :=
            ⟨hs, vpn2_lt hx, vpn1_lt x, u, hu, hq⟩
          rw [hc.1] at hmem
          have := hf.unique hmem ha
          subst this
          simp [Position.inner] at hin

end Link

section Unlink

variable {p : ℕ} {a : Position} (hf : Forest m roots) (ha : At m roots a t)
  (hin : a.inner = true) (hi : i < 512) (hnext : nextTable m t i = some p) (hd : Drained m p)

theorem nextTable_unlink (u j : ℕ) : nextTable (m.setWord t i 0#64) u j =
    if u = t ∧ j = i then none else nextTable m u j := by
  by_cases h : u = t ∧ j = i
  · obtain ⟨rfl, rfl⟩ := h
    simp [nextTable]
  · rw [if_neg h]
    have hne : u ≠ t ∨ j ≠ i := by tauto
    simp [nextTable, Memory.word_setWord_of_ne m t u i j 0#64 hne]

include hf ha hin hi hnext hd

omit hf hd in
theorem at_child : At m roots (a.child i) p := by
  cases a with
  | root r =>
    obtain ⟨hr, rfl⟩ := ha
    exact ⟨hr, hi, hnext⟩
  | mid r n => exact ⟨ha.1, ha.2.1, hi, t, ha.2.2, hnext⟩
  | last r n q => simp [Position.inner] at hin

theorem at_unlink (b : Position) (x : ℕ) : At (m.setWord t i 0#64) roots b x ↔
    At m roots b x ∧ b ≠ a.child i := by
  cases b with
  | root s =>
    have hne : Position.root s ≠ a.child i := by cases a <;> simp [Position.child]
    simp [At, hne]
  | mid s j =>
    by_cases hs : s = t ∧ j = i ∧ s ∈ roots
    · obtain ⟨rfl, rfl, hs⟩ := hs
      have hroot : a = .root s := hf.unique ha ⟨hs, rfl⟩
      subst hroot
      simp [At, nextTable_unlink, Position.child]
    · have hne : s ∈ roots → Position.mid s j ≠ a.child i := by
        intro hsr hc
        cases a with
        | root r =>
          simp only [Position.child, Position.mid.injEq] at hc
          exact hs ⟨hc.1.trans ha.2.symm, hc.2, hsr⟩
        | mid r l => simp [Position.child] at hc
        | last r l n => simp [Position.child] at hc
      simp only [At, nextTable_unlink]
      constructor
      · rintro ⟨h1, h2, h3⟩
        rw [if_neg (fun h => hs ⟨h.1, h.2, h1⟩)] at h3
        exact ⟨⟨h1, h2, h3⟩, hne h1⟩
      · rintro ⟨⟨h1, h2, h3⟩, -⟩
        rw [if_neg (fun h => hs ⟨h.1, h.2, h1⟩)]
        exact ⟨h1, h2, h3⟩
  | last s j l =>
    constructor
    · rintro ⟨hs, hj, hl, u, hu, hx⟩
      rw [nextTable_unlink] at hu hx
      split_ifs at hu hx with h1 h2
      refine ⟨⟨hs, hj, hl, u, hu, hx⟩, ?_⟩
      intro hc
      cases a with
      | root r => simp [Position.child] at hc
      | mid r n =>
        simp only [Position.child, Position.last.injEq] at hc
        obtain ⟨rfl, rfl, rfl⟩ := hc
        have : u = t := by
          have := hu.symm.trans ha.2.2
          simpa using this
        exact h2 ⟨this, rfl⟩
      | last r n q => simp [Position.inner] at hin
    · rintro ⟨⟨hs, hj, hl, u, hu, hx⟩, hne⟩
      refine ⟨hs, hj, hl, u, ?_, ?_⟩
      · rw [nextTable_unlink, if_neg]
        · exact hu
        · -- otherwise the position goes through the drained page
          rintro ⟨rfl, rfl⟩
          rw [hnext] at hu
          obtain rfl : p = u := by simpa using hu
          rw [hd.next_none hl] at hx
          simp at hx
      · rw [nextTable_unlink, if_neg]
        · exact hx
        · rintro ⟨rfl, rfl⟩
          have hmid : a = .mid s j := hf.unique ha ⟨hs, hj, hu⟩
          subst hmid
          exact hne rfl

theorem isTable_unlink (x : ℕ) :
    IsTable (m.setWord t i 0#64) roots x ↔ IsTable m roots x ∧ x ≠ p := by
  have hc := at_child ha hin hi hnext
  simp only [IsTable, at_unlink hf ha hin hi hnext hd]
  constructor
  · rintro ⟨b, hb, hne⟩
    refine ⟨⟨b, hb⟩, ?_⟩
    rintro rfl
    exact hne (hf.unique hb hc)
  · rintro ⟨⟨b, hb⟩, hx⟩
    refine ⟨b, hb, ?_⟩
    rintro rfl
    apply hx
    cases a with
    | root r =>
      have h := hb.2.2.symm.trans hc.2.2
      simpa using h
    | mid r n =>
      obtain ⟨-, -, -, u, hu, hux⟩ := hb
      obtain ⟨-, -, -, u', hu', hup⟩ := hc
      obtain rfl : u = u' := by simpa using hu.symm.trans hu'
      simpa using hux.symm.trans hup
    | last r n q => simp [Position.inner] at hin

theorem Forest.unlink : Forest (m.setWord t i 0#64) roots where
  unique hb hc := hf.unique ((at_unlink hf ha hin hi hnext hd _ _).mp hb).1
    ((at_unlink hf ha hin hi hnext hd _ _).mp hc).1
  plain := by
    intro b x j hb hbin hj hval
    have hb' := ((at_unlink hf ha hin hi hnext hd _ _).mp hb).1
    by_cases hxt : x = t ∧ j = i
    · obtain ⟨rfl, rfl⟩ := hxt
      simp at hval
    · have hwd := Memory.word_setWord_of_ne m t x i j 0#64 (by tauto)
      rw [hwd] at hval ⊢
      exact hf.plain hb' hbin hj hval

omit hi hd in
/-- Unlinking a drained page keeps the maps of the other roots. -/
theorem leaf_unlink_of_ne {s x : ℕ} (hs : s ∈ roots) (hx : x < vpnLimit) (hne : s ≠ a.base) :
    leaf (m.setWord t i 0#64) s x = leaf m s x := by
  have hst : ∀ {b u}, At m roots b u → b.base = s → u ≠ t := by
    rintro b u hb hbs rfl
    have := hf.unique hb ha
    subst this
    exact hne hbs.symm
  unfold leaf leafTable
  rw [nextTable_unlink, if_neg (fun h => hst (b := .root s) ⟨hs, rfl⟩ rfl h.1)]
  cases hu : nextTable m s (vpn2 x) with
  | none => simp only [Option.bind_none]
  | some u =>
    simp only [Option.bind_some]
    have hau : At m roots (.mid s (vpn2 x)) u := ⟨hs, vpn2_lt hx, hu⟩
    rw [nextTable_unlink, if_neg (fun h => hst hau rfl h.1)]
    cases hq : nextTable m u (vpn1 x) with
    | none => simp only
    | some q =>
      simp only
      have haq : At m roots (.last s (vpn2 x) (vpn1 x)) q :=
        ⟨hs, vpn2_lt hx, vpn1_lt x, u, hu, hq⟩
      exact Memory.word_setWord_of_ne m _ _ _ _ 0#64 (Or.inl (hst haq rfl))

omit hi hd in
/-- Unlinking a page creates no valid entry. -/
theorem not_valid_leaf_unlink {s x : ℕ} (hs : s ∈ roots) (hx : x < vpnLimit)
    (hval : pteValid (leaf m s x) = false) : pteValid (leaf (m.setWord t i 0#64) s x) = false := by
  unfold leaf leafTable at hval ⊢
  rw [nextTable_unlink]
  split_ifs with h1
  · simp
  · cases hu : nextTable m s (vpn2 x) with
    | none => simp
    | some u =>
      simp only [Option.bind_some]
      rw [nextTable_unlink]
      split_ifs with h2
      · simp
      · rw [hu] at hval
        simp only [Option.bind_some] at hval
        cases hq : nextTable m u (vpn1 x) with
        | none => simp
        | some q =>
          rw [hq] at hval
          simp only at hval ⊢
          have haq : At m roots (.last s (vpn2 x) (vpn1 x)) q :=
            ⟨hs, vpn2_lt hx, vpn1_lt x, u, hu, hq⟩
          have hqt : q ≠ t := by
            rintro rfl
            have := hf.unique haq ha
            subst this
            simp [Position.inner] at hin
          rw [Memory.word_setWord_of_ne m _ _ _ _ 0#64 (Or.inl hqt)]
          exact hval

end Unlink

section Roots

variable {p : ℕ} (hf : Forest m roots)

/-- A zeroed page outside the tables becomes the root of an empty table. -/
theorem at_insert (hz : ∀ j, m.word p j = 0#64) (b : Position) (x : ℕ) :
    At m (insert p roots) b x ↔ At m roots b x ∨ (b = .root p ∧ x = p) := by
  have hpn : ∀ l < 512, nextTable m p l = none := fun l hl =>
    (drained_of_zero hz).next_none hl
  cases b with
  | root s =>
    simp only [At, Finset.mem_insert, Position.root.injEq]
    constructor
    · rintro ⟨rfl | hs, rfl⟩
      · exact Or.inr ⟨rfl, rfl⟩
      · exact Or.inl ⟨hs, rfl⟩
    · rintro (⟨hs, rfl⟩ | ⟨rfl, rfl⟩)
      · exact ⟨Or.inr hs, rfl⟩
      · exact ⟨Or.inl rfl, rfl⟩
  | mid s j =>
    simp only [At, Finset.mem_insert, reduceCtorEq, false_and, or_false]
    constructor
    · rintro ⟨rfl | hs, hj, hx⟩
      · rw [hpn j hj] at hx
        simp at hx
      · exact ⟨hs, hj, hx⟩
    · rintro ⟨hs, hj, hx⟩
      exact ⟨Or.inr hs, hj, hx⟩
  | last s j l =>
    simp only [At, Finset.mem_insert, reduceCtorEq, false_and, or_false]
    constructor
    · rintro ⟨rfl | hs, hj, hl, u, hu, hx⟩
      · rw [hpn j hj] at hu
        simp at hu
      · exact ⟨hs, hj, hl, u, hu, hx⟩
    · rintro ⟨hs, hj, hl, u, hu, hx⟩
      exact ⟨Or.inr hs, hj, hl, u, hu, hx⟩

theorem isTable_insert (hz : ∀ j, m.word p j = 0#64) (x : ℕ) :
    IsTable m (insert p roots) x ↔ IsTable m roots x ∨ x = p := by
  simp only [IsTable, at_insert hz]
  constructor
  · rintro ⟨b, hb | hb⟩
    · exact Or.inl ⟨b, hb⟩
    · exact Or.inr hb.2
  · rintro (⟨b, hb⟩ | rfl)
    · exact ⟨b, Or.inl hb⟩
    · exact ⟨.root x, Or.inr ⟨rfl, rfl⟩⟩

include hf in
theorem Forest.insert (hp : ¬ IsTable m roots p) (hz : ∀ j, m.word p j = 0#64) :
    Forest m (insert p roots) where
  unique := by
    intro x b c hb hc
    rw [at_insert hz] at hb hc
    rcases hb with hb | ⟨rfl, rfl⟩ <;> rcases hc with hc | ⟨rfl, hx⟩
    · exact hf.unique hb hc
    · exact absurd ⟨b, hx ▸ hb⟩ hp
    · exact absurd ⟨c, hc⟩ hp
    · rfl
  plain := by
    intro b x j hb hbin hj hval
    rw [at_insert hz] at hb
    rcases hb with hb | ⟨rfl, rfl⟩
    · exact hf.plain hb hbin hj hval
    · rw [hz j, pteValid_zero] at hval
      simp at hval

theorem leaf_of_zero (hz : ∀ j, m.word p j = 0#64) {v : ℕ} (hv : v < vpnLimit) :
    leaf m p v = 0#64 := by
  unfold leaf leafTable
  rw [(drained_of_zero hz).next_none (vpn2_lt hv)]
  rfl

/-- A drained root can be dropped from the set of roots. -/
theorem at_erase (hd : Drained m r) (b : Position) (x : ℕ) :
    At m (roots.erase r) b x ↔ At m roots b x ∧ b ≠ .root r := by
  cases b with
  | root s =>
    simp only [At, Finset.mem_erase, ne_eq, Position.root.injEq]
    tauto
  | mid s j =>
    simp only [At, Finset.mem_erase, ne_eq, reduceCtorEq, not_false_eq_true, and_true]
    constructor
    · rintro ⟨⟨-, hs⟩, hj, hx⟩
      exact ⟨hs, hj, hx⟩
    · rintro ⟨hs, hj, hx⟩
      refine ⟨⟨?_, hs⟩, hj, hx⟩
      rintro rfl
      rw [hd.next_none hj] at hx
      simp at hx
  | last s j l =>
    simp only [At, Finset.mem_erase, ne_eq, reduceCtorEq, not_false_eq_true, and_true]
    constructor
    · rintro ⟨⟨-, hs⟩, hj, hl, u, hu, hx⟩
      exact ⟨hs, hj, hl, u, hu, hx⟩
    · rintro ⟨hs, hj, hl, u, hu, hx⟩
      refine ⟨⟨?_, hs⟩, hj, hl, u, hu, hx⟩
      rintro rfl
      rw [hd.next_none hj] at hu
      simp at hu

include hf in
theorem isTable_erase (hr : r ∈ roots) (hd : Drained m r) (x : ℕ) :
    IsTable m (roots.erase r) x ↔ IsTable m roots x ∧ x ≠ r := by
  simp only [IsTable, at_erase hd]
  constructor
  · rintro ⟨b, hb, hne⟩
    refine ⟨⟨b, hb⟩, ?_⟩
    rintro rfl
    exact hne (hf.unique hb ⟨hr, rfl⟩)
  · rintro ⟨⟨b, hb⟩, hx⟩
    refine ⟨b, hb, ?_⟩
    rintro rfl
    exact hx hb.2

include hf in
theorem Forest.erase (hd : Drained m r) : Forest m (roots.erase r) where
  unique hb hc := hf.unique ((at_erase hd _ _).mp hb).1 ((at_erase hd _ _).mp hc).1
  plain hb := hf.plain ((at_erase hd _ _).mp hb).1

end Roots

end XV6AndConcurrency.VirtualMemory
