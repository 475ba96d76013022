import XV6AndConcurrency.Foundations.PostOrder
import XV6AndConcurrency.VirtualMemory.FaultPaths
import XV6AndConcurrency.VirtualMemory.Freeing
import XV6AndConcurrency.VirtualMemory.Slots

/-!
# Page tables implement maps from virtual pages to entries

What `walk`, `mappages` and `freewalk` do to a well-formed table, whatever the allocator
answers and whatever the reference counts are. `freewalk` visits the page-table pages in
post-order, so it is a run of `kfree` along that list.
-/

namespace XV6AndConcurrency.VirtualMemory

open Foundations

/-- The free lists and the reference counts are the same. -/
def SameBooks (k k' : Kernel) : Prop :=
  k'.freelist = k.freelist ∧ k'.referenceCount = k.referenceCount

/-- What a run of `kfree` over some pages makes of the state. -/
def releaseAll (k : Kernel) (l : List ℕ) : Kernel := l.foldl Kernel.release k

/-- The page-table pages of the table rooted at `t` with `d` levels, as `freewalk` frees
them. -/
def treePages (m : Memory) (d t : ℕ) : List ℕ := postOrder (nextTable m) (List.range 512) d t

/-- A tree of `d` levels without leaves: a valid entry points at a page of the level below,
and those of the last level are all invalid. -/
def Bare (m : Memory) : ℕ → ℕ → Prop
  | 0, _ => False
  | d + 1, t => ∀ i < 512, pteValid (m.word t i) = true →
      m.word t i &&& (pteR ||| pteW ||| pteX) = 0#64 ∧ Bare m d (pte2pa (m.word t i))

variable {L : Layout} {k k' k'' : Kernel} {roots : Finset ℕ} {r t p d i n : ℕ} {l : List ℕ}
  {m : Memory}

/-! ## Runs of `kfree` -/

section Books

theorem SameBooks.refl : SameBooks k k := ⟨rfl, rfl⟩

theorem SameBooks.trans (h : SameBooks k k') (h' : SameBooks k' k'') : SameBooks k k'' :=
  ⟨h'.1.trans h.1, h'.2.trans h.2⟩

theorem SameBooks.refs (h : SameBooks k k') (p : ℕ) : k'.refs p = k.refs p := by
  simp [Kernel.refs, h.2]

/-- What `kfree` does to the books depends on them alone. -/
theorem SameBooks.release (h : SameBooks k k') (p : ℕ) :
    SameBooks (k.release p) (k'.release p) := by
  constructor
  · rw [k'.release_freelist, k.release_freelist, h.refs, h.1]
  · have hr := h.refs p
    unfold Kernel.release
    rw [hr]
    split_ifs
    · simp [Kernel.setRefs, h.2]
    · simp [Kernel.setRefs, h.2]

theorem SameBooks.releaseAll (h : SameBooks k k') (l : List ℕ) :
    SameBooks (releaseAll k l) (releaseAll k' l) := by
  induction l generalizing k k' with
  | nil => exact h
  | cons p l ih => exact ih (h.release p)

/-- Every page of a list without repetitions loses one reference. -/
theorem releaseAll_refs (hl : l.Nodup) (ha : ∀ q ∈ l, q % 4096 = 0) (hp : p % 4096 = 0) :
    (releaseAll k l).refs p = k.refs p - if p ∈ l then 1 else 0 := by
  induction l generalizing k with
  | nil => simp [releaseAll]
  | cons q l ih =>
    obtain ⟨hq, hl⟩ := List.nodup_cons.mp hl
    have hrec := ih (k := k.release q) hl fun x hx => ha x (List.mem_cons_of_mem _ hx)
    rw [show releaseAll k (q :: l) = releaseAll (k.release q) l from rfl, hrec]
    by_cases hpq : p = q
    · subst hpq
      simp [hq, k.release_refs_self]
    · rw [k.release_refs_of_ne (ha q List.mem_cons_self) hp hpq]
      simp [hpq]

/-- The pages of the list that nobody else refers to end up on the free list. -/
theorem releaseAll_freelist (hl : l.Nodup) (ha : ∀ q ∈ l, q % 4096 = 0) :
    (releaseAll k l).freelist =
      (l.filter fun p => k.refs p ≤ 1).reverse ++ k.freelist := by
  induction l generalizing k with
  | nil => rfl
  | cons q l ih =>
    obtain ⟨hq, hl⟩ := List.nodup_cons.mp hl
    have hrec := ih (k := k.release q) hl fun x hx => ha x (List.mem_cons_of_mem _ hx)
    have hfilter : (l.filter fun p => (k.release q).refs p ≤ 1) =
        l.filter fun p => k.refs p ≤ 1 := by
      apply List.filter_congr
      intro x hx
      have hxq : x ≠ q := fun h => hq (h ▸ hx)
      rw [k.release_refs_of_ne (ha q List.mem_cons_self) (ha x (List.mem_cons_of_mem _ hx)) hxq]
    rw [show releaseAll k (q :: l) = releaseAll (k.release q) l from rfl, hrec, hfilter,
      k.release_freelist]
    by_cases h1 : 1 < k.refs q
    · rw [if_pos h1, List.filter_cons_of_neg (by simpa using h1)]
    · rw [if_neg h1, List.filter_cons_of_pos (by simpa using h1)]
      simp

end Books

/-! ## Freeing a tree -/

/-- The pages below the entries from `i` on, `n` of them. -/
def childPages (m : Memory) (d t i n : ℕ) : List ℕ :=
  ((List.range' i n).filterMap (nextTable m t)).flatMap (treePages m d)

theorem treePages_succ : treePages m (d + 1) t = childPages m d t 0 512 ++ [t] := by
  rw [childPages, ← List.range_eq_range']
  rfl

theorem childPages_some {u : ℕ} (h : nextTable m t i = some u) :
    childPages m d t i (n + 1) = treePages m d u ++ childPages m d t (i + 1) n := by
  simp [childPages, List.range'_succ, h]

theorem childPages_none (h : nextTable m t i = none) :
    childPages m d t i (n + 1) = childPages m d t (i + 1) n := by
  simp [childPages, List.range'_succ, h]

/-- The loop of `freewalk` over the entries from `i` on, given what freeing the pages of the
level below does. -/
theorem freewalkLoop_frees (hfree : ∀ u k, Bare m d u → (treePages m d u).Nodup →
      (∀ p ∈ treePages m d u, IsPage L p ∧ k.mem p = m p) →
      Ensures (freewalk L d u) (fun _ k' => SameBooks (releaseAll k (treePages m d u)) k' ∧
        ∀ p, p ∉ treePages m d u → k'.mem p = k.mem p) k)
    (hbare : Bare m (d + 1) t) (hn : i + n ≤ 512) (hnd : (childPages m d t i n).Nodup)
    (ht : t ∉ childPages m d t i n)
    (hmem : ∀ p ∈ childPages m d t i n, IsPage L p ∧ k.mem p = m p)
    (hword : ∀ j, i ≤ j → k.mem.word t j = m.word t j) :
    Ensures (freewalkLoop (freewalk L d) t n i) (fun _ k' =>
      SameBooks (releaseAll k (childPages m d t i n)) k' ∧
      ∀ p, p ∉ childPages m d t i n → p ≠ t → k'.mem p = k.mem p) k := by
  induction n generalizing k i with
  | zero => exact .of_pure ⟨.refl, fun _ _ _ => rfl⟩
  | succ n ih =>
    unfold freewalkLoop
    refine .bind_of_run (a := k.mem.word t i) (t := k) rfl ?_
    rw [hword i le_rfl]
    by_cases hval : pteValid (m.word t i) = true
    · obtain ⟨hplain, hchild⟩ := hbare i (by omega) hval
      have hnext : nextTable m t i = some (pte2pa (m.word t i)) := by simp [nextTable, hval]
      rw [childPages_some hnext] at hnd ht hmem ⊢
      rw [if_pos ⟨by simp [hval], hplain⟩]
      obtain ⟨hnd1, hnd2, hdisj⟩ := List.nodup_append'.mp hnd
      rw [List.mem_append, not_or] at ht
      apply (hfree _ k hchild hnd1 fun p hp => hmem p (List.mem_append_left _ hp)).bind
      rintro - k1 ⟨hb1, hm1⟩
      refine .bind_of_run (a := ()) rfl ?_
      -- the entry is cleared; the pages below the later ones are as they were
      have hm2 : ∀ p ∈ childPages m d t (i + 1) n,
          IsPage L p ∧ (k1.mem.setWord t i 0#64) p = m p := by
        intro p hp
        obtain ⟨hP, hpm⟩ := hmem p (List.mem_append_right _ hp)
        have hpt : p ≠ t := by
          rintro rfl
          exact ht.2 hp
        refine ⟨hP, ?_⟩
        rw [Memory.setWord_of_ne _ _ _ _ _ hpt, hm1 p fun hc => hdisj hc hp, hpm]
      have hw2 : ∀ j, i + 1 ≤ j → (k1.mem.setWord t i 0#64).word t j = m.word t j := by
        intro j hj
        rw [Memory.word_setWord_of_ne _ _ _ _ _ _ (Or.inr (by omega)),
          Memory.word_congr (hm1 t ht.1)]
        exact hword j (by omega)
      apply (ih (k := k1.setMem (k1.mem.setWord t i 0#64)) (by omega) hnd2 ht.2 hm2 hw2).mono
      rintro - k3 ⟨hb3, hm3⟩
      constructor
      · rw [releaseAll, List.foldl_append]
        have hb1' : SameBooks (releaseAll k (treePages m d (pte2pa (m.word t i))))
            (k1.setMem (k1.mem.setWord t i 0#64)) := hb1
        exact (hb1'.releaseAll _).trans hb3
      · intro p hp hpt
        rw [List.mem_append, not_or] at hp
        rw [hm3 p hp.2 hpt]
        exact (Memory.setWord_of_ne _ _ _ _ _ hpt).trans (hm1 p hp.1)
    · have hval : pteValid (m.word t i) = false := by simpa using hval
      have hnext : nextTable m t i = none := by simp [nextTable, hval]
      rw [childPages_none hnext] at hnd ht hmem ⊢
      rw [if_neg (by simp [hval]), if_neg (by simp [hval])]
      exact ih (by omega) hnd ht hmem fun j hj => hword j (by omega)

/-- `freewalk` on a tree without leaves is a run of `kfree` over its pages. -/
theorem freewalk_frees (hbare : Bare m d t) (hnd : (treePages m d t).Nodup)
    (hmem : ∀ p ∈ treePages m d t, IsPage L p ∧ k.mem p = m p) :
    Ensures (freewalk L d t) (fun _ k' => SameBooks (releaseAll k (treePages m d t)) k' ∧
      ∀ p, p ∉ treePages m d t → k'.mem p = k.mem p) k := by
  induction d generalizing k t with
  | zero => exact hbare.elim
  | succ d ih =>
    rw [treePages_succ] at hnd hmem ⊢
    obtain ⟨hnd1, -, hdisj⟩ := List.nodup_append'.mp hnd
    have ht := hmem t (List.mem_append_right _ (List.mem_singleton_self t))
    unfold freewalk
    apply (freewalkLoop_frees (fun u k hu hn hm => ih hu hn hm) hbare le_rfl hnd1
      (fun hc => hdisj hc (List.mem_singleton_self t))
      (fun p hp => hmem p (List.mem_append_left _ hp))
      fun j _ => Memory.word_congr ht.2 j).bind
    rintro - k1 ⟨hb1, hm1⟩
    refine .of_run (kfree_run ht.1) ⟨?_, ?_⟩
    · rw [releaseAll, List.foldl_append]
      exact hb1.release t
    · intro p hp
      rw [List.mem_append, List.mem_singleton, not_or] at hp
      rw [Kernel.release_mem_of_ne _ hp.2]
      exact hm1 p hp.1 hp.2

/-! ## Trees of three levels -/

/-- More levels to go add nothing to a tree that ends before. -/
theorem Bare.succ (h : Bare m d t) :
    Bare m (d + 1) t ∧ treePages m (d + 1) t = treePages m d t := by
  induction d generalizing t with
  | zero => exact h.elim
  | succ d ih =>
    constructor
    · intro i hi hval
      obtain ⟨hplain, hchild⟩ := h i hi hval
      exact ⟨hplain, (ih hchild).1⟩
    · have hflat : childPages m (d + 1) t 0 512 = childPages m d t 0 512 := ?_
      · rw [treePages_succ, treePages_succ, hflat]
      apply List.flatMap_congr
      intro u hu
      obtain ⟨i, hi, hu⟩ := List.mem_filterMap.mp hu
      obtain ⟨hval, rfl⟩ := nextTable_eq_some.mp hu
      have hi : i < 512 := by
        rw [List.mem_range'_1] at hi
        omega
      exact (ih (h i hi hval).2).2

theorem Bare.add (h : Bare m d t) (n : ℕ) :
    Bare m (n + d) t ∧ treePages m (n + d) t = treePages m d t := by
  induction n with
  | zero => simpa using h
  | succ n ih =>
    have hs := ih.1.succ
    rw [show n + 1 + d = n + d + 1 by omega]
    exact ⟨hs.1, hs.2.trans ih.2⟩

/-- An entry with no flag but `PTE_V` has no permission bits. -/
theorem plain_entry {w : Pte} (h : pteFlags w = pteV) :
    w &&& (pteR ||| pteW ||| pteX) = 0#64 := by
  apply pte_ext
  intro j _
  have hj : pteBit j (pteFlags w) = pteBit j pteV := by rw [h]
  simp only [pteBit_pteFlags, pteBit_pteV] at hj
  by_cases hj10 : j < 10
  · simp only [hj10, decide_true, Bool.and_true] at hj
    simp [hj]
    omega
  · simp
    omega

/-- A well-formed table without valid entries is a tree without leaves. -/
theorem bare_of_clean (hf : Forest k.mem roots) (hr : r ∈ roots) (hclean : Clean k.mem r) :
    Bare k.mem 3 r := by
  intro i hi hval
  have hroot : At k.mem roots (.root r) r := ⟨hr, rfl⟩
  have hnext : nextTable k.mem r i = some (pte2pa (k.mem.word r i)) := by simp [nextTable, hval]
  refine ⟨plain_entry (hf.plain hroot rfl hi hval), ?_⟩
  have hmid := at_child hroot rfl hi hnext
  intro j hj hval'
  have hnext' : nextTable k.mem (pte2pa (k.mem.word r i)) j =
      some (pte2pa (k.mem.word (pte2pa (k.mem.word r i)) j)) := by simp [nextTable, hval']
  refine ⟨plain_entry (hf.plain hmid rfl hj hval'), ?_⟩
  have hlast := at_child hmid rfl hj hnext'
  intro l hl hval''
  have := drained_of_clean hclean hlast l hl
  simp [this] at hval''

/-- The position at the end of a path from the root. -/
def Position.ofPath (r : ℕ) : List ℕ → Position
  | [] => .root r
  | [i] => .mid r i
  | i :: j :: _ => .last r i j

theorem at_ofPath {path : List ℕ} (hw : Within (List.range 512) 3 path) :
    At m {r} (.ofPath r path) p ↔ follow (nextTable m) r path = some p := by
  obtain ⟨hlen, hmem⟩ := hw
  simp only [List.mem_range] at hmem
  match path with
  | [] => simp [Position.ofPath, At, follow, eq_comm]
  | [i] =>
    have hi := hmem i (by simp)
    simp [Position.ofPath, At, follow, hi]
  | [i, j] =>
    have hi := hmem i (by simp)
    have hj := hmem j (by simp)
    simp [Position.ofPath, At, follow, hi, hj, Option.bind_eq_some_iff]
  | _ :: _ :: _ :: _ =>
    simp only [List.length_cons] at hlen
    omega

/-- The pages `freewalk` visits are those of the table, -/
theorem mem_treePages : p ∈ treePages m 3 r ↔ IsTable m {r} p := by
  unfold treePages
  rw [mem_postOrder]
  constructor
  · rintro ⟨path, hw, hf⟩
    exact ⟨_, (at_ofPath hw).mpr hf⟩
  · rintro ⟨a, ha⟩
    have hbase := ha.base_mem
    rw [Finset.mem_singleton] at hbase
    obtain ⟨path, hw, rfl⟩ : ∃ path, Within (List.range 512) 3 path ∧ a = .ofPath r path := by
      cases a with
      | root s =>
        obtain rfl : s = r := hbase
        exact ⟨[], within_nil (by omega), rfl⟩
      | mid s i =>
        obtain rfl : s = r := hbase
        exact ⟨[i], by simp [Within, ha.2.1], rfl⟩
      | last s i j =>
        obtain rfl : s = r := hbase
        exact ⟨[i, j], by simp [Within, ha.2.1, ha.2.2.1], rfl⟩
    exact ⟨path, hw, (at_ofPath hw).mp ha⟩

theorem at_of_singleton (hr : r ∈ roots) {a : Position} (ha : At m {r} a p) : At m roots a p := by
  have hbase := ha.base_mem
  rw [Finset.mem_singleton] at hbase
  cases a with
  | root s => exact ⟨(show s = r from hbase) ▸ hr, ha.2⟩
  | mid s i => exact ⟨(show s = r from hbase) ▸ hr, ha.2⟩
  | last s i j => exact ⟨(show s = r from hbase) ▸ hr, ha.2⟩

/-- each of them once. -/
theorem nodup_treePages (hf : Forest m roots) (hr : r ∈ roots) : (treePages m 3 r).Nodup := by
  apply nodup_postOrder List.nodup_range
  intro p q x hp hq hfp hfq
  have hpos := hf.unique (at_of_singleton hr ((at_ofPath hp).mpr hfp))
    (at_of_singleton hr ((at_ofPath hq).mpr hfq))
  obtain ⟨hp, -⟩ := hp
  obtain ⟨hq, -⟩ := hq
  match p, q with
  | [], [] => rfl
  | [], [_] => simp [Position.ofPath] at hpos
  | [], [_, _] => simp [Position.ofPath] at hpos
  | [_], [] => simp [Position.ofPath] at hpos
  | [_], [_] => simpa [Position.ofPath] using hpos
  | [_], [_, _] => simp [Position.ofPath] at hpos
  | [_, _], [] => simp [Position.ofPath] at hpos
  | [_, _], [_] => simp [Position.ofPath] at hpos
  | [_, _], [_, _] => simpa [Position.ofPath] using hpos
  | _ :: _ :: _ :: _, _ =>
    simp only [List.length_cons] at hp
    omega
  | _, _ :: _ :: _ :: _ =>
    simp only [List.length_cons] at hq
    omega

/-- Freeing a table without valid entries: every page of it is given to `kfree` once, and
nothing else is touched. -/
theorem freewalk_frees_once (h : TableState L k roots) (hr : r ∈ roots) (hclean : Clean k.mem r)
    (depth : ℕ) : ∃ (k' : Kernel) (l : List ℕ), freewalk L (depth + 3) r k = .ok ((), k') ∧
      l.Nodup ∧
      (∀ p, p ∈ l ↔ IsTable k.mem {r} p) ∧
      (∀ p, p % pgsize = 0 → k'.refs p = k.refs p - if p ∈ l then 1 else 0) ∧
      k'.freelist = (l.filter fun p => k.refs p ≤ 1).reverse ++ k.freelist ∧
      ∀ p, p ∉ l → k'.mem p = k.mem p := by
  have hnd := nodup_treePages h.forest hr
  have hpage : ∀ p ∈ treePages k.mem 3 r, IsPage L p := by
    intro p hp
    obtain ⟨a, ha⟩ := mem_treePages.mp hp
    exact h.pages p ⟨a, at_of_singleton hr ha⟩
  have halign : ∀ p ∈ treePages k.mem 3 r, p % 4096 = 0 := fun p hp => (hpage p hp).1
  obtain ⟨hbare, hpages⟩ := (bare_of_clean h.forest hr hclean).add depth
  obtain ⟨⟨⟩, k', hrun, hb, hm⟩ := freewalk_frees (L := L) (k := k) hbare (by rwa [hpages]) (by
    intro p hp
    rw [hpages] at hp
    exact ⟨hpage p hp, rfl⟩)
  rw [hpages] at hb hm
  refine ⟨k', treePages k.mem 3 r, hrun, hnd, fun p => mem_treePages, ?_, ?_, hm⟩
  · intro p hp
    rw [hb.refs, releaseAll_refs hnd halign hp]
  · rw [hb.1, releaseAll_freelist hnd halign]

/-! ## The page table as a map -/

/-- A well-formed page table is a map from virtual pages to PTEs: a slot is the slot of one
page, `mappages` maps all the pages of a fresh range or the first few of them and leaves the
others alone, and `freewalk` of a table without leaves frees every page-table page once. -/
theorem page_table_is_a_map (h : TableState L k roots) (hr : r ∈ roots) :
    (∀ va < maxva, ∀ k, pteOf r va k = .ok (leaf k.mem r (va / pgsize), k)) ∧
    (∀ va < maxva, ∀ va' < maxva, ∀ alloc alloc' slot res k' k'',
      walk r va alloc k = .ok (some slot, k') → walk r va' alloc' k' = .ok (res, k'') →
      (res = some slot ↔ va / pgsize = va' / pgsize)) ∧
    (∀ va size pa perm, 0 < size → va + size ≤ maxva →
      (∀ i < pagesOf va size, pteValid (leaf k.mem r (va / pgsize + i)) = false) →
      ∃ done k' n, mappages r va size pa perm k = .ok (done, k') ∧ TableState L k' roots ∧
        (if done then n = pagesOf va size else n < pagesOf va size) ∧
        (∀ s ∈ roots, ∀ x < vpnLimit, leaf k'.mem s x =
          if s = r then mapRange (leaf k.mem r) (va / pgsize) pa perm n x
          else leaf k.mem s x) ∧
        (pa % pgsize = 0 → pa + pagesOf va size * pgsize ≤ 2 ^ 56 →
          (∀ j, 10 ≤ j → pteBit j perm = false) →
          ∀ i < n, Maps (leaf k'.mem r (va / pgsize + i)) (pa + i * pgsize) ∧
            pteFlags (leaf k'.mem r (va / pgsize + i)) = perm ||| pteV)) ∧
    (Clean k.mem r → ∀ depth, ∃ (k' : Kernel) (l : List ℕ),
      freewalk L (depth + 3) r k = .ok ((), k') ∧ l.Nodup ∧
      (∀ p, p ∈ l ↔ IsTable k.mem {r} p) ∧
      (∀ p, p % pgsize = 0 → k'.refs p = k.refs p - if p ∈ l then 1 else 0) ∧
      k'.freelist = (l.filter fun p => k.refs p ≤ 1).reverse ++ k.freelist ∧
      ∀ p, p ∉ l → k'.mem p = k.mem p) := by
  refine ⟨fun va hva k => pteOf_run hva r k, ?_, ?_, fun hc => freewalk_frees_once h hr hc⟩
  · intro va hva va' hva' alloc alloc' slot res k' k'' hw hw'
    exact walk_slot_iff h hr hva hva' hw hw'
  · intro va size pa perm hsize hva hnew
    obtain ⟨done, k', hrun, h', n, hn, hm⟩ := mappages_maps pa perm h hr hsize hva hnew
    refine ⟨done, k', n, hrun, h', hn, hm, ?_⟩
    intro hpa hb hperm i hi
    have hcount : n ≤ pagesOf va size := by
      cases done
      · exact (show n < pagesOf va size from hn).le
      · exact (show n = pagesOf va size from hn).le
    have hx : va / pgsize + i < vpnLimit := by
      rw [maxva_eq] at hva
      unfold vpnLimit
      unfold pagesOf pgsize at hcount
      unfold pgsize
      omega
    have hb' : pa + n * pgsize ≤ 2 ^ 56 := by
      have := Nat.mul_le_mul_right pgsize hcount
      omega
    rw [hm r hr _ hx, if_pos rfl]
    exact mapRange_maps _ _ hi hpa hb' hperm

/-- A table that holds nothing but its root, and two free pages. -/
def emptyTable : Kernel where
  mem := fun _ _ => 0#8
  freelist := [0x87FF2000, 0x87FF3000]
  referenceCount := fun _ => 1

theorem word_emptyTable (p j : ℕ) : emptyTable.mem.word p j = 0#64 := by
  simp [Memory.word, leNat, emptyTable]

theorem emptyTable_state : TableState smallLayout emptyTable {0x87FF1000} := by
  have hz := word_emptyTable 0x87FF1000
  have hnone : ∀ t, ¬ IsTable emptyTable.mem ∅ t := by
    rintro t ⟨a, ha⟩
    exact absurd ha.base_mem (Finset.notMem_empty _)
  have hempty : Forest emptyTable.mem ∅ :=
    ⟨fun ha => absurd ⟨_, ha⟩ (hnone _), fun ha => absurd ⟨_, ha⟩ (hnone _)⟩
  have htab : ∀ t, IsTable emptyTable.mem {0x87FF1000} t ↔ t = 0x87FF1000 := by
    intro t
    have hinsert : IsTable emptyTable.mem (insert 0x87FF1000 ∅) t ↔
        IsTable emptyTable.mem ∅ t ∨ t = 0x87FF1000 := isTable_insert hz t
    simpa [hnone] using hinsert
  refine ⟨by simpa using hempty.insert (hnone _) hz, ?_, by decide, ?_⟩
  · intro t ht
    obtain rfl := (htab t).mp ht
    decide
  · intro p hp
    rw [htab]
    simp only [emptyTable, List.mem_cons, List.not_mem_nil, or_false] at hp
    rcases hp with rfl | rfl <;> exact ⟨by decide, by decide⟩

theorem emptyTable_is_a_map :
    (∃ done k', mappages 0x87FF1000 0 pgsize 0x87FF4000 (pteR ||| pteU) emptyTable =
      .ok (done, k') ∧ leaf k'.mem 0x87FF1000 1 = 0#64) ∧
    ∃ k', freewalk smallLayout 3 0x87FF1000 emptyTable = .ok ((), k') := by
  have hz := word_emptyTable 0x87FF1000
  have hmem : 0x87FF1000 ∈ ({0x87FF1000} : Finset ℕ) := Finset.mem_singleton_self _
  obtain ⟨-, -, hmap, hfree⟩ := page_table_is_a_map emptyTable_state hmem
  constructor
  · obtain ⟨done, k', n, hrun, -, hn, hleaf, -⟩ := hmap 0 pgsize 0x87FF4000 (pteR ||| pteU)
      (by decide) (by decide) (by
        intro i hi
        have h1 : pagesOf 0 pgsize = 1 := by decide
        rw [leaf_of_zero hz (by unfold vpnLimit pgsize; omega)]
        exact pteValid_zero)
    refine ⟨done, k', hrun, ?_⟩
    have h1 : pagesOf 0 pgsize = 1 := by decide
    have hn1 : n ≤ 1 := by
      rw [h1] at hn
      cases done
      · exact (show n < 1 from hn).le
      · exact (show n = 1 from hn).le
    rw [hleaf _ hmem 1 (by decide), if_pos rfl, mapRange_outside _ _ (Or.inr (by simpa using hn1)),
      leaf_of_zero hz (by decide)]
  · obtain ⟨k', l, hrun, -⟩ := hfree (fun x hx => by
      rw [leaf_of_zero hz hx]
      exact pteValid_zero) 0
    exact ⟨k', hrun⟩

end XV6AndConcurrency.VirtualMemory
