import XV6AndConcurrency.FileSystem.StoredInodes

/-!
# Allocating blocks for an inode

What `balloc` and `bmap` do to the ledger: a free block goes to an empty slot of one inode.
Blocks are zeroed when they are allocated, so that no byte of a file changes.
-/

namespace XV6AndConcurrency.FileSystem

open Foundations

variable {sb : Superblock} {search : Fs → Option ℕ} {s s' : Fs} {cache cache' : ℕ → Block}
  {nodes nodes' : ℕ → Dinode} {n : Dinode} {b bn c i j k : ℕ}

/-! ## Taking a block -/

/-- The blocks after `balloc` has taken block `b`. -/
def taken (sb : Superblock) (cache : ℕ → Block) (b : ℕ) : ℕ → Block :=
  Function.update (Function.update cache (sb.bblock b)
    ((cache (sb.bblock b)).setBit (b % bpb))) b fun _ => 0

theorem balloc_of_none (h : search s = none) : balloc sb search s = .ok (0, s) := by
  simp [balloc, h]

theorem balloc_of_some (h : search s = some b) :
    balloc sb search s = .ok (b, ⟨taken sb s.cache b, s.logged ++ [sb.bblock b, b]⟩) := by
  simp [balloc, h, edit, logWrite, bzero, taken]

@[simp] theorem taken_self : taken sb cache b b = fun _ => 0 := Function.update_self ..

theorem taken_of_ne (hb : c ≠ b) (hmap : c ≠ sb.bblock b) : taken sb cache b c = cache c := by
  unfold taken
  rw [Function.update_of_ne hb, Function.update_of_ne hmap]

section

variable (h : Owned sb cache nodes) (hb : b < sb.size) (hfree : bitmap sb cache b = false)
include h hb

theorem taken_of_data (hc : sb.nmeta ≤ c) (hne : c ≠ b) : taken sb cache b c = cache c :=
  taken_of_ne hne ((h.bblock_lt hb).trans_le hc).ne'

include hfree

theorem taken_of_lt (hc : c < sb.bmapstart) : taken sb cache b c = cache c := by
  have hrange := h.free_range hfree
  have hmap := h.layout.bmapstart_lt hb
  exact taken_of_ne (by omega) (hc.trans_le (le_bblock sb b)).ne

/-- One more bit is set. -/
theorem bitmap_taken (hc : c < sb.size) :
    bitmap sb (taken sb cache b) c = (decide (c = b) || bitmap sb cache c) := by
  have hrange := h.free_range hfree
  have hcmap := h.bblock_lt hc
  unfold bitmap taken
  rw [Function.update_of_ne (by omega)]
  by_cases hmap : sb.bblock c = sb.bblock b
  · rw [hmap, Function.update_self, Block.bit_setBit]
    congr 2
    apply propext
    unfold Superblock.bblock bpb bsize at *
    omega
  · rw [Function.update_of_ne hmap, decide_eq_false (by rintro rfl; exact hmap rfl),
      Bool.false_or]

theorem taken_indirect (hi : i < sb.ninodes) (hne : (nodes i).addrs ndirect ≠ 0) :
    taken sb cache b ((nodes i).addrs ndirect) = cache ((nodes i).addrs ndirect) := by
  refine taken_of_data h hb (h.indirect_range hi hne).1 fun heq => ?_
  refine h.slot_ne_free hfree hi (k := ndirect) (by decide) (h.free_pos hb hfree) ?_
  rw [slot_of_le le_rfl, heq]

theorem slot_taken (hi : i < sb.ninodes) (k : ℕ) :
    slot (taken sb cache b) (nodes i) k = slot cache (nodes i) k :=
  slot_congr rfl (taken_indirect h hb hfree hi) k

end

/-! ## Filling a slot -/

/-- The effect of allocation for inode `i`: only empty slots of it have changed. -/
structure Grown (sb : Superblock) (i : ℕ) (cache cache' : ℕ → Block) (nodes nodes' : ℕ → Dinode) :
    Prop where
  owned : Owned sb cache' nodes'
  node : nodes' i = { nodes i with addrs := (nodes' i).addrs }
  others : ∀ j, j ≠ i → nodes' j = nodes j
  slots : ∀ j < sb.ninodes, ∀ k ≤ maxfile, slot cache (nodes j) k ≠ 0 →
    slot cache' (nodes' j) k = slot cache (nodes j) k
  bytes : ∀ j < sb.ninodes, ∀ p < maxfile * bsize,
    byteAt cache' (nodes' j) p = byteAt cache (nodes j) p
  inodes : ∀ b < sb.bmapstart, cache' b = cache b

theorem Grown.refl (h : Owned sb cache nodes) (i : ℕ) : Grown sb i cache cache nodes nodes :=
  ⟨h, rfl, fun _ _ => rfl, fun _ _ _ _ _ => rfl, fun _ _ _ _ => rfl, fun _ _ => rfl⟩

theorem Grown.trans {cache'' : ℕ → Block} {nodes'' : ℕ → Dinode}
    (h : Grown sb i cache cache' nodes nodes') (h' : Grown sb i cache' cache'' nodes' nodes'') :
    Grown sb i cache cache'' nodes nodes'' := by
  refine ⟨h'.owned, ?_, fun j hj => (h'.others j hj).trans (h.others j hj), fun j hj k hk hne => ?_,
    fun j hj p hp => (h'.bytes j hj p hp).trans (h.bytes j hj p hp),
    fun b hb => (h'.inodes b hb).trans (h.inodes b hb)⟩
  · rw [h'.node, h.node]
  · have hslot := h.slots j hj k hk hne
    rw [h'.slots j hj k hk (hslot ▸ hne), hslot]

/-- A free block, zeroed, goes to the empty slot `k` of inode `i`. -/
theorem Owned.fill (h : Owned sb cache nodes) (hi : i < sb.ninodes) (htype : (nodes i).type ≠ 0)
    (hk : k ≤ maxfile) (hb : b < sb.size) (hfree : bitmap sb cache b = false)
    (hempty : slot cache (nodes i) k = 0)
    (hslot : ∀ j < sb.ninodes, ∀ l ≤ maxfile,
      slot cache' (nodes' j) l = if j = i ∧ l = k then b else slot cache (nodes j) l)
    (hbit : ∀ c < sb.size, bitmap sb cache' c = (decide (c = b) || bitmap sb cache c))
    (hzero : cache' b = fun _ => 0)
    (hdata : ∀ j < sb.ninodes, ∀ bn < maxfile, slot cache (nodes j) (dataSlot bn) ≠ 0 →
      cache' (slot cache (nodes j) (dataSlot bn)) = cache (slot cache (nodes j) (dataSlot bn)))
    (hinodes : ∀ b < sb.bmapstart, cache' b = cache b)
    (hnode : nodes' i = { nodes i with addrs := (nodes' i).addrs })
    (hothers : ∀ j, j ≠ i → nodes' j = nodes j) (hfits : (nodes' i).Fits) :
    Grown sb i cache cache' nodes nodes' := by
  have hb0 := h.free_pos hb hfree
  have hkept : ∀ j < sb.ninodes, ∀ l ≤ maxfile, slot cache (nodes j) l ≠ 0 →
      slot cache' (nodes' j) l = slot cache (nodes j) l := by
    intro j hj l hl hne
    rw [hslot j hj l hl, if_neg]
    rintro ⟨rfl, rfl⟩
    exact hne hempty
  refine ⟨⟨h.layout, ?_, fun j hj => ?_⟩, hnode, hothers, hkept, fun j hj p hp => ?_, hinodes⟩
  · refine (h.ledger.take (place_eq_none hempty) (b := b)
      (by rw [hfree]; simp)).congr ?_ ?_
    · rintro ⟨j, l⟩
      by_cases hjl : (j, l) = (i, k)
      · rw [hjl, Function.update_self]
        refine place_eq_some.mpr ⟨⟨hi, hk⟩, hb0, ?_⟩
        rw [hslot i hi k hk, if_pos ⟨rfl, rfl⟩]
      · rw [Function.update_of_ne hjl]
        unfold place
        by_cases hrange : j < sb.ninodes ∧ l ≤ maxfile
        · have hsame := hslot j hrange.1 l hrange.2
          rw [if_neg fun hc => hjl (Prod.ext hc.1 hc.2)] at hsame
          rw [hsame]
        · rw [if_neg fun hc => hrange ⟨hc.1, hc.2.1⟩, if_neg fun hc => hrange ⟨hc.1, hc.2.1⟩]
    · intro c
      constructor
      · rintro ⟨hc, hbitc⟩
        rw [hbit c hc, Bool.or_eq_true, decide_eq_true_eq] at hbitc
        exact hbitc.imp_right fun hold => ⟨hc, hold⟩
      · rintro (rfl | ⟨hc, hold⟩)
        · exact ⟨hb, by rw [hbit _ hb]; simp⟩
        · exact ⟨hc, by rw [hbit _ hc, hold]; simp⟩
  · have hs := h.sound j hj
    have hcov : ∀ bn, bn * bsize < (nodes j).size → slot cache' (nodes' j) (dataSlot bn) ≠ 0 := by
      intro bn hbn
      have hmax : bn < maxfile :=
        Nat.lt_of_mul_lt_mul_right (a := bsize) (hbn.trans_le hs.small)
      rw [hkept j hj _ (dataSlot_le hmax) (hs.covered bn hbn)]
      exact hs.covered bn hbn
    by_cases hji : j = i
    · subst hji
      refine ⟨hfits, ?_, ?_, ?_⟩
      · rw [hnode]
        exact hs.small
      · rw [hnode]
        intro bn hbn
        rw [← hnode]
        exact hcov bn hbn
      · rw [hnode]
        exact fun hz => absurd hz htype
    · rw [hothers j hji] at hcov ⊢
      exact ⟨hs.fits, hs.small, hcov, hs.unused⟩
  · have hmax := div_bsize_lt hp
    unfold byteAt
    by_cases hold : slot cache (nodes j) (dataSlot (p / bsize)) = 0
    · rw [if_pos hold, hslot j hj _ (dataSlot_le hmax)]
      by_cases hc : j = i ∧ dataSlot (p / bsize) = k
      · rw [if_pos hc, if_neg hb0, hzero]
      · rw [if_neg hc, if_pos hold]
    · rw [hkept j hj _ (dataSlot_le hmax) hold, if_neg hold, if_neg hold,
        hdata j hj _ hmax hold]

/-! ## The two kinds of slot -/

@[simp] theorem Dinode.addrs_setAddr (n : Dinode) (k b : ℕ) :
    (n.setAddr k b).addrs = Function.update n.addrs k b := rfl

theorem Dinode.Fits.setAddr (h : n.Fits) (hk : k ≤ ndirect) (hb : b < 4294967296) :
    (n.setAddr k b).Fits := by
  refine ⟨h.type, h.major, h.minor, h.nlink, h.size, fun l => ?_, fun l hl => ?_⟩
  · rw [addrs_setAddr]
    by_cases hl : l = k
    · rwa [hl, Function.update_self]
    · rw [Function.update_of_ne hl]
      exact h.addrs l
  · rw [addrs_setAddr, Function.update_of_ne (hk.trans_lt hl).ne']
    exact h.spare l hl

theorem slot_setAddr_of_le {l : ℕ} (hl : l ≤ ndirect) :
    slot cache (n.setAddr k b) l = if l = k then b else slot cache n l := by
  rw [slot_of_le hl, slot_of_le hl]
  exact Function.update_apply ..

/-- The slots of an inode, with a zeroed block in one that `addrs` holds. -/
theorem slot_setAddr (hempty : n.addrs k = 0) (hk : k ≤ ndirect) (hb0 : b ≠ 0)
    (hzero : cache b = fun _ => 0) (l : ℕ) :
    slot cache (n.setAddr k b) l = if l = k then b else slot cache n l := by
  by_cases hl : l ≤ ndirect
  · exact slot_setAddr_of_le hl
  rw [slot_of_lt (not_le.mp hl), slot_of_lt (not_le.mp hl), if_neg (show l ≠ k by omega)]
  rw [Dinode.addrs_setAddr]
  by_cases hkn : ndirect = k
  · subst hkn
    simp only [Function.update_self, hb0, if_false, hzero, hempty, if_true]
    exact Block.word_zero _
  · simp only [Function.update_of_ne hkn]

theorem Owned.data_ne_indirect (h : Owned sb cache nodes) (hi : i < sb.ninodes)
    (hj : j < sb.ninodes) (hbn : bn < maxfile) (hne : slot cache (nodes j) (dataSlot bn) ≠ 0) :
    slot cache (nodes j) (dataSlot bn) ≠ (nodes i).addrs ndirect := by
  intro heq
  rw [← slot_indirect cache (nodes i)] at heq
  exact dataSlot_ne bn (h.slot_inj hj (dataSlot_le hbn) hi (by decide) hne heq).2

/-- A free block for one of the addresses in the inode. -/
theorem Owned.fill_addr (h : Owned sb cache nodes) (hi : i < sb.ninodes)
    (htype : (nodes i).type ≠ 0) (hk : k ≤ ndirect) (hempty : (nodes i).addrs k = 0)
    (hb : b < sb.size) (hfree : bitmap sb cache b = false) :
    Grown sb i cache (taken sb cache b) nodes
      (Function.update nodes i ((nodes i).setAddr k b)) := by
  have hmax : ndirect ≤ maxfile := by decide
  refine h.fill hi htype (hk.trans hmax) hb hfree (by rwa [slot_of_le hk]) ?_
    (fun c hc => bitmap_taken h hb hfree hc) taken_self ?_
    (fun c hc => taken_of_lt h hb hfree hc) (by rw [Function.update_self]; rfl)
    (fun j hj => Function.update_of_ne hj _ _) ?_
  · intro j hj l _
    by_cases hji : j = i
    · subst hji
      rw [Function.update_self, slot_setAddr hempty hk (h.free_pos hb hfree) taken_self,
        slot_taken h hb hfree hj]
      simp
    · rw [Function.update_of_ne hji, slot_taken h hb hfree hj, if_neg fun hc => hji hc.1]
  · intro j hj bn hbn hne
    exact taken_of_data h hb (h.slot_range hj (dataSlot_le hbn) hne).1
      (h.slot_ne_free hfree hj (dataSlot_le hbn) (h.free_pos hb hfree))
  · rw [Function.update_self]
    exact (h.sound i hi).fits.setAddr hk (hb.trans_le h.layout.size)

/-- A free block for an entry of the indirect block. -/
theorem Owned.fill_entry (h : Owned sb cache nodes) (hi : i < sb.ninodes)
    (htype : (nodes i).type ≠ 0) (hj : j < nindirect) (hptr : (nodes i).addrs ndirect ≠ 0)
    (hempty : (cache ((nodes i).addrs ndirect)).word j = 0)
    (hb : b < sb.size) (hfree : bitmap sb cache b = false) :
    Grown sb i cache (Function.update (taken sb cache b) ((nodes i).addrs ndirect)
      ((cache ((nodes i).addrs ndirect)).setWord j b)) nodes nodes := by
  have hind := h.indirect_range hi hptr
  have hbne : b ≠ (nodes i).addrs ndirect := by
    intro heq
    refine h.slot_ne_free hfree hi (k := ndirect) (by decide) (h.free_pos hb hfree) ?_
    rw [slot_of_le le_rfl, heq]
  have hslotj : ∀ l, ndirect < l → slot cache (nodes i) l =
      (cache ((nodes i).addrs ndirect)).word (l - ndirect - 1) := by
    intro l hl
    rw [slot_of_lt hl, if_neg hptr]
  refine h.fill (k := ndirect + 1 + j) hi htype ?_ hb hfree ?_ ?_ ?_ ?_ ?_ ?_ rfl
    (fun _ _ => rfl) (h.sound i hi).fits
  · unfold maxfile
    omega
  · rw [hslotj _ (by omega), show ndirect + 1 + j - ndirect - 1 = j by omega, hempty]
  · intro l hl m hm
    by_cases hli : l = i
    · subst hli
      by_cases hmn : m ≤ ndirect
      · rw [slot_of_le hmn, slot_of_le hmn, if_neg (by omega)]
      · rw [slot_of_lt (not_le.mp hmn), if_neg hptr, Function.update_self, hslotj m (by omega)]
        by_cases hmj : m = ndirect + 1 + j
        · rw [if_pos ⟨rfl, hmj⟩, hmj, show ndirect + 1 + j - ndirect - 1 = j by omega]
          exact Block.word_setWord_self _ (hb.trans_le h.layout.size)
        · rw [if_neg fun hc => hmj hc.2, Block.word_setWord_of_ne _ (by omega)]
    · rw [if_neg fun hc => hli hc.1]
      refine slot_congr rfl (fun hne => ?_) m
      rw [Function.update_of_ne, taken_indirect h hb hfree hl hne]
      -- indirect blocks are in slots, too
      intro heq
      rw [← slot_indirect cache (nodes l), ← slot_indirect cache (nodes i)] at heq
      exact hli (h.slot_inj hl (by decide) hi (by decide) (by rwa [slot_of_le le_rfl]) heq).1
  · intro c hc
    rw [← bitmap_taken h hb hfree hc]
    unfold bitmap
    rw [Function.update_of_ne (by have := h.bblock_lt hc; omega)]
  · rw [Function.update_of_ne hbne, taken_self]
  · intro l hl bn hbn hne
    rw [Function.update_of_ne (h.data_ne_indirect hi hl hbn hne)]
    exact taken_of_data h hb (h.slot_range hl (dataSlot_le hbn) hne).1
      (h.slot_ne_free hfree hl (dataSlot_le hbn) (h.free_pos hb hfree))
  · intro c hc
    have hmap := h.layout.bmapstart_lt hb
    rw [Function.update_of_ne (by omega), taken_of_lt h hb hfree hc]

/-! ## The functions -/

theorem bmapAddr_of_ne (h : n.addrs k ≠ 0) (s : Fs) :
    bmapAddr sb search n k s = .ok ((n, n.addrs k), s) := by
  simp [bmapAddr, h]

theorem bmapEntry_of_ne (h : (s.cache b).word j ≠ 0) :
    bmapEntry sb search b j s = .ok ((s.cache b).word j, s) := by
  simp [bmapEntry, bread, h]

theorem bmapAddr_spec (h : Owned sb s.cache nodes) (hi : i < sb.ninodes)
    (htype : (nodes i).type ≠ 0) (hk : k ≤ ndirect) :
    Ensures (bmapAddr sb (firstFree sb) (nodes i) k) (fun r s' =>
      Grown sb i s.cache s'.cache nodes (Function.update nodes i r.1) ∧ r.2 = r.1.addrs k ∧
        (r.2 = 0 → Full sb s'.cache)) s := by
  by_cases hempty : (nodes i).addrs k = 0
  · unfold bmapAddr
    rw [if_pos hempty]
    cases hsearch : firstFree sb s with
    | none =>
      refine .bind_of_run (balloc_of_none hsearch) (.of_pure ⟨?_, hempty.symm, fun _ b hb => ?_⟩)
      · rw [Function.update_eq_self]
        exact .refl h i
      · exact firstFree_eq_none hsearch hb
    | some b =>
      obtain ⟨hb, hfree⟩ := firstFree_eq_some hsearch
      have hb0 := h.free_pos hb hfree
      refine .bind_of_run (balloc_of_some hsearch) ?_
      rw [if_neg hb0]
      refine .of_pure ⟨h.fill_addr hi htype hk hempty hb hfree, ?_, fun hz => absurd hz hb0⟩
      rw [Dinode.addrs_setAddr, Function.update_self]
  · refine .of_run (bmapAddr_of_ne hempty s) ⟨?_, rfl, fun hz => absurd hz hempty⟩
    rw [Function.update_eq_self]
    exact .refl h i

theorem bmapEntry_spec (h : Owned sb s.cache nodes) (hi : i < sb.ninodes)
    (htype : (nodes i).type ≠ 0) (hj : j < nindirect) (hptr : (nodes i).addrs ndirect ≠ 0) :
    Ensures (bmapEntry sb (firstFree sb) ((nodes i).addrs ndirect) j) (fun r s' =>
      Grown sb i s.cache s'.cache nodes nodes ∧
        r = (s'.cache ((nodes i).addrs ndirect)).word j ∧ (r = 0 → Full sb s'.cache)) s := by
  by_cases hempty : (s.cache ((nodes i).addrs ndirect)).word j = 0
  · unfold bmapEntry bread
    refine .look_bind ?_
    rw [if_pos hempty]
    cases hsearch : firstFree sb s with
    | none =>
      refine .bind_of_run (balloc_of_none hsearch) ?_
      exact .of_pure ⟨.refl h i, hempty.symm, fun _ b hb => firstFree_eq_none hsearch hb⟩
    | some b =>
      obtain ⟨hb, hfree⟩ := firstFree_eq_some hsearch
      have hb0 := h.free_pos hb hfree
      refine .bind_of_run (balloc_of_some hsearch) ?_
      rw [if_neg hb0]
      refine .modify_bind (.modify_bind (.of_pure ⟨?_, ?_, fun hz => absurd hz hb0⟩))
      · dsimp only
        rw [taken_indirect h hb hfree hi hptr]
        exact h.fill_entry hi htype hj hptr hempty hb hfree
      · dsimp only
        rw [Function.update_self]
        exact (Block.word_setWord_self _ (hb.trans_le h.layout.size)).symm
  · exact .of_run (bmapEntry_of_ne hempty) ⟨.refl h i, rfl, fun hz => absurd hz hempty⟩

/-- `bmap` returns the block in the slot of `bn`, which is empty only if the disk is full. -/
theorem bmap_spec (h : Owned sb s.cache nodes) (hi : i < sb.ninodes)
    (htype : (nodes i).type ≠ 0) (hbn : bn < maxfile) :
    Ensures (bmap sb (firstFree sb) (nodes i) bn) (fun r s' =>
      Grown sb i s.cache s'.cache nodes (Function.update nodes i r.1) ∧
        r.2 = slot s'.cache r.1 (dataSlot bn) ∧ (r.2 = 0 → Full sb s'.cache)) s := by
  unfold bmap
  by_cases hdirect : bn < ndirect
  · rw [if_pos hdirect, dataSlot_of_lt hdirect]
    refine (bmapAddr_spec h hi htype hdirect.le).mono fun r s' hr => ?_
    rw [slot_of_le hdirect.le]
    exact hr
  · have hentry : bn - ndirect < nindirect := by
      unfold maxfile at hbn
      omega
    rw [if_neg hdirect, if_pos hentry, dataSlot_of_le (not_lt.mp hdirect)]
    refine (bmapAddr_spec h hi htype le_rfl).bind fun r s1 ⟨hgrown, hr, hfull⟩ => ?_
    have hslot : ∀ cache, slot cache r.1 (bn + 1) =
        if r.1.addrs ndirect = 0 then 0 else
          (cache (r.1.addrs ndirect)).word (bn - ndirect) := by
      intro cache
      rw [slot_of_lt (by omega), show bn + 1 - ndirect - 1 = bn - ndirect by omega]
    by_cases hzero : r.2 = 0
    · rw [if_pos hzero]
      refine .of_pure ⟨hgrown, ?_, hfull⟩
      rw [hslot, if_pos (hr ▸ hzero), hzero]
    · rw [if_neg hzero, hr]
      have hptr : r.1.addrs ndirect ≠ 0 := hr ▸ hzero
      have hnode : Function.update nodes i r.1 i = r.1 := Function.update_self ..
      have htype' : r.1.type ≠ 0 := by
        have := hgrown.node
        rw [hnode] at this
        rw [this]
        exact htype
      have hspec := bmapEntry_spec hgrown.owned hi (by rwa [hnode]) hentry (by rwa [hnode])
      rw [hnode] at hspec
      refine hspec.bind fun r' s2 ⟨hgrown', hr', hfull'⟩ => ?_
      refine .of_pure ⟨hgrown.trans hgrown', ?_, hfull'⟩
      rw [hslot, if_neg hptr]
      exact hr'

/-- A block that is there is found, and nothing is allocated. -/
theorem bmap_of_mapped (hbn : bn < maxfile) (h : slot s.cache n (dataSlot bn) ≠ 0) :
    bmap sb search n bn s = .ok ((n, slot s.cache n (dataSlot bn)), s) := by
  unfold bmap
  by_cases hdirect : bn < ndirect
  · rw [dataSlot_of_lt hdirect, slot_of_le hdirect.le] at h ⊢
    rw [if_pos hdirect]
    exact bmapAddr_of_ne h s
  · have hentry : bn - ndirect < nindirect := by
      unfold maxfile at hbn
      omega
    rw [dataSlot_of_le (not_lt.mp hdirect), slot_of_lt (by omega),
      show bn + 1 - ndirect - 1 = bn - ndirect by omega] at h ⊢
    have hptr : n.addrs ndirect ≠ 0 := fun hz => h (if_pos hz)
    rw [if_neg hptr] at h ⊢
    rw [if_neg hdirect, if_pos hentry]
    simp [bmapAddr_of_ne hptr, hptr, bmapEntry_of_ne h]

end XV6AndConcurrency.FileSystem
