import XV6AndConcurrency.FileSystem.Slots

/-!
# Inodes in their blocks

An inode is read back as it was stored, and storing one changes no other inode, no slot and no
bit of the bitmap.
-/

namespace XV6AndConcurrency.FileSystem

open Foundations

theorem ofShort_lt (x : ℤ) : ofShort x < 65536 := by
  unfold ofShort
  omega

theorem toShort_ofShort {x : ℤ} (h : -32768 ≤ x ∧ x < 32768) : toShort (ofShort x) = x := by
  unfold toShort ofShort
  split_ifs <;> omega

namespace Dinode

variable {n : Dinode} {a b : Block} {i k : ℕ}

@[simp] theorem length_words (n : Dinode) : n.words.length = 16 := by simp [words, ndirect]

theorem words_lt (h : n.Fits) : ∀ w ∈ n.words, w < 4294967296 := by
  have htype := h.type
  have hmajor := ofShort_lt n.major
  have hminor := ofShort_lt n.minor
  have hnlink := ofShort_lt n.nlink
  simp only [words, List.mem_append, List.mem_cons, List.not_mem_nil, or_false, List.mem_map]
  rintro w ((rfl | rfl | rfl) | ⟨k, -, rfl⟩)
  · omega
  · omega
  · exact h.size
  · exact h.addrs k

theorem load_congr (h : ∀ k < 16, a.word (i + k) = b.word (i + k)) : load a i = load b i := by
  have h0 := h 0 (by decide)
  rw [Nat.add_zero] at h0
  unfold load
  rw [h0, h 1 (by decide), h 2 (by decide)]
  congr 1
  funext k
  split_ifs with hk
  · have hk' : 3 + k < 16 := by
      unfold ndirect at hk
      omega
    have := h (3 + k) hk'
    rwa [← Nat.add_assoc] at this
  · rfl

theorem words_addrs (n : Dinode) (hk : k ≤ ndirect) : n.words.getD (k + 3) 0 = n.addrs k := by
  have hlt : k < ndirect + 1 := Nat.lt_succ_of_le hk
  simp [words, hlt]

/-- A stored inode is read back. -/
theorem load_setWords (b : Block) (i : ℕ) (h : n.Fits) : load (b.setWords i n.words) i = n := by
  have hword : ∀ k < 16, (b.setWords i n.words).word (i + k) = n.words.getD k 0 := by
    intro k hk
    rw [← length_words n] at hk
    rw [b.word_setWords (words_lt h) hk, List.getD_eq_getElem?_getD,
      List.getElem?_eq_getElem hk, Option.getD_some]
  have h0 : (b.setWords i n.words).word i = n.type + 65536 * ofShort n.major :=
    hword 0 (by decide)
  have h1 : (b.setWords i n.words).word (i + 1) = ofShort n.minor + 65536 * ofShort n.nlink :=
    hword 1 (by decide)
  have h2 : (b.setWords i n.words).word (i + 2) = n.size := hword 2 (by decide)
  have hmajor := ofShort_lt n.major
  have hminor := ofShort_lt n.minor
  have htype := h.type
  unfold load
  rw [h0, h1, h2]
  obtain ⟨type, major, minor, nlink, size, addrs⟩ := n
  dsimp only at *
  congr 1
  · omega
  · rw [show (type + 65536 * ofShort major) / 65536 = ofShort major by omega]
    exact toShort_ofShort h.major
  · rw [show (ofShort minor + 65536 * ofShort nlink) % 65536 = ofShort minor by omega]
    exact toShort_ofShort h.minor
  · rw [show (ofShort minor + 65536 * ofShort nlink) / 65536 = ofShort nlink by omega]
    exact toShort_ofShort h.nlink
  · funext k
    split_ifs with hk
    · have hk' : k + 3 < 16 := by
        unfold ndirect at hk
        omega
      rw [Nat.add_assoc, Nat.add_comm 3 k, hword _ hk', words_addrs _ hk]
    · exact (h.spare k (not_le.mp hk)).symm

end Dinode

variable {sb : Superblock} {cache cache' : ℕ → Block} {nodes : ℕ → Dinode} {n : Dinode}
  {b i j k : ℕ}

theorem dinode_congr (h : cache' (sb.iblock j) = cache (sb.iblock j)) :
    dinode sb cache' j = dinode sb cache j := by
  unfold dinode
  rw [h]

/-- The blocks after an inode is stored. -/
def stored (sb : Superblock) (cache : ℕ → Block) (i : ℕ) (n : Dinode) : ℕ → Block :=
  Function.update cache (sb.iblock i) ((cache (sb.iblock i)).setWords (16 * (i % ipb)) n.words)

theorem storeDinode_run (s : Fs) (i : ℕ) (n : Dinode) :
    storeDinode sb i n s =
      .ok ((), ⟨stored sb s.cache i n, s.logged ++ [sb.iblock i]⟩) := rfl

theorem stored_of_ne (h : b ≠ sb.iblock i) : stored sb cache i n b = cache b :=
  Function.update_of_ne h _ _

theorem dinode_stored (h : n.Fits) (j : ℕ) :
    dinode sb (stored sb cache i n) j = Function.update (dinode sb cache) i n j := by
  by_cases hji : j = i
  · subst hji
    rw [Function.update_self]
    unfold dinode stored
    rw [Function.update_self]
    exact Dinode.load_setWords _ _ h
  rw [Function.update_of_ne hji]
  by_cases hblock : sb.iblock j = sb.iblock i
  · unfold dinode stored
    rw [hblock, Function.update_self]
    apply Dinode.load_congr
    -- the two inodes are in one block, at different places
    have hplace : j % ipb ≠ i % ipb := by
      unfold Superblock.iblock ipb at hblock
      unfold ipb
      omega
    intro k hk
    rcases Nat.lt_or_gt_of_ne hplace with hlt | hgt
    · exact Block.word_setWords_of_lt _ (by omega)
    · exact Block.word_setWords_of_le _ (by rw [Dinode.length_words]; omega)
  · exact dinode_congr (stored_of_ne hblock)

/-- A change in front of the bitmap. -/
theorem bitmap_congr (h : ∀ b, sb.bmapstart ≤ b → b < sb.nmeta → cache' b = cache b)
    (hg : DiskLayout sb) (hb : b < sb.size) : bitmap sb cache' b = bitmap sb cache b := by
  unfold bitmap
  rw [h _ (le_bblock sb b) (hg.maps b hb)]

/-- The bitmap and the data blocks are as before. -/
theorem Owned.congr {nodes' : ℕ → Dinode} (h : Owned sb cache nodes)
    (hcache : ∀ b, sb.bmapstart ≤ b → cache' b = cache b)
    (haddrs : ∀ i < sb.ninodes, (nodes' i).addrs = (nodes i).addrs)
    (hsound : ∀ i < sb.ninodes, (nodes i).Sound cache → (nodes' i).Sound cache) :
    Owned sb cache' nodes' := by
  have hslot : ∀ i < sb.ninodes, ∀ {m : Dinode}, m.addrs = (nodes i).addrs →
      ∀ k, slot cache' m k = slot cache (nodes i) k := by
    intro i hi m hm k
    refine slot_congr hm (fun hne => hcache _ ?_) k
    obtain ⟨hlo, hhi⟩ := h.indirect_range hi hne
    exact (h.layout.bmapstart_lt hhi).le.trans hlo
  refine ⟨h.layout, h.ledger.congr (place_congr fun i hi k _ => hslot i hi (haddrs i hi) k) ?_, ?_⟩
  · intro b
    constructor
    · rintro ⟨hb, hbit⟩
      exact ⟨hb, by rwa [bitmap_congr (fun c hc _ => hcache c hc) h.layout hb] at hbit⟩
    · rintro ⟨hb, hbit⟩
      exact ⟨hb, by rwa [bitmap_congr (fun c hc _ => hcache c hc) h.layout hb]⟩
  · intro i hi
    have hs := hsound i hi (h.sound i hi)
    refine ⟨hs.fits, hs.small, fun bn hbn => ?_, hs.unused⟩
    have hold := hs.covered bn hbn
    rw [slot_congr (haddrs i hi) (fun _ => rfl)] at hold
    rwa [hslot i hi (haddrs i hi)]

/-- Storing an inode changes nothing that the ledger looks at. -/
theorem Owned.store (h : Owned sb cache nodes) (hi : i < sb.ninodes) :
    Owned sb (stored sb cache i n) nodes := by
  apply h.congr (fun b hb => stored_of_ne ?_) (fun _ _ => rfl) (fun _ _ => id)
  exact (h.layout.inodes i hi |>.trans_le hb).ne'

/-- The content of a file is in the data blocks. -/
theorem byteAt_congr (h : Owned sb cache nodes) (hi : i < sb.ninodes)
    (hcache : ∀ b, sb.bmapstart ≤ b → cache' b = cache b) {p : ℕ} (hp : p < maxfile * bsize) :
    byteAt cache' (nodes i) p = byteAt cache (nodes i) p := by
  have hslot : ∀ k, slot cache' (nodes i) k = slot cache (nodes i) k := by
    refine slot_congr rfl fun hne => hcache _ ?_
    obtain ⟨hlo, hhi⟩ := h.indirect_range hi hne
    exact (h.layout.bmapstart_lt hhi).le.trans hlo
  unfold byteAt
  rw [hslot]
  split_ifs with hzero
  · rfl
  · obtain ⟨hlo, hhi, -⟩ := h.slot_range hi (dataSlot_le (div_bsize_lt hp)) hzero
    rw [hcache _ ((h.layout.bmapstart_lt hhi).le.trans hlo)]

end XV6AndConcurrency.FileSystem
