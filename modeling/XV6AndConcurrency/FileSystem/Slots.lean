import XV6AndConcurrency.FileSystem.Inodes
import XV6AndConcurrency.Foundations.Ledgers

/-!
# Who owns a block

The slots of an inode are its direct addresses, the address of its indirect block, and the
entries of the latter. A data block is in at most one slot of one inode, and the bitmap marks
the blocks in slots and those in front of the data blocks.
-/

namespace XV6AndConcurrency.FileSystem

open Foundations

/-- The block in slot `k` of an inode, or 0. -/
def slot (cache : ℕ → Block) (n : Dinode) (k : ℕ) : ℕ :=
  if k ≤ ndirect then n.addrs k
  else if n.addrs ndirect = 0 then 0
  else (cache (n.addrs ndirect)).word (k - ndirect - 1)

/-- The slot for block `bn` of a file. -/
def dataSlot (bn : ℕ) : ℕ := if bn < ndirect then bn else bn + 1

variable (sb : Superblock)

/-- The block in a slot, given as an inode number and the number of the slot. -/
def place (cache : ℕ → Block) (nodes : ℕ → Dinode) (x : ℕ × ℕ) : Option ℕ :=
  if x.1 < sb.ninodes ∧ x.2 ≤ maxfile ∧ slot cache (nodes x.1) x.2 ≠ 0 then
    some (slot cache (nodes x.1) x.2)
  else none

/-- The layout of the disk: inodes, then the bitmap, then the data blocks. -/
structure DiskLayout : Prop where
  inodes : ∀ i < sb.ninodes, sb.iblock i < sb.bmapstart
  maps : ∀ b < sb.size, sb.bblock b < sb.nmeta
  size : sb.size ≤ 4294967296

/-- The fields are in the ranges of their C types. -/
structure Dinode.Fits (n : Dinode) : Prop where
  type : n.type < 65536
  major : -32768 ≤ n.major ∧ n.major < 32768
  minor : -32768 ≤ n.minor ∧ n.minor < 32768
  nlink : -32768 ≤ n.nlink ∧ n.nlink < 32768
  size : n.size < 4294967296
  addrs : ∀ k, n.addrs k < 4294967296
  spare : ∀ k, ndirect < k → n.addrs k = 0

/-- The blocks below the size of an inode are allocated, and a free inode has none. -/
structure Dinode.Sound (cache : ℕ → Block) (n : Dinode) : Prop where
  fits : n.Fits
  small : n.size ≤ maxfile * bsize
  covered : ∀ bn, bn * bsize < n.size → slot cache n (dataSlot bn) ≠ 0
  unused : n.type = 0 → n.size = 0 ∧ ∀ k, n.addrs k = 0

/-- Block ownership, for the inodes as they are on disk or in memory. -/
structure Owned (cache : ℕ → Block) (nodes : ℕ → Dinode) : Prop where
  layout : DiskLayout sb
  ledger : Ledger (place sb cache nodes) (· < sb.nmeta)
    fun b => b < sb.size ∧ bitmap sb cache b = true
  sound : ∀ i < sb.ninodes, (nodes i).Sound cache

/-- Byte `p` of a file; what is not allocated is zero. -/
def byteAt (cache : ℕ → Block) (n : Dinode) (p : ℕ) : Byte :=
  if slot cache n (dataSlot (p / bsize)) = 0 then 0
  else cache (slot cache n (dataSlot (p / bsize))) (p % bsize)

/-- No block is free. -/
def Full (cache : ℕ → Block) : Prop := ∀ b < sb.size, bitmap sb cache b = true

variable {sb} {cache cache' : ℕ → Block} {nodes nodes' : ℕ → Dinode} {n : Dinode}
  {b c bn i j k p : ℕ}

/-! ## Slots -/

theorem slot_of_le (hk : k ≤ ndirect) : slot cache n k = n.addrs k := if_pos hk

theorem slot_indirect (cache : ℕ → Block) (n : Dinode) : slot cache n ndirect = n.addrs ndirect :=
  slot_of_le le_rfl

theorem slot_of_lt (hk : ndirect < k) : slot cache n k =
    if n.addrs ndirect = 0 then 0 else (cache (n.addrs ndirect)).word (k - ndirect - 1) :=
  if_neg (not_le.mpr hk)

/-- Slots only look at the indirect block. -/
theorem slot_congr {m : Dinode} (haddrs : m.addrs = n.addrs)
    (h : n.addrs ndirect ≠ 0 → cache' (n.addrs ndirect) = cache (n.addrs ndirect)) (k : ℕ) :
    slot cache' m k = slot cache n k := by
  unfold slot
  rw [haddrs]
  split_ifs with hk hzero
  · rfl
  · rfl
  · rw [h hzero]

theorem byteAt_of_addrs {m : Dinode} (h : m.addrs = n.addrs) (p : ℕ) :
    byteAt cache m p = byteAt cache n p := by
  unfold byteAt
  rw [slot_congr h fun _ => rfl]

theorem dataSlot_inj (h : dataSlot i = dataSlot j) : i = j := by
  unfold dataSlot at h
  split_ifs at h <;> omega

theorem dataSlot_ne (bn : ℕ) : dataSlot bn ≠ ndirect := by
  unfold dataSlot
  split_ifs <;> omega

theorem dataSlot_le (h : bn < maxfile) : dataSlot bn ≤ maxfile := by
  unfold dataSlot
  split_ifs <;> omega

theorem dataSlot_of_lt (h : bn < ndirect) : dataSlot bn = bn := if_pos h

theorem dataSlot_of_le (h : ndirect ≤ bn) : dataSlot bn = bn + 1 := if_neg (not_lt.mpr h)

theorem div_bsize_lt (h : p < maxfile * bsize) : p / bsize < maxfile :=
  Nat.div_lt_of_lt_mul (by rwa [Nat.mul_comm])

/-! ## Places -/

theorem place_eq_some : place sb cache nodes (i, k) = some b ↔
    (i < sb.ninodes ∧ k ≤ maxfile) ∧ b ≠ 0 ∧ slot cache (nodes i) k = b := by
  unfold place
  constructor
  · intro h
    split_ifs at h with hc
    cases h
    exact ⟨⟨hc.1, hc.2.1⟩, hc.2.2, rfl⟩
  · rintro ⟨⟨hi, hk⟩, hb, rfl⟩
    exact if_pos ⟨hi, hk, hb⟩

theorem place_eq_none (h : slot cache (nodes i) k = 0) : place sb cache nodes (i, k) = none :=
  if_neg fun hc => hc.2.2 h

theorem place_congr
    (h : ∀ i < sb.ninodes, ∀ k ≤ maxfile, slot cache' (nodes' i) k = slot cache (nodes i) k)
    (x : ℕ × ℕ) : place sb cache' nodes' x = place sb cache nodes x := by
  unfold place
  by_cases hx : x.1 < sb.ninodes ∧ x.2 ≤ maxfile
  · rw [h x.1 hx.1 x.2 hx.2]
  · rw [if_neg fun hc => hx ⟨hc.1, hc.2.1⟩, if_neg fun hc => hx ⟨hc.1, hc.2.1⟩]

theorem place_slot (hi : i < sb.ninodes) (hk : k ≤ maxfile) (hne : slot cache (nodes i) k ≠ 0) :
    place sb cache nodes (i, k) = some (slot cache (nodes i) k) :=
  place_eq_some.mpr ⟨⟨hi, hk⟩, hne, rfl⟩

namespace Owned

variable (h : Owned sb cache nodes)
include h

/-- A block in a slot is a data block. -/
theorem slot_range (hi : i < sb.ninodes) (hk : k ≤ maxfile) (hne : slot cache (nodes i) k ≠ 0) :
    sb.nmeta ≤ slot cache (nodes i) k ∧ slot cache (nodes i) k < sb.size ∧
      bitmap sb cache (slot cache (nodes i) k) = true := by
  have hp := place_slot hi hk hne
  have hmark := h.ledger.marked_of_place hp
  exact ⟨not_lt.mp (h.ledger.apart hp), hmark⟩

/-- No block is in two slots. -/
theorem slot_inj (hi : i < sb.ninodes) (hk : k ≤ maxfile) (hj : j < sb.ninodes) {l : ℕ}
    (hl : l ≤ maxfile) (hne : slot cache (nodes i) k ≠ 0)
    (heq : slot cache (nodes i) k = slot cache (nodes j) l) : i = j ∧ k = l := by
  have hp := place_slot hi hk hne
  have hq := place_slot hj hl (heq ▸ hne)
  rw [← heq] at hq
  exact Prod.ext_iff.mp (h.ledger.unique hp hq)

/-- A block whose bit is clear is a data block in no slot. -/
theorem free_range (hfree : bitmap sb cache b = false) : sb.nmeta ≤ b := by
  by_contra hlt
  have hmark := h.ledger.marked_of_reserved (not_le.mp hlt)
  rw [hfree] at hmark
  exact absurd hmark.2 (by decide)

theorem slot_ne_free (hfree : bitmap sb cache b = false) (hi : i < sb.ninodes) (hk : k ≤ maxfile)
    (hb0 : b ≠ 0) : slot cache (nodes i) k ≠ b := by
  rintro rfl
  have hmark := (h.slot_range hi hk hb0).2.2
  rw [hfree] at hmark
  cases hmark

theorem free_pos (hb : b < sb.size) (hfree : bitmap sb cache b = false) : b ≠ 0 := by
  rintro rfl
  have hmaps := h.layout.maps 0 hb
  have hrange := h.free_range hfree
  omega

theorem bblock_lt (hb : b < sb.size) : sb.bblock b < sb.nmeta := h.layout.maps b hb

theorem indirect_range (hi : i < sb.ninodes) (hne : (nodes i).addrs ndirect ≠ 0) :
    sb.nmeta ≤ (nodes i).addrs ndirect ∧ (nodes i).addrs ndirect < sb.size := by
  have hslot : slot cache (nodes i) ndirect = (nodes i).addrs ndirect := slot_of_le le_rfl
  have hrange := h.slot_range hi (by decide) (hslot ▸ hne)
  rw [hslot] at hrange
  exact ⟨hrange.1, hrange.2.1⟩

/-- The data blocks below the size are allocated. -/
theorem slot_ne_zero (hi : i < sb.ninodes) (hbn : bn * bsize < (nodes i).size) :
    slot cache (nodes i) (dataSlot bn) ≠ 0 := (h.sound i hi).covered bn hbn

end Owned

theorem le_bblock (sb : Superblock) (b : ℕ) : sb.bmapstart ≤ sb.bblock b := Nat.le_add_left _ _

/-- With some block on the disk, the bitmap is in front of the data blocks. -/
theorem DiskLayout.bmapstart_lt (h : DiskLayout sb) (hb : b < sb.size) : sb.bmapstart < sb.nmeta :=
  (le_bblock sb b).trans_lt (h.maps b hb)

end XV6AndConcurrency.FileSystem
