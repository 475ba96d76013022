import Mathlib.Tactic

/-!
# The format of the disk

The constants of `fs.h` and the inode as it is stored.
-/

namespace XV6AndConcurrency.FileSystem

/-- `ROOTINO`. -/
def rootino : ℕ := 1

/-- `BSIZE`. -/
def bsize : ℕ := 1024

/-- `NDIRECT`. -/
def ndirect : ℕ := 12

/-- `NINDIRECT`. -/
def nindirect : ℕ := 256

/-- `MAXFILE`. -/
def maxfile : ℕ := ndirect + nindirect

/-- `DIRSIZ`. -/
def dirsiz : ℕ := 14

/-- `IPB`. -/
def ipb : ℕ := 16

/-- `struct dinode`; the type `T_DIR` is 1, `T_FILE` 2, `T_DEVICE` 3, and 0 is free. -/
structure Dinode where
  type : ℕ := 0
  major : ℤ := 0
  minor : ℤ := 0
  nlink : ℤ := 0
  size : ℕ := 0
  addrs : ℕ → ℕ := fun _ => 0

/-- `BPB`. -/
def bpb : ℕ := bsize * 8

/-- `struct superblock`, as far as inodes and free blocks are concerned. -/
structure Superblock where
  size : ℕ
  nblocks : ℕ
  ninodes : ℕ
  inodestart : ℕ
  bmapstart : ℕ

namespace Superblock

variable (sb : Superblock)

/-- `IBLOCK`. -/
def iblock (i : ℕ) : ℕ := i / ipb + sb.inodestart

/-- `BBLOCK`. -/
def bblock (b : ℕ) : ℕ := b / bpb + sb.bmapstart

/-- The blocks in front of the data blocks. -/
def nmeta : ℕ := sb.size - sb.nblocks

end Superblock

end XV6AndConcurrency.FileSystem
