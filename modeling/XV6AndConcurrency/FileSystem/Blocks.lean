import XV6AndConcurrency.FileSystem.Layout
import XV6AndConcurrency.Foundations.DiskBlocks
import XV6AndConcurrency.Foundations.PanicState

/-!
# Blocks and the free bitmap

What the file system does to single blocks: `bread`, `log_write`, `bzero`, `balloc` and
`bfree`. A block is read and changed through the buffer cache; what is not in the log reaches
the disk neither now nor later.
-/

namespace XV6AndConcurrency.FileSystem

open Foundations

inductive FsPanic
  | freeingFreeBlock
  | bmapOutOfRange
  | ilockNoType
  | dirlookupNotDir
  | dirlookupRead
  | dirlinkRead
  | unlinkWritei
  deriving DecidableEq

/-- What `bread` returns for every block, and the blocks passed to `log_write`, in order. -/
structure Fs where
  cache : ℕ → Block
  logged : List ℕ := []

abbrev FsM := Stoppable Fs FsPanic

/-- `bread`. -/
def bread (b : ℕ) : FsM Block := look fun s => s.cache b

/-- A change of the bytes in the buffer of a block. -/
def edit (b : ℕ) (f : Block → Block) : FsM Unit :=
  modify fun s => { s with cache := Function.update s.cache b (f (s.cache b)) }

/-- `log_write`. -/
def logWrite (b : ℕ) : FsM Unit := modify fun s => { s with logged := s.logged ++ [b] }

/-- `bzero`. -/
def bzero (bno : ℕ) : FsM Unit := do
  edit bno fun _ _ => 0
  logWrite bno

variable (sb : Superblock)

/-- The bit of block `b` in the bitmap. -/
def bitmap (cache : ℕ → Block) (b : ℕ) : Bool := (cache (sb.bblock b)).bit (b % bpb)

/-- The search in `balloc`: the first block whose bit is clear. -/
def firstFree (s : Fs) : Option ℕ :=
  (List.range sb.size).find? fun b => bitmap sb s.cache b = false

/-- `balloc`. What the search finds is a parameter: `firstFree`, unless somebody else
changes the bitmap in the meantime. -/
def balloc (search : Fs → Option ℕ) : FsM ℕ := do
  match ← look search with
  | none => pure 0
  | some b =>
    edit (sb.bblock b) fun bp => bp.setBit (b % bpb)
    logWrite (sb.bblock b)
    bzero b
    pure b

/-- `bfree`. -/
def bfree (b : ℕ) : FsM Unit := do
  let bp ← bread (sb.bblock b)
  if bp.bit (b % bpb) then
    edit (sb.bblock b) fun bp => bp.clearBit (b % bpb)
    logWrite (sb.bblock b)
  else stop .freeingFreeBlock

/-! ## The search -/

variable {sb} {s : Fs} {b : ℕ}

theorem firstFree_eq_some (h : firstFree sb s = some b) :
    b < sb.size ∧ bitmap sb s.cache b = false := by
  refine ⟨List.mem_range.mp (List.mem_of_find?_eq_some h), ?_⟩
  simpa using List.find?_some h

theorem firstFree_eq_none (h : firstFree sb s = none) (hb : b < sb.size) :
    bitmap sb s.cache b = true := by
  simpa using List.find?_eq_none.mp h b (List.mem_range.mpr hb)

end XV6AndConcurrency.FileSystem
