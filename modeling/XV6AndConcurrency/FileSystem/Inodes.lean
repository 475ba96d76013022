import XV6AndConcurrency.FileSystem.Blocks
import XV6AndConcurrency.Foundations.Int32

/-!
# Inodes and their content

The file layer of `fs.c`: inodes on disk, `bmap`, `itrunc`, `readi`, `writei`, `ialloc` and
`iput`. An inode in memory is handed from one function to the next; who calls these functions
has it locked.
-/

namespace XV6AndConcurrency.FileSystem

open Foundations

/-! ## The stored form -/

/-- The bits of a `short`. -/
def ofShort (x : ℤ) : ℕ := (x % 65536).toNat

/-- The `short` with the given bits. -/
def toShort (n : ℕ) : ℤ := if n < 32768 then n else n - 65536

namespace Dinode

/-- The inode as sixteen words. -/
def words (n : Dinode) : List ℕ :=
  [n.type + 65536 * ofShort n.major, ofShort n.minor + 65536 * ofShort n.nlink, n.size] ++
    (List.range (ndirect + 1)).map n.addrs

/-- The inode that is stored in a block from word `i` on. -/
def load (b : Block) (i : ℕ) : Dinode where
  type := b.word i % 65536
  major := toShort (b.word i / 65536)
  minor := toShort (b.word (i + 1) % 65536)
  nlink := toShort (b.word (i + 1) / 65536)
  size := b.word (i + 2)
  addrs k := if k ≤ ndirect then b.word (i + 3 + k) else 0

def setAddr (n : Dinode) (k addr : ℕ) : Dinode :=
  { n with addrs := Function.update n.addrs k addr }

end Dinode

variable (sb : Superblock)

/-- Inode `inum` on disk. -/
def dinode (cache : ℕ → Block) (inum : ℕ) : Dinode :=
  .load (cache (sb.iblock inum)) (16 * (inum % ipb))

def storeDinode (inum : ℕ) (n : Dinode) : FsM Unit := do
  edit (sb.iblock inum) fun bp => bp.setWords (16 * (inum % ipb)) n.words
  logWrite (sb.iblock inum)

/-- `iupdate`. -/
def iupdate (inum : ℕ) (ip : Dinode) : FsM Unit := storeDinode sb inum ip

/-- `ilock` of an inode that is not in memory. -/
def ilock (inum : ℕ) : FsM Dinode := do
  let ip ← look fun s => dinode sb s.cache inum
  if ip.type = 0 then stop .ilockNoType else pure ip

/-- `ialloc`; 0 if there is no free inode. -/
def ialloc (type : ℕ) : FsM ℕ := do
  let found ← look fun s => (List.range sb.ninodes).find? fun inum =>
    1 ≤ inum ∧ (dinode sb s.cache inum).type = 0
  match found with
  | none => pure 0
  | some inum =>
    storeDinode sb inum { type }
    pure inum

variable (search : Fs → Option ℕ)

/-! ## Blocks of an inode -/

/-- The block in `ip->addrs[k]`, allocated if there is none. -/
def bmapAddr (ip : Dinode) (k : ℕ) : FsM (Dinode × ℕ) := do
  if ip.addrs k = 0 then
    let addr ← balloc sb search
    if addr = 0 then pure (ip, 0) else pure (ip.setAddr k addr, addr)
  else pure (ip, ip.addrs k)

/-- The block in entry `j` of the indirect block `addr`, allocated if there is none. -/
def bmapEntry (addr j : ℕ) : FsM ℕ := do
  let a ← bread addr
  if a.word j = 0 then
    let b ← balloc sb search
    if b = 0 then pure 0
    else
      edit addr fun bp => bp.setWord j b
      logWrite addr
      pure b
  else pure (a.word j)

/-- `bmap`. -/
def bmap (ip : Dinode) (bn : ℕ) : FsM (Dinode × ℕ) :=
  if bn < ndirect then bmapAddr sb search ip bn
  else if bn - ndirect < nindirect then do
    let r ← bmapAddr sb search ip ndirect
    if r.2 = 0 then pure r
    else
      let addr ← bmapEntry sb search r.2 (bn - ndirect)
      pure (r.1, addr)
  else stop .bmapOutOfRange

/-- A round of the first loop of `itrunc`. -/
def truncAddr (ip : Dinode) (k : ℕ) : FsM Dinode := do
  if ip.addrs k = 0 then pure ip
  else
    bfree sb (ip.addrs k)
    pure (ip.setAddr k 0)

/-- A round of the second loop of `itrunc`. -/
def truncEntry (a : Block) (j : ℕ) : FsM Unit :=
  if a.word j = 0 then pure () else bfree sb (a.word j)

/-- `itrunc`. -/
def itrunc (inum : ℕ) (ip : Dinode) : FsM Dinode := do
  let ip ← (List.range ndirect).foldlM (truncAddr sb) ip
  let ip ← if ip.addrs ndirect = 0 then pure ip else do
    let a ← bread (ip.addrs ndirect)
    (List.range nindirect).forM (truncEntry sb a)
    truncAddr sb ip ndirect
  let ip := { ip with size := 0 }
  iupdate sb inum ip
  pure ip

/-- `iput` with `ref` references to the inode. -/
def iput (ref inum : ℕ) (ip : Dinode) : FsM Unit := do
  if ref = 1 ∧ ip.nlink = 0 then
    let ip ← itrunc sb inum ip
    iupdate sb inum { ip with type := 0 }
  else pure ()

/-! ## Reading and writing -/

/-- The bytes that a copy of `m` bytes gets from `src + tot` on, up to the first one that
cannot be read. -/
def eitherCopyin (src : ℕ → Option Byte) (tot : ℕ) : ℕ → List Byte
  | 0 => []
  | m + 1 =>
    match src tot with
    | none => []
    | some b => b :: eitherCopyin src (tot + 1) m

/-- The bytes that a copy to `dst + tot` delivers, up to the first one that cannot be
written. -/
def eitherCopyout (dst : ℕ → Bool) (tot : ℕ) : List Byte → List Byte
  | [] => []
  | b :: bs => if dst tot then b :: eitherCopyout dst (tot + 1) bs else []

/-- What a read returns, and what it delivers. -/
structure ReadResult where
  ip : Dinode
  ret : ℤ
  bytes : List Byte

/-- The loop in `readi`. Every round copies a byte, so `n` rounds are enough. -/
def readiLoop (dst : ℕ → Bool) (n : ℕ) : ℕ → Dinode → ℕ → ℕ → List Byte → FsM ReadResult
  | 0, ip, _, tot, bytes => pure ⟨ip, wrap32 tot, bytes⟩
  | fuel + 1, ip, off, tot, bytes =>
    if tot < n then do
      let r ← bmap sb search ip (off / bsize)
      if r.2 = 0 then pure ⟨r.1, wrap32 tot, bytes⟩
      else
        let bp ← bread r.2
        let m := min (n - tot) (bsize - off % bsize)
        let data := (List.range m).map fun i => bp (off % bsize + i)
        let copied := eitherCopyout dst tot data
        if copied.length = m then
          readiLoop dst n fuel r.1 (off + m) (tot + m) (bytes ++ copied)
        else pure ⟨r.1, -1, bytes ++ copied⟩
    else pure ⟨ip, wrap32 tot, bytes⟩

/-- `readi`. -/
def readi (ip : Dinode) (dst : ℕ → Bool) (off n : ℕ) : FsM ReadResult :=
  if ip.size < off ∨ (off + n) % 4294967296 < off then pure ⟨ip, 0, []⟩
  else
    let n := if ip.size < (off + n) % 4294967296 then ip.size - off else n
    readiLoop sb search dst n n ip off 0 []

/-- What the loop in `writei` leaves: the inode, `off` and `tot`. -/
structure WriteResult where
  ip : Dinode
  off : ℕ
  tot : ℕ

/-- The loop in `writei`. Every round copies a byte, so `n` rounds are enough. -/
def writeiLoop (src : ℕ → Option Byte) (n : ℕ) : ℕ → Dinode → ℕ → ℕ → FsM WriteResult
  | 0, ip, off, tot => pure ⟨ip, off, tot⟩
  | fuel + 1, ip, off, tot =>
    if tot < n then do
      let r ← bmap sb search ip (off / bsize)
      if r.2 = 0 then pure ⟨r.1, off, tot⟩
      else
        let m := min (n - tot) (bsize - off % bsize)
        let data := eitherCopyin src tot m
        edit r.2 fun bp => bp.putBytes (off % bsize) data
        if data.length = m then do
          logWrite r.2
          writeiLoop src n fuel r.1 (off + m) (tot + m)
        else pure ⟨r.1, off, tot⟩
    else pure ⟨ip, off, tot⟩

/-- `writei`. -/
def writei (inum : ℕ) (ip : Dinode) (src : ℕ → Option Byte) (off n : ℕ) : FsM (Dinode × ℤ) :=
  if ip.size < off ∨ (off + n) % 4294967296 < off then pure (ip, -1)
  else if maxfile * bsize < (off + n) % 4294967296 then pure (ip, -1)
  else do
    let r ← writeiLoop sb search src n n ip off 0
    let ip := if r.ip.size < r.off then { r.ip with size := r.off } else r.ip
    iupdate sb inum ip
    pure (ip, wrap32 r.tot)

end XV6AndConcurrency.FileSystem
