import XV6AndConcurrency.FileSystem.Names
import XV6AndConcurrency.FileSystem.ReadWrite
import XV6AndConcurrency.Foundations.SlotMaps

/-!
# Directories

`dirlookup`, `dirlink` and the write of `sys_unlink` that clears an entry. A directory is a
file of entries of 16 bytes, and stands for a finite map from names to inode numbers; two names
are the same if they agree up to a NUL or in their first `DIRSIZ` bytes.
-/

namespace XV6AndConcurrency.FileSystem

open Foundations

/-- `T_DIR`. -/
def tDir : ℕ := 1

/-- `sizeof(struct dirent)`. -/
def direntSize : ℕ := 16

/-- `de.inum`. -/
def direntInum (de : List Byte) : ℕ := (de.getD 0 0).toNat + 256 * (de.getD 1 0).toNat

/-- `de.name`. -/
def direntName (de : List Byte) : ℕ → Byte := fun i => de.getD (i + 2) 0

/-- The bytes of a `struct dirent`. -/
def dirent (inum : ℕ) (name : List Byte) : List Byte :=
  BitVec.ofNat 8 inum :: BitVec.ofNat 8 (inum / 256) :: name

variable (sb : Superblock) (search : Fs → Option ℕ)

/-- The loop in `dirlookup`. Every round moves on by an entry, so `dp->size` rounds are
enough. -/
def dirlookupLoop (name : ℕ → Byte) : ℕ → Dinode → ℕ → FsM (Dinode × Option (ℕ × ℕ))
  | 0, dp, _ => pure (dp, none)
  | fuel + 1, dp, off =>
    if off < dp.size then do
      let r ← readi sb search dp (fun _ => true) off direntSize
      if r.ret ≠ direntSize then stop .dirlookupRead
      else if direntInum r.bytes = 0 then dirlookupLoop name fuel r.ip (off + direntSize)
      else if namecmp name (direntName r.bytes) = 0 then
        pure (r.ip, some (direntInum r.bytes, off))
      else dirlookupLoop name fuel r.ip (off + direntSize)
    else pure (dp, none)

/-- `dirlookup`: the number of the inode, and `*poff`. -/
def dirlookup (dp : Dinode) (name : ℕ → Byte) : FsM (Dinode × Option (ℕ × ℕ)) :=
  if dp.type ≠ tDir then stop .dirlookupNotDir
  else dirlookupLoop sb search name dp.size dp 0

/-- The loop in `dirlink` that looks for an empty entry. -/
def emptyLoop : ℕ → Dinode → ℕ → FsM (Dinode × ℕ)
  | 0, dp, off => pure (dp, off)
  | fuel + 1, dp, off =>
    if off < dp.size then do
      let r ← readi sb search dp (fun _ => true) off direntSize
      if r.ret ≠ direntSize then stop .dirlinkRead
      else if direntInum r.bytes = 0 then pure (r.ip, off)
      else emptyLoop fuel r.ip (off + direntSize)
    else pure (dp, off)

/-- `dirlink`; `dnum` is the number of the directory. -/
def dirlink (dnum : ℕ) (dp : Dinode) (name : ℕ → Byte) (inum : ℕ) : FsM ℤ := do
  let r ← dirlookup sb search dp name
  if r.2.isSome then pure (-1)
  else
    let e ← emptyLoop sb search r.1.size r.1 0
    let de := dirent inum (strncpy name dirsiz)
    let w ← writei sb search dnum e.1 (fun x => de[x]?) e.2 direntSize
    if w.2 ≠ direntSize then pure (-1) else pure 0

/-- The part of `sys_unlink` that finds the entry and zeroes it. -/
def unlinkEntry (dnum : ℕ) (dp : Dinode) (name : ℕ → Byte) : FsM ℤ := do
  let r ← dirlookup sb search dp name
  match r.2 with
  | none => pure (-1)
  | some (_, off) =>
    let de := List.replicate direntSize (0 : Byte)
    let w ← writei sb search dnum r.1 (fun x => de[x]?) off direntSize
    if w.2 ≠ direntSize then stop .unlinkWritei else pure 0

/-! ## The map -/

/-- Entry `j` of a directory with the bytes `c`. -/
def entryBytes (c : List Byte) (j : ℕ) : List Byte := (c.drop (16 * j)).take 16

/-- The key of a name. -/
def nameKey (name : ℕ → Byte) : List Byte := cstr name dirsiz

/-- The name and the inode number in entry `j`, if it is in use. -/
def entry (c : List Byte) (j : ℕ) : Option (List Byte × ℕ) :=
  if direntInum (entryBytes c j) = 0 then none
  else some (nameKey (direntName (entryBytes c j)), direntInum (entryBytes c j))

/-- The map that a directory stands for. -/
def dirMap (c : List Byte) : List Byte → Option ℕ := toMap (entry c) (c.length / 16)

/-- Whole entries, with distinct names. -/
structure Directory (c : List Byte) : Prop where
  whole : 16 ∣ c.length
  distinct : DistinctKeys (entry c) (c.length / 16)

/-- An entry is empty. -/
def HasHole (c : List Byte) : Prop := ∃ j < c.length / 16, entry c j = none

/-! ## Entries -/

variable {sb search} {s : Fs} {c de : List Byte} {name : ℕ → Byte} {d inum i j n : ℕ}

theorem direntInum_dirent (inum : ℕ) (nm : List Byte) :
    direntInum (dirent inum nm) = inum % 65536 := by
  simp only [direntInum, dirent, List.getD_cons_zero, List.getD_cons_succ, BitVec.toNat_ofNat]
  omega

theorem direntName_dirent (inum : ℕ) (nm : List Byte) :
    direntName (dirent inum nm) = fun i => nm.getD i 0 := by
  funext i
  simp [direntName, dirent]

theorem length_dirent (inum : ℕ) (name : ℕ → Byte) :
    (dirent inum (strncpy name dirsiz)).length = direntSize := by
  simp [dirent, dirsiz, direntSize]

/-- A written entry has the name and the number that were written. -/
theorem nameKey_dirent (inum : ℕ) (name : ℕ → Byte) :
    nameKey (direntName (dirent inum (strncpy name dirsiz))) = nameKey name := by
  rw [direntName_dirent]
  exact cstr_strncpy name dirsiz

/-- Writing one entry leaves the others alone. -/
theorem entryBytes_splice (hj : 16 * j ≤ c.length) (hwhole : 16 ∣ c.length)
    (hde : de.length = 16) (hi : 16 * i + 16 ≤ max c.length (16 * j + 16)) :
    entryBytes (splice c (16 * j) de) i = if i = j then de else entryBytes c i := by
  obtain ⟨n, hn⟩ := hwhole
  apply List.ext_getElem?
  intro k
  unfold entryBytes
  by_cases hk : k < 16
  · rw [List.getElem?_take_of_lt hk, List.getElem?_drop, getElem?_splice hj, hde]
    split_ifs with hin hij hij
    · subst hij
      rw [Nat.add_sub_cancel_left]
    · omega
    · omega
    · rw [List.getElem?_take_of_lt hk, List.getElem?_drop]
  · rw [List.getElem?_eq_none (by rw [List.length_take]; omega)]
    split_ifs
    · rw [List.getElem?_eq_none (by omega)]
    · rw [List.getElem?_eq_none (by rw [List.length_take]; omega)]

theorem entry_eq_none : entry c j = none ↔ direntInum (entryBytes c j) = 0 := by
  unfold entry
  split_ifs with h <;> simp [h]

theorem length_splice_entry (hj : 16 * j ≤ c.length) (hde : de.length = 16) :
    (splice c (16 * j) de).length = max c.length (16 * j + 16) := by
  rw [length_splice hj, hde]

/-- A new entry in a hole or behind the last entry. -/
theorem Directory.link (h : Directory c) (hj : j ≤ c.length / 16)
    (hempty : j < c.length / 16 → entry c j = none)
    (habsent : dirMap c (nameKey name) = none) (hinum : inum % 65536 ≠ 0) :
    Directory (splice c (16 * j) (dirent inum (strncpy name dirsiz))) ∧
      dirMap (splice c (16 * j) (dirent inum (strncpy name dirsiz))) =
        Function.update (dirMap c) (nameKey name) (some (inum % 65536)) := by
  obtain ⟨n, hn⟩ := h.whole
  have hcount : c.length / 16 = n := by omega
  rw [hcount] at hj hempty
  have hle : 16 * j ≤ c.length := by omega
  have hde : (dirent inum (strncpy name dirsiz)).length = 16 := length_dirent inum name
  have hlen := length_splice_entry hle hde
  have hcount' : (splice c (16 * j) (dirent inum (strncpy name dirsiz))).length / 16 =
      max n (j + 1) := by
    rw [hlen]
    omega
  have hbytes : ∀ i < max n (j + 1),
      entryBytes (splice c (16 * j) (dirent inum (strncpy name dirsiz))) i =
        if i = j then dirent inum (strncpy name dirsiz) else entryBytes c i :=
    fun i hi => entryBytes_splice hle ⟨n, hn⟩ hde (by omega)
  have hfill : DistinctKeys (entry (splice c (16 * j) (dirent inum (strncpy name dirsiz))))
        (max n (j + 1)) ∧
      toMap (entry (splice c (16 * j) (dirent inum (strncpy name dirsiz)))) (max n (j + 1)) =
        Function.update (toMap (entry c) (c.length / 16)) (nameKey name) (some (inum % 65536)) := by
    refine h.distinct.fill (i := j) (by omega) (by omega) (by omega) (fun hlt => hempty (by omega))
      (toMap_eq_none.mp habsent) ?_ ?_
    · unfold entry
      rw [hbytes j (by omega), if_pos rfl, direntInum_dirent, if_neg hinum, nameKey_dirent]
    · intro i hi hij
      unfold entry
      rw [hbytes i hi, if_neg hij]
  constructor
  · refine ⟨?_, by rw [hcount']; exact hfill.1⟩
    rw [hlen]
    omega
  · unfold dirMap
    rw [hcount']
    exact hfill.2

/-- The entry of a name is zeroed. -/
theorem Directory.unlink (h : Directory c) (hj : findSlot (entry c) (c.length / 16)
    (nameKey name) = some j) :
    Directory (splice c (16 * j) (List.replicate direntSize 0)) ∧
      (splice c (16 * j) (List.replicate direntSize 0)).length = c.length ∧
      dirMap (splice c (16 * j) (List.replicate direntSize 0)) =
        Function.update (dirMap c) (nameKey name) none := by
  obtain ⟨n, hn⟩ := h.whole
  obtain ⟨hjn, v, he⟩ := findSlot_eq_some hj
  have hcount : c.length / 16 = n := by omega
  have hle : 16 * j ≤ c.length := by omega
  have hde : (List.replicate direntSize (0 : Byte)).length = 16 := by simp [direntSize]
  have hlen : (splice c (16 * j) (List.replicate direntSize 0)).length = c.length := by
    rw [length_splice_entry hle hde]
    omega
  have hbytes : ∀ i < c.length / 16,
      entryBytes (splice c (16 * j) (List.replicate direntSize 0)) i =
        if i = j then List.replicate direntSize 0 else entryBytes c i :=
    fun i hi => entryBytes_splice hle ⟨n, hn⟩ hde (by omega)
  have hclear : DistinctKeys (entry (splice c (16 * j) (List.replicate direntSize 0)))
        (c.length / 16) ∧
      toMap (entry (splice c (16 * j) (List.replicate direntSize 0))) (c.length / 16) =
        Function.update (toMap (entry c) (c.length / 16)) (nameKey name) none := by
    refine h.distinct.clear hjn he ?_ ?_
    · rw [entry_eq_none, hbytes j hjn, if_pos rfl]
      decide
    · intro i hi hij
      unfold entry
      rw [hbytes i hi, if_neg hij]
  refine ⟨⟨hlen ▸ h.whole, by rw [hlen]; exact hclear.1⟩, hlen, ?_⟩
  unfold dirMap
  rw [hlen]
  exact hclear.2

/-! ## The functions -/

section

variable (h : Consistent sb s) (hd : d < sb.ninodes)
include h hd

/-- An entry is read as it stands in the file. -/
theorem readi_entry (hj : 16 * j + 16 ≤ (dinode sb s.cache d).size) :
    readi sb search (dinode sb s.cache d) (fun _ => true) (16 * j) direntSize s =
      .ok (⟨dinode sb s.cache d, direntSize, entryBytes (contents sb s d) j⟩, s) := by
  have hsmall := (h.sound d hd).small
  unfold maxfile ndirect nindirect bsize at hsmall
  obtain ⟨res, hrun, hip, hall⟩ := @readi_spec sb s d (16 * j) direntSize search h hd
    (fun _ => true) (by omega) (by decide)
  have hres := hall fun _ _ => rfl
  unfold direntSize at *
  rw [if_neg (by omega)] at hres
  obtain ⟨ip, ret, bytes⟩ := res
  obtain ⟨hret, hbytes⟩ := hres
  dsimp only at hip hret hbytes
  rw [hrun, hip, hret, hbytes, Nat.min_eq_left (by omega)]
  rfl

/-- The loop finds the first entry of the name. -/
theorem dirlookupLoop_run {fuel : ℕ} (hn : (dinode sb s.cache d).size = 16 * n)
    (hfuel : n - j ≤ fuel) :
    dirlookupLoop sb search name fuel (dinode sb s.cache d) (16 * j) s =
      .ok ((dinode sb s.cache d, ((List.range' j (n - j)).find? fun i =>
        (entry (contents sb s d) i).map Prod.fst = some (nameKey name)).map fun i =>
          (direntInum (entryBytes (contents sb s d) i), 16 * i)), s) := by
  induction fuel generalizing j with
  | zero =>
    obtain hzero : n - j = 0 := by omega
    rw [hzero]
    rfl
  | succ fuel ih =>
    unfold dirlookupLoop
    by_cases hlt : j < n
    swap
    · rw [if_neg (by omega), Nat.sub_eq_zero_of_le (not_lt.mp hlt)]
      rfl
    rw [if_pos (by omega), show n - j = n - (j + 1) + 1 by omega, List.range'_succ,
      List.find?_cons]
    simp only [bind_run, readi_entry h hd (j := j) (by omega), ok_bind, ne_eq, not_true_eq_false,
      if_false]
    have hnext := @ih (j + 1) (by omega)
    rw [show 16 * (j + 1) = 16 * j + direntSize by rfl] at hnext
    by_cases hinum : direntInum (entryBytes (contents sb s d) j) = 0
    · rw [if_pos hinum, hnext]
      simp [entry, hinum]
    · rw [if_neg hinum]
      have hsame : namecmp name (direntName (entryBytes (contents sb s d) j)) = 0 ↔
          nameKey (direntName (entryBytes (contents sb s d) j)) = nameKey name :=
        strncmp_eq_zero.trans eq_comm
      by_cases hname : nameKey (direntName (entryBytes (contents sb s d) j)) = nameKey name
      · rw [if_pos (hsame.mpr hname)]
        simp [entry, hinum, hname]
      · rw [if_neg fun hc => hname (hsame.mp hc), hnext]
        simp [entry, hinum, hname]

/-- `dirlookup` finds the slot of the name. -/
theorem dirlookup_run (htype : (dinode sb s.cache d).type = tDir)
    (hdir : Directory (contents sb s d)) :
    dirlookup sb search (dinode sb s.cache d) name s =
      .ok ((dinode sb s.cache d, (findSlot (entry (contents sb s d))
        ((contents sb s d).length / 16) (nameKey name)).map fun i =>
          (direntInum (entryBytes (contents sb s d) i), 16 * i)), s) := by
  obtain ⟨n, hn⟩ := hdir.whole
  have hsize : (dinode sb s.cache d).size = 16 * n := by rw [← length_contents, hn]
  have hloop := @dirlookupLoop_run sb search s name d 0 n h hd (dinode sb s.cache d).size hsize
    (by omega)
  rw [Nat.sub_zero, Nat.mul_zero, ← List.range_eq_range'] at hloop
  unfold dirlookup
  rw [if_neg (by simp [htype]), hloop, show (contents sb s d).length / 16 = n by omega]
  rfl

/-- The second loop of `dirlink` stops at the first hole, or at the end. -/
theorem emptyLoop_run {fuel : ℕ} (hn : (dinode sb s.cache d).size = 16 * n) (hjn : j ≤ n)
    (hfuel : n - j ≤ fuel) :
    ∃ m, j ≤ m ∧ m ≤ n ∧ (∀ i, j ≤ i → i < m → entry (contents sb s d) i ≠ none) ∧
      (m < n → entry (contents sb s d) m = none) ∧
      emptyLoop sb search fuel (dinode sb s.cache d) (16 * j) s =
        .ok ((dinode sb s.cache d, 16 * m), s) := by
  induction fuel generalizing j with
  | zero => exact ⟨j, le_rfl, hjn, fun i _ _ => by omega, fun _ => by omega, rfl⟩
  | succ fuel ih =>
    unfold emptyLoop
    by_cases hlt : j < n
    swap
    · rw [if_neg (by omega)]
      exact ⟨j, le_rfl, hjn, fun i _ _ => by omega, fun _ => by omega, rfl⟩
    rw [if_pos (by omega)]
    simp only [bind_run, readi_entry h hd (j := j) (by omega), ok_bind, ne_eq, not_true_eq_false,
      if_false]
    by_cases hinum : direntInum (entryBytes (contents sb s d) j) = 0
    · rw [if_pos hinum]
      exact ⟨j, le_rfl, hjn, fun i _ _ => by omega, fun _ => entry_eq_none.mpr hinum, rfl⟩
    · obtain ⟨m, hjm, hmn, hused, hhole, hrun⟩ := @ih (j + 1) hlt (by omega)
      rw [if_neg hinum]
      refine ⟨m, by omega, hmn, fun i hi him => ?_, hhole, hrun⟩
      by_cases hij : i = j
      · rw [hij]
        exact fun hnone => hinum (entry_eq_none.mp hnone)
      · exact hused i (by omega) him

end

/-! ## Any sequence of operations -/

/-- An entry holds 16 bits of the number of an inode, and zero stands for an empty entry. -/
inductive DirOp
  | dirlookup (name : ℕ → Byte)
  | dirlink (name : ℕ → Byte) (inum : ℕ) (nonzero : inum % 65536 ≠ 0)
  | unlink (name : ℕ → Byte)

inductive DirResult
  | found (r : Option (ℕ × ℕ))
  | code (r : ℤ)

/-- An operation on directory `d`, which is locked for it. -/
def DirOp.run (sb : Superblock) (d : ℕ) : DirOp → FsM DirResult
  | .dirlookup name => do
    let dp ← ilock sb d
    let r ← FileSystem.dirlookup sb (firstFree sb) dp name
    pure (.found r.2)
  | .dirlink name inum _ => do
    let dp ← ilock sb d
    let r ← FileSystem.dirlink sb (firstFree sb) d dp name inum
    pure (.code r)
  | .unlink name => do
    let dp ← ilock sb d
    let r ← unlinkEntry sb (firstFree sb) d dp name
    pure (.code r)

/-- What an operation returns and does to the bytes of a directory, in terms of the map;
`full` says that no block is free in the end. -/
inductive DirStep (full : Prop) : List Byte → DirOp → DirResult → List Byte → Prop
  | found {c : List Byte} {name : ℕ → Byte} {inum j : ℕ}
      (hmap : dirMap c (nameKey name) = some inum)
      (hj : j < c.length / 16) (hentry : entry c j = some (nameKey name, inum)) :
      DirStep full c (.dirlookup name) (.found (some (inum, 16 * j))) c
  | missing {c : List Byte} {name : ℕ → Byte} (hmap : dirMap c (nameKey name) = none) :
      DirStep full c (.dirlookup name) (.found none) c
  | present {c : List Byte} {name : ℕ → Byte} {inum : ℕ} {nonzero : inum % 65536 ≠ 0}
      (hmap : dirMap c (nameKey name) ≠ none) :
      DirStep full c (.dirlink name inum nonzero) (.code (-1)) c
  | noSpace {c : List Byte} {name : ℕ → Byte} {inum : ℕ} {nonzero : inum % 65536 ≠ 0}
      (hmap : dirMap c (nameKey name) = none) (hused : ¬ HasHole c)
      (hspace : full ∨ c.length = maxfile * bsize) :
      DirStep full c (.dirlink name inum nonzero) (.code (-1)) c
  | linked {c c' : List Byte} {name : ℕ → Byte} {inum : ℕ} {nonzero : inum % 65536 ≠ 0}
      (hmap : dirMap c (nameKey name) = none)
      (hmap' : dirMap c' = Function.update (dirMap c) (nameKey name) (some (inum % 65536)))
      (hreuse : HasHole c → c'.length = c.length) :
      DirStep full c (.dirlink name inum nonzero) (.code 0) c'
  | absent {c : List Byte} {name : ℕ → Byte} (hmap : dirMap c (nameKey name) = none) :
      DirStep full c (.unlink name) (.code (-1)) c
  | unlinked {c c' : List Byte} {name : ℕ → Byte} (hmap : dirMap c (nameKey name) ≠ none)
      (hmap' : dirMap c' = Function.update (dirMap c) (nameKey name) none)
      (hlength : c'.length = c.length) : DirStep full c (.unlink name) (.code 0) c'

/-- A sequence of operations on directory `d`, each of which leaves a directory. -/
inductive DirSteps (sb : Superblock) (d : ℕ) : Fs → List (DirOp × DirResult) → Fs → Prop
  | nil {s : Fs} : DirSteps sb d s [] s
  | cons {s s' s'' : Fs} {op : DirOp} {r : DirResult} {ops : List (DirOp × DirResult)}
      (hstep : DirStep (Full sb s'.cache) (contents sb s d) op r (contents sb s' d))
      (hdir : Directory (contents sb s' d)) (hrest : DirSteps sb d s' ops s'') :
      DirSteps sb d s ((op, r) :: ops) s''

/-- The operations in order, each with its result. -/
def runDirOps (sb : Superblock) (d : ℕ) : List DirOp → FsM (List (DirOp × DirResult))
  | [] => pure []
  | op :: ops => do
    let r ← op.run sb d
    let rest ← runDirOps sb d ops
    pure ((op, r) :: rest)

section

variable (h : Consistent sb s) (hd : d < sb.ninodes)
  (htype : (dinode sb s.cache d).type = tDir) (hdir : Directory (contents sb s d))
include h hd htype hdir

/-- `dirlink` keeps the map, or adds the name to it. -/
theorem dirlink_spec (hinum : inum % 65536 ≠ 0) :
    Ensures (dirlink sb (firstFree sb) d (dinode sb s.cache d) name inum) (fun r s' =>
      Consistent sb s' ∧ (dinode sb s'.cache d).type = tDir ∧ Directory (contents sb s' d) ∧
        DirStep (Full sb s'.cache) (contents sb s d) (.dirlink name inum hinum) (.code r)
          (contents sb s' d)) s := by
  unfold dirlink
  refine .bind_of_run (dirlookup_run h hd htype hdir) ?_
  cases hfind : findSlot (entry (contents sb s d)) ((contents sb s d).length / 16)
      (nameKey name) with
  | some i =>
    refine .of_pure ⟨h, htype, hdir, .present fun hnone => ?_⟩
    rw [dirMap, toMap_eq_none, hfind] at hnone
    cases hnone
  | none =>
    have habsent : dirMap (contents sb s d) (nameKey name) = none := toMap_eq_none.mpr hfind
    obtain ⟨n, hn⟩ := hdir.whole
    have hlen := length_contents sb s d
    obtain ⟨m, -, hmn, hused, hhole, hrun⟩ := @emptyLoop_run sb (firstFree sb) s d 0 n h hd
      (dinode sb s.cache d).size (by omega) (Nat.zero_le n) (by omega)
    rw [Nat.mul_zero] at hrun
    refine .bind_of_run hrun ?_
    dsimp only
    have hnohole : m = n → ¬ HasHole (contents sb s d) := by
      rintro rfl ⟨i, hi, hnone⟩
      exact hused i (Nat.zero_le i) (by omega) hnone
    by_cases hmax : 16 * m + direntSize ≤ maxfile * bsize
    swap
    · -- the directory has its largest size
      have hsmall := (h.sound d hd).small
      unfold direntSize maxfile ndirect nindirect bsize at hmax hsmall
      have hrej := @writei_of_rejected sb (dinode sb s.cache d) d (16 * m) direntSize (firstFree sb)
        (fun x => (dirent inum (strncpy name dirsiz))[x]?) (by omega) (by decide)
        (.inr (by unfold direntSize maxfile ndirect nindirect bsize; omega)) s
      refine .bind_of_run hrej ?_
      rw [if_pos (show (-1 : ℤ) ≠ direntSize by decide)]
      refine .of_pure ⟨h, htype, hdir, .noSpace habsent (hnohole (by omega)) (.inr ?_)⟩
      unfold maxfile ndirect nindirect bsize
      omega
    obtain ⟨k, hk, ip', s', hwrite, hshort, -, htype', hcontents, -, hcons, hip⟩ :=
      writei_splice h hd (by rw [htype]; decide) (by omega) hmax (length_dirent inum name)
        fun _ _ => rfl
    refine .bind_of_run hwrite ?_
    have htype'' : (dinode sb s'.cache d).type = tDir := by rw [← hip, htype', htype]
    by_cases hall : k = direntSize
    · subst hall
      rw [if_neg (by simp)]
      rw [List.take_of_length_le (length_dirent inum name).le] at hcontents
      obtain ⟨hdir', hmap'⟩ := hdir.link (by omega) (fun hlt => hhole (by omega)) habsent hinum
      rw [← hcontents] at hdir' hmap'
      refine .of_pure ⟨hcons, htype'', hdir', .linked habsent hmap' fun hex => ?_⟩
      have hmlt : m < n := by
        by_contra hge
        exact hnohole (by omega) hex
      rw [hcontents, length_splice_entry (by omega) (length_dirent inum name)]
      omega
    · -- an entry does not cross a block, so nothing was written
      obtain ⟨hfull, hplace, hend⟩ := hshort (by omega)
      obtain rfl : k = 0 := by
        unfold direntSize bsize at *
        omega
      rw [if_pos (show ((0 : ℕ) : ℤ) ≠ direntSize by decide)]
      rw [List.take_zero, splice_nil] at hcontents
      refine .of_pure ⟨hcons, htype'', hcontents ▸ hdir, ?_⟩
      rw [hcontents]
      exact .noSpace habsent (hnohole (by omega)) (.inl hfull)

/-- Clearing an entry removes the name from the map. -/
theorem unlinkEntry_spec :
    Ensures (unlinkEntry sb (firstFree sb) d (dinode sb s.cache d) name) (fun r s' =>
      Consistent sb s' ∧ (dinode sb s'.cache d).type = tDir ∧ Directory (contents sb s' d) ∧
        DirStep (Full sb s'.cache) (contents sb s d) (.unlink name) (.code r)
          (contents sb s' d)) s := by
  unfold unlinkEntry
  refine .bind_of_run (dirlookup_run h hd htype hdir) ?_
  cases hfind : findSlot (entry (contents sb s d)) ((contents sb s d).length / 16)
      (nameKey name) with
  | none => exact .of_pure ⟨h, htype, hdir, .absent (toMap_eq_none.mpr hfind)⟩
  | some j =>
    obtain ⟨hj, v, he⟩ := findSlot_eq_some hfind
    have hlen := length_contents sb s d
    have hsmall := (h.sound d hd).small
    have hzero : (List.replicate direntSize (0 : Byte)).length = direntSize := by simp
    have hdsize : direntSize = 16 := rfl
    obtain ⟨k, hk, ip', s', hwrite, hshort, -, htype', hcontents, -, hcons, hip⟩ :=
      @writei_splice sb s d (16 * j) direntSize h hd (by rw [htype]; decide) (by omega) (by omega)
        _ _ hzero fun _ _ => rfl
    dsimp only [Option.map_some]
    refine .bind_of_run hwrite ?_
    -- the entry lies below the size, where every block is there
    obtain rfl : k = direntSize := by
      by_contra hne
      obtain ⟨-, -, hend⟩ := hshort (by omega)
      obtain ⟨-, hplace, -⟩ := hshort (by omega)
      unfold bsize at hplace
      omega
    rw [if_neg (by simp)]
    rw [List.take_of_length_le hzero.le] at hcontents
    obtain ⟨hdir', hlen', hmap'⟩ := hdir.unlink hfind
    rw [← hcontents] at hdir' hmap' hlen'
    refine .of_pure ⟨hcons, by rw [← hip, htype', htype], hdir',
      .unlinked (fun hnone => ?_) hmap' hlen'⟩
    rw [dirMap, toMap_eq_none, hfind] at hnone
    cases hnone

theorem DirOp.run_spec (op : DirOp) :
    Ensures (op.run sb d) (fun r s' =>
      Consistent sb s' ∧ (dinode sb s'.cache d).type = tDir ∧ Directory (contents sb s' d) ∧
        DirStep (Full sb s'.cache) (contents sb s d) op r (contents sb s' d)) s := by
  have hlock : ilock sb d s = .ok (dinode sb s.cache d, s) := by simp [ilock, htype, tDir]
  cases op with
  | dirlookup name =>
    refine .bind_of_run hlock (.bind_of_run (dirlookup_run h hd htype hdir) ?_)
    refine .of_pure ⟨h, htype, hdir, ?_⟩
    dsimp only
    cases hfind : findSlot (entry (contents sb s d)) ((contents sb s d).length / 16)
        (nameKey name) with
    | none => exact .missing (toMap_eq_none.mpr hfind)
    | some j =>
      obtain ⟨hj, v, he⟩ := findSlot_eq_some hfind
      have hv : direntInum (entryBytes (contents sb s d) j) = v := by
        unfold entry at he
        split_ifs at he
        exact (Prod.ext_iff.mp (Option.some.inj he)).2
      rw [Option.map_some, hv]
      exact .found ((toMap_eq_some hdir.distinct).mpr ⟨j, hj, he⟩) hj he
  | dirlink name inum nonzero =>
    refine .bind_of_run hlock ?_
    exact (dirlink_spec h hd htype hdir nonzero).bind fun r s' hr => .of_pure hr
  | unlink name =>
    refine .bind_of_run hlock ?_
    exact (unlinkEntry_spec h hd htype hdir).bind fun r s' hr => .of_pure hr

end

/-- Every sequence of operations on a directory with distinct names goes through, and each
does to the map what its name says. -/
theorem directory_is_finite_map (ops : List DirOp) (h : Consistent sb s) (hd : d < sb.ninodes)
    (htype : (dinode sb s.cache d).type = tDir) (hdir : Directory (contents sb s d)) :
    ∃ rs s', runDirOps sb d ops s = .ok (rs, s') ∧ rs.map Prod.fst = ops ∧ DirSteps sb d s rs s' ∧
      Directory (contents sb s' d) := by
  induction ops generalizing s with
  | nil => exact ⟨[], s, rfl, rfl, .nil, hdir⟩
  | cons op ops ih =>
    obtain ⟨r, s1, hrun, hcons, htype1, hdir1, hstep⟩ := op.run_spec h hd htype hdir
    obtain ⟨rs, s', hrest, hops, hsteps, hdir'⟩ := ih hcons htype1 hdir1
    refine ⟨(op, r) :: rs, s', ?_, by rw [List.map_cons, hops], .cons hstep hdir1 hsteps, hdir'⟩
    simp [runDirOps, hrun, hrest]

/-- The directory of the small file system is empty. -/
theorem directory_smallFs : Directory (contents smallVolume (smallFs tDir) 1) := by
  have hnode := (ilock_eq_ok (@ilock_smallFs tDir (by decide) (by decide))).2.1
  have hempty : contents smallVolume (smallFs tDir) 1 = [] := by
    unfold contents
    rw [← hnode]
    rfl
  rw [hempty]
  exact ⟨by decide, fun i hi => absurd hi (Nat.not_lt_zero i)⟩

/-- The name "a". -/
def fileA : ℕ → Byte := fun i => if i = 0 then 97 else 0

/-- Two operations on an empty directory. -/
theorem smallFs_is_finite_map :
    ∃ rs s', runDirOps smallVolume 1 [.dirlink fileA 1 (by decide), .dirlookup fileA]
        (smallFs tDir) = .ok (rs, s') ∧ DirSteps smallVolume 1 (smallFs tDir) rs s' := by
  have hnode := (ilock_eq_ok (@ilock_smallFs tDir (by decide) (by decide))).2.1
  obtain ⟨rs, s', hrun, -, hsteps, -⟩ := directory_is_finite_map
    [.dirlink fileA 1 (by decide), .dirlookup fileA] (consistent_smallFs (by decide))
    (show 1 < smallVolume.ninodes by decide) (by rw [← hnode]) directory_smallFs
  exact ⟨rs, s', hrun, hsteps⟩

/-- `dirlink` and then `dirlookup` of the same name. -/
def linkThenLook (sb : Superblock) (d : ℕ) (name : ℕ → Byte) (inum : ℕ) :
    FsM (ℤ × Option (ℕ × ℕ)) := do
  let dp ← ilock sb d
  let r ← dirlink sb (firstFree sb) d dp name inum
  let dp ← ilock sb d
  let found ← dirlookup sb (firstFree sb) dp name
  pure (r, found.2)

/-- An entry with inode number 65536 holds the number 0: `dirlink` succeeds, and the name is
not there. -/
theorem dirlink_65536_not_found :
    Consistent smallVolume (smallFs tDir) ∧ Directory (contents smallVolume (smallFs tDir) 1) ∧
      (linkThenLook smallVolume 1 fileA 65536 (smallFs tDir)).toOption.map Prod.fst =
        some (0, none) :=
  ⟨consistent_smallFs (by decide), directory_smallFs, by decide +kernel⟩

end XV6AndConcurrency.FileSystem
