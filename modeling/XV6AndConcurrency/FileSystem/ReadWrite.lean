import XV6AndConcurrency.FileSystem.Contents

/-!
# Files as growable byte arrays

`writei` splices bytes into the list of the bytes of a file, and `readi` returns a part of
this list. The list is that of the inode on disk, which agrees with the locked one in memory
before and after each call.
-/

namespace XV6AndConcurrency.FileSystem

open Foundations

/-- Block ownership, for the inodes on disk. -/
def Consistent (sb : Superblock) (s : Fs) : Prop := Owned sb s.cache (dinode sb s.cache)

/-- The bytes of file `i`. -/
def contents (sb : Superblock) (s : Fs) (i : ℕ) : List Byte :=
  (List.range (dinode sb s.cache i).size).map (byteAt s.cache (dinode sb s.cache i))

variable {sb : Superblock} {s s' : Fs} {cache cache' : ℕ → Block} {nodes nodes' : ℕ → Dinode}
  {ip : Dinode} {i j p off tot n : ℕ}

/-! ## An inode goes back to disk -/

theorem Owned.nodes_congr (h : Owned sb cache nodes)
    (hnodes : ∀ j < sb.ninodes, nodes' j = nodes j) :
    Owned sb cache nodes' := by
  apply h.congr (fun _ _ => rfl)
  · intro j hj
    rw [hnodes j hj]
  · intro j hj
    rw [hnodes j hj]
    exact id

/-- An inode gets a new size. -/
theorem Owned.resize (sz : ℕ) (h : Owned sb cache nodes) (hin : i < sb.ninodes)
    (htype : (nodes i).type ≠ 0) (hsz : sz ≤ maxfile * bsize)
    (hcov : ∀ bn, bn * bsize < sz → slot cache (nodes i) (dataSlot bn) ≠ 0) :
    Owned sb cache (Function.update nodes i { nodes i with size := sz }) := by
  have hcases : ∀ j, j ≠ i → Function.update nodes i { nodes i with size := sz } j = nodes j :=
    fun j hj => Function.update_of_ne hj ..
  apply h.congr (fun _ _ => rfl)
  · intro j _
    by_cases hji : j = i
    · rw [hji, Function.update_self]
    · rw [hcases j hji]
  · intro j hj hs
    by_cases hji : j = i
    · subst hji
      rw [Function.update_self]
      have hf := hs.fits
      have hlt : sz < 4294967296 := hsz.trans_lt (by decide)
      exact ⟨⟨hf.type, hf.major, hf.minor, hf.nlink, hlt, hf.addrs, hf.spare⟩, hsz,
        fun bn hbn => hcov bn hbn, fun hz => absurd hz htype⟩
    · rwa [hcases j hji]

/-- The inode in memory is stored, and memory and disk agree. -/
theorem Owned.iupdate (h : Owned sb cache (Function.update nodes i ip)) (hin : i < sb.ninodes)
    (hdisk : ∀ j < sb.ninodes, dinode sb cache j = nodes j) :
    (∀ j < sb.ninodes, dinode sb (stored sb cache i ip) j = Function.update nodes i ip j) ∧
      Owned sb (stored sb cache i ip) (dinode sb (stored sb cache i ip)) := by
  have hfits : ip.Fits := by
    have := (h.sound i hin).fits
    rwa [Function.update_self] at this
  have hnodes : ∀ j < sb.ninodes, dinode sb (stored sb cache i ip) j =
      Function.update nodes i ip j := by
    intro j hj
    rw [dinode_stored hfits]
    by_cases hji : j = i
    · rw [hji, Function.update_self, Function.update_self]
    · rw [Function.update_of_ne hji, Function.update_of_ne hji, hdisk j hj]
  exact ⟨hnodes, (h.store hin).nodes_congr hnodes⟩

theorem dinode_of_inodes (h : Owned sb cache nodes)
    (hcache : ∀ b < sb.bmapstart, cache' b = cache b) (hj : j < sb.ninodes) :
    dinode sb cache' j = dinode sb cache j :=
  dinode_congr (hcache _ (h.layout.inodes j hj))

/-! ## Writing -/

/-- A write that starts behind the end, or ends too far from the start, changes nothing. -/
theorem writei_of_rejected {search : Fs → Option ℕ} {src : ℕ → Option Byte}
    (hoff : off < 4294967296) (hn : n < 4294967296)
    (h : ip.size < off ∨ maxfile * bsize < off + n) (s : Fs) :
    writei sb search i ip src off n s = .ok ((ip, -1), s) := by
  unfold writei
  by_cases hfirst : ip.size < off ∨ (off + n) % 4294967296 < off
  · rw [if_pos hfirst]
    rfl
  · rw [if_neg hfirst, if_pos]
    · rfl
    · unfold maxfile ndirect nindirect bsize at *
      omega

/-- What an accepted write of file `i` leaves, for any source: the copies may have failed on
the way. -/
theorem writei_spec {src : ℕ → Option Byte} (h : Consistent sb s) (hin : i < sb.ninodes)
    (htype : (dinode sb s.cache i).type ≠ 0) (hoff : off ≤ (dinode sb s.cache i).size)
    (hmax : off + n ≤ maxfile * bsize) :
    Ensures (writei sb (firstFree sb) i (dinode sb s.cache i) src off n) (fun r s' =>
      Consistent sb s' ∧ r.1 = dinode sb s'.cache i ∧
      (∀ j < sb.ninodes, j ≠ i → dinode sb s'.cache j = dinode sb s.cache j) ∧
      ∃ tot hi : ℕ, r.2 = tot ∧ off + tot ≤ hi ∧ hi ≤ off + n ∧
        r.1 = { dinode sb s.cache i with
          size := max (dinode sb s.cache i).size (off + tot), addrs := r.1.addrs } ∧
        (∀ j < sb.ninodes, ∀ p < maxfile * bsize,
          byteAt s'.cache (dinode sb s'.cache j) p = if j = i ∧ off ≤ p ∧ p < hi then
            (src (p - off)).getD 0 else byteAt s.cache (dinode sb s.cache j) p) ∧
        ((∀ x < n, (src x).isSome) → hi = off + tot ∧
          (tot < n → Full sb s'.cache ∧ (tot = 0 ∨ (off + tot) % bsize = 0) ∧
            (dinode sb s.cache i).size ≤ off + tot))) s := by
  unfold writei
  have hno : ¬ ((dinode sb s.cache i).size < off ∨ (off + n) % 4294967296 < off) := by
    unfold maxfile ndirect nindirect bsize at hmax
    omega
  have hno' : ¬ maxfile * bsize < (off + n) % 4294967296 := by
    have := Nat.mod_le (off + n) 4294967296
    omega
  rw [if_neg hno, if_neg hno']
  have hloop : Ensures (writeiLoop sb (firstFree sb) src n n (dinode sb s.cache i) (off + 0) 0)
      _ s := writeiLoop_spec h hin htype hmax (Nat.zero_le n) (Nat.sub_le n 0)
  rw [Nat.add_zero] at hloop
  refine hloop.bind fun r s1 ⟨hi, hwrote, hroff, _, hlo, hhi, hall⟩ => ?_
  have hdisk : ∀ j < sb.ninodes, dinode sb s1.cache j = dinode sb s.cache j :=
    fun j hj => dinode_of_inodes h hwrote.inodes hj
  have hsize : r.ip.size = (dinode sb s.cache i).size := by rw [hwrote.node]
  have hrtype : r.ip.type ≠ 0 := by
    rw [hwrote.node]
    exact htype
  have hsmall := (h.sound i hin).small
  -- the size as it is set at the end
  have hset : (if r.ip.size < r.off then { r.ip with size := r.off } else r.ip) =
      { r.ip with size := max (dinode sb s.cache i).size (off + r.tot) } := by
    rw [hsize, hroff]
    split_ifs with hlt
    · rw [Nat.max_eq_right hlt.le]
    · rw [Nat.max_eq_left (not_lt.mp hlt), ← hsize]
  rw [hset]
  have hresized := hwrote.owned.resize (max (dinode sb s.cache i).size (off + r.tot)) hin
    (by rwa [Function.update_self]) (by omega) fun bn hbn => by
      rw [Function.update_self]
      have hmaxbn : bn < maxfile := Nat.lt_of_mul_lt_mul_right (a := bsize) (by omega)
      by_cases hold : bn * bsize < (dinode sb s.cache i).size
      · rw [hwrote.slots _ (dataSlot_le hmaxbn) (h.slot_ne_zero hin hold)]
        exact h.slot_ne_zero hin hold
      · by_cases hstart : off ≤ bn * bsize
        · have hmapped := hwrote.mapped (bn * bsize) hstart (by omega)
          rwa [Nat.mul_div_cancel _ (by decide)] at hmapped
        · omega
  rw [Function.update_self, Function.update_idem] at hresized
  obtain ⟨hnodes, howned⟩ := hresized.iupdate hin hdisk
  refine .bind_of_run (storeDinode_run s1 i _) (.of_pure ⟨howned, ?_, fun j hj hji => ?_,
    r.tot, hi, ?_, by omega, hhi, ?_, fun j hj p hp => ?_, fun hread => ?_⟩)
  · rw [hnodes i hin, Function.update_self]
  · rw [hnodes j hj, Function.update_of_ne hji]
  · apply wrap32_of_range
    · omega
    · unfold maxfile ndirect nindirect bsize at hmax
      omega
  · rw [hwrote.node]
  · rw [← hwrote.bytes j hj p hp]
    have hframe : byteAt s1.cache _ p = _ := byteAt_congr (hresized.iupdate hin hdisk).2 hj
      (fun b hb => (stored_of_ne (h.layout.inodes i hin |>.trans_le hb).ne').symm) hp
    rw [← hframe, hnodes j hj]
    by_cases hji : j = i
    · subst hji
      rw [Function.update_self, Function.update_self]
      exact byteAt_of_addrs rfl p
    · rw [Function.update_of_ne hji, Function.update_of_ne hji]
  · obtain ⟨heq, hfull⟩ := hall hread
    refine ⟨by omega, fun hlt => ⟨fun b hb => ?_, hroff ▸ (hfull hlt).2.1, ?_⟩⟩
    · refine (bitmap_congr (fun b hb _ => stored_of_ne ?_) h.layout hb).trans ((hfull hlt).1 b hb)
      exact (h.layout.inodes i hin |>.trans_le hb).ne'
    · by_contra hsz
      refine h.slot_ne_zero hin ?_ (hfull hlt).2.2
      have hdiv := Nat.div_mul_le_self r.off bsize
      omega

/-! ## Reading -/

/-- The bytes of an inode from `off` on. -/
def bytesFrom (cache : ℕ → Block) (ip : Dinode) (off n : ℕ) : List Byte :=
  (List.range n).map fun k => byteAt cache ip (off + k)

theorem bytesFrom_add (cache : ℕ → Block) (ip : Dinode) (off m n : ℕ) :
    bytesFrom cache ip off (m + n) =
      bytesFrom cache ip off m ++ bytesFrom cache ip (off + m) n := by
  simp [bytesFrom, List.range_add, Nat.add_assoc, Function.comp_def]

variable {search : Fs → Option ℕ}

/-- Up to the size of an inode every block is there, so the loop allocates nothing. -/
theorem readiLoop_spec (hsound : ip.Sound s.cache) {dst : ℕ → Bool} {off0 fuel : ℕ}
    {bytes : List Byte} (hmax : off0 + n ≤ ip.size) (htot : tot ≤ n) (hfuel : n - tot ≤ fuel) :
    ∃ res, readiLoop sb search dst n fuel ip (off0 + tot) tot bytes s = .ok (res, s) ∧
      res.ip = ip ∧ ((∀ k < n, dst k = true) → res.ret = wrap32 n ∧
        res.bytes = bytes ++ bytesFrom s.cache ip (off0 + tot) (n - tot)) := by
  induction fuel generalizing tot bytes with
  | zero =>
    obtain rfl : tot = n := by omega
    exact ⟨_, rfl, rfl, fun _ => ⟨rfl, by simp [bytesFrom]⟩⟩
  | succ fuel ih =>
    unfold readiLoop
    by_cases hlt : tot < n
    swap
    · obtain rfl : tot = n := by omega
      rw [if_neg hlt]
      exact ⟨_, rfl, rfl, fun _ => ⟨rfl, by simp [bytesFrom]⟩⟩
    have hsmall := hsound.small
    have hbn : (off0 + tot) / bsize < maxfile := div_bsize_lt (by omega)
    have hmod := Nat.div_add_mod (off0 + tot) bsize
    have hmodlt : (off0 + tot) % bsize < bsize := Nat.mod_lt _ (by decide)
    have hne := hsound.covered ((off0 + tot) / bsize) (by
      rw [Nat.mul_comm]
      omega)
    rw [if_pos hlt]
    generalize hm : min (n - tot) (bsize - (off0 + tot) % bsize) = m
    -- the bytes in the block are those of the file
    have hdata : ((List.range m).map fun i => s.cache
        (slot s.cache ip (dataSlot ((off0 + tot) / bsize))) ((off0 + tot) % bsize + i)) =
        bytesFrom s.cache ip (off0 + tot) m := by
      apply List.map_congr_left
      intro k hk
      have hkm := List.mem_range.mp hk
      have hdiv : (off0 + tot + k) / bsize = (off0 + tot) / bsize := by
        unfold bsize at *
        omega
      have hrest : (off0 + tot + k) % bsize = (off0 + tot) % bsize + k := by
        unfold bsize at *
        omega
      unfold byteAt
      rw [hdiv, if_neg hne, hrest]
    have hlen : (bytesFrom s.cache ip (off0 + tot) m).length = m := by simp [bytesFrom]
    simp only [bind_run, bmap_of_mapped hbn hne, ok_bind, if_neg hne, bread, look_run, hdata]
    by_cases hcopied : (eitherCopyout dst tot (bytesFrom s.cache ip (off0 + tot) m)).length = m
    · rw [if_pos hcopied]
      obtain ⟨res, hrun, hip, hall⟩ := @ih (tot + m)
        (bytes ++ eitherCopyout dst tot (bytesFrom s.cache ip (off0 + tot) m)) (by omega) (by omega)
      rw [← Nat.add_assoc] at hrun hall
      refine ⟨res, hrun, hip, fun hdst => ?_⟩
      obtain ⟨hret, hbytes⟩ := hall hdst
      refine ⟨hret, ?_⟩
      rw [hbytes, eitherCopyout_full fun k hk => hdst (tot + k) (by omega), List.append_assoc,
        ← bytesFrom_add, show m + (n - (tot + m)) = n - tot by omega]
    · rw [if_neg hcopied]
      refine ⟨_, rfl, rfl, fun hdst => absurd ?_ hcopied⟩
      rw [eitherCopyout_full fun k hk => hdst (tot + k) (by omega), hlen]

theorem length_contents (sb : Superblock) (s : Fs) (i : ℕ) :
    (contents sb s i).length = (dinode sb s.cache i).size := by simp [contents]

theorem bytesFrom_eq (hle : off + n ≤ (dinode sb s.cache i).size) :
    bytesFrom s.cache (dinode sb s.cache i) off n = ((contents sb s i).drop off).take n := by
  apply List.ext_getElem?
  intro k
  rw [List.getElem?_take]
  split_ifs with hk
  · have hlt : off + k < (dinode sb s.cache i).size := by omega
    simp [bytesFrom, contents, hk, hlt]
  · exact List.getElem?_eq_none (by simpa [bytesFrom] using hk)

/-- A read changes nothing, and returns a part of the bytes of the file. -/
theorem readi_spec (h : Consistent sb s) (hin : i < sb.ninodes) {dst : ℕ → Bool}
    (hoff : off < 4294967296) (hn : n < 4294967296) :
    ∃ res, readi sb search (dinode sb s.cache i) dst off n s = .ok (res, s) ∧
      res.ip = dinode sb s.cache i ∧
      ((∀ k < n, dst k = true) →
        if (dinode sb s.cache i).size < off ∨ 4294967296 ≤ off + n then
          res.ret = 0 ∧ res.bytes = []
        else res.ret = min n ((dinode sb s.cache i).size - off) ∧
          res.bytes = ((contents sb s i).drop off).take n) := by
  have hsound := h.sound i hin
  have hsmall := hsound.small
  unfold maxfile ndirect nindirect bsize at hsmall
  unfold readi
  by_cases hrejected : (dinode sb s.cache i).size < off ∨ (off + n) % 4294967296 < off
  · rw [if_pos hrejected]
    refine ⟨_, rfl, rfl, fun _ => ?_⟩
    rw [if_pos (by omega)]
    exact ⟨rfl, rfl⟩
  · rw [if_neg hrejected, show (off + n) % 4294967296 = off + n by omega]
    generalize hlen : (if (dinode sb s.cache i).size < off + n then
      (dinode sb s.cache i).size - off else n) = len
    have hle : off + len ≤ (dinode sb s.cache i).size := by
      split_ifs at hlen <;> omega
    have hmin : len = min n ((dinode sb s.cache i).size - off) := by
      split_ifs at hlen <;> omega
    obtain ⟨res, hrun, hip, hall⟩ := @readiLoop_spec sb s _ 0 len search hsound dst off len [] hle
      (Nat.zero_le _) (Nat.sub_le _ _)
    refine ⟨res, hrun, hip, fun hdst => ?_⟩
    obtain ⟨hret, hbytes⟩ := hall fun k hk => hdst k (by omega)
    rw [if_neg (by omega)]
    constructor
    · rw [hret, wrap32_of_range (by omega) (by omega), hmin]
    · rw [hbytes, List.nil_append, Nat.add_zero, Nat.sub_zero, bytesFrom_eq hle, hmin]
      rw [← length_contents, ← List.length_drop]
      exact (List.take_eq_take_min).symm

/-! ## The whole -/

theorem ilock_eq_ok (h : ilock sb i s = .ok (ip, s')) :
    s' = s ∧ ip = dinode sb s.cache i ∧ ip.type ≠ 0 := by
  simp only [ilock, bind_run, look_run, ok_bind] at h
  split_ifs at h with htype
  · cases h
  · simp only [pure_run, Except.ok.injEq, Prod.mk.injEq] at h
    obtain ⟨rfl, rfl⟩ := h
    exact ⟨rfl, rfl, htype⟩

theorem contents_getElem? (hp : p < (dinode sb s.cache i).size) :
    (contents sb s i)[p]? = some (byteAt s.cache (dinode sb s.cache i) p) := by
  simp [contents, hp]

/-- Equal sizes and equal bytes make equal contents. -/
theorem contents_congr (hsize : (dinode sb s'.cache i).size = (dinode sb s.cache i).size)
    (h : ∀ p < (dinode sb s.cache i).size, byteAt s'.cache (dinode sb s'.cache i) p =
      byteAt s.cache (dinode sb s.cache i) p) : contents sb s' i = contents sb s i := by
  unfold contents
  rw [hsize]
  apply List.map_congr_left
  intro p hp
  exact h p (List.mem_range.mp hp)

/-- An accepted write from a source that can be read splices the bytes in, or the first of
them if the disk gets full. -/
theorem writei_splice (h : Consistent sb s) (hin : i < sb.ninodes)
    (htype : (dinode sb s.cache i).type ≠ 0) (hoff : off ≤ (dinode sb s.cache i).size)
    (hmax : off + n ≤ maxfile * bsize) {src : ℕ → Option Byte} {bytes : List Byte}
    (hlen : bytes.length = n) (hsrc : ∀ x < n, src x = bytes[x]?) :
    ∃ k ≤ n, ∃ ip' s',
      writei sb (firstFree sb) i (dinode sb s.cache i) src off n s = .ok ((ip', (k : ℤ)), s') ∧
      (k < n → Full sb s'.cache ∧ (k = 0 ∨ (off + k) % bsize = 0) ∧
        (dinode sb s.cache i).size ≤ off + k) ∧
      ip'.size = max (dinode sb s.cache i).size (off + k) ∧
      ip'.type = (dinode sb s.cache i).type ∧
      contents sb s' i = splice (contents sb s i) off (bytes.take k) ∧
      (∀ j < sb.ninodes, j ≠ i →
        dinode sb s'.cache j = dinode sb s.cache j ∧ contents sb s' j = contents sb s j) ∧
      Consistent sb s' ∧ ip' = dinode sb s'.cache i := by
  obtain ⟨r, s', hrun, hcons, hip, hothers, k, hi, hret, hlo, hhi, hnode, hbytes, hall⟩ :=
    @writei_spec _ _ _ off n src h hin htype hoff hmax
  obtain ⟨rfl, hfull⟩ := hall fun x hx => by
    rw [hsrc x hx, List.getElem?_eq_getElem (by omega)]
    rfl
  have hk : k ≤ n := by omega
  have hsize : (dinode sb s'.cache i).size = max (dinode sb s.cache i).size (off + k) := by
    rw [← hip, hnode]
  have htake : (bytes.take k).length = k := by
    rw [List.length_take]
    omega
  have hsmall := (h.sound i hin).small
  refine ⟨k, hk, r.1, s', by rw [hrun, ← hret], hfull, by rw [hip, hsize], by rw [hnode], ?_,
    fun j hj hji => ⟨hothers j hj hji, ?_⟩, hcons, hip⟩
  · apply eq_splice
    · rw [length_contents]
      exact hoff
    · rw [length_contents, length_contents, hsize, htake]
    · intro x hx
      rw [htake] at hx
      rw [contents_getElem? (by omega), hbytes i hin _ (by omega),
        if_pos ⟨rfl, by omega, by omega⟩, Nat.add_sub_cancel_left, hsrc x (by omega),
        List.getElem?_take_of_lt hx, List.getElem?_eq_getElem (by omega), Option.getD_some]
    · intro p hp hout
      rw [length_contents] at hp
      rw [htake] at hout
      rw [contents_getElem? (by omega), contents_getElem? hp, hbytes i hin _ (by omega),
        if_neg (by omega)]
  · have hsmallj := (h.sound j hj).small
    refine contents_congr (by rw [hothers j hj hji]) fun p hp => ?_
    rw [hbytes j hj p (by omega), if_neg fun hc => hji hc.1]

/-- A locked inode whose blocks are its own is a growable array of bytes: a write splices
bytes in, all of them unless the disk gets full, or is refused; a read returns a part. -/
theorem inode_is_growable_array (h : Consistent sb s) (hin : i < sb.ninodes)
    (hlock : ilock sb i s = .ok (ip, s)) (hoff : off < 4294967296) (hn : n < 4294967296)
    {src : ℕ → Option Byte} {bytes : List Byte} (hlen : bytes.length = n)
    (hsrc : ∀ x < n, src x = bytes[x]?) {dst : ℕ → Bool} (hdst : ∀ x < n, dst x = true) :
    (if off ≤ ip.size ∧ off + n ≤ maxfile * bsize then
      ∃ k ≤ n, ∃ ip' s', writei sb (firstFree sb) i ip src off n s = .ok ((ip', (k : ℤ)), s') ∧
        (k < n → Full sb s'.cache) ∧ ip'.size = max ip.size (off + k) ∧
        contents sb s' i = splice (contents sb s i) off (bytes.take k) ∧
        (∀ j < sb.ninodes, j ≠ i →
          dinode sb s'.cache j = dinode sb s.cache j ∧ contents sb s' j = contents sb s j) ∧
        Consistent sb s' ∧ ip' = dinode sb s'.cache i
    else writei sb (firstFree sb) i ip src off n s = .ok ((ip, -1), s)) ∧
    ∃ res, readi sb (firstFree sb) ip dst off n s = .ok (res, s) ∧
      if ip.size < off ∨ 4294967296 ≤ off + n then res.ret = 0 ∧ res.bytes = []
      else res.ret = min n (ip.size - off) ∧ res.bytes = ((contents sb s i).drop off).take n := by
  obtain ⟨-, rfl, htype⟩ := ilock_eq_ok hlock
  constructor
  · split_ifs with haccept
    · obtain ⟨k, hk, ip', s', hrun, hfull, hsize, -, hcontents, hothers, hcons, hip⟩ :=
        writei_splice h hin htype haccept.1 haccept.2 hlen hsrc
      exact ⟨k, hk, ip', s', hrun, fun hlt => (hfull hlt).1, hsize, hcontents, hothers, hcons, hip⟩
    · exact writei_of_rejected hoff hn (by omega) s
  · obtain ⟨res, hrun, -, hall⟩ := @readi_spec _ _ _ off n (firstFree sb) h hin dst hoff hn
    exact ⟨res, hrun, hall hdst⟩

/-! ## A small file system -/

/-- Inodes without blocks, and a bitmap that marks the blocks in front of the data blocks. -/
theorem Owned.of_empty (hlayout : DiskLayout sb) (hmeta : sb.nmeta ≤ sb.size)
    (hbits : ∀ b < sb.size, bitmap sb cache b = decide (b < sb.nmeta))
    (hnodes : ∀ i < sb.ninodes, (nodes i).Fits ∧ (nodes i).size = 0 ∧ ∀ k, (nodes i).addrs k = 0) :
    Owned sb cache nodes := by
  have hslot : ∀ i < sb.ninodes, ∀ k, slot cache (nodes i) k = 0 := by
    intro i hi k
    simp [slot, (hnodes i hi).2.2]
  have hplace : ∀ x, place sb cache nodes x = none := by
    intro x
    by_cases hx : x.1 < sb.ninodes
    · exact place_eq_none (hslot x.1 hx x.2)
    · exact if_neg fun hc => hx hc.1
  refine ⟨hlayout, ⟨?_, ?_, fun b => ?_⟩, fun i hi => ?_⟩
  · intro x y b hx
    rw [hplace] at hx
    cases hx
  · intro x b hx
    rw [hplace] at hx
    cases hx
  · simp only [hplace, reduceCtorEq, exists_false, or_false]
    constructor
    · rintro ⟨hb, hbit⟩
      rw [hbits b hb] at hbit
      exact of_decide_eq_true hbit
    · intro hb
      exact ⟨hb.trans_le hmeta, by rw [hbits b (hb.trans_le hmeta), decide_eq_true hb]⟩
  · obtain ⟨hfits, hsize, haddrs⟩ := hnodes i hi
    refine ⟨hfits, hsize ▸ Nat.zero_le _, fun bn hbn => ?_, fun _ => ⟨hsize, haddrs⟩⟩
    rw [hsize] at hbn
    exact absurd hbn (Nat.not_lt_zero _)

/-- Two inodes, two data blocks. -/
def smallVolume : Superblock where
  size := 5
  nblocks := 2
  ninodes := 2
  inodestart := 1
  bmapstart := 2

/-- The bitmap of the small volume with nothing else on the disk. -/
def blankDisk : ℕ → Block := fun b o => if b = 2 ∧ o = 0 then 7 else 0

/-- Inode 1 is empty and has the given type, inode 0 is free. -/
def smallFs (type : ℕ) : Fs where
  cache := stored smallVolume blankDisk 1 { type }

theorem fits_of_type {type : ℕ} (h : type < 65536) : ({ type } : Dinode).Fits :=
  ⟨h, by simp, by simp, by simp, by simp, by simp, by simp⟩

theorem dinode_blankDisk : dinode smallVolume blankDisk 0 = {} := by
  have hblock : blankDisk (smallVolume.iblock 0) = fun _ => 0 := by
    funext o
    exact if_neg fun hc => absurd hc.1 (by decide)
  unfold dinode Dinode.load
  simp [hblock, toShort]

theorem consistent_smallFs {type : ℕ} (h : type < 65536) :
    Consistent smallVolume (smallFs type) := by
  have hlayout : DiskLayout smallVolume := ⟨by decide, by decide, by decide⟩
  apply Owned.of_empty hlayout (by decide)
  · have hbits : ∀ b < smallVolume.size, bitmap smallVolume blankDisk b =
        decide (b < smallVolume.nmeta) := by decide
    intro b hb
    rw [← hbits b hb]
    refine bitmap_congr (fun c hc _ => stored_of_ne ?_) hlayout hb
    rintro rfl
    exact absurd hc (by decide)
  · intro i hi
    unfold smallFs
    rw [dinode_stored (fits_of_type h)]
    by_cases hi1 : i = 1
    · rw [hi1, Function.update_self]
      exact ⟨fits_of_type h, rfl, fun _ => rfl⟩
    · obtain rfl : i = 0 := by
        change i < 2 at hi
        omega
      rw [Function.update_of_ne hi1, dinode_blankDisk]
      exact ⟨fits_of_type (by decide), rfl, fun _ => rfl⟩

theorem dinode_smallFs {type : ℕ} (h : type < 65536) :
    dinode smallVolume (smallFs type).cache 1 = { type } := by
  unfold smallFs
  rw [dinode_stored (fits_of_type h), Function.update_self]

theorem ilock_smallFs {type : ℕ} (h : type < 65536) (hpos : type ≠ 0) :
    ilock smallVolume 1 (smallFs type) = .ok ({ type }, smallFs type) := by
  simp [ilock, dinode_smallFs h, hpos]

/-- Three bytes for the file of the small file system. -/
theorem smallFs_is_growable_array :
    ∃ k : ℕ, k ≤ 3 ∧ ∃ ip' s', writei smallVolume (firstFree smallVolume) 1 { type := 2 }
        (fun x => [7, 8, 9][x]?) 0 3 (smallFs 2) = .ok ((ip', (k : ℤ)), s') ∧
      contents smallVolume s' 1 = splice (contents smallVolume (smallFs 2) 1) 0
        (([7, 8, 9] : List Byte).take k) := by
  have htype : 2 < 65536 := by decide
  have h := (@inode_is_growable_array _ _ _ _ 0 3 (consistent_smallFs htype) (by decide)
    (ilock_smallFs htype (by decide)) (by decide) (by decide) _ [7, 8, 9] rfl (fun _ _ => rfl)
    (fun _ => true) fun _ _ => rfl).1
  rw [if_pos ⟨Nat.zero_le _, by decide⟩] at h
  obtain ⟨k, hk, ip', s', hrun, -, -, hcontents, -⟩ := h
  exact ⟨k, hk, ip', s', hrun, hcontents⟩

end XV6AndConcurrency.FileSystem
