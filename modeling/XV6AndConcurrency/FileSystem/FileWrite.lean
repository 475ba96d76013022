import XV6AndConcurrency.FileSystem.Log
import XV6AndConcurrency.FileSystem.ReadWrite

/-!
# The blocks that a chunk of filewrite logs

`filewrite` cuts what it writes into chunks, one transaction each. A chunk logs the inode, the
indirect block with the bitmap block of its allocation, and for each block of the file that it
touches the block and at most one bitmap block; the first of these blocks needs no bitmap
block if the chunk starts inside it.
-/

namespace XV6AndConcurrency.FileSystem

open Foundations

/-- `max` in `filewrite`. -/
def maxChunk : ℕ := (maxOpBlocks - 1 - 1 - 2) / 2 * bsize

/-- A round of the loop in `filewrite`, with the blocks passed to `log_write` between
`begin_op` and `end_op`. -/
def filewriteChunk (sb : Superblock) (search : Fs → Option ℕ) (inum : ℕ) (src : ℕ → Option Byte)
    (off n : ℕ) : FsM (ℤ × List ℕ) := do
  let before ← look fun s => s.logged.length
  let ip ← ilock sb inum
  let r ← writei sb search inum ip src off n
  let after ← look fun s => s.logged
  pure (r.2, after.drop before)

variable {sb : Superblock} {search : Fs → Option ℕ} {s : Fs} {ip ip' ip'' : Dinode}
  {bn i k off tot n fuel rounds : ℕ} {l l' : List ℕ} {D D' M M' : Finset ℕ}

/-! ## Blocks logged on behalf of an inode -/

/-- The indirect block, if there is one. -/
def indirectBlock (n : Dinode) : Finset ℕ :=
  if n.addrs ndirect = 0 then ∅ else {n.addrs ndirect}

/-- What was logged: the indirect block, `D`, and the block in `M`, which is there only if the
indirect block was allocated. -/
structure Logs (ip ip' : Dinode) (l : List ℕ) (D M : Finset ℕ) : Prop where
  sub : l.toFinset ⊆ D ∪ M ∪ indirectBlock ip'
  keeps : ip.addrs ndirect ≠ 0 → ip'.addrs ndirect = ip.addrs ndirect
  once : M.card ≤ 1
  first : M ≠ ∅ → ip.addrs ndirect = 0 ∧ ip'.addrs ndirect ≠ 0

theorem card_indirectBlock (n : Dinode) : (indirectBlock n).card ≤ 1 := by
  unfold indirectBlock
  split_ifs <;> simp

namespace Logs

theorem nil (ip : Dinode) : Logs ip ip [] ∅ ∅ := ⟨by simp, fun _ => rfl, by simp, by simp⟩

theorem mono (h : Logs ip ip' l D M) (hD : D ⊆ D') : Logs ip ip' l D' M :=
  ⟨h.sub.trans (Finset.union_subset_union_left (Finset.union_subset_union_left hD)), h.keeps,
    h.once, h.first⟩

/-- The indirect block is allocated at most once. -/
theorem trans (h : Logs ip ip' l D M) (h' : Logs ip' ip'' l' D' M') :
    Logs ip ip'' (l ++ l') (D ∪ D') (M ∪ M') := by
  have hkeep : indirectBlock ip' ⊆ indirectBlock ip'' := by
    unfold indirectBlock
    split_ifs with h1 h2
    · exact Finset.Subset.refl _
    · exact Finset.empty_subset _
    · exact absurd ((h'.keeps h1).symm.trans (by assumption)) h1
    · rw [h'.keeps h1]
  refine ⟨?_, fun hne => ?_, ?_, fun hne => ?_⟩
  · rw [List.toFinset_append]
    intro x hx
    rcases Finset.mem_union.mp hx with hx | hx
    · have := h.sub hx
      simp only [Finset.mem_union] at this ⊢
      rcases this with (hD | hM) | hI
      · exact .inl (.inl (.inl hD))
      · exact .inl (.inr (.inl hM))
      · exact .inr (hkeep hI)
    · have := h'.sub hx
      simp only [Finset.mem_union] at this ⊢
      rcases this with (hD | hM) | hI
      · exact .inl (.inl (.inr hD))
      · exact .inl (.inr (.inr hM))
      · exact .inr hI
  · rw [h'.keeps (by rwa [h.keeps hne]), h.keeps hne]
  · by_cases hM : M = ∅
    · rw [hM, Finset.empty_union]
      exact h'.once
    · have hM' : M' = ∅ := by
        by_contra hM'
        exact (h.first hM).2 (h'.first hM').1
      rw [hM', Finset.union_empty]
      exact h.once
  · by_cases hM : M = ∅
    · rw [hM, Finset.empty_union] at hne
      obtain ⟨hzero, hnew⟩ := h'.first hne
      refine ⟨?_, hnew⟩
      by_contra hold
      exact hold (by rw [← h.keeps hold, hzero])
    · obtain ⟨hzero, hnew⟩ := h.first hM
      exact ⟨hzero, by rwa [h'.keeps hnew]⟩

theorem card_le (h : Logs ip ip' l D M) : l.toFinset.card ≤ D.card + 2 := by
  have hsub := Finset.card_le_card h.sub
  have h1 := Finset.card_union_le (D ∪ M) (indirectBlock ip')
  have h2 := Finset.card_union_le D M
  have h3 := h.once
  have h4 := card_indirectBlock ip'
  omega

/-- Blocks of `D` are logged, and the pointer to the indirect block is left alone. -/
theorem of_subset (hl : l.toFinset ⊆ D) (hkeeps : ip'.addrs ndirect = ip.addrs ndirect) :
    Logs ip ip' l D ∅ := by
  refine ⟨hl.trans ?_, fun _ => hkeeps, by simp, fun h => absurd rfl h⟩
  intro x hx
  simp [hx]

end Logs

/-! ## The functions -/

theorem balloc_logged : Ensures (balloc sb search) (fun b s' =>
    ∃ l, s'.logged = s.logged ++ l ∧ ∃ m, l.toFinset ⊆ {b, m}) s := by
  cases h : search s with
  | none => exact .of_run (balloc_of_none h) ⟨[], by simp, 0, by simp⟩
  | some b =>
    refine .of_run (balloc_of_some h) ⟨_, rfl, sb.bblock b, ?_⟩
    intro x hx
    simpa [or_comm] using hx

/-- `bmap` logs the block that it returns, and one bitmap block, besides what concerns the
indirect block. -/
theorem bmap_logged (hbn : bn < maxfile) : Ensures (bmap sb search ip bn) (fun r s' =>
    ∃ l D M, s'.logged = s.logged ++ l ∧ Logs ip r.1 l D M ∧ D.card ≤ 2 ∧ r.2 ∈ D) s := by
  have hsame : ∀ {s : Fs} (ip : Dinode) (b : ℕ), ∃ l D M, s.logged = s.logged ++ l ∧
      Logs ip ip l D M ∧ D.card ≤ 2 ∧ b ∈ D :=
    fun ip b => ⟨[], {b}, ∅, by simp, (Logs.nil ip).mono (Finset.empty_subset _), by simp, by simp⟩
  unfold bmap
  by_cases hdirect : bn < ndirect
  · rw [if_pos hdirect]
    unfold bmapAddr
    split_ifs with hempty
    · refine balloc_logged.bind fun b s1 ⟨l, hlog, m, hl⟩ => ?_
      have hne : ndirect ≠ bn := by omega
      split_ifs with hb
      · exact .of_pure ⟨l, _, ∅, hlog, .of_subset hl rfl, Finset.card_le_two, by simp [hb]⟩
      · refine .of_pure ⟨l, _, ∅, hlog, .of_subset hl ?_, Finset.card_le_two, by simp⟩
        rw [Dinode.addrs_setAddr, Function.update_of_ne hne]
    · exact .of_pure (hsame ip _)
  have hentry : bn - ndirect < nindirect := by
    unfold maxfile at hbn
    omega
  rw [if_neg hdirect, if_pos hentry]
  -- the indirect block first
  have haddr : Ensures (bmapAddr sb search ip ndirect) (fun r s' =>
      r.2 = r.1.addrs ndirect ∧ ∃ l, s'.logged = s.logged ++ l ∧
        if r.2 = 0 then ∃ D, Logs ip r.1 l D ∅ ∧ D.card ≤ 2 ∧ 0 ∈ D
        else ∃ M, Logs ip r.1 l ∅ M) s := by
    unfold bmapAddr
    split_ifs with hempty
    · refine balloc_logged.bind fun b s1 ⟨l, hlog, m, hl⟩ => ?_
      split_ifs with hb
      · refine .of_pure ⟨hempty.symm, l, hlog, ?_⟩
        rw [if_pos rfl]
        exact ⟨_, .of_subset hl rfl, Finset.card_le_two, by simp [hb]⟩
      · refine .of_pure ⟨by simp, l, hlog, ?_⟩
        rw [if_neg hb]
        refine ⟨{m}, ?_, fun hne => absurd hempty hne, by simp, fun _ => ⟨hempty, by simpa⟩⟩
        intro x hx
        have := hl hx
        simp only [Finset.mem_insert, Finset.mem_singleton] at this
        simp only [indirectBlock, Dinode.addrs_setAddr, Function.update_self, if_neg hb,
          Finset.empty_union, Finset.mem_union, Finset.mem_singleton]
        exact this.symm
    · refine .of_pure ⟨rfl, [], by simp, ?_⟩
      rw [if_neg hempty]
      exact ⟨∅, .nil ip⟩
  refine haddr.bind fun r s1 ⟨hr, l, hlog, hcase⟩ => ?_
  by_cases hzero : r.2 = 0
  · rw [if_pos hzero] at hcase ⊢
    obtain ⟨D, hlogs, hcard, hmem⟩ := hcase
    exact .of_pure ⟨l, D, ∅, hlog, hlogs, hcard, by rwa [hzero]⟩
  rw [if_neg hzero] at hcase ⊢
  obtain ⟨M, hlogs⟩ := hcase
  have hentries : Ensures (bmapEntry sb search r.2 (bn - ndirect)) (fun b s' =>
      ∃ l' D, s'.logged = s1.logged ++ l' ∧ Logs r.1 r.1 l' D ∅ ∧ D.card ≤ 2 ∧ b ∈ D) s1 := by
    unfold bmapEntry bread
    refine .look_bind ?_
    split_ifs with hempty
    · refine balloc_logged.bind fun b s2 ⟨l', hlog', m, hl'⟩ => ?_
      split_ifs with hb
      · exact .of_pure ⟨l', _, hlog', .of_subset hl' rfl, Finset.card_le_two, by simp [hb]⟩
      · refine .modify_bind (.modify_bind (.of_pure ⟨l' ++ [r.2], {b, m}, ?_, ⟨?_, fun _ => rfl,
          by simp, fun h => absurd rfl h⟩, Finset.card_le_two, by simp⟩))
        · dsimp only
          rw [hlog', List.append_assoc]
        · rw [List.toFinset_append]
          apply Finset.union_subset
          · intro x hx
            exact Finset.mem_union_left _ (Finset.mem_union_left _ (hl' hx))
          · intro x hx
            apply Finset.mem_union_right
            unfold indirectBlock
            rw [if_neg (hr ▸ hzero), ← hr]
            simpa using hx
    · exact .of_pure ⟨[], {(s1.cache r.2).word (bn - ndirect)}, by simp,
        (Logs.nil r.1).mono (Finset.empty_subset _), by simp, by simp⟩
  refine hentries.bind fun b s2 ⟨l', D, hlog', hlogs', hcard, hmem⟩ => ?_
  refine .of_pure ⟨l ++ l', ∅ ∪ D, M ∪ ∅, ?_, hlogs.trans hlogs', ?_, ?_⟩
  · rw [hlog', hlog, List.append_assoc]
  · rwa [Finset.empty_union]
  · rwa [Finset.empty_union]

/-- A round for a block that `bmap` returned logs that block once more at most. -/
theorem Logs.data (h : Logs ip ip' l D M) (hk : k ∈ D) : Logs ip ip' (l ++ [k]) D M := by
  refine ⟨?_, h.keeps, h.once, h.first⟩
  rw [List.toFinset_append]
  apply Finset.union_subset h.sub
  intro x hx
  obtain rfl : x = k := by simpa using hx
  exact Finset.mem_union_left _ (Finset.mem_union_left _ hk)

/-- Every block of the file that the loop touches costs two blocks of the log. -/
theorem writeiLoop_logged {src : ℕ → Option Byte}
    (hrounds : n ≤ tot ∨ off % bsize + (n - tot) ≤ rounds * bsize)
    (hmax : off + (n - tot) ≤ maxfile * bsize) :
    Ensures (writeiLoop sb search src n fuel ip off tot) (fun r s' =>
      ∃ l D M, s'.logged = s.logged ++ l ∧ Logs ip r.ip l D M ∧ D.card ≤ 2 * rounds) s := by
  induction fuel generalizing s ip off tot rounds with
  | zero => exact .of_pure ⟨[], ∅, ∅, by simp, .nil ip, by simp⟩
  | succ fuel ih =>
    unfold writeiLoop
    by_cases hlt : tot < n
    swap
    · rw [if_neg hlt]
      exact .of_pure ⟨[], ∅, ∅, by simp, .nil ip, by simp⟩
    rw [if_pos hlt]
    obtain ⟨rounds, rfl⟩ : ∃ m, rounds = m + 1 := by
      apply Nat.exists_eq_succ_of_ne_zero
      rintro rfl
      omega
    have hbn : off / bsize < maxfile := div_bsize_lt (by omega)
    refine (bmap_logged hbn).bind ?_
    rintro r s1 ⟨l, D, M, hlog, hlogs, hcard, hmem⟩
    by_cases hzero : r.2 = 0
    · rw [if_pos hzero]
      exact .of_pure ⟨l, D, M, hlog, hlogs, by omega⟩
    rw [if_neg hzero]
    dsimp only
    refine .modify_bind ?_
    generalize hm : min (n - tot) (bsize - off % bsize) = m
    split_ifs with hcopied
    · refine .modify_bind ?_
      have hmod : off % bsize < bsize := Nat.mod_lt _ (by decide)
      refine (@ih ⟨_, s1.logged ++ [r.2]⟩ r.1 (off + m) (tot + m) rounds ?_ (by omega)).mono ?_
      · -- the chunk ends in this block, or the next block is entered at its start
        rcases le_or_gt (n - tot) (bsize - off % bsize) with hend | hmore
        · exact .inl (by omega)
        · right
          have hstart : (off + m) % bsize = 0 := by
            unfold bsize at *
            omega
          rw [hstart, Nat.add_mul] at *
          omega
      · rintro r' s' ⟨l', D', M', hlog', hlogs', hcard'⟩
        refine ⟨l ++ [r.2] ++ l', D ∪ D', M ∪ M', ?_, (hlogs.data hmem).trans hlogs', ?_⟩
        · rw [hlog', hlog]
          simp
        · have := Finset.card_union_le D D'
          omega
    · exact .of_pure ⟨l, D, M, hlog, hlogs, by omega⟩

/-- The first block costs one block only if it is there already. -/
theorem writeiLoop_logged_of_mapped {src : ℕ → Option Byte}
    (hmapped : slot s.cache ip (dataSlot (off / bsize)) ≠ 0)
    (hrounds : off % bsize + n ≤ (rounds + 1) * bsize) (hmax : off + n ≤ maxfile * bsize) :
    Ensures (writeiLoop sb search src n n ip off 0) (fun r s' =>
      ∃ l D M, s'.logged = s.logged ++ l ∧ Logs ip r.ip l D M ∧ D.card ≤ 2 * rounds + 1) s := by
  cases n with
  | zero => exact .of_pure ⟨[], ∅, ∅, by simp, .nil ip, by simp⟩
  | succ n =>
    unfold writeiLoop
    have hbn : off / bsize < maxfile := div_bsize_lt (by omega)
    rw [if_pos (Nat.succ_pos n)]
    refine .bind_of_run (bmap_of_mapped hbn hmapped) ?_
    rw [if_neg hmapped]
    dsimp only
    refine .modify_bind ?_
    generalize hm : min (n + 1 - 0) (bsize - off % bsize) = m
    split_ifs with hcopied
    · refine .modify_bind ?_
      have hmod : off % bsize < bsize := Nat.mod_lt _ (by decide)
      refine (@writeiLoop_logged sb search ⟨_, s.logged ++ [_]⟩ ip (off + m) (0 + m) (n + 1) n
        rounds src ?_ (by omega)).mono ?_
      · rcases le_or_gt (n + 1) (bsize - off % bsize) with hend | hmore
        · exact .inl (by omega)
        · right
          have hstart : (off + m) % bsize = 0 := by
            unfold bsize at *
            omega
          rw [hstart, Nat.add_mul] at *
          omega
      · rintro r' s' ⟨l', D', M', hlog', hlogs', hcard'⟩
        have hfirst := (((Logs.nil ip).mono (Finset.empty_subset _)).data
          (Finset.mem_singleton_self (slot s.cache ip (dataSlot (off / bsize))))).trans hlogs'
        refine ⟨_, _, _, ?_, hfirst, ?_⟩
        · rw [hlog']
          simp
        · have := Finset.card_union_le {slot s.cache ip (dataSlot (off / bsize))} D'
          rw [Finset.card_singleton] at this
          omega
    · exact .of_pure ⟨[], ∅, ∅, by simp, .nil ip, by simp⟩

theorem writei_logged {src : ℕ → Option Byte} (hsound : ip.Sound s.cache) (hoff : off ≤ ip.size)
    (hn : n ≤ maxChunk) :
    Ensures (writei sb search i ip src off n) (fun _ s' =>
      ∃ l, s'.logged = s.logged ++ l ∧ l.toFinset.card ≤ maxOpBlocks) s := by
  have hsmall := hsound.small
  have hrejected : ∃ l, s.logged = s.logged ++ l ∧ l.toFinset.card ≤ maxOpBlocks :=
    ⟨[], by simp, by simp⟩
  unfold writei
  split_ifs with hfirst hlast
  · exact .of_pure hrejected
  · exact .of_pure hrejected
  have hwrap : (off + n) % 4294967296 = off + n := by
    unfold maxChunk maxOpBlocks maxfile ndirect nindirect bsize at *
    omega
  rw [hwrap] at hlast
  have hloop : Ensures (writeiLoop sb search src n n ip off 0) (fun r s' =>
      ∃ l D M, s'.logged = s.logged ++ l ∧ Logs ip r.ip l D M ∧ D.card ≤ 7) s := by
    have hmod : off % bsize < bsize := Nat.mod_lt _ (by decide)
    unfold maxChunk maxOpBlocks at hn
    by_cases haligned : off % bsize = 0
    · refine (@writeiLoop_logged sb search s ip off 0 n n 3 src (.inr ?_) (by omega)).mono ?_
      · unfold bsize at *
        omega
      · rintro r s' ⟨l, D, M, hlog, hlogs, hcard⟩
        exact ⟨l, D, M, hlog, hlogs, by omega⟩
    · have hdiv := Nat.div_add_mod' off bsize
      refine (@writeiLoop_logged_of_mapped sb search s ip off n 3 src
        (hsound.covered _ (by omega)) ?_ (by omega)).mono ?_
      · unfold bsize at *
        omega
      · rintro r s' ⟨l, D, M, hlog, hlogs, hcard⟩
        exact ⟨l, D, M, hlog, hlogs, by omega⟩
  refine hloop.bind fun r s1 ⟨l, D, M, hlog, hlogs, hcard⟩ => ?_
  refine .bind_of_run (storeDinode_run s1 i _) (.of_pure ⟨l ++ [sb.iblock i], ?_, ?_⟩)
  · dsimp only
    rw [hlog, List.append_assoc]
  · have hl := hlogs.card_le
    have hunion := Finset.card_union_le l.toFinset [sb.iblock i].toFinset
    rw [← List.toFinset_append] at hunion
    have hone : [sb.iblock i].toFinset.card = 1 := by simp
    unfold maxOpBlocks
    omega

/-- Whatever block the searches find, a chunk of `filewrite` passes at most `MAXOPBLOCKS`
blocks to `log_write`. -/
theorem filewrite_chunk_fits (sb : Superblock) (search : Fs → Option ℕ) (s : Fs) (i : ℕ)
    (src : ℕ → Option Byte) (hlock : ilock sb i s = .ok (ip, s)) (hsound : ip.Sound s.cache)
    (hoff : off ≤ ip.size) (hn : n ≤ maxChunk) :
    ∃ r s', filewriteChunk sb search i src off n s = .ok (r, s') ∧
      s'.logged = s.logged ++ r.2 ∧ r.2.toFinset.card ≤ maxOpBlocks := by
  obtain ⟨r, s', hrun, l, hlog, hcard⟩ := @writei_logged sb search s ip i off n src hsound hoff hn
  refine ⟨(r.2, l), s', ?_, hlog, hcard⟩
  simp [filewriteChunk, hlock, hrun, hlog]

/-- Three blocks for the file of the small file system. -/
theorem filewrite_chunk_fits_smallFs :
    ∃ r s', filewriteChunk smallVolume (firstFree smallVolume) 1 (fun _ => some 7) 0 3072
        (smallFs 2) = .ok (r, s') ∧
      s'.logged = [] ++ r.2 ∧ r.2.toFinset.card ≤ maxOpBlocks := by
  have htype : 2 < 65536 := by decide
  have hlock := ilock_smallFs htype (by decide)
  have hsound := (consistent_smallFs htype).sound 1 (by decide)
  rw [← (ilock_eq_ok hlock).2.1] at hsound
  exact filewrite_chunk_fits smallVolume (firstFree smallVolume) (smallFs 2) 1 (fun _ => some 7)
    hlock hsound (Nat.zero_le _) (by decide)

end XV6AndConcurrency.FileSystem
