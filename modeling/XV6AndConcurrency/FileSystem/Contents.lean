import XV6AndConcurrency.FileSystem.Allocation
import XV6AndConcurrency.Foundations.Splices

/-!
# The bytes of a file

`writei` puts bytes into the blocks of one file, and `readi` takes them out. No block belongs
to two files, so nothing else changes.
-/

namespace XV6AndConcurrency.FileSystem

open Foundations

variable {sb : Superblock} {search : Fs → Option ℕ} {s s' : Fs} {cache cache' : ℕ → Block}
  {nodes : ℕ → Dinode} {ip : Dinode} {b bn i j k p lo mid hi off tot m n : ℕ}

/-! ## Copies -/

theorem eitherCopyin_length (src : ℕ → Option Byte) (tot m : ℕ) :
    (eitherCopyin src tot m).length ≤ m := by
  induction m generalizing tot with
  | zero => exact le_rfl
  | succ m ih =>
    unfold eitherCopyin
    split
    · exact Nat.zero_le _
    · exact Nat.succ_le_succ (ih (tot + 1))

/-- What was copied is what the source holds. -/
theorem eitherCopyin_getElem? {src : ℕ → Option Byte} (h : k < (eitherCopyin src tot m).length) :
    (eitherCopyin src tot m)[k]? = src (tot + k) := by
  induction m generalizing tot k with
  | zero => exact absurd h (Nat.not_lt_zero k)
  | succ m ih =>
    unfold eitherCopyin at h ⊢
    cases hsrc : src tot with
    | none => simp [hsrc] at h
    | some b =>
      simp only [hsrc, List.length_cons] at h ⊢
      cases k with
      | zero => simp [hsrc]
      | succ k =>
        rw [List.getElem?_cons_succ, ih (by omega)]
        congr 1
        omega

/-- A source that can be read is copied. -/
theorem eitherCopyin_full {src : ℕ → Option Byte} (h : ∀ k < m, (src (tot + k)).isSome) :
    (eitherCopyin src tot m).length = m := by
  induction m generalizing tot with
  | zero => rfl
  | succ m ih =>
    obtain ⟨b, hb⟩ := Option.isSome_iff_exists.mp (h 0 (by omega))
    rw [Nat.add_zero] at hb
    unfold eitherCopyin
    simp only [hb, List.length_cons]
    rw [ih]
    intro k hk
    rw [Nat.add_assoc, Nat.add_comm 1]
    exact h (k + 1) (by omega)

theorem eitherCopyout_full {dst : ℕ → Bool} {l : List Byte}
    (h : ∀ k < l.length, dst (tot + k) = true) : eitherCopyout dst tot l = l := by
  induction l generalizing tot with
  | nil => rfl
  | cons b l ih =>
    have hfirst : dst tot = true := h 0 (by simp)
    unfold eitherCopyout
    rw [if_pos hfirst, ih]
    intro k hk
    rw [Nat.add_assoc, Nat.add_comm 1]
    exact h (k + 1) (by simpa using hk)

/-! ## A data block -/

section

variable (h : Owned sb cache nodes) (hin : i < sb.ninodes) (hbn : bn < maxfile)
  (hne : slot cache (nodes i) (dataSlot bn) ≠ 0) (blk : Block)
include h hin hbn hne

theorem update_data_of_lt (hb : b < sb.nmeta) :
    Function.update cache (slot cache (nodes i) (dataSlot bn)) blk b = cache b :=
  Function.update_of_ne (hb.trans_le (h.slot_range hin (dataSlot_le hbn) hne).1).ne _ _

theorem slot_update_data (hj : j < sb.ninodes) (k : ℕ) :
    slot (Function.update cache (slot cache (nodes i) (dataSlot bn)) blk) (nodes j) k =
      slot cache (nodes j) k :=
  slot_congr rfl (fun _ => Function.update_of_ne (h.data_ne_indirect hj hin hbn hne).symm _ _) k

theorem byteAt_update_data (hj : j < sb.ninodes) (hp : p < maxfile * bsize) :
    byteAt (Function.update cache (slot cache (nodes i) (dataSlot bn)) blk) (nodes j) p =
      if j = i ∧ p / bsize = bn then blk (p % bsize) else byteAt cache (nodes j) p := by
  unfold byteAt
  rw [slot_update_data h hin hbn hne blk hj]
  by_cases hsame : j = i ∧ p / bsize = bn
  · obtain ⟨rfl, rfl⟩ := hsame
    rw [if_neg hne, Function.update_self, if_pos ⟨rfl, rfl⟩]
  · rw [if_neg hsame]
    by_cases hzero : slot cache (nodes j) (dataSlot (p / bsize)) = 0
    · rw [if_pos hzero, if_pos hzero]
    · rw [if_neg hzero, if_neg hzero, Function.update_of_ne]
      intro heq
      obtain ⟨hji, hslot⟩ := h.slot_inj hj (dataSlot_le (div_bsize_lt hp)) hin (dataSlot_le hbn)
        hzero heq
      exact hsame ⟨hji, dataSlot_inj hslot⟩

/-- The content of a data block is nobody else's business. -/
theorem Owned.update_data :
    Owned sb (Function.update cache (slot cache (nodes i) (dataSlot bn)) blk) nodes := by
  have hslot := fun j hj k => slot_update_data h hin hbn hne blk (j := j) hj k
  have hbit : ∀ b < sb.size,
      bitmap sb (Function.update cache (slot cache (nodes i) (dataSlot bn)) blk) b =
        bitmap sb cache b := by
    intro b hb
    unfold bitmap
    rw [update_data_of_lt h hin hbn hne blk (h.bblock_lt hb)]
  refine ⟨h.layout, h.ledger.congr (place_congr fun j hj k _ => hslot j hj k) fun b => ?_, ?_⟩
  · constructor
    · rintro ⟨hb, hset⟩
      exact ⟨hb, hbit b hb ▸ hset⟩
    · rintro ⟨hb, hset⟩
      exact ⟨hb, (hbit b hb).trans hset⟩
  · intro j hj
    have hs := h.sound j hj
    refine ⟨hs.fits, hs.small, fun bn hlt => ?_, hs.unused⟩
    rw [hslot j hj]
    exact hs.covered bn hlt

end

/-! ## Writing -/

/-- The bytes of file `i` from `lo` to `hi` have become those of `data`; other bytes are as
before. -/
structure Wrote (sb : Superblock) (i : ℕ) (cache cache' : ℕ → Block) (nodes : ℕ → Dinode)
    (ip : Dinode) (data : ℕ → Byte) (lo hi : ℕ) : Prop where
  owned : Owned sb cache' (Function.update nodes i ip)
  node : ip = { nodes i with addrs := ip.addrs }
  mapped : ∀ p, lo ≤ p → p < hi → slot cache' ip (dataSlot (p / bsize)) ≠ 0
  slots : ∀ k ≤ maxfile, slot cache (nodes i) k ≠ 0 →
    slot cache' ip k = slot cache (nodes i) k
  bytes : ∀ j < sb.ninodes, ∀ p < maxfile * bsize,
    byteAt cache' (Function.update nodes i ip j) p =
      if j = i ∧ lo ≤ p ∧ p < hi then data p else byteAt cache (nodes j) p
  inodes : ∀ b < sb.bmapstart, cache' b = cache b

variable {data : ℕ → Byte}

/-- Allocation writes nothing. -/
theorem Grown.wrote (hin : i < sb.ninodes)
    (h : Grown sb i cache cache' nodes (Function.update nodes i ip)) (lo : ℕ) :
    Wrote sb i cache cache' nodes ip data lo lo := by
  have hnode := h.node
  have hslots := h.slots i hin
  rw [Function.update_self] at hnode hslots
  refine ⟨h.owned, hnode, fun p hlo hhi => absurd hhi (by omega), hslots, fun j hj p hp => ?_,
    h.inodes⟩
  rw [h.bytes j hj p hp, if_neg (by omega)]

theorem Wrote.refl (h : Owned sb cache nodes) (hin : i < sb.ninodes) (lo : ℕ) :
    Wrote sb i cache cache nodes (nodes i) data lo lo := by
  apply Grown.wrote hin
  rw [Function.update_eq_self]
  exact .refl h i

theorem Wrote.trans {cache'' : ℕ → Block} {ip' : Dinode}
    (h : Wrote sb i cache cache' nodes ip data lo mid)
    (h' : Wrote sb i cache' cache'' (Function.update nodes i ip) ip' data mid hi)
    (hlo : lo ≤ mid) (hhi : mid ≤ hi) (hmax : mid ≤ maxfile * bsize) :
    Wrote sb i cache cache'' nodes ip' data lo hi := by
  have hupd : Function.update (Function.update nodes i ip) i ip' = Function.update nodes i ip' :=
    Function.update_idem ..
  have hslots := h'.slots
  have hnode := h'.node
  rw [Function.update_self] at hslots hnode
  refine ⟨hupd ▸ h'.owned, ?_, fun p hp hlt => ?_, fun k hk hne => ?_, fun j hj p hp => ?_,
    fun b hb => (h'.inodes b hb).trans (h.inodes b hb)⟩
  · rw [hnode, h.node]
  · rcases lt_or_ge p mid with hpm | hpm
    · have hold := h.mapped p hp hpm
      rwa [hslots _ (dataSlot_le (div_bsize_lt (hpm.trans_le hmax))) hold]
    · exact h'.mapped p hpm hlt
  · have hmid := h.slots k hk hne
    rw [hslots k hk (hmid ▸ hne), hmid]
  · have hbytes := h'.bytes j hj p hp
    rw [hupd] at hbytes
    rw [hbytes, h.bytes j hj p hp]
    by_cases hji : j = i
    · simp only [hji, true_and]
      split_ifs <;> first | rfl | omega
    · simp [hji]

variable (data) in
/-- Bytes are stored in a block that is there. -/
theorem Wrote.putBytes {l : List Byte} (h : Owned sb cache nodes) (hin : i < sb.ninodes)
    (hbn : off / bsize < maxfile) (hne : slot cache (nodes i) (dataSlot (off / bsize)) ≠ 0)
    (hfit : off % bsize + l.length ≤ bsize)
    (hdata : ∀ k < l.length, l[k]? = some (data (off + k))) :
    Wrote sb i cache (Function.update cache (slot cache (nodes i) (dataSlot (off / bsize)))
        ((cache (slot cache (nodes i) (dataSlot (off / bsize)))).putBytes (off % bsize) l))
      nodes (nodes i) data off (off + l.length) := by
  have hslot := slot_update_data h hin hbn hne
    ((cache (slot cache (nodes i) (dataSlot (off / bsize)))).putBytes (off % bsize) l) hin
  have hupd : Function.update nodes i (nodes i) = nodes := Function.update_eq_self ..
  have hmod := Nat.div_add_mod off bsize
  refine ⟨hupd.symm ▸ h.update_data hin hbn hne _, rfl, fun p hlo hhi => ?_,
    fun k _ _ => hslot k, fun j hj p hp => ?_, fun b hb => ?_⟩
  · have hdiv : p / bsize = off / bsize := by
      unfold bsize at *
      omega
    rw [hslot, hdiv]
    exact hne
  · rw [hupd, byteAt_update_data h hin hbn hne _ hj hp]
    by_cases hji : j = i
    · subst hji
      simp only [true_and]
      by_cases hdiv : p / bsize = off / bsize
      · rw [if_pos hdiv]
        have hpmod := Nat.div_add_mod p bsize
        rw [hdiv] at hpmod
        have hold : byteAt cache (nodes j) p =
            cache (slot cache (nodes j) (dataSlot (off / bsize))) (p % bsize) := by
          unfold byteAt
          rw [hdiv, if_neg hne]
        rw [hold]
        by_cases hmem : off ≤ p ∧ p < off + l.length
        · obtain ⟨k, rfl⟩ := Nat.exists_eq_add_of_le hmem.1
          have hk : k < l.length := by omega
          have hval := hdata k hk
          rw [List.getElem?_eq_getElem hk] at hval
          rw [if_pos hmem, show (off + k) % bsize = off % bsize + k by omega,
            Block.putBytes_of_mem _ hk, Option.some.inj hval]
        · rw [if_neg hmem, Block.putBytes_of_not_mem _ (by omega)]
      · rw [if_neg hdiv, if_neg]
        rintro ⟨hlo, hhi⟩
        apply hdiv
        unfold bsize at *
        omega
    · rw [if_neg fun hc => hji hc.1, if_neg fun hc => hji hc.1]
  · exact update_data_of_lt h hin hbn hne _
      (hb.trans (h.layout.bmapstart_lt (h.slot_range hin (dataSlot_le hbn) hne).2.1))

/-- The loop writes what the source holds up to some `hi`, which is where it stopped unless
a copy failed on the way. -/
theorem writeiLoop_spec {src : ℕ → Option Byte} {off0 fuel : ℕ} (h : Owned sb s.cache nodes)
    (hin : i < sb.ninodes) (htype : (nodes i).type ≠ 0) (hmax : off0 + n ≤ maxfile * bsize)
    (htot : tot ≤ n) (hfuel : n - tot ≤ fuel) :
    Ensures (writeiLoop sb (firstFree sb) src n fuel (nodes i) (off0 + tot) tot) (fun r s' =>
      ∃ hi, Wrote sb i s.cache s'.cache nodes r.ip (fun p => (src (p - off0)).getD 0)
          (off0 + tot) hi ∧
        r.off = off0 + r.tot ∧ tot ≤ r.tot ∧ r.off ≤ hi ∧ hi ≤ off0 + n ∧
        ((∀ x < n, (src x).isSome) → hi = r.off ∧
          (r.tot < n → Full sb s'.cache ∧ (r.tot = tot ∨ r.off % bsize = 0) ∧
            slot s.cache (nodes i) (dataSlot (r.off / bsize)) = 0))) s := by
  have hstop : ∀ {s : Fs} {nodes : ℕ → Dinode} {tot : ℕ}, Owned sb s.cache nodes → tot ≤ n →
      ¬ tot < n → ∃ hi, Wrote sb i s.cache s.cache nodes (nodes i)
          (fun p => (src (p - off0)).getD 0) (off0 + tot) hi ∧
        off0 + tot = off0 + tot ∧ tot ≤ tot ∧ off0 + tot ≤ hi ∧ hi ≤ off0 + n ∧
        ((∀ x < n, (src x).isSome) → hi = off0 + tot ∧
          (tot < n → Full sb s.cache ∧ (tot = tot ∨ (off0 + tot) % bsize = 0) ∧
            slot s.cache (nodes i) (dataSlot ((off0 + tot) / bsize)) = 0)) :=
    fun h htot hno => ⟨_, .refl h hin _, rfl, le_rfl, le_rfl, by omega,
      fun _ => ⟨rfl, fun hlt => absurd hlt hno⟩⟩
  induction fuel generalizing s nodes tot with
  | zero => exact .of_pure (hstop h htot (by omega))
  | succ fuel ih =>
    unfold writeiLoop
    by_cases hlt : tot < n
    swap
    · rw [if_neg hlt]
      exact .of_pure (hstop h htot hlt)
    rw [if_pos hlt]
    have hbn : (off0 + tot) / bsize < maxfile := div_bsize_lt (by omega)
    refine (bmap_spec h hin htype hbn).bind fun r s1 ⟨hgrown, hr, hfull⟩ => ?_
    have hwrote : Wrote sb i s.cache s1.cache nodes r.1 (fun p => (src (p - off0)).getD 0)
        (off0 + tot) (off0 + tot) := hgrown.wrote hin (off0 + tot)
    by_cases hzero : r.2 = 0
    · rw [if_pos hzero]
      refine .of_pure ⟨_, hwrote, rfl, le_rfl, le_rfl, by omega,
        fun _ => ⟨rfl, fun _ => ⟨hfull hzero, .inl rfl, ?_⟩⟩⟩
      by_contra hne
      rw [hr, hwrote.slots _ (dataSlot_le hbn) hne] at hzero
      exact hne hzero
    rw [if_neg hzero]
    dsimp only
    refine .modify_bind ?_
    have hnode : Function.update nodes i r.1 i = r.1 := Function.update_self ..
    generalize hm : min (n - tot) (bsize - (off0 + tot) % bsize) = m
    have hmod : (off0 + tot) % bsize < bsize := Nat.mod_lt _ (by decide)
    have hlen := eitherCopyin_length src tot m
    have hput := Wrote.putBytes (fun p => (src (p - off0)).getD 0) (l := eitherCopyin src tot m)
      hgrown.owned hin hbn (by rw [hnode, ← hr]; exact hzero) (by omega) fun k hk => by
        have hcopied := eitherCopyin_getElem? hk
        rw [List.getElem?_eq_getElem hk] at hcopied
        rw [List.getElem?_eq_getElem hk, show off0 + tot + k - off0 = tot + k by omega, ← hcopied,
          Option.getD_some]
    rw [hnode, ← hr] at hput
    have hround := hwrote.trans hput le_rfl (by omega) (by omega)
    by_cases hcopied : (eitherCopyin src tot m).length = m
    · rw [if_pos hcopied]
      refine .modify_bind ?_
      have htype' : r.1.type ≠ 0 := by
        rw [hround.node]
        exact htype
      have hrest := @ih ⟨_, s1.logged ++ [r.2]⟩ (Function.update nodes i r.1) (tot + m)
        hround.owned (by rwa [hnode]) (by omega) (by omega)
      rw [hnode, ← Nat.add_assoc] at hrest
      refine hrest.mono fun r' s' ⟨hi, hwrote', hoff, hle, hhi, hmaxhi, hall⟩ => ?_
      rw [hcopied] at hround
      refine ⟨hi, hround.trans hwrote' (by omega) (by omega) (by omega), hoff, by omega, hhi,
        hmaxhi, fun hread => ⟨(hall hread).1, fun hshort => ?_⟩⟩
      obtain ⟨hfull', hplace, hunmapped⟩ := (hall hread).2 hshort
      refine ⟨hfull', .inr ?_, ?_⟩
      · -- a round that does not end the write ends its block
        rcases hplace with heq | hboundary
        · rw [hoff, heq]
          unfold bsize at *
          omega
        · exact hboundary
      · by_contra hne
        have hkept := hround.slots _ (dataSlot_le (div_bsize_lt (by omega))) hne
        exact hne (hkept.symm.trans hunmapped)
    · rw [if_neg hcopied]
      refine .of_pure ⟨_, hround, rfl, le_rfl, Nat.le_add_right _ _, by omega, fun hall => ?_⟩
      exact absurd (eitherCopyin_full fun k hk => hall (tot + k) (by omega)) hcopied

end XV6AndConcurrency.FileSystem
