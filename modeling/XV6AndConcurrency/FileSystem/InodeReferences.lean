import XV6AndConcurrency.FileSystem.InodeTable

/-!
# References to inodes

Every order of steps keeps the counts of the table, and the inode that `iput` frees is used
by nobody until it has been read from disk again.
-/

namespace XV6AndConcurrency.FileSystem.ItableUse

open Foundations

/-! ## The invariant -/

/-- What a place says of the table. -/
def Fits (s : ItableUse) (p : ℕ) : Place → Prop
  | .ready | .scanning _ _ _ | .found _ _ => True
  | .loading r i => s.lockedBy i = some (p, r)
  | .freeing stage r i since =>
    s.lockedBy i = some (p, r) ∧ since ≤ s.fresh ∧
      (∀ r' ≠ r, s.refers r' = some i → since ≤ r') ∧
      (stage = .truncating ∨ stage = .freeing →
        (s.inode i).valid = true ∧ (s.inode i).node.nlink = 0) ∧
      (stage = .unlocking → (s.inode i).valid = false)
  | .putting _ _ => True

/-- The fields of a valid entry were read since `ialloc` last gave the inode out. -/
def Current (s : ItableUse) (i : ℕ) : Prop :=
  s.loaded i = s.allocs (s.inode i).dev (s.inode i).inum ∧ (s.inode i).node.type ≠ 0 ∧
    (s.disk (s.inode i).dev (s.inode i).inum).type ≠ 0

structure Safe (s : ItableUse) : Prop where
  refs : ∀ i, (s.inode i).ref = s.outstanding i
  locks : ∀ i, (s.inode i).holder = (s.lockedBy i).map Prod.fst
  lt : ∀ i, 0 < (s.inode i).ref → i < ninode
  old : ∀ r i, s.refers r = some i → r < s.fresh
  unique : ∀ i j, 0 < (s.inode i).ref → 0 < (s.inode j).ref → (s.inode i).dev = (s.inode j).dev →
    (s.inode i).inum = (s.inode j).inum → i = j
  kept : ∀ i p r, s.lockedBy i = some (p, r) → s.refers r = some i
  fits : ∀ p, s.Fits p (s.place p)
  drops : ∀ p r i, (s.place p).drops = some (r, i) → s.refers r = some i ∧ s.dropped r = true
  alone : ∀ p q r i j, (s.place p).drops = some (r, i) → (s.place q).drops = some (r, j) → p = q
  busy : ∀ i p r, s.lockedBy i = some (p, r) → s.dropped r = true →
    ∃ stage since, s.place p = .freeing stage r i since
  used : ∀ i p r, s.lockedBy i = some (p, r) → (s.inode i).valid = true ∨
    s.place p = .loading r i ∨ ∃ since, s.place p = .freeing .unlocking r i since
  current : ∀ i, 0 < (s.inode i).ref → (s.inode i).valid = true → s.Current i ∨
    ∃ p r since, s.place p = .freeing .clearing r i since

/-! ## Counting references -/

variable {s : ItableUse} {p r i : ℕ}

theorem outstanding_pos (hr : s.refers r = some i) (hlt : r < s.fresh) : 0 < s.outstanding i := by
  unfold outstanding
  refine Finset.sum_pos' (fun _ _ => Nat.zero_le _) ⟨r, Finset.mem_range.mpr hlt, ?_⟩
  simp [hr]

/-- The only reference to an entry. -/
theorem eq_of_outstanding_one {r' : ℕ} (h : s.outstanding i = 1) (hr : s.refers r = some i)
    (hlt : r < s.fresh) (hr' : s.refers r' = some i) (hlt' : r' < s.fresh) : r' = r := by
  by_contra hne
  unfold outstanding at h
  have hsub : ({r, r'} : Finset ℕ) ⊆ Finset.range s.fresh := by
    intro x hx
    simp only [Finset.mem_insert, Finset.mem_singleton] at hx
    rw [Finset.mem_range]
    rcases hx with rfl | rfl <;> assumption
  have hle := Finset.sum_le_sum_of_subset (f := fun r => if s.refers r = some i then 1 else 0) hsub
  rw [Finset.sum_pair (Ne.symm hne)] at hle
  simp only [hr, hr', if_true] at hle
  omega

theorem outstanding_newRef (i j : ℕ) :
    (s.newRef j).outstanding i = s.outstanding i + if i = j then 1 else 0 := by
  unfold outstanding newRef
  rw [Finset.sum_range_succ]
  congr 1
  · refine Finset.sum_congr rfl fun r hr => ?_
    simp only [Function.update_of_ne (Finset.mem_range.mp hr).ne]
  · simp [eq_comm]

theorem outstanding_endRef {j : ℕ} (hr : s.refers r = some j) (hlt : r < s.fresh) (i : ℕ) :
    (s.endRef r).outstanding i + (if i = j then 1 else 0) = s.outstanding i := by
  have hsum := sum_add_point (f := fun r => if s.refers r = some i then 1 else 0)
    (g := fun r' => if Function.update s.refers r none r' = some i then 1 else 0)
    (Finset.mem_range.mpr hlt) fun r' _ hne => by simp [Function.update_of_ne hne]
  simp only [hr, Function.update_self, Option.some.injEq, reduceCtorEq, if_false] at hsum
  unfold outstanding
  change (∑ r' ∈ Finset.range s.fresh, if Function.update s.refers r none r' = some i then 1 else 0)
    + _ = _
  grind

/-! ## What a step keeps -/

variable {s' : ItableUse}

/-- The place of a process fits as long as nothing happens to what it has locked. -/
theorem Fits.congr {c : Place} (h : s.Fits p c)
    (hinode : ∀ j r, s.lockedBy j = some (p, r) → s'.lockedBy j = s.lockedBy j ∧
      (s'.inode j).valid = (s.inode j).valid ∧
      (s'.inode j).node.nlink = (s.inode j).node.nlink)
    (hfresh : s.fresh ≤ s'.fresh)
    (hrefers : ∀ r' j, s'.refers r' = some j → s.refers r' = some j ∨ s.fresh ≤ r') :
    s'.Fits p c := by
  cases c with
  | ready | scanning | found | putting => trivial
  | loading r i => exact (hinode i r h).1.trans h
  | freeing stage r i since =>
    obtain ⟨hholder, hsince, hothers, hlive, hvalid⟩ := h
    obtain ⟨hsame, hv, hn⟩ := hinode i r hholder
    refine ⟨hsame.trans hholder, hsince.trans hfresh, fun r' hne hr' => ?_, ?_, ?_⟩
    · rcases hrefers r' i hr' with hold | hnew
      · exact hothers r' hne hold
      · exact hsince.trans hnew
    · rw [hv, hn]
      exact hlive
    · rw [hv]
      exact hvalid

theorem Safe.pos (h : Safe s) (hr : s.refers r = some i) : 0 < (s.inode i).ref := by
  rw [h.refs]
  exact Nat.cast_pos.mpr (outstanding_pos hr (h.old r i hr))

/-- The count does not leave the `int`, up or down. -/
theorem Safe.wrap_ref {d : ℤ} (h : Safe s) (hroom : s.Room) (hi : i < ninode)
    (hd : d = 1 ∨ d = -1) : wrap32 ((s.inode i).ref + d) = (s.inode i).ref + d := by
  have hlt := hroom i hi
  rw [h.refs]
  exact wrap32_of_range (by omega) (by omega)

/-- Fields that agree with the disk still do if neither changes. -/
theorem Current.congr (h : s.Current i) (hdev : (s'.inode i).dev = (s.inode i).dev)
    (hinum : (s'.inode i).inum = (s.inode i).inum) (hnode : (s'.inode i).node = (s.inode i).node)
    (hloaded : s'.loaded i = s.loaded i)
    (hallocs : s'.allocs (s.inode i).dev (s.inode i).inum =
      s.allocs (s.inode i).dev (s.inode i).inum)
    (hdisk : s'.disk (s.inode i).dev (s.inode i).inum = s.disk (s.inode i).dev (s.inode i).inum) :
    s'.Current i := by
  unfold Current at h ⊢
  rw [hdev, hinum, hnode, hloaded, hallocs, hdisk]
  exact h

section

variable {j q : ℕ} {c : Place} (h : Safe s) (hplace : s'.place = Function.update s.place p c)
  (hfree : ∀ stage r k, s.place p ≠ .freeing stage r j k)

include h hplace hfree

/-- Who drops the reference that an entry is locked with goes on, as another process moves. -/
theorem Safe.busy_of_move (hj : s.lockedBy j = some (q, r)) (hdr : s.dropped r = true) :
    ∃ stage since, s'.place q = .freeing stage r j since := by
  obtain ⟨stage, k, hf⟩ := h.busy j q r hj hdr
  have hqp : q ≠ p := by
    rintro rfl
    exact hfree stage r k hf
  exact ⟨stage, k, by rw [hplace, Function.update_of_ne hqp, hf]⟩

theorem Safe.used_of_move (hload : ∀ r, s.place p ≠ .loading r j)
    (hj : s.lockedBy j = some (q, r)) : (s.inode j).valid = true ∨
      s'.place q = .loading r j ∨ ∃ since, s'.place q = .freeing .unlocking r j since := by
  have hqp : (∃ r, s.place q = .loading r j) ∨ (∃ stage r k, s.place q = .freeing stage r j k) →
      s'.place q = s.place q := by
    intro hat
    rw [hplace, Function.update_of_ne]
    rintro rfl
    rcases hat with ⟨r, hl⟩ | ⟨stage, r, k, hf⟩
    · exact hload r hl
    · exact hfree stage r k hf
  rcases h.used j q r hj with hv | hl | ⟨k, hu⟩
  · exact .inl hv
  · exact .inr (.inl ((hqp (.inl ⟨r, hl⟩)).trans hl))
  · exact .inr (.inr ⟨k, (hqp (.inr ⟨_, r, k, hu⟩)).trans hu⟩)

theorem Safe.current_of_move (hj : 0 < (s.inode j).ref) (hv : (s.inode j).valid = true) :
    s.Current j ∨ ∃ q r since, s'.place q = .freeing .clearing r j since := by
  refine (h.current j hj hv).imp_right ?_
  rintro ⟨q, r, k, hc⟩
  have hqp : q ≠ p := by
    rintro rfl
    exact hfree _ r k hc
  exact ⟨q, r, k, by rw [hplace, Function.update_of_ne hqp, hc]⟩

end

/-- A step of a process on an entry that is locked by no other and keeps its identity. -/
theorem Safe.edit {e : Inode} {l : Option (ℕ × ℕ)} {c : Place} (h : Safe s)
    (hpos : 0 < (s.inode i).ref) (hinode : s'.inode = Function.update s.inode i e)
    (hlockedBy : s'.lockedBy = Function.update s.lockedBy i l)
    (hlock : e.holder = l.map Prod.fst)
    (hid : e.dev = (s.inode i).dev ∧ e.inum = (s.inode i).inum ∧ e.ref = (s.inode i).ref)
    (hplace : s'.place = Function.update s.place p c)
    (hsame : s'.refers = s.refers ∧ s'.fresh = s.fresh ∧ s'.allocs = s.allocs)
    (hdropped : ∀ r, s.dropped r = true → s'.dropped r = true)
    (hdropped' : ∀ r, s'.dropped r = true → s.dropped r = true ∨ s.refers r = some i)
    (hloaded : ∀ j ≠ i, s'.loaded j = s.loaded j)
    (hdisk : ∀ d n, ¬ (d = (s.inode i).dev ∧ n = (s.inode i).inum) → s'.disk d n = s.disk d n)
    (hmine : ∀ q r, s.lockedBy i = some (q, r) → q = p)
    (hmine' : ∀ q r, l = some (q, r) → q = p ∧ s.refers r = some i)
    (hload : ∀ r j, s.place p = .loading r j → j = i)
    (hfree : ∀ stage r j k, s.place p = .freeing stage r j k → j = i)
    (hfits : s'.Fits p c)
    (hdrops : ∀ r j, c.drops = some (r, j) → s.refers r = some j ∧ s'.dropped r = true ∧
      ((s.place p).drops = some (r, j) ∨ s.dropped r = false))
    (hbusy : ∀ r, l = some (p, r) → s'.dropped r = true →
      ∃ stage since, c = .freeing stage r i since)
    (hused : ∀ r, l = some (p, r) → e.valid = true ∨ c = .loading r i ∨
      ∃ since, c = .freeing .unlocking r i since)
    (hcurrent : e.valid = true → s'.Current i ∨ ∃ r since, c = .freeing .clearing r i since) :
    Safe s' := by
  obtain ⟨hrefers, hfresh, hallocs⟩ := hsame
  obtain ⟨hdev, hinum, href⟩ := hid
  have hat : s'.inode i = e := by rw [hinode, Function.update_self]
  have hne : ∀ j ≠ i, s'.inode j = s.inode j := fun j hj => by rw [hinode, Function.update_of_ne hj]
  have hlat : s'.lockedBy i = l := by rw [hlockedBy, Function.update_self]
  have hlne : ∀ j ≠ i, s'.lockedBy j = s.lockedBy j := fun j hj => by
    rw [hlockedBy, Function.update_of_ne hj]
  have hp : s'.place p = c := by rw [hplace, Function.update_self]
  have hq : ∀ q ≠ p, s'.place q = s.place q := fun q hq => by rw [hplace, Function.update_of_ne hq]
  have hkeep : ∀ j, (s'.inode j).dev = (s.inode j).dev ∧ (s'.inode j).inum = (s.inode j).inum ∧
      (s'.inode j).ref = (s.inode j).ref := by
    intro j
    by_cases hj : j = i
    · rw [hj, hat]
      exact ⟨hdev, hinum, href⟩
    · rw [hne j hj]
      exact ⟨rfl, rfl, rfl⟩
  have hload' : ∀ j ≠ i, ∀ r, s.place p ≠ .loading r j := fun j hji r hl => hji (hload r j hl)
  have hfree' : ∀ j ≠ i, ∀ stage r k, s.place p ≠ .freeing stage r j k := fun j hji stage r k hf =>
    hji (hfree stage r j k hf)
  constructor
  case refs =>
    intro j
    rw [(hkeep j).2.2, h.refs]
    unfold outstanding
    rw [hrefers, hfresh]
  case locks =>
    intro j
    by_cases hji : j = i
    · rw [hji, hat, hlat, hlock]
    · rw [hne j hji, hlne j hji, h.locks]
  case lt =>
    intro j hj
    exact h.lt j (by rwa [(hkeep j).2.2] at hj)
  case old =>
    rw [hrefers, hfresh]
    exact h.old
  case unique =>
    intro j k hj hk hd hn
    rw [(hkeep j).2.2] at hj
    rw [(hkeep k).2.2] at hk
    rw [(hkeep j).1, (hkeep k).1] at hd
    rw [(hkeep j).2.1, (hkeep k).2.1] at hn
    exact h.unique j k hj hk hd hn
  case kept =>
    intro j q r hj
    rw [hrefers]
    by_cases hji : j = i
    · subst hji
      rw [hlat] at hj
      exact (hmine' q r hj).2
    · rw [hlne j hji] at hj
      exact h.kept j q r hj
  case fits =>
    intro q
    by_cases hqp : q = p
    · rw [hqp, hp]
      exact hfits
    · rw [hq q hqp]
      refine (h.fits q).congr (fun j r hj => ?_) hfresh.ge fun r' j hr' => .inl (hrefers ▸ hr')
      have hji : j ≠ i := by
        rintro rfl
        exact hqp (hmine q r hj)
      rw [hne j hji, hlne j hji]
      exact ⟨rfl, rfl, rfl⟩
  case drops =>
    intro q r j hdr
    rw [hrefers]
    by_cases hqp : q = p
    · subst hqp
      rw [hp] at hdr
      exact ⟨(hdrops r j hdr).1, (hdrops r j hdr).2.1⟩
    · rw [hq q hqp] at hdr
      exact ⟨(h.drops q r j hdr).1, hdropped r (h.drops q r j hdr).2⟩
  case alone =>
    intro q q' r j j' hdr hdr'
    -- a reference whose `iput` begins is dropped by no other process
    have hnew : ∀ q ≠ p, ∀ j j', (s.place q).drops = some (r, j) →
        c.drops = some (r, j') → False := by
      intro q hqp j j' hqd hcd
      rcases (hdrops r j' hcd).2.2 with hold | hundropped
      · exact hqp (h.alone q p r j j' hqd hold)
      · rw [(h.drops q r j hqd).2] at hundropped
        cases hundropped
    by_cases hqp : q = p <;> by_cases hqp' : q' = p
    · rw [hqp, hqp']
    · rw [hqp, hp] at hdr
      rw [hq q' hqp'] at hdr'
      exact (hnew q' hqp' j' j hdr' hdr).elim
    · rw [hqp', hp] at hdr'
      rw [hq q hqp] at hdr
      exact (hnew q hqp j j' hdr hdr').elim
    · rw [hq q hqp] at hdr
      rw [hq q' hqp'] at hdr'
      exact h.alone q q' r j j' hdr hdr'
  case busy =>
    intro j q r hj hdr
    by_cases hji : j = i
    · subst hji
      rw [hlat] at hj
      obtain rfl := (hmine' q r hj).1
      rw [hp]
      exact hbusy r hj hdr
    · rw [hlne j hji] at hj
      have hr := h.kept j q r hj
      have hold : s.dropped r = true := by
        refine (hdropped' r hdr).resolve_right fun hri => ?_
        rw [hr] at hri
        exact hji (Option.some.inj hri)
      exact h.busy_of_move hplace (hfree' j hji) hj hold
  case used =>
    intro j q r hj
    by_cases hji : j = i
    · subst hji
      rw [hlat] at hj
      obtain rfl := (hmine' q r hj).1
      rw [hat, hp]
      exact hused r hj
    · rw [hlne j hji] at hj
      rw [hne j hji]
      exact h.used_of_move hplace (hfree' j hji) (hload' j hji) hj
  case current =>
    intro j hj hv
    by_cases hji : j = i
    · subst hji
      rw [hat] at hv
      rcases hcurrent hv with hcur | ⟨r, k, hc⟩
      · exact .inl hcur
      · exact .inr ⟨p, r, k, hp.trans hc⟩
    · rw [(hkeep j).2.2] at hj
      rw [hne j hji] at hv
      have hother : ¬ ((s.inode j).dev = (s.inode i).dev ∧ (s.inode j).inum = (s.inode i).inum) :=
        fun heq => hji (h.unique j i hj hpos heq.1 heq.2)
      have hsame := hne j hji
      refine (h.current_of_move hplace (hfree' j hji) hj hv).imp_left fun hcur => ?_
      exact hcur.congr (by rw [hsame]) (by rw [hsame]) (by rw [hsame]) (hloaded j hji)
        (by rw [hallocs]) (hdisk _ _ hother)

/-- One more reference to an entry that is in use, or that gets a new identity. -/
theorem Safe.addRef {e : Inode} (h : Safe s) (hi : i < ninode)
    (hinode : s'.inode = Function.update s.inode i e)
    (href : e.ref = (s.inode i).ref + 1) (hholder : e.holder = (s.inode i).holder)
    (hcase : (0 < (s.inode i).ref ∧ e.dev = (s.inode i).dev ∧ e.inum = (s.inode i).inum ∧
        e.valid = (s.inode i).valid ∧ e.node = (s.inode i).node) ∨
      ((s.inode i).ref = 0 ∧ e.valid = false ∧ ∀ j, 0 < (s.inode j).ref →
        ¬ ((s.inode j).dev = e.dev ∧ (s.inode j).inum = e.inum)))
    (hrefers : s'.refers = Function.update s.refers s.fresh (some i))
    (hfresh : s'.fresh = s.fresh + 1)
    (hsame : s'.place = s.place ∧ s'.dropped = s.dropped ∧ s'.lockedBy = s.lockedBy ∧
      s'.loaded = s.loaded ∧ s'.allocs = s.allocs ∧ s'.disk = s.disk) : Safe s' := by
  obtain ⟨hplace, hdropped, hlockedBy, hloaded, hallocs, hdisk⟩ := hsame
  have hat : s'.inode i = e := by rw [hinode, Function.update_self]
  have hne : ∀ j ≠ i, s'.inode j = s.inode j := fun j hj => by rw [hinode, Function.update_of_ne hj]
  have hold : ∀ r j, s.refers r = some j → s'.refers r = some j := by
    intro r j hr
    rw [hrefers, Function.update_of_ne (h.old r j hr).ne, hr]
  -- a locked entry has a reference, so it is not the one that is recycled
  have hlocked : ∀ j q r, s.lockedBy j = some (q, r) → j = i →
      e.valid = (s.inode i).valid ∧ e.node = (s.inode i).node := by
    rintro j q r hj rfl
    rcases hcase with ⟨-, -, -, hv, hn⟩ | ⟨hzero, -⟩
    · exact ⟨hv, hn⟩
    · have hpos := h.pos (h.kept j q r hj)
      omega
  have hout : ∀ j, s'.outstanding j = s.outstanding j + if j = i then 1 else 0 := by
    intro j
    rw [← outstanding_newRef]
    unfold outstanding newRef
    rw [hrefers, hfresh]
  constructor
  case refs =>
    intro j
    rw [hout]
    by_cases hj : j = i
    · rw [hj, hat, href, if_pos rfl, h.refs, Nat.cast_succ]
    · rw [hne j hj, if_neg hj, Nat.add_zero, h.refs]
  case locks =>
    intro j
    rw [hlockedBy]
    by_cases hj : j = i
    · rw [hj, hat, hholder, h.locks]
    · rw [hne j hj, h.locks]
  case lt =>
    intro j hj
    by_cases hji : j = i
    · exact hji ▸ hi
    · exact h.lt j (by rwa [hne j hji] at hj)
  case old =>
    intro r j hr
    rw [hfresh]
    rw [hrefers, Function.update_apply] at hr
    split at hr
    · omega
    · exact Nat.lt_succ_of_lt (h.old r j hr)
  case unique =>
    intro j k hj hk hd hn
    by_cases hji : j = i <;> by_cases hki : k = i
    · rw [hji, hki]
    · subst hji
      rw [hat, hne k hki] at hd hn
      rw [hne k hki] at hk
      rcases hcase with ⟨hpos, hd', hn', -⟩ | ⟨-, -, hnone⟩
      · exact h.unique j k hpos hk (hd'.symm.trans hd) (hn'.symm.trans hn)
      · exact absurd ⟨hd.symm, hn.symm⟩ (hnone k hk)
    · subst hki
      rw [hat, hne j hji] at hd hn
      rw [hne j hji] at hj
      rcases hcase with ⟨hpos, hd', hn', -⟩ | ⟨-, -, hnone⟩
      · exact h.unique j k hj hpos (hd.trans hd') (hn.trans hn')
      · exact absurd ⟨hd, hn⟩ (hnone j hj)
    · rw [hne j hji] at hj
      rw [hne k hki] at hk
      rw [hne j hji, hne k hki] at hd hn
      exact h.unique j k hj hk hd hn
  case kept =>
    intro j q r hj
    rw [hlockedBy] at hj
    exact hold r j (h.kept j q r hj)
  case fits =>
    intro q
    rw [hplace]
    refine (h.fits q).congr (fun j r hj => ⟨congrFun hlockedBy j, ?_⟩) (by omega) fun r' j hr' => ?_
    · by_cases hji : j = i
      · obtain ⟨hv, hn⟩ := hlocked j q r hj hji
        rw [hji, hat, hv, hn]
        exact ⟨rfl, rfl⟩
      · rw [hne j hji]
        exact ⟨rfl, rfl⟩
    · rw [hrefers, Function.update_apply] at hr'
      split at hr'
      · exact .inr (by omega)
      · exact .inl hr'
  case drops =>
    intro q r j hdr
    rw [hplace] at hdr
    rw [hdropped]
    exact ⟨hold r j (h.drops q r j hdr).1, (h.drops q r j hdr).2⟩
  case alone =>
    rw [hplace]
    exact h.alone
  case busy =>
    intro j q r hj
    rw [hlockedBy] at hj
    rw [hdropped, hplace]
    exact h.busy j q r hj
  case used =>
    intro j q r hj
    rw [hlockedBy] at hj
    rw [hplace]
    by_cases hji : j = i
    · rw [hji, hat, (hlocked j q r hj hji).1]
      exact h.used i q r (hji ▸ hj)
    · rw [hne j hji]
      exact h.used j q r hj
  case current =>
    intro j hj hv
    rw [hplace]
    by_cases hji : j = i
    · subst hji
      rw [hat] at hv
      rcases hcase with ⟨hpos, hd, hn, hv', hnode⟩ | ⟨-, hv', -⟩
      · refine (h.current j hpos (hv' ▸ hv)).imp_left fun hcur => ?_
        exact hcur.congr (hat ▸ hd) (hat ▸ hn) (hat ▸ hnode) (by rw [hloaded]) (by rw [hallocs])
          (by rw [hdisk])
      · rw [hv'] at hv
        cases hv
    · have hsame := hne j hji
      rw [hsame] at hj hv
      refine (h.current j hj hv).imp_left fun hcur => ?_
      exact hcur.congr (by rw [hsame]) (by rw [hsame]) (by rw [hsame]) (by rw [hloaded])
        (by rw [hallocs]) (by rw [hdisk])

/-- A call that returns one more reference to an entry in use. -/
theorem Safe.idup (h : Safe s) (hroom : s.Room) (hpos : 0 < (s.inode i).ref) :
    Safe (s.returns (i, s.idup i)) :=
  h.addRef (h.lt i hpos) rfl (h.wrap_ref hroom (h.lt i hpos) (.inl rfl)) rfl
    (.inl ⟨hpos, rfl, rfl, rfl, rfl⟩) rfl rfl ⟨rfl, rfl, rfl, rfl, rfl, rfl⟩

theorem Safe.iget {dev inum : ℕ} {x : ℕ × Itable} (h : Safe s) (hroom : s.Room)
    (hget : s.iget dev inum = .ok x) : Safe (s.returns x) := by
  unfold Itable.iget at hget
  split at hget
  case h_1 i hfind =>
    cases hget
    have hi := List.find?_some hfind
    simp only [decide_eq_true_eq] at hi
    exact h.idup hroom hi.1
  case h_2 hnone =>
    split at hget
    case h_1 => cases hget
    case h_2 i hfind =>
      cases hget
      have hzero : (s.inode i).ref = 0 := by simpa using List.find?_some hfind
      have hlt : i < ninode := List.mem_range.mp (List.mem_of_find?_eq_some hfind)
      refine h.addRef hlt rfl (by simp [hzero]) rfl (.inr ⟨hzero, rfl, fun j hj hid => ?_⟩) rfl rfl
        ⟨rfl, rfl, rfl, rfl, rfl, rfl⟩
      have hno := List.find?_eq_none.mp hnone j (List.mem_range.mpr (h.lt j hj))
      exact hno (by simpa using ⟨hj, hid.1, hid.2⟩)

theorem iget_ne_sched {t : Itable} {dev inum : ℕ} : t.iget dev inum ≠ .error .sched := by
  intro herr
  unfold Itable.iget at herr
  split at herr
  · cases herr
  · split at herr <;> cases herr

theorem iget_disk {t : Itable} {dev inum : ℕ} {x : ℕ × Itable} (hget : t.iget dev inum = .ok x) :
    x.2.disk = t.disk := by
  unfold Itable.iget at hget
  split at hget
  · cases hget
    rfl
  · split at hget <;> cases hget
    rfl

/-- The `iput` of a reference that the entry is not locked with returns. -/
theorem Safe.putRef (h : Safe s) (hroom : s.Room) (hr : s.refers r = some i)
    (hlocked : ∀ q, s.lockedBy i ≠ some (q, r))
    (hdrops : ∀ q j, (s.place q).drops ≠ some (r, j)) :
    Safe ({ s with toItable := s.putRef i }.endRef r) := by
  have hpos := h.pos hr
  have hout := outstanding_endRef hr (h.old r i hr)
  generalize hs' : ItableUse.endRef _ r = s'
  have hsome : ∀ r' j, s'.refers r' = some j → s.refers r' = some j := by
    intro r' j hr'
    simp only [← hs', endRef, Function.update_apply] at hr'
    split at hr'
    · cases hr'
    · exact hr'
  have hkeep : ∀ r' j, r' ≠ r → s.refers r' = some j → s'.refers r' = some j := by
    intro r' j hne hr'
    simpa [← hs', endRef, Function.update_of_ne hne] using hr'
  have hinode : ∀ j, s'.inode j =
      { s.inode j with ref := (s.inode j).ref - if j = i then 1 else 0 } := by
    intro j
    have hwrap := h.wrap_ref hroom (h.lt i hpos) (.inr rfl)
    by_cases hj : j = i
    · subst hj
      simpa [← hs', endRef, Itable.putRef, Itable.setInode, sub_eq_add_neg] using hwrap
    · simp [← hs', endRef, Itable.putRef, Itable.setInode, hj]
  have hle : ∀ j, (s'.inode j).ref ≤ (s.inode j).ref := by
    intro j
    rw [hinode]
    dsimp only
    split <;> omega
  have hsame : s'.lockedBy = s.lockedBy ∧ s'.place = s.place ∧ s'.dropped = s.dropped ∧
      s'.loaded = s.loaded ∧ s'.allocs = s.allocs ∧ s'.disk = s.disk ∧ s'.fresh = s.fresh := by
    rw [← hs']
    exact ⟨rfl, rfl, rfl, rfl, rfl, rfl, rfl⟩
  obtain ⟨hlockedBy, hplace, hdropped, hloaded, hallocs, hdisk, hfresh⟩ := hsame
  constructor
  case refs =>
    intro j
    have hj := hout j
    have href := h.refs j
    have heq : s'.outstanding j = (s.endRef r).outstanding j := by
      rw [← hs']
      rfl
    rw [hinode, heq]
    dsimp only
    split_ifs at hj ⊢ <;> omega
  case locks =>
    intro j
    rw [hinode, hlockedBy]
    exact h.locks j
  case lt => exact fun j hj => h.lt j (hj.trans_le (hle j))
  case old => exact fun r' j hr' => hfresh ▸ h.old r' j (hsome r' j hr')
  case unique =>
    intro j k hj hk hd hn
    rw [hinode, hinode] at hd hn
    exact h.unique j k (hj.trans_le (hle j)) (hk.trans_le (hle k)) hd hn
  case kept =>
    intro j q r' hj
    rw [hlockedBy] at hj
    have hr' := h.kept j q r' hj
    refine hkeep r' j ?_ hr'
    rintro rfl
    obtain rfl : i = j := by simpa [hr] using hr'
    exact hlocked q hj
  case fits =>
    intro q
    rw [hplace]
    exact (h.fits q).congr (fun j r' hj => by rw [hinode, hlockedBy]; exact ⟨rfl, rfl, rfl⟩)
      hfresh.ge fun r' j hr' => .inl (hsome r' j hr')
  case drops =>
    intro q r' j hdr
    rw [hplace] at hdr
    obtain ⟨hr', hdr'⟩ := h.drops q r' j hdr
    refine ⟨hkeep r' j ?_ hr', hdropped ▸ hdr'⟩
    rintro rfl
    exact hdrops q j hdr
  case alone => exact hplace ▸ h.alone
  case busy =>
    intro j q r' hj
    rw [hlockedBy] at hj
    rw [hdropped, hplace]
    exact h.busy j q r' hj
  case used =>
    intro j q r' hj
    rw [hlockedBy] at hj
    rw [hinode, hplace]
    exact h.used j q r' hj
  case current =>
    intro j hj hv
    rw [hinode] at hv
    rw [hplace]
    refine (h.current j (hj.trans_le (hle j)) hv).imp_left fun hcur => ?_
    exact hcur.congr (by rw [hinode]) (by rw [hinode]) (by rw [hinode]) (by rw [hloaded])
      (by rw [hallocs]) (by rw [hdisk])

/-- A process that has nothing in hand moves on; on disk only free inodes change. -/
theorem Safe.move {c : Place} (h : Safe s) (hplace : s'.place = Function.update s.place p c)
    (hsame : s'.inode = s.inode ∧ s'.refers = s.refers ∧ s'.fresh = s.fresh ∧
      s'.dropped = s.dropped ∧ s'.lockedBy = s.lockedBy ∧ s'.loaded = s.loaded)
    (hdisk : ∀ d n, (s.disk d n).type ≠ 0 → s'.disk d n = s.disk d n ∧ s'.allocs d n = s.allocs d n)
    (hold : ∀ r j, s.place p ≠ .loading r j ∧ ∀ stage k, s.place p ≠ .freeing stage r j k)
    (hfits : s'.Fits p c) (hdrops : c.drops = none) : Safe s' := by
  obtain ⟨hinode, hrefers, hfresh, hdropped, hlockedBy, hloaded⟩ := hsame
  have hp : s'.place p = c := by rw [hplace, Function.update_self]
  have hq : ∀ q ≠ p, s'.place q = s.place q := fun q hq => by rw [hplace, Function.update_of_ne hq]
  have hdr : ∀ q y, (s'.place q).drops = some y → (s.place q).drops = some y := by
    intro q y hy
    by_cases hqp : q = p
    · rw [hqp, hp, hdrops] at hy
      cases hy
    · rwa [hq q hqp] at hy
  have hfree : ∀ j stage r k, s.place p ≠ .freeing stage r j k := fun j stage r k =>
    (hold r j).2 stage k
  constructor
  case refs =>
    intro j
    rw [hinode, h.refs]
    unfold outstanding
    rw [hrefers, hfresh]
  case locks =>
    rw [hinode, hlockedBy]
    exact h.locks
  case lt => exact hinode ▸ h.lt
  case old =>
    rw [hrefers, hfresh]
    exact h.old
  case unique => exact hinode ▸ h.unique
  case kept =>
    rw [hlockedBy, hrefers]
    exact h.kept
  case fits =>
    intro q
    by_cases hqp : q = p
    · rw [hqp, hp]
      exact hfits
    · rw [hq q hqp]
      exact (h.fits q).congr (fun j r _ => by rw [hinode, hlockedBy]; exact ⟨rfl, rfl, rfl⟩)
        hfresh.ge fun r' j hr' => .inl (hrefers ▸ hr')
  case drops =>
    intro q r j hdrop
    rw [hrefers, hdropped]
    exact h.drops q r j (hdr q _ hdrop)
  case alone => exact fun q q' r j j' hd hd' => h.alone q q' r j j' (hdr q _ hd) (hdr q' _ hd')
  case busy =>
    intro j q r hj hd
    rw [hlockedBy] at hj
    rw [hdropped] at hd
    exact h.busy_of_move hplace (hfree j) hj hd
  case used =>
    intro j q r hj
    rw [hlockedBy] at hj
    rw [hinode]
    exact h.used_of_move hplace (hfree j) (fun r => (hold r j).1) hj
  case current =>
    intro j hj hv
    rw [hinode] at hj hv
    refine (h.current_of_move hplace (hfree j) hj hv).imp_left fun hcur => ?_
    have hd := hdisk _ _ hcur.2.2
    exact hcur.congr (by rw [hinode]) (by rw [hinode]) (by rw [hinode]) (by rw [hloaded]) hd.2 hd.1

/-! ## The steps -/

theorem Safe.scans {dev type inum : ℕ} (h : Safe s)
    (hp : s.place p = .scanning dev type inum) : Safe (s.scans p dev type inum) := by
  have hold : ∀ r j, s.place p ≠ .loading r j ∧ ∀ stage k, s.place p ≠ .freeing stage r j k := by
    simp [hp]
  unfold ItableUse.scans Itable.scan
  split_ifs with hend hfree
  · exact h.move rfl ⟨rfl, rfl, rfl, rfl, rfl, rfl⟩ (fun _ _ _ => ⟨rfl, rfl⟩) hold trivial rfl
  · refine h.move rfl ⟨rfl, rfl, rfl, rfl, rfl, rfl⟩ (fun d n hd => ?_) hold trivial rfl
    have hne : ¬ (d = dev ∧ n = inum) := by
      rintro ⟨rfl, rfl⟩
      exact hd hfree
    simp only [Itable.setDisk, bump, Function.update_apply]
    grind
  · exact h.move rfl ⟨rfl, rfl, rfl, rfl, rfl, rfl⟩ (fun _ _ _ => ⟨rfl, rfl⟩) hold trivial rfl

section

variable (h : Safe s) (hholder : s.lockedBy i = some (p, r))

include h hholder

theorem Safe.holder_eq (q r' : ℕ) (hq : s.lockedBy i = some (q, r')) :
    q = p ∧ s.refers r' = some i := by
  have hr := h.kept i q r' hq
  rw [hholder] at hq
  cases hq
  exact ⟨rfl, hr⟩

/-- Who has a valid entry locked has its fields as they are on disk, unless it clears them. -/
theorem Safe.current_of_holder (hv : (s.inode i).valid = true)
    (hp : ∀ r' k, s.place p ≠ .freeing .clearing r' i k) : s.Current i := by
  refine (h.current i (h.pos (h.kept i p r hholder)) hv).resolve_right ?_
  rintro ⟨q, r', k, hq⟩
  have hfits := h.fits q
  rw [hq] at hfits
  obtain rfl := (h.holder_eq hholder q r' hfits.1).1
  exact hp r' k hq

/-- A process in no call has the entry valid. -/
theorem Safe.valid_of_ready (hp : s.place p = .ready) : (s.inode i).valid = true := by
  rcases h.used i p r hholder with hv | hl | ⟨k, hu⟩
  · exact hv
  · rw [hp] at hl
    cases hl
  · rw [hp] at hu
    cases hu

/-- A process in no call writes an entry that it has locked. -/
theorem Safe.write {e : Inode} {l : Option (ℕ × ℕ)} (hp : s.place p = .ready)
    (hinode : s'.inode = Function.update s.inode i e)
    (hid : e.dev = (s.inode i).dev ∧ e.inum = (s.inode i).inum ∧ e.ref = (s.inode i).ref)
    (hkeep : e.valid = (s.inode i).valid ∧ e.node.type = (s.inode i).node.type)
    (hlockedBy : s'.lockedBy = Function.update s.lockedBy i l)
    (hlock : e.holder = l.map Prod.fst) (hlock' : l = none ∨ l = s.lockedBy i)
    (hplace : s'.place = s.place)
    (hsame : s'.refers = s.refers ∧ s'.fresh = s.fresh ∧ s'.allocs = s.allocs ∧
      s'.dropped = s.dropped ∧ s'.loaded = s.loaded)
    (hdisk : ∀ d n, ¬ (d = (s.inode i).dev ∧ n = (s.inode i).inum) → s'.disk d n = s.disk d n)
    (htype : (s.inode i).node.type ≠ 0 → (s.disk (s.inode i).dev (s.inode i).inum).type ≠ 0 →
      (s'.disk (s.inode i).dev (s.inode i).inum).type ≠ 0) : Safe s' := by
  obtain ⟨hrefers, hfresh, hallocs, hdropped, hloaded⟩ := hsame
  have hv := h.valid_of_ready hholder hp
  have hmine := h.holder_eq hholder
  obtain ⟨hl, ht, hd⟩ := h.current_of_holder hholder hv (by simp [hp])
  refine h.edit (p := p) (c := .ready) (h.pos (h.kept i p r hholder)) hinode hlockedBy hlock hid ?_
    ⟨hrefers, hfresh, hallocs⟩ (fun r hr => hdropped ▸ hr) (fun r hr => .inl (hdropped ▸ hr))
    (fun j _ => congrFun hloaded j) hdisk
    (fun q r' hq => (hmine q r' hq).1) (fun q r' hq => ?_) (by simp [hp]) (by simp [hp]) trivial
    nofun (fun r' hr' hdr => ?_) (fun _ _ => .inl (hkeep.1.trans hv)) fun _ => .inl ⟨?_, ?_, ?_⟩
  · rw [hplace, ← hp, Function.update_eq_self]
  · rcases hlock' with hnone | hsame
    · rw [hnone] at hq
      cases hq
    · exact hmine q r' (hsame ▸ hq)
  · rcases hlock' with hnone | hsame
    · rw [hnone] at hr'
      cases hr'
    · obtain ⟨stage, k, hf⟩ := h.busy i p r' (hsame ▸ hr') (hdropped ▸ hdr)
      rw [hp] at hf
      cases hf
  · rw [hloaded, hallocs, hinode, Function.update_self, hid.1, hid.2.1]
    exact hl
  · rw [hinode, Function.update_self, hkeep.2]
    exact ht
  · rw [hinode, Function.update_self, hid.1, hid.2.1]
    exact htype ht hd

end

/-- The lock of the entry that a process frees is its own. -/
theorem Safe.frees {stage : Stage} {since : ℕ} (h : Safe s)
    (hp : s.place p = .freeing stage r i since) :
    Safe (s.frees p r i since stage) := by
  have hfits := h.fits p
  rw [hp] at hfits
  obtain ⟨hholder, hsince, hothers, hlive, hvalid⟩ := hfits
  have hr := h.kept i p r hholder
  have hpos := h.pos hr
  have hmine := h.holder_eq hholder
  have hdrops : ∀ r' j, (stage.next r i since).drops = some (r', j) → s.refers r' = some j ∧
      s.dropped r' = true ∧ ((s.place p).drops = some (r', j) ∨ s.dropped r' = false) := by
    intro r' j hdr
    have hold : (s.place p).drops = some (r', j) := by
      rw [hp]
      cases stage <;> exact hdr
    exact ⟨(h.drops p r' j hold).1, (h.drops p r' j hold).2, .inl hold⟩
  have hload : ∀ r' j, s.place p = .loading r' j → j = i := by simp [hp]
  have hfree : ∀ st r' j k, s.place p = .freeing st r' j k → j = i := by
    intro st r' j k heq
    rw [hp] at heq
    cases heq
    rfl
  have hown : ∀ r', s.lockedBy i = some (p, r') → r' = r := by
    intro r' hr'
    rw [hholder] at hr'
    cases hr'
    rfl
  -- the entry was current, or this process is about to clear it
  have hcur : (s.inode i).valid = true → stage ≠ .clearing → s.Current i := by
    intro hv hne
    refine h.current_of_holder hholder hv fun r' k hclear => ?_
    rw [hp] at hclear
    cases hclear
    exact hne rfl
  have hkept : s.lockedBy = Function.update s.lockedBy i (s.lockedBy i) :=
    (Function.update_eq_self i _).symm
  have hlock := h.locks i
  cases stage with
  | truncating =>
    obtain ⟨hv, hn⟩ := hlive (.inl rfl)
    refine h.edit (i := i) (p := p) hpos rfl hkept hlock ⟨rfl, rfl, rfl⟩ rfl ⟨rfl, rfl, rfl⟩
      (fun _ hr => hr) (fun _ hr => .inl hr) (fun _ _ => rfl) (fun d n hne => ?_)
      (fun q r' hq => (hmine q r' hq).1) hmine hload hfree ?_ hdrops
      (fun r' hr' _ => ⟨.freeing, since, by rw [hown r' hr']; rfl⟩) (fun _ _ => .inl hv)
      (fun _ => .inl ?_)
    · simp only [ItableUse.frees, Itable.free, Itable.iupdate, Itable.setInode, Itable.setDisk,
        Function.update_apply]
      grind
    · simp only [Stage.next, Fits, ItableUse.frees, Itable.free, Itable.iupdate, Itable.setInode,
        Itable.setDisk, Function.update_self, reduceCtorEq, if_false]
      exact ⟨hholder, hsince, hothers, fun _ => ⟨hv, hn⟩, nofun⟩
    · obtain ⟨hl, ht, -⟩ := hcur hv nofun
      simp only [Current, ItableUse.frees, Itable.free, Itable.iupdate, Itable.setInode,
        Itable.setDisk, Function.update_self]
      exact ⟨hl, ht, ht⟩
  | freeing =>
    obtain ⟨hv, hn⟩ := hlive (.inr rfl)
    refine h.edit (i := i) (p := p) hpos rfl hkept hlock ⟨rfl, rfl, rfl⟩ rfl ⟨rfl, rfl, rfl⟩
      (fun _ hr => hr) (fun _ hr => .inl hr) (fun _ _ => rfl) (fun d n hne => ?_)
      (fun q r' hq => (hmine q r' hq).1) hmine hload hfree ?_ hdrops
      (fun r' hr' _ => ⟨.clearing, since, by rw [hown r' hr']; rfl⟩)
      (fun _ _ => .inl hv) (fun _ => .inr ⟨r, since, rfl⟩)
    · simp only [ItableUse.frees, Itable.free, Itable.iupdate, Itable.setInode, Itable.setDisk,
        Function.update_apply]
      grind
    · simp only [Stage.next, Fits, ItableUse.frees, Itable.free, Itable.iupdate, Itable.setInode,
        Itable.setDisk, Function.update_self, reduceCtorEq, if_false]
      exact ⟨hholder, hsince, hothers, by simp, nofun⟩
  | clearing =>
    refine h.edit (i := i) (p := p) hpos rfl hkept hlock ⟨rfl, rfl, rfl⟩ rfl ⟨rfl, rfl, rfl⟩
      (fun _ hr => hr) (fun _ hr => .inl hr) (fun _ _ => rfl) (fun _ _ _ => rfl)
      (fun q r' hq => (hmine q r' hq).1) hmine hload hfree ?_ hdrops
      (fun r' hr' _ => ⟨.unlocking, since, by rw [hown r' hr']; rfl⟩)
      (fun r' hr' => .inr (.inr ⟨since, by rw [hown r' hr']; rfl⟩)) nofun
    · simp only [Stage.next, Fits, ItableUse.frees, Itable.free, Itable.setInode,
        Function.update_self, reduceCtorEq, if_false]
      exact ⟨hholder, hsince, hothers, by simp, fun _ => trivial⟩
  | unlocking =>
    refine h.edit (i := i) (p := p) hpos rfl rfl rfl ⟨rfl, rfl, rfl⟩ rfl ⟨rfl, rfl, rfl⟩
      (fun _ hr => hr) (fun _ hr => .inl hr) (fun _ _ => rfl) (fun _ _ _ => rfl)
      (fun q r' hq => (hmine q r' hq).1) nofun hload hfree trivial hdrops nofun nofun (fun hv => ?_)
    rw [hvalid rfl] at hv
    cases hv

theorem Safe.loads {t : Itable} (h : Safe s) (hp : s.place p = .loading r i)
    (hload : s.load i = .ok t) : Safe (s.loads p i t) := by
  have hholder : s.lockedBy i = some (p, r) := by
    have hfits := h.fits p
    rwa [hp] at hfits
  have hr := h.kept i p r hholder
  have hpos := h.pos hr
  have hmine := h.holder_eq hholder
  have hplace : ∀ r' j, s.place p = .loading r' j → j = i := by
    intro r' j heq
    rw [hp] at heq
    cases heq
    rfl
  have hfree : ∀ st r' j k, s.place p = .freeing st r' j k → j = i := by simp [hp]
  have hbusy : ∀ r', s.lockedBy i = some (p, r') → s.dropped r' = true →
      ∃ stage since, Place.ready = .freeing stage r' i since := by
    intro r' hr' hdr
    obtain ⟨stage, k, hf⟩ := h.busy i p r' hr' hdr
    rw [hp] at hf
    cases hf
  have hkept : s.lockedBy = Function.update s.lockedBy i (s.lockedBy i) :=
    (Function.update_eq_self i _).symm
  unfold Itable.load at hload
  dsimp only at hload
  split_ifs at hload with hv htype
  · cases hload
    refine h.edit (i := i) (e := s.inode i) hpos (Function.update_eq_self i _).symm hkept
      (h.locks i) ⟨rfl, rfl, rfl⟩ rfl ⟨rfl, rfl, rfl⟩ (fun _ hr => hr) (fun _ hr => .inl hr)
      (fun _ _ => by simp [ItableUse.loads, hv]) (fun _ _ _ => rfl)
      (fun q r' hq => (hmine q r' hq).1) hmine hplace hfree trivial nofun hbusy
      (fun _ _ => .inl hv) fun _ => .inl ?_
    have hcur := h.current_of_holder hholder hv (by simp [hp])
    unfold Current at hcur ⊢
    simpa only [ItableUse.loads, hv, if_true] using hcur
  · cases hload
    refine h.edit (i := i) hpos rfl hkept (h.locks i) ⟨rfl, rfl, rfl⟩
      rfl ⟨rfl, rfl, rfl⟩ (fun _ hr => hr) (fun _ hr => .inl hr)
      (fun j hj => by simp [ItableUse.loads, hv, hj]) (fun _ _ _ => rfl)
      (fun q r' hq => (hmine q r' hq).1) hmine hplace hfree trivial nofun
      hbusy (fun _ _ => .inl rfl) fun _ => .inl ?_
    simp only [Current, ItableUse.loads, hv, Itable.setInode, Function.update_self,
      Bool.false_eq_true, if_false]
    exact ⟨trivial, htype, htype⟩

theorem Safe.current_of_free (h : Safe s) (hpos : 0 < (s.inode i).ref)
    (hnone : (s.inode i).holder = none) (hv : (s.inode i).valid = true) : s.Current i := by
  refine (h.current i hpos hv).resolve_right ?_
  rintro ⟨q, r', k, hq⟩
  have hfits := h.fits q
  rw [hq] at hfits
  rw [h.locks, hfits.1] at hnone
  cases hnone

theorem refers_of_entry (h : s.entry r = some i) : s.refers r = some i ∧ s.dropped r = false := by
  unfold entry at h
  split at h
  · cases h
  case isFalse hdropped => exact ⟨h, by simpa using hdropped⟩

/-- `acquiresleep` in `iput` does not have to wait: the last reference locks nothing. -/
theorem Safe.iput (h : Safe s) (hroom : s.Room) (hp : s.place p = .ready)
    (hr : s.entry r = some i) (hheld : (s.lockedBy i).map Prod.snd ≠ some r) :
    ∃ x, s.iput p i = .ok x ∧ Safe (s.puts p r i x) := by
  obtain ⟨hrefers, hdropped⟩ := refers_of_entry hr
  have hpos := h.pos hrefers
  have hlocked : ∀ q, s.lockedBy i ≠ some (q, r) := by
    intro q hq
    rw [hq] at hheld
    exact hheld rfl
  have hdrops : ∀ q j, (s.place q).drops ≠ some (r, j) := by
    intro q j hq
    rw [(h.drops q r j hq).2] at hdropped
    cases hdropped
  unfold Itable.iput
  dsimp only
  split
  case isFalse => exact ⟨_, rfl, h.putRef hroom hrefers hlocked hdrops⟩
  case isTrue hlast =>
    obtain ⟨hone, hv, hn⟩ := hlast
    have honly : ∀ r', s.refers r' = some i → r' = r := fun r' hr' =>
      eq_of_outstanding_one (Nat.cast_eq_one.mp ((h.refs i).symm.trans hone)) hrefers
        (h.old r i hrefers) hr' (h.old r' i hr')
    have hfree : s.lockedBy i = none := by
      by_contra hsome
      obtain ⟨⟨q, r'⟩, hq⟩ := Option.ne_none_iff_exists'.mp hsome
      obtain rfl := honly r' (h.kept i q r' hq)
      exact hlocked q hq
    have hnone : (s.inode i).holder = none := by
      rw [h.locks, hfree]
      rfl
    rw [hnone]
    refine ⟨_, rfl, h.edit (i := i) (p := p) hpos rfl rfl rfl ⟨rfl, rfl, rfl⟩ rfl
      ⟨rfl, rfl, rfl⟩ ?_ ?_ (fun _ _ => rfl) (fun _ _ _ => rfl) ?_ ?_ (by simp [hp])
      (by simp [hp]) ?_ ?_ ?_ (fun _ _ => .inl hv) ?_⟩
    · intro r' hr'
      simp only [puts, if_true, Function.update_apply]
      split <;> first | rfl | exact hr'
    · intro r' hr'
      simp only [puts, if_true, Function.update_apply] at hr'
      split at hr'
      case isTrue heq => exact .inr (heq ▸ hrefers)
      case isFalse => exact .inl hr'
    · simp [hfree]
    · intro q r' hq
      cases hq
      exact ⟨rfl, hrefers⟩
    · simp only [Fits, puts, if_true, Itable.setHolder, Itable.setInode, Function.update_self]
      exact ⟨trivial, le_rfl, fun r' hne hr' => absurd (honly r' hr') hne, fun _ => ⟨hv, hn⟩, nofun⟩
    · intro r' j hdr
      cases hdr
      exact ⟨hrefers, by simp [puts], .inr hdropped⟩
    · intro r' hr' _
      cases hr'
      exact ⟨_, _, rfl⟩
    · intro _
      refine .inl ?_
      have hcur := h.current_of_free hpos hnone hv
      unfold Current at hcur ⊢
      simpa only [puts, if_true, Itable.setHolder, Itable.setInode, Function.update_self] using hcur

theorem Safe.ilock (h : Safe s) (hp : s.place p = .ready) (hr : s.entry r = some i)
    (hnone : (s.inode i).holder = none) :
    Safe (({ s with toItable := s.setHolder i (some p) }.setLockedBy i (some (p, r))).setPlace p
      (.loading r i)) := by
  obtain ⟨hrefers, hdropped⟩ := refers_of_entry hr
  have hpos := h.pos hrefers
  have hfree : s.lockedBy i = none := Option.map_eq_none_iff.mp ((h.locks i).symm.trans hnone)
  refine h.edit (i := i) (p := p) hpos rfl rfl rfl ⟨rfl, rfl, rfl⟩ rfl ⟨rfl, rfl, rfl⟩
    (fun _ hr => hr) (fun _ hr => .inl hr) (fun _ _ => rfl) (fun _ _ _ => rfl) (by simp [hfree]) ?_
    (by simp [hp]) (by simp [hp]) ?_ nofun ?_ ?_ ?_
  · intro q r' hq
    cases hq
    exact ⟨rfl, hrefers⟩
  · simp [Fits, setPlace, setLockedBy]
  · intro r' hr' hdr
    cases hr'
    change s.dropped r = true at hdr
    rw [hdropped] at hdr
    cases hdr
  · intro r' hr'
    cases hr'
    exact .inr (.inl rfl)
  · intro hv
    refine .inl ?_
    have hcur := h.current_of_free hpos hnone hv
    unfold Current at hcur ⊢
    simpa only [setPlace, setLockedBy, Itable.setHolder, Itable.setInode,
      Function.update_self] using hcur

theorem Safe.locked (h : Safe s) (hlocks : (s.inode i).holder = some p) :
    ∃ r, s.lockedBy i = some (p, r) := by
  rw [h.locks] at hlocks
  obtain ⟨⟨q, r⟩, hq, rfl⟩ := Option.map_eq_some_iff.mp hlocks
  exact ⟨r, hq⟩

theorem Safe.locked_of_locks (h : Safe s) (hlocks : s.locks p i = true) :
    ∃ r, s.lockedBy i = some (p, r) := h.locked (of_decide_eq_true hlocks)

theorem ok_of_map {α β ε : Type} {f : α → β} {x : Except ε α} {b : β} (h : x.map f = .ok b) :
    ∃ a, x = .ok a ∧ f a = b := by
  cases x with
  | error e => cases h
  | ok a =>
    cases h
    exact ⟨a, rfl, rfl⟩

theorem error_of_map {α β ε : Type} {f : α → β} {x : Except ε α} {e : ε}
    (h : x.map f = .error e) : x = .error e := by
  cases x with
  | error e =>
    cases h
    rfl
  | ok a => cases h

theorem call_safe {c : Call} {o : Except InodePanic ItableUse} (h : Safe s) (hroom : s.Room)
    (hp : s.place p = .ready)
    (hcall : s.call p c = some o) : o ≠ .error .sched ∧ ∀ s', o = .ok s' → Safe s' := by
  cases c with
  | next => cases hcall
  | iget dev inum =>
    cases hcall
    refine ⟨fun herr => iget_ne_sched (error_of_map herr), fun s' hs' => ?_⟩
    obtain ⟨x, hget, rfl⟩ := ok_of_map hs'
    exact h.iget hroom hget
  | idup r =>
    obtain ⟨i, hi, rfl⟩ := Option.map_eq_some_iff.mp hcall
    refine ⟨nofun, fun s' hs' => ?_⟩
    cases hs'
    exact h.idup hroom (h.pos (refers_of_entry hi).1)
  | ilock r =>
    obtain ⟨i, hi, hcall⟩ := Option.bind_eq_some_iff.mp hcall
    dsimp only at hcall
    split at hcall
    · cases hcall
      exact ⟨nofun, nofun⟩
    · split at hcall
      · cases hcall
      case isFalse hnone =>
        cases hcall
        refine ⟨nofun, fun s' hs' => ?_⟩
        cases hs'
        exact h.ilock hp hi (by simpa using hnone)
  | iunlock i =>
    simp only [call] at hcall
    split at hcall
    · cases hcall
      exact ⟨nofun, nofun⟩
    case isFalse hok =>
      cases hcall
      refine ⟨nofun, fun s' hs' => ?_⟩
      cases hs'
      obtain ⟨r, hr⟩ := h.locked_of_locks (by simpa using (not_or.mp hok).1)
      exact h.write hr hp rfl ⟨rfl, rfl, rfl⟩ ⟨rfl, rfl⟩ rfl rfl (.inl rfl) rfl
        ⟨rfl, rfl, rfl, rfl, rfl⟩ (fun _ _ _ => rfl) fun _ hd => hd
  | iput r =>
    obtain ⟨i, hi, hcall⟩ := Option.bind_eq_some_iff.mp hcall
    split at hcall
    · cases hcall
    case isFalse hheld =>
      cases hcall
      obtain ⟨x, hput, hs1⟩ := h.iput hroom hp hi hheld
      rw [hput]
      refine ⟨nofun, fun s' hs' => ?_⟩
      cases hs'
      exact hs1
  | ialloc dev type =>
    cases hcall
    refine ⟨nofun, fun s' hs' => ?_⟩
    cases hs'
    exact h.move rfl ⟨rfl, rfl, rfl, rfl, rfl, rfl⟩ (fun _ _ _ => ⟨rfl, rfl⟩) (by simp [hp])
      trivial rfl
  | write i d =>
    obtain ⟨hlocks, hcall⟩ := Option.ite_none_right_eq_some.mp hcall
    cases hcall
    refine ⟨nofun, fun s' hs' => ?_⟩
    cases hs'
    obtain ⟨r, hr⟩ := h.locked_of_locks hlocks
    exact h.write hr hp rfl ⟨rfl, rfl, rfl⟩ ⟨rfl, rfl⟩ (Function.update_eq_self i _).symm
      (h.locks i) (.inr rfl) rfl ⟨rfl, rfl, rfl, rfl, rfl⟩ (fun _ _ _ => rfl) fun _ hd => hd
  | iupdate i =>
    obtain ⟨hlocks, hcall⟩ := Option.ite_none_right_eq_some.mp hcall
    cases hcall
    refine ⟨nofun, fun s' hs' => ?_⟩
    cases hs'
    obtain ⟨r, hr⟩ := h.locked_of_locks hlocks
    refine h.write hr hp (Function.update_eq_self i _).symm ⟨rfl, rfl, rfl⟩ ⟨rfl, rfl⟩
      (Function.update_eq_self i _).symm (h.locks i) (.inr rfl) rfl ⟨rfl, rfl, rfl, rfl, rfl⟩
      (fun d n hne => ?_) fun ht _ => ?_
    · simp only [Itable.iupdate, Itable.setDisk, Function.update_apply]
      grind
    · simpa [Itable.iupdate, Itable.setDisk] using ht

theorem advance_safe {o : Except InodePanic ItableUse} (h : Safe s) (hroom : s.Room)
    (hnext : s.advance p = some o) : o ≠ .error .sched ∧ ∀ s', o = .ok s' → Safe s' := by
  unfold advance at hnext
  split at hnext
  · cases hnext
  case h_2 dev type inum hp =>
    cases hnext
    refine ⟨nofun, fun s' hs' => ?_⟩
    cases hs'
    exact h.scans hp
  case h_3 dev inum hp =>
    cases hnext
    refine ⟨fun herr => iget_ne_sched (error_of_map herr), fun s' hs' => ?_⟩
    obtain ⟨x, hget, rfl⟩ := ok_of_map hs'
    have hplace : (s.returns x).place p = .found dev inum := hp
    exact (h.iget hroom hget).move rfl ⟨rfl, rfl, rfl, rfl, rfl, rfl⟩ (fun _ _ _ => ⟨rfl, rfl⟩)
      (by simp [hplace]) trivial rfl
  case h_4 r i hp =>
    cases hnext
    refine ⟨fun herr => ?_, fun s' hs' => ?_⟩
    · have hload := error_of_map herr
      unfold Itable.load at hload
      dsimp only at hload
      split_ifs at hload
      cases hload
    · obtain ⟨t, hload, rfl⟩ := ok_of_map hs'
      exact h.loads hp hload
  case h_5 stage r i since hp =>
    cases hnext
    refine ⟨nofun, fun s' hs' => ?_⟩
    cases hs'
    exact h.frees hp
  case h_6 r i hp =>
    cases hnext
    refine ⟨nofun, fun s' hs' => ?_⟩
    cases hs'
    have hdrops : (s.place p).drops = some (r, i) := by rw [hp]; rfl
    have hmoved : Safe (s.setPlace p .ready) :=
      h.move rfl ⟨rfl, rfl, rfl, rfl, rfl, rfl⟩ (fun _ _ _ => ⟨rfl, rfl⟩) (by simp [hp]) trivial rfl
    refine hmoved.putRef hroom (h.drops p r i hdrops).1 (fun q hq => ?_) fun q j hq => ?_
    · obtain ⟨stage, k, hf⟩ := h.busy i q r hq (h.drops p r i hdrops).2
      obtain rfl : p = q := h.alone p q r i i hdrops (by rw [hf]; rfl)
      rw [hp] at hf
      cases hf
    · simp only [setPlace, Function.update_apply] at hq
      split at hq
      · cases hq
      case isFalse hne => exact hne (h.alone p q r i j hdrops hq).symm

theorem init_safe (disk : ℕ → ℕ → Dinode) (ninodes : ℕ) : Safe (init disk ninodes) where
  refs _ := rfl
  locks _ := rfl
  lt _ hpos := absurd hpos (lt_irrefl 0)
  old := nofun
  unique _ _ hpos := absurd hpos (lt_irrefl 0)
  kept := nofun
  fits _ := trivial
  drops := nofun
  alone := nofun
  busy := nofun
  used := nofun
  current _ hpos := absurd hpos (lt_irrefl 0)

/-- A step is a call of a process in none, or the next section of its call. -/
theorem step_cases {m : ℕ × Call} {t : ItableUse ⊕ InodePanic} (hstep : step (.inl s) m = some t) :
    ∃ o, ((s.place m.1 = .ready ∧ s.call m.1 m.2 = some o) ∨ s.advance m.1 = some o) ∧
      ((∃ s', o = .ok s' ∧ t = .inl s') ∨ ∃ e, o = .error e ∧ t = .inr e) := by
  obtain ⟨o, ho, ht⟩ := Option.map_eq_some_iff.mp hstep
  refine ⟨o, ?_, ?_⟩
  · split at ho
    case h_1 hp => exact .inl ⟨hp, ho⟩
    case h_2 => exact .inr ho
  · cases o with
    | ok s' => exact .inl ⟨s', rfl, ht.symm⟩
    | error e => exact .inr ⟨e, rfl, ht.symm⟩

def Sound : ItableUse ⊕ InodePanic → Prop
  | .inl s => Safe s
  | .inr e => e ≠ .sched

theorem step_sound {m : ℕ × Call} {t t' : ItableUse ⊕ InodePanic} (hok : Callers t m)
    (h : Sound t) (hstep : step t m = some t') : Sound t' := by
  cases t with
  | inr e => cases hstep
  | inl s =>
    obtain ⟨o, ho, ht⟩ := step_cases hstep
    have hsafe : o ≠ .error .sched ∧ ∀ s', o = .ok s' → Safe s' := by
      rcases ho with ⟨hp, hcall⟩ | hnext
      · exact call_safe h hok hp hcall
      · exact advance_safe h hok hnext
    rcases ht with ⟨s', rfl, rfl⟩ | ⟨e, rfl, rfl⟩
    · exact hsafe.2 s' rfl
    · rintro rfl
      exact hsafe.1 rfl

/-! ## What `iput` frees -/

/-- A call keeps the disk, or copies an entry to it that the caller has locked; and it leads
into the branch of `iput` that frees only by the test of `iput`. -/
theorem call_effect {c : Call} (hp : s.place p = .ready) (hcall : s.call p c = some (.ok s')) :
    (s'.disk = s.disk ∨ ∃ i, s.locks p i = true ∧ s'.disk = (s.iupdate i).disk) ∧
      ∀ r i since, s'.place p = .freeing .truncating r i since → s.entry r = some i ∧
        (s.inode i).ref = 1 ∧ (s.inode i).valid = true ∧ (s.inode i).node.nlink = 0 ∧
        (s.inode i).holder = none ∧ since = s.fresh := by
  -- most calls leave the process where it is
  have hstay : s'.place p = s.place p → ∀ r i since,
      s'.place p ≠ .freeing .truncating r i since := by
    intro hsame
    rw [hsame, hp]
    exact nofun
  cases c with
  | next => cases hcall
  | iget dev inum =>
    obtain ⟨x, hget, rfl⟩ := ok_of_map (Option.some.inj hcall)
    exact ⟨.inl (iget_disk hget), fun r i since hf => absurd hf (hstay rfl r i since)⟩
  | idup r =>
    obtain ⟨i, hi, heq⟩ := Option.map_eq_some_iff.mp hcall
    cases heq
    exact ⟨.inl rfl, fun r i since hf => absurd hf (hstay rfl r i since)⟩
  | ilock r =>
    obtain ⟨i, hi, hcall⟩ := Option.bind_eq_some_iff.mp hcall
    dsimp only at hcall
    split_ifs at hcall
    · cases hcall
    · cases hcall
      exact ⟨.inl rfl, fun r' i' since hf => by simp [setPlace] at hf⟩
  | iunlock i =>
    simp only [call] at hcall
    split_ifs at hcall
    · cases hcall
    · cases hcall
      exact ⟨.inl rfl, fun r i since hf => absurd hf (hstay rfl r i since)⟩
  | iput r =>
    obtain ⟨i, hi, hcall⟩ := Option.bind_eq_some_iff.mp hcall
    split_ifs at hcall
    obtain ⟨x, hput, rfl⟩ := ok_of_map (Option.some.inj hcall)
    unfold Itable.iput at hput
    dsimp only at hput
    split_ifs at hput with hlast hsome
    · obtain rfl := Except.ok.inj hput
      refine ⟨.inl rfl, fun r' i' since hf => ?_⟩
      simp only [puts, if_true, Function.update_self] at hf
      cases hf
      exact ⟨hi, hlast.1, hlast.2.1, hlast.2.2, by simpa using hsome, rfl⟩
    · cases hput
      exact ⟨.inl rfl, fun r i since hf => absurd hf (hstay rfl r i since)⟩
  | ialloc dev type =>
    cases hcall
    exact ⟨.inl rfl, fun r' i' since hf => by simp [setPlace] at hf⟩
  | write i d =>
    obtain ⟨hlocks, hcall⟩ := Option.ite_none_right_eq_some.mp hcall
    cases hcall
    exact ⟨.inl rfl, fun r i since hf => absurd hf (hstay rfl r i since)⟩
  | iupdate i =>
    obtain ⟨hlocks, hcall⟩ := Option.ite_none_right_eq_some.mp hcall
    cases hcall
    exact ⟨.inr ⟨i, hlocks, rfl⟩, fun r i since hf => absurd hf (hstay rfl r i since)⟩

/-- A later section of a call leads to no new decision, and besides the section that frees an
inode on disk none does. -/
theorem advance_effect {d n : ℕ} (h : Safe s) (hnext : s.advance p = some (.ok s')) :
    (∀ r i since, s'.place p ≠ .freeing .truncating r i since) ∧
      ((s.disk d n).type ≠ 0 → (s'.disk d n).type = 0 →
        ∃ r i since, s.place p = .freeing .freeing r i since ∧ (s.inode i).dev = d ∧
          (s.inode i).inum = n) := by
  unfold advance at hnext
  split at hnext
  · cases hnext
  case h_2 dev type inum hp =>
    cases hnext
    unfold scans Itable.scan
    split_ifs with hend hfree
    · exact ⟨fun r i since => by simp [setPlace], fun hne heq => absurd heq hne⟩
    · refine ⟨fun r i since => by simp, fun hne heq => absurd heq ?_⟩
      simp only [Itable.setDisk, Function.update_apply]
      grind
    · exact ⟨fun r i since => by simp [setPlace], fun hne heq => absurd heq hne⟩
  case h_3 dev inum hp =>
    obtain ⟨x, hget, rfl⟩ := ok_of_map (Option.some.inj hnext)
    refine ⟨fun r i since => by simp [setPlace], fun hne heq => absurd heq ?_⟩
    change (x.2.disk d n).type ≠ 0
    rwa [iget_disk hget]
  case h_4 r i hp =>
    obtain ⟨t, hload, rfl⟩ := ok_of_map (Option.some.inj hnext)
    refine ⟨fun r i since => by simp [loads], fun hne heq => absurd heq ?_⟩
    change (t.disk d n).type ≠ 0
    unfold Itable.load at hload
    dsimp only at hload
    split_ifs at hload <;> cases hload <;> exact hne
  case h_5 stage r i since hp =>
    cases hnext
    refine ⟨fun r' i' k => by cases stage <;> simp [frees, Stage.next], fun hne heq => ?_⟩
    have hfits := h.fits p
    rw [hp] at hfits
    cases stage with
    | truncating =>
      have hcur := h.current_of_holder hfits.1 (hfits.2.2.2.1 (.inl rfl)).1 (by simp [hp])
      have ht := hcur.2.1
      simp only [frees, Itable.free, Itable.iupdate, Itable.setInode, Itable.setDisk,
        Function.update_apply] at heq
      grind
    | freeing =>
      refine ⟨r, i, since, hp, ?_⟩
      simp only [frees, Itable.free, Itable.iupdate, Itable.setInode, Itable.setDisk,
        Function.update_apply] at heq
      grind
    | clearing => exact absurd heq hne
    | unlocking => exact absurd heq hne
  case h_6 r i hp =>
    cases hnext
    exact ⟨fun r i since => by simp [setPlace], fun hne heq => absurd heq hne⟩

/-- The only way into the branch of `iput` that frees. -/
theorem step_truncating {c : Call} {since : ℕ} (h : Safe s)
    (hstep : step (.inl s) (p, c) = some (.inl s'))
    (hplace : s'.place p = .freeing .truncating r i since) :
    (s.inode i).ref = 1 ∧ (∀ r', s.refers r' = some i → r' = r) ∧ (s.inode i).valid = true ∧
      (s.inode i).node.nlink = 0 ∧ s.Current i ∧ since = s.fresh := by
  obtain ⟨o, ho, ⟨s1, rfl, ht⟩ | ⟨e, -, ht⟩⟩ := step_cases hstep
  · cases ht
    rcases ho with ⟨hp, hcall⟩ | hnext
    · obtain ⟨hr, hone, hv, hn, hnone, hk⟩ := (call_effect hp hcall).2 r i since hplace
      obtain ⟨hrefers, -⟩ := refers_of_entry hr
      refine ⟨hone, fun r' hr' => ?_, hv, hn, h.current_of_free (by omega) hnone hv, hk⟩
      exact eq_of_outstanding_one (Nat.cast_eq_one.mp ((h.refs i).symm.trans hone)) hrefers
        (h.old r i hrefers) hr' (h.old r' i hr')
    · exact absurd hplace ((advance_effect h hnext (d := 0) (n := 0)).1 r i since)
  · cases ht

/-- The only step that makes an inode on disk free. -/
theorem step_frees {m : ℕ × Call} {d n : ℕ} (h : Safe s)
    (hstep : step (.inl s) m = some (.inl s')) (hused : (s.disk d n).type ≠ 0)
    (hfree : (s'.disk d n).type = 0) :
    ∃ r i since, s.place m.1 = .freeing .freeing r i since ∧ (s.inode i).dev = d ∧
      (s.inode i).inum = n := by
  obtain ⟨o, ho, ⟨s1, rfl, ht⟩ | ⟨e, -, ht⟩⟩ := step_cases hstep
  · cases ht
    rcases ho with ⟨hp, hcall⟩ | hnext
    · rcases (call_effect hp hcall).1 with hsame | ⟨i, hlocks, hdisk⟩
      · rw [hsame] at hfree
        exact absurd hfree hused
      · obtain ⟨r, hr⟩ := h.locked_of_locks hlocks
        have hcur := h.current_of_holder hr (h.valid_of_ready hr hp) (by simp [hp])
        have ht := hcur.2.1
        rw [hdisk] at hfree
        simp only [Itable.iupdate, Itable.setDisk, Function.update_apply] at hfree
        grind
    · exact (advance_effect h hnext).2 hused hfree
  · cases ht

/-- `ilock` reads an entry that is not valid from disk. -/
theorem step_loads {c : Call} (hp : s.place p = .loading r i)
    (hstep : step (.inl s) (p, c) = some (.inl s')) (hv : (s.inode i).valid = false) :
    (s'.inode i).node = s.disk (s.inode i).dev (s.inode i).inum ∧
      s'.loaded i = s.allocs (s.inode i).dev (s.inode i).inum := by
  obtain ⟨o, ho, ⟨s1, rfl, ht⟩ | ⟨e, -, ht⟩⟩ := step_cases hstep
  · cases ht
    rcases ho with ⟨hready, -⟩ | hnext
    · rw [hp] at hready
      cases hready
    · unfold advance at hnext
      rw [hp] at hnext
      obtain ⟨t, hload, rfl⟩ := ok_of_map (Option.some.inj hnext)
      unfold Itable.load at hload
      simp only [hv, Bool.false_eq_true, if_false] at hload
      split_ifs at hload
      cases hload
      simp only [loads, hv, Itable.setInode, Function.update_self, Bool.false_eq_true, if_false,
        and_self]
  · cases ht

/-- The references in memory are safe in every order of steps: entries are not duplicated and
count their references; `iput` decides to free only with the last reference and no links, and
until the inode is free on disk the lock is its own and every other reference is newer than
the decision; an entry that is not valid is read from disk as it is locked, and who uses one
has read it since `ialloc` last gave the inode out. -/
theorem inode_references_safe {disk : ℕ → ℕ → Dinode} {ninodes : ℕ} {t : ItableUse ⊕ InodePanic}
    (h : ReachOf step Callers (.inl (init disk ninodes)) t) :
    match t with
    | .inr e => e ≠ .sched
    | .inl s =>
      (∀ i j, 0 < (s.inode i).ref → 0 < (s.inode j).ref → (s.inode i).dev = (s.inode j).dev →
        (s.inode i).inum = (s.inode j).inum → i = j) ∧
      (∀ i, (s.inode i).ref = s.outstanding i) ∧
      (∀ p c s' r i since, step (.inl s) (p, c) = some (.inl s') →
        s'.place p = .freeing .truncating r i since →
        (s.inode i).ref = 1 ∧ (∀ r', s.refers r' = some i → r' = r) ∧ (s.inode i).valid = true ∧
          (s.inode i).node.nlink = 0 ∧ s.Current i ∧ since = s.fresh) ∧
      (∀ p stage r i since, s.place p = .freeing stage r i since →
        stage = .truncating ∨ stage = .freeing →
        (s.inode i).holder = some p ∧ (s.inode i).valid = true ∧
          (s.inode i).node.nlink = 0 ∧ ∀ r' ≠ r, s.refers r' = some i → since ≤ r') ∧
      (∀ m s' d n, step (.inl s) m = some (.inl s') → (s.disk d n).type ≠ 0 →
        (s'.disk d n).type = 0 → ∃ r i since, s.place m.1 = .freeing .freeing r i since ∧
          (s.inode i).dev = d ∧ (s.inode i).inum = n) ∧
      (∀ p c s' r i, s.place p = .loading r i → step (.inl s) (p, c) = some (.inl s') →
        (s.inode i).valid = false →
        (s'.inode i).node = s.disk (s.inode i).dev (s.inode i).inum ∧
          s'.loaded i = s.allocs (s.inode i).dev (s.inode i).inum) ∧
      ∀ i p, (s.inode i).holder = some p → s.place p = .ready →
        (s.inode i).valid = true ∧ s.Current i := by
  have hsound := ReachOf.invariant Sound (fun _ _ _ => step_sound)
    (show Sound (.inl (init disk ninodes)) from init_safe disk ninodes) h
  cases t with
  | inr e => exact hsound
  | inl s =>
    have hsafe : Safe s := hsound
    refine ⟨hsafe.unique, hsafe.refs, fun p c s' r i since hstep hplace =>
      step_truncating hsafe hstep hplace, fun p stage r i since hplace hstage => ?_,
      fun m s' d n hstep hused hfree => step_frees hsafe hstep hused hfree,
      fun p c s' r i hplace hstep hv => step_loads hplace hstep hv, fun i p hlock hp => ?_⟩
    · have hfits := hsafe.fits p
      rw [hplace] at hfits
      obtain ⟨hlocked, -, hothers, hlive, -⟩ := hfits
      refine ⟨?_, (hlive hstage).1, (hlive hstage).2, hothers⟩
      rw [hsafe.locks, hlocked]
      rfl
    · obtain ⟨r, hr⟩ := hsafe.locked hlock
      have hv := hsafe.valid_of_ready hr hp
      exact ⟨hv, hsafe.current_of_holder hr hv (by simp [hp])⟩

/-- Process 0 allocates the first inode of the device, locks and unlocks it and drops it
again; before it is freed, process 1 finds it, and duplicates and drops its reference. -/
def foundWhileFreed : List (ℕ × Call) :=
  [(0, .ialloc 1 2), (0, .next), (0, .next), (0, .ilock 0), (0, .next), (0, .iunlock 0),
    (0, .iput 0), (1, .iget 1 1), (1, .idup 1), (1, .iput 2)]

instance (s : ItableUse) : Decidable s.Room :=
  inferInstanceAs (Decidable (∀ i < ninode, s.outstanding i + 1 < 2147483648))

instance (t : ItableUse ⊕ InodePanic) (m : ℕ × Call) : Decidable (Callers t m) :=
  match t with
  | .inl s => inferInstanceAs (Decidable s.Room)
  | .inr _ => isTrue trivial

theorem inode_references_safe_of_foundWhileFreed :
    ∃ s, ReachOf step Callers (.inl (init (fun _ _ => {}) 200)) (.inl s) ∧
      (s.place 0 = .freeing .truncating 0 0 1 ∧ (s.inode 0).ref = 2) ∧ s.outstanding 0 = 2 ∧
      (s.inode 0).holder = some 0 := by
  have hrun : ((runAll (fun t m => if Callers t m then step t m else none)
      (.inl (init (fun _ _ => {}) 200)) foundWhileFreed).bind Sum.getLeft?).any (fun s =>
        s.place 0 = .freeing .truncating 0 0 1 ∧ (s.inode 0).ref = 2) = true := by
    decide +kernel
  obtain ⟨s, hs, hprop⟩ := (Option.any_eq_true _ _).mp hrun
  obtain ⟨t, ht, hst⟩ := Option.bind_eq_some_iff.mp hs
  obtain rfl := Sum.getLeft?_eq_some_iff.mp hst
  obtain ⟨hplace, href⟩ := of_decide_eq_true hprop
  have hreach := reachOf_of_runAll ht
  obtain ⟨-, hrefs, -, hwindow, -⟩ := inode_references_safe hreach
  exact ⟨s, hreach, ⟨hplace, href⟩, Nat.cast_inj.mp ((hrefs 0).symm.trans href),
    (hwindow 0 _ 0 0 1 hplace (.inl rfl)).1⟩

end XV6AndConcurrency.FileSystem.ItableUse
