import XV6AndConcurrency.VirtualMemory.FaultPaths

/-!
# When copyout keeps processes apart

`copyout` does not look at `PTE_W`, and without a free page its copy-on-write branch goes
on with the shared page. `Safe` is the condition on the state before the call under which
neither happens to a page that matters; it is exact.
-/

namespace XV6AndConcurrency.VirtualMemory

open Foundations

variable {L : Layout} {k k' k'' : Kernel} {roots : Finset ℕ} {held : ℕ → ℕ}
  {r a v n q sz off dstva len fuel : ℕ} {T : Finset ℕ} {bs src : List Byte} {killed : Bool}

/-! ## One page -/

/-- What one round of the loop does, on the page `a` of the table `r`. -/
structure PageDone (L : Layout) (k k' : Kernel) (roots : Finset ℕ) (held : ℕ → ℕ) (r a off : ℕ)
    (bs : List Byte) : Prop where
  coherent : Coherent L k' roots held
  wrote : Wrote k k' roots held r
  later : ∀ x < userVpns, x ≠ a → leaf k'.mem r x = leaf k.mem r x
  refs : ∀ x < userVpns, x ≠ a → ∀ q, Maps (leaf k.mem r x) q → k'.refs q = k.refs q
  free : k'.freelist.length = k.freelist.length -
    if pteCow (leaf k.mem r a) = true ∧ 1 < k.refs (pte2pa (leaf k.mem r a)) then 1 else 0
  outside : ∀ q, ¬ IsPage L q → k'.mem q = k.mem q
  bytes : (pteCow (leaf k.mem r a) = true ∧ k.freelist ≠ [] ∧
      ∀ s ∈ roots, ∀ x < userVpns, ¬ (s = r ∧ x = a) → ∀ q, Maps (leaf k.mem s x) q →
        k'.mem q = k.mem q) ∨
    (¬ (pteCow (leaf k.mem r a) = true ∧ k.freelist ≠ []) ∧
      leaf k'.mem r a = leaf k.mem r a ∧
      k' = k.setMem (k.mem.putBytes (pte2pa (leaf k.mem r a)) off bs))

/-- The same round as the process sees it: the bytes are in its page `a`, and its other pages
are as they were. -/
structure PageBytes (k k' : Kernel) (r a off : ℕ) (bs : List Byte) : Prop where
  here : k'.mem (pte2pa (leaf k'.mem r a)) =
    k.mem.putBytes (pte2pa (leaf k.mem r a)) off bs (pte2pa (leaf k.mem r a))
  there : ∀ x < userVpns, x ≠ a → ∀ q, Maps (leaf k.mem r x) q → k'.mem q = k.mem q

theorem resolve_freelist {t i p : ℕ} {f : List ℕ} {w : Pte} (hq : q % 4096 = 0)
    (hp : p % 4096 = 0) (hqp : q ≠ p) : (k.resolve t i p f q w).freelist =
      if 1 < k.refs q then f else q :: f := by
  have hrefs : (k.duplicate p f q).refs q = k.refs q :=
    k.setRefs_refs_of_ne hp hq hqp 1
  rw [Kernel.resolve, Kernel.setMem_freelist, Kernel.release_freelist, hrefs]
  rfl

theorem resolve_refs {t i p x : ℕ} {f : List ℕ} {w : Pte} (hq : q % 4096 = 0)
    (hp : p % 4096 = 0) (hx : x % 4096 = 0) (hxq : x ≠ q) (hxp : x ≠ p) :
    (k.resolve t i p f q w).refs x = k.refs x := by
  rw [Kernel.resolve, Kernel.setMem_refs, Kernel.release_refs_of_ne _ hq hx hxq]
  exact k.setRefs_refs_of_ne hp hx hxp 1

theorem resolve_other {t i p x : ℕ} {f : List ℕ} {w : Pte} (hxt : x ≠ t) (hxq : x ≠ q)
    (hxp : x ≠ p) : (k.resolve t i p f q w).mem x = k.mem x := by
  rw [Kernel.resolve, Kernel.setMem_mem, Memory.setWord_of_ne _ _ _ _ _ hxt,
    Kernel.release_mem_of_ne _ hxq, duplicate_other hxp]

section Page

variable (h : Coherent L k roots held) (hr : r ∈ roots) (ha : a < userVpns)
  (hval : pteValid (leaf k.mem r a) = true) (hsz : a * 4096 < sz)
include h hr ha hval hsz

/-- With a free page the bytes go to a private copy. -/
theorem copyoutCow_copied (hcow : pteCow (leaf k.mem r a) = true) (hne : k.freelist ≠ [])
    (off : ℕ) (bs : List Byte) :
    ∃ dst k1, copyoutCow L r sz (a * 4096) (pte2pa (leaf k.mem r a)) k = .ok (dst, k1) ∧
      PageDone L k (k1.setMem (k1.mem.putBytes dst.1 off bs)) roots held r a off bs ∧
      PageBytes k (k1.setMem (k1.mem.putBytes dst.1 off bs)) r a off bs := by
  obtain ⟨p, next, hfl⟩ := List.exists_cons_of_ne_nil hne
  have hm : Maps (leaf k.mem r a) (pte2pa (leaf k.mem r a)) := ⟨hval, rfl⟩
  obtain ⟨t, ht, hrun⟩ := copyoutCow_resolve h.toBalanced hr ha hval hcow hsz hfl
  obtain ⟨htp, htq, hqp⟩ := resolve_distinct h.toBalanced hr ha ht hm hfl
  obtain ⟨hpt, hp0, -⟩ := fresh_head h.toBalanced hfl
  obtain ⟨-, hl1, hk1, hcopy⟩ := resolve_spec h hr ha ht hm hfl
  obtain ⟨hc1, hown, hmp, hw1⟩ := wrote_resolve h hr ha ht hval hcow hfl
  have hpage := ((h.free p).mp (by simp [hfl])).1
  have hqpage := h.isPage_of_mapped (mapCount_pos hr ha hm)
  have htpage := h.isPage_of_table ⟨_, leafTable_at hr (ha.trans userVpns_lt) ht⟩
  have hfree := resolve_freelist (k := k) (t := t) (i := vpn0 a) (f := next)
    (w := leaf k.mem r a) hqpage.1 hpage.1 hqp
  have hrefs := fun x (hx : IsPage L x) (hxq : x ≠ pte2pa (leaf k.mem r a)) (hxp : x ≠ p) =>
    resolve_refs (k := k) (t := t) (i := vpn0 a) (f := next) (w := leaf k.mem r a) hqpage.1
      hpage.1 hx.1 hxq hxp
  have hother := fun x (hx : ¬ IsPage L x) =>
    resolve_other (k := k) (q := pte2pa (leaf k.mem r a)) (t := t) (i := vpn0 a) (p := p)
      (f := next) (w := leaf k.mem r a) (x := x) (fun he => hx (he ▸ htpage))
      (fun he => hx (he ▸ hqpage)) (fun he => hx (he ▸ hpage))
  refine ⟨_, _, hrun, ?_⟩
  generalize k.resolve t (vpn0 a) p next (pte2pa (leaf k.mem r a)) (leaf k.mem r a) = k1 at *
  obtain ⟨hc2, hl2, hw2⟩ := wrote_page hc1 hr ha hmp (m := k1.mem.putBytes p off bs)
    fun q hq => Memory.putBytes_of_ne _ _ _ _ _ hq
  have hlen : k.freelist.length = next.length + 1 := by simp [hfl]
  have hothers : ∀ s ∈ roots, ∀ x < userVpns, ¬ (s = r ∧ x = a) → ∀ q, Maps (leaf k.mem s x) q →
      (k1.setMem (k1.mem.putBytes p off bs)).mem q = k.mem q := by
    intro s hs x hx hsx q hq
    have hqp' : q ≠ p := by
      rintro rfl
      have := mapCount_pos hs hx hq
      omega
    rw [Kernel.setMem_mem, Memory.putBytes_of_ne _ _ _ _ _ hqp']
    exact hk1.bytes s hs x hx hsx q hq
  refine ⟨⟨hc2, hw1.trans hc1 hr hw2, ?_, ?_, ?_, ?_, Or.inl ⟨hcow, hne, hothers⟩⟩,
    ⟨?_, fun x hx hxa => hothers r hr x hx fun he => hxa he.2⟩⟩
  · intro x hx hxa
    have hxl := hx.trans userVpns_lt
    rw [hl2 r hr x hxl, hl1 r hr x hxl, if_neg (by omega)]
  · intro x hx hxa q hq
    rw [Kernel.setMem_refs]
    refine hrefs q (h.isPage_of_mapped (mapCount_pos hr hx hq)) ?_ ?_
    · rintro rfl
      exact hxa (h.sharing.inj hr hx ha hq hm)
    · rintro rfl
      have := mapCount_pos hr hx hq
      omega
  · rw [Kernel.setMem_freelist, hfree, hlen]
    by_cases h1 : 1 < k.refs (pte2pa (leaf k.mem r a))
    · simp [h1, hcow]
    · simp [h1]
  · intro q hq
    have hqp' : q ≠ p := fun he => hq (he ▸ hpage)
    rw [Kernel.setMem_mem, Memory.putBytes_of_ne _ _ _ _ _ hqp']
    exact hother q hq
  · rw [hl2 r hr a (ha.trans userVpns_lt), hmp.2, Kernel.setMem_mem]
    exact Memory.putBytes_congr hcopy off bs

omit hsz in
/-- Otherwise they go to the page the entry maps, whoever else maps it. -/
theorem copyoutCow_shared (hno : ¬ (pteCow (leaf k.mem r a) = true ∧ k.freelist ≠ []))
    (off : ℕ) (bs : List Byte) :
    ∃ dst k1, copyoutCow L r sz (a * 4096) (pte2pa (leaf k.mem r a)) k = .ok (dst, k1) ∧
      PageDone L k (k1.setMem (k1.mem.putBytes dst.1 off bs)) roots held r a off bs ∧
      PageBytes k (k1.setMem (k1.mem.putBytes dst.1 off bs)) r a off bs := by
  have hm : Maps (leaf k.mem r a) (pte2pa (leaf k.mem r a)) := ⟨hval, rfl⟩
  have hva : a * 4096 < maxva := by
    rw [maxva_eq]
    unfold userVpns at ha
    omega
  have hpage := h.isPage_of_mapped (mapCount_pos hr ha hm)
  have hnil : pteCow (leaf k.mem r a) = true → k.freelist = [] := by
    intro hcow
    by_contra hne
    exact hno ⟨hcow, hne⟩
  refine ⟨_, _, copyoutCow_inplace hva hval fun _ => hnil, ?_⟩
  obtain ⟨hc1, hl1, hw1⟩ := wrote_page h hr ha hm
    (m := k.mem.putBytes (pte2pa (leaf k.mem r a)) off bs)
    fun q hq => Memory.putBytes_of_ne _ _ _ _ _ hq
  refine ⟨⟨hc1, hw1, ?_, fun _ _ _ _ _ => rfl, ?_, ?_,
    Or.inr ⟨hno, hl1 r hr a (ha.trans userVpns_lt), rfl⟩⟩, ⟨?_, fun x hx hxa q hq => ?_⟩⟩
  · exact fun x hx _ => hl1 r hr x (hx.trans userVpns_lt)
  · rw [Kernel.setMem_freelist]
    by_cases hcow : pteCow (leaf k.mem r a) = true
    · simp [hnil hcow]
    · simp [hcow]
  · exact fun q hq => Memory.putBytes_of_ne _ _ _ _ _ fun he => hq (he ▸ hpage)
  · rw [hl1 r hr a (ha.trans userVpns_lt), Kernel.setMem_mem]
  · apply Memory.putBytes_of_ne
    rintro rfl
    exact hxa (h.sharing.inj hr hx ha hq hm)

theorem copyoutCow_page (off : ℕ) (bs : List Byte) :
    ∃ dst k1, copyoutCow L r sz (a * 4096) (pte2pa (leaf k.mem r a)) k = .ok (dst, k1) ∧
      PageDone L k (k1.setMem (k1.mem.putBytes dst.1 off bs)) roots held r a off bs ∧
      PageBytes k (k1.setMem (k1.mem.putBytes dst.1 off bs)) r a off bs := by
  by_cases hc : pteCow (leaf k.mem r a) = true ∧ k.freelist ≠ []
  · exact copyoutCow_copied h hr ha hval hsz hc.1 hc.2 off bs
  · exact copyoutCow_shared h hr ha hval hc off bs

end Page

/-- The entry for the page `v` lets `copyout` through. -/
def Open (k : Kernel) (r v : ℕ) : Prop :=
  v * 4096 < maxva ∧ pteValid (leaf k.mem r v) = true ∧ pteUser (leaf k.mem r v) = true

theorem Open.lt (ho : Open k r v) (hs : Shape k.mem r n T) : v < n := by
  obtain ⟨h1, h2, h3⟩ := ho
  have hvl : v < vpnLimit := by
    rw [maxva_eq] at h1
    unfold vpnLimit
    omega
  exact hs.lt_of_user hvl h2 h3

theorem copyoutLoop_nil : copyoutLoop L r sz fuel dstva [] killed k = .ok ((true, killed), k) := by
  cases fuel <;> simp [copyoutLoop]

/-- The loop stops at a page that is not open. -/
theorem copyoutLoop_closed (hsrc : src ≠ []) (hopen : ¬ Open k r (dstva / 4096)) :
    copyoutLoop L r sz (fuel + 1) dstva src killed k = .ok ((false, killed), k) := by
  have hdown : pgrounddown dstva = dstva / 4096 * 4096 := rfl
  have hdiv : dstva / 4096 * 4096 / 4096 = dstva / 4096 := by omega
  have hnone : (if dstva / 4096 * 4096 < maxva then userPage (leaf k.mem r (dstva / 4096))
      else none) = none := by
    split_ifs with hlt
    · unfold userPage
      rw [if_neg]
      rintro ⟨h1, h2, -⟩
      exact hopen ⟨hlt, h1, h2⟩
    · rfl
  unfold copyoutLoop
  rw [if_neg hsrc, hdown]
  simp [walkaddr_run, hdiv, hnone]

/-- One round of the loop, which writes the bytes `bs`. -/
theorem copyoutLoop_page (h : Coherent L k roots held) (hr : r ∈ roots) (hs : Shape k.mem r n T)
    (hsz : dstva / 4096 * 4096 < sz) (hopen : Open k r (dstva / 4096)) (bs : List Byte) :
    ∃ k2 kd, PageDone L k k2 roots held r (dstva / 4096) (dstva % 4096) bs ∧
      PageBytes k k2 r (dstva / 4096) (dstva % 4096) bs ∧
      ∀ fuel src killed, src ≠ [] → src.take (4096 - dstva % 4096) = bs →
        copyoutLoop L r sz (fuel + 1) dstva src killed k =
          copyoutLoop L r sz fuel ((dstva / 4096 + 1) * 4096)
            (src.drop (4096 - dstva % 4096)) (killed || kd) k2 := by
  have hlt := hopen.lt hs
  obtain ⟨hmax, hval, huser⟩ := hopen
  have hdown : pgrounddown dstva = dstva / 4096 * 4096 := rfl
  have hdiv : dstva / 4096 * 4096 / 4096 = dstva / 4096 := by omega
  have hoff : dstva - dstva / 4096 * 4096 = dstva % 4096 := by omega
  have ha := hlt.trans_le hs.le
  have hpos := (h.isPage_of_mapped (mapCount_pos hr ha ⟨hval, rfl⟩)).pos
  have hpage : userPage (leaf k.mem r (dstva / 4096)) =
      some (pte2pa (leaf k.mem r (dstva / 4096))) := if_pos ⟨hval, huser, by omega⟩
  obtain ⟨dst, k1, hrun, hdone, hbytes⟩ :=
    copyoutCow_page h hr ha hval hsz (dstva % 4096) bs
  refine ⟨_, dst.2, hdone, hbytes, ?_⟩
  rintro fuel src killed hsrc rfl
  have hnext : dstva / 4096 * 4096 + pgsize = (dstva / 4096 + 1) * 4096 := by
    unfold pgsize
    omega
  conv_lhs => unfold copyoutLoop
  rw [if_neg hsrc, hdown]
  simp [walkaddr_run, hdiv, hmax, hpage, hrun, hoff, hnext]
  rfl

/-! ## The condition -/

/-- A process other than that of `r` can read the page `q`. -/
def OtherReads (k : Kernel) (roots : Finset ℕ) (r q : ℕ) : Prop :=
  ∃ s ∈ roots, s ≠ r ∧ ∃ x < userVpns, Maps (leaf k.mem s x) q ∧
    pteUser (leaf k.mem s x) = true ∧ pteReadable (leaf k.mem s x) = true

/-- `copyout` of `len` bytes to `dstva` gets as far as the page `v`. -/
def Reached (k : Kernel) (r dstva len v : ℕ) : Prop :=
  0 < len ∧ dstva / 4096 ≤ v ∧ v * 4096 < dstva + len ∧
    ∀ u, dstva / 4096 ≤ u → u ≤ v → Open k r u

/-- How many pages the copies for the pages from `a` up to `v` take from the free list:
the old page comes back when nobody else refers to it. -/
def taken (k : Kernel) (r a v : ℕ) : ℕ :=
  ((Finset.Ico a v).filter fun u =>
    pteCow (leaf k.mem r u) = true ∧ 1 < k.refs (pte2pa (leaf k.mem r u))).card

/-- The page `v` may be written with `n` pages on the free list. -/
def MayWrite (k : Kernel) (roots : Finset ℕ) (r v n : ℕ) : Prop :=
  (pteWritable (leaf k.mem r v) = true ∨ pteCow (leaf k.mem r v) = true) ∧
    (pteCow (leaf k.mem r v) = true → OtherReads k roots r (pte2pa (leaf k.mem r v)) → 0 < n)

/-- Every page that `copyout` gets to is writable or copy-on-write, and there is a free page
for the copy of every one that another process reads. -/
def Safe (k : Kernel) (roots : Finset ℕ) (r dstva len : ℕ) : Prop :=
  ∀ v, Reached k r dstva len v →
    MayWrite k roots r v (k.freelist.length - taken k r (dstva / 4096) v)

/-- Nothing changes that another process reads, or that the process itself may only read. -/
structure Apart (L : Layout) (k k' : Kernel) (roots : Finset ℕ) (r : ℕ) : Prop where
  others : ∀ q, OtherReads k roots r q → ∀ o < 4096, k'.mem q o = k.mem q o
  own : ∀ x < userVpns, ∀ q, Maps (leaf k.mem r x) q → pteWritable (leaf k.mem r x) = false →
    pteCow (leaf k.mem r x) = false → ∀ o < 4096, k'.mem q o = k.mem q o

theorem Apart.refl : Apart L k k roots r := ⟨fun _ _ _ _ => rfl, fun _ _ _ _ _ _ _ _ => rfl⟩

theorem taken_succ (h : a < v) : taken k r a v = taken k r (a + 1) v +
    if pteCow (leaf k.mem r a) = true ∧ 1 < k.refs (pte2pa (leaf k.mem r a)) then 1 else 0 := by
  unfold taken
  rw [← Finset.insert_Ico_add_one_left_eq_Ico h, Finset.filter_insert]
  split_ifs with hc
  · rw [Finset.card_insert_of_notMem (by simp)]
  · rfl

namespace PageDone

variable (hd : PageDone L k k' roots held r a off bs)
include hd

theorem otherReads (q : ℕ) : OtherReads k' roots r q ↔ OtherReads k roots r q := by
  unfold OtherReads
  constructor
  · rintro ⟨s, hs, hsr, x, hx, h1, h2, h3⟩
    rw [hd.wrote.other s hs x (hx.trans userVpns_lt) (Or.inl hsr)] at h1 h2 h3
    exact ⟨s, hs, hsr, x, hx, h1, h2, h3⟩
  · rintro ⟨s, hs, hsr, x, hx, h1, h2, h3⟩
    rw [← hd.wrote.other s hs x (hx.trans userVpns_lt) (Or.inl hsr)] at h1 h2 h3
    exact ⟨s, hs, hsr, x, hx, h1, h2, h3⟩

/-- An entry that is read-only after the round was so before. -/
theorem own_eq {x : ℕ} (hx : x < userVpns)
    (hw : pteWritable (leaf k.mem r x) = false ∧ pteCow (leaf k.mem r x) = false ∨
      pteWritable (leaf k'.mem r x) = false ∧ pteCow (leaf k'.mem r x) = false) :
    leaf k'.mem r x = leaf k.mem r x := by
  rcases hd.wrote.own x hx with he | ⟨ha, hwr⟩
  · exact he
  · have hw' := ha.writes
    rcases hw with ⟨h1, h2⟩ | ⟨h1, h2⟩
    · rw [h1, h2, hwr] at hw'
      simp at hw'
    · rw [hwr] at h1
      simp at h1

theorem later_eq (hr : r ∈ roots) {x : ℕ} (hx : x < vpnLimit) (hxa : x ≠ a) :
    leaf k'.mem r x = leaf k.mem r x := by
  by_cases hxu : x < userVpns
  · exact hd.later x hxu hxa
  · exact hd.wrote.other r hr x hx (Or.inr (by omega))

theorem open_iff (hr : r ∈ roots) {x : ℕ} (hxa : x ≠ a) : Open k' r x ↔ Open k r x := by
  unfold Open
  by_cases hx : x * 4096 < maxva
  · have hxl : x < vpnLimit := by
      rw [maxva_eq] at hx
      unfold vpnLimit
      omega
    rw [hd.later_eq hr hxl hxa]
  · simp [hx]

theorem trans (h : Apart L k k' roots r) (h' : Apart L k' k'' roots r) : Apart L k k'' roots r where
  others q hq o ho := by
    rw [h'.others q ((hd.otherReads q).mpr hq) o ho, h.others q hq o ho]
  own x hx q hq hw hc o ho := by
    have he := hd.own_eq hx (Or.inl ⟨hw, hc⟩)
    rw [← he] at hq hw hc
    rw [h'.own x hx q hq hw hc o ho]
    rw [he] at hq hw hc
    exact h.own x hx q hq hw hc o ho

theorem cancel (h : Apart L k k' roots r) (h' : Apart L k k'' roots r) :
    Apart L k' k'' roots r where
  others q hq o ho := by
    have hq' := (hd.otherReads q).mp hq
    rw [h'.others q hq' o ho, h.others q hq' o ho]
  own x hx q hq hw hc o ho := by
    have he := hd.own_eq hx (Or.inr ⟨hw, hc⟩)
    rw [he] at hq hw hc
    rw [h'.own x hx q hq hw hc o ho, h.own x hx q hq hw hc o ho]

/-- A page that may be written is nobody else's business. -/
theorem apart (h : Coherent L k roots held) (hr : r ∈ roots) (ha : a < userVpns)
    (hval : pteValid (leaf k.mem r a) = true)
    (hmay : MayWrite k roots r a k.freelist.length) : Apart L k k' roots r := by
  have hm : Maps (leaf k.mem r a) (pte2pa (leaf k.mem r a)) := ⟨hval, rfl⟩
  rcases hd.bytes with ⟨hcow, -, hb⟩ | ⟨hno, -, rfl⟩
  · constructor
    · rintro q ⟨s, hs, hsr, x, hx, hq, -⟩ o _
      rw [hb s hs x hx (fun hc => hsr hc.1) q hq]
    · intro x hx q hq hw hc o _
      refine congrFun (hb r hr x hx ?_ q hq) o
      rintro ⟨-, rfl⟩
      rw [hc] at hcow
      simp at hcow
  · have hkeep : ∀ q, q ≠ pte2pa (leaf k.mem r a) → ∀ o,
        (k.setMem (k.mem.putBytes (pte2pa (leaf k.mem r a)) off bs)).mem q o = k.mem q o :=
      fun q hq o => congrFun (Memory.putBytes_of_ne _ _ _ _ _ hq) o
    constructor
    · intro q hread o _
      apply hkeep
      rintro rfl
      by_cases hcow : pteCow (leaf k.mem r a) = true
      · have hpos := hmay.2 hcow hread
        exact hno ⟨hcow, List.ne_nil_of_length_pos hpos⟩
      · obtain ⟨s, hs, hsr, x, hx, hq, -⟩ := hread
        have hwr := hmay.1.resolve_right hcow
        exact hsr ((h.sharing.exclusive hr ha hm hwr).2.2 hs hx hq).1
    · intro x hx q hq hw hc o _
      apply hkeep
      rintro rfl
      obtain rfl := h.sharing.inj hr hx ha hq hm
      rcases hmay.1 with h1 | h1
      · rw [hw] at h1
        simp at h1
      · rw [hc] at h1
        simp at h1

theorem reached_iff (hr : r ∈ roots) (hda : dstva / 4096 = a) (ho : Open k r a) (hav : a < v) :
    Reached k r dstva len v ↔
      Reached k' r ((a + 1) * 4096) (len - (4096 - dstva % 4096)) v := by
  have hdiv : (a + 1) * 4096 / 4096 = a + 1 := by omega
  unfold Reached
  rw [hdiv, hda]
  constructor
  · rintro ⟨h1, h2, h3, h4⟩
    refine ⟨by omega, by omega, by omega, ?_⟩
    intro u hu1 hu2
    rw [hd.open_iff hr (by omega)]
    exact h4 u (by omega) hu2
  · rintro ⟨h1, h2, h3, h4⟩
    refine ⟨by omega, by omega, by omega, ?_⟩
    intro u hu1 hu2
    by_cases hua : u = a
    · rw [hua]
      exact ho
    · rw [← hd.open_iff hr hua]
      exact h4 u (by omega) hu2

/-- The pages left for `v` are the same, counted from the next page on. -/
theorem room_eq (hav : a < v) (hv : v < userVpns)
    (hval : ∀ u, a < u → u < v → pteValid (leaf k.mem r u) = true) :
    k'.freelist.length - taken k' r (a + 1) v = k.freelist.length - taken k r a v := by
  have htaken : taken k' r (a + 1) v = taken k r (a + 1) v := by
    unfold taken
    refine congrArg Finset.card (Finset.filter_congr ?_)
    intro u hu
    rw [Finset.mem_Ico] at hu
    rw [hd.later u (by omega) (by omega),
      hd.refs u (by omega) (by omega) _ ⟨hval u (by omega) (by omega), rfl⟩]
  rw [htaken, taken_succ hav, hd.free]
  omega

theorem mayWrite_iff (hav : a < v) (hv : v < userVpns) (N : ℕ) :
    MayWrite k' roots r v N ↔ MayWrite k roots r v N := by
  unfold MayWrite
  rw [hd.later v hv (by omega), hd.otherReads]

/-- The condition, one round at a time. -/
theorem safe_iff (hr : r ∈ roots) (hs : Shape k.mem r n T) (hda : dstva / 4096 = a)
    (ho : Open k r a) (hlen : 0 < len) : Safe k roots r dstva len ↔
      MayWrite k roots r a k.freelist.length ∧
      Safe k' roots r ((a + 1) * 4096) (len - (4096 - dstva % 4096)) := by
  have hdiv : (a + 1) * 4096 / 4096 = a + 1 := by omega
  have hnext : ∀ v, a < v → Reached k r dstva len v →
      (MayWrite k' roots r v (k'.freelist.length - taken k' r (a + 1) v) ↔
        MayWrite k roots r v (k.freelist.length - taken k r a v)) := by
    intro v hav hv
    have hopen := hv.2.2.2
    rw [hda] at hopen
    have hvu := ((hopen v (by omega) le_rfl).lt hs).trans_le hs.le
    rw [hd.room_eq hav hvu fun u h1 h2 => (hopen u (by omega) (by omega)).2.1,
      hd.mayWrite_iff hav hvu]
  have hfirst : Reached k r dstva len a := by
    refine ⟨hlen, by omega, by omega, ?_⟩
    intro u h1 h2
    obtain rfl : u = a := by omega
    exact ho
  unfold Safe
  rw [hdiv, hda]
  constructor
  · intro hsafe
    refine ⟨?_, ?_⟩
    · simpa [taken] using hsafe a hfirst
    · intro v hv
      have hav : a < v := by
        have := hv.2.1
        omega
      have hv' := (hd.reached_iff hr hda ho hav).mpr hv
      exact (hnext v hav hv').mpr (hsafe v hv')
  · rintro ⟨hmay, hsafe⟩ v hv
    have hle := hv.2.1
    by_cases hva : v = a
    · subst hva
      simpa [taken] using hmay
    · have hav : a < v := by omega
      exact (hnext v hav hv).mp (hsafe v ((hd.reached_iff hr hda ho hav).mp hv))

end PageDone

/-! ## The loop -/

section Loop

variable (h : Coherent L k roots held) (hr : r ∈ roots) (hs : Shape k.mem r n T)
  (hsz : ∀ x < n, x * 4096 < sz)
include h hr hs hsz

/-- The loop changes no page behind it and none that the allocator does not manage. -/
theorem copyoutLoop_frame : Ensures (copyoutLoop L r sz fuel dstva src killed) (fun _ k' =>
    (∀ x < userVpns, x < dstva / 4096 → ∀ q, Maps (leaf k.mem r x) q → k'.mem q = k.mem q) ∧
    ∀ q, ¬ IsPage L q → k'.mem q = k.mem q) k := by
  induction fuel generalizing k dstva src killed with
  | zero => exact .of_pure ⟨fun _ _ _ _ _ => rfl, fun _ _ => rfl⟩
  | succ fuel ih =>
    by_cases hsrc : src = []
    · rw [hsrc]
      exact .of_run copyoutLoop_nil ⟨fun _ _ _ _ _ => rfl, fun _ _ => rfl⟩
    by_cases ho : Open k r (dstva / 4096)
    · have hau := (ho.lt hs).trans_le hs.le
      obtain ⟨k2, kd, hd, -, hrun⟩ := copyoutLoop_page h hr hs (hsz _ (ho.lt hs)) ho
        (src.take (4096 - dstva % 4096))
      obtain ⟨res, k3, hrun3, hback, hout⟩ := ih hd.coherent (hs.wrote hd.wrote hr)
      refine ⟨res, k3, (hrun fuel src killed hsrc rfl).trans hrun3, ?_,
        fun q hq => (hout q hq).trans (hd.outside q hq)⟩
      intro x hx hlt q hq
      have hq2 := hq
      rw [← hd.later x hx (by omega)] at hq2
      rw [hback x hx (by omega) q hq2]
      rcases hd.bytes with ⟨-, -, hb⟩ | ⟨-, -, rfl⟩
      · exact hb r hr x hx (by omega) q hq
      · apply Memory.putBytes_of_ne
        rintro rfl
        have := h.sharing.inj hr hx hau hq ⟨ho.2.1, rfl⟩
        omega
    · exact .of_run (copyoutLoop_closed hsrc ho) ⟨fun _ _ _ _ _ => rfl, fun _ _ => rfl⟩

/-- Under the condition the loop keeps processes apart. -/
theorem copyoutLoop_apart (hfuel : src.length ≤ fuel) (hsafe : Safe k roots r dstva src.length) :
    Ensures (copyoutLoop L r sz fuel dstva src killed) (fun _ k' => Apart L k k' roots r) k := by
  induction fuel generalizing k dstva src killed with
  | zero => exact .of_pure .refl
  | succ fuel ih =>
    by_cases hsrc : src = []
    · rw [hsrc]
      exact .of_run copyoutLoop_nil .refl
    by_cases ho : Open k r (dstva / 4096)
    · have hau := (ho.lt hs).trans_le hs.le
      have hpos := List.length_pos_of_ne_nil hsrc
      obtain ⟨k2, kd, hd, -, hrun⟩ := copyoutLoop_page h hr hs (hsz _ (ho.lt hs)) ho
        (src.take (4096 - dstva % 4096))
      obtain ⟨hmay, hsafe2⟩ := (hd.safe_iff hr hs rfl ho hpos).mp hsafe
      have hapart := hd.apart h hr hau ho.2.1 hmay
      have hdrop : (src.drop (4096 - dstva % 4096)).length =
          src.length - (4096 - dstva % 4096) := List.length_drop
      obtain ⟨res, k3, hrun3, hapart3⟩ := ih hd.coherent (hs.wrote hd.wrote hr)
        (by rw [hdrop]; omega) (by rw [hdrop]; exact hsafe2)
      exact ⟨res, k3, (hrun fuel src killed hsrc rfl).trans hrun3, hd.trans hapart hapart3⟩
    · exact .of_run (copyoutLoop_closed hsrc ho) .refl

/-- A page that may not be written, with a byte that differs. -/
theorem copyoutLoop_breach_here (ho : Open k r (dstva / 4096)) {b : Byte} (bs : List Byte)
    (hb : b ≠ k.mem (pte2pa (leaf k.mem r (dstva / 4096))) (dstva % 4096))
    (hmay : ¬ MayWrite k roots r (dstva / 4096) k.freelist.length) :
    Ensures (copyoutLoop L r sz (fuel + 1) dstva (b :: bs) killed)
      (fun _ k' => ¬ Apart L k k' roots r) k := by
  have hau := (ho.lt hs).trans_le hs.le
  have hm : Maps (leaf k.mem r (dstva / 4096)) (pte2pa (leaf k.mem r (dstva / 4096))) :=
    ⟨ho.2.1, rfl⟩
  have hoff : dstva % 4096 < 4096 := Nat.mod_lt _ (by decide)
  have htake : (b :: bs).take (4096 - dstva % 4096) =
      b :: bs.take (4096 - dstva % 4096 - 1) := by
    rw [List.take_cons (by omega)]
  obtain ⟨k2, kd, hd, -, hrun⟩ := copyoutLoop_page h hr hs (hsz _ (ho.lt hs)) ho
    (b :: bs.take (4096 - dstva % 4096 - 1))
  obtain ⟨res, k3, hrun3, hback, -⟩ := copyoutLoop_frame hd.coherent hr (hs.wrote hd.wrote hr) hsz
  refine ⟨res, k3, (hrun fuel _ killed (List.cons_ne_nil b bs) htake).trans hrun3, fun hap => ?_⟩
  have hwritten : k3.mem (pte2pa (leaf k.mem r (dstva / 4096))) (dstva % 4096) = b := by
    rcases hd.bytes with ⟨hcow, hne, -⟩ | ⟨-, hl, rfl⟩
    · exact absurd ⟨Or.inr hcow, fun _ _ => List.length_pos_of_ne_nil hne⟩ hmay
    · rw [hback _ hau (by omega) _ (by rw [hl]; exact hm)]
      exact Memory.putBytes_self_of_mem _ _ _ _ (k := 0) (by simp)
  by_cases hwr : pteWritable (leaf k.mem r (dstva / 4096)) = true ∨
      pteCow (leaf k.mem r (dstva / 4096)) = true
  · obtain ⟨-, hread⟩ : pteCow (leaf k.mem r (dstva / 4096)) = true ∧
        OtherReads k roots r (pte2pa (leaf k.mem r (dstva / 4096))) := by
      by_contra hno
      exact hmay ⟨hwr, fun h1 h2 => absurd ⟨h1, h2⟩ hno⟩
    exact hb (hwritten.symm.trans (hap.others _ hread _ hoff))
  · simp only [not_or, Bool.not_eq_true] at hwr
    exact hb (hwritten.symm.trans (hap.own _ hau _ hm hwr.1 hwr.2 _ hoff))

/-- Where the condition fails, some bytes get through. -/
theorem copyoutLoop_breach (hfuel : len ≤ fuel) (hbad : ¬ Safe k roots r dstva len) :
    ∃ src, src.length = len ∧ Ensures (copyoutLoop L r sz fuel dstva src killed)
      (fun _ k' => ¬ Apart L k k' roots r) k := by
  induction fuel generalizing k dstva len killed with
  | zero =>
    refine absurd ?_ hbad
    intro v hv
    have := hv.1
    omega
  | succ fuel ih =>
    have hlen : 0 < len := by
      by_contra h0
      exact hbad fun v hv => absurd hv.1 h0
    have ho : Open k r (dstva / 4096) := by
      by_contra hno
      exact hbad fun v hv => absurd (hv.2.2.2 _ le_rfl hv.2.1) hno
    by_cases hmay : MayWrite k roots r (dstva / 4096) k.freelist.length
    · -- the first page is harmless, so the breach comes later
      have hau := (ho.lt hs).trans_le hs.le
      obtain ⟨k2, kd, hd, -, hrun⟩ := copyoutLoop_page h hr hs (hsz _ (ho.lt hs)) ho
        (List.replicate (4096 - dstva % 4096) 0)
      have hbad2 : ¬ Safe k2 roots r ((dstva / 4096 + 1) * 4096)
          (len - (4096 - dstva % 4096)) := by
        intro hsafe2
        exact hbad ((hd.safe_iff hr hs rfl ho hlen).mpr ⟨hmay, hsafe2⟩)
      have hlong : 4096 - dstva % 4096 < len := by
        by_contra hle
        refine hbad2 fun v hv => absurd hv.1 ?_
        omega
      obtain ⟨src, hsrc, res, k3, hrun3, hbreach⟩ := @ih k2 _ _ (killed || kd) hd.coherent
        (hs.wrote hd.wrote hr) (by omega) hbad2
      refine ⟨List.replicate (4096 - dstva % 4096) 0 ++ src, by simp [hsrc]; omega, res, k3, ?_, ?_⟩
      · rw [hrun fuel _ killed ?_ ?_, ← hrun3]
        · rw [List.drop_left' (by simp)]
        · apply List.ne_nil_of_length_pos
          simp [hsrc]
          omega
        · rw [List.take_left' (by simp)]
      · intro hap
        exact hbreach (hd.cancel (hd.apart h hr hau ho.2.1 hmay) hap)
    · have hb : k.mem (pte2pa (leaf k.mem r (dstva / 4096))) (dstva % 4096) + 1 ≠
          k.mem (pte2pa (leaf k.mem r (dstva / 4096))) (dstva % 4096) := by simp
      exact ⟨_ :: List.replicate (len - 1) 0, by simp; omega,
        copyoutLoop_breach_here h hr hs hsz ho _ hb hmay⟩

end Loop

/-! ## The processes -/

/-- What a call of `copyout` for the process `p` must leave alone: every byte that another
process can load, every page that `p` maps neither writable nor copy-on-write, and the
trampoline, which is mapped read-only in every table. -/
structure Isolated (L : Layout) (s : System) (p : Proc) (k' : Kernel) : Prop where
  others : ∀ p' ∈ s.procs, p'.pagetable ≠ p.pagetable → ∀ va b,
    userLoad s.kernel p'.pagetable va = some b → userLoad k' p'.pagetable va = some b
  own : ∀ x < npagesOf p.sz, ∀ q, Maps (leaf s.kernel.mem p.pagetable x) q →
    pteWritable (leaf s.kernel.mem p.pagetable x) = false →
    pteCow (leaf s.kernel.mem p.pagetable x) = false → ∀ o < 4096, k'.mem q o = s.kernel.mem q o
  trampoline : k'.mem L.trampoline = s.kernel.mem L.trampoline

variable {s : System} {p : Proc} {leak : ℕ → ℕ}

theorem isolated_iff (hinv : Inv L s.kernel s.procs s.buffers leak) (hp : p ∈ s.procs)
    (hw : Wrote s.kernel k' (rootsOf s.procs) held p.pagetable)
    (hout : k'.mem L.trampoline = s.kernel.mem L.trampoline) :
    Isolated L s p k' ↔ Apart L s.kernel k' (rootsOf s.procs) p.pagetable := by
  constructor
  · intro hi
    refine ⟨?_, ?_⟩
    · rintro q ⟨r, hr, hne, x, hx, hq, huser, hread⟩ o ho
      obtain ⟨p', hp', rfl⟩ := exists_of_mem_rootsOf hr
      have hva : x * 4096 + o < maxva := by
        rw [maxva_eq]
        unfold userVpns at hx
        omega
      have hdiv : (x * 4096 + o) / 4096 = x := by omega
      have hmod : (x * 4096 + o) % 4096 = o := by omega
      have hleaf := hw.other _ hr x (hx.trans userVpns_lt) (Or.inl hne)
      have hload : userLoad s.kernel p'.pagetable (x * 4096 + o) = some (s.kernel.mem q o) := by
        rw [userLoad_eq_some]
        simp only [translate, hva, hdiv, hmod, if_true]
        exact ⟨hq.1, huser, hread, by rw [hq.2]⟩
      have hload' := userLoad_eq_some.mp (hi.others p' hp' hne _ _ hload)
      simp only [translate, hva, hdiv, hmod, if_true, hleaf, hq.2] at hload'
      exact hload'.2.2.2
    · intro x hx q hq
      refine hi.own x ?_ q hq
      have hs := hinv.shape p hp
      rcases (hs.valid x (hx.trans userVpns_lt)).mp hq.1 with hlt | hT
      · exact hlt
      · have := (hs.above x hT).1
        omega
  · intro hap
    refine ⟨?_, ?_, hout⟩
    · intro p' hp' hne va b hload
      obtain ⟨hv, hu, hrd, hb⟩ := userLoad_eq_some.mp hload
      have hs := hinv.shape p' hp'
      obtain ⟨heq, hlt⟩ := translate_of_valid hs hv hu
      have hxu := hlt.trans_le hs.le
      have hleaf := hw.other _ (mem_rootsOf hp') _ (hxu.trans userVpns_lt) (Or.inl hne)
      have htr : translate k' p'.pagetable va = translate s.kernel p'.pagetable va := by
        unfold translate
        rw [hleaf]
      rw [userLoad_eq_some, htr]
      refine ⟨hv, hu, hrd, ?_⟩
      rw [hap.others _ ⟨_, mem_rootsOf hp', hne, va / 4096, hxu, ?_, ?_, ?_⟩ _
        (Nat.mod_lt _ (by decide))]
      · exact hb
      · exact ⟨heq ▸ hv, by rw [heq]⟩
      · exact heq ▸ hu
      · exact heq ▸ hrd
    · exact fun x hx => hap.own x (hx.trans_le (hinv.shape p hp).le)

/-- In every state of every run, `copyout` keeps processes apart whatever the bytes exactly
under the condition `Safe`. -/
theorem copyout_isolates_iff (L : Layout) (m : Memory) (ops : List Op) :
    ∃ os s, boot L m ops = .ok (os, s) ∧ ∀ p ∈ s.procs, ∀ dstva len,
      ((∀ src : List Byte, src.length = len → ∃ res k',
          copyout L p.pagetable p.sz dstva src s.kernel = .ok (res, k') ∧ Isolated L s p k') ↔
        Safe s.kernel (rootsOf s.procs) p.pagetable dstva len) := by
  obtain ⟨os, s, hrun, leak, hinv, -⟩ := boot_run L m ops
  refine ⟨os, s, hrun, fun p hp dstva len => ?_⟩
  have hr := mem_rootsOf hp
  have hs := hinv.shape p hp
  have hsz : ∀ x < npagesOf p.sz, x * 4096 < p.sz := by
    intro x hx
    unfold npagesOf at hx
    omega
  have htr : ¬ IsPage L L.trampoline := by
    rintro ⟨-, h2, -⟩
    have := L.trampoline_lt_end
    omega
  have hiff : ∀ {src res k'}, copyout L p.pagetable p.sz dstva src s.kernel = .ok (res, k') →
      (Isolated L s p k' ↔ Apart L s.kernel k' (rootsOf s.procs) p.pagetable) := by
    intro src res k' hcopy
    have hw := ((copyout_spec hinv.coherent hr hs).unique hcopy).2.2
    have hf := (copyoutLoop_frame hinv.coherent hr hs hsz).unique hcopy
    exact isolated_iff hinv hp hw (hf.2 _ htr)
  constructor
  · intro hall
    by_contra hbad
    obtain ⟨src, hlen, hbreach⟩ : ∃ src : List Byte, src.length = len ∧
        Ensures (copyoutLoop L p.pagetable p.sz len dstva src false)
          (fun _ k' => ¬ Apart L s.kernel k' (rootsOf s.procs) p.pagetable) s.kernel :=
      copyoutLoop_breach hinv.coherent hr hs hsz le_rfl hbad
    obtain ⟨res, k', hcopy, hi⟩ := hall src hlen
    have hcopy' := hcopy
    unfold copyout at hcopy'
    rw [hlen] at hcopy'
    exact hbreach.unique hcopy' ((hiff hcopy).mp hi)
  · intro hsafe src hlen
    obtain ⟨res, k', hcopy, hap⟩ : Ensures (copyout L p.pagetable p.sz dstva src)
        (fun _ k' => Apart L s.kernel k' (rootsOf s.procs) p.pagetable) s.kernel :=
      copyoutLoop_apart hinv.coherent hr hs hsz le_rfl (by rw [hlen]; exact hsafe)
    exact ⟨res, k', hcopy, (hiff hcopy).mpr hap⟩

/-- Without memory the parent's `copyout` reaches the child: the byte that the child loads
from its first page becomes the byte that was copied out. -/
theorem copyout_breaks_isolation :
    ∃ os s p p' res k', boot smallLayout (fun _ _ => 0) exhaust = .ok (os, s) ∧
      p ∈ s.procs ∧ p' ∈ s.procs ∧ p'.pagetable ≠ p.pagetable ∧
      copyout smallLayout p.pagetable p.sz 0 [1] s.kernel = .ok (res, k') ∧
      userLoad s.kernel p'.pagetable 0 = some 0x17 ∧ userLoad k' p'.pagetable 0 = some 1 ∧
      ¬ Isolated smallLayout s p k' := by
  obtain ⟨os, s, hrun, leak, hinv, -⟩ := boot_run smallLayout (fun _ _ => 0) exhaust
  have heval : ((boot smallLayout (fun _ _ => 0) exhaust).toOption.any fun x =>
      x.2.procs.head?.any fun p => x.2.procs.tail.head?.any fun p' =>
        decide (p'.pagetable ≠ p.pagetable ∧ userLoad x.2.kernel p'.pagetable 0 = some 0x17) &&
        (copyout smallLayout p.pagetable p.sz 0 [1] x.2.kernel).toOption.any fun y =>
          decide (userLoad y.2 p'.pagetable 0 = some 1)) = true := by
    decide +kernel
  rw [hrun] at heval
  obtain ⟨k, procs, buffers, copyFailed⟩ := s
  cases procs with
  | nil => cases heval
  | cons p rest =>
    cases rest with
    | nil => cases heval
    | cons p' rest =>
      obtain ⟨hbefore, hafter⟩ := Bool.and_eq_true_iff.mp heval
      obtain ⟨hne, hold⟩ := of_decide_eq_true hbefore
      dsimp only at hafter hold
      cases hcopy : copyout smallLayout p.pagetable p.sz 0 [1] k with
      | error e =>
        rw [hcopy] at hafter
        cases hafter
      | ok r =>
        rw [hcopy] at hafter
        have hnew : userLoad r.2 p'.pagetable 0 = some 1 := of_decide_eq_true hafter
        refine ⟨os, _, p, p', r.1, r.2, hrun, by simp, by simp, hne, hcopy, hold, hnew,
          fun hi => ?_⟩
        have := hi.others p' (by simp) hne 0 _ hold
        rw [hnew] at this
        simp at this

end XV6AndConcurrency.VirtualMemory
