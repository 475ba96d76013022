import XV6AndConcurrency.VirtualMemory.UserBytes
import XV6AndConcurrency.VirtualMemory.UserReads

/-!
# Writing user memory

`copyout` to pages that the user may write, or of which it gets a copy first, and what the user
and `copyin` find there afterwards.
-/

namespace XV6AndConcurrency.VirtualMemory

open Foundations

variable {L : Layout} {k k' : Kernel} {roots : Finset ℕ} {held : ℕ → ℕ}
  {r n sz dstva fuel len v va : ℕ} {T : Finset ℕ} {src : List Byte} {killed : Bool}

/-- The user may write the page `v`, if need be after a copy. -/
def MayStore (k : Kernel) (r v : ℕ) : Prop :=
  Open k r v ∧ (pteWritable (leaf k.mem r v) = true ∨ pteCow (leaf k.mem r v) = true)

/-- `kalloc` has a page whenever `copyout` asks for one. -/
def Served (k : Kernel) (r dstva len : ℕ) : Prop :=
  ∀ v, InRange dstva len v → pteCow (leaf k.mem r v) = true →
    taken k r (dstva / 4096) v < k.freelist.length

/-- The byte that the user sees is the one that `copyin` reads. -/
theorem userByte_eq_userLoad (h : Coherent L k roots held) (hr : r ∈ roots)
    (hs : Shape k.mem r n T) : userByte k r = userLoad k r := by
  funext va
  unfold userByte userLoad translate
  split_ifs with hva
  · have hvl := lt_vpnLimit_of_lt_maxva hva
    by_cases hopen : pteValid (leaf k.mem r (va / 4096)) = true ∧
        pteUser (leaf k.mem r (va / 4096)) = true
    · obtain ⟨hval, huser⟩ := hopen
      have hlt := (hs.lt_of_user hvl hval huser).trans_le hs.le
      have hpos := (h.isPage_of_mapped (mapCount_pos hr hlt ⟨hval, rfl⟩)).pos
      have hread := hs.readable _ hvl hval
      have hpage : userPage (leaf k.mem r (va / 4096)) =
          some (pte2pa (leaf k.mem r (va / 4096))) := if_pos ⟨hval, huser, by omega⟩
      simp [hpage, hval, huser, hread]
    · have hnone : userPage (leaf k.mem r (va / 4096)) = none :=
        if_neg fun hc => hopen ⟨hc.1, hc.2.1⟩
      rw [hnone]
      have hfalse : (pteValid (leaf k.mem r (va / 4096)) &&
          pteUser (leaf k.mem r (va / 4096))) = false := by simpa using hopen
      simp [hfalse]
  · simp

/-- A round that makes a copy leaves a writable page. -/
theorem copyoutLoop_round (h : Coherent L k roots held) (hr : r ∈ roots) (hs : Shape k.mem r n T)
    (hsz : dstva / 4096 * 4096 < sz) (ho : Open k r (dstva / 4096)) (hsrc : src ≠ [])
    (hcow : pteCow (leaf k.mem r (dstva / 4096)) = true) (hne : k.freelist ≠ []) :
    Ensures (copyoutLoop L r sz 1 dstva src killed)
      (fun _ k' => pteWritable (leaf k'.mem r (dstva / 4096)) = true) k := by
  have hlt := (ho.lt hs).trans_le hs.le
  obtain ⟨hmax, hval, huser⟩ := ho
  obtain ⟨p, next, hfl⟩ := List.exists_cons_of_ne_nil hne
  obtain ⟨t, ht, hrun⟩ := copyoutCow_resolve h.toBalanced hr hlt hval hcow hsz hfl
  obtain ⟨hc1, hown, hmp, -⟩ := wrote_resolve h hr hlt ht hval hcow hfl
  have hdown : pgrounddown dstva = dstva / 4096 * 4096 := rfl
  have hdiv : dstva / 4096 * 4096 / 4096 = dstva / 4096 := by omega
  have hpos := (h.isPage_of_mapped (mapCount_pos hr hlt ⟨hval, rfl⟩)).pos
  have hpage : userPage (leaf k.mem r (dstva / 4096)) =
      some (pte2pa (leaf k.mem r (dstva / 4096))) := if_pos ⟨hval, huser, by omega⟩
  unfold copyoutLoop
  rw [if_neg hsrc, hdown]
  refine .bind_of_run (walkaddr_run _ _ k) ?_
  rw [hdiv, if_pos hmax, hpage]
  refine .bind_of_run hrun (.modify_bind (.of_pure ?_))
  obtain ⟨-, hleaves, -⟩ := wrote_page hc1 hr hlt hmp (m := Memory.putBytes _ p
    (dstva - dstva / 4096 * 4096) (src.take (pgsize - (dstva - dstva / 4096 * 4096))))
    fun q hq => Memory.putBytes_of_ne _ _ _ _ _ hq
  rw [hleaves r hr _ (hlt.trans userVpns_lt), hown]
  exact resolvedPte_writable _ _

/-- The range that is left after the first page. -/
theorem inRange_next (hlen : 0 < len) : InRange dstva len v ↔ v = dstva / 4096 ∨
    InRange ((dstva / 4096 + 1) * 4096) (len - (4096 - dstva % 4096)) v := by
  unfold InRange
  omega

/-- A page that was writable stays so, and a copy is writable. -/
theorem Wrote.writable (hw : Wrote k k' roots held r) (hv : v < userVpns)
    (h : pteWritable (leaf k.mem r v) = true) : pteWritable (leaf k'.mem r v) = true := by
  rcases hw.own v hv with he | ⟨-, hwr⟩
  · rwa [he]
  · exact hwr

/-- Every page of the range is writable in the end. -/
theorem copyoutLoop_writable (h : Coherent L k roots held) (hr : r ∈ roots)
    (hs : Shape k.mem r n T) (hsz : ∀ v, InRange dstva src.length v → v * 4096 < sz)
    (hmay : ∀ v, InRange dstva src.length v → MayStore k r v)
    (hserved : Served k r dstva src.length) (hfuel : src.length ≤ fuel) :
    Ensures (copyoutLoop L r sz fuel dstva src killed) (fun _ k' =>
      ∀ v, InRange dstva src.length v → pteWritable (leaf k'.mem r v) = true) k := by
  induction fuel generalizing k dstva src killed with
  | zero =>
    obtain rfl := List.eq_nil_of_length_eq_zero (Nat.le_zero.mp hfuel)
    exact .of_run copyoutLoop_nil fun v hv => absurd hv.1 (Nat.lt_irrefl 0)
  | succ fuel ih =>
    by_cases hsrc : src = []
    · subst hsrc
      exact .of_run copyoutLoop_nil fun v hv => absurd hv.1 (Nat.lt_irrefl 0)
    have hpos := List.length_pos_of_ne_nil hsrc
    have hfirst := (@inRange_next dstva src.length (dstva / 4096) hpos).mpr (.inl rfl)
    have hrest := fun v hv => (@inRange_next dstva src.length v hpos).mpr (.inr hv)
    obtain ⟨ho, hstore⟩ := hmay _ hfirst
    have hlt := (ho.lt hs).trans_le hs.le
    obtain ⟨k2, kd, hd, -, hrun⟩ := copyoutLoop_page h hr hs (hsz _ hfirst) ho
      (src.take (4096 - dstva % 4096))
    have hdrop : (src.drop (4096 - dstva % 4096)).length =
        src.length - (4096 - dstva % 4096) := List.length_drop
    -- the first page
    have hwr : pteWritable (leaf k2.mem r (dstva / 4096)) = true := by
      by_cases hcow : pteCow (leaf k.mem r (dstva / 4096)) = true
      · have hne : k.freelist ≠ [] := List.ne_nil_of_length_pos
          ((Nat.zero_le _).trans_lt (hserved _ hfirst hcow))
        obtain ⟨res, k3, hround, hw⟩ := @copyoutLoop_round _ _ _ _ _ _ _ _ _ _ killed h hr hs
          (hsz _ hfirst) ho hsrc hcow hne
        have hsame := hrun 0 src killed hsrc rfl
        rw [Nat.zero_add, hround, copyoutLoop] at hsame
        obtain rfl : k3 = k2 := congrArg Prod.snd (Except.ok.inj hsame)
        exact hw
      · exact hd.wrote.writable hlt (hstore.resolve_right hcow)
    -- the others
    have hlater : ∀ v, InRange ((dstva / 4096 + 1) * 4096)
        (src.drop (4096 - dstva % 4096)).length v → InRange dstva src.length v ∧
          dstva / 4096 < v := by
      intro v hv
      rw [hdrop] at hv
      refine ⟨hrest v hv, ?_⟩
      have := hv.2.1
      omega
    have hmay2 : ∀ v, InRange ((dstva / 4096 + 1) * 4096)
        (src.drop (4096 - dstva % 4096)).length v → MayStore k2 r v := by
      intro v hv
      obtain ⟨hv1, hlt1⟩ := hlater v hv
      obtain ⟨hov, hsv⟩ := hmay v hv1
      refine ⟨(hd.open_iff hr (by omega)).mpr hov, ?_⟩
      rwa [hd.later v ((hov.lt hs).trans_le hs.le) (by omega)]
    have hserved2 : Served k2 r ((dstva / 4096 + 1) * 4096)
        (src.drop (4096 - dstva % 4096)).length := by
      intro v hv hcow
      obtain ⟨hv1, hlt1⟩ := hlater v hv
      have hvu := ((hmay v hv1).1.lt hs).trans_le hs.le
      rw [hd.later v hvu (by omega)] at hcow
      have hbetween : ∀ u, dstva / 4096 < u → u < v → pteValid (leaf k.mem r u) = true := by
        intro u hu1 hu2
        refine (hmay u ?_).1.2.1
        unfold InRange at hv1 ⊢
        omega
      have hroom := hd.room_eq hlt1 hvu hbetween
      have hfree := hserved v hv1 hcow
      rw [Nat.mul_div_cancel _ (by decide)]
      omega
    obtain ⟨res, k3, hrun3, hall⟩ := @ih k2 ((dstva / 4096 + 1) * 4096)
      (src.drop (4096 - dstva % 4096)) (killed || kd) hd.coherent (hs.wrote hd.wrote hr)
      (fun v hv => hsz v (hlater v hv).1) hmay2 hserved2 (by rw [hdrop]; omega)
    refine ⟨res, k3, (hrun fuel src killed hsrc rfl).trans hrun3, fun v hv => ?_⟩
    rcases (inRange_next hpos).mp hv with rfl | hv
    · obtain ⟨-, hw3⟩ := (copyoutLoop_spec hd.coherent hr (hs.wrote hd.wrote hr)).unique hrun3
      exact hw3.writable hlt hwr
    · exact hall v (by rwa [hdrop])

/-! ## What is delivered -/

/-- Everything in front of the first page that is not open. -/
theorem delivered_eq {m : ℕ} (hm : m < n) (hopen : ∀ i < m, Open k r ((va + i) / 4096))
    (hstop : ¬ Open k r ((va + m) / 4096)) : delivered k r va n = m := by
  induction m generalizing va n with
  | zero => exact (delivered_eq_zero_iff hm).mpr hstop
  | succ m ih =>
    obtain ⟨n, rfl⟩ : ∃ j, n = j + 1 := ⟨n - 1, by omega⟩
    obtain ⟨h0, hnext⟩ := (forall_shift (P := fun x => Open k r (x / 4096))).mp hopen
    rw [delivered, if_pos h0, ih (by omega) hnext]
    rwa [Nat.add_assoc, Nat.add_comm 1]

/-- Reading back what was written. -/
theorem readFrom_overlay (f : ℕ → Option Byte) (a : ℕ) (bs : List Byte) :
    readFrom (overlay f a bs) a bs.length = (true, bs) := by
  have hget : ∀ i < bs.length, overlay f a bs (a + i) =
      some ((fun x => bs.getD (x - a) 0) (a + i)) := by
    intro i hi
    rw [overlay, if_pos (by omega), Nat.add_sub_cancel_left, List.getElem?_eq_getElem hi]
    simp [hi]
  rw [readFrom_of_forall (fun x => bs.getD (x - a) 0) hget]
  refine Prod.ext rfl (List.ext_getElem (by simp) fun i hi hi2 => ?_)
  simp [hi2]

/-- `copyout` writes exactly the requested range, or what is in front of its first page that is
not mapped for the user. Only the pages that are mapped for the user have to lie below `sz`. -/
theorem copyout_writes_exactly (h : Coherent L k roots held) (hr : r ∈ roots)
    (hs : Shape k.mem r n T)
    (hsz : ∀ v, InRange dstva src.length v → Open k r v → v * 4096 < sz) :
    ∃ res k', copyout L r sz dstva src k = .ok (res, k') ∧
      ((∀ v, InRange dstva src.length v → MayStore k r v) → Served k r dstva src.length →
        res.1 = true ∧ copyin r dstva src.length k' = .ok ((true, src), k') ∧
        (∀ va, va < dstva ∨ dstva + src.length ≤ va → userByte k' r va = userByte k r va) ∧
        ∀ v, InRange dstva src.length v →
          pteWritable (leaf k'.mem r v) = true ∧ pteCow (leaf k'.mem r v) = false ∧
            ∀ i < 10, i ≠ 2 → i ≠ 8 → pteBit i (leaf k'.mem r v) = pteBit i (leaf k.mem r v)) ∧
      ∀ v, InRange dstva src.length v → ¬ Open k r v →
        (∀ u, InRange dstva src.length u → u < v → Open k r u) →
        res.1 = false ∧
          userByte k' r = overlay (userByte k r) dstva (src.take (v * 4096 - dstva)) := by
  obtain ⟨res, k', hrun, ⟨hc, hs', hw⟩, hret, hopen, hview⟩ :=
    (@copyout_spec L k roots held r n sz T dstva src h hr hs).and
      (copyoutLoop_delivers h hr hs hsz le_rfl)
  rw [← userByte_eq_userLoad h hr hs, ← userByte_eq_userLoad hc hr hs'] at hview
  refine ⟨res, k', hrun, fun hmay hserved => ?_, fun v hv hclosed hfirst => ?_⟩
  · have hall : delivered k r dstva src.length = src.length := by
      refine delivered_eq_iff.mpr fun i hi => (hmay _ ⟨by omega, ?_, ?_⟩).1
      · exact Nat.div_le_div_right (Nat.le_add_right _ _)
      · omega
    rw [hall, List.take_length] at hview
    refine ⟨hret.mpr hall, ?_, fun va hva => ?_, fun v hv => ?_⟩
    · rw [copyin, copyinLoop_eq le_rfl, hview, readFrom_overlay]
      rfl
    · rw [hview, overlay_of_not_mem _ hva]
    · have hwr := (copyoutLoop_writable h hr hs (fun u hu => hsz u hu (hmay u hu).1) hmay hserved
        le_rfl).unique hrun v hv
      have hov := (hmay v hv).1
      have hlt := (hov.lt hs).trans_le hs.le
      have hval := ((hopen v).mpr hov).2.1
      exact ⟨hwr, (hc.sharing.exclusive hr hlt ⟨hval, rfl⟩ hwr).1,
        (hw.access hr hr (hlt.trans userVpns_lt)).bits⟩
  · have hcount : delivered k r dstva src.length = v * 4096 - dstva := by
      unfold InRange at hv hfirst
      refine delivered_eq (by omega) (fun i hi => hfirst _ (by omega) (by omega)) ?_
      have hpage : (dstva + (v * 4096 - dstva)) / 4096 = v := by omega
      rwa [hpage]
    have hlt : v * 4096 - dstva < src.length := by
      unfold InRange at hv
      omega
    refine ⟨?_, by rw [hview, hcount]⟩
    by_contra hok
    have := hret.mp (by simpa using hok)
    omega

/-- After a fork the parent's page is shared, and `copyout` gets it a copy; of two bytes over
its end it writes the first. -/
theorem copyout_writes_exactly_after_fork :
    ∃ os s p res k', boot smallLayout (fun _ _ => 0) [.userinit, .fork 0] = .ok (os, s) ∧
      p ∈ s.procs ∧ pteCow (leaf s.kernel.mem p.pagetable 0) = true ∧
      (copyout smallLayout p.pagetable p.sz 0 [1] s.kernel = .ok (res, k') ∧
        copyin p.pagetable 0 1 k' = .ok ((true, [1]), k')) ∧
      ∃ res k', copyout smallLayout p.pagetable p.sz 4095 [1, 2] s.kernel = .ok (res, k') ∧
        res.1 = false ∧
          userByte k' p.pagetable = overlay (userByte s.kernel p.pagetable) 4095 [1] := by
  obtain ⟨os, s, hrun, leak, hinv, -⟩ := boot_run smallLayout (fun _ _ => 0) [.userinit, .fork 0]
  have heval : ((boot smallLayout (fun _ _ => 0) [.userinit, .fork 0]).toOption.any fun x =>
      x.2.procs.head?.any fun p => decide (Open x.2.kernel p.pagetable 0 ∧
        ¬ Open x.2.kernel p.pagetable 1 ∧ pteCow (leaf x.2.kernel.mem p.pagetable 0) = true ∧
          0 < p.sz ∧ 0 < x.2.kernel.freelist.length)) = true := by
    decide +kernel
  rw [hrun] at heval
  obtain ⟨k, procs, buffers, copyFailed⟩ := s
  cases procs with
  | nil => cases heval
  | cons p rest =>
    have hp : p ∈ p :: rest := List.mem_cons_self
    obtain ⟨hopen, hclosed, hcow, hsz, hfree⟩ := of_decide_eq_true heval
    have hzero : ∀ v, InRange 0 [(1 : Byte)].length v → v = 0 := by
      intro v hv
      unfold InRange at hv
      simp only [List.length_singleton] at hv
      omega
    have htwo : ∀ v, InRange 4095 [(1 : Byte), 2].length v ↔ v = 0 ∨ v = 1 := by
      intro v
      unfold InRange
      simp only [List.length_cons, List.length_nil]
      omega
    have hbelow : ∀ v, v = 0 ∨ v = 1 → Open k p.pagetable v → v * 4096 < p.sz := by
      rintro v (rfl | rfl) hv
      · simpa using hsz
      · exact absurd hv hclosed
    obtain ⟨res, k', hcopy, hwrites, -⟩ := @copyout_writes_exactly smallLayout k _ _ p.pagetable
      _ p.sz 0 topVpns [1] hinv.coherent (mem_rootsOf hp) (hinv.shape p hp)
      fun v hv => hbelow v (.inl (hzero v hv))
    obtain ⟨-, hread, -⟩ := hwrites
      (fun v hv => by rw [hzero v hv]; exact ⟨hopen, .inr hcow⟩)
      (fun v hv _ => by rw [hzero v hv]; simpa [taken] using hfree)
    obtain ⟨res2, k2, hcopy2, -, hstops⟩ := @copyout_writes_exactly smallLayout k _ _ p.pagetable
      _ p.sz 4095 topVpns [1, 2] hinv.coherent (mem_rootsOf hp) (hinv.shape p hp)
      fun v hv => hbelow v ((htwo v).mp hv)
    obtain ⟨hfails, hbytes⟩ := hstops 1 ((htwo 1).mpr (.inr rfl)) hclosed fun u hu hlt => by
      rw [Nat.lt_one_iff.mp hlt]
      exact hopen
    exact ⟨os, _, p, res, k', hrun, hp, hcow, ⟨hcopy, hread⟩, res2, k2, hcopy2, hfails, hbytes⟩

end XV6AndConcurrency.VirtualMemory
