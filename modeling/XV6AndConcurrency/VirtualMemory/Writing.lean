import XV6AndConcurrency.VirtualMemory.Resolving

/-!
# Specification of copyout

`copyout` goes through the pages of the destination. Whatever branch it takes, an entry
it changes maps a page that is now the process's own, and a page that the process does
not map keeps its bytes. It does not say that a shared page keeps them, and it does not.
-/

namespace XV6AndConcurrency.VirtualMemory

open Foundations

variable {L : Layout} {k k' k'' : Kernel} {roots : Finset ℕ} {held : ℕ → ℕ} {r v n p q va sz : ℕ}
  {T : Finset ℕ} {w : Pte}

/-- The page `walkaddr` returns for an entry. -/
def userPage (w : Pte) : Option ℕ :=
  if pteValid w = true ∧ pteUser w = true ∧ pte2pa w ≠ 0 then some (pte2pa w) else none

theorem walkaddr_run (r va : ℕ) (k : Kernel) : walkaddr r va k =
    .ok (if va < maxva then userPage (leaf k.mem r (va / 4096)) else none, k) := by
  unfold walkaddr
  by_cases hva : maxva ≤ va
  · rw [if_pos hva, if_neg (by omega)]
    rfl
  · have hva' : va < maxva := by omega
    rw [if_neg hva, if_pos hva']
    simp only [bind_run, walk_false_run hva', ok_bind, leafRef]
    cases ht : leafTable k.mem r (va / 4096) with
    | none => simp [leaf, ht, userPage]
    | some t =>
      have hw : k.mem.word t (vpn0 (va / 4096)) = leaf k.mem r (va / 4096) := by rw [leaf, ht]
      simp only [Option.map_some, bind_run, readPte, look_run, ok_bind, hw]
      generalize leaf k.mem r (va / 4096) = w
      by_cases h0 : pteValid w = true
      · by_cases h4 : pteUser w = true
        · by_cases hp : pte2pa w = 0
          · simp [userPage, h0, h4, hp]
          · simp [userPage, h0, h4, hp]
        · simp [userPage, h0, h4]
      · simp [userPage, h0]

theorem userPage_eq_some (h : userPage w = some p) :
    pteValid w = true ∧ pteUser w = true ∧ pte2pa w = p := by
  unfold userPage at h
  split_ifs at h with hc
  exact ⟨hc.1, hc.2.1, by simpa using h⟩

/-- What a kernel write through the table of `r` leaves of everything else. -/
structure Wrote (k k' : Kernel) (roots : Finset ℕ) (held : ℕ → ℕ) (r : ℕ) : Prop where
  other : ∀ s ∈ roots, ∀ x < vpnLimit, s ≠ r ∨ userVpns ≤ x → leaf k'.mem s x = leaf k.mem s x
  own : ∀ x < userVpns, leaf k'.mem r x = leaf k.mem r x ∨
    SameAccess (leaf k.mem r x) (leaf k'.mem r x) ∧ pteWritable (leaf k'.mem r x) = true
  bytes : ∀ q, (0 < held q ∨ ∃ s ∈ roots, s ≠ r ∧ ∃ y < userVpns, Maps (leaf k.mem s y) q) →
    (∀ y < userVpns, ¬ Maps (leaf k.mem r y) q) → k'.mem q = k.mem q

namespace Wrote

theorem refl : Wrote k k roots held r :=
  ⟨fun _ _ _ _ _ => rfl, fun _ _ => Or.inl rfl, fun _ _ _ => rfl⟩

theorem access (h : Wrote k k' roots held r) (hr : r ∈ roots) {s x : ℕ} (hs : s ∈ roots)
    (hx : x < vpnLimit) : SameAccess (leaf k.mem s x) (leaf k'.mem s x) := by
  by_cases hsx : s ≠ r ∨ userVpns ≤ x
  · exact (Alike.of_eq (h.other s hs x hx hsx)).toSameAccess
  · push Not at hsx
    obtain ⟨rfl, hxu⟩ := hsx
    rcases h.own x hxu with he | ⟨ha, -⟩
    · exact (Alike.of_eq he).toSameAccess
    · exact ha

theorem trans (hc : Coherent L k' roots held) (hr : r ∈ roots) (h : Wrote k k' roots held r)
    (h' : Wrote k' k'' roots held r) : Wrote k k'' roots held r where
  other s hs x hx hsx := (h'.other s hs x hx hsx).trans (h.other s hs x hx hsx)
  own x hx := by
    rcases h'.own x hx with he | ⟨ha, hw⟩
    · rw [he]
      exact h.own x hx
    · exact Or.inr ⟨(h.access hr hr (hx.trans userVpns_lt)).trans ha, hw⟩
  bytes q hq hno := by
    have hq' : 0 < held q ∨ ∃ s ∈ roots, s ≠ r ∧ ∃ y < userVpns, Maps (leaf k'.mem s y) q := by
      rcases hq with hq | ⟨s, hs, hsr, y, hy, hm⟩
      · exact Or.inl hq
      · refine Or.inr ⟨s, hs, hsr, y, hy, ?_⟩
        rwa [h.other s hs y (hy.trans userVpns_lt) (Or.inl hsr)]
    -- an entry that changed maps a page of its own
    have hno' : ∀ y < userVpns, ¬ Maps (leaf k'.mem r y) q := by
      intro y hy hm
      rcases h.own y hy with he | ⟨-, hw⟩
      · rw [he] at hm
        exact hno y hy hm
      · obtain ⟨-, hz, hu⟩ := hc.sharing.exclusive hr hy hm hw
        rcases hq' with hq' | ⟨s, hs, hsr, x, hx, hmx⟩
        · omega
        · exact hsr (hu hs hx hmx).1
    exact (h'.bytes q hq' hno').trans (h.bytes q hq hno)

end Wrote

theorem Shape.wrote (h : Shape k.mem r n T) (hw : Wrote k k' roots held r) (hr : r ∈ roots) :
    Shape k'.mem r n T where
  le := h.le
  above := h.above
  valid x hx := by rw [(hw.access hr hr hx).valid, h.valid x hx]
  readable x hx hv := by
    have ha := hw.access hr hr hx
    rw [ha.valid] at hv
    rw [ha.readable, h.readable x hx hv]
  kernel x hx := by
    obtain ⟨h1, h2⟩ := h.above x hx
    rw [hw.other r hr x h2 (Or.inr h1)]
    exact h.kernel x hx

/-- Bytes written to a page that the process maps. -/
theorem wrote_page (h : Coherent L k roots held) (hr : r ∈ roots) (hv : v < userVpns)
    (hm : Maps (leaf k.mem r v) p) {m : Memory} (hother : ∀ q, q ≠ p → m q = k.mem q) :
    Coherent L (k.setMem m) roots held ∧ SameLeaves k (k.setMem m) roots ∧
      Wrote k (k.setMem m) roots held r := by
  have htab : ∀ t, IsTable k.mem roots t → m t = k.mem t := by
    intro t ht
    apply hother
    rintro rfl
    exact h.not_table_of_mapped (mapCount_pos hr hv hm) ht
  have hl : SameLeaves k (k.setMem m) roots := sameLeaves_of_tables htab
  refine ⟨h.write_data htab, hl, fun s hs x hx _ => hl s hs x hx,
    fun x hx => Or.inl (hl r hr x (hx.trans userVpns_lt)), ?_⟩
  intro q _ hno
  apply hother
  rintro rfl
  exact hno v hv hm

/-- A resolved fault is a write through the table of the process. -/
theorem wrote_resolve {t : ℕ} {next : List ℕ} (h : Coherent L k roots held) (hr : r ∈ roots)
    (hv : v < userVpns) (ht : leafTable k.mem r v = some t)
    (hval : pteValid (leaf k.mem r v) = true) (hcow : pteCow (leaf k.mem r v) = true)
    (hfl : k.freelist = p :: next) :
    let k' := k.resolve t (vpn0 v) p next (pte2pa (leaf k.mem r v)) (leaf k.mem r v)
    Coherent L k' roots held ∧ leaf k'.mem r v = resolvedPte p (leaf k.mem r v) ∧
      Maps (leaf k'.mem r v) p ∧ Wrote k k' roots held r := by
  have hvl := hv.trans userVpns_lt
  obtain ⟨hc1, hl1, hk1, -⟩ := resolve_spec h hr hv ht ⟨hval, rfl⟩ hfl
  have hown : leaf (k.resolve t (vpn0 v) p next (pte2pa (leaf k.mem r v))
      (leaf k.mem r v)).mem r v = resolvedPte p (leaf k.mem r v) := by
    rw [hl1 r hr v hvl, if_pos ⟨rfl, rfl⟩]
  have hpage := ((h.free p).mp (by simp [hfl])).1
  refine ⟨hc1, hown, ?_, ?_, ?_, ?_⟩
  · rw [hown]
    exact resolvedPte_maps hpage hval
  · intro s hs x hx hsx
    rw [hl1 s hs x hx, if_neg (by omega)]
  · intro x hx
    by_cases hxv : x = v
    · subst hxv
      rw [hown]
      exact Or.inr ⟨resolvedPte_access p hcow, resolvedPte_writable p _⟩
    · exact Or.inl (by rw [hl1 r hr x (hx.trans userVpns_lt), if_neg (by omega)])
  · rintro q (hq | ⟨s, hs, hsr, y, hy, hmy⟩) _
    · exact hk1.held q hq
    · exact hk1.bytes s hs y hy (fun hD => hsr hD.1) q hmy

/-- The copy-on-write branch leaves the entry mapping the page the bytes go to. -/
theorem copyoutCow_spec (h : Coherent L k roots held) (hr : r ∈ roots) (hv : v < userVpns)
    (hval : pteValid (leaf k.mem r v) = true) (sz : ℕ) :
    Ensures (copyoutCow L r sz (v * 4096) (pte2pa (leaf k.mem r v))) (fun dst k' =>
      Coherent L k' roots held ∧ Maps (leaf k'.mem r v) dst.1 ∧ Wrote k k' roots held r) k := by
  by_cases hc : v * 4096 < sz ∧ pteCow (leaf k.mem r v) = true ∧ k.freelist ≠ []
  · obtain ⟨hsz, hcow, hne⟩ := hc
    obtain ⟨p, next, hfl⟩ := List.exists_cons_of_ne_nil hne
    obtain ⟨t, ht, hrun⟩ := copyoutCow_resolve h.toBalanced hr hv hval hcow hsz hfl
    obtain ⟨hc1, -, hm1, hw1⟩ := wrote_resolve h hr hv ht hval hcow hfl
    exact .of_run hrun ⟨hc1, hm1, hw1⟩
  · have hva : v * 4096 < maxva := by
      rw [maxva_eq]
      unfold userVpns at hv
      omega
    have hno : v * 4096 < sz → pteCow (leaf k.mem r v) = true → k.freelist = [] := by
      intro h1 h2
      by_contra h3
      exact hc ⟨h1, h2, h3⟩
    exact .of_run (copyoutCow_inplace hva hval hno) ⟨h, ⟨hval, rfl⟩, .refl⟩

/-- A user entry is below the trapframe. -/
theorem Shape.lt_of_user (h : Shape k.mem r n T) (hv : v < vpnLimit)
    (hval : pteValid (leaf k.mem r v) = true) (hu : pteUser (leaf k.mem r v) = true) : v < n := by
  rcases (h.valid v hv).mp hval with hlt | hT
  · exact hlt
  · rw [(h.kernel v hT).1] at hu
    simp at hu

theorem lt_vpnLimit_of_lt_maxva (h : va < maxva) : va / 4096 < vpnLimit := by
  rw [maxva_eq] at h
  unfold vpnLimit
  omega

theorem cowtestH_spec (h : Coherent L k roots held) (hr : r ∈ roots) (hs : Shape k.mem r n T)
    (va : ℕ) : Ensures (cowtestH L r va) (fun ok k' => Coherent L k' roots held ∧
      Wrote k k' roots held r ∧ (ok = false → k' = k)) k := by
  by_cases hc : va < maxva ∧ CowEntry (leaf k.mem r (va / 4096)) ∧ k.freelist ≠ []
  · obtain ⟨hva, hcow, hne⟩ := hc
    obtain ⟨p, next, hfl⟩ := List.exists_cons_of_ne_nil hne
    have hv : va / 4096 < userVpns :=
      (hs.lt_of_user (lt_vpnLimit_of_lt_maxva hva) hcow.2.2 hcow.2.1).trans_le hs.le
    obtain ⟨t, ht, hrun⟩ := cowtestH_resolve h.toBalanced hr hv hcow hfl
    obtain ⟨hc1, -, -, hw1⟩ := wrote_resolve h hr hv ht hcow.2.2 hcow.1 hfl
    exact .of_run hrun ⟨hc1, hw1, by simp⟩
  · refine .of_run (cowtestH_refuse ?_) ⟨h, .refl, fun _ => rfl⟩
    intro h1 h2
    by_contra h3
    exact hc ⟨h1, h2, h3⟩

theorem usertrapStore_spec (h : Coherent L k roots held) (hr : r ∈ roots)
    (hs : Shape k.mem r n T) (sz va : ℕ) :
    Ensures (usertrapStore L r sz va) (fun _ k' =>
      Coherent L k' roots held ∧ Wrote k k' roots held r) k := by
  refine .bind (cowtestH_spec h hr hs va) ?_
  rintro ok k1 ⟨hc1, hw1, -⟩
  exact .of_pure ⟨hc1, hw1⟩

theorem copyoutLoop_spec {fuel dstva : ℕ} {src : List Byte} {killed : Bool}
    (h : Coherent L k roots held) (hr : r ∈ roots) (hs : Shape k.mem r n T) :
    Ensures (copyoutLoop L r sz fuel dstva src killed) (fun _ k' =>
      Coherent L k' roots held ∧ Wrote k k' roots held r) k := by
  induction fuel generalizing k dstva src killed with
  | zero => exact .of_pure ⟨h, .refl⟩
  | succ fuel ih =>
    unfold copyoutLoop
    split_ifs with hsrc
    · exact .of_pure ⟨h, .refl⟩
    · have hva : pgrounddown dstva = dstva / 4096 * 4096 := rfl
      have hdiv : dstva / 4096 * 4096 / 4096 = dstva / 4096 := by omega
      rw [hva]
      refine .bind_of_run (walkaddr_run _ _ k) ?_
      rw [hdiv]
      split_ifs with hmax
      · cases hp : userPage (leaf k.mem r (dstva / 4096)) with
        | none => exact .of_pure ⟨h, .refl⟩
        | some p =>
          obtain ⟨hval, huser, rfl⟩ := userPage_eq_some hp
          have hvl : dstva / 4096 < vpnLimit := by
            rw [← hdiv]
            exact lt_vpnLimit_of_lt_maxva hmax
          have hv : dstva / 4096 < userVpns := (hs.lt_of_user hvl hval huser).trans_le hs.le
          refine .bind (copyoutCow_spec h hr hv hval sz) ?_
          rintro dst k1 ⟨hc1, hm1, hw1⟩
          refine .modify_bind ?_
          obtain ⟨hc2, -, hw2⟩ := wrote_page hc1 hr hv hm1
            (m := k1.mem.putBytes dst.1 (dstva - dstva / 4096 * 4096)
              (src.take (pgsize - (dstva - dstva / 4096 * 4096))))
            fun q hq => Memory.putBytes_of_ne _ _ _ _ _ hq
          have hw12 := hw1.trans hc1 hr hw2
          refine (ih hc2 (hs.wrote hw12 hr)).mono ?_
          rintro _ k3 ⟨hc3, hw3⟩
          exact ⟨hc3, hw12.trans hc2 hr hw3⟩
      · exact .of_pure ⟨h, .refl⟩

theorem copyout_spec {dstva : ℕ} {src : List Byte} (h : Coherent L k roots held) (hr : r ∈ roots)
    (hs : Shape k.mem r n T) :
    Ensures (copyout L r sz dstva src) (fun _ k' =>
      Coherent L k' roots held ∧ Shape k'.mem r n T ∧ Wrote k k' roots held r) k := by
  refine (copyoutLoop_spec h hr hs).mono ?_
  rintro _ k' ⟨hc, hw⟩
  exact ⟨hc, hs.wrote hw hr, hw⟩

end XV6AndConcurrency.VirtualMemory
