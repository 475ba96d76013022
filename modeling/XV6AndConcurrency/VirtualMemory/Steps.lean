import XV6AndConcurrency.VirtualMemory.Invariant

/-!
# Every step keeps the invariant

One case for each kind of step, from the specification of the function it calls, and
the run lemma over any list of steps.
-/

namespace XV6AndConcurrency.VirtualMemory

open Foundations

variable {L : Layout} {k k' : Kernel} {p p' np : Proc} {rest : List Proc} {buffers : List ℕ}
  {leak : ℕ → ℕ} {s s' : System} {i r sz va : ℕ} {α β : Type}

/-- The invariant, with the references that failed copies have left behind. -/
def Sound (L : Layout) (s : System) : Prop :=
  ∃ leak, Inv L s.kernel s.procs s.buffers leak ∧ (s.copyFailed = false → ∀ q, leak q = 0)

/-- What every step establishes. -/
structure After (L : Layout) (s s' : System) : Prop where
  sound : Sound L s'
  lineage : Lineage s.kernel s'.kernel (rootsOf s.procs) (rootsOf s'.procs)
  copyFailed : s'.copyFailed = false → s.copyFailed = false

theorem Lineage.refl {roots : Finset ℕ} : Lineage k k roots roots :=
  .of_slots subset_rfl fun _ _ _ _ => .of_eq rfl

theorem After.refl (h : Sound L s) : After L s s := ⟨h, .refl, id⟩

theorem onKernel_bind {x : KernelM α} {f : α → SystemM β} {P : α → Kernel → Prop}
    {Q : β → System → Prop} (hx : Ensures x P s.kernel)
    (hf : ∀ a k', P a k' → Ensures (f a) Q { s with kernel := k' }) :
    Ensures (onKernel x >>= f) Q s := by
  obtain ⟨a, k', hrun, hp⟩ := hx
  exact .bind_of_run (a := a) (t := { s with kernel := k' }) (by simp [onKernel, hrun])
    (hf a k' hp)

theorem perm_of_getElem? {a : α} {l : List α} (h : l[i]? = some a) :
    l.Perm (a :: l.eraseIdx i) := by
  obtain ⟨hi, rfl⟩ := List.getElem?_eq_some_iff.mp h
  exact (List.getElem_cons_eraseIdx_perm hi).symm

theorem set_perm_of_getElem? {a : α} {l : List α} (h : l[i]? = some a) (b : α) :
    (l.set i b).Perm (b :: l.eraseIdx i) := by
  obtain ⟨hi, -⟩ := List.getElem?_eq_some_iff.mp h
  exact List.set_perm_cons_eraseIdx hi b

/-- A step on process `i`: without one nothing happens. -/
theorem withProc_cases {f : Proc → SystemM Outcome} {Q : Outcome → System → Prop}
    (hnone : s.procs[i]? = none → Q .failed s)
    (hsome : ∀ p, s.procs[i]? = some p → Ensures (f p) Q s) : Ensures (withProc i f) Q s := by
  unfold withProc
  refine .look_bind ?_
  cases hi : s.procs[i]? with
  | none => exact .of_pure (hnone hi)
  | some p => exact hsome p hi

/-- A process that a step is about can be taken to head the list. -/
theorem withProc_spec {f : Proc → SystemM Outcome} (h : Sound L s)
    (hf : ∀ p, s.procs[i]? = some p → ∀ leak,
      Inv L s.kernel (p :: s.procs.eraseIdx i) s.buffers leak →
      (s.copyFailed = false → ∀ q, leak q = 0) → Ensures (f p) (fun _ => After L s) s) :
    Ensures (withProc i f) (fun _ => After L s) s := by
  refine withProc_cases (fun _ => .refl h) fun p hi => ?_
  obtain ⟨leak, hinv, hz⟩ := h
  exact hf p hi leak (hinv.perm (perm_of_getElem? hi)) hz

/-- The state after a step has replaced process `i`. -/
theorem After.of_set (hi : s.procs[i]? = some p) (hz : s.copyFailed = false → ∀ q, leak q = 0)
    (h : Inv L k' (p' :: s.procs.eraseIdx i) s.buffers leak ∧
      Lineage s.kernel k' (rootsOf (p :: s.procs.eraseIdx i))
        (rootsOf (p' :: s.procs.eraseIdx i))) :
    After L s { s with kernel := k', procs := s.procs.set i p' } where
  sound := ⟨leak, h.1.perm (set_perm_of_getElem? hi p').symm, hz⟩
  lineage := by
    rw [rootsOf_perm (perm_of_getElem? hi), rootsOf_perm (set_perm_of_getElem? hi p')]
    exact h.2
  copyFailed := id

/-- The state after a step that has not replaced it. -/
theorem After.of_same (hi : s.procs[i]? = some p) (hz : s.copyFailed = false → ∀ q, leak q = 0)
    (h : Inv L k' (p :: s.procs.eraseIdx i) s.buffers leak ∧
      Lineage s.kernel k' (rootsOf (p :: s.procs.eraseIdx i))
        (rootsOf (p :: s.procs.eraseIdx i))) :
    After L s { s with kernel := k' } where
  sound := ⟨leak, h.1.perm (perm_of_getElem? hi).symm, hz⟩
  lineage := by
    rw [rootsOf_perm (perm_of_getElem? hi)]
    exact h.2
  copyFailed := id

theorem noteKilled_spec {killed : Bool} {Q : Outcome → System → Prop}
    (h : ∀ o, Q o { s with procs := s.procs.set i { p with killed := p.killed || killed } }) :
    Ensures (noteKilled i p killed) Q s :=
  .modify_bind (.of_pure (h _))

/-! ## Buffers -/

/-- A step that leaves every table as it was and may change who holds pages. -/
theorem After.idle {buffers' : List ℕ} {leak' : ℕ → ℕ} {failed : Bool}
    (h : Inv L s.kernel s.procs buffers leak)
    (hc : Coherent L k' (rootsOf s.procs) (heldBy s.procs buffers' leak'))
    (hk : Shares s.kernel k' (rootsOf s.procs) (fun _ => 0) (fun _ _ => False))
    (hz : failed = false → s.copyFailed = false ∧ ∀ q, leak' q = 0) :
    After L s ⟨k', s.procs, buffers', failed⟩ where
  sound := ⟨leak', h.idle hc hk, fun hf => (hz hf).2⟩
  lineage := .of_shares subset_rfl hk
  copyFailed hf := (hz hf).1

theorem step_kalloc (h : Sound L s) : Ensures (step L .kalloc) (fun _ => After L s) s := by
  have hrefl := After.refl h
  obtain ⟨leak, hinv, hz⟩ := h
  unfold step
  refine onKernel_bind (kalloc_coherent hinv.coherent) ?_
  intro res k1 hres
  cases res with
  | none =>
    obtain ⟨rfl, -⟩ := hres
    exact .of_pure hrefl
  | some p =>
    obtain ⟨hc1, -, hk1, -⟩ := hres
    rw [← heldBy_buffer] at hc1
    refine .modify_bind (.of_pure (.idle hinv hc1 ?_ fun hf => ⟨hf, hz hf⟩))
    exact (hk1.weaken_held (by simp)).shares

theorem heldBy_eraseIdx {procs : List Proc} {b : ℕ} (h : buffers[i]? = some b) :
    heldBy procs buffers leak = bump (heldBy procs (buffers.eraseIdx i) leak) b := by
  rw [← heldBy_buffer]
  funext q
  rw [heldBy, heldBy, (perm_of_getElem? h).count_eq]

theorem step_kfree (h : Sound L s) (i : ℕ) :
    Ensures (step L (.kfree i)) (fun _ => After L s) s := by
  have hrefl := After.refl h
  obtain ⟨leak, hinv, hz⟩ := h
  unfold step
  refine .look_bind ?_
  cases hi : s.buffers[i]? with
  | none => exact .of_pure hrefl
  | some p =>
    have hc := hinv.coherent
    rw [heldBy_eraseIdx hi] at hc
    have hrel := hc.release (p := p) (by simp)
    have hk := release_keeps hc.toBalanced (p := p) (by simp) (D := fun _ _ => False)
    rw [drop_bump] at hrel hk
    refine onKernel_bind (.of_run (kfree_run (hc.isPage_of_held (p := p) (by simp)))
      (Q := fun _ k1 => k1 = s.kernel.release p) rfl) ?_
    rintro _ k1 rfl
    refine .modify_bind (.of_pure (.idle hinv hrel ?_ fun hf => ⟨hf, hz hf⟩))
    exact (hk.weaken_held (by simp)).shares

/-! ## Growing and shrinking -/

theorem step_uvmalloc (h : Sound L s) (i newsz flags : ℕ) :
    Ensures (step L (.uvmalloc i newsz flags)) (fun _ => After L s) s := by
  unfold step
  refine withProc_spec h ?_
  intro p hi leak hinv hz
  refine onKernel_bind (uvmalloc_spec hinv.coherent hinv.mem_roots hinv.shape_self
    (permOk_flags2perm flags)) ?_
  rintro sz k1 ⟨hc1, hk1, hres⟩
  unfold noteGrown
  split_ifs with hsz
  · have hs1 : Shape k1.mem p.pagetable (npagesOf p.sz) topVpns := by
      rcases hres with ⟨hmax, hs1, -⟩ | ⟨-, hs1⟩
      · rwa [show p.sz = sz by omega]
      · exact hs1
    exact .of_pure (.of_same hi hz (hinv.regrow hc1 hk1 hs1 (w := 0) (by omega)))
  · rcases hres with ⟨-, hs1, hf1⟩ | ⟨h0, -⟩
    · exact .modify_bind (.of_pure (.of_set hi hz (hinv.regrow hc1 hk1 hs1 hf1)))
    · exact absurd h0 hsz

theorem step_uvmdealloc (h : Sound L s) (i newsz : ℕ) :
    Ensures (step L (.uvmdealloc i newsz)) (fun _ => After L s) s := by
  unfold step
  refine withProc_spec h ?_
  intro p hi leak hinv hz
  refine onKernel_bind (uvmdealloc_spec hinv.coherent hinv.mem_roots hinv.shape_self) ?_
  rintro sz k1 ⟨-, hc1, hs1, hk1⟩
  have hle := hinv.shape_self.le
  have hk2 := hk1.mono (E := fun s x => s = p.pagetable ∧ npagesOf sz ≤ x ∧ x < userVpns)
    (by omega)
  exact .modify_bind (.of_pure (.of_set hi hz (hinv.regrow hc1 hk2 hs1 (w := 0) (by omega))))

theorem step_growproc (h : Sound L s) (i : ℕ) (n : BitVec 32) :
    Ensures (step L (.growproc i n)) (fun _ => After L s) s := by
  unfold step
  refine withProc_spec h ?_
  intro p hi leak hinv hz
  have hlo := n.le_toInt
  have hhi := n.toInt_lt
  refine onKernel_bind (growproc_spec hinv.coherent hinv.mem_roots hinv.shape_self
    (by simpa using hlo) (by simpa using hhi)) ?_
  rintro res k1 ⟨hc1, hs1, hk1, hf1, -⟩
  have hk2 := hk1.mono (E := fun s x => s = p.pagetable ∧
    min (npagesOf res.2) (npagesOf p.sz) ≤ x ∧ x < userVpns) (by omega)
  refine .modify_bind (.of_pure (.of_set hi hz (hinv.regrow hc1 hk2 hs1 (w := pteW) ?_)))
  intro x h1 h2
  exact hf1 x (by omega) h2

/-! ## Reading and writing -/

theorem translate_of_valid {n : ℕ} {T : Finset ℕ} (hs : Shape k.mem r n T)
    (hv : pteValid (translate k r va) = true) (hu : pteUser (translate k r va) = true) :
    translate k r va = leaf k.mem r (va / 4096) ∧ va / 4096 < n := by
  unfold translate at hv hu ⊢
  split_ifs at hv hu ⊢ with hva
  · exact ⟨rfl, hs.lt_of_user (lt_vpnLimit_of_lt_maxva hva) hv hu⟩
  · simp at hv

theorem userLoad_eq_some {va : ℕ} {b : Byte} : userLoad k r va = some b ↔
    pteValid (translate k r va) = true ∧ pteUser (translate k r va) = true ∧
      pteReadable (translate k r va) = true ∧
        k.mem (pte2pa (translate k r va)) (va % 4096) = b := by
  unfold userLoad
  simp only [Option.ite_none_right_eq_some, Bool.and_eq_true, Option.some.injEq]
  tauto

theorem tryStore_spec {roots : Finset ℕ} {held : ℕ → ℕ} {n : ℕ} {T : Finset ℕ}
    (h : Coherent L k roots held) (hr : r ∈ roots) (hs : Shape k.mem r n T) (va : ℕ) (b : Byte) :
    Ensures (tryStore r va b) (fun ok k' => Coherent L k' roots held ∧
      Wrote k k' roots held r ∧ (ok = false → k' = k)) k := by
  unfold tryStore
  refine .look_bind ?_
  split_ifs with hw
  · simp only [Bool.and_eq_true] at hw
    obtain ⟨heq, hlt⟩ := translate_of_valid hs hw.1.1 hw.1.2
    obtain ⟨hc1, -, hw1⟩ := wrote_page h hr (hlt.trans_le hs.le)
      (p := pte2pa (translate k r va)) ⟨heq ▸ hw.1.1, by rw [heq]⟩
      (m := k.mem.putBytes (pte2pa (translate k r va)) (va % 4096) [b])
      fun q hq => Memory.putBytes_of_ne _ _ _ _ _ hq
    exact .modify_bind (.of_pure ⟨hc1, hw1, by simp⟩)
  · exact .of_pure ⟨h, .refl, fun _ => rfl⟩

theorem userStore_spec {roots : Finset ℕ} {held : ℕ → ℕ} {n : ℕ} {T : Finset ℕ}
    (h : Coherent L k roots held) (hr : r ∈ roots) (hs : Shape k.mem r n T) (sz va : ℕ) (b : Byte) :
    Ensures (userStore L r sz va b) (fun _ k' => Coherent L k' roots held ∧
      Wrote k k' roots held r) k := by
  unfold userStore
  refine .bind (tryStore_spec h hr hs va b) ?_
  rintro ok k1 ⟨hc1, hw1, hsame⟩
  split_ifs with hok
  · exact .of_pure ⟨hc1, hw1⟩
  · obtain rfl := hsame (by simpa using hok)
    refine .bind (usertrapStore_spec h hr hs sz va) ?_
    rintro killed k2 ⟨hc2, hw2⟩
    split_ifs
    · exact .of_pure ⟨hc2, hw2⟩
    · refine .bind (tryStore_spec hc2 hr (hs.wrote hw2 hr) va b) ?_
      rintro _ k3 ⟨hc3, hw3, -⟩
      exact .of_pure ⟨hc3, hw2.trans hc2 hr hw3⟩

theorem step_load (h : Sound L s) (i va : ℕ) :
    Ensures (step L (.load i va)) (fun _ => After L s) s := by
  unfold step
  refine withProc_spec h ?_
  intro p hi leak hinv hz
  refine .look_bind ?_
  cases userLoad s.kernel p.pagetable va with
  | none => exact noteKilled_spec fun _ => .of_set hi hz (hinv.wrote hinv.coherent .refl)
  | some b => exact .of_pure (.refl h)

theorem step_store (h : Sound L s) (i va : ℕ) (b : Byte) :
    Ensures (step L (.store i va b)) (fun _ => After L s) s := by
  unfold step
  refine withProc_spec h ?_
  intro p hi leak hinv hz
  refine onKernel_bind (userStore_spec hinv.coherent hinv.mem_roots hinv.shape_self p.sz va b) ?_
  rintro killed k1 ⟨hc1, hw1⟩
  exact noteKilled_spec fun _ => .of_set hi hz (hinv.wrote hc1 hw1)

theorem step_storeFault (h : Sound L s) (i va : ℕ) :
    Ensures (step L (.storeFault i va)) (fun _ => After L s) s := by
  unfold step
  refine withProc_spec h ?_
  intro p hi leak hinv hz
  refine onKernel_bind (usertrapStore_spec hinv.coherent hinv.mem_roots hinv.shape_self p.sz va) ?_
  rintro killed k1 ⟨hc1, hw1⟩
  exact noteKilled_spec fun _ => .of_set hi hz (hinv.wrote hc1 hw1)

theorem step_copyout (h : Sound L s) (i dstva : ℕ) (src : List Byte) :
    Ensures (step L (.copyout i dstva src)) (fun _ => After L s) s := by
  unfold step
  refine withProc_spec h ?_
  intro p hi leak hinv hz
  refine onKernel_bind (copyout_spec hinv.coherent hinv.mem_roots hinv.shape_self) ?_
  rintro res k1 ⟨hc1, -, hw1⟩
  refine .bind (noteKilled_spec (Q := fun _ => After L s)
    fun _ => .of_set hi hz (hinv.wrote hc1 hw1)) ?_
  intro _ s2 h2
  exact .of_pure h2

theorem step_uvmclear (h : Sound L s) (i va : ℕ) :
    Ensures (step L (.uvmclear i va)) (fun _ => After L s) s := by
  unfold step
  refine withProc_spec h ?_
  intro p hi leak hinv hz
  split_ifs with hva
  · have hs := hinv.shape_self
    have hlt : va / 4096 < npagesOf p.sz := by
      unfold npagesOf
      omega
    have hvu := hlt.trans_le hs.le
    refine onKernel_bind (uvmclear_spec hinv.coherent hinv.mem_roots rfl hvu
      ((hs.valid _ (hvu.trans userVpns_lt)).mpr (Or.inl hlt))) ?_
    rintro _ k1 ⟨hc1, hl1, -⟩
    refine .of_pure (.of_same hi hz ⟨hinv.update rfl rfl hc1 ?_ ?_ ?_, ?_⟩)
    · refine hs.clear hvu fun x hx => ?_
      rw [hl1 _ hinv.mem_roots x hx]
      simp
    · intro s hs' x hx
      rw [hl1 s (hinv.rest_subset hs') x hx, if_neg]
      rintro ⟨rfl, -⟩
      exact hinv.not_mem_rest hs'
    · intro x hx q hq
      right
      refine mapCount_pos hinv.mem_roots hx ?_
      rw [hl1 _ hinv.mem_roots x (hx.trans userVpns_lt)] at hq
      split_ifs at hq with hxv
      · rw [hxv.2]
        exact (maps_and_not_pteU _ q).mp hq
      · exact hq
    · refine .of_slots subset_rfl fun s hs' x hx => ?_
      rw [hl1 s hs' x (hx.trans userVpns_lt)]
      split_ifs with hsx
      · rw [hsx.1, hsx.2]
        exact ⟨fun q hq _ => (maps_and_not_pteU _ q).mp hq, by simp⟩
      · exact .of_eq rfl
  · exact .of_pure (.refl h)

/-! ## Processes come and go -/

theorem step_fork (h : Sound L s) (i : ℕ) : Ensures (step L (.fork i)) (fun _ => After L s) s := by
  unfold step
  refine withProc_spec h ?_
  intro p hi leak hinv hz
  have hs := hinv.shape_self
  refine onKernel_bind (fork_spec hinv.coherent hinv.mem_roots hs) ?_
  rintro res k1 ⟨hk1, hres⟩
  have hk0 := hk1.weaken_held (g := fun _ => 0) (by simp)
  cases res with
  | noproc =>
    exact .of_pure (.of_same hi hz ⟨hinv.idle hres hk0, .of_shares subset_rfl hk0⟩)
  | copyFailed =>
    obtain ⟨q, hc1⟩ := hres
    rw [← heldBy_leak] at hc1
    have hperm := perm_of_getElem? hi
    refine .modify_bind (.of_pure ⟨⟨_, (hinv.idle hc1 hk0).perm hperm.symm, by simp⟩, ?_, by simp⟩)
    rw [rootsOf_perm hperm]
    exact .of_shares subset_rfl hk0
  | child np =>
    obtain ⟨hnew, hsz, hm1, hc1, hs1, hal⟩ := hres
    -- what the child maps its parent maps, before and after
    have hchild : ∀ x < userVpns, ∀ q, Maps (leaf k1.mem np.pagetable x) q →
        Alike (leaf k1.mem p.pagetable x) (leaf k1.mem np.pagetable x) ∧
        Maps (leaf k1.mem p.pagetable x) q ∧ Maps (leaf s.kernel.mem p.pagetable x) q := by
      intro x hx q hq
      have hxl := hx.trans userVpns_lt
      have hxn : x < npagesOf p.sz := by
        rcases (hs1.valid x hxl).mp hq.1 with hlt | hT
        · rwa [hsz] at hlt
        · have := (hs1.above x hT).1
          omega
      have hq1 := ((hal x hxn).maps q).mp hq
      exact ⟨hal x hxn, hq1, ((hk0.alike hinv.mem_roots hxl (by simp)).maps q).mp hq1⟩
    have hframes : ∀ p' ∈ p :: s.procs.eraseIdx i,
        mapCount k1.mem (insert np.pagetable (rootsOf (p :: s.procs.eraseIdx i)))
          p'.trapframe = 0 := by
      intro p' hp'
      refine hinv.frames_of ?_ hp'
      intro u hu x hx q hq
      right
      rcases Finset.mem_insert.mp hu with rfl | hu
      · exact mapCount_pos hinv.mem_roots hx (hchild x hx q hq).2.2
      · exact mapCount_pos hu hx (((hk0.alike hu (hx.trans userVpns_lt) (by simp)).maps q).mp hq)
    have hinv1 : Inv L k1 (np :: p :: s.procs.eraseIdx i) s.buffers leak := by
      refine ⟨?_, ?_, ?_, ?_⟩
      · rw [rootsOf_cons, heldBy_cons]
        exact hc1
      · rw [List.map_cons, List.nodup_cons]
        exact ⟨by simpa [rootsOf] using hnew, hinv.nodup⟩
      · intro p' hp'
        rcases List.mem_cons.mp hp' with rfl | hp'
        · exact hs1
        · exact (hinv.shape p' hp').keep hk0 (mem_rootsOf hp') (by simp)
      · intro p' hp'
        rw [rootsOf_cons]
        rcases List.mem_cons.mp hp' with rfl | hp'
        · exact hm1
        · exact hframes p' hp'
    have hperm : (s.procs ++ [np]).Perm (np :: p :: s.procs.eraseIdx i) :=
      (List.perm_append_singleton _ _).trans ((perm_of_getElem? hi).cons np)
    refine .modify_bind (.of_pure ⟨⟨leak, hinv1.perm hperm.symm, hz⟩, ?_, id⟩)
    rw [rootsOf_perm hperm, rootsOf_perm (perm_of_getElem? hi), rootsOf_cons (p := np)]
    refine .of_descends ?_ ?_
    · intro u hu _ x hx
      exact .of_alike (hk0.alike hu (hx.trans userVpns_lt) (by simp))
    · intro u hu hun x hx q hq hcow
      obtain rfl : u = np.pagetable := by
        rcases Finset.mem_insert.mp hu with he | hu
        · exact he
        · exact absurd hu hun
      obtain ⟨ha, hq1, hq0⟩ := hchild x hx q hq
      refine ⟨p.pagetable, hinv.mem_roots, Finset.mem_insert_of_mem hinv.mem_roots, hq1, hq0, ?_⟩
      have hw := ha.writes
      simp only [hcow, Bool.or_true] at hw
      exact hw.symm

theorem step_exit (h : Sound L s) (i : ℕ) : Ensures (step L (.exit i)) (fun _ => After L s) s := by
  unfold step
  refine withProc_spec h ?_
  intro p hi leak hinv hz
  refine onKernel_bind (freeproc_spec hinv.coherent hinv.mem_roots hinv.shape_self
    (heldBy_trapframe_pos List.mem_cons_self)) ?_
  rintro _ k1 ⟨hc1, hk1⟩
  have hroots : (rootsOf (p :: s.procs.eraseIdx i)).erase p.pagetable =
      rootsOf (s.procs.eraseIdx i) := by
    rw [rootsOf_cons, erase_insert_self hinv.not_mem_rest]
  rw [hroots, heldBy_cons, drop_bump] at hc1 hk1
  have hk0 := hk1.shares.weaken_held (g := fun _ => 0) (by simp)
  refine .modify_bind (.of_pure ⟨⟨leak, ⟨hc1, ?_, ?_, ?_⟩, hz⟩, ?_, id⟩)
  · exact (List.nodup_cons.mp hinv.nodup).2
  · intro p' hp'
    exact (hinv.shape p' (List.mem_cons_of_mem _ hp')).keep hk0 (mem_rootsOf hp') (by simp)
  · intro p' hp'
    refine hinv.frames_of ?_ (List.mem_cons_of_mem _ hp')
    intro u hu x hx q hq
    right
    exact mapCount_pos (hinv.rest_subset hu) hx
      (((hk0.alike hu (hx.trans userVpns_lt) (by simp)).maps q).mp hq)
  · rw [rootsOf_perm (perm_of_getElem? hi)]
    exact .of_shares hinv.rest_subset hk0

theorem step_exec (h : Sound L s) (i : ℕ) (ip : Option File) (path : List Byte)
    (argv : List (List Byte)) :
    Ensures (step L (.exec i ip path argv)) (fun _ => After L s) s := by
  unfold step
  refine withProc_spec h ?_
  intro p hi leak hinv hz
  refine onKernel_bind (exec_spec hinv.coherent hinv.mem_roots hinv.shape_self
    (heldBy_trapframe_pos List.mem_cons_self) (hinv.frames p List.mem_cons_self)) ?_
  rintro ⟨argc, np⟩ k1 hres
  refine .modify_bind (.of_pure (.of_set hi hz ?_))
  cases argc with
  | none =>
    obtain ⟨hpt, hsz, htf, hc1, hk1⟩ := hres
    have hk0 := hk1.shares.weaken_held (g := fun _ => 0) (by simp)
    have hroots : rootsOf (np :: s.procs.eraseIdx i) = rootsOf (p :: s.procs.eraseIdx i) := by
      rw [rootsOf_cons, rootsOf_cons, hpt]
    refine ⟨hinv.update hpt htf hc1 ?_ ?_ ?_, ?_⟩
    · rw [hsz]
      exact hinv.shape_self.keep hk0 hinv.mem_roots (by simp)
    · intro u hu x hx
      exact (hk1.slot u (hinv.rest_subset hu) x hx (by simp)).symm
    · intro x hx q hq
      rw [← hk1.slot _ hinv.mem_roots x (hx.trans userVpns_lt) (by simp)] at hq
      exact Or.inr (mapCount_pos hinv.mem_roots hx hq)
    · rw [hroots]
      exact .of_shares subset_rfl hk0
  | some argc =>
    have hroots : (rootsOf (p :: s.procs.eraseIdx i)).erase p.pagetable =
        rootsOf (s.procs.eraseIdx i) := by
      rw [rootsOf_cons, erase_insert_self hinv.not_mem_rest]
    obtain ⟨hnew, htf, hc1, hs1, hap, hcow, hk1⟩ := hres
    rw [hroots] at hc1 hap hk1
    have hframes : ∀ p' ∈ p :: s.procs.eraseIdx i,
        mapCount k1.mem (insert np.pagetable (rootsOf (s.procs.eraseIdx i))) p'.trapframe = 0 := by
      intro p' hp'
      refine hinv.frames_of ?_ hp'
      intro u hu x hx q hq
      rcases Finset.mem_insert.mp hu with rfl | hu
      · exact Or.inl (hap x hx q hq).1
      · rw [← hk1.slot u hu x (hx.trans userVpns_lt) (by simp)] at hq
        exact Or.inr (mapCount_pos (hinv.rest_subset hu) hx hq)
    refine ⟨⟨?_, ?_, ?_, ?_⟩, .of_descends ?_ ?_⟩
    · rw [rootsOf_cons, heldBy_cons, htf, ← heldBy_cons]
      exact hc1
    · rw [List.map_cons, List.nodup_cons]
      refine ⟨fun hm => hnew (hinv.rest_subset ?_), (List.nodup_cons.mp hinv.nodup).2⟩
      simpa [rootsOf] using hm
    · intro p' hp'
      rcases List.mem_cons.mp hp' with rfl | hp'
      · exact hs1
      · exact (hinv.shape p' (List.mem_cons_of_mem _ hp')).keep hk1 (mem_rootsOf hp') (by simp)
    · intro p' hp'
      rw [rootsOf_cons]
      rcases List.mem_cons.mp hp' with rfl | hp'
      · rw [htf]
        exact hframes p List.mem_cons_self
      · exact hframes p' (List.mem_cons_of_mem _ hp')
    · intro u hu hu' x hx
      rw [rootsOf_cons] at hu'
      rcases Finset.mem_insert.mp hu' with rfl | hu'
      · exact absurd hu hnew
      · exact .of_eq (hk1.slot u hu' x (hx.trans userVpns_lt) (by simp)).symm
    · intro u hu hun x hx q hq hc
      rw [rootsOf_cons] at hu
      rcases Finset.mem_insert.mp hu with rfl | hu
      · rw [hcow x hx hq.1] at hc
        simp at hc
      · exact absurd (hinv.rest_subset hu) hun

/-! ## The first process -/

theorem userinit_spec {roots : Finset ℕ} {held : ℕ → ℕ} (h : Coherent L k roots held)
    (hfree : 9 ≤ k.freelist.length) :
    Ensures (userinit L) (fun p k' => p.sz = pgsize ∧ p.pagetable ∉ roots ∧
      mapCount k'.mem (insert p.pagetable roots) p.trapframe = 0 ∧
      Coherent L k' (insert p.pagetable roots) (bump held p.trapframe) ∧
      Shape k'.mem p.pagetable 1 topVpns ∧ pteWritable (leaf k'.mem p.pagetable 0) = true) k := by
  unfold userinit
  refine .bind (allocproc_spec h) ?_
  intro res k1 hres
  cases res with
  | none =>
    obtain ⟨-, -, hlen⟩ := hres
    omega
  | some p =>
    obtain ⟨-, hnew, -, hm1, hc1, hs1, -, hlen⟩ := hres
    have hr := Finset.mem_insert_self p.pagetable roots
    refine .bind (uvmfirst_spec hc1 hr hs1 (by decide) (by omega)) ?_
    rintro _ k2 ⟨hc2, hs2, hw2, hk2⟩
    -- the page of the program is writable, so it is not the trapframe
    have hm2 : mapCount k2.mem (insert p.pagetable roots) p.trapframe = 0 := by
      by_contra hpos
      obtain ⟨s, hs, x, hx, hmx⟩ := mapCount_pos_iff.mp (Nat.pos_of_ne_zero hpos)
      by_cases hD : s = p.pagetable ∧ x = 0
      · obtain ⟨rfl, rfl⟩ := hD
        have := (hc2.sharing.exclusive hs hx hmx hw2).2.1
        simp at this
      · rw [← hk2.slot s hs x (hx.trans userVpns_lt) hD] at hmx
        have := mapCount_pos hs hx hmx
        omega
    obtain ⟨hc3, hl3, -⟩ := write_trapframe hc2 (t := p.trapframe) (by simp) hm2
      (m := (k2.mem.setWord p.trapframe 3 0).setWord p.trapframe 6 (BitVec.ofNat 64 pgsize)) (by
        intro q hq
        rw [Memory.setWord_of_ne _ _ _ _ _ hq, Memory.setWord_of_ne _ _ _ _ _ hq])
    refine .modify_bind (.modify_bind (.of_pure ⟨rfl, hnew, ?_, hc3, hs2.same hl3 hr, ?_⟩))
    · rw [mapCount_congr (m := k2.mem), hm2]
      intro s hs x hx
      have hl := hl3 s hs x (hx.trans userVpns_lt)
      rw [Kernel.setMem_mem] at hl
      simp only [Kernel.setMem_mem, hl]
    · exact (congrArg pteWritable (hl3 _ hr 0 (by decide))).trans hw2

theorem step_userinit (h : Sound L s) :
    Ensures (step L .userinit) (fun _ => After L s) s := by
  have hrefl := After.refl h
  obtain ⟨leak, hinv, hz⟩ := h
  unfold step
  refine .look_bind ?_
  split_ifs with hready
  · simp only [mayInit, Bool.and_eq_true, List.isEmpty_iff, decide_eq_true_eq] at hready
    obtain ⟨hnil, hlen⟩ := hready
    refine onKernel_bind (userinit_spec hinv.coherent (by omega)) ?_
    rintro p k1 ⟨hsz, hnew, hm1, hc1, hs1, hw1⟩
    rw [hnil] at hm1 hc1
    have hmem : p.pagetable ∈ rootsOf [p] := mem_rootsOf List.mem_cons_self
    have hinv1 : Inv L k1 [p] s.buffers leak := by
      refine ⟨?_, by simp, ?_, ?_⟩
      · rw [rootsOf_cons, heldBy_cons]
        exact hc1
      · intro p' hp'
        obtain rfl := List.mem_singleton.mp hp'
        rw [hsz]
        exact hs1
      · intro p' hp'
        obtain rfl := List.mem_singleton.mp hp'
        rw [rootsOf_cons]
        exact hm1
    refine .modify_bind (.of_pure ⟨⟨leak, hinv1, hz⟩, .of_descends ?_ ?_, id⟩)
    · intro u hu
      simp [rootsOf, hnil] at hu
    · intro u hu _ x hx q hq hcow
      obtain rfl : u = p.pagetable := by simpa [rootsOf] using hu
      have hx0 : x = 0 := by
        rcases (hs1.valid x (hx.trans userVpns_lt)).mp hq.1 with hlt | hT
        · omega
        · have := (hs1.above x hT).1
          omega
      subst hx0
      rw [(hinv1.coherent.sharing.exclusive hmem hx hq hw1).1] at hcow
      simp at hcow
  · exact .of_pure hrefl

/-! ## Runs -/

theorem step_spec (h : Sound L s) (op : Op) : Ensures (step L op) (fun _ => After L s) s := by
  cases op with
  | kalloc => exact step_kalloc h
  | kfree i => exact step_kfree h i
  | userinit => exact step_userinit h
  | uvmalloc i newsz flags => exact step_uvmalloc h i newsz flags
  | uvmdealloc i newsz => exact step_uvmdealloc h i newsz
  | growproc i n => exact step_growproc h i n
  | fork i => exact step_fork h i
  | load i va => exact step_load h i va
  | store i va b => exact step_store h i va b
  | storeFault i va => exact step_storeFault h i va
  | copyout i dstva src => exact step_copyout h i dstva src
  | uvmclear i va => exact step_uvmclear h i va
  | exec i ip path argv => exact step_exec h i ip path argv
  | exit i => exact step_exit h i

theorem run_spec (h : Sound L s) (ops : List Op) :
    Ensures (run L ops) (fun _ s' => Sound L s') s := by
  induction ops generalizing s with
  | nil => exact .of_pure h
  | cons op ops ih =>
    unfold run
    refine .bind (step_spec h op) ?_
    intro o s1 h1
    refine .bind (ih h1.sound) ?_
    intro os s2 h2
    exact .of_pure h2

end XV6AndConcurrency.VirtualMemory
