import XV6AndConcurrency.VirtualMemory.Boot

/-!
# Copy-on-write fork and eager fork

The machine that a user program may assume: every process has its own pages, and `fork`
copies them all at once. The kernel simulates it. Whether `fork` and `sbrk` find the memory
they ask for differs between the two, so the eager machine is told how these calls ended.
-/

namespace XV6AndConcurrency.VirtualMemory

open Foundations

/-! ## The eager machine -/

/-- A process of the eager machine: its size and its own pages. -/
@[ext] structure EagerProc where
  sz : ℕ
  pages : ℕ → Option UserPage

abbrev Eager := List EagerProc

def UserPage.put (pg : UserPage) (o : ℕ) (b : Byte) : UserPage :=
  { pg with bytes := Function.update pg.bytes o b }

namespace EagerProc

def load (p : EagerProc) (va : ℕ) : Outcome :=
  match p.pages (va / 4096) with
  | some pg => if pg.user then .loaded (pg.bytes (va % 4096)) else .killed
  | none => .killed

def store (p : EagerProc) (va : ℕ) (b : Byte) : Outcome × EagerProc :=
  match p.pages (va / 4096) with
  | some pg =>
    if pg.user && pg.writes then
      (.done, { p with pages := Function.update p.pages (va / 4096) (some (pg.put (va % 4096) b)) })
    else
      (.killed, p)
  | none => (.killed, p)

/-- Pages below the new size that were not there are zeroed. -/
def resize (p : EagerProc) (sz : ℕ) : EagerProc where
  sz := sz
  pages x :=
    if x < npagesOf sz then
      if x < npagesOf p.sz then p.pages x else some (zeroedPage pteW)
    else
      none

end EagerProc

/-- One step. `o` says how the kernel's `fork` or `sbrk` ended; for all other steps the
outcome is computed. -/
def eagerStep (op : Op) (o : Outcome) (e : Eager) : Outcome × Eager :=
  match op with
  | .fork i =>
    match e[i]? with
    | none => (.failed, e)
    | some p => if o = .done then (.done, e ++ [p]) else (.failed, e)
  | .growproc i n =>
    match e[i]? with
    | none => (.failed, e)
    | some p =>
      if o = .done then (.done, e.set i (p.resize (growTarget p.sz n.toInt))) else (.failed, e)
  | .load i va =>
    match e[i]? with
    | none => (.failed, e)
    | some p => (p.load va, e)
  | .store i va b =>
    match e[i]? with
    | none => (.failed, e)
    | some p => ((p.store va b).1, e.set i (p.store va b).2)
  | .exit i =>
    match e[i]? with
    | none => (.failed, e)
    | some _ => (.done, e.eraseIdx i)
  | _ => (o, e)

/-- A run of the eager machine beside a run of the kernel with the outcomes `os`. -/
def eagerRun : List Op → List Outcome → Eager → List Outcome × Eager
  | op :: ops, o :: os, e =>
    let r := eagerStep op o e
    let rs := eagerRun ops os r.2
    (r.1 :: rs.1, rs.2)
  | _, _, e => ([], e)

/-! ## What the kernel's processes see -/

def eagerProc (k : Kernel) (p : Proc) : EagerProc where
  sz := p.sz
  pages x := if x < npagesOf p.sz then pageView k.mem p.pagetable x else none

def eagerOf (s : System) : Eager := s.procs.map (eagerProc s.kernel)

/-- A step of the kinds that the eager machine has. A store goes to an address below the
size, and finds a page for the copy if it needs one. -/
def Ample (s : System) : Op → Prop
  | .fork _ => True
  | .growproc _ _ => True
  | .load _ _ => True
  | .exit _ => True
  | .store i va _ => ∀ p, s.procs[i]? = some p → va < p.sz ∧
      (CowEntry (leaf s.kernel.mem p.pagetable (va / 4096)) → s.kernel.freelist ≠ [])
  | _ => False

/-- Every step of a run is such a step. -/
def AmpleRun (L : Layout) : List Op → System → Prop
  | [], _ => True
  | op :: ops, s => Ample s op ∧ ∀ o s', step L op s = .ok (o, s') → AmpleRun L ops s'

variable {L : Layout} {k k' : Kernel} {roots : Finset ℕ} {held leak : ℕ → ℕ} {r n sz va v i : ℕ}
  {T : Finset ℕ} {b : Byte} {s : System} {p p' : Proc}

theorem eagerOf_getElem? (i : ℕ) : (eagerOf s)[i]? = s.procs[i]?.map (eagerProc s.kernel) := by
  simp [eagerOf]

/-- Entries that are kept show the process what they showed. -/
theorem eagerProc_keep {R : Pte → Pte → Prop} [KeepsAccess R] {D : ℕ → ℕ → Prop}
    (h : KeepsUpTo R k k' roots held D) (hr : p.pagetable ∈ roots) (hle : npagesOf p.sz ≤ userVpns)
    (hD : ∀ x < npagesOf p.sz, ¬ D p.pagetable x) : eagerProc k' p = eagerProc k p := by
  refine EagerProc.ext rfl (funext fun x => ?_)
  simp only [eagerProc]
  split_ifs with hx
  · exact h.view hr (hx.trans_le hle) (hD x hx)
  · rfl

/-- A step that shows no process a difference. -/
theorem eagerOf_keep {R : Pte → Pte → Prop} [KeepsAccess R]
    (hinv : Inv L s.kernel s.procs s.buffers leak)
    (h : KeepsUpTo R s.kernel k' (rootsOf s.procs) held (fun _ _ => False)) :
    s.procs.map (eagerProc k') = eagerOf s := by
  apply List.map_congr_left
  intro p hp
  exact eagerProc_keep h (mem_rootsOf hp) (hinv.shape p hp).le (by simp)

/-- Two processes have different tables. -/
theorem Inv.eq_of_pagetable {procs : List Proc} {buffers : List ℕ} {i j : ℕ} {q : Proc}
    (hinv : Inv L k procs buffers leak) (hj : procs[j]? = some q) (hi : procs[i]? = some p)
    (h : q.pagetable = p.pagetable) : j = i := by
  have hlen : j < (procs.map Proc.pagetable).length := by
    simpa using (List.getElem?_eq_some_iff.mp hj).1
  have h1 : (procs.map Proc.pagetable)[j]? = some q.pagetable := by simp [hj]
  have h2 : (procs.map Proc.pagetable)[i]? = some p.pagetable := by simp [hi]
  rw [← h] at h2
  exact (List.getElem?_inj hlen hinv.nodup).mp (h1.trans h2.symm)

/-- A step that changes what process `i` sees. -/
theorem eagerOf_set {R : Pte → Pte → Prop} [KeepsAccess R] {P : ℕ → Prop}
    (hinv : Inv L s.kernel s.procs s.buffers leak) (hi : s.procs[i]? = some p)
    (h : KeepsUpTo R s.kernel k' (rootsOf s.procs) held (fun r x => r = p.pagetable ∧ P x)) :
    (s.procs.set i p').map (eagerProc k') = (eagerOf s).set i (eagerProc k' p') := by
  rw [List.map_set, eagerOf]
  apply List.ext_getElem?
  intro j
  by_cases hj : j = i
  · subst hj
    simp [List.getElem?_set]
  · rw [List.getElem?_set_ne (Ne.symm hj), List.getElem?_set_ne (Ne.symm hj), List.getElem?_map,
      List.getElem?_map]
    cases hq : s.procs[j]? with
    | none => simp only [Option.map_none]
    | some q =>
      have hmem := List.mem_of_getElem? hq
      have hne : q.pagetable ≠ p.pagetable := fun he => hj (hinv.eq_of_pagetable hq hi he)
      have hkeep : eagerProc k' q = eagerProc s.kernel q :=
        eagerProc_keep h (mem_rootsOf hmem) (hinv.shape q hmem).le fun _ _ hD => hne hD.1
      simp only [Option.map_some, hkeep]

theorem set_of_getElem? {α : Type} {l : List α} {a : α} (h : l[i]? = some a) : l.set i a = l := by
  obtain ⟨hi, rfl⟩ := List.getElem?_eq_some_iff.mp h
  exact List.set_getElem_self hi

theorem eagerOf_some (hi : s.procs[i]? = some p) :
    (eagerOf s)[i]? = some (eagerProc s.kernel p) := by
  rw [eagerOf_getElem?, hi, Option.map_some]

theorem eagerOf_none (hi : s.procs[i]? = none) : (eagerOf s)[i]? = none := by
  rw [eagerOf_getElem?, hi, Option.map_none]

/-- A process that only gets killed sees what it saw. -/
theorem eagerOf_killed (hinv : Inv L s.kernel s.procs s.buffers leak) (hi : s.procs[i]? = some p)
    (killed : Bool) :
    eagerOf { s with procs := s.procs.set i { p with killed := killed } } = eagerOf s := by
  have hk : Keeps s.kernel s.kernel (rootsOf s.procs) (fun _ => 0)
      (fun r x => r = p.pagetable ∧ False) := .refl
  have hsame : eagerProc s.kernel { p with killed := killed } = eagerProc s.kernel p := rfl
  rw [show eagerOf { s with procs := s.procs.set i { p with killed := killed } } = _ from
    eagerOf_set hinv hi hk, hsame]
  exact set_of_getElem? (eagerOf_some hi)

/-! ## Loads and stores -/

theorem eagerProc_load (hs : Shape k.mem p.pagetable (npagesOf p.sz) topVpns) (va : ℕ) :
    (eagerProc k p).load va = match userLoad k p.pagetable va with
      | none => .killed
      | some b => .loaded b := by
  by_cases hx : va / 4096 < npagesOf p.sz
  · have hxl := (hx.trans_le hs.le).trans userVpns_lt
    have hva : va < maxva := by
      have := hs.le
      rw [maxva_eq]
      unfold userVpns at this
      omega
    have hv := (hs.valid _ hxl).mpr (Or.inl hx)
    have hrd := hs.readable _ hxl hv
    simp only [EagerProc.load, eagerProc, hx, if_true, pageView, hv, userLoad, translate, hva, hrd,
      Bool.true_and, Bool.and_true]
    split_ifs <;> rfl
  · have hno : userLoad k p.pagetable va = none := by
      rw [Option.eq_none_iff_forall_ne_some]
      intro b hb
      obtain ⟨h1, h2, -⟩ := userLoad_eq_some.mp hb
      exact hx (translate_of_valid hs h1 h2).2
    simp only [EagerProc.load, eagerProc, hx, if_false, hno]

theorem putBytes_singleton (m : Memory) (q o : ℕ) (b : Byte) :
    m.putBytes q o [b] q = Function.update (m q) o b := by
  funext x
  by_cases hx : x = o
  · subst hx
    rw [Function.update_self]
    exact Memory.putBytes_self_of_mem _ _ _ _ (k := 0) (by simp)
  · rw [Function.update_of_ne hx]
    exact Memory.putBytes_self_of_not_mem _ _ _ _ _ (by rw [List.length_singleton]; omega)

section Store

variable (h : Coherent L k roots held) (hr : r ∈ roots) (hva : va / 4096 < userVpns)
  (hv : pteValid (leaf k.mem r (va / 4096)) = true)
include h hr hva hv

/-- A store through an entry that the hardware lets write. -/
theorem tryStore_view (hu : pteUser (leaf k.mem r (va / 4096)) = true)
    (hw : pteWritable (leaf k.mem r (va / 4096)) = true) (b : Byte) :
    Ensures (tryStore r va b) (fun ok k' => ok = true ∧
      Keeps k k' roots held (fun s x => s = r ∧ x = va / 4096) ∧
      ∃ pg, pageView k.mem r (va / 4096) = some pg ∧ pg.user = true ∧ pg.writes = true ∧
        pageView k'.mem r (va / 4096) = some (pg.put (va % 4096) b)) k := by
  have hmax : va < maxva := by
    rw [maxva_eq]
    unfold userVpns at hva
    omega
  have htr : translate k r va = leaf k.mem r (va / 4096) := if_pos hmax
  obtain ⟨-, hl, hk⟩ := write_writable h hr hva ⟨hv, rfl⟩ hw
    (m := k.mem.putBytes (pte2pa (leaf k.mem r (va / 4096))) (va % 4096) [b])
    fun q hq => Memory.putBytes_of_ne _ _ _ _ _ hq
  refine .of_run (a := true) (by simp [tryStore, htr, hv, hu, hw])
    ⟨rfl, hk, ⟨_, _, _⟩, if_pos hv, hu, by simp [hw], ?_⟩
  rw [pageView, hl r hr _ (hva.trans userVpns_lt), if_pos hv, Kernel.setMem_mem,
    putBytes_singleton]
  rfl

omit h hr hva hv in
theorem tryStore_refused (hno : (pteValid (translate k r va) && pteUser (translate k r va) &&
    pteWritable (translate k r va)) = false) (b : Byte) :
    tryStore r va b k = .ok (false, k) := by
  unfold tryStore
  simp only [bind_run, look_run, ok_bind, hno, Bool.false_eq_true, if_false, pure_run]

/-- A resolved fault shows the process the page it saw. -/
theorem resolve_view {t p : ℕ} {next : List ℕ} (ht : leafTable k.mem r (va / 4096) = some t)
    (hcow : pteCow (leaf k.mem r (va / 4096)) = true) (hfl : k.freelist = p :: next) :
    pageView (k.resolve t (vpn0 (va / 4096)) p next (pte2pa (leaf k.mem r (va / 4096)))
      (leaf k.mem r (va / 4096))).mem r (va / 4096) = pageView k.mem r (va / 4096) := by
  obtain ⟨-, hl, -, hbytes⟩ := resolve_spec h hr hva ht ⟨hv, rfl⟩ hfl
  have hmaps := resolvedPte_maps ((h.free p).mp (by simp [hfl])).1 hv
  have hacc := resolvedPte_access p hcow
  have hown := hl r hr _ (hva.trans userVpns_lt)
  rw [if_pos ⟨rfl, rfl⟩] at hown
  rw [pageView, pageView, hown, if_pos hmaps.1, if_pos hv, hmaps.2, hbytes, hacc.user, hacc.writes]

/-- A store of the process: it goes through where the page says so, after a copy if need
be, and changes no other page. -/
theorem userStore_view (hsz : va < sz)
    (hfree : CowEntry (leaf k.mem r (va / 4096)) → k.freelist ≠ []) (b : Byte) :
    Ensures (userStore L r sz va b) (fun killed k' =>
      Keeps k k' roots held (fun s x => s = r ∧ x = va / 4096) ∧
      ∃ pg, pageView k.mem r (va / 4096) = some pg ∧
        if pg.user && pg.writes then
          killed = false ∧ pageView k'.mem r (va / 4096) = some (pg.put (va % 4096) b)
        else killed = true ∧ k' = k) k := by
  have hmax : va < maxva := by
    rw [maxva_eq]
    unfold userVpns at hva
    omega
  have htr : translate k r va = leaf k.mem r (va / 4096) := if_pos hmax
  have hkill : decide (sz ≤ va) = false := by simpa using hsz
  unfold userStore
  by_cases hdirect : pteUser (leaf k.mem r (va / 4096)) = true ∧
      pteWritable (leaf k.mem r (va / 4096)) = true
  · refine .bind (tryStore_view h hr hva hv hdirect.1 hdirect.2 b) ?_
    rintro _ k1 ⟨rfl, hk1, pg, hpg, hu, hw, hview⟩
    refine .of_pure ⟨hk1, pg, hpg, ?_⟩
    rw [hu, hw]
    exact ⟨rfl, hview⟩
  have hno : (pteValid (translate k r va) && pteUser (translate k r va) &&
      pteWritable (translate k r va)) = false := by
    rw [htr, hv, Bool.true_and, Bool.and_eq_false_iff]
    grind
  refine .bind_of_run (tryStore_refused hno b) ?_
  rw [if_neg (by simp)]
  by_cases hcow : CowEntry (leaf k.mem r (va / 4096))
  · obtain ⟨p, next, hfl⟩ := List.exists_cons_of_ne_nil (hfree hcow)
    obtain ⟨t, ht, hrun⟩ := cowtestH_resolve h.toBalanced hr hva hcow hfl
    obtain ⟨hc1, hl1, hk1, -⟩ := resolve_spec h hr hva ht ⟨hv, rfl⟩ hfl
    have hview1 := resolve_view h hr hva hv ht hcow.1 hfl
    have hmaps := resolvedPte_maps ((h.free p).mp (by simp [hfl])).1 hv
    have hacc := resolvedPte_access p hcow.1
    generalize k.resolve t (vpn0 (va / 4096)) p next (pte2pa (leaf k.mem r (va / 4096)))
      (leaf k.mem r (va / 4096)) = k1 at *
    have hown : leaf k1.mem r (va / 4096) = resolvedPte p (leaf k.mem r (va / 4096)) := by
      rw [hl1 r hr _ (hva.trans userVpns_lt), if_pos ⟨rfl, rfl⟩]
    refine .bind_of_run (a := false) (t := k1) (by simp [usertrapStore, hrun, hkill]) ?_
    rw [if_neg (by simp)]
    refine .bind (tryStore_view hc1 hr hva (by rw [hown]; exact hmaps.1)
      (by rw [hown, hacc.user]; exact hcow.2.1) (by rw [hown]; exact resolvedPte_writable _ _) b) ?_
    rintro _ k2 ⟨-, hk2, pg, hpg, hu, hw, hview⟩
    refine .of_pure ⟨hk1.trans hk2, pg, hview1.symm.trans hpg, ?_⟩
    rw [hu, hw]
    exact ⟨rfl, hview⟩
  · have hrun : cowtestH L r va k = .ok (false, k) := cowtestH_refuse fun _ hc => absurd hc hcow
    refine .bind_of_run (a := true) (t := k) (by simp [usertrapStore, hrun]) ?_
    rw [if_pos rfl]
    refine .of_pure ⟨.refl, ⟨_, _, _⟩, if_pos hv, ?_⟩
    rw [if_neg]
    · exact ⟨rfl, rfl⟩
    · simp only [Bool.and_eq_true, Bool.or_eq_true]
      rintro ⟨hu, hw | hc⟩
      · exact hdirect ⟨hu, hw⟩
      · exact hcow ⟨hc, hu, hv⟩

end Store

/-! ## Forks, growth and exits -/

section Steps

variable (hinv : Inv L s.kernel s.procs s.buffers leak)
include hinv

theorem fork_eager (i : ℕ) : Ensures (step L (.fork i)) (fun o s' =>
    eagerStep (.fork i) o (eagerOf s) = (o, eagerOf s')) s := by
  unfold step
  refine withProc_cases (fun hi => ?_) fun p hi => ?_
  · simp only [eagerStep, eagerOf_none hi]
  have hp := List.mem_of_getElem? hi
  have hs := hinv.shape p hp
  refine onKernel_bind (fork_spec hinv.coherent (mem_rootsOf hp) hs) ?_
  rintro res k1 ⟨hk1, hres⟩
  cases res with
  | noproc =>
    refine .of_pure ?_
    simp only [eagerStep, eagerOf_some hi, reduceCtorEq, if_false]
    exact congrArg _ (eagerOf_keep hinv hk1).symm
  | copyFailed =>
    refine .modify_bind (.of_pure ?_)
    simp only [eagerStep, eagerOf_some hi, reduceCtorEq, if_false]
    exact congrArg _ (eagerOf_keep hinv hk1).symm
  | child np =>
    obtain ⟨-, hsz, -, -, -, hal⟩ := hres
    have hchild : eagerProc k1 np = eagerProc s.kernel p := by
      rw [← eagerProc_keep hk1 (mem_rootsOf hp) hs.le (by simp)]
      refine EagerProc.ext hsz (funext fun x => ?_)
      simp only [eagerProc, hsz]
      split_ifs with hx
      · exact pageView_alike (hal x hx)
      · rfl
    have hall : (s.procs ++ [np]).map (eagerProc k1) = eagerOf s ++ [eagerProc s.kernel p] := by
      rw [List.map_append, eagerOf_keep hinv hk1, List.map_singleton, hchild]
    refine .modify_bind (.of_pure ?_)
    simp only [eagerStep, eagerOf_some hi, if_true]
    exact congrArg _ hall.symm

theorem growproc_eager (i : ℕ) (n : BitVec 32) : Ensures (step L (.growproc i n)) (fun o s' =>
    eagerStep (.growproc i n) o (eagerOf s) = (o, eagerOf s')) s := by
  unfold step
  refine withProc_cases (fun hi => ?_) fun p hi => ?_
  · simp only [eagerStep, eagerOf_none hi]
  have hp := List.mem_of_getElem? hi
  have hs := hinv.shape p hp
  have hlo := n.le_toInt
  have hhi := n.toInt_lt
  refine onKernel_bind (growproc_spec hinv.coherent (mem_rootsOf hp) hs
    (by simpa using hlo) (by simpa using hhi)) ?_
  rintro ⟨ok, newsz⟩ k1 ⟨-, hs1, hk1, hf1, hsz⟩
  dsimp only at hs1 hk1 hf1 hsz
  have hset : eagerOf ⟨k1, s.procs.set i { p with sz := newsz }, s.buffers, s.copyFailed⟩ =
      (eagerOf s).set i (eagerProc k1 { p with sz := newsz }) := eagerOf_set hinv hi hk1
  have hview : ∀ x < npagesOf p.sz, x < npagesOf newsz →
      pageView k1.mem p.pagetable x = pageView s.kernel.mem p.pagetable x := fun x h1 h2 =>
    hk1.view (mem_rootsOf hp) (h1.trans_le hs.le) (by omega)
  refine .modify_bind (.of_pure ?_)
  cases ok with
  | true =>
    have hnew : eagerProc k1 { p with sz := newsz } = (eagerProc s.kernel p).resize newsz := by
      refine EagerProc.ext rfl (funext fun x => ?_)
      simp only [eagerProc, EagerProc.resize]
      split_ifs with h1 h2
      · exact hview x h2 h1
      · exact (hf1 x (by omega) h1).view
      · rfl
    obtain rfl : newsz = growTarget p.sz n.toInt := hsz
    simp only [eagerStep, eagerOf_some hi, if_true]
    rw [hset, hnew]
    rfl
  | false =>
    obtain rfl : newsz = p.sz := hsz
    have hsame : eagerProc k1 { p with sz := p.sz } = eagerProc s.kernel p := by
      refine EagerProc.ext rfl (funext fun x => ?_)
      simp only [eagerProc]
      split_ifs with h1
      · exact hview x h1 h1
      · rfl
    simp only [eagerStep, eagerOf_some hi, reduceCtorEq, if_false, Bool.false_eq_true]
    rw [hset, hsame, set_of_getElem? (eagerOf_some hi)]

theorem exit_eager (i : ℕ) : Ensures (step L (.exit i)) (fun o s' =>
    eagerStep (.exit i) o (eagerOf s) = (o, eagerOf s')) s := by
  unfold step
  refine withProc_cases (fun hi => ?_) fun p hi => ?_
  · simp only [eagerStep, eagerOf_none hi]
  have hinv' := hinv.perm (perm_of_getElem? hi)
  refine onKernel_bind (freeproc_spec hinv'.coherent hinv'.mem_roots hinv'.shape_self
    (heldBy_trapframe_pos List.mem_cons_self)) ?_
  rintro _ k1 ⟨-, hk1⟩
  rw [rootsOf_cons, erase_insert_self hinv'.not_mem_rest] at hk1
  have hrest : (s.procs.eraseIdx i).map (eagerProc k1) =
      (s.procs.eraseIdx i).map (eagerProc s.kernel) := by
    apply List.map_congr_left
    intro q hq
    exact eagerProc_keep hk1 (mem_rootsOf hq) (hinv'.shape q (List.mem_cons_of_mem _ hq)).le
      (by simp)
  refine .modify_bind (.of_pure ?_)
  simp only [eagerStep, eagerOf_some hi]
  rw [eagerOf, eagerOf, hrest, List.eraseIdx_map]

theorem load_eager (i va : ℕ) : Ensures (step L (.load i va)) (fun o s' =>
    eagerStep (.load i va) o (eagerOf s) = (o, eagerOf s')) s := by
  unfold step
  refine withProc_cases (fun hi => ?_) fun p hi => ?_
  · simp only [eagerStep, eagerOf_none hi]
  have hs := hinv.shape p (List.mem_of_getElem? hi)
  have hload := eagerProc_load hs va
  refine .look_bind ?_
  cases hb : userLoad s.kernel p.pagetable va with
  | none =>
    rw [hb] at hload
    refine .modify_bind (.of_pure ?_)
    simp only [eagerStep, eagerOf_some hi, hload, if_true]
    exact congrArg _ (eagerOf_killed hinv hi _).symm
  | some b =>
    rw [hb] at hload
    refine .of_pure ?_
    simp only [eagerStep, eagerOf_some hi, hload]

theorem store_eager {i va : ℕ} {b : Byte} (hok : Ample s (.store i va b)) :
    Ensures (step L (.store i va b)) (fun o s' =>
      eagerStep (.store i va b) o (eagerOf s) = (o, eagerOf s')) s := by
  unfold step
  refine withProc_cases (fun hi => ?_) fun p hi => ?_
  · simp only [eagerStep, eagerOf_none hi]
  have hp := List.mem_of_getElem? hi
  have hs := hinv.shape p hp
  obtain ⟨hva, hfree⟩ := hok p hi
  have hx : va / 4096 < npagesOf p.sz := by
    unfold npagesOf
    omega
  have hxu := hx.trans_le hs.le
  refine onKernel_bind (userStore_view hinv.coherent (mem_rootsOf hp) hxu
    ((hs.valid _ (hxu.trans userVpns_lt)).mpr (Or.inl hx)) hva hfree b) ?_
  rintro killed k1 ⟨hk1, pg, hpg, hres⟩
  have hpages : (eagerProc s.kernel p).pages (va / 4096) = some pg := by
    simp only [eagerProc, hx, if_true, hpg]
  have hset : ∀ killed', eagerOf ⟨k1, s.procs.set i { p with killed := killed' }, s.buffers,
      s.copyFailed⟩ = (eagerOf s).set i (eagerProc k1 p) := fun killed' =>
    eagerOf_set hinv hi (hk1.mono (E := fun r x => r = p.pagetable ∧ x = va / 4096)
      fun _ _ hD => hD)
  refine .modify_bind (.of_pure ?_)
  simp only [eagerStep, eagerOf_some hi, EagerProc.store, hpages]
  split_ifs at hres ⊢ with hw hkill hkill
  · simp [hres.1] at hkill
  · refine congrArg _ ((congrArg _ ?_).trans (hset _).symm)
    refine EagerProc.ext rfl (funext fun x => ?_)
    simp only [eagerProc]
    by_cases hxv : x = va / 4096
    · subst hxv
      simp only [Function.update_self, hx, if_true, hres.2]
    · rw [Function.update_of_ne hxv]
      split_ifs with hxn
      · exact (hk1.view (mem_rootsOf hp) (hxn.trans_le hs.le) (by omega)).symm
      · rfl
  · obtain ⟨-, rfl⟩ := hres
    exact congrArg _ ((set_of_getElem? (eagerOf_some hi)).trans
      ((hset _).trans (set_of_getElem? (eagerOf_some hi))).symm)
  · exact absurd hres.1 hkill

end Steps

/-! ## Runs -/

theorem step_eager (hinv : Inv L s.kernel s.procs s.buffers leak) {op : Op} (hok : Ample s op) :
    Ensures (step L op) (fun o s' => eagerStep op o (eagerOf s) = (o, eagerOf s')) s := by
  cases op with
  | fork i => exact fork_eager hinv i
  | growproc i n => exact growproc_eager hinv i n
  | load i va => exact load_eager hinv i va
  | store i va b => exact store_eager hinv hok
  | exit i => exact exit_eager hinv i
  | _ => exact absurd hok id

theorem run_eager (h : Sound L s) {ops : List Op} (hok : AmpleRun L ops s) :
    Ensures (run L ops) (fun os s' => eagerRun ops os (eagerOf s) = (os, eagerOf s')) s := by
  induction ops generalizing s with
  | nil => exact .of_pure rfl
  | cons op ops ih =>
    obtain ⟨leak, hinv, -⟩ := id h
    obtain ⟨o, s1, hrun, hafter, heager⟩ := (step_spec h op).and (step_eager hinv hok.1)
    unfold run
    refine .bind_of_run hrun (.bind (ih hafter.sound (hok.2 o s1 hrun)) ?_)
    intro os s2 h2
    refine .of_pure ?_
    simp only [eagerRun, heager, h2]

/-- A process whose entries are kept loads what it loaded. -/
theorem userLoad_keep {D : ℕ → ℕ → Prop} (hk : Keeps k k' roots held D) (hr : r ∈ roots)
    (hs : Shape k.mem r n T) (hD : ∀ x, ¬ D r x) (va : ℕ) :
    userLoad k' r va = userLoad k r va := by
  have htr : translate k' r va = translate k r va := by
    unfold translate
    split_ifs with hva
    · exact (hk.slot r hr _ (lt_vpnLimit_of_lt_maxva hva) (hD _)).symm
    · rfl
  by_cases hc : pteValid (translate k r va) = true ∧ pteUser (translate k r va) = true
  · obtain ⟨heq, hlt⟩ := translate_of_valid hs hc.1 hc.2
    have hb := hk.bytes r hr _ (hlt.trans_le hs.le) (hD _) _ ⟨heq ▸ hc.1, rfl⟩
    unfold userLoad
    simp only [htr, heq, hb]
  · have hno : (pteValid (translate k r va) && pteUser (translate k r va) &&
        pteReadable (translate k r va)) = false := by
      rw [Bool.and_eq_false_iff, Bool.and_eq_false_iff]
      grind
    unfold userLoad
    simp only [htr, hno, Bool.false_eq_true, if_false]

theorem store_others (hinv : Inv L s.kernel s.procs s.buffers leak) {b : Byte}
    (hok : Ample s (.store i va b)) :
    Ensures (step L (.store i va b)) (fun _ s' => ∀ j q, j ≠ i → s.procs[j]? = some q →
      ∀ va', userLoad s'.kernel q.pagetable va' = userLoad s.kernel q.pagetable va') s := by
  unfold step
  refine withProc_cases (fun _ _ _ _ _ _ => rfl) fun p hi => ?_
  have hp := List.mem_of_getElem? hi
  have hs := hinv.shape p hp
  obtain ⟨hva, hfree⟩ := hok p hi
  have hx : va / 4096 < npagesOf p.sz := by
    unfold npagesOf
    omega
  have hxu := hx.trans_le hs.le
  refine onKernel_bind (userStore_view hinv.coherent (mem_rootsOf hp) hxu
    ((hs.valid _ (hxu.trans userVpns_lt)).mpr (Or.inl hx)) hva hfree b) ?_
  rintro killed k1 ⟨hk1, -⟩
  refine .modify_bind (.of_pure ?_)
  intro j q hj hq va'
  have hqm := List.mem_of_getElem? hq
  refine userLoad_keep hk1 (mem_rootsOf hqm) (hinv.shape q hqm) ?_ va'
  rintro x ⟨he, -⟩
  exact hj (hinv.eq_of_pagetable hq hi he)

/-- From every state of every run: a run of forks, loads, stores, `sbrk` and exits whose
stores find memory has the outcomes of the eager machine, each load the byte that the eager
machine loads, and no store changes what another process loads. -/
theorem cow_fork_simulates_eager (L : Layout) (m : Memory) (before : List Op) :
    ∃ os₀ s, boot L m before = .ok (os₀, s) ∧
      (∀ ops, AmpleRun L ops s → ∃ os s', run L ops s = .ok (os, s') ∧
        eagerRun ops os (eagerOf s) = (os, eagerOf s')) ∧
      (∀ i va b, Ample s (.store i va b) → ∃ o s', step L (.store i va b) s = .ok (o, s') ∧
        ∀ j q, j ≠ i → s.procs[j]? = some q →
          ∀ va', userLoad s'.kernel q.pagetable va' = userLoad s.kernel q.pagetable va') := by
  obtain ⟨os₀, s, hrun, hsound⟩ := boot_run L m before
  obtain ⟨leak, hinv, -⟩ := id hsound
  exact ⟨os₀, s, hrun, fun ops hok => run_eager hsound hok, fun i va b hok =>
    store_others hinv hok⟩

end XV6AndConcurrency.VirtualMemory
