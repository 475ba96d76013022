import XV6AndConcurrency.VirtualMemory.Copying
import XV6AndConcurrency.VirtualMemory.Images
import XV6AndConcurrency.VirtualMemory.System

/-!
# The invariant of the machine

`Inv` holds after every step: the books balance, with the trapframes and the buffers as
the held references; every process has the shape its size says; no process maps a
trapframe. `leak` counts the references that failed calls of `uvmcopy` have left behind.
`Lineage` relates the entries before and after a step: where a copy-on-write entry comes
from.
-/

namespace XV6AndConcurrency.VirtualMemory

open Foundations

def rootsOf (procs : List Proc) : Finset ℕ := (procs.map Proc.pagetable).toFinset

/-- The references that are not entries of page tables. -/
def heldBy (procs : List Proc) (buffers : List ℕ) (leak : ℕ → ℕ) : ℕ → ℕ := fun q =>
  buffers.count q + (procs.map Proc.trapframe).count q + leak q

structure Inv (L : Layout) (k : Kernel) (procs : List Proc) (buffers : List ℕ) (leak : ℕ → ℕ) :
    Prop where
  coherent : Coherent L k (rootsOf procs) (heldBy procs buffers leak)
  nodup : (procs.map Proc.pagetable).Nodup
  shape : ∀ p ∈ procs, Shape k.mem p.pagetable (npagesOf p.sz) topVpns
  frames : ∀ p ∈ procs, mapCount k.mem (rootsOf procs) p.trapframe = 0

variable {L : Layout} {k k' : Kernel} {p p' np : Proc} {procs procs' rest : List Proc}
  {buffers : List ℕ} {leak : ℕ → ℕ} {roots roots' : Finset ℕ} {held : ℕ → ℕ} {q r x n : ℕ}

theorem rootsOf_cons : rootsOf (p :: rest) = insert p.pagetable (rootsOf rest) := by
  simp [rootsOf]

theorem rootsOf_perm (h : procs.Perm procs') : rootsOf procs = rootsOf procs' :=
  List.toFinset_eq_of_perm _ _ (h.map _)

theorem heldBy_perm (h : procs.Perm procs') :
    heldBy procs buffers leak = heldBy procs' buffers leak := by
  funext q
  rw [heldBy, heldBy, (h.map Proc.trapframe).count_eq]

theorem heldBy_cons :
    heldBy (p :: rest) buffers leak = bump (heldBy rest buffers leak) p.trapframe := by
  funext q
  simp only [heldBy, List.map_cons, List.count_cons, bump_apply, beq_iff_eq, eq_comm (a := q)]
  omega

theorem heldBy_buffer (b : ℕ) :
    heldBy procs (b :: buffers) leak = bump (heldBy procs buffers leak) b := by
  funext q
  simp only [heldBy, List.count_cons, bump_apply, beq_iff_eq, eq_comm (a := q)]
  omega

theorem heldBy_leak (b : ℕ) :
    heldBy procs buffers (bump leak b) = bump (heldBy procs buffers leak) b := by
  funext q
  simp only [heldBy, bump_apply]
  omega

theorem mem_rootsOf (h : p ∈ procs) : p.pagetable ∈ rootsOf procs := by
  simp only [rootsOf, List.mem_toFinset, List.mem_map]
  exact ⟨p, h, rfl⟩

theorem exists_of_mem_rootsOf (h : r ∈ rootsOf procs) : ∃ p ∈ procs, p.pagetable = r := by
  simpa [rootsOf] using h

theorem heldBy_trapframe_pos (h : p ∈ procs) : 0 < heldBy procs buffers leak p.trapframe := by
  have : 0 < (procs.map Proc.trapframe).count p.trapframe :=
    List.count_pos_iff.mpr (List.mem_map_of_mem h)
  unfold heldBy
  omega

namespace Inv

theorem perm (h : Inv L k procs buffers leak) (hp : procs.Perm procs') :
    Inv L k procs' buffers leak where
  coherent := by
    rw [← rootsOf_perm hp, ← heldBy_perm hp]
    exact h.coherent
  nodup := (hp.map _).nodup_iff.mp h.nodup
  shape q hq := h.shape q (hp.mem_iff.mpr hq)
  frames q hq := by
    rw [← rootsOf_perm hp]
    exact h.frames q (hp.mem_iff.mpr hq)

theorem not_mem_rest (h : Inv L k (p :: rest) buffers leak) : p.pagetable ∉ rootsOf rest := by
  have := h.nodup
  simp only [List.map_cons, List.nodup_cons] at this
  simpa [rootsOf] using this.1

/-- Entries that map only what was mapped before, or pages nobody holds, keep the
trapframes unmapped. -/
theorem frames_of (h : Inv L k procs buffers leak)
    (hm : ∀ s ∈ roots, ∀ x < userVpns, ∀ q, Maps (leaf k'.mem s x) q →
      heldBy procs buffers leak q = 0 ∨ 0 < mapCount k.mem (rootsOf procs) q) (hp : p ∈ procs) :
    mapCount k'.mem roots p.trapframe = 0 := by
  by_contra hpos
  obtain ⟨s, hs, x, hx, hmx⟩ := mapCount_pos_iff.mp (Nat.pos_of_ne_zero hpos)
  have h1 : 0 < heldBy procs buffers leak p.trapframe := heldBy_trapframe_pos hp
  have h2 := h.frames p hp
  rcases hm s hs x hx _ hmx with h0 | h0 <;> omega

/-- A step on one process that keeps its table and its trapframe page. -/
theorem update (h : Inv L k (p :: rest) buffers leak) (hpt : p'.pagetable = p.pagetable)
    (htf : p'.trapframe = p.trapframe)
    (hc : Coherent L k' (rootsOf (p :: rest)) (heldBy (p :: rest) buffers leak))
    (hs : Shape k'.mem p.pagetable (npagesOf p'.sz) topVpns)
    (hother : ∀ s ∈ rootsOf rest, ∀ x < vpnLimit, leaf k'.mem s x = leaf k.mem s x)
    (hm : ∀ x < userVpns, ∀ q, Maps (leaf k'.mem p.pagetable x) q →
      heldBy (p :: rest) buffers leak q = 0 ∨ 0 < mapCount k.mem (rootsOf (p :: rest)) q) :
    Inv L k' (p' :: rest) buffers leak := by
  have hroots : rootsOf (p' :: rest) = rootsOf (p :: rest) := by
    rw [rootsOf_cons, rootsOf_cons, hpt]
  have hheld : heldBy (p' :: rest) buffers leak = heldBy (p :: rest) buffers leak := by
    rw [heldBy_cons, heldBy_cons, htf]
  have hframes : ∀ q ∈ p :: rest, mapCount k'.mem (rootsOf (p :: rest)) q.trapframe = 0 := by
    intro q hq
    refine h.frames_of ?_ hq
    intro s hs x hx y hy
    rw [rootsOf_cons, Finset.mem_insert] at hs
    rcases hs with rfl | hs
    · exact hm x hx y hy
    · rw [hother s hs x (hx.trans userVpns_lt)] at hy
      right
      exact mapCount_pos (by rw [rootsOf_cons]; exact Finset.mem_insert_of_mem hs) hx hy
  refine ⟨by rw [hroots, hheld]; exact hc, ?_, ?_, ?_⟩
  · have := h.nodup
    simpa [hpt] using this
  · intro q hq
    rcases List.mem_cons.mp hq with rfl | hq
    · rw [hpt]
      exact hs
    · have hsq := h.shape q (List.mem_cons_of_mem _ hq)
      have hl : SameLeaves k k' (rootsOf rest) := hother
      exact hsq.same hl (mem_rootsOf hq)
  · intro q hq
    rw [hroots]
    rcases List.mem_cons.mp hq with rfl | hq
    · rw [htf]
      exact hframes p List.mem_cons_self
    · exact hframes q (List.mem_cons_of_mem _ hq)

/-- A step that leaves every table as it was. -/
theorem idle (h : Inv L k procs buffers leak) {buffers' : List ℕ} {leak' : ℕ → ℕ}
    (hc : Coherent L k' (rootsOf procs) (heldBy procs buffers' leak'))
    (hk : Shares k k' (rootsOf procs) (fun _ => 0) (fun _ _ => False)) :
    Inv L k' procs buffers' leak' where
  coherent := hc
  nodup := h.nodup
  shape p hp := (h.shape p hp).keep hk (mem_rootsOf hp) (by simp)
  frames p hp := by
    rw [mapCount_congr (m := k.mem), h.frames p hp]
    intro s hs x hx
    exact (hk.alike hs (hx.trans userVpns_lt) (by simp)).maps _

end Inv

/-! ## Where copy-on-write entries come from -/

/-- A store through the entry goes through, directly or after a copy. -/
abbrev pteWrites (w : Pte) : Bool := pteWritable w || pteCow w

/-- What a step may do to an entry: a copy-on-write entry mapped its page before, and an
entry that keeps its page gains no right to write. -/
structure Descends (w w' : Pte) : Prop where
  cow : ∀ p, Maps w' p → pteCow w' = true → Maps w p
  writes : ∀ p, Maps w p → Maps w' p → pteWrites w' = true → pteWrites w = true

theorem Descends.of_alike {w w' : Pte} (h : Alike w w') : Descends w w' :=
  ⟨fun p hp _ => (h.maps p).mp hp, fun _ _ _ hw => h.writes.symm.trans hw⟩

theorem Descends.of_eq {w w' : Pte} (h : w' = w) : Descends w w' := .of_alike (.of_eq h)

theorem Descends.of_new {w w' : Pte} (hc : pteCow w' = false)
    (hn : ∀ p, Maps w p → ¬ Maps w' p) : Descends w w' := by
  refine ⟨fun p _ hw => ?_, fun p hp hp' => absurd hp' (hn p hp)⟩
  rw [hc] at hw
  simp at hw

/-- Every copy-on-write entry after a step maps a page that some entry mapped before
the step and still maps, and no entry gains the right to write its page. -/
structure Lineage (k k' : Kernel) (roots roots' : Finset ℕ) : Prop where
  cow : ∀ s ∈ roots', ∀ x < userVpns, ∀ p, Maps (leaf k'.mem s x) p →
    pteCow (leaf k'.mem s x) = true → ∃ s0 ∈ roots, s0 ∈ roots' ∧ ∃ y < userVpns,
      Maps (leaf k.mem s0 y) p ∧ Maps (leaf k'.mem s0 y) p ∧ pteWrites (leaf k'.mem s0 y) = true
  writes : ∀ s ∈ roots, s ∈ roots' → ∀ x < userVpns, ∀ p, Maps (leaf k.mem s x) p →
    Maps (leaf k'.mem s x) p → pteWrites (leaf k'.mem s x) = true →
    pteWrites (leaf k.mem s x) = true

/-- Tables that were there before descend entry by entry; a table that is new has
copies of old entries or no copy-on-write entries. -/
theorem Lineage.of_descends
    (h : ∀ s ∈ roots, s ∈ roots' → ∀ x < userVpns, Descends (leaf k.mem s x) (leaf k'.mem s x))
    (hnew : ∀ s ∈ roots', s ∉ roots → ∀ x < userVpns, ∀ p, Maps (leaf k'.mem s x) p →
      pteCow (leaf k'.mem s x) = true → ∃ s0 ∈ roots, s0 ∈ roots' ∧
        Maps (leaf k'.mem s0 x) p ∧ Maps (leaf k.mem s0 x) p ∧
        pteWrites (leaf k'.mem s0 x) = true) :
    Lineage k k' roots roots' where
  cow s hs x hx p hp hc := by
    by_cases hsr : s ∈ roots
    · exact ⟨s, hsr, hs, x, hx, (h s hsr hs x hx).cow p hp hc, hp, by simp [pteWrites, hc]⟩
    · obtain ⟨s0, h0, h0', h1, h2, h3⟩ := hnew s hs hsr x hx p hp hc
      exact ⟨s0, h0, h0', x, hx, h2, h1, h3⟩
  writes s hs hs' x hx p hp hp' hw := (h s hs hs' x hx).writes p hp hp' hw

/-- Steps that add no table. -/
theorem Lineage.of_slots (hsub : roots' ⊆ roots)
    (h : ∀ s ∈ roots', ∀ x < userVpns, Descends (leaf k.mem s x) (leaf k'.mem s x)) :
    Lineage k k' roots roots' :=
  .of_descends (fun s _ hs' => h s hs') fun _ hs' hs => absurd (hsub hs') hs

theorem Lineage.of_shares {held : ℕ → ℕ} (hsub : roots' ⊆ roots)
    (h : Shares k k' roots' held (fun _ _ => False)) : Lineage k k' roots roots' :=
  .of_slots hsub fun _ hs _ hx => .of_alike (h.alike hs (hx.trans userVpns_lt) (by simp))

theorem Lineage.of_wrote {held : ℕ → ℕ} (hc : Coherent L k' roots held) (hr : r ∈ roots)
    (h : Wrote k k' roots held r) : Lineage k k' roots roots := by
  refine .of_slots subset_rfl fun s hs x hx => ?_
  by_cases hsr : s = r
  · subst hsr
    rcases h.own x hx with he | ⟨ha, hw⟩
    · exact .of_eq he
    · refine ⟨fun p hp hcow => ?_, fun p _ _ hww => ha.writes.symm.trans hww⟩
      rw [(hc.sharing.exclusive hs hx hp hw).1] at hcow
      simp at hcow
  · exact .of_eq (h.other s hs x (hx.trans userVpns_lt) (Or.inl hsr))

/-! ## One process changes its memory -/

theorem Inv.mem_roots (_ : Inv L k (p :: rest) buffers leak) :
    p.pagetable ∈ rootsOf (p :: rest) := mem_rootsOf List.mem_cons_self

theorem Inv.rest_subset (_ : Inv L k (p :: rest) buffers leak) :
    rootsOf rest ⊆ rootsOf (p :: rest) := by
  rw [rootsOf_cons]
  exact Finset.subset_insert _ _

section Update

variable (h : Inv L k (p :: rest) buffers leak)
include h

theorem Inv.shape_self : Shape k.mem p.pagetable (npagesOf p.sz) topVpns :=
  h.shape p List.mem_cons_self

/-- Memory of a process changes only at the pages from `n0` on, and what is mapped there
afterwards is new. -/
theorem Inv.regrow {sz n0 : ℕ} {w : Pte}
    (hc : Coherent L k' (rootsOf (p :: rest)) (heldBy (p :: rest) buffers leak))
    (hk : Keeps k k' (rootsOf (p :: rest)) (heldBy (p :: rest) buffers leak)
      (fun s x => s = p.pagetable ∧ n0 ≤ x ∧ x < userVpns))
    (hs : Shape k'.mem p.pagetable (npagesOf sz) topVpns)
    (hfresh : ∀ x, n0 ≤ x → x < npagesOf sz → FreshSlot k k' (rootsOf (p :: rest))
      (heldBy (p :: rest) buffers leak) p.pagetable w x) :
    Inv L k' ({ p with sz := sz } :: rest) buffers leak ∧
      Lineage k k' (rootsOf (p :: rest)) (rootsOf (p :: rest)) := by
  have hnew : ∀ x < userVpns, n0 ≤ x → pteValid (leaf k'.mem p.pagetable x) = true →
      FreshSlot k k' (rootsOf (p :: rest)) (heldBy (p :: rest) buffers leak) p.pagetable w
        x := by
    intro x hx hn hv
    rcases (hs.valid x (hx.trans userVpns_lt)).mp hv with hlt | hT
    · exact hfresh x hn hlt
    · have := (hs.above x hT).1
      omega
  constructor
  · refine h.update rfl rfl hc hs ?_ ?_
    · intro s hs' x hx
      refine (hk.slot s (h.rest_subset hs') x hx ?_).symm
      rintro ⟨rfl, -⟩
      exact h.not_mem_rest hs'
    · intro x hx q hq
      by_cases hn : n0 ≤ x
      · exact Or.inl ((hnew x hx hn hq.1).fresh q hq).1
      · rw [← hk.slot _ h.mem_roots x (hx.trans userVpns_lt) (by omega)] at hq
        exact Or.inr (mapCount_pos h.mem_roots hx hq)
  · refine .of_slots subset_rfl fun s hs' x hx => ?_
    by_cases hD : s = p.pagetable ∧ n0 ≤ x ∧ x < userVpns
    · obtain ⟨rfl, hn, -⟩ := hD
      by_cases hv : pteValid (leaf k'.mem p.pagetable x) = true
      · have hf := hnew x hx hn hv
        refine .of_new hf.cow fun q hq hq' => ?_
        have := mapCount_pos hs' hx hq
        have := (hf.fresh q hq').2
        omega
      · have hno := fun q => not_maps_of_not_valid (w := leaf k'.mem p.pagetable x)
          (by simpa using hv) q
        exact ⟨fun q hq _ => absurd hq (hno q), fun q _ hq => absurd hq (hno q)⟩
    · exact .of_eq (hk.slot s hs' x (hx.trans userVpns_lt) hD).symm

/-- A kernel or user write through the table of a process. -/
theorem Inv.wrote {killed : Bool}
    (hc : Coherent L k' (rootsOf (p :: rest)) (heldBy (p :: rest) buffers leak))
    (hw : Wrote k k' (rootsOf (p :: rest)) (heldBy (p :: rest) buffers leak) p.pagetable) :
    Inv L k' ({ p with killed := killed } :: rest) buffers leak ∧
      Lineage k k' (rootsOf (p :: rest)) (rootsOf (p :: rest)) := by
  refine ⟨h.update rfl rfl hc (h.shape_self.wrote hw h.mem_roots) ?_ ?_,
    .of_wrote hc h.mem_roots hw⟩
  · intro s hs x hx
    refine hw.other s (h.rest_subset hs) x hx (Or.inl ?_)
    rintro rfl
    exact h.not_mem_rest hs
  · intro x hx q hq
    rcases hw.own x hx with he | ⟨-, hwr⟩
    · rw [he] at hq
      exact Or.inr (mapCount_pos h.mem_roots hx hq)
    · exact Or.inl (hc.sharing.exclusive h.mem_roots hx hq hwr).2.1

end Update

end XV6AndConcurrency.VirtualMemory
