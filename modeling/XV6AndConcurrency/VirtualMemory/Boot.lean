import XV6AndConcurrency.VirtualMemory.Steps

/-!
# The state that kinit leaves

`freerange` frees every page once. The counts start at zero, so they go to -1 and every
page lands on the free list. `Booted` says how far the loop is.
-/

namespace XV6AndConcurrency.VirtualMemory

open Foundations

variable {L : Layout} {k : Kernel} {m : Memory} {p : ℕ}

/-- The pages below `p` are free, and the counts from there on are zero. -/
structure Booted (L : Layout) (k : Kernel) (p : ℕ) : Prop where
  nodup : k.freelist.Nodup
  free : ∀ q, q ∈ k.freelist ↔ IsPage L q ∧ q < p
  spent : ∀ q ∈ k.freelist, k.refs q ≤ 0
  rest : ∀ q, q % 4096 = 0 → p ≤ q → k.refs q = 0

theorem Booted.release (h : Booted L k p) (hp : IsPage L p) :
    Booted L (k.release p) (p + pgsize) := by
  have hrefs := h.rest p hp.1 le_rfl
  have hfl : (k.release p).freelist = p :: k.freelist := by
    rw [k.release_freelist, if_neg (by omega)]
  have hne : ∀ q ∈ k.freelist, IsPage L q ∧ q ≠ p := fun q hq => by
    have := (h.free q).mp hq
    exact ⟨this.1, by omega⟩
  refine ⟨?_, ?_, ?_, ?_⟩
  · rw [hfl, List.nodup_cons]
    exact ⟨fun hq => (hne p hq).2 rfl, h.nodup⟩
  · intro q
    rw [hfl, List.mem_cons, h.free]
    constructor
    · rintro (rfl | ⟨hq, hlt⟩)
      · exact ⟨hp, by unfold pgsize; omega⟩
      · exact ⟨hq, by omega⟩
    · rintro ⟨hq, hlt⟩
      have h1 := hq.1
      have h2 := hp.1
      unfold pgsize at hlt
      by_cases hqp : q = p
      · exact Or.inl hqp
      · exact Or.inr ⟨hq, by omega⟩
  · intro q hq
    rw [hfl, List.mem_cons] at hq
    rcases hq with rfl | hq
    · rw [k.release_refs_self]
      omega
    · rw [k.release_refs_of_ne hp.1 (hne q hq).1.1 (hne q hq).2]
      exact h.spent q hq
  · intro q hq hle
    unfold pgsize at hle
    rw [k.release_refs_of_ne hp.1 hq (by omega)]
    exact h.rest q hq (by omega)

theorem freerange_spec {n : ℕ} (h : Booted L k p) (hp : p % 4096 = 0) (hlo : L.endAddr ≤ p)
    (hhi : p + n * 4096 ≤ phystop) :
    Ensures (freerange L p n) (fun _ k' => Booted L k' (p + n * 4096)) k := by
  induction n generalizing k p with
  | zero => exact .of_pure (by simpa using h)
  | succ n ih =>
    have hpage : IsPage L p := ⟨hp, hlo, by omega⟩
    unfold freerange
    refine .bind_of_run (kfree_run hpage) ?_
    have := ih (h.release hpage) (by unfold pgsize; omega) (by omega) (by unfold pgsize; omega)
    rwa [show p + pgsize + n * 4096 = p + (n + 1) * 4096 by unfold pgsize; omega] at this

theorem Booted.balanced (h : Booted L k phystop) : Coherent L k ∅ (fun _ => 0) := by
  have hno : ∀ t, ¬ IsTable k.mem ∅ t := by
    rintro t ⟨a, ha⟩
    cases a <;> simp [At] at ha
  have hown : ∀ q, owners k.mem ∅ (fun _ => 0) q = 0 := by
    intro q
    simp [owners, mapCount, hno]
  refine ⟨⟨⟨?_, ?_⟩, h.nodup, ?_, ?_, h.spent, ?_⟩, ⟨?_, ?_⟩⟩
  · intro t a b ha _
    exact absurd ⟨a, ha⟩ (hno t)
  · intro a t i ha
    exact absurd ⟨a, ha⟩ (hno t)
  · intro q hq
    rw [hown] at hq
    omega
  · intro q
    rw [h.free, hown]
    exact ⟨fun hq => ⟨hq.1, rfl⟩, fun hq => ⟨hq.1, hq.1.2.2⟩⟩
  · intro t ht
    exact absurd ht (hno t)
  · intro r v q hr
    simp at hr
  · intro r v x q hr
    simp at hr

theorem kinit_spec (L : Layout) (m : Memory) :
    Ensures (kinit L) (fun _ k => Coherent L k ∅ (fun _ => 0)) (Kernel.powerOn m) := by
  have hend := L.end_lt_phystop
  have hps : phystop = 0x88000000 := rfl
  have hup : pgroundup L.endAddr = npagesOf L.endAddr * 4096 := pgroundup_eq (by omega)
  have hn : L.endAddr ≤ npagesOf L.endAddr * 4096 ∧ npagesOf L.endAddr * 4096 ≤ phystop ∧
      npagesOf L.endAddr * 4096 < L.endAddr + 4096 := by
    unfold npagesOf
    omega
  have hstart : Booted L (Kernel.powerOn m) (npagesOf L.endAddr * 4096) := by
    refine ⟨List.nodup_nil, ?_, by simp [Kernel.powerOn], fun _ _ _ => rfl⟩
    intro q
    simp only [Kernel.powerOn, List.not_mem_nil, false_iff, not_and]
    rintro ⟨h1, h2, -⟩
    omega
  have hcount : npagesOf L.endAddr * 4096 +
      (phystop - npagesOf L.endAddr * 4096) / pgsize * 4096 = phystop := by
    unfold pgsize
    omega
  unfold kinit
  rw [hup]
  refine (freerange_spec hstart (by omega) hn.1 (by rw [hcount])).mono ?_
  rintro _ k hk
  rw [hcount] at hk
  exact hk.balanced

theorem afterKinit_sound (h : Coherent L k ∅ (fun _ => 0)) : Sound L (System.afterKinit k) := by
  refine ⟨fun _ => 0, ⟨?_, List.nodup_nil, ?_, ?_⟩, fun _ _ => rfl⟩
  · exact h
  · intro p hp
    simp [System.afterKinit] at hp
  · intro p hp
    simp [System.afterKinit] at hp

/-- Power on and `kinit` succeed, and leave a sound state. -/
theorem kinit_run (L : Layout) (m : Memory) : ∃ k, kinit L (Kernel.powerOn m) = .ok ((), k) ∧
    Sound L (System.afterKinit k) := by
  obtain ⟨_, k, hk, hc⟩ := kinit_spec L m
  exact ⟨k, hk, afterKinit_sound hc⟩

/-- A state that some run from power-on reaches. -/
def Reachable (L : Layout) (s : System) : Prop := ∃ m ops os, boot L m ops = .ok (os, s)

variable {s : System}

/-- No run ends in a panic, and the states it reaches are sound. -/
theorem boot_run (L : Layout) (m : Memory) (ops : List Op) :
    ∃ os s, boot L m ops = .ok (os, s) ∧ Sound L s := by
  obtain ⟨k, hk, hs⟩ := kinit_run L m
  obtain ⟨os, s, hrun, hsound⟩ := run_spec hs ops
  exact ⟨os, s, by simp [boot, hk, hrun], hsound⟩

theorem Reachable.sound (h : Reachable L s) : Sound L s := by
  obtain ⟨m, ops, os, hrun⟩ := h
  obtain ⟨os', s', hrun', hs⟩ := boot_run L m ops
  rw [hrun] at hrun'
  cases hrun'
  exact hs

/-! ## Address spaces -/

theorem mem_topVpns {x : ℕ} :
    x ∈ topVpns ↔ x = trapframeVa / pgsize ∨ x = trampolineVa / pgsize := by
  rw [show trapframeVa / pgsize = trapframeVpn from rfl,
    show trampolineVa / pgsize = trampolineVpn from rfl]
  simp [topVpns]

theorem pgroundup_div {sz : ℕ} (h : npagesOf sz ≤ userVpns) :
    pgroundup sz / pgsize = npagesOf sz := by
  have := npagesOf_lt h
  rw [pgroundup_eq (by omega)]
  unfold pgsize
  omega

/-- No run panics, and in every state it reaches a process has mapped the pages below its
size, the trapframe and the trampoline, and nothing else. -/
theorem address_space_shape (L : Layout) (m : Memory) (ops : List Op) :
    ∃ os s, boot L m ops = .ok (os, s) ∧ ∀ p ∈ s.procs, ∀ x < vpnLimit,
      (pteValid (leaf s.kernel.mem p.pagetable x) = true ↔
        x < pgroundup p.sz / pgsize ∨ x = trapframeVa / pgsize ∨ x = trampolineVa / pgsize) := by
  obtain ⟨os, s, hrun, leak, hinv, -⟩ := boot_run L m ops
  refine ⟨os, s, hrun, fun p hp x hx => ?_⟩
  have hs := hinv.shape p hp
  rw [hs.valid x hx, pgroundup_div hs.le, mem_topVpns]

end XV6AndConcurrency.VirtualMemory
