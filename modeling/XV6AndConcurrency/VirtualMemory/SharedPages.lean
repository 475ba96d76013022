import XV6AndConcurrency.VirtualMemory.Boot

/-!
# Shared pages are not writable

The permission bits over whole runs. Where a copy-on-write entry comes from is a
statement about the past, so a run is recorded with the states it went through.
-/

namespace XV6AndConcurrency.VirtualMemory

open Foundations

variable {L : Layout} {s s' : System} {past : List System} {q : ℕ}

/-- A user entry maps `q` and lets the hardware write it. -/
def WritableIn (s : System) (q : ℕ) : Prop :=
  ∃ p ∈ s.procs, ∃ x < userVpns, Maps (leaf s.kernel.mem p.pagetable x) q ∧
    pteWritable (leaf s.kernel.mem p.pagetable x) = true

/-- Some entry maps `q` before and after a step. -/
def Persists (s s' : System) (q : ℕ) : Prop :=
  ∃ r ∈ rootsOf s.procs, r ∈ rootsOf s'.procs ∧ ∃ x < userVpns,
    Maps (leaf s.kernel.mem r x) q ∧ Maps (leaf s'.kernel.mem r x) q

/-- `q` was writable in the state that first mapped it: the earliest one from which some
entry has mapped it in every step up to `s`. The past is given latest state first. -/
def FirstWritable (s : System) : List System → ℕ → Prop
  | [], q => WritableIn s q
  | s0 :: past, q => (Persists s0 s q ∧ FirstWritable s0 past q) ∨
      (¬ Persists s0 s q ∧ WritableIn s q)

/-- A run that records the states before the last one, latest first. -/
def record (L : Layout) : List Op → System → List System → Except Panic (System × List System)
  | [], s, past => .ok (s, past)
  | op :: ops, s, past => do
    let r ← step L op s
    record L ops r.2 (s :: past)

def bootRecord (L : Layout) (m : Memory) (ops : List Op) :
    Except Panic (System × List System) := do
  let r ← kinit L (Kernel.powerOn m)
  record L ops (System.afterKinit r.2) []

/-- Every entry through which a store goes maps a page that was writable at first. -/
def WritesFirst (s : System) (past : List System) : Prop :=
  ∀ p ∈ s.procs, ∀ x < userVpns, ∀ q, Maps (leaf s.kernel.mem p.pagetable x) q →
    pteWrites (leaf s.kernel.mem p.pagetable x) = true → FirstWritable s past q

theorem WritesFirst.step (h : WritesFirst s past) (ha : After L s s') :
    WritesFirst s' (s :: past) := by
  obtain ⟨leak, hinv, -⟩ := ha.sound
  intro p hp x hx q hq hw
  have hr := mem_rootsOf hp
  have hold : ∀ r ∈ rootsOf s.procs, r ∈ rootsOf s'.procs → ∀ y < userVpns,
      Maps (leaf s.kernel.mem r y) q → Maps (leaf s'.kernel.mem r y) q →
      pteWrites (leaf s'.kernel.mem r y) = true → FirstWritable s past q := by
    intro r hr hr' y hy hm hm' hw'
    obtain ⟨p0, hp0, rfl⟩ := exists_of_mem_rootsOf hr
    exact h p0 hp0 y hy q hm (ha.lineage.writes _ hr hr' y hy q hm hm' hw')
  by_cases hcow : pteCow (leaf s'.kernel.mem p.pagetable x) = true
  · obtain ⟨r, hr0, hr1, y, hy, hm, hm', hw'⟩ := ha.lineage.cow _ hr x hx q hq hcow
    exact Or.inl ⟨⟨r, hr0, hr1, y, hy, hm, hm'⟩, hold r hr0 hr1 y hy hm hm' hw'⟩
  · have hwr : pteWritable (leaf s'.kernel.mem p.pagetable x) = true := by
      simpa [pteWrites, hcow] using hw
    by_cases hper : Persists s s' q
    · obtain ⟨r, hr0, hr1, y, hy, hm, hm'⟩ := hper
      -- a writable page has one entry, so the entry that persists is this one
      obtain ⟨rfl, rfl⟩ := (hinv.coherent.sharing.exclusive hr hx hq hwr).2.2 hr1 hy hm'
      exact Or.inl ⟨⟨_, hr0, hr1, y, hy, hm, hm'⟩, hold _ hr0 hr1 y hy hm hm' hw⟩
    · exact Or.inr ⟨hper, p, hp, x, hx, hq, hwr⟩

theorem record_run (h : Sound L s) (hw : WritesFirst s past) (ops : List Op) :
    ∃ s' past', record L ops s past = .ok (s', past') ∧ Sound L s' ∧ WritesFirst s' past' := by
  induction ops generalizing s past with
  | nil => exact ⟨s, past, rfl, h, hw⟩
  | cons op ops ih =>
    obtain ⟨o, s1, hrun, ha⟩ := step_spec h op
    obtain ⟨s', past', hrec, hs', hw'⟩ := ih ha.sound (hw.step ha)
    exact ⟨s', past', by simp [record, hrun, hrec], hs', hw'⟩

theorem bootRecord_run (L : Layout) (m : Memory) (ops : List Op) :
    ∃ s past, bootRecord L m ops = .ok (s, past) ∧ Sound L s ∧ WritesFirst s past := by
  obtain ⟨k, hk, hs⟩ := kinit_run L m
  have hw : WritesFirst (System.afterKinit k) [] := by
    intro p hp
    simp [System.afterKinit] at hp
  obtain ⟨s, past, hrec, hs', hw'⟩ := record_run hs hw ops
  exact ⟨s, past, by simp [bootRecord, hk, hrec], hs', hw'⟩

/-- In every state of every run: two user entries that map one page are both read-only,
no entry is writable and copy-on-write at once, and a copy-on-write entry maps a page that
was writable when it was first mapped. -/
theorem shared_pages_not_writable (L : Layout) (m : Memory) (ops : List Op) :
    ∃ s past, bootRecord L m ops = .ok (s, past) ∧
      (∀ p ∈ s.procs, ∀ p' ∈ s.procs, ∀ x < npagesOf p.sz, ∀ x' < npagesOf p'.sz, ∀ q,
        Maps (leaf s.kernel.mem p.pagetable x) q → Maps (leaf s.kernel.mem p'.pagetable x') q →
        (p.pagetable, x) ≠ (p'.pagetable, x') →
        pteWritable (leaf s.kernel.mem p.pagetable x) = false ∧
        pteWritable (leaf s.kernel.mem p'.pagetable x') = false) ∧
      (∀ p ∈ s.procs, ∀ x < vpnLimit, pteValid (leaf s.kernel.mem p.pagetable x) = true →
        ¬ (pteWritable (leaf s.kernel.mem p.pagetable x) = true ∧
          pteCow (leaf s.kernel.mem p.pagetable x) = true)) ∧
      (∀ p ∈ s.procs, ∀ x < vpnLimit, ∀ q, Maps (leaf s.kernel.mem p.pagetable x) q →
        pteCow (leaf s.kernel.mem p.pagetable x) = true → FirstWritable s past q) := by
  obtain ⟨s, past, hrec, ⟨leak, hinv, -⟩, hw⟩ := bootRecord_run L m ops
  have hsh := hinv.coherent.sharing
  refine ⟨s, past, hrec, ?_, ?_, ?_⟩
  · intro p hp p' hp' x hx x' hx' q hq hq' hne
    have hxu := hx.trans_le (hinv.shape p hp).le
    have hxu' := hx'.trans_le (hinv.shape p' hp').le
    constructor
    · by_contra hwr
      obtain ⟨h1, h2⟩ := (hsh.exclusive (mem_rootsOf hp) hxu hq (by simpa using hwr)).2.2
        (mem_rootsOf hp') hxu' hq'
      exact hne (by rw [h1, h2])
    · by_contra hwr
      obtain ⟨h1, h2⟩ := (hsh.exclusive (mem_rootsOf hp') hxu' hq' (by simpa using hwr)).2.2
        (mem_rootsOf hp) hxu hq
      exact hne (by rw [h1, h2])
  · rintro p hp x hx hv ⟨hwr, hcow⟩
    by_cases hxu : x < userVpns
    · rw [(hsh.exclusive (mem_rootsOf hp) hxu ⟨hv, rfl⟩ hwr).1] at hcow
      simp at hcow
    · have hs := hinv.shape p hp
      rcases (hs.valid x hx).mp hv with hlt | hT
      · exact hxu (hlt.trans_le hs.le)
      · rw [(hs.kernel x hT).2] at hcow
        simp at hcow
  · intro p hp x hx q hq hcow
    have hs := hinv.shape p hp
    rcases (hs.valid x hx).mp hq.1 with hlt | hT
    · exact hw p hp x (hlt.trans_le hs.le) q hq (by simp [pteWrites, hcow])
    · rw [(hs.kernel x hT).2] at hcow
      simp at hcow

end XV6AndConcurrency.VirtualMemory
