import XV6AndConcurrency.Synchronization.Pipes
import XV6AndConcurrency.VirtualMemory.UserBytes

/-!
# Reading a pipe into user memory

`piperead` from the moment it holds the lock and does not sleep any more. It takes a byte
out of the ring before it knows whether the byte can be delivered.
-/

namespace XV6AndConcurrency.SystemCalls

open Foundations Scheduling Synchronization VirtualMemory

/-- `addr + i` as a `uint64`. -/
def byteAddr (addr i : ℕ) : ℕ := (addr + i) % 18446744073709551616

theorem byteAddr_inj {addr i j : ℕ} (hi : i < 4294967296) (hj : j < 4294967296)
    (h : byteAddr addr i = byteAddr addr j) : i = j := by
  unfold byteAddr at h
  omega

variable (L : Layout)

/-- The copy loop of `piperead` with `m` rounds to go. Returns `i`, the pipe, and whether
`p->killed` is set. -/
def pipereadCopy (p : Proc) (addr : ℕ) : ℕ → ℕ → Pipe → Bool → KernelM (ℕ × Pipe × Bool)
  | 0, i, d, killed => pure (i, d, killed)
  | m + 1, i, d, killed =>
    if d.empty then
      pure (i, d, killed)
    else do
      let ch := d.data (d.nread % pipesize)
      let d := d.pop
      let copied ← copyout L p.pagetable p.sz (byteAddr addr i) [ch]
      if copied.1 then pipereadCopy p addr m (i + 1) d (killed || copied.2)
      else pure (i, d, killed || copied.2)

/-- `piperead` by process `p` from the head of its first loop. `none` means that it goes to
sleep; otherwise the result, the pipe, and whether `p->killed` is set. -/
def piperead (p : Proc) (addr : ℕ) (n : ℤ) (d : Pipe) : KernelM (Option (ℤ × Pipe × Bool)) :=
  if d.empty ∧ d.writeopen then
    if p.killed then pure (some (-1, d, p.killed)) else pure none
  else do
    let r ← pipereadCopy L p addr n.toNat 0 d p.killed
    pure (some (r.1, r.2))

/-- A call that returned `r` has taken `r` bytes out of the pipe, and they are in the memory
of the reader; one that returned -1 has taken none. -/
def Consumed (k' : Kernel) (pagetable addr : ℕ) (d d' : Pipe) (r : ℤ) : Prop :=
  (r = -1 → d'.nread = d.nread) ∧
    (0 ≤ r → d'.nread = (d.nread + r.toNat) % 4294967296 ∧ r.toNat ≤ d.contents.length ∧
      ∀ i < r.toNat, userLoad k' pagetable (byteAddr addr i) = d.contents[i]?)

/-- The addresses of all bytes that the call may read are open to the reader. -/
def DestinationOpen (k : Kernel) (p : Proc) (addr : ℕ) (n : ℤ) (d : Pipe) : Prop :=
  ∀ i < min n.toNat d.occupied, Open k p.pagetable (byteAddr addr i / 4096)

/-! ## The copy loop -/

/-- The loop has delivered `t` of the `c` bytes that it may take, the `j`-th one to `dst j`,
and dropped one more if that address was not open. -/
structure Copied (k k' : Kernel) (r : ℕ) (dst : ℕ → ℕ) (c t : ℕ) (d d' : Pipe) : Prop where
  le : t ≤ c
  opened : ∀ j < t, Open k r (dst j / 4096)
  closed : t < c → ¬ Open k r (dst t / 4096)
  nread : d'.nread = (d.nread + t + if t < c then 1 else 0) % 4294967296
  bytes : ∀ j < t, userLoad k' r (dst j) = d.contents[j]?
  others : ∀ va, (∀ j < t, va ≠ dst j) → userLoad k' r va = userLoad k r va

variable {L} {k k' : Kernel} {roots : Finset ℕ} {held : ℕ → ℕ} {p : Proc} {addr i m n : ℕ}
  {T : Finset ℕ} {d d' : Pipe} {killed : Bool}

section

variable {k1 : Kernel} {r c t : ℕ} {dst : ℕ → ℕ}

theorem Copied.nil (hd : d.nread < 4294967296) : Copied k k r dst 0 0 d d where
  le := le_rfl
  opened := by simp
  closed := by simp
  nread := by simpa using (Nat.mod_eq_of_lt hd).symm
  bytes := by simp
  others := by simp

/-- What the queue of a pipe looks like before its oldest byte is taken. -/
theorem contents_pop (hr : d.nread < 4294967296) (hw : d.nwrite < 4294967296)
    (h : d.empty = false) : d.contents = d.data (d.nread % pipesize) :: d.pop.contents ∧
      d.occupied = d.pop.occupied + 1 := by
  have hne : d.nread ≠ d.nwrite := of_decide_eq_false h
  exact ⟨window_pop hr hw hne d.data, span_pred hr hw hne⟩

/-- A round that delivers its byte, and then the rest of the loop. -/
theorem Copied.step (hinj : ∀ j ≤ c, dst j = dst 0 → j = 0)
    (hcontents : d.contents = d.data (d.nread % pipesize) :: d.pop.contents)
    (hopen : Open k r (dst 0 / 4096)) (hsame : ∀ v, Open k1 r v ↔ Open k r v)
    (hview : userLoad k1 r = overlay (userLoad k r) (dst 0) [d.data (d.nread % pipesize)])
    (h : Copied k1 k' r (fun j => dst (j + 1)) c t d.pop d') :
    Copied k k' r dst (c + 1) (t + 1) d d' where
  le := Nat.succ_le_succ h.le
  opened j hj := by
    cases j with
    | zero => exact hopen
    | succ j => exact (hsame _).mp (h.opened j (Nat.lt_of_succ_lt_succ hj))
  closed hlt hclosed := h.closed (Nat.lt_of_succ_lt_succ hlt) ((hsame _).mpr hclosed)
  nread := by
    have hpop : d.pop.nread = incUint d.nread := rfl
    have hif : (if t + 1 < c + 1 then 1 else 0) = if t < c then 1 else 0 :=
      if_congr (by omega) rfl rfl
    rw [h.nread, hpop, hif]
    unfold incUint
    omega
  bytes j hj := by
    rw [hcontents]
    cases j with
    | zero =>
      have hle := h.le
      have hkeep := h.others (dst 0) fun j hj heq => by
        have := hinj (j + 1) (by omega) heq.symm
        omega
      rw [hkeep, hview, List.getElem?_cons_zero, overlay_singleton]
    | succ j =>
      rw [List.getElem?_cons_succ]
      exact h.bytes j (Nat.lt_of_succ_lt_succ hj)
  others va hva := by
    have hne := hva 0 (Nat.succ_pos t)
    rw [h.others va fun j hj => hva (j + 1) (Nat.succ_lt_succ hj), hview]
    apply VirtualMemory.overlay_of_not_mem
    rw [List.length_singleton]
    omega

end

/-- The loop stops at the first address that is not open, one byte too late. -/
theorem pipereadCopy_spec (h : Coherent L k roots held) (hr : p.pagetable ∈ roots)
    (hs : Shape k.mem p.pagetable n T) (hsz : ∀ x < n, x * 4096 < p.sz)
    (hd : d.nread < 4294967296) (hw : d.nwrite < 4294967296)
    (hi : i + d.occupied < 4294967296) :
    Ensures (pipereadCopy L p addr m i d killed) (fun res k' => ∃ t, res.1 = i + t ∧
      Copied k k' p.pagetable (fun j => byteAddr addr (i + j)) (min m d.occupied) t d res.2.1)
      k := by
  induction m generalizing i d killed k with
  | zero =>
    refine .of_pure ⟨0, rfl, ?_⟩
    rw [Nat.zero_min]
    exact .nil hd
  | succ m ih =>
    unfold pipereadCopy
    by_cases hempty : d.empty = true
    · rw [if_pos hempty]
      have hzero : d.occupied = 0 := (span_eq_zero hd hw).mpr (of_decide_eq_true hempty)
      refine .of_pure ⟨0, rfl, ?_⟩
      rw [hzero, Nat.min_zero]
      exact .nil hd
    · obtain ⟨hcontents, hoccupied⟩ := contents_pop hd hw (by simpa using hempty)
      have hmin : min (m + 1) d.occupied = min m d.pop.occupied + 1 := by omega
      have hpop : d.pop.nread < 4294967296 := Nat.mod_lt _ (by norm_num)
      rw [if_neg hempty, hmin]
      refine .bind (copyout_delivers h hr hs hsz) ?_
      rintro copied k1 ⟨⟨hc1, hs1, -⟩, hcopied, hsame, hview⟩
      by_cases hopen : Open k p.pagetable (byteAddr addr i / 4096)
      · have hone : delivered k p.pagetable (byteAddr addr i) 1 = 1 := if_pos hopen
        rw [List.length_singleton, hone] at hcopied hview
        rw [if_pos (hcopied.mpr rfl)]
        refine (ih hc1 hs1 hpop hw (by omega)).mono ?_
        rintro res k2 ⟨t, hres, hcopy⟩
        refine ⟨t + 1, by omega, Copied.step ?_ hcontents hopen hsame hview ?_⟩
        · intro j hj heq
          have := byteAddr_inj (by omega) (by omega) heq
          omega
        · have hshift : (fun j => byteAddr addr (i + (j + 1))) =
              fun j => byteAddr addr (i + 1 + j) :=
            funext fun j => congrArg (byteAddr addr) (by omega)
          rw [hshift]
          exact hcopy
      · have hnone : delivered k p.pagetable (byteAddr addr i) 1 = 0 := if_neg hopen
        rw [List.length_singleton, hnone] at hcopied hview
        rw [if_neg (by simpa using hcopied)]
        refine .of_pure ⟨0, rfl, ⟨Nat.zero_le _, by simp, fun _ => hopen, ?_, by simp, ?_⟩⟩
        · rw [if_pos (Nat.succ_pos _)]
          rfl
        · intro va _
          rw [hview, List.take_zero, overlay_nil]

/-! ## The call -/

/-- In every state of every run, a read consumes exactly what it delivers if and only if it
has to wait or every byte it may read has an open destination. -/
theorem piperead_consumes_iff (L : Layout) (mem : Memory) (ops : List VirtualMemory.Op) :
    ∃ os s, boot L mem ops = .ok (os, s) ∧ ∀ p ∈ s.procs, ∀ (d : Pipe) (addr : ℕ) (n : ℤ),
      d.nread < 4294967296 → d.nwrite < 4294967296 →
      ∃ res k', piperead L p addr n d s.kernel = .ok (res, k') ∧
        ((∀ r d' killed, res = some (r, d', killed) →
            Consumed k' p.pagetable addr d d' r) ↔
          d.empty ∧ d.writeopen ∨ DestinationOpen s.kernel p addr n d) := by
  obtain ⟨os, s, hrun, leak, hinv, -⟩ := boot_run L mem ops
  refine ⟨os, s, hrun, fun p hp d addr n hd hw => ?_⟩
  have hs := hinv.shape p hp
  have hsz : ∀ x < npagesOf p.sz, x * 4096 < p.sz := by
    intro x hx
    unfold npagesOf at hx
    omega
  unfold piperead
  by_cases hwait : d.empty = true ∧ d.writeopen = true
  · rw [if_pos hwait]
    cases hkilled : p.killed with
    | true =>
      refine ⟨_, _, rfl, iff_of_true ?_ (.inl hwait)⟩
      rintro r d' killed heq
      cases heq
      exact ⟨fun _ => rfl, fun h => absurd h (by decide)⟩
    | false => exact ⟨_, _, rfl, iff_of_true nofun (.inl hwait)⟩
  · rw [if_neg hwait]
    obtain ⟨res, k', hcopy, t, hres, hcopied⟩ := @pipereadCopy_spec _ _ _ _ _ addr 0 n.toNat _ _ d
      p.killed hinv.coherent (mem_rootsOf hp) hs hsz hd hw
      (by rw [Nat.zero_add]; exact span_lt hd)
    refine ⟨some (res.1, res.2), k', by simp [hcopy], ?_⟩
    have hlt : d.occupied < 4294967296 := span_lt hd
    have hlen : d.contents.length = d.occupied := window_length _
    have hle := hcopied.le
    constructor
    · intro hall
      right
      obtain ⟨-, hconsumed⟩ := hall _ _ _ rfl
      obtain ⟨hnread, -⟩ := hconsumed (by omega)
      rw [hcopied.nread] at hnread
      have hdone : t = min n.toNat d.occupied := by
        split_ifs at hnread <;> omega
      intro j hj
      have := hcopied.opened j (by omega)
      rwa [Nat.zero_add] at this
    · intro hopen
      have hopen : DestinationOpen s.kernel p addr n d := hopen.resolve_left hwait
      have hdone : ¬ t < min n.toNat d.occupied := by
        intro hlt
        apply hcopied.closed hlt
        rw [Nat.zero_add]
        exact hopen t hlt
      intro r d' killed heq
      obtain ⟨rfl, hd'⟩ := Prod.mk.inj (Option.some.inj heq)
      obtain rfl : res.2.1 = d' := congrArg Prod.fst hd'
      refine ⟨fun h => by omega, fun _ => ?_⟩
      have ht : ((res.1 : ℤ)).toNat = t := by omega
      rw [ht, hlen]
      refine ⟨?_, by omega, fun j hj => ?_⟩
      · rw [hcopied.nread, if_neg hdone, Nat.add_zero]
      · have := hcopied.bytes j hj
        rwa [Nat.zero_add] at this

/-- A pipe with one byte in it. -/
def oneByte : Pipe := { data := fun _ => 7, nwrite := 1 }

/-- A read into memory that the process does not have: it returns 0, and the byte is gone. -/
theorem piperead_drops_byte :
    ∃ os s p r d' killed k', boot smallLayout (fun _ _ => 0) [.userinit] = .ok (os, s) ∧
      p ∈ s.procs ∧
      piperead smallLayout p 4096 1 oneByte s.kernel = .ok (some (r, d', killed), k') ∧
      ¬ Consumed k' p.pagetable 4096 oneByte d' r := by
  obtain ⟨os, s, hrun, -⟩ := boot_run smallLayout (fun _ _ => 0) [.userinit]
  have heval : ((boot smallLayout (fun _ _ => 0) [.userinit]).toOption.any fun x =>
      x.2.procs.head?.any fun p =>
        (piperead smallLayout p 4096 1 oneByte x.2.kernel).toOption.any fun y =>
          y.1.any fun z => decide (z.1 = 0 ∧ z.2.1.nread = 1)) = true := by
    decide +kernel
  rw [hrun] at heval
  obtain ⟨k, procs, buffers, copyFailed⟩ := s
  cases procs with
  | nil => cases heval
  | cons p rest =>
    change (piperead smallLayout p 4096 1 oneByte k).toOption.any _ = true at heval
    cases hread : piperead smallLayout p 4096 1 oneByte k with
    | error e =>
      rw [hread] at heval
      cases heval
    | ok y =>
      rw [hread] at heval
      obtain ⟨z, k'⟩ := y
      cases z with
      | none => cases heval
      | some z =>
        obtain ⟨r, d', killed⟩ := z
        obtain ⟨hr, hnread⟩ := of_decide_eq_true heval
        dsimp only at hr hnread
        subst hr
        refine ⟨os, _, p, 0, d', killed, k', hrun, by simp, hread, fun hconsumed => ?_⟩
        have hkeep := (hconsumed.2 le_rfl).1
        rw [hnread] at hkeep
        exact absurd hkeep (by decide)

end XV6AndConcurrency.SystemCalls
