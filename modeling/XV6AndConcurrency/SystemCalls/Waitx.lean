import XV6AndConcurrency.Scheduling.Calls
import XV6AndConcurrency.VirtualMemory.UserBytes

/-!
# Collecting a child with waitx

`sys_waitx` on the process table and the memory of the caller. The child is freed before
the two times are copied out, and when `waitx` fails its caller copies out the two locals
all the same.
-/

namespace XV6AndConcurrency.SystemCalls

open Foundations Scheduling VirtualMemory

/-- What reached user memory: addresses, each with the bytes that were stored there. -/
abbrev Stores := List (ℕ × List Byte)

/-- A value of 32 bits in memory. -/
def bytes32 (v : ℕ) : List Byte := (List.range 4).map fun i => BitVec.ofNat 8 (v / 256 ^ i)

@[simp] theorem bytes32_length (v : ℕ) : (bytes32 v).length = 4 := by simp [bytes32]

structure Delivery where
  copied : Bool
  killed : Bool
  stores : Stores

/-- The result of `waitx`, or of `sys_waitx`, with the locals of the latter. -/
structure Waited where
  ret : ℤ
  wtime : ℕ
  rtime : ℕ
  table : Table
  stores : Stores

/-- A child that `waitx` can collect. -/
def zombieChild (me : ℕ) (t : Task) : Bool := t.parent = some me ∧ t.state = .zombie

/-- `havekids` at the end of the scan. -/
def havekids (T : Table) (me : ℕ) : Bool := slots.any fun i => (T i).parent = some me

/-- What `copyout` does to `p->killed`. -/
def setKilled (T : Table) (me : ℕ) (killed : Bool) : Table :=
  if killed then T.set me { T me with killed := 1 } else T

variable (L : Layout)

/-- `copyout`, with a history of what it stored. -/
def deliver (p : Proc) (dstva : ℕ) (src : List Byte) : KernelM Delivery := do
  let n ← look fun k => delivered k p.pagetable dstva src.length
  let r ← copyout L p.pagetable p.sz dstva src
  pure ⟨r.1, r.2, [(dstva, src.take n)]⟩

/-- `waitx` by the process in slot `me` up to its return, or to its next sleep, which is
`none`. `space` holds the address spaces, and `stale` what the caller's locals hold. -/
def waitx (T : Table) (space : ℕ → Proc) (me addr : ℕ) (stale : ℕ × ℕ) :
    KernelM (Option Waited) :=
  match T.findSlot (zombieChild me) with
  | some np => do
    let times := waitxTimes (T np)
    let status ← (if addr = 0 then pure ⟨true, false, []⟩
      else deliver L (space me) addr (bytes32 (toUint (T np).xstate)))
    let T' := setKilled T me status.killed
    if status.copied then do
      freeproc L (space np)
      pure (some ⟨(T np).pid, times.2, times.1, T'.set np (freeTask (T' np)), status.stores⟩)
    else
      pure (some ⟨-1, times.2, times.1, T', status.stores⟩)
  | none =>
    if ¬ havekids T me ∨ (T me).killed ≠ 0 then pure (some ⟨-1, stale.1, stale.2, T, []⟩)
    else pure none

/-- What `sys_waitx` does after `waitx` has returned. -/
def report (p : Proc) (me addr1 addr2 : ℕ) (w : Waited) : KernelM Waited := do
  let d1 ← deliver L p addr1 (bytes32 w.wtime)
  let w := { w with table := setKilled w.table me d1.killed, stores := w.stores ++ d1.stores }
  if d1.copied then do
    let d2 ← deliver L p addr2 (bytes32 w.rtime)
    let w := { w with table := setKilled w.table me d2.killed, stores := w.stores ++ d2.stores }
    if d2.copied then pure w else pure { w with ret := -1 }
  else
    pure { w with ret := -1 }

def sysWaitx (T : Table) (space : ℕ → Proc) (me addr addr1 addr2 : ℕ) (stale : ℕ × ℕ) :
    KernelM (Option Waited) := do
  let w ← waitx L T space me addr stale
  match w with
  | none => pure none
  | some w => do
    let w ← report L (space me) me addr1 addr2 w
    pure (some w)

/-! ## The contract -/

/-- The stores of the exit status; a null pointer asks for none. -/
def statusStores (addr : ℕ) (t : Task) : Stores :=
  if addr = 0 then [] else [(addr, bytes32 (toUint t.xstate))]

/-- A call that returns -1 has collected no child and stored nothing; any other has
collected one and delivered everything that was asked for. -/
structure MeetsWaitx (T : Table) (me addr addr1 addr2 : ℕ) (w : Waited) : Prop where
  failed : w.ret = -1 → (∀ i, zombieChild me (T i) = true → zombieChild me (w.table i) = true) ∧
    ∀ e ∈ w.stores, e.2 = []
  collected : w.ret ≠ -1 → ∃ np, T.findSlot (zombieChild me) = some np ∧ w.ret = (T np).pid ∧
    (w.table np).state = .unused ∧ w.stores = statusStores addr (T np) ++
      [(addr1, bytes32 (waitxTimes (T np)).2), (addr2, bytes32 (waitxTimes (T np)).1)]

/-- Four bytes fit behind an address. -/
def Writable (k : Kernel) (r addr : ℕ) : Prop := ∀ i < 4, Open k r ((addr + i) / 4096)

/-- With a child to collect, either every address takes its four bytes, or neither the
status nor the first time gets started; without one the call sleeps, or the first time does
not get started. -/
def Deliverable (k : Kernel) (T : Table) (r me addr addr1 addr2 : ℕ) : Prop :=
  match T.findSlot (zombieChild me) with
  | some np => (T np).pid ≠ -1 ∧ (addr = 0 ∨ Writable k r addr) ∧ Writable k r addr1 ∧
      Writable k r addr2 ∨
    addr ≠ 0 ∧ ¬ Open k r (addr / 4096) ∧ ¬ Open k r (addr1 / 4096)
  | none => havekids T me = true ∧ (T me).killed = 0 ∨ ¬ Open k r (addr1 / 4096)

/-- A memory after stores. -/
def stored (f : ℕ → Option Byte) (stores : Stores) : ℕ → Option Byte :=
  stores.foldl (fun f e => overlay f e.1 e.2) f

/-! ## The table -/

variable {L} {T : Table} {space : ℕ → Proc} {me np addr addr1 addr2 i : ℕ} {stale : ℕ × ℕ}
  {w : Waited}

theorem setKilled_state (T : Table) (me i : ℕ) (killed : Bool) :
    (setKilled T me killed i).state = (T i).state ∧
      (setKilled T me killed i).parent = (T i).parent := by
  unfold setKilled
  split_ifs
  · rw [Table.set_apply]
    split_ifs with h
    · rw [h]
      exact ⟨rfl, rfl⟩
    · exact ⟨rfl, rfl⟩
  · exact ⟨rfl, rfl⟩

theorem zombieChild_setKilled (T : Table) (me i : ℕ) (killed : Bool) :
    zombieChild me (setKilled T me killed i) = zombieChild me (T i) := by
  obtain ⟨hstate, hparent⟩ := setKilled_state T me i killed
  unfold zombieChild
  rw [hstate, hparent]

/-! ## The memory -/

variable {k k' : Kernel} {roots : Finset ℕ} {held : ℕ → ℕ} {p c : Proc}

/-- The kernel has the address space of `p`. -/
structure Serves (L : Layout) (k : Kernel) (roots : Finset ℕ) (held : ℕ → ℕ) (p : Proc) :
    Prop where
  coherent : Coherent L k roots held
  mem : p.pagetable ∈ roots
  shape : Shape k.mem p.pagetable (npagesOf p.sz) topVpns

theorem pages_below_size {sz : ℕ} : ∀ x < npagesOf sz, x * 4096 < sz := by
  intro x hx
  unfold npagesOf at hx
  omega

theorem deliver_spec (h : Serves L k roots held p) (dstva : ℕ) (src : List Byte) :
    Ensures (deliver L p dstva src) (fun d k' => Serves L k' roots held p ∧
      Wrote k k' roots held p.pagetable ∧
      (d.copied = true ↔ delivered k p.pagetable dstva src.length = src.length) ∧
      (∀ v, Open k' p.pagetable v ↔ Open k p.pagetable v) ∧
      d.stores = [(dstva, src.take (delivered k p.pagetable dstva src.length))] ∧
      userLoad k' p.pagetable = stored (userLoad k p.pagetable) d.stores) k := by
  unfold deliver
  refine .look_bind (.bind (copyout_delivers h.coherent h.mem h.shape pages_below_size) ?_)
  rintro r k1 ⟨⟨hc, hs, hw⟩, hcopied, hopen, hview⟩
  exact .of_pure ⟨⟨hc, h.mem, hs⟩, hw, hcopied, hopen, rfl, hview⟩

/-- The address space of another process is left alone. -/
theorem Serves.other (h : Serves L k roots held c) (hw : Wrote k k' roots held p.pagetable)
    (hc : Coherent L k' roots held) (hne : c.pagetable ≠ p.pagetable) :
    Serves L k' roots held c where
  coherent := hc
  mem := h.mem
  shape := by
    have hleaf : ∀ x < vpnLimit, leaf k'.mem c.pagetable x = leaf k.mem c.pagetable x :=
      fun x hx => hw.other _ h.mem x hx (.inl hne)
    exact h.shape.congr hleaf

/-- Freeing one process does not show in the memory of another. -/
theorem freeproc_serves (hp : Serves L k roots held p) (hc : Serves L k roots held c)
    (hne : p.pagetable ≠ c.pagetable) (hframe : 0 < held c.trapframe) :
    Ensures (freeproc L c) (fun _ k' => (∃ roots held, Serves L k' roots held p) ∧
      (∀ v, Open k' p.pagetable v ↔ Open k p.pagetable v) ∧
      userLoad k' p.pagetable = userLoad k p.pagetable) k := by
  refine (freeproc_spec hc.coherent hc.mem hc.shape hframe).mono ?_
  rintro _ k1 ⟨hc1, hk1⟩
  have hmem : p.pagetable ∈ roots.erase c.pagetable := Finset.mem_erase.mpr ⟨hne, hp.mem⟩
  have hleaf : ∀ x < vpnLimit, leaf k1.mem p.pagetable x = leaf k.mem p.pagetable x :=
    fun x hx => (hk1.slot _ hmem x hx (by simp)).symm
  refine ⟨⟨_, _, hc1, hmem, hp.shape.congr hleaf⟩, ?_, ?_⟩
  · intro v
    unfold Open
    by_cases hv : v * 4096 < maxva
    · have hvl := lt_vpnLimit_of_lt_maxva hv
      rw [Nat.mul_div_cancel v (by decide)] at hvl
      rw [hleaf v hvl]
    · simp [hv]
  · funext va
    by_cases hva : va < maxva
    · have hvl := lt_vpnLimit_of_lt_maxva hva
      simp only [userLoad, VirtualMemory.translate, hva, if_true, hleaf _ hvl]
      split_ifs with haccess
      · simp only [Bool.and_eq_true] at haccess
        have hlt := (hp.shape.lt_of_user hvl haccess.1.1 haccess.1.2).trans_le hp.shape.le
        rw [hk1.bytes _ hmem _ hlt (by simp) _ ⟨haccess.1.1, rfl⟩]
      · rfl
    · simp [userLoad, VirtualMemory.translate, hva]

/-! ## The two halves of the call -/

/-- How `waitx` can end, when `copied` bytes of the exit status find room. -/
inductive Ended (T : Table) (me addr copied : ℕ) (stale : ℕ × ℕ) : Option Waited → Prop
  | sleeps (hfind : T.findSlot (zombieChild me) = none) (hkids : havekids T me = true)
      (hkilled : (T me).killed = 0) : Ended T me addr copied stale none
  | childless (hfind : T.findSlot (zombieChild me) = none)
      (hno : ¬ (havekids T me = true ∧ (T me).killed = 0)) :
      Ended T me addr copied stale (some ⟨-1, stale.1, stale.2, T, []⟩)
  | refused (np : ℕ) (killed : Bool) (hfind : T.findSlot (zombieChild me) = some np)
      (haddr : addr ≠ 0) (hcopied : copied ≠ 4) : Ended T me addr copied stale
        (some ⟨-1, (waitxTimes (T np)).2, (waitxTimes (T np)).1, setKilled T me killed,
          [(addr, (bytes32 (toUint (T np).xstate)).take copied)]⟩)
  | collected (np : ℕ) (killed : Bool) (hfind : T.findSlot (zombieChild me) = some np)
      (hcopied : addr = 0 ∨ copied = 4) : Ended T me addr copied stale
        (some ⟨(T np).pid, (waitxTimes (T np)).2, (waitxTimes (T np)).1,
          (setKilled T me killed).set np (freeTask (setKilled T me killed np)),
          statusStores addr (T np)⟩)

/-- The memory of the caller after the stores of `res`; which pages are open has not changed. -/
structure Seen (L : Layout) (k k' : Kernel) (p : Proc) (stores : Stores) : Prop where
  serves : ∃ roots held, Serves L k' roots held p
  opened : ∀ v, Open k' p.pagetable v ↔ Open k p.pagetable v
  memory : userLoad k' p.pagetable = stored (userLoad k p.pagetable) stores

theorem waitx_spec (hp : Serves L k roots held (space me))
    (hchild : ∀ np, T.findSlot (zombieChild me) = some np → Serves L k roots held (space np) ∧
      (space np).pagetable ≠ (space me).pagetable ∧ 0 < held (space np).trapframe) :
    Ensures (waitx L T space me addr stale) (fun res k' =>
      Ended T me addr (delivered k (space me).pagetable addr 4) stale res ∧
      Seen L k k' (space me) (res.elim [] Waited.stores)) k := by
  unfold waitx
  cases hfind : T.findSlot (zombieChild me) with
  | none =>
    dsimp only
    split_ifs with hno
    · refine .of_pure ⟨.childless hfind ?_, ⟨_, _, hp⟩, fun _ => Iff.rfl, rfl⟩
      rintro ⟨hkids, hkilled⟩
      exact hno.elim (fun h => h hkids) fun h => h hkilled
    · refine .of_pure ⟨.sleeps hfind ?_ ?_, ⟨_, _, hp⟩, fun _ => Iff.rfl, rfl⟩
      · by_contra hkids
        exact hno (.inl hkids)
      · by_contra hkilled
        exact hno (.inr hkilled)
  | some np =>
    obtain ⟨hc, hne, hframe⟩ := hchild np hfind
    dsimp only
    by_cases haddr : addr = 0
    · rw [if_pos haddr]
      refine .bind_of_run rfl ?_
      dsimp only
      rw [if_pos rfl]
      refine .bind (freeproc_serves hp hc hne.symm hframe) ?_
      rintro _ k1 ⟨hserves, hopen, hview⟩
      have hstores : statusStores addr (T np) = [] := if_pos haddr
      refine .of_pure ⟨?_, hserves, hopen, hview⟩
      rw [← hstores]
      exact .collected np false hfind (.inl haddr)
    · rw [if_neg haddr]
      refine .bind (deliver_spec hp addr _) ?_
      rintro d k1 ⟨hp1, hw1, hcopied, hopen1, hstores, hview1⟩
      rw [bytes32_length] at hcopied hstores
      by_cases hok : delivered k (space me).pagetable addr 4 = 4
      · rw [if_pos (hcopied.mpr hok)]
        refine .bind (freeproc_serves hp1 (hc.other hw1 hp1.coherent hne) hne.symm hframe) ?_
        rintro _ k2 ⟨hserves, hopen2, hview2⟩
        have hfull : d.stores = statusStores addr (T np) := by
          rw [hstores, hok, statusStores, if_neg haddr, List.take_of_length_le (by simp)]
        refine .of_pure ⟨?_, hserves, fun v => (hopen2 v).trans (hopen1 v),
          hview2.trans hview1⟩
        rw [hfull]
        exact .collected np d.killed hfind (.inr hok)
      · rw [if_neg fun h => hok (hcopied.mp h)]
        refine .of_pure ⟨?_, ⟨_, _, hp1⟩, hopen1, hview1⟩
        rw [hstores]
        exact .refused np d.killed hfind haddr hok

/-- What `report` stores and returns. -/
structure Reported (k : Kernel) (r me addr1 addr2 : ℕ) (w w' : Waited) : Prop where
  ret : w'.ret = if delivered k r addr1 4 = 4 ∧ delivered k r addr2 4 = 4 then w.ret else -1
  stores : w'.stores = w.stores ++
    [(addr1, (bytes32 w.wtime).take (delivered k r addr1 4))] ++
      if delivered k r addr1 4 = 4 then [(addr2, (bytes32 w.rtime).take (delivered k r addr2 4))]
      else []
  zombies : ∀ i, zombieChild me (w'.table i) = zombieChild me (w.table i)
  states : ∀ i, (w'.table i).state = (w.table i).state

theorem stored_append (f : ℕ → Option Byte) (s s' : Stores) :
    stored f (s ++ s') = stored (stored f s) s' := List.foldl_append

theorem report_spec (hp : Serves L k roots held p) (w : Waited) :
    Ensures (report L p me addr1 addr2 w) (fun w' k' =>
      Reported k p.pagetable me addr1 addr2 w w' ∧
      ∃ s, w'.stores = w.stores ++ s ∧
        userLoad k' p.pagetable = stored (userLoad k p.pagetable) s) k := by
  unfold report
  refine .bind (deliver_spec hp addr1 _) ?_
  rintro d1 k1 ⟨hp1, -, hcopied1, hopen1, hstores1, hview1⟩
  rw [bytes32_length] at hcopied1 hstores1
  by_cases hok1 : delivered k p.pagetable addr1 4 = 4
  · dsimp only
    rw [if_pos (hcopied1.mpr hok1)]
    refine .bind (deliver_spec hp1 addr2 _) ?_
    rintro d2 k2 ⟨-, -, hcopied2, -, hstores2, hview2⟩
    rw [bytes32_length, delivered_congr hopen1] at hcopied2 hstores2
    have hret : (if d2.copied then w.ret else -1) =
        if delivered k p.pagetable addr1 4 = 4 ∧ delivered k p.pagetable addr2 4 = 4
          then w.ret else -1 := if_congr (by rw [hcopied2]; simp [hok1]) rfl rfl
    have hstores : w.stores ++ d1.stores ++ d2.stores = w.stores ++
        [(addr1, (bytes32 w.wtime).take (delivered k p.pagetable addr1 4))] ++
          if delivered k p.pagetable addr1 4 = 4 then
            [(addr2, (bytes32 w.rtime).take (delivered k p.pagetable addr2 4))] else [] := by
      rw [hstores1, hstores2, if_pos hok1]
    have hview : userLoad k2 p.pagetable =
        stored (userLoad k p.pagetable) (d1.stores ++ d2.stores) := by
      rw [stored_append, hview2, hview1]
    split_ifs with hd2
    · rw [if_pos hd2] at hret
      refine .of_pure ⟨⟨hret, hstores, fun i => ?_, fun i => ?_⟩, _, List.append_assoc _ _ _, hview⟩
      · simp only [zombieChild_setKilled]
      · simp only [setKilled_state]
    · rw [if_neg hd2] at hret
      refine .of_pure ⟨⟨hret, hstores, fun i => ?_, fun i => ?_⟩, _, List.append_assoc _ _ _, hview⟩
      · simp only [zombieChild_setKilled]
      · simp only [setKilled_state]
  · dsimp only
    rw [if_neg fun h => hok1 (hcopied1.mp h)]
    refine .of_pure ⟨⟨?_, ?_, fun i => ?_, fun i => ?_⟩, _, rfl, hview1⟩
    · rw [if_neg fun h => hok1 h.1]
    · rw [if_neg hok1, List.append_nil, hstores1]
    · simp only [zombieChild_setKilled]
    · simp only [setKilled_state]

/-! ## When the contract holds -/

theorem take_bytes32_eq_nil {v n : ℕ} : (bytes32 v).take n = [] ↔ n = 0 := by
  rw [List.take_eq_nil_iff, or_iff_left]
  intro hnil
  have := bytes32_length v
  simp [hnil] at this

theorem writable_iff {r addr : ℕ} : Writable k r addr ↔ delivered k r addr 4 = 4 :=
  delivered_eq_iff.symm

variable {r : ℕ} {w' : Waited}

/-- The second half of the call stores nothing if its first address is not open. -/
theorem Reported.stores_empty (h : Reported k r me addr1 addr2 w w') :
    (∀ e ∈ w'.stores, e.2 = []) ↔ (∀ e ∈ w.stores, e.2 = []) ∧ ¬ Open k r (addr1 / 4096) := by
  rw [← delivered_eq_zero_iff (n := 4) (by decide), h.stores]
  constructor
  · intro hall
    refine ⟨fun e he => hall e (by simp [he]), ?_⟩
    exact take_bytes32_eq_nil.mp (hall _ (List.mem_append_left _ (List.mem_append_right _
      (List.mem_singleton_self _))))
  · rintro ⟨hall, hzero⟩ e he
    rw [hzero, if_neg (by decide), List.append_nil, List.mem_append, List.mem_singleton] at he
    rcases he with he | rfl
    · exact hall e he
    · rfl

/-- A call that collects no child and returns -1 must not have stored anything. -/
theorem meetsWaitx_of_kept (hret : w'.ret = -1)
    (hkept : ∀ i, zombieChild me (w'.table i) = zombieChild me (T i)) :
    MeetsWaitx T me addr addr1 addr2 w' ↔ ∀ e ∈ w'.stores, e.2 = [] := by
  constructor
  · exact fun h => (h.failed hret).2
  · exact fun h => ⟨fun _ => ⟨fun i hi => (hkept i).trans hi, h⟩, fun hne => absurd hret hne⟩

/-- A call that has collected a child must not return -1. -/
theorem not_meetsWaitx_of_lost (hret : w'.ret = -1) (hzombie : zombieChild me (T np) = true)
    (hlost : (w'.table np).state = .unused) : ¬ MeetsWaitx T me addr addr1 addr2 w' := by
  intro h
  have hkept := (h.failed hret).1 np hzombie
  simp [zombieChild, hlost] at hkept

theorem meetsWaitx_iff {res : Option Waited} {copied : ℕ}
    (hended : Ended T me addr copied stale res) (hw : res = some w)
    (hcopied : copied = delivered k r addr 4) (h : Reported k r me addr1 addr2 w w') :
    MeetsWaitx T me addr addr1 addr2 w' ↔ Deliverable k T r me addr addr1 addr2 := by
  unfold Deliverable
  cases hended with
  | sleeps => cases hw
  | childless hfind hno =>
    obtain rfl := Option.some.inj hw
    have hret : w'.ret = -1 := by rw [h.ret, ite_self]
    rw [meetsWaitx_of_kept hret h.zombies, h.stores_empty, hfind]
    simp only [List.not_mem_nil, false_imp_iff, implies_true, true_and]
    exact ⟨.inr, fun hor => hor.resolve_left hno⟩
  | refused np killed hfind haddr hpartial =>
    obtain rfl := Option.some.inj hw
    have hret : w'.ret = -1 := by rw [h.ret, ite_self]
    have hkept : ∀ i, zombieChild me (w'.table i) = zombieChild me (T i) :=
      fun i => (h.zombies i).trans (zombieChild_setKilled T me i killed)
    rw [meetsWaitx_of_kept hret hkept, h.stores_empty, hfind]
    simp only [List.mem_singleton, forall_eq, take_bytes32_eq_nil]
    rw [hcopied, delivered_eq_zero_iff (by decide)]
    rw [hcopied, Ne, ← writable_iff] at hpartial
    constructor
    · exact fun hclosed => .inr ⟨haddr, hclosed⟩
    · rintro (⟨-, hstatus, -⟩ | ⟨-, hclosed⟩)
      · exact absurd hstatus (not_or.mpr ⟨haddr, hpartial⟩)
      · exact hclosed
  | collected np killed hfind hstatus =>
    obtain rfl := Option.some.inj hw
    have hzombie : zombieChild me (T np) = true := (Table.findSlot_eq_some hfind).2
    have hlost : (w'.table np).state = .unused := by
      rw [h.states]
      simp [freeTask]
    rw [hcopied, ← writable_iff] at hstatus
    rw [hfind]
    dsimp only
    have hright : ¬ (addr ≠ 0 ∧ ¬ Open k r (addr / 4096) ∧ ¬ Open k r (addr1 / 4096)) := by
      rintro ⟨haddr, hclosed, -⟩
      exact hclosed (hstatus.resolve_left haddr 0 (by decide))
    rw [or_iff_left hright]
    by_cases hboth : delivered k r addr1 4 = 4 ∧ delivered k r addr2 4 = 4
    · have hret : w'.ret = (T np).pid := by rw [h.ret, if_pos hboth]
      have hw1 := writable_iff.mpr hboth.1
      have hw2 := writable_iff.mpr hboth.2
      constructor
      · intro hmeets
        refine ⟨fun hpid => ?_, hstatus, hw1, hw2⟩
        exact not_meetsWaitx_of_lost (hret.trans hpid) hzombie hlost hmeets
      · rintro ⟨hpid, -⟩
        refine ⟨fun hfail => absurd (hret.symm.trans hfail) hpid, fun _ => ?_⟩
        refine ⟨np, hfind, hret, hlost, ?_⟩
        rw [h.stores, hboth.1, hboth.2, if_pos rfl, List.take_of_length_le (by simp),
          List.take_of_length_le (by simp), List.append_assoc]
        rfl
    · have hret : w'.ret = -1 := by rw [h.ret, if_neg hboth]
      constructor
      · exact fun hmeets => absurd hmeets (not_meetsWaitx_of_lost hret hzombie hlost)
      · rintro ⟨-, -, hw1, hw2⟩
        exact absurd ⟨writable_iff.mp hw1, writable_iff.mp hw2⟩ hboth

/-- The condition looks at which pages are open only. -/
theorem Seen.reported {stores : Stores} (h : Seen L k k' p stores)
    (hr : Reported k' p.pagetable me addr1 addr2 w w') :
    Reported k p.pagetable me addr1 addr2 w w' := by
  obtain ⟨hret, hstores, hzombies, hstates⟩ := hr
  rw [delivered_congr h.opened, delivered_congr h.opened] at hret hstores
  exact ⟨hret, hstores, hzombies, hstates⟩

/-- The call in a state whose books are in order. -/
theorem sysWaitx_spec {procs : List Proc} {buffers : List ℕ} {leak : ℕ → ℕ}
    (hinv : Inv L k procs buffers leak) (hme : space me ∈ procs)
    (hchild : ∀ i < nproc, zombieChild me (T i) = true →
      space i ∈ procs ∧ (space i).pagetable ≠ (space me).pagetable) :
    ∃ res k', sysWaitx L T space me addr addr1 addr2 stale k = .ok (res, k') ∧
      (∀ w, res = some w → userLoad k' (space me).pagetable =
        stored (userLoad k (space me).pagetable) w.stores) ∧
      ((∀ w, res = some w → MeetsWaitx T me addr addr1 addr2 w) ↔
        Deliverable k T (space me).pagetable me addr addr1 addr2) := by
  have hserves : ∀ p ∈ procs, Serves L k (rootsOf procs) (heldBy procs buffers leak) p :=
    fun p hp => ⟨hinv.coherent, mem_rootsOf hp, hinv.shape p hp⟩
  have hfound : ∀ np, T.findSlot (zombieChild me) = some np →
      Serves L k (rootsOf procs) (heldBy procs buffers leak) (space np) ∧
        (space np).pagetable ≠ (space me).pagetable ∧
        0 < heldBy procs buffers leak (space np).trapframe := by
    intro np hnp
    obtain ⟨hlt, hzombie⟩ := Table.findSlot_eq_some hnp
    obtain ⟨hmem, hne⟩ := hchild np hlt hzombie
    exact ⟨hserves _ hmem, hne, heldBy_trapframe_pos hmem⟩
  obtain ⟨res, k1, hwait, hended, hseen⟩ :=
    @waitx_spec _ _ _ _ addr stale _ _ _ (hserves _ hme) hfound
  cases hres : res with
  | none =>
    subst hres
    refine ⟨none, k1, by simp [sysWaitx, hwait], nofun, iff_of_true nofun ?_⟩
    cases hended with
    | sleeps hfind hkids hkilled =>
      unfold Deliverable
      rw [hfind]
      exact .inl ⟨hkids, hkilled⟩
  | some w =>
    subst hres
    obtain ⟨roots, held, hserves1⟩ := hseen.serves
    obtain ⟨w', k2, hreport, hreported, stores, hstores, hview⟩ :=
      @report_spec _ me addr1 addr2 _ _ _ _ hserves1 w
    refine ⟨some w', k2, by simp [sysWaitx, hwait, hreport], ?_, ?_⟩
    · rintro _ ⟨⟩
      rw [hview, hseen.memory, hstores, stored_append]
      rfl
    · rw [← meetsWaitx_iff hended rfl rfl (hseen.reported hreported)]
      exact ⟨fun h => h w' rfl, fun h _ heq => Option.some.inj heq ▸ h⟩

/-- In every state of every run, for every process table over its address spaces, `waitx`
keeps its contract exactly under the condition `Deliverable`. -/
theorem sysWaitx_contract_iff (L : Layout) (mem : Memory) (ops : List VirtualMemory.Op) :
    ∃ os s, boot L mem ops = .ok (os, s) ∧ ∀ (T : Table) (space : ℕ → Proc) (me : ℕ),
      space me ∈ s.procs → (∀ i < nproc, zombieChild me (T i) = true →
        space i ∈ s.procs ∧ (space i).pagetable ≠ (space me).pagetable) →
      ∀ addr addr1 addr2 stale, ∃ res k',
        sysWaitx L T space me addr addr1 addr2 stale s.kernel = .ok (res, k') ∧
        (∀ w, res = some w → userLoad k' (space me).pagetable =
          stored (userLoad s.kernel (space me).pagetable) w.stores) ∧
        ((∀ w, res = some w → MeetsWaitx T me addr addr1 addr2 w) ↔
          Deliverable s.kernel T (space me).pagetable me addr addr1 addr2) := by
  obtain ⟨os, s, hrun, leak, hinv, -⟩ := boot_run L mem ops
  refine ⟨os, s, hrun, fun T space me hme hchild addr addr1 addr2 stale => ?_⟩
  exact sysWaitx_spec hinv hme hchild

/-- A process and its exited child. -/
def oneZombie : Table := fun i =>
  if i = 0 then { state := .running, pid := 1 }
  else if i = 1 then { state := .zombie, pid := 2, parent := some 0 }
  else {}

theorem zombieChild_oneZombie (h : zombieChild 0 (oneZombie i) = true) : i = 1 := by
  by_contra hne
  unfold oneZombie at h
  split_ifs at h <;> exact absurd h (by decide)

/-- A pointer for the first time that the process has not mapped: the call returns -1, and
the child is gone. -/
theorem sysWaitx_loses_child :
    ∃ os s p c, boot smallLayout (fun _ _ => 0) [.userinit, .fork 0] = .ok (os, s) ∧
      s.procs = [p, c] ∧ ¬ ∀ res k',
        sysWaitx smallLayout oneZombie (fun i => if i = 0 then p else c) 0 0 4096 0 (0, 0)
          s.kernel = .ok (res, k') →
        ∀ w, res = some w → MeetsWaitx oneZombie 0 0 4096 0 w := by
  obtain ⟨os, s, hrun, leak, hinv, -⟩ := boot_run smallLayout (fun _ _ => 0) [.userinit, .fork 0]
  have heval : ((boot smallLayout (fun _ _ => 0) [.userinit, .fork 0]).toOption.any fun x =>
      x.2.procs.length = 2 && x.2.procs.head?.any fun p => x.2.procs.tail.head?.any fun c =>
        decide (c.pagetable ≠ p.pagetable ∧ ¬ Open x.2.kernel p.pagetable (4096 / 4096))) =
          true := by
    decide +kernel
  rw [hrun] at heval
  obtain ⟨k, procs, buffers, copyFailed⟩ := s
  obtain ⟨hlength, heval⟩ := Bool.and_eq_true_iff.mp heval
  obtain ⟨p, c, rfl⟩ := List.length_eq_two.mp (of_decide_eq_true hlength)
  obtain ⟨hne, hclosed⟩ := of_decide_eq_true heval
  refine ⟨os, _, p, c, hrun, rfl, fun hall => ?_⟩
  obtain ⟨res, k', hwait, -, hiff⟩ := @sysWaitx_spec _ oneZombie
    (fun i => if i = 0 then p else c) 0 0 4096 0 (0, 0) _ _ _ _ hinv (by simp) fun i _ hi => by
      obtain rfl := zombieChild_oneZombie hi
      exact ⟨by simp, hne⟩
  have hdeliverable := hiff.mp (hall res k' hwait)
  have hfind : oneZombie.findSlot (zombieChild 0) = some 1 := by decide +kernel
  unfold Deliverable at hdeliverable
  rw [hfind] at hdeliverable
  rcases hdeliverable with ⟨-, -, hfirst, -⟩ | ⟨hnull, -⟩
  · exact hclosed (hfirst 0 (by decide))
  · exact hnull rfl

end XV6AndConcurrency.SystemCalls
