import XV6AndConcurrency.Foundations.DiskBlocks
import XV6AndConcurrency.Foundations.Transitions

/-!
# The log

`begin_op`, `log_write`, `end_op`, `commit` and `recover_from_log` as a machine. A
section under `log.lock` is one step, and so is each disk write of a commit or of a
recovery, since the machine may crash after any of them. A process modifies a buffer
and passes it to `log_write` while it has the buffer locked; the two are one step.
A buffer that is neither locked nor pinned may be reused at any time.
-/

namespace XV6AndConcurrency.FileSystem

open Foundations

/-- `MAXOPBLOCKS`. -/
def maxOpBlocks : ℕ := 10

/-- `LOGSIZE`. -/
def logSize : ℕ := maxOpBlocks * 3

/-- `log.start` and `log.size`, which come from the super block. -/
structure Geometry where
  start : ℕ
  size : ℕ

/-- What `mkfs` writes into the super block: `logstart = 2` and `nlog = LOGSIZE`. -/
def mkfsLog : Geometry := ⟨2, logSize⟩

/-- The rest of `struct log`; the list holds the first `n` entries of `lh.block`. -/
structure Log where
  outstanding : ℤ := 0
  committing : Bool := false
  lh : List ℕ := []

inductive LogPanic
  | tooBig
  | outsideOfTrans
  | committing
  deriving DecidableEq

namespace Log

variable (l : Log)

/-- The loop of `begin_op` when it does not sleep. -/
def beginOp : Option Log :=
  if l.committing then none
  else if l.lh.length + (l.outstanding + 1) * maxOpBlocks > logSize then none
  else some { l with outstanding := l.outstanding + 1 }

/-- The first section of `end_op`, with `do_commit`. -/
def endOp : Except LogPanic (Log × Bool) :=
  let l := { l with outstanding := l.outstanding - 1 }
  if l.committing then .error .committing
  else if l.outstanding = 0 then .ok ({ l with committing := true }, true)
  else .ok (l, false)

def logWrite (g : Geometry) (b : ℕ) : Except LogPanic Log :=
  if l.lh.length ≥ logSize ∨ (l.lh.length : ℤ) ≥ g.size - 1 then .error .tooBig
  else if l.outstanding < 1 then .error .outsideOfTrans
  else .ok { l with lh := if b ∈ l.lh then l.lh else l.lh ++ [b] }

theorem logWrite_ok {l l' : Log} {g : Geometry} {b : ℕ} (h : l.logWrite g b = .ok l') :
    l.lh.length < logSize ∧ (l.lh.length : ℤ) < g.size - 1 ∧
      l' = { l with lh := if b ∈ l.lh then l.lh else l.lh ++ [b] } := by
  unfold logWrite at h
  by_cases hbig : l.lh.length ≥ logSize ∨ (l.lh.length : ℤ) ≥ g.size - 1
  · rw [if_pos hbig] at h
    cases h
  · rw [if_neg hbig] at h
    by_cases hout : l.outstanding < 1
    · rw [if_pos hout] at h
      cases h
    · rw [if_neg hout] at h
      cases h
      exact ⟨by omega, by omega, rfl⟩

end Log

/-! ## The header block -/

/-- `write_head` changes a word for `n` and one for each entry. -/
def writeHead (lh : List ℕ) (hb : Block) : Block := (hb.setWord 0 lh.length).setWords 1 lh

/-- `read_head`; a negative `n` reads nothing. -/
def readHead (hb : Block) : List ℕ :=
  if hb.word 0 < 2147483648 then (List.range (hb.word 0)).map fun i => hb.word (i + 1) else []

theorem readHead_writeHead {lh : List ℕ} (hb : Block) (hlen : lh.length < 2147483648)
    (hlh : ∀ b ∈ lh, b < 4294967296) : readHead (writeHead lh hb) = lh := by
  have hn : (writeHead lh hb).word 0 = lh.length := by
    rw [writeHead, Block.word_setWords_of_lt _ Nat.zero_lt_one,
      Block.word_setWord_self hb (by omega)]
  rw [readHead, hn, if_pos hlen]
  apply List.ext_getElem
  · simp
  · intro k hk hk'
    rw [List.getElem_map, List.getElem_range, Nat.add_comm, writeHead,
      Block.word_setWords _ hlh hk']

/-! ## The machine -/

/-- Where the process in `commit`, or the one in `recover_from_log`, is. -/
inductive Phase
  | run
  | writeLog (tail : ℕ)
  | writeHead
  | installTrans (tail : ℕ)
  | clearHead
  | finish
  | readHead
  | reinstall (tail : ℕ)
  | reclear
  deriving DecidableEq

/-- The first process is still in `fsinit`. -/
def Phase.recovering : Phase → Bool
  | .readHead | .reinstall _ | .reclear => true
  | _ => false

/-- The calls of `log_write` that make up a transaction. -/
abbrev Group := List (ℕ × Block)

/-- What happened so far; no step of the kernel reads it. `issued` are the groups whose
commit began, `committed` those whose header was written, `returned` those whose commit
came to its end. -/
structure History where
  group : Group := []
  issued : List Group := []
  committed : List Group := []
  returned : List Group := []

/-- `ops p` holds the blocks that the operation of process `p` has passed to `log_write`. -/
structure LogSys where
  disk : ℕ → Block
  cache : ℕ → Option Block := fun _ => none
  pinned : ℕ → Bool := fun _ => false
  log : Log := {}
  ops : ℕ → Option (List ℕ) := fun _ => none
  phase : Phase := .readHead
  panic : Option LogPanic := none
  hist : History := {}

inductive LogAct
  | beginOp (p : ℕ)
  | write (p b : ℕ) (data : Block)
  | endOp (p : ℕ)
  | fetch (b : ℕ)
  | evict (b : ℕ)
  | advance
  | crash

namespace LogSys

variable (g : Geometry) (s : LogSys)

/-- What `bread` returns. -/
def bread (b : ℕ) : Block := (s.cache b).getD (s.disk b)

/-- Change the data of a buffer. -/
def modify (b : ℕ) (data : Block) : LogSys :=
  { s with cache := Function.update s.cache b (some data) }

/-- Change the data of a buffer and `bwrite` it. -/
def bwrite (b : ℕ) (data : Block) : LogSys :=
  { s.modify b data with disk := Function.update s.disk b data }

/-- The state of a machine that was switched on with this disk. -/
def crash : LogSys := { disk := s.disk, hist := { s.hist with group := [] } }

def beginOp (p : ℕ) : Option LogSys :=
  if s.ops p = none then
    s.log.beginOp.map fun l => { s with log := l, ops := Function.update s.ops p (some []) }
  else none

/-- Change the data of a block and pass it to `log_write`. -/
def write (p b : ℕ) (data : Block) : Option LogSys :=
  (s.ops p).map fun bs =>
    match s.log.logWrite g b with
    | .error e => { s with panic := some e }
    | .ok l => { s.modify b data with
        log := l
        pinned := Function.update s.pinned b true
        ops := Function.update s.ops p (some (if b ∈ bs then bs else bs ++ [b]))
        hist := { s.hist with group := s.hist.group ++ [(b, data)] } }

/-- `end_op`; `commit` does nothing if the log is empty. -/
def endOp (p : ℕ) : Option LogSys :=
  (s.ops p).map fun _ =>
    match s.log.endOp with
    | .error e => { s with panic := some e }
    | .ok (l, false) => { s with log := l, ops := Function.update s.ops p none }
    | .ok (l, true) =>
      if l.lh.length > 0 then
        { s with
          log := l, ops := Function.update s.ops p none, phase := .writeLog 0
          hist := { s.hist with issued := s.hist.issued ++ [s.hist.group] } }
      else { s with log := l, ops := Function.update s.ops p none, phase := .finish }

/-- One round of `write_log`. -/
def writeLogRound (tail : ℕ) : LogSys :=
  match s.log.lh[tail]? with
  | some b => { s.bwrite (g.start + tail + 1) (s.bread b) with phase := .writeLog (tail + 1) }
  | none => { s with phase := .writeHead }

/-- The `write_head` after which the transaction is committed. -/
def commitHead : LogSys :=
  { s.bwrite g.start (FileSystem.writeHead s.log.lh (s.bread g.start)) with
    phase := .installTrans 0
    hist := { s.hist with committed := s.hist.committed ++ [s.hist.group] } }

/-- One round of `install_trans`, without the `bunpin`. -/
def copyHome (tail b : ℕ) : LogSys := s.bwrite b (s.bread (g.start + tail + 1))

def installRound (tail : ℕ) : LogSys :=
  match s.log.lh[tail]? with
  | some b => { s.copyHome g tail b with
      pinned := Function.update s.pinned b false, phase := .installTrans (tail + 1) }
  | none => { s with phase := .clearHead }

/-- The end of `commit` and of `recover_from_log`. -/
def clearHead : LogSys :=
  { s.bwrite g.start (FileSystem.writeHead [] (s.bread g.start)) with
    log := { s.log with lh := [] } }

def reinstallRound (tail : ℕ) : LogSys :=
  match s.log.lh[tail]? with
  | some b => { s.copyHome g tail b with phase := .reinstall (tail + 1) }
  | none => { s with phase := .reclear }

/-- The process in `commit` or `recover_from_log` goes on. -/
def advance : Option LogSys :=
  match s.phase with
  | .run => none
  | .writeLog tail => some (s.writeLogRound g tail)
  | .writeHead => some (s.commitHead g)
  | .installTrans tail => some (s.installRound g tail)
  | .clearHead => some { s.clearHead g with
      phase := .finish
      hist := { s.hist with group := [], returned := s.hist.returned ++ [s.hist.group] } }
  | .finish => some { s with log := { s.log with committing := false }, phase := .run }
  | .readHead => some { s with
      log := { s.log with lh := FileSystem.readHead (s.bread g.start) }, phase := .reinstall 0 }
  | .reinstall tail => some (s.reinstallRound g tail)
  | .reclear => some { s.clearHead g with phase := .run }

/-- After a panic the machine can only be switched off. -/
def step : LogAct → Option LogSys
  | .beginOp p => if s.panic = none ∧ s.phase.recovering = false then s.beginOp p else none
  | .write p b data => if s.panic = none ∧ b < 4294967296 then s.write g p b data else none
  | .endOp p => if s.panic = none then s.endOp p else none
  | .fetch b => if s.panic = none then some (s.modify b (s.bread b)) else none
  | .evict b =>
    if s.panic = none ∧ s.pinned b = false then
      some { s with cache := Function.update s.cache b none }
    else none
  | .advance => if s.panic = none then s.advance g else none
  | .crash => some s.crash

/-- The machine is switched on with a disk. -/
def boot (disk : ℕ → Block) : LogSys := { disk := disk }

/-! ## Operations under way -/

/-- `struct log` agrees with the set `A` of processes that are in an operation. -/
structure Counted (s : LogSys) (A : Finset ℕ) : Prop where
  active : ∀ p, p ∈ A ↔ s.ops p ≠ none
  outstanding : s.log.outstanding = A.card
  quiet : s.log.committing = true → A = ∅
  busy : s.phase ≠ .run → s.phase.recovering = true ∨ s.log.committing = true
  fresh : s.phase.recovering = true → A = ∅

namespace Counted

variable {g : Geometry} {s s' : LogSys} {A : Finset ℕ} {p : ℕ} {bs : List ℕ}

theorem empty (h : Counted s A) (hrun : s.phase ≠ .run) : A = ∅ := by
  obtain hrec | hcommit := h.busy hrun
  · exact h.fresh hrec
  · exact h.quiet hcommit

theorem ops_eq_none (h : Counted s ∅) (p : ℕ) : s.ops p = none := by
  by_contra hp
  exact absurd ((h.active p).mpr hp) (Finset.notMem_empty p)

theorem outstanding_eq_zero (h : Counted s ∅) : s.log.outstanding = 0 := by
  rw [h.outstanding]
  rfl

theorem mem (h : Counted s A) (hp : s.ops p = some bs) : p ∈ A := (h.active p).mpr (by simp [hp])

/-- Whoever is in an operation keeps everybody from committing. -/
theorem phase_eq_run (h : Counted s A) (hp : s.ops p = some bs) : s.phase = .run := by
  by_contra hrun
  have hmem := h.mem hp
  simp [h.empty hrun] at hmem

theorem not_recovering (h : Counted s A) (hp : s.ops p = some bs) :
    s.phase.recovering = false := by
  rw [h.phase_eq_run hp]
  rfl

theorem outstanding_pos (h : Counted s A) (hp : s.ops p = some bs) : 1 ≤ s.log.outstanding := by
  have hcard : 0 < A.card := Finset.card_pos.mpr ⟨p, h.mem hp⟩
  rw [h.outstanding]
  omega

theorem not_committing (h : Counted s A) (hp : s.ops p = some bs) : s.log.committing = false := by
  by_contra hc
  have hmem := h.mem hp
  simp [h.quiet (by simpa using hc)] at hmem

theorem congr (h : Counted s A) (hops : ∀ p, s'.ops p = none ↔ s.ops p = none)
    (hout : s'.log.outstanding = s.log.outstanding)
    (hcommit : s'.log.committing = s.log.committing)
    (hrec : s'.phase.recovering = s.phase.recovering)
    (hrun : s'.phase ≠ .run → s.phase ≠ .run) : Counted s' A where
  active p := by rw [h.active p, Ne, Ne, hops]
  outstanding := hout ▸ h.outstanding
  quiet hc := h.quiet (hcommit ▸ hc)
  busy hb := by
    rw [hrec, hcommit]
    exact h.busy (hrun hb)
  fresh hr := h.fresh (hrec ▸ hr)

theorem of_empty (hops : ∀ p, s.ops p = none) (hout : s.log.outstanding = 0)
    (hbusy : s.phase ≠ .run → s.phase.recovering = true ∨ s.log.committing = true) :
    Counted s ∅ where
  active p := by simp [hops]
  outstanding := by simpa using hout
  quiet _ := rfl
  busy := hbusy
  fresh _ := rfl

theorem beginOp (h : Counted s A) (hrec : s.phase.recovering = false)
    (hs : s.beginOp p = some s') : p ∉ A ∧ Counted s' (insert p A) := by
  unfold LogSys.beginOp at hs
  split_ifs at hs with hidle
  obtain ⟨l, hl, rfl⟩ := Option.map_eq_some_iff.mp hs
  unfold Log.beginOp at hl
  split_ifs at hl with hcommit hfull
  cases hl
  have hp : p ∉ A := fun hp => (h.active p).mp hp hidle
  refine ⟨hp, fun q => ?_, ?_, ?_, h.busy, ?_⟩
  · by_cases hq : q = p
    · subst hq
      simp
    · simp [hq, h.active]
  · dsimp only
    rw [Finset.card_insert_of_notMem hp, h.outstanding]
    push_cast
    rfl
  · exact fun hc => absurd hc hcommit
  · intro hrec'
    exact absurd hrec' (by simp [hrec])

theorem endOp (h : Counted s A) (hp : s.ops p = some bs)
    (hops : s'.ops = Function.update s.ops p none)
    (hout : s'.log.outstanding = s.log.outstanding - 1)
    (hcommit : s'.log.committing = true → s'.log.outstanding = 0)
    (hbusy : s'.phase ≠ .run → s'.log.committing = true)
    (hphase : s'.phase.recovering = false) : Counted s' (A.erase p) := by
  have hcard : (A.erase p).card + 1 = A.card := Finset.card_erase_add_one (h.mem hp)
  have hcount : s'.log.outstanding = (A.erase p).card := by
    rw [hout, h.outstanding]
    omega
  refine ⟨fun q => ?_, hcount, fun hc => ?_, fun hrun => Or.inr (hbusy hrun), fun hrec => ?_⟩
  · rw [hops, Finset.mem_erase, h.active]
    by_cases hq : q = p
    · subst hq
      simp
    · simp [hq]
  · rw [← Finset.card_eq_zero]
    have := hcommit hc
    omega
  · simp [hphase] at hrec

theorem advance (h : Counted s A) (hs : s.advance g = some s') : Counted s' A := by
  have hrun : s.phase ≠ .run := by
    intro hrun
    simp [LogSys.advance, hrun] at hs
  obtain rfl := h.empty hrun
  unfold LogSys.advance at hs
  cases hphase : s.phase with
  | run => exact absurd hphase hrun
  | writeLog tail =>
    simp only [hphase, Option.some.injEq] at hs
    subst hs
    unfold writeLogRound
    split <;> exact h.congr (fun _ => Iff.rfl) rfl rfl (by rw [hphase]; rfl) fun _ => hrun
  | writeHead =>
    simp only [hphase, Option.some.injEq] at hs
    subst hs
    exact h.congr (fun _ => Iff.rfl) rfl rfl (by rw [hphase]; rfl) fun _ => hrun
  | installTrans tail =>
    simp only [hphase, Option.some.injEq] at hs
    subst hs
    unfold installRound
    split <;> exact h.congr (fun _ => Iff.rfl) rfl rfl (by rw [hphase]; rfl) fun _ => hrun
  | clearHead =>
    simp only [hphase, Option.some.injEq] at hs
    subst hs
    exact h.congr (fun _ => Iff.rfl) rfl rfl (by rw [hphase]; rfl) fun _ => hrun
  | finish =>
    simp only [hphase, Option.some.injEq] at hs
    subst hs
    exact of_empty h.ops_eq_none h.outstanding_eq_zero (by simp)
  | readHead =>
    simp only [hphase, Option.some.injEq] at hs
    subst hs
    exact h.congr (fun _ => Iff.rfl) rfl rfl (by rw [hphase]; rfl) fun _ => hrun
  | reinstall tail =>
    simp only [hphase, Option.some.injEq] at hs
    subst hs
    unfold reinstallRound
    split <;> exact h.congr (fun _ => Iff.rfl) rfl rfl (by rw [hphase]; rfl) fun _ => hrun
  | reclear =>
    simp only [hphase, Option.some.injEq] at hs
    subst hs
    exact of_empty h.ops_eq_none h.outstanding_eq_zero (by simp)

end Counted

/-- The two ways out of `end_op` when nobody is committing. -/
theorem endOp_cases {s s' : LogSys} {A : Finset ℕ} {p : ℕ} (h : Counted s A)
    (hs : s.endOp p = some s') :
    ∃ bs, s.ops p = some bs ∧ s'.ops = Function.update s.ops p none ∧
      s'.log.outstanding = s.log.outstanding - 1 ∧ s'.log.lh = s.log.lh ∧
      s'.disk = s.disk ∧ s'.cache = s.cache ∧ s'.pinned = s.pinned ∧ s'.panic = s.panic ∧
      ((s'.log.outstanding = 0 ∧ s'.log.committing = true ∧ s.log.lh ≠ [] ∧
          s'.phase = .writeLog 0 ∧
          s'.hist = { s.hist with issued := s.hist.issued ++ [s.hist.group] }) ∨
        (s'.log.outstanding = 0 ∧ s'.log.committing = true ∧ s'.phase = .finish ∧
          s'.hist = s.hist) ∨
        (s'.log.committing = false ∧ s'.phase = s.phase ∧ s'.hist = s.hist)) := by
  obtain ⟨bs, hp, rfl⟩ := Option.map_eq_some_iff.mp hs
  have hcommit := h.not_committing hp
  have hend : s.log.endOp = if s.log.outstanding - 1 = 0 then
      .ok ({ s.log with outstanding := s.log.outstanding - 1, committing := true }, true)
      else .ok ({ s.log with outstanding := s.log.outstanding - 1 }, false) := by
    simp [Log.endOp, hcommit]
  refine ⟨bs, hp, ?_⟩
  rw [hend]
  by_cases hlast : s.log.outstanding - 1 = 0
  · rw [if_pos hlast]
    dsimp only
    split_ifs with hn
    · exact ⟨rfl, rfl, rfl, rfl, rfl, rfl, rfl,
        Or.inl ⟨hlast, rfl, List.ne_nil_of_length_pos hn, rfl, rfl⟩⟩
    · exact ⟨rfl, rfl, rfl, rfl, rfl, rfl, rfl, Or.inr (Or.inl ⟨hlast, rfl, rfl, rfl⟩)⟩
  · rw [if_neg hlast]
    exact ⟨rfl, rfl, rfl, rfl, rfl, rfl, rfl, Or.inr (Or.inr ⟨hcommit, rfl, rfl⟩)⟩

theorem Counted.endOp_step {s s' : LogSys} {A : Finset ℕ} {p : ℕ} (h : Counted s A)
    (hs : s.endOp p = some s') : Counted s' (A.erase p) := by
  obtain ⟨bs, hp, hops, hout, -, -, -, -, -, hcase⟩ := endOp_cases h hs
  have hrun := h.phase_eq_run hp
  obtain ⟨hzero, hcommit, -, hphase, -⟩ | ⟨hzero, hcommit, hphase, -⟩ | ⟨hcommit, hphase, -⟩ :=
    hcase
  · exact h.endOp hp hops hout (fun _ => hzero) (fun _ => hcommit) (by rw [hphase]; rfl)
  · exact h.endOp hp hops hout (fun _ => hzero) (fun _ => hcommit) (by rw [hphase]; rfl)
  · exact h.endOp hp hops hout (by simp [hcommit]) (by simp [hphase, hrun])
      (by rw [hphase, hrun]; rfl)

end LogSys

end XV6AndConcurrency.FileSystem
