import XV6AndConcurrency.Foundations.PagedMemory
import XV6AndConcurrency.Foundations.Rings
import XV6AndConcurrency.Synchronization.Monitor

/-!
# Pipes

`pipewrite`, `piperead` and `pipeclose` on one pipe, as code under the spinlock `pi->lock`.
A section is a round of a loop, so that a `kill` can come between two bytes. The bytes that
were put into the ring and taken out of it are kept as a history.
-/

namespace XV6AndConcurrency.Synchronization

open Foundations Scheduling

/-- `PIPESIZE`. -/
def pipesize : ℕ := 512

/-- `struct pipe` without its spinlock, and the history of the ring. -/
structure Pipe where
  data : ℕ → Byte
  nread : ℕ := 0
  nwrite : ℕ := 0
  readopen : Bool := true
  writeopen : Bool := true
  freed : Bool := false
  sent : List Byte := []
  received : List Byte := []

namespace Pipe

/-! ## The ring -/

section

variable (d : Pipe)

/-- `pi->nwrite == pi->nread + PIPESIZE`. -/
def full : Bool := d.nwrite = (d.nread + pipesize) % 4294967296

/-- `pi->nread == pi->nwrite`. -/
def empty : Bool := d.nread = d.nwrite

/-- `pi->data[pi->nwrite++ % PIPESIZE] = ch`. -/
def push (ch : Byte) : Pipe :=
  { d with data := Function.update d.data (d.nwrite % pipesize) ch, nwrite := incUint d.nwrite,
           sent := d.sent ++ [ch] }

/-- `ch = pi->data[pi->nread++ % PIPESIZE]`. -/
def pop : Pipe :=
  { d with nread := incUint d.nread, received := d.received ++ [d.data (d.nread % pipesize)] }

/-- The end of the pipe that `pipeclose` is called for; true is the write end. -/
def isOpen (w : Bool) : Bool := if w then d.writeopen else d.readopen

def close (w : Bool) : Pipe :=
  if w then { d with writeopen := false } else { d with readopen := false }

/-- The end of `pipeclose`. -/
def release : Pipe :=
  if ¬ d.readopen ∧ ¬ d.writeopen then { d with freed := true } else d

/-- `nwrite - nread` as a `uint`. -/
def occupied : ℕ := span 4294967296 d.nread d.nwrite

/-- The bytes in the ring, the oldest first. -/
def contents : List Byte := window 4294967296 pipesize d.data d.nread d.nwrite

/-- The ring is the queue of the bytes that were sent and not yet received. -/
structure Fifo : Prop where
  nread_lt : d.nread < 4294967296
  nwrite_lt : d.nwrite < 4294967296
  occupied_le : d.occupied ≤ pipesize
  queue : d.sent = d.received ++ d.contents

end

variable {d : Pipe}

theorem occupied_lt_of_not_full (hd : d.Fifo) (hfull : d.full = false) :
    d.occupied < pipesize := by
  refine lt_of_le_of_ne hd.occupied_le fun heq => of_decide_eq_false hfull ?_
  rw [← heq]
  exact (add_span hd.nread_lt hd.nwrite_lt).symm

theorem Fifo.push (hd : d.Fifo) (hfull : d.full = false) (ch : Byte) : (d.push ch).Fifo := by
  have hroom := occupied_lt_of_not_full hd hfull
  have hlt : d.occupied + 1 < 4294967296 := lt_of_le_of_lt hroom (by decide)
  refine ⟨hd.nread_lt, Nat.mod_lt _ (by norm_num), ?_, ?_⟩
  · exact (span_succ hd.nread_lt hd.nwrite_lt hlt).trans_le hroom
  · have hcontents : (d.push ch).contents = d.contents ++ [ch] :=
      window_push (by decide) hd.nread_lt hd.nwrite_lt hroom hlt d.data ch
    rw [hcontents, ← List.append_assoc]
    exact congrArg (· ++ [ch]) hd.queue

theorem Fifo.pop (hd : d.Fifo) (hempty : d.empty = false) : d.pop.Fifo := by
  have hne : d.nread ≠ d.nwrite := of_decide_eq_false hempty
  refine ⟨Nat.mod_lt _ (by norm_num), hd.nwrite_lt, ?_, ?_⟩
  · have hspan : d.occupied = d.pop.occupied + 1 := span_pred hd.nread_lt hd.nwrite_lt hne
    have hle := hd.occupied_le
    omega
  · have hcontents : d.contents = d.data (d.nread % pipesize) :: d.pop.contents :=
      window_pop hd.nread_lt hd.nwrite_lt hne d.data
    have hqueue := hd.queue
    rw [hcontents] at hqueue
    change d.sent = (d.received ++ [_]) ++ _
    rw [List.append_assoc]
    exact hqueue

theorem Fifo.close (hd : d.Fifo) (w : Bool) : (d.close w).Fifo := by
  cases w
  · exact ⟨hd.nread_lt, hd.nwrite_lt, hd.occupied_le, hd.queue⟩
  · exact ⟨hd.nread_lt, hd.nwrite_lt, hd.occupied_le, hd.queue⟩

theorem Fifo.release (hd : d.Fifo) : d.release.Fifo := by
  unfold Pipe.release
  split
  · exact ⟨hd.nread_lt, hd.nwrite_lt, hd.occupied_le, hd.queue⟩
  · exact hd

/-! ## The code -/

/-- `&pi->nread` and `&pi->nwrite` as channels. -/
def nreadChan : ℕ := 1

def nwriteChan : ℕ := 2

/-- What a call returned; `fault` is set if `copyout` failed. -/
inductive Return
  | none
  | write (r : ℤ)
  | read (n r : ℤ) (fault : Bool)
  | close
  deriving DecidableEq

/-- Where a process is. `write` and `copy` are the loops of `pipewrite` and `piperead`,
`read` is the loop that waits for data. `fresh` is a history variable: some byte was stored
since the last `wakeup`. -/
inductive Code
  | back (r : Return)
  | write (n : ℤ) (i : ℕ) (fresh : Bool)
  | writeSleep (n : ℤ) (i : ℕ)
  | writeEnd (i : ℕ)
  | writeRet (i : ℕ)
  | read (n : ℤ)
  | copy (n : ℤ) (i : ℕ)
  | readEnd (n : ℤ) (i : ℕ) (fault : Bool)
  | readRet (n : ℤ) (i : ℕ) (fault : Bool)
  | close (w : Bool)
  | closed
  deriving DecidableEq

/-- What the user's memory holds for `copyin`, and whether the copy succeeds. -/
structure Copy where
  byte : Byte
  ok : Bool

def act (d : Pipe) (t : Task) (e : Copy) : Code → Option (Next Pipe Code)
  | .back _ => none
  | .write n i _ =>
    if i < n then
      if ¬ d.readopen ∨ t.killed ≠ 0 then some (.leave d (.back (.write (-1))))
      else if d.full then some (.wake d nreadChan (.writeSleep n i))
      else if e.ok then some (.go (d.push e.byte) (.write n (i + 1) true))
      else some (.go d (.writeEnd i))
    else some (.go d (.writeEnd i))
  | .writeSleep n i => some (.sleep nwriteChan (.write n i false))
  | .writeEnd i => some (.wake d nreadChan (.writeRet i))
  | .writeRet i => some (.leave d (.back (.write i)))
  | .read n =>
    if d.empty ∧ d.writeopen then
      if t.killed ≠ 0 then some (.leave d (.back (.read n (-1) false)))
      else some (.sleep nreadChan (.read n))
    else some (.go d (.copy n 0))
  | .copy n i =>
    if i < n then
      if d.empty then some (.go d (.readEnd n i false))
      else if e.ok then some (.go d.pop (.copy n (i + 1)))
      else some (.go d.pop (.readEnd n i true))
    else some (.go d (.readEnd n i false))
  | .readEnd n i fault => some (.wake d nwriteChan (.readRet n i fault))
  | .readRet n i fault => some (.leave d (.back (.read n i fault)))
  | .close w => some (.wake (d.close w) (if w then nreadChan else nwriteChan) .closed)
  | .closed => some (.leave d.release (.back .close))

/-- The end of the pipe whose file a call has a reference to. -/
def Code.uses : Code → Option Bool
  | .write .. | .writeSleep .. | .writeEnd _ | .writeRet _ => some true
  | .read _ | .copy .. | .readEnd .. | .readRet .. => some false
  | _ => none

/-- The end of the pipe that a call is about to close. -/
def Code.closes : Code → Option Bool
  | .close w => some w
  | _ => none

/-- A process in a call. -/
def busy (f : Code → Option Bool) (w : Bool) : View Code → Bool
  | .waiting k | .active k => f k = some w
  | .out _ => false

/-- `filewrite` and `fileread` have a reference to an open file of their end, `fileclose`
calls `pipeclose` with the last one. -/
def mayCall (d : Pipe) (v : ℕ → View Code) : Code → Bool
  | .write _ i fresh =>
    i = 0 ∧ fresh = false ∧ d.writeopen ∧ ∀ q < nproc, ¬ busy Code.closes true (v q)
  | .read _ => d.readopen ∧ ∀ q < nproc, ¬ busy Code.closes false (v q)
  | .close w =>
    d.isOpen w ∧ ∀ q < nproc, ¬ busy Code.uses w (v q) ∧ ¬ busy Code.closes w (v q)
  | _ => false

def client : Client Pipe Code Copy where
  act d t k e := act d t e k
  mayCall d v p k := p < nproc ∧ mayCall d v k
  env _ _ := none
  own c := c = nreadChan ∨ c = nwriteChan
  own_zero := rfl

/-- What `pipealloc` leaves in the page it got from `kalloc`. -/
def pipealloc (junk : ℕ → Byte) : Pipe := { data := junk }

/-! ## First in, first out -/

/-- What the holder of `pi->lock` has tested. -/
def tested (d : Pipe) : Code → Prop
  | .writeSleep .. => d.full = true ∧ d.readopen = true
  | .copy _ 0 => d.empty = true → d.writeopen = false
  | .readEnd n 0 false | .readRet n 0 false => 0 < n → d.empty = true ∧ d.writeopen = false
  | _ => True

/-- The ring is a queue, the tests of the active process still hold, and who waits tests
again. -/
structure Ordered (d : Pipe) (v : ℕ → View Code) : Prop where
  fifo : d.Fifo
  holds : ∀ p k, v p = .active k → tested d k
  waits : ∀ p k, v p = .waiting k → ∀ d, tested d k

theorem Fifo.act {t : Task} {e : Copy} {k : Code} {x : Next Pipe Code} (hd : d.Fifo)
    (hact : act d t e k = some x) : (x.data d).Fifo := by
  cases k with simp only [Pipe.act] at hact
  | back r => cases hact
  | write n i fresh =>
    split_ifs at hact with hi hexit hfull hok
    · cases hact
      exact hd
    · cases hact
      exact hd
    · cases hact
      exact hd.push (by simpa using hfull) e.byte
    · cases hact
      exact hd
    · cases hact
      exact hd
  | writeSleep n i | writeEnd i | writeRet i | readEnd n i fault | readRet n i fault =>
    cases hact
    exact hd
  | read n =>
    split_ifs at hact <;> cases hact <;> exact hd
  | copy n i =>
    split_ifs at hact with hi hempty hok
    · cases hact
      exact hd
    · cases hact
      exact hd.pop (by simpa using hempty)
    · cases hact
      exact hd.pop (by simpa using hempty)
    · cases hact
      exact hd
  | close w =>
    cases hact
    exact hd.close w
  | closed =>
    cases hact
    exact hd.release

/-- A section passes on to the next one what it has tested. -/
theorem tested_act {t : Task} {e : Copy} {k k' : Code} {x : Next Pipe Code} (hk : tested d k)
    (hact : act d t e k = some x) (hx : x.view = .active k') : tested (x.data d) k' := by
  cases k with simp only [Pipe.act] at hact
  | back r => cases hact
  | write n i fresh =>
    split_ifs at hact with hi hexit hfull hok
    · cases hact
      cases hx
    · cases hact
      cases hx
      have hopen : d.readopen = true := by simpa using (not_or.mp hexit).1
      exact ⟨hfull, hopen⟩
    all_goals
      cases hact
      cases hx
      trivial
  | writeSleep n i =>
    cases hact
    cases hx
  | writeEnd i =>
    cases hact
    cases hx
    trivial
  | writeRet i | readRet n i fault | closed =>
    cases hact
    cases hx
  | read n =>
    split_ifs at hact with hwait hkilled
    · cases hact
      cases hx
    · cases hact
      cases hx
    · cases hact
      cases hx
      intro hempty
      change d.empty = true at hempty
      change d.writeopen = false
      simpa [hempty] using hwait
  | copy n i =>
    split_ifs at hact with hi hempty hok
    · -- nothing was taken yet: the loop above ended with an empty ring
      cases hact
      cases hx
      cases i with
      | zero => exact fun _ => ⟨hempty, hk hempty⟩
      | succ i => trivial
    · cases hact
      cases hx
      trivial
    · cases hact
      cases hx
      cases i <;> trivial
    · cases hact
      cases hx
      cases i with
      | zero => exact fun hn => absurd hn hi
      | succ i => trivial
  | readEnd n i fault =>
    cases hact
    cases hx
    cases i <;> cases fault <;> exact hk
  | close w =>
    cases hact
    cases hx
    trivial

theorem tested_of_mayCall {v : ℕ → View Code} {k : Code} (h : mayCall d v k = true) (d' : Pipe) :
    tested d' k := by
  cases k with
  | write n i fresh | read n | close w => trivial
  | _ => cases h

theorem tested_of_sleep {t : Task} {e : Copy} {k k' : Code} {x : Next Pipe Code}
    (hact : act d t e k = some x) (hx : x.view = .waiting k') (d' : Pipe) : tested d' k' := by
  cases k with simp only [Pipe.act] at hact
  | writeSleep n i =>
    cases hact
    cases hx
    trivial
  | read n =>
    split_ifs at hact
    · cases hact
      cases hx
    · cases hact
      cases hx
      trivial
    · cases hact
      cases hx
  | write n i fresh | copy n i => split_ifs at hact <;> cases hact <;> cases hx
  | _ => cases hact <;> cases hx

theorem Ordered.section {d' : Pipe} {v v' : ℕ → View Code} (hd : Ordered d v)
    (h : Monitor.Section client d v d' v') : Ordered d' v' := by
  cases h with
  | same => exact hd
  | call p k k' hp hmay =>
    obtain ⟨-, hmay⟩ := of_decide_eq_true hmay
    refine ⟨hd.fifo, fun q k'' hq => ?_, fun q k'' hq => ?_⟩ <;>
      rw [Function.update_apply] at hq <;> split at hq
    · cases hq
    · exact hd.holds q k'' hq
    · cases hq
      exact tested_of_mayCall hmay
    · exact hd.waits q k'' hq
  | acquire p k hp hnone =>
    refine ⟨hd.fifo, fun q k'' hq => ?_, fun q k'' hq => ?_⟩ <;>
      rw [Function.update_apply] at hq <;> split at hq
    · cases hq
      exact hd.waits p k hp d
    · exact absurd hq (hnone q k'')
    · cases hq
    · exact hd.waits q k'' hq
  | act p t e k x hp honly hact =>
    refine ⟨hd.fifo.act hact, fun q k'' hq => ?_, fun q k'' hq => ?_⟩ <;>
      rw [Function.update_apply] at hq <;> split at hq
    · exact tested_act (hd.holds p k hp) hact hq
    case _ hne => exact absurd (honly q k'' hq) hne
    · exact tested_of_sleep hact hq
    · exact hd.waits q k'' hq
  | env e d' he => cases he

theorem ordered_init (junk : ℕ → Byte) : Ordered (pipealloc junk) fun _ => .out (.back .none) where
  fifo := by
    have hspan : span 4294967296 0 0 = 0 := rfl
    exact ⟨by norm_num [pipealloc], by norm_num [pipealloc],
      by simp [pipealloc, occupied, hspan], by simp [pipealloc, contents, window, hspan]⟩
  holds := nofun
  waits := nofun

/-- The only section in which `piperead` returns something that it copied. -/
theorem inside_of_returns {s s' : Monitor Pipe Code} {p : ℕ} {e : Copy} {n : ℤ}
    (h : s.run client p e = some s') (hret : s'.place p = .out (.back (.read n 0 false))) :
    s.place p = .inside (.readRet n 0 false) := by
  obtain ⟨k, d, hplace, hact⟩ := Monitor.run_returns h hret
  change act _ _ _ k = _ at hact
  cases k with simp only [Pipe.act] at hact
  | readRet n' i fault =>
    simp only [Option.some.injEq, Next.leave.injEq, Code.back.injEq, Return.read.injEq] at hact
    obtain ⟨-, rfl, hi, rfl⟩ := hact
    obtain rfl : i = 0 := by omega
    exact hplace
  | read n' | write n' i fresh | copy n' i => split_ifs at hact <;> simp at hact
  | _ => simp at hact

/-- In every run on a pipe: the counters differ by at most `PIPESIZE`, the bytes that were
sent are those that were received, followed by those in the ring, and a `piperead` returns
0 without a fault only when the ring is empty and the write end closed. -/
theorem pipe_fifo (junk : ℕ → Byte) (T : Table) (s : Monitor Pipe Code)
    (h : Reach (Monitor.step client) (Monitor.init (pipealloc junk) T (.back .none)) s) :
    s.data.occupied ≤ pipesize ∧ s.data.sent = s.data.received ++ s.data.contents ∧
      ∀ p e s' n, Monitor.step client s (.run p e) = some s' → 0 < n →
        s'.place p = .out (.back (.read n 0 false)) →
        s.data.nread = s.data.nwrite ∧ s.data.writeopen = false := by
  have hd : Ordered s.data s.view :=
    (Monitor.section_invariant Ordered (fun _ _ _ _ => Ordered.section) (ordered_init junk) h).2
  refine ⟨hd.fifo.occupied_le, hd.fifo.queue, fun p e s' n hstep hn hret => ?_⟩
  obtain ⟨-, hrun⟩ := Option.ite_none_right_eq_some.mp hstep
  have hplace := inside_of_returns hrun hret
  obtain ⟨hempty, hclosed⟩ := hd.holds p (.readRet n 0 false) (by rw [Monitor.view, hplace]; rfl) hn
  exact ⟨of_decide_eq_true hempty, hclosed⟩

/-- Process 0 writes a byte and process 1 reads it. The rounds of `wakeup` are those of the
process that wrote or read. -/
def oneByte : List (Move Code Copy) :=
  .call 0 (.write 1 0 false) :: List.replicate 70 (.run 0 ⟨7, true⟩) ++
    .call 1 (.read 1) :: List.replicate 4 (.run 1 ⟨0, true⟩)

theorem pipe_fifo_of_oneByte :
    ∃ s, Reach (Monitor.step client)
        (Monitor.init (pipealloc fun _ => 5) Monitor.twoRunning (.back .none)) s ∧
      s.data.received = [7] ∧
      s.data.occupied ≤ pipesize ∧ s.data.sent = s.data.received ++ s.data.contents ∧
      ∀ p e s' n, Monitor.step client s (.run p e) = some s' → 0 < n →
        s'.place p = .out (.back (.read n 0 false)) →
        s.data.nread = s.data.nwrite ∧ s.data.writeopen = false := by
  have hrun : (runAll (Monitor.step client)
      (Monitor.init (pipealloc fun _ => 5) Monitor.twoRunning (.back .none)) oneByte).any
        (fun s => s.data.received = [7]) = true := by
    decide +kernel
  obtain ⟨s, hs, hend⟩ := (Option.any_eq_true _ _).mp hrun
  exact ⟨s, reach_of_runAll hs, of_decide_eq_true hend, pipe_fifo _ _ s (reach_of_runAll hs)⟩

end Pipe

end XV6AndConcurrency.Synchronization
