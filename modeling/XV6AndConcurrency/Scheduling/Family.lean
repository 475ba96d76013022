import XV6AndConcurrency.Scheduling.Calls

/-!
# Fork, exit and wait under `wait_lock`

Every process is at a place inside `fork`, `exit`, `wait` or `waitx`, or outside of
them. A step is one section under a `p->lock` together with the code up to the next
one, so that any other step may come between two rounds of a loop. `wait_lock` is
part of the state, and code that needs it cannot go on while another process has it.
`wait` and `waitx` differ in two times that the second also stores, so they share
their places. A process that holds a spinlock runs with interrupts off and is not
preempted.
-/

namespace XV6AndConcurrency.Scheduling

open Foundations

/-- Where a process is. `user` carries the result of the last call, `asleep` is a sleep
outside of `wait`; the arguments of the others are the local variables of the code. -/
inductive Place
  | user (a0 : ℤ)
  | asleep
  | forkScan (p : ℕ)
  | forkLink (np : ℕ) (pid : ℤ)
  | forkReady (np : ℕ) (pid : ℤ)
  | reparent (status : ℤ) (pp : ℕ)
  | wakeInit (status : ℤ) (pp i : ℕ)
  | wakeParent (status : ℤ) (chan i : ℕ)
  | zombify (status : ℤ)
  | dead
  | waitScan (pp : ℕ) (havekids : Bool)
  | waitAsleep
  | waitRelock
  deriving DecidableEq

/-- The places between `acquire(&wait_lock)` and its release. -/
def Place.holds : Place → Bool
  | .reparent .. | .wakeInit .. | .wakeParent .. | .zombify .. | .waitScan .. => true
  | _ => false

/-- The slot that `fork` is filling. -/
def Place.forking : Place → Option ℕ
  | .forkLink np _ | .forkReady np _ => some np
  | _ => none

/-- The address `&proc[i]` as a channel; zero is no channel. -/
def procChan (i : ℕ) : ℕ := i + 1

/-- The channels that are no address of a process. -/
def otherChan (chan : ℕ) : Bool := nproc < chan

structure Family where
  table : Table
  nextpid : ℤ
  place : ℕ → Place
  waitLock : Option ℕ

/-- What a process does next: the call it makes, or that it goes on in the one it is in.
The arguments are what the rest of the kernel decides: how far `fork` gets, whether
`wait` can store the status, the clock. -/
inductive Choice
  | fork
  | exit (status : ℤ)
  | wait
  | sleep (chan : ℕ)
  | scan (outcome : ForkOutcome) (ticks : ℕ)
  | next (ok : Bool) (ticks : ℕ)

inductive Move
  | run (p : ℕ) (c : Choice)
  | dispatch (p : ℕ)
  | yield (p : ℕ)
  | wakeup (i chan : ℕ)
  | kill (i : ℕ)

/-- The process whose slot or place a move is about. -/
def Move.actor : Move → ℕ
  | .run p _ | .dispatch p | .yield p | .wakeup p _ | .kill p => p

/-- What `fork` copies into the child while it holds its lock. -/
def inheritTask (parent child : Task) : Task :=
  { child with ofile := fun fd => if parent.ofile fd ≠ 0 then parent.ofile fd else child.ofile fd }

/-- The channel `p->parent` that `exit` wakes. -/
def parentChan (t : Task) : ℕ :=
  match t.parent with
  | some q => procChan q
  | none => 0

namespace Family

/-- The state after `userinit`. -/
def boot : Family where
  table := Sys.boot.table
  nextpid := Sys.boot.nextpid
  place _ := .user 0
  waitLock := none

variable (M : Family) (p i : ℕ)

/-! ## Parts of a step -/

def goto (c : Place) : Family := { M with place := Function.update M.place p c }

def put (t : Task) : Family := { M with table := M.table.set i t }

def acquire : Family := { M with waitLock := some p }

def release : Family := { M with waitLock := none }

def nextPid : Family := { M with nextpid := wrap32 (M.nextpid + 1) }

section

variable (c : Place) (t : Task)

@[simp] theorem goto_table : (M.goto p c).table = M.table := rfl

@[simp] theorem goto_place : (M.goto p c).place p = c := by
  unfold goto
  exact Function.update_self p c M.place

theorem goto_place_of_ne {q : ℕ} (h : q ≠ p) : (M.goto p c).place q = M.place q := by
  unfold goto
  exact Function.update_of_ne h c M.place

@[simp] theorem goto_waitLock : (M.goto p c).waitLock = M.waitLock := rfl

@[simp] theorem put_table : (M.put i t).table = M.table.set i t := rfl

@[simp] theorem put_place : (M.put i t).place = M.place := rfl

@[simp] theorem put_waitLock : (M.put i t).waitLock = M.waitLock := rfl

@[simp] theorem acquire_table : (M.acquire p).table = M.table := rfl

@[simp] theorem acquire_waitLock : (M.acquire p).waitLock = some p := rfl

@[simp] theorem release_table : M.release.table = M.table := rfl

@[simp] theorem nextPid_table : M.nextPid.table = M.table := rfl

end

/-- The section of `fork` from the slot that `allocproc` finds to the release of its lock. -/
def fill (ticks : ℕ) : ForkOutcome → Family
  | .noMemory => (M.nextPid.put i (freeTask (foundTask (M.table i) M.nextpid ticks))).goto p
      (.user (-1))
  | .copyFails => (M.nextPid.put i (freeTask (allocTask (M.table i) M.nextpid ticks))).goto p
      (.user (-1))
  | .done =>
    let child := inheritTask (M.table p) (allocTask (M.table i) M.nextpid ticks)
    ((M.nextPid.put i child).goto i (.user 0)).goto p (.forkLink i child.pid)

/-- One round of `wakeup`, called by the process `p`. -/
def wakeRound (chan : ℕ) : Family := if i = p then M else M.put i (wakeupTask (M.table i) chan)

/-- The way out of `wait`. -/
def leaveWait (a0 : ℤ) : Family := M.release.goto p (.user a0)

/-- One round of the scan of `wait`, and what follows after the last. -/
def waitRound (havekids ok : Bool) : Family :=
  if i < nproc then
    if (M.table i).parent = some p then
      if (M.table i).state = .zombie then
        if ok then (M.put i (freeTask (M.table i))).leaveWait p (M.table i).pid
        else M.leaveWait p (-1)
      else M.goto p (.waitScan (i + 1) true)
    else M.goto p (.waitScan (i + 1) havekids)
  else if havekids = false ∨ (M.table p).killed ≠ 0 then M.leaveWait p (-1)
  else (M.put p (sleepTask (M.table p) (procChan p))).release.goto p .waitAsleep

/-- One round of `reparent`, and what follows after the last. -/
def reparentRound (status : ℤ) : Family :=
  if i < nproc then
    if (M.table i).parent = some p then
      (M.put i { M.table i with parent := some initproc }).goto p (.wakeInit status i 0)
    else M.goto p (.reparent status (i + 1))
  else M.goto p (.wakeParent status (parentChan (M.table p)) 0)

/-! ## The step -/

/-- The running process `p` goes on from its place. -/
def run : Place → Choice → Option Family
  | .user _, .fork => some (M.goto p (.forkScan 0))
  | .user _, .exit status =>
    if p ≠ initproc ∧ M.waitLock = none then
      some (((M.put p (closeFiles (M.table p))).acquire p).goto p (.reparent status 0))
    else none
  | .user _, .wait =>
    if M.waitLock = none then some ((M.acquire p).goto p (.waitScan 0 false)) else none
  | .user _, .sleep chan =>
    if otherChan chan then some ((M.put p (sleepTask (M.table p) chan)).goto p .asleep) else none
  | .forkScan i, .scan outcome ticks =>
    if i < nproc then
      if (M.table i).state = .unused then some (M.fill p i ticks outcome)
      else some (M.goto p (.forkScan (i + 1)))
    else some (M.goto p (.user (-1)))
  | .forkLink np pid, .next _ _ =>
    if M.waitLock = none then
      some ((M.put np { M.table np with parent := some p }).goto p (.forkReady np pid))
    else none
  | .forkReady np pid, .next _ _ =>
    some ((M.put np (readyTask (M.table np))).goto p (.user pid))
  | .reparent status i, .next _ _ => some (M.reparentRound p i status)
  | .wakeInit status i j, .next _ _ =>
    if j < nproc then
      some ((M.wakeRound p j (procChan initproc)).goto p (.wakeInit status i (j + 1)))
    else some (M.goto p (.reparent status (i + 1)))
  | .wakeParent status chan j, .next _ _ =>
    if j < nproc then some ((M.wakeRound p j chan).goto p (.wakeParent status chan (j + 1)))
    else some (M.goto p (.zombify status))
  | .zombify status, .next _ ticks =>
    some ((M.put p (exitTask (M.table p) status ticks)).release.goto p .dead)
  | .waitScan i havekids, .next ok _ => some (M.waitRound p i havekids ok)
  | .waitRelock, .next _ _ =>
    if M.waitLock = none then some ((M.acquire p).goto p (.waitScan 0 false)) else none
  | _, _ => none

/-- The scheduler switches to `p`, which leaves `sleep` if it was in it. -/
def switchTo : Family :=
  match M.place p with
  | .asleep => (M.put p (tidyTask (dispatch (M.table p)))).goto p (.user 0)
  | .waitAsleep => (M.put p (tidyTask (dispatch (M.table p)))).goto p .waitRelock
  | _ => M.put p (dispatch (M.table p))

def step : Move → Option Family
  | .run p c => if (M.table p).state = .running then M.run p (M.place p) c else none
  | .dispatch p => if (M.table p).state = .runnable then some (M.switchTo p) else none
  | .yield p =>
    if (M.table p).state = .running ∧ (M.place p).holds = false then
      some (M.put p (yieldTask (M.table p)))
    else none
  | .wakeup i chan =>
    if i < nproc ∧ otherChan chan then some (M.put i (wakeupTask (M.table i) chan)) else none
  | .kill i => if i < nproc then some (M.put i (killTask (M.table i))) else none

end Family

/-! ## What a step can do -/

/-- The states of a process that can still act. -/
def ProcState.live : ProcState → Bool
  | .sleeping | .runnable | .running => true
  | _ => false

/-- What a step about the process `p` can do to the slot `i`. -/
inductive SlotMove (M M' : Family) (p i : ℕ) : Prop
  | same (hstate : (M'.table i).state = (M.table i).state)
      (hparent : (M'.table i).parent = (M.table i).parent)
      (hchan : (M'.table i).chan = (M.table i).chan)
  | own (hactor : i = p) (hbefore : (M.table i).state.live = true)
      (hafter : (M'.table i).state.live = true)
      (hparent : (M'.table i).parent = (M.table i).parent)
  | zombified (status : ℤ) (hactor : i = p) (hplace : M.place p = .zombify status)
      (hafter : (M'.table i).state = .zombie)
      (hparent : (M'.table i).parent = (M.table i).parent)
  | filled (hlt : i < nproc) (hbefore : (M.table i).state = .unused)
      (hafter : (M'.table i).state = .used ∨ (M'.table i).state = .unused)
      (hparent : (M'.table i).parent = (M.table i).parent ∨ (M'.table i).parent = none)
  | linked (pid : ℤ) (hplace : M.place p = .forkLink i pid) (hlock : M.waitLock = none)
      (hactor : (M.table p).state = .running)
      (hstate : (M'.table i).state = (M.table i).state)
      (hparent : (M'.table i).parent = some p)
      (hchan : (M'.table i).chan = (M.table i).chan)
  | readied (pid : ℤ) (hplace : M.place p = .forkReady i pid)
      (hafter : (M'.table i).state = .runnable)
      (hparent : (M'.table i).parent = (M.table i).parent)
  | adopted (status : ℤ) (hplace : M.place p = .reparent status i)
      (hplace' : M'.place p = .wakeInit status i 0)
      (hstate : (M'.table i).state = (M.table i).state)
      (hbefore : (M.table i).parent = some p) (hafter : (M'.table i).parent = some initproc)
      (hchan : (M'.table i).chan = (M.table i).chan)
  | woken (hbefore : (M.table i).state = .sleeping) (hafter : (M'.table i).state = .runnable)
      (hparent : (M'.table i).parent = (M.table i).parent)
  | freed (havekids : Bool) (hplace : M.place p = .waitScan i havekids)
      (hbefore : (M.table i).state = .zombie) (hafter : (M'.table i).state = .unused)
      (hparent : (M.table i).parent = some p) (hparent' : (M'.table i).parent = none)

/-- What a step about the process `p` can do, as everyone else sees it. -/
structure Effect (M M' : Family) (p : ℕ) : Prop where
  slot : ∀ i, SlotMove M M' p i
  place : ∀ q ≠ p, M'.place q = M.place q ∨ (M.table q).state = .unused ∧ M'.place q = .user 0
  lock : M'.waitLock = M.waitLock ∨ (M.waitLock = none ∧ M'.waitLock = some p) ∨
    ((M.place p).holds = true ∧ M'.waitLock = none)
  sleeps : M'.place p = .waitAsleep → (M'.table p).state = .sleeping →
    (M.place p).holds = true ∨ M.place p = .waitAsleep ∧ (M.table p).state = .sleeping
  forks : ∀ np, (M'.place p).forking = some np →
    (M.place p).forking = some np ∨ (M.table np).state = .unused
  wakes : ∀ status pp, M.place p = .wakeInit status pp 0 → M'.place p = M.place p ∨
    (p ≠ initproc → ¬ ((M'.table initproc).state = .sleeping ∧
      (M'.table initproc).chan = procChan initproc))

namespace SlotMove

variable {M M' : Family} {p k : ℕ}

theorem of_table_eq (h : M'.table = M.table) (i : ℕ) : SlotMove M M' p i :=
  .same (by rw [h]) (by rw [h]) (by rw [h])

/-- Where one slot is written, only its own move has to be given. -/
theorem of_set {t : Task} (h : M'.table = M.table.set k t) (hk : SlotMove M M' p k) (i : ℕ) :
    SlotMove M M' p i := by
  by_cases hi : i = k
  · exact hi ▸ hk
  · have hsame : M'.table i = M.table i := by rw [h, Table.set_of_ne _ _ hi]
    exact .same (by rw [hsame]) (by rw [hsame]) (by rw [hsame])

end SlotMove

namespace Family

variable {M M' : Family} {p i : ℕ}

/-- A step that takes `p` to another place. -/
theorem effect_of_goto {c : Place} (hslot : ∀ i, SlotMove M M' p i)
    (hplace : M'.place = Function.update M.place p c)
    (hlock : M'.waitLock = M.waitLock ∨ (M.waitLock = none ∧ M'.waitLock = some p) ∨
      ((M.place p).holds = true ∧ M'.waitLock = none))
    (hsleeps : c = .waitAsleep → (M.place p).holds = true)
    (hforks : ∀ np, c.forking = some np → (M.place p).forking = some np)
    (hwakes : ∀ status pp, M.place p ≠ .wakeInit status pp 0) : Effect M M' p where
  slot := hslot
  place q hq := by rw [hplace]; exact Or.inl (Function.update_of_ne hq _ _)
  lock := hlock
  sleeps h _ := by
    rw [hplace, Function.update_self] at h
    exact Or.inl (hsleeps h)
  forks np h := by
    rw [hplace, Function.update_self] at h
    exact Or.inl (hforks np h)
  wakes status pp h := absurd h (hwakes status pp)

/-- A step that leaves every place and the lock as they are. -/
theorem effect_of_slot (hslot : ∀ i, SlotMove M M' p i) (hplace : M'.place = M.place)
    (hlock : M'.waitLock = M.waitLock)
    (hsleeps : (M'.table p).state = .sleeping → (M.table p).state = .sleeping) : Effect M M' p where
  slot := hslot
  place q _ := Or.inl (by rw [hplace])
  lock := Or.inl hlock
  sleeps h hs := Or.inr ⟨by rw [← h, hplace], hsleeps hs⟩
  forks np h := Or.inl (by rw [← hplace]; exact h)
  wakes status pp _ := Or.inl (by rw [hplace])

/-- The slot that `put` writes makes the move it is given for. -/
theorem put_slot {t : Task} (N : Family) (htable : N.table = M.table.set i t)
    (h : N.table i = t → SlotMove M N p i) : ∀ j, SlotMove M N p j := by
  have hi : N.table i = t := by rw [htable, Table.set_self]
  exact SlotMove.of_set htable (h hi)

theorem fill_effect {ticks : ℕ} {outcome : ForkOutcome} (hat : M.place p = .forkScan i)
    (hlt : i < nproc) (hfree : (M.table i).state = .unused) :
    Effect M (M.fill p i ticks outcome) p := by
  have hwakes : ∀ status pp, M.place p ≠ .wakeInit status pp 0 := by simp [hat]
  cases outcome with
  | noMemory =>
    refine effect_of_goto (put_slot _ rfl fun h => ?_) rfl (Or.inl rfl) (by simp)
      (by simp [Place.forking]) hwakes
    exact .filled hlt hfree (Or.inr (by rw [h]; rfl)) (Or.inr (by rw [h]; rfl))
  | copyFails =>
    refine effect_of_goto (put_slot _ rfl fun h => ?_) rfl (Or.inl rfl) (by simp)
      (by simp [Place.forking]) hwakes
    exact .filled hlt hfree (Or.inr (by rw [h]; rfl)) (Or.inr (by rw [h]; rfl))
  | done =>
    refine ⟨put_slot _ rfl fun h => ?_, fun q hq => ?_, Or.inl rfl, ?_, ?_, ?_⟩
    · exact .filled hlt hfree (Or.inl (by rw [h]; rfl)) (Or.inl (by rw [h]; rfl))
    · by_cases hqi : q = i
      · right
        subst hqi
        exact ⟨hfree, by simp [fill, goto, hq]⟩
      · left
        simp [fill, goto, put, nextPid, hq, hqi]
    · intro h
      simp [fill, goto] at h
    · intro np h
      simp only [fill, goto, Function.update_self, Place.forking, Option.some.injEq] at h
      exact Or.inr (h ▸ hfree)
    · exact fun status pp h => absurd h (hwakes status pp)

theorem reparentRound_effect {status : ℤ} (hat : M.place p = .reparent status i) :
    Effect M (M.reparentRound p i status) p := by
  have hwakes : ∀ status pp, M.place p ≠ .wakeInit status pp 0 := by simp [hat]
  unfold reparentRound
  split_ifs with hi hchild
  · refine effect_of_goto (put_slot _ rfl fun h => ?_) rfl (Or.inl rfl) (by simp)
      (by simp [Place.forking]) hwakes
    exact .adopted status hat (Function.update_self _ _ _) (by rw [h]) hchild (by rw [h])
      (by rw [h])
  · exact effect_of_goto (SlotMove.of_table_eq rfl) rfl (Or.inl rfl) (by simp)
      (by simp [Place.forking]) hwakes
  · exact effect_of_goto (SlotMove.of_table_eq rfl) rfl (Or.inl rfl) (by simp)
      (by simp [Place.forking]) hwakes

theorem waitRound_effect {havekids ok : Bool} (hat : M.place p = .waitScan i havekids)
    (hrun : (M.table p).state = .running) : Effect M (M.waitRound p i havekids ok) p := by
  have hwakes : ∀ status pp, M.place p ≠ .wakeInit status pp 0 := by simp [hat]
  have hholds : (M.place p).holds = true := by rw [hat]; rfl
  unfold waitRound
  split_ifs with hi hchild hzombie hok hstop
  · refine effect_of_goto (put_slot _ rfl fun h => ?_) rfl (Or.inr (Or.inr ⟨hholds, rfl⟩))
      (by simp) (by simp [Place.forking]) hwakes
    exact .freed havekids hat hzombie (by rw [h]; rfl) hchild (by rw [h]; rfl)
  · exact effect_of_goto (SlotMove.of_table_eq rfl) rfl (Or.inr (Or.inr ⟨hholds, rfl⟩)) (by simp)
      (by simp [Place.forking]) hwakes
  · exact effect_of_goto (SlotMove.of_table_eq rfl) rfl (Or.inl rfl) (by simp)
      (by simp [Place.forking]) hwakes
  · exact effect_of_goto (SlotMove.of_table_eq rfl) rfl (Or.inl rfl) (by simp)
      (by simp [Place.forking]) hwakes
  · exact effect_of_goto (SlotMove.of_table_eq rfl) rfl (Or.inr (Or.inr ⟨hholds, rfl⟩)) (by simp)
      (by simp [Place.forking]) hwakes
  · refine effect_of_goto (put_slot _ rfl fun h => ?_) rfl (Or.inr (Or.inr ⟨hholds, rfl⟩))
      (fun _ => hholds) (by simp [Place.forking]) hwakes
    exact .own rfl (by rw [hrun]; rfl) (by rw [h]; rfl) (by rw [h]; rfl)

/-- A wakeup leaves a slot alone or makes a sleeper runnable. -/
theorem wakeup_slot {chan : ℕ} {N : Family} (h : N.table i = wakeupTask (M.table i) chan) :
    SlotMove M N p i := by
  by_cases hs : (M.table i).state = .sleeping ∧ (M.table i).chan = chan
  · rw [wakeupTask, if_pos hs] at h
    exact .woken hs.1 (by rw [h]) (by rw [h])
  · rw [wakeupTask, if_neg hs] at h
    exact .same (by rw [h]) (by rw [h]) (by rw [h])

theorem wakeRound_slot {chan : ℕ} {c : Place} (j : ℕ) :
    SlotMove M ((M.wakeRound p i chan).goto p c) p j := by
  by_cases hi : i = p
  · exact SlotMove.of_table_eq (by rw [wakeRound, if_pos hi]; rfl) j
  · exact put_slot _ (by rw [wakeRound, if_neg hi]; rfl) wakeup_slot j

theorem wakeRound_place {chan : ℕ} : (M.wakeRound p i chan).place = M.place := by
  unfold wakeRound
  split_ifs <;> rfl

theorem wakeRound_waitLock {chan : ℕ} : (M.wakeRound p i chan).waitLock = M.waitLock := by
  unfold wakeRound
  split_ifs <;> rfl

/-- After the round of another process at a slot, nobody sleeps on the channel there. -/
theorem wakeRound_awake {chan : ℕ} (hi : i ≠ p) : ¬ (((M.wakeRound p i chan).table i).state =
    .sleeping ∧ ((M.wakeRound p i chan).table i).chan = chan) := by
  rw [wakeRound, if_neg hi]
  change ¬ ((Table.set M.table i _ i).state = _ ∧ (Table.set M.table i _ i).chan = _)
  rw [Table.set_self, wakeupTask]
  split_ifs with hs
  · simp
  · exact hs

theorem wakeInit_effect {status : ℤ} {pp : ℕ} (hat : M.place p = .wakeInit status pp i) :
    Effect M ((M.wakeRound p i (procChan initproc)).goto p (.wakeInit status pp (i + 1))) p := by
  refine ⟨wakeRound_slot, fun q hq => Or.inl ?_, Or.inl wakeRound_waitLock, ?_, ?_, ?_⟩
  · change Function.update _ _ _ _ = _
    rw [Function.update_of_ne hq, wakeRound_place]
  · intro h
    simp [goto] at h
  · intro np h
    simp [goto, Place.forking] at h
  · intro status' pp' h
    have hi : i = initproc := by
      rw [hat] at h
      injection h
    subst hi
    exact Or.inr fun hp => wakeRound_awake (Ne.symm hp)

theorem wakeParent_effect {status : ℤ} {chan : ℕ} (hat : M.place p = .wakeParent status chan i) :
    Effect M ((M.wakeRound p i chan).goto p (.wakeParent status chan (i + 1))) p := by
  have hplace : ((M.wakeRound p i chan).goto p (.wakeParent status chan (i + 1))).place =
      Function.update M.place p (.wakeParent status chan (i + 1)) := by
    rw [goto, wakeRound_place]
  exact effect_of_goto wakeRound_slot hplace (Or.inl wakeRound_waitLock) (by simp)
      (by simp [Place.forking]) (by simp [hat])

theorem run_effect {c : Choice} (hrun : (M.table p).state = .running)
    (h : M.run p (M.place p) c = some M') : Effect M M' p := by
  have hlive : (M.table p).state.live = true := by rw [hrun]; rfl
  generalize hat : M.place p = a at h
  have hwakes (hno : ∀ status pp, a ≠ .wakeInit status pp 0) :
      ∀ status pp, M.place p ≠ .wakeInit status pp 0 := by
    rw [hat]
    exact hno
  unfold run at h
  split at h
  · cases h
    exact effect_of_goto (SlotMove.of_table_eq rfl) rfl (Or.inl rfl) (by simp)
      (by simp [Place.forking, hat]) (hwakes (by simp))
  · split_ifs at h with hfree
    cases h
    refine effect_of_goto (put_slot _ rfl fun h => ?_) rfl (Or.inr (Or.inl ⟨hfree.2, rfl⟩))
      (by simp) (by simp [Place.forking, hat]) (hwakes (by simp))
    exact .own rfl hlive (by rw [h]; exact hlive) (by rw [h]; rfl)
  · split_ifs at h with hfree
    cases h
    exact effect_of_goto (SlotMove.of_table_eq rfl) rfl (Or.inr (Or.inl ⟨hfree, rfl⟩)) (by simp)
      (by simp [Place.forking, hat]) (hwakes (by simp))
  · split_ifs at h with hother
    cases h
    refine effect_of_goto (put_slot _ rfl fun h => ?_) rfl (Or.inl rfl) (by simp)
      (by simp [Place.forking, hat]) (hwakes (by simp))
    exact .own rfl hlive (by rw [h]; rfl) (by rw [h]; rfl)
  · split_ifs at h with hi hunused
    · cases h
      exact fill_effect hat hi hunused
    · cases h
      exact effect_of_goto (SlotMove.of_table_eq rfl) rfl (Or.inl rfl) (by simp)
        (by simp [Place.forking, hat]) (hwakes (by simp))
    · cases h
      exact effect_of_goto (SlotMove.of_table_eq rfl) rfl (Or.inl rfl) (by simp)
        (by simp [Place.forking, hat]) (hwakes (by simp))
  · split_ifs at h with hfree
    cases h
    refine effect_of_goto (put_slot _ rfl fun h => ?_) rfl (Or.inl rfl) (by simp)
      (by simp [Place.forking, hat]) (hwakes (by simp))
    exact .linked _ hat hfree hrun (by rw [h]) (by rw [h]) (by rw [h])
  · cases h
    refine effect_of_goto (put_slot _ rfl fun h => ?_) rfl (Or.inl rfl) (by simp)
      (by simp [Place.forking, hat]) (hwakes (by simp))
    exact .readied _ hat (by rw [h]; rfl) (by rw [h]; rfl)
  · cases h
    exact reparentRound_effect hat
  · split_ifs at h with hj
    · cases h
      exact wakeInit_effect hat
    · cases h
      refine effect_of_goto (SlotMove.of_table_eq rfl) rfl (Or.inl rfl) (by simp)
        (by simp [Place.forking]) (hwakes fun status pp h => hj ?_)
      injection h with _ _ hj0
      rw [hj0]
      decide
  · split_ifs at h with hj
    · cases h
      exact wakeParent_effect hat
    · cases h
      exact effect_of_goto (SlotMove.of_table_eq rfl) rfl (Or.inl rfl) (by simp)
        (by simp [Place.forking, hat]) (hwakes (by simp))
  · cases h
    refine effect_of_goto (put_slot _ rfl fun h => ?_) rfl
      (Or.inr (Or.inr ⟨by rw [hat]; rfl, rfl⟩)) (by simp)
        (by simp [Place.forking, hat]) (hwakes (by simp))
    exact .zombified _ rfl hat (by rw [h]; rfl) (by rw [h]; rfl)
  · cases h
    exact waitRound_effect hat hrun
  · split_ifs at h with hfree
    cases h
    exact effect_of_goto (SlotMove.of_table_eq rfl) rfl (Or.inr (Or.inl ⟨hfree, rfl⟩)) (by simp)
      (by simp [Place.forking, hat]) (hwakes (by simp))
  · exact absurd h (by simp)

theorem switchTo_effect (hready : (M.table p).state = .runnable) :
    Effect M (M.switchTo p) p := by
  have hlive : (M.table p).state.live = true := by rw [hready]; rfl
  unfold switchTo
  split
  · rename_i hat
    refine effect_of_goto (put_slot _ rfl fun h => ?_) rfl (Or.inl rfl) (by simp)
      (by simp [Place.forking]) (by simp [hat])
    exact .own rfl hlive (by rw [h]; rfl) (by rw [h]; rfl)
  · rename_i hat
    refine effect_of_goto (put_slot _ rfl fun h => ?_) rfl (Or.inl rfl) (by simp)
      (by simp [Place.forking]) (by simp [hat])
    exact .own rfl hlive (by rw [h]; rfl) (by rw [h]; rfl)
  · refine effect_of_slot (put_slot _ rfl fun h => ?_) rfl rfl fun hs => ?_
    · exact .own rfl hlive (by rw [h]; rfl) (by rw [h]; rfl)
    · simp [put, dispatch] at hs

theorem kill_slot {N : Family} (h : N.table i = killTask (M.table i)) : SlotMove M N p i := by
  by_cases hs : (M.table i).state = .sleeping
  · exact .woken hs (by rw [h, killTask, if_pos hs]) (by rw [h]; rfl)
  · exact .same (by rw [h, killTask, if_neg hs]) (by rw [h]; rfl) (by rw [h]; rfl)

/-- Whatever the step, this is all that it does. -/
theorem step_effect {a : Move} (h : M.step a = some M') : Effect M M' a.actor := by
  cases a with
  | run p c =>
    dsimp only [step] at h
    split_ifs at h with hrun
    exact run_effect hrun h
  | dispatch p =>
    dsimp only [step] at h
    split_ifs at h with hready
    cases h
    exact switchTo_effect hready
  | yield p =>
    dsimp only [step] at h
    split_ifs at h with hrun
    cases h
    have hlive : (M.table p).state.live = true := by rw [hrun.1]; rfl
    refine effect_of_slot (put_slot _ rfl fun h => ?_) rfl rfl fun hs => ?_
    · exact .own rfl hlive (by rw [h]; rfl) (by rw [h]; rfl)
    · simp [put, yieldTask, Move.actor] at hs
  | wakeup i chan =>
    dsimp only [step] at h
    split_ifs at h with hi
    cases h
    refine effect_of_slot (put_slot _ rfl wakeup_slot) rfl rfl fun hs => ?_
    simp only [put, Move.actor, Table.set_self, wakeupTask] at hs
    split_ifs at hs
    exact hs
  | kill i =>
    dsimp only [step] at h
    split_ifs at h with hi
    cases h
    refine effect_of_slot (put_slot _ rfl kill_slot) rfl rfl fun hs => ?_
    simp only [put, Move.actor, Table.set_self, killTask] at hs
    split_ifs at hs
    exact hs

end Family

end XV6AndConcurrency.Scheduling
