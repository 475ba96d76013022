import XV6AndConcurrency.Foundations.Transitions
import XV6AndConcurrency.Scheduling.Tasks

/-!
# Code under a spinlock that sleeps and wakes

Code that holds one spinlock `lk` works on data which the lock protects, and may call
`wakeup` and `sleep`. Both are split where they take and release `p->lock` and `lk`. What
the code does between these points is the client's. A process that is preempted, killed,
woken by someone else, or that sleeps elsewhere does so between these steps.
-/

namespace XV6AndConcurrency.Synchronization

open Foundations Scheduling

/-- What the code does next while it holds the lock; `k` is where it goes on. -/
inductive Next (σ κ : Type)
  | go (d : σ) (k : κ)
  | wake (d : σ) (chan : ℕ) (k : κ)
  | sleep (chan : ℕ) (k : κ)
  | leave (d : σ) (k : κ)

/-- The data behind the section. -/
def Next.data {σ κ : Type} (d : σ) : Next σ κ → σ
  | .go d' _ | .wake d' _ _ | .leave d' _ => d'
  | .sleep _ _ => d

/-- Where a process is: outside of the code, waiting for the lock, or having it. -/
inductive View (κ : Type)
  | out (k : κ)
  | waiting (k : κ)
  | active (k : κ)

def Next.view {σ κ : Type} : Next σ κ → View κ
  | .go _ k | .wake _ _ k => .active k
  | .sleep _ k => .waiting k
  | .leave _ k => .out k

/-- Code under the lock: `act` is one of its sections, `mayCall` what callers promise,
`env` what happens to the data without the lock, `own` the channels it sleeps on. -/
structure Client (σ κ ε : Type) where
  act : σ → Task → κ → ε → Option (Next σ κ)
  mayCall : σ → (ℕ → View κ) → ℕ → κ → Bool
  env : σ → ε → Option σ
  own : ℕ → Bool
  own_zero : own 0 = false

/-- The points of `sleep` and `wakeup`. From `sleepAcquire` to `resume` a process is in
`sleep`, and then in `acquire(lk)` as it is at `enter`. -/
inductive Place (κ : Type)
  | out (k : κ)
  | enter (k : κ)
  | inside (k : κ)
  | wake (chan i : ℕ) (k : κ)
  | sleepAcquire (chan : ℕ) (k : κ)
  | sleepRelease (chan : ℕ) (k : κ)
  | sleepMark (chan : ℕ) (k : κ)
  | sleepSwitch (chan : ℕ) (k : κ)
  | asleep (chan : ℕ) (k : κ)
  | resume (k : κ)

namespace Place

variable {κ : Type}

/-- The places at which a process holds `lk`. -/
def holdsLk : Place κ → Bool
  | .inside _ | .wake .. | .sleepAcquire .. | .sleepRelease .. => true
  | _ => false

/-- The places at which a process holds its own `p->lock`. -/
def holdsProc : Place κ → Bool
  | .sleepRelease .. | .sleepMark .. | .sleepSwitch .. | .resume _ => true
  | _ => false

/-- The channel of a process in `sleep`, and where it goes on. -/
def sleepsOn : Place κ → Option (ℕ × κ)
  | .sleepAcquire c k | .sleepRelease c k | .sleepMark c k | .sleepSwitch c k | .asleep c k =>
    some (c, k)
  | _ => none

/-- The places without a spinlock. -/
def isFree : Place κ → Bool
  | .out _ | .enter _ => true
  | _ => false

def isOut : Place κ → Bool
  | .out _ => true
  | _ => false

def view : Place κ → View κ
  | .out k => .out k
  | .inside k | .wake _ _ k => .active k
  | .enter k | .sleepAcquire _ k | .sleepRelease _ k | .sleepMark _ k | .sleepSwitch _ k
  | .asleep _ k | .resume k => .waiting k

end Place

/-- The protected data, the spinlocks with their holders, and the processes. A number from
`nproc` on stands for an interrupt handler on some hart. -/
structure Monitor (σ κ : Type) where
  data : σ
  lk : Option ℕ := none
  plock : ℕ → Option ℕ := fun _ => none
  table : Table
  place : ℕ → Place κ

/-- What can happen next. The moves besides `call`, `run` and `env` are the scheduler's and
those of the rest of the kernel. -/
inductive Move (κ ε : Type)
  | call (p : ℕ) (k : κ)
  | run (p : ℕ) (e : ε)
  | env (e : ε)
  | dispatch (p : ℕ)
  | yield (p : ℕ)
  | sleepElse (p chan : ℕ)
  | wakeup (i chan : ℕ)
  | kill (i : ℕ)
  | recycle (i : ℕ) (t : Task)

namespace Monitor

variable {σ κ ε : Type} (C : Client σ κ ε) (s : Monitor σ κ) (p : ℕ)

def goto (c : Place κ) : Monitor σ κ := { s with place := Function.update s.place p c }

def put (i : ℕ) (t : Task) : Monitor σ κ := { s with table := s.table.set i t }

def setLk (o : Option ℕ) : Monitor σ κ := { s with lk := o }

def setProc (o : Option ℕ) : Monitor σ κ := { s with plock := Function.update s.plock p o }

def setData (d : σ) : Monitor σ κ := { s with data := d }

def view (q : ℕ) : View κ := (s.place q).view

/-- A section of the client's code. Only a process can sleep. -/
def follow : Next σ κ → Option (Monitor σ κ)
  | .go d k => some ((s.setData d).goto p (.inside k))
  | .wake d chan k => some ((s.setData d).goto p (.wake chan 0 k))
  | .sleep chan k => if p < nproc then some (s.goto p (.sleepAcquire chan k)) else none
  | .leave d k => some (((s.setData d).setLk none).goto p (.out k))

/-- The process `p` goes on. -/
def run (e : ε) : Option (Monitor σ κ) :=
  match s.place p with
  | .out _ => none
  | .enter k => if s.lk = none then some ((s.setLk (some p)).goto p (.inside k)) else none
  | .inside k => (C.act s.data (s.table p) k e).bind (s.follow p)
  | .wake chan i k =>
    if i < nproc then
      if i = p then some (s.goto p (.wake chan (i + 1) k))
      else if s.plock i = none then
        some ((s.put i (wakeupTask (s.table i) chan)).goto p (.wake chan (i + 1) k))
      else none
    else some (s.goto p (.inside k))
  | .sleepAcquire chan k =>
    if s.plock p = none then some ((s.setProc p (some p)).goto p (.sleepRelease chan k)) else none
  | .sleepRelease chan k => some ((s.setLk none).goto p (.sleepMark chan k))
  | .sleepMark chan k =>
    some ((s.put p (sleepTask (s.table p) chan)).goto p (.sleepSwitch chan k))
  | .sleepSwitch chan k => some ((s.setProc p none).goto p (.asleep chan k))
  | .asleep .. => none
  | .resume k => some (((s.put p (tidyTask (s.table p))).setProc p none).goto p (.enter k))

/-- The scheduler switches to `p` and passes on its lock. Inside of `sleep` the process
still has it afterwards. -/
def switchTo : Monitor σ κ :=
  match s.place p with
  | .asleep _ k =>
    ((s.put p (Scheduling.dispatch (s.table p))).setProc p (some p)).goto p (.resume k)
  | _ => s.put p (tidyTask (Scheduling.dispatch (s.table p)))

/-- A process runs until it has switched away, even if it is marked as sleeping. -/
def onCpu : Bool :=
  nproc ≤ p || (s.table p).state = .running ||
    match s.place p with
    | .sleepSwitch .. => true
    | _ => false

def step : Move κ ε → Option (Monitor σ κ)
  | .call p k =>
    if (s.place p).isOut ∧ s.onCpu p ∧ C.mayCall s.data s.view p k then some (s.goto p (.enter k))
    else none
  | .run p e => if s.onCpu p then s.run C p e else none
  | .env e => (C.env s.data e).map s.setData
  | .dispatch p =>
    if (s.table p).state = .runnable ∧ s.plock p = none then some (s.switchTo p) else none
  | .yield p =>
    if (s.table p).state = .running ∧ s.plock p = none ∧ (s.place p).isFree then
      some (s.put p (yieldTask (s.table p)))
    else none
  | .sleepElse p chan =>
    if (s.table p).state = .running ∧ s.plock p = none ∧ (s.place p).isOut ∧ ¬ C.own chan then
      some (s.put p (sleepTask (s.table p) chan))
    else none
  | .wakeup i chan =>
    if s.plock i = none then some (s.put i (wakeupTask (s.table i) chan)) else none
  | .kill i => if s.plock i = none then some (s.put i (killTask (s.table i))) else none
  -- `exit`, `freeproc`, `allocproc` and `fork`
  | .recycle i t =>
    if s.plock i = none ∧ (s.place i).isOut ∧ t.state ≠ .sleeping then some (s.put i t) else none

/-- Nobody has called the code yet. -/
def init (d : σ) (T : Table) (k : κ) : Monitor σ κ :=
  { data := d, table := T, place := fun _ => .out k }

/-- Two processes that run on two harts. -/
def twoRunning : Table := fun p => { state := if p < 2 then .running else .unused, pid := p + 1 }

theorem twoRunning_not_sleeping (p : ℕ) : (twoRunning p).state ≠ .sleeping := by
  unfold twoRunning
  dsimp only
  split <;> nofun

variable {s p}

@[simp] theorem goto_place (c : Place κ) (q : ℕ) :
    (s.goto p c).place q = if q = p then c else s.place q := Function.update_apply _ _ _ _

@[simp] theorem goto_data (c : Place κ) : (s.goto p c).data = s.data := rfl

@[simp] theorem goto_table (c : Place κ) : (s.goto p c).table = s.table := rfl

@[simp] theorem goto_lk (c : Place κ) : (s.goto p c).lk = s.lk := rfl

@[simp] theorem goto_plock (c : Place κ) : (s.goto p c).plock = s.plock := rfl

theorem goto_view (c : Place κ) : (s.goto p c).view = Function.update s.view p c.view := by
  funext q
  unfold view
  rw [goto_place, Function.update_apply]
  split <;> rfl

/-- Going on to a place of the same kind. -/
theorem goto_view_of_eq {c : Place κ} (h : c.view = s.view p) : (s.goto p c).view = s.view := by
  rw [goto_view, h, Function.update_eq_self]

@[simp] theorem put_table (t : Task) (q : ℕ) :
    (s.put p t).table q = if q = p then t else s.table q := s.table.set_apply p t q

@[simp] theorem put_place (t : Task) : (s.put p t).place = s.place := rfl

@[simp] theorem put_data (t : Task) : (s.put p t).data = s.data := rfl

@[simp] theorem put_lk (t : Task) : (s.put p t).lk = s.lk := rfl

@[simp] theorem put_plock (t : Task) : (s.put p t).plock = s.plock := rfl

@[simp] theorem setProc_plock (o : Option ℕ) (q : ℕ) :
    (s.setProc p o).plock q = if q = p then o else s.plock q := Function.update_apply _ _ _ _

@[simp] theorem setProc_place (o : Option ℕ) : (s.setProc p o).place = s.place := rfl

@[simp] theorem setProc_data (o : Option ℕ) : (s.setProc p o).data = s.data := rfl

@[simp] theorem setProc_table (o : Option ℕ) : (s.setProc p o).table = s.table := rfl

@[simp] theorem setProc_lk (o : Option ℕ) : (s.setProc p o).lk = s.lk := rfl

@[simp] theorem setLk_lk (o : Option ℕ) : (s.setLk o).lk = o := rfl

@[simp] theorem setLk_place (o : Option ℕ) : (s.setLk o).place = s.place := rfl

@[simp] theorem setLk_data (o : Option ℕ) : (s.setLk o).data = s.data := rfl

@[simp] theorem setLk_table (o : Option ℕ) : (s.setLk o).table = s.table := rfl

@[simp] theorem setLk_plock (o : Option ℕ) : (s.setLk o).plock = s.plock := rfl

@[simp] theorem setData_data (d : σ) : (s.setData d).data = d := rfl

@[simp] theorem setData_place (d : σ) : (s.setData d).place = s.place := rfl

@[simp] theorem setData_table (d : σ) : (s.setData d).table = s.table := rfl

@[simp] theorem setData_lk (d : σ) : (s.setData d).lk = s.lk := rfl

@[simp] theorem setData_plock (d : σ) : (s.setData d).plock = s.plock := rfl

/-! ## What one move does

The moves of the machine fall into few kinds. The effect of each is said once, with all
that it tests, and every invariant below is checked against this list. -/

/-- The effect of a move that `ok` allows. -/
inductive Effect (C : Client σ κ ε) (ok : Monitor σ κ → Move κ ε → Prop) (s : Monitor σ κ) :
    Monitor σ κ → Prop
  | call (p : ℕ) (k k' : κ) : s.place p = .out k → C.mayCall s.data s.view p k' = true →
      Effect C ok s (s.goto p (.enter k'))
  | acquire (p : ℕ) (k : κ) : s.place p = .enter k → s.lk = none →
      Effect C ok s ((s.setLk (some p)).goto p (.inside k))
  | go (p : ℕ) (e : ε) (k : κ) (d : σ) (k' : κ) : s.place p = .inside k → ok s (.run p e) →
      C.act s.data (s.table p) k e = some (.go d k') →
      Effect C ok s ((s.setData d).goto p (.inside k'))
  | wake (p : ℕ) (e : ε) (k : κ) (d : σ) (chan : ℕ) (k' : κ) : s.place p = .inside k →
      ok s (.run p e) →
      C.act s.data (s.table p) k e = some (.wake d chan k') →
      Effect C ok s ((s.setData d).goto p (.wake chan 0 k'))
  | sleep (p : ℕ) (e : ε) (k : κ) (chan : ℕ) (k' : κ) : s.place p = .inside k → p < nproc →
      ok s (.run p e) → C.act s.data (s.table p) k e = some (.sleep chan k') →
      Effect C ok s (s.goto p (.sleepAcquire chan k'))
  | leave (p : ℕ) (e : ε) (k : κ) (d : σ) (k' : κ) : s.place p = .inside k → ok s (.run p e) →
      C.act s.data (s.table p) k e = some (.leave d k') →
      Effect C ok s (((s.setData d).setLk none).goto p (.out k'))
  | skip (p chan : ℕ) (k : κ) : s.place p = .wake chan p k →
      Effect C ok s (s.goto p (.wake chan (p + 1) k))
  | rouse (p chan i : ℕ) (k : κ) : s.place p = .wake chan i k → i ≠ p → s.plock i = none →
      Effect C ok s ((s.put i (wakeupTask (s.table i) chan)).goto p (.wake chan (i + 1) k))
  | woken (p chan i : ℕ) (k : κ) : s.place p = .wake chan i k → nproc ≤ i →
      Effect C ok s (s.goto p (.inside k))
  | sleepAcquire (p chan : ℕ) (k : κ) : s.place p = .sleepAcquire chan k → s.plock p = none →
      Effect C ok s ((s.setProc p (some p)).goto p (.sleepRelease chan k))
  | sleepRelease (p chan : ℕ) (k : κ) : s.place p = .sleepRelease chan k →
      Effect C ok s ((s.setLk none).goto p (.sleepMark chan k))
  | sleepMark (p chan : ℕ) (k : κ) : s.place p = .sleepMark chan k →
      Effect C ok s ((s.put p (sleepTask (s.table p) chan)).goto p (.sleepSwitch chan k))
  | sleepSwitch (p chan : ℕ) (k : κ) : s.place p = .sleepSwitch chan k →
      Effect C ok s ((s.setProc p none).goto p (.asleep chan k))
  | switchTo (p chan : ℕ) (k : κ) : s.place p = .asleep chan k → s.plock p = none →
      Effect C ok s
        (((s.put p (Scheduling.dispatch (s.table p))).setProc p (some p)).goto p (.resume k))
  | resume (p : ℕ) (k : κ) : s.place p = .resume k →
      Effect C ok s (((s.put p (tidyTask (s.table p))).setProc p none).goto p (.enter k))
  | env (e : ε) (d : σ) : C.env s.data e = some d → Effect C ok s (s.setData d)
  -- the rest of the kernel, which puts nobody to sleep on the channels of the code
  | put (i : ℕ) (t : Task) : (t.state = .sleeping → C.own t.chan = true → t = s.table i) →
      Effect C ok s (s.put i t)

variable {C} {ok : Monitor σ κ → Move κ ε → Prop} {s' : Monitor σ κ}

theorem wakeupTask_sleeping {t : Task} {chan : ℕ} (h : (wakeupTask t chan).state = .sleeping) :
    wakeupTask t chan = t := by
  unfold wakeupTask at h ⊢
  split_ifs at h ⊢
  rfl

theorem wakeupTask_not_sleeping (t : Task) (chan : ℕ) :
    ¬ ((wakeupTask t chan).state = .sleeping ∧ (wakeupTask t chan).chan = chan) := by
  unfold wakeupTask
  split_ifs with h
  · simp
  · exact h

theorem run_effect {e : ε} (hok : ok s (.run p e)) (h : s.run C p e = some s') :
    Effect C ok s s' := by
  unfold run at h
  cases hplace : s.place p with simp only [hplace] at h
  | out k => cases h
  | enter k =>
    obtain ⟨hlk, h⟩ := Option.ite_none_right_eq_some.mp h
    cases h
    exact .acquire p k hplace hlk
  | inside k =>
    obtain ⟨x, hx, h⟩ := Option.bind_eq_some_iff.mp h
    cases x with
    | go d k' =>
      cases h
      exact .go p e k d k' hplace hok hx
    | wake d chan k' =>
      cases h
      exact .wake p e k d chan k' hplace hok hx
    | sleep chan k' =>
      obtain ⟨hp, h⟩ := Option.ite_none_right_eq_some.mp h
      cases h
      exact .sleep p e k chan k' hplace hp hok hx
    | leave d k' =>
      cases h
      exact .leave p e k d k' hplace hok hx
  | wake chan i k =>
    split at h
    case isFalse hi =>
      cases h
      exact .woken p chan i k hplace (not_lt.mp hi)
    split at h
    case isTrue hip =>
      cases h
      subst hip
      exact .skip i chan k hplace
    case isFalse hip =>
      obtain ⟨hfree, h⟩ := Option.ite_none_right_eq_some.mp h
      cases h
      exact .rouse p chan i k hplace hip hfree
  | sleepAcquire chan k =>
    obtain ⟨hfree, h⟩ := Option.ite_none_right_eq_some.mp h
    cases h
    exact .sleepAcquire p chan k hplace hfree
  | sleepRelease chan k =>
    cases h
    exact .sleepRelease p chan k hplace
  | sleepMark chan k =>
    cases h
    exact .sleepMark p chan k hplace
  | sleepSwitch chan k =>
    cases h
    exact .sleepSwitch p chan k hplace
  | asleep chan k => cases h
  | resume k =>
    cases h
    exact .resume p k hplace

/-- A process is outside of the code only when a section has left it. -/
theorem run_returns {e : ε} {k' : κ} (h : s.run C p e = some s') (hout : s'.place p = .out k') :
    ∃ k d, s.place p = .inside k ∧ C.act s.data (s.table p) k e = some (.leave d k') := by
  have hgoto : ∀ {t : Monitor σ κ} {c : Place κ}, (t.goto p c).place p = c :=
    fun {t c} => by rw [goto_place, if_pos rfl]
  unfold run at h
  cases hplace : s.place p with simp only [hplace] at h
  | inside k =>
    obtain ⟨x, hx, h⟩ := Option.bind_eq_some_iff.mp h
    cases x with
    | leave d k'' =>
      cases h
      rw [hgoto] at hout
      cases hout
      exact ⟨k, d, rfl, hx⟩
    | _ =>
      simp only [follow] at h
      grind
  | _ => grind

theorem switchTo_effect (hfree : s.plock p = none) : Effect C ok s (s.switchTo p) := by
  unfold switchTo
  split
  case h_1 chan k hplace => exact .switchTo p chan k hplace hfree
  case h_2 => exact .put p _ nofun

theorem step_effect {m : Move κ ε} (hok : ok s m) (h : s.step C m = some s') :
    Effect C ok s s' := by
  cases m with
  | call p k =>
    obtain ⟨⟨hout, -, hmay⟩, h⟩ := Option.ite_none_right_eq_some.mp h
    cases h
    cases hplace : s.place p with
    | out k' => exact .call p k' k hplace hmay
    | _ =>
      rw [hplace] at hout
      cases hout
  | run p e =>
    obtain ⟨-, h⟩ := Option.ite_none_right_eq_some.mp h
    exact run_effect hok h
  | env e =>
    obtain ⟨d, hd, rfl⟩ := Option.map_eq_some_iff.mp h
    exact .env e d hd
  | dispatch p =>
    obtain ⟨⟨-, hfree⟩, h⟩ := Option.ite_none_right_eq_some.mp h
    cases h
    exact switchTo_effect hfree
  | yield p =>
    obtain ⟨-, h⟩ := Option.ite_none_right_eq_some.mp h
    cases h
    exact .put p _ nofun
  | sleepElse p chan =>
    obtain ⟨⟨-, -, -, hchan⟩, h⟩ := Option.ite_none_right_eq_some.mp h
    cases h
    exact .put p _ fun _ hown => absurd hown hchan
  | wakeup i chan =>
    obtain ⟨-, h⟩ := Option.ite_none_right_eq_some.mp h
    cases h
    exact .put i _ fun hstate _ => wakeupTask_sleeping hstate
  | kill i =>
    obtain ⟨-, h⟩ := Option.ite_none_right_eq_some.mp h
    cases h
    refine .put i _ fun hstate => absurd hstate ?_
    simp only [killTask]
    split <;> simp_all
  | recycle i t =>
    obtain ⟨⟨-, -, ht⟩, h⟩ := Option.ite_none_right_eq_some.mp h
    cases h
    exact .put i t fun hstate => absurd hstate ht

/-! ## The locks -/

variable (s) in
/-- Who holds which lock, and that only processes sleep. -/
structure Locked : Prop where
  bounded : ∀ p, (s.place p).sleepsOn ≠ none → p < nproc
  lk : ∀ p, (s.place p).holdsLk = true → s.lk = some p
  proc : ∀ p, (s.place p).holdsProc = true → s.plock p = some p

theorem Locked.effect_bounded (hs : s.Locked) (h : Effect C ok s s') (p : ℕ)
    (hp : (s'.place p).sleepsOn ≠ none) : p < nproc := by
  have hold := hs.bounded
  cases h
  all_goals
    simp only [goto_place, put_place, setProc_place, setLk_place, setData_place] at hp
    grind [Place.sleepsOn]

theorem Locked.effect_lk (hs : s.Locked) (h : Effect C ok s s') (p : ℕ)
    (hp : (s'.place p).holdsLk = true) : s'.lk = some p := by
  have hold := hs.lk
  cases h
  all_goals
    simp only [goto_place, goto_lk, put_place, put_lk, setProc_place, setProc_lk, setLk_lk,
      setLk_place, setData_lk, setData_place] at hp ⊢
    grind [Place.holdsLk]

theorem Locked.effect_proc (hs : s.Locked) (h : Effect C ok s s') (p : ℕ)
    (hp : (s'.place p).holdsProc = true) : s'.plock p = some p := by
  have hold := hs.proc
  cases h
  all_goals
    simp only [goto_place, goto_plock, put_place, put_plock, setProc_place, setProc_plock,
      setLk_place, setLk_plock, setData_place, setData_plock] at hp ⊢
    grind [Place.holdsProc]

theorem Locked.effect (hs : s.Locked) (h : Effect C ok s s') : s'.Locked :=
  ⟨hs.effect_bounded h, hs.effect_lk h, hs.effect_proc h⟩

/-- Only one process at a time is active. -/
theorem Locked.active_unique {q : ℕ} {k k' : κ} (hs : s.Locked) (hp : s.view p = .active k)
    (hq : s.view q = .active k') : p = q := by
  have hold : ∀ {r : ℕ} {k : κ}, s.view r = .active k → s.lk = some r := by
    intro r k hr
    refine hs.lk r ?_
    unfold view at hr
    cases hplace : s.place r <;> rw [hplace] at hr <;> first | rfl | cases hr
  have heq := (hold hp).symm.trans (hold hq)
  cases heq
  rfl

theorem Locked.not_active {q : ℕ} {k : κ} (hs : s.Locked) (hlk : s.lk = none) :
    s.view q ≠ .active k := by
  intro hq
  have hown : s.lk = some q := hs.lk q ?_
  · rw [hlk] at hown
    cases hown
  · unfold view at hq
    cases hplace : s.place q <;> rw [hplace] at hq <;> first | rfl | cases hq

theorem locked_init (d : σ) (T : Table) (k : κ) : (init d T k).Locked where
  bounded := fun _ h => absurd rfl h
  lk := nofun
  proc := nofun

/-! ## Sections as atomic steps

Without the points of `sleep` and `wakeup` a run is a sequence of sections that only the
holder of the lock takes. -/

variable (C) in
/-- What a move does to the data and to the views. -/
inductive Section (d : σ) (v : ℕ → View κ) : σ → (ℕ → View κ) → Prop
  | same : Section d v d v
  | call (p : ℕ) (k k' : κ) : v p = .out k → C.mayCall d v p k' = true →
      Section d v d (Function.update v p (.waiting k'))
  | acquire (p : ℕ) (k : κ) : v p = .waiting k → (∀ q k', v q ≠ .active k') →
      Section d v d (Function.update v p (.active k))
  | act (p : ℕ) (t : Task) (e : ε) (k : κ) (x : Next σ κ) : v p = .active k →
      (∀ q k', v q = .active k' → q = p) → C.act d t k e = some x →
      Section d v (x.data d) (Function.update v p x.view)
  | env (e : ε) (d' : σ) : C.env d e = some d' → Section d v d' v

theorem Effect.section (hs : s.Locked) (h : Effect C ok s s') :
    Section C s.data s.view s'.data s'.view := by
  have only : ∀ {p k}, s.place p = .inside k → ∀ q k', s.view q = .active k' → q = p := by
    intro p k hp q k' hq
    have hin : s.view p = .active k := by
      unfold view
      rw [hp]
      rfl
    exact hs.active_unique hq hin
  have hview : ∀ {p c}, s.place p = c → s.view p = c.view := by
    intro p c hp
    unfold view
    rw [hp]
  cases h with
  | call p k k' hplace hmay =>
    rw [goto_view]
    exact .call p k k' (hview hplace) hmay
  | acquire p k hplace hlk =>
    rw [goto_view]
    exact .acquire p k (hview hplace) fun q k' => hs.not_active hlk
  | go p e k d k' hplace _ hact =>
    rw [goto_view]
    exact .act p _ e k _ (hview hplace) (only hplace) hact
  | wake p e k d chan k' hplace _ hact =>
    rw [goto_view]
    exact .act p _ e k _ (hview hplace) (only hplace) hact
  | sleep p e k chan k' hplace _ _ hact =>
    rw [goto_view]
    exact .act p _ e k _ (hview hplace) (only hplace) hact
  | leave p e k d k' hplace _ hact =>
    rw [goto_view]
    exact .act p _ e k _ (hview hplace) (only hplace) hact
  | env e d hd => exact .env e d hd
  | put i t _ => exact .same
  | _ p =>
    -- the points of `sleep` and `wakeup` are none of the client's
    rw [goto_view_of_eq]
    · exact .same
    · simp_all only [view, setLk_place, put_place, setProc_place, Place.view]

/-- What every section keeps holds of the data and the views in every run. -/
theorem section_invariant (I : σ → (ℕ → View κ) → Prop)
    (hI : ∀ d v d' v', I d v → Section C d v d' v' → I d' v') {d : σ} {T : Table} {k : κ}
    (hinit : I d fun _ => .out k) (h : ReachOf (step C) ok (init d T k) s) :
    s.Locked ∧ I s.data s.view := by
  refine ReachOf.invariant (fun s => s.Locked ∧ I s.data s.view) ?_ ⟨locked_init d T k, hinit⟩ h
  rintro s m s' hok ⟨hlocked, hs⟩ hstep
  have heffect : Effect C ok s s' := step_effect hok hstep
  exact ⟨hlocked.effect heffect, hI _ _ _ _ hs (heffect.section hlocked)⟩

/-- What holds of a channel and where the code goes on whenever it decides to sleep holds
of everybody who sleeps. -/
theorem sleepsOn_invariant {P : ℕ → κ → Prop}
    (hP : ∀ d t k e c k', C.act d t k e = some (.sleep c k') → P c k') {d : σ} {T : Table} {k : κ}
    (h : ReachOf (step C) ok (init d T k) s) :
    ∀ p c k', (s.place p).sleepsOn = some (c, k') → P c k' := by
  refine ReachOf.invariant (fun s : Monitor σ κ => ∀ p c k', (s.place p).sleepsOn = some (c, k') →
    P c k') ?_ (fun _ _ _ hout => by cases hout) h
  intro s m s' hok hs hstep
  cases step_effect hok hstep
  all_goals
    simp only [goto_place, put_place, setProc_place, setLk_place, setData_place]
    grind [Place.sleepsOn]

/-! ## No lost wakeups

`bad d c` says that with the data `d` nobody may stay asleep on the channel `c`. The code
may make it true only where it then owes a wakeup, and has to pay before it gives the lock
back. -/

section Wakeups

variable (C) (bad : σ → ℕ → Prop) (owes : κ → ℕ → Prop)

/-- The wakeups that are due behind a section. -/
def dueAfter : Next σ κ → ℕ → Prop
  | .go _ k, c => owes k c
  | .wake _ chan k, c => c = chan ∨ owes k c
  | .sleep .., _ | .leave .., _ => False

/-- A section that pays its debts: a channel nobody may sleep on afterwards is owed a
wakeup, or was so before and is not owed one; and one never sleeps on such a channel. -/
structure Pays (d : σ) (k : κ) (x : Next σ κ) : Prop where
  pays : ∀ c, bad (x.data d) c → dueAfter owes x c ∨ (bad d c ∧ ¬ owes k c)
  sleeps : ∀ c k', x = .sleep c k' → ¬ bad d c

/-- The wakeups on `c` that a place still owes the process `q`. -/
def due (c q : ℕ) : Place κ → Prop
  | .inside k => owes k c
  | .wake chan i k => (chan = c ∧ i ≤ q) ∨ owes k c
  | _ => False

variable (s) in
def Owed (c q : ℕ) : Prop := ∃ r, due owes c q (s.place r)

variable (s) in
/-- The process sleeps on the channel of the code, or is about to. -/
def Waits (c q : ℕ) : Prop :=
  (∃ k, s.place q = .sleepMark c k) ∨
    ((s.table q).state = .sleeping ∧ (s.table q).chan = c ∧ C.own c = true)

variable (s) in
structure Sound : Prop where
  locked : s.Locked
  decided : ∀ p c k, s.place p = .sleepAcquire c k ∨ s.place p = .sleepRelease c k →
    ¬ bad s.data c
  sleeps : ∀ p, (s.table p).state = .sleeping → C.own (s.table p).chan = true →
    ∃ k, s.place p = .sleepSwitch (s.table p).chan k ∨ s.place p = .asleep (s.table p).chan k
  waits : ∀ c q, s.Waits C c q → bad s.data c → s.Owed owes c q

variable {C bad owes}

/-- Whoever holds the lock owes what is owed. -/
theorem Locked.due_of_owed {c q : ℕ} (hs : s.Locked) (hp : s.lk = some p)
    (h : s.Owed owes c q) : due owes c q (s.place p) := by
  obtain ⟨r, hr⟩ := h
  have hlk : s.lk = some r := by
    refine hs.lk r ?_
    cases hplace : s.place r <;> rw [hplace] at hr <;> first | rfl | exact hr.elim
  rw [hp] at hlk
  cases hlk
  exact hr

/-- Nothing is owed while the lock is free. -/
theorem Locked.not_owed {c q : ℕ} (hs : s.Locked) (hlk : s.lk = none) : ¬ s.Owed owes c q := by
  rintro ⟨r, hr⟩
  have hlk' : s.lk = some r := by
    refine hs.lk r ?_
    cases hplace : s.place r <;> rw [hplace] at hr <;> first | rfl | exact hr.elim
  rw [hlk] at hlk'
  cases hlk'

/-- A process that owed nothing goes on. -/
theorem Owed.goto {c q : ℕ} {c' : Place κ} (h : s.Owed owes c q)
    (hp : ¬ due owes c q (s.place p)) : (s.goto p c').Owed owes c q := by
  obtain ⟨r, hr⟩ := h
  refine ⟨r, ?_⟩
  rw [goto_place, if_neg ?_]
  · exact hr
  · rintro rfl
    exact hp hr

theorem owed_of_due {c q : ℕ} {c' : Place κ} (h : due owes c q c') :
    (s.goto p c').Owed owes c q := by
  refine ⟨p, ?_⟩
  rwa [goto_place, if_pos rfl]

/-- Places of `sleep` and `acquire` owe nothing, and neither does a step between them. -/
theorem Sound.waits_of_quiet {t : Monitor σ κ} {c' : Place κ} (hs : s.Sound C bad owes)
    (hplace : t.place = s.place) (hdata : t.data = s.data)
    (hp : ∀ c q, ¬ due owes c q (s.place p))
    (hw : ∀ c q, (t.goto p c').Waits C c q → bad s.data c → s.Waits C c q) :
    ∀ c q, (t.goto p c').Waits C c q → bad (t.goto p c').data c →
      (t.goto p c').Owed owes c q := by
  intro c q hq hbad
  rw [goto_data, hdata] at hbad
  have howed : t.Owed owes c q := by
    obtain ⟨r, hr⟩ := hs.waits c q (hw c q hq hbad) hbad
    exact ⟨r, by rwa [hplace]⟩
  refine howed.goto ?_
  rw [hplace]
  exact hp c q

/-- Behind a section, for the sleepers that were there before. -/
theorem Sound.owed_of_pays {k : κ} {x : Next σ κ} {c q : ℕ} (hs : s.Sound C bad owes)
    (hp : s.place p = .inside k) (hx : Pays bad owes s.data k x) (hq : s.Waits C c q)
    (hbad : bad (x.data s.data) c) : dueAfter owes x c := by
  refine (hx.pays c hbad).resolve_right ?_
  rintro ⟨hbefore, hnot⟩
  have hlk : s.lk = some p := hs.locked.lk p (by rw [hp]; rfl)
  have hdue := hs.locked.due_of_owed hlk (hs.waits c q hq hbefore)
  rw [hp] at hdue
  exact hnot hdue

/-- Sleepers are only where `sleepMark` put them. -/
theorem Sound.sleeps_effect (hs : s.Sound C bad owes) (h : Effect C ok s s') :
    ∀ p, (s'.table p).state = .sleeping → C.own (s'.table p).chan = true →
      ∃ k, s'.place p = .sleepSwitch (s'.table p).chan k ∨
        s'.place p = .asleep (s'.table p).chan k := by
  have sleeps := hs.sleeps
  have wakeups := @wakeupTask_sleeping
  have hzero := C.own_zero
  cases h
  case sleepMark p chan k hplace =>
    intro q
    simp only [goto_place, goto_table, put_place, put_table]
    by_cases hq : q = p
    · simp only [if_pos hq]
      exact fun _ _ => ⟨k, Or.inl rfl⟩
    · simp only [if_neg hq]
      exact sleeps q
  all_goals
    simp only [goto_place, goto_table, put_place, put_table, setProc_place, setProc_table,
      setLk_place, setLk_table, setData_place, setData_table]
    grind [sleepTask, tidyTask, Scheduling.dispatch]

theorem Sound.decided_effect (hs : s.Sound C bad owes)
    (hpays : ∀ p e k x, s.place p = .inside k → ok s (.run p e) →
      C.act s.data (s.table p) k e = some x → Pays bad owes s.data k x)
    (henv : ∀ e d c, C.env s.data e = some d → bad d c → bad s.data c)
    (h : Effect C ok s s') :
    ∀ p c k, s'.place p = .sleepAcquire c k ∨ s'.place p = .sleepRelease c k →
      ¬ bad s'.data c := by
  have decided := hs.decided
  have lk := hs.locked.lk
  have sleeps : ∀ p e k c k', s.place p = .inside k → ok s (.run p e) →
      C.act s.data (s.table p) k e = some (.sleep c k') → ¬ bad s.data c :=
    fun p e k c k' hp hok hact => (hpays p e k _ hp hok hact).sleeps c k' rfl
  cases h
  all_goals
    simp only [goto_place, goto_data, put_place, put_data, setProc_place, setProc_data,
      setLk_place, setLk_data, setData_place, setData_data]
    grind [Place.holdsLk]

theorem Sound.waits_effect (hs : s.Sound C bad owes)
    (hpays : ∀ p e k x, s.place p = .inside k → ok s (.run p e) →
      C.act s.data (s.table p) k e = some x → Pays bad owes s.data k x)
    (henv : ∀ e d c, C.env s.data e = some d → bad d c → bad s.data c)
    (h : Effect C ok s s') : ∀ c q, s'.Waits C c q → bad s'.data c → s'.Owed owes c q := by
  have locked := hs.locked
  cases h with
  | call p k k' hplace _ =>
    refine hs.waits_of_quiet rfl rfl (by simp [hplace, due]) ?_
    simp only [Waits, goto_place, goto_table]
    grind
  | acquire p k hplace _ =>
    refine hs.waits_of_quiet rfl rfl (by simp [hplace, due]) ?_
    simp only [Waits, goto_place, goto_table, setLk_place, setLk_table]
    grind
  | sleepAcquire p chan k hplace _ =>
    refine hs.waits_of_quiet rfl rfl (by simp [hplace, due]) ?_
    simp only [Waits, goto_place, goto_table, setProc_place, setProc_table]
    grind
  | sleepRelease p chan k hplace =>
    have hgood := hs.decided p chan k (Or.inr hplace)
    refine hs.waits_of_quiet rfl rfl (by simp [hplace, due]) ?_
    simp only [Waits, goto_place, goto_table, setLk_place, setLk_table]
    grind
  | sleepMark p chan k hplace =>
    refine hs.waits_of_quiet rfl rfl (by simp [hplace, due]) ?_
    simp only [Waits, goto_place, goto_table, put_place, put_table, sleepTask]
    grind
  | sleepSwitch p chan k hplace =>
    refine hs.waits_of_quiet rfl rfl (by simp [hplace, due]) ?_
    simp only [Waits, goto_place, goto_table, setProc_place, setProc_table]
    grind
  | switchTo p chan k hplace _ =>
    refine hs.waits_of_quiet rfl rfl (by simp [hplace, due]) ?_
    simp only [Waits, goto_place, goto_table, put_place, put_table, setProc_place, setProc_table,
      Scheduling.dispatch]
    grind
  | resume p k hplace =>
    have hzero := C.own_zero
    refine hs.waits_of_quiet rfl rfl (by simp [hplace, due]) ?_
    simp only [Waits, goto_place, goto_table, put_place, put_table, setProc_place, setProc_table,
      tidyTask]
    grind
  | go p e k d k' hplace hok hact =>
    intro c q hq hbad
    refine owed_of_due ?_
    refine hs.owed_of_pays hplace (hpays p e k _ hplace hok hact) (q := q) ?_ hbad
    simp only [Waits, goto_place, goto_table, setData_place, setData_table] at hq ⊢
    grind
  | wake p e k d chan k' hplace hok hact =>
    intro c q hq hbad
    refine owed_of_due ?_
    have hdue := hs.owed_of_pays hplace (hpays p e k _ hplace hok hact) (c := c) (q := q) ?_ hbad
    · exact hdue.imp (fun hc => ⟨hc.symm, q.zero_le⟩) id
    simp only [Waits, goto_place, goto_table, setData_place, setData_table] at hq ⊢
    grind
  | sleep p e k chan k' hplace _ hok hact =>
    intro c q hq hbad
    refine (hs.owed_of_pays hplace (hpays p e k _ hplace hok hact) (q := q) ?_ hbad).elim
    simp only [Waits, goto_place, goto_table] at hq ⊢
    grind
  | leave p e k d k' hplace hok hact =>
    intro c q hq hbad
    refine (hs.owed_of_pays hplace (hpays p e k _ hplace hok hact) (q := q) ?_ hbad).elim
    simp only [Waits, goto_place, goto_table, setLk_place, setLk_table, setData_place,
      setData_table] at hq ⊢
    grind
  | skip p chan k hplace =>
    intro c q hq hbad
    refine owed_of_due ?_
    have hold : s.Waits C c q := by
      simp only [Waits, goto_place, goto_table] at hq ⊢
      grind
    have hdue := locked.due_of_owed (locked.lk p (by rw [hplace]; rfl)) (hs.waits c q hold hbad)
    rw [hplace] at hdue
    refine hdue.imp (fun hle => ⟨hle.1, lt_of_le_of_ne hle.2 ?_⟩) id
    -- the process that calls `wakeup` does not sleep
    rintro rfl
    have hsleep := hs.sleeps p
    simp only [Waits] at hold
    grind
  | rouse p chan i k hplace hip hfree =>
    intro c q hq hbad
    refine owed_of_due ?_
    have hold : s.Waits C c q := by
      simp only [Waits, goto_place, goto_table, put_place, put_table] at hq ⊢
      grind [wakeupTask_sleeping]
    have hdue := locked.due_of_owed (locked.lk p (by rw [hplace]; rfl)) (hs.waits c q hold hbad)
    rw [hplace] at hdue
    refine hdue.imp (fun hle => ⟨hle.1, lt_of_le_of_ne hle.2 ?_⟩) id
    -- a process that is about to sleep has its own lock, one that slept is woken
    rintro rfl
    have hproc := locked.proc i
    have hwoken := wakeupTask_not_sleeping (s.table i) chan
    simp only [Waits, goto_place, goto_table, put_place, put_table] at hq
    grind [Place.holdsProc]
  | woken p chan i k hplace hi =>
    intro c q hq hbad
    refine owed_of_due ?_
    have hold : s.Waits C c q := by
      simp only [Waits, goto_place, goto_table] at hq ⊢
      grind
    have hdue := locked.due_of_owed (locked.lk p (by rw [hplace]; rfl)) (hs.waits c q hold hbad)
    rw [hplace] at hdue
    refine hdue.resolve_left fun hle => ?_
    -- everybody who sleeps has been visited
    have hlt : q < nproc := by
      have hsleep := hs.sleeps q
      have hbounded := locked.bounded q
      simp only [Waits] at hold
      grind [Place.sleepsOn]
    omega
  | env e d hd =>
    intro c q hq hbad
    exact hs.waits c q hq (henv e d c hd hbad)
  | put i t ht =>
    intro c q hq hbad
    refine hs.waits c q ?_ hbad
    simp only [Waits, put_place, put_table] at hq ⊢
    grind

/-- The rule: where every section pays its debts, nobody sleeps on a channel on which
nobody may stay asleep while the lock is free. -/
theorem sound_of_pays (I : σ → (ℕ → View κ) → Prop)
    (hI : ∀ d v d' v', I d v → Section C d v d' v' → I d' v')
    (hpays : ∀ s p e k x, I s.data s.view → s.place p = .inside k → ok s (.run p e) →
      C.act s.data (s.table p) k e = some x → Pays bad owes s.data k x)
    (henv : ∀ d e d' c, C.env d e = some d' → bad d' c → bad d c)
    {d : σ} {T : Table} {k : κ} (hinit : I d fun _ => .out k)
    (hT : ∀ p, (T p).state = .sleeping → C.own (T p).chan = false)
    (h : ReachOf (step C) ok (init d T k) s) : s.Sound C bad owes := by
  have hinv : s.Sound C bad owes ∧ I s.data s.view := by
    refine ReachOf.invariant (fun s => s.Sound C bad owes ∧ I s.data s.view) ?_ ⟨?_, hinit⟩ h
    · rintro s m s' hok ⟨hs, hview⟩ hstep
      have heffect : Effect C ok s s' := step_effect hok hstep
      have hpays' := fun p e k x => hpays s p e k x hview
      have henv' := fun e d c => henv s.data e d c
      refine ⟨⟨hs.locked.effect heffect, hs.decided_effect hpays' henv' heffect,
        hs.sleeps_effect heffect, hs.waits_effect hpays' henv' heffect⟩,
        hI _ _ _ _ hview (heffect.section hs.locked)⟩
    · have hsleeps : ∀ p, (T p).state = .sleeping → C.own (T p).chan ≠ true :=
        fun p hp => by simp [hT p hp]
      refine ⟨locked_init d T k, nofun, fun p hp hown => absurd hown (hsleeps p hp), ?_⟩
      rintro c q (⟨_, hmark⟩ | ⟨hstate, rfl, hown⟩)
      · cases hmark
      · exact absurd hown (hsleeps q hstate)
  exact hinv.1

theorem Sound.not_bad (hs : s.Sound C bad owes) (hlk : s.lk = none)
    (hstate : (s.table p).state = .sleeping) (hown : C.own (s.table p).chan = true) :
    ¬ bad s.data (s.table p).chan := by
  intro hbad
  exact hs.locked.not_owed hlk (hs.waits _ p (Or.inr ⟨hstate, rfl, hown⟩) hbad)

end Wakeups

end Monitor

end XV6AndConcurrency.Synchronization
