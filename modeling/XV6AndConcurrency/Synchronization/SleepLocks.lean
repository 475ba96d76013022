import XV6AndConcurrency.Synchronization.Monitor

/-!
# Sleep-locks

`acquiresleep` and `releasesleep` on one lock, as code under the spinlock `lk->lk`.
-/

namespace XV6AndConcurrency.Synchronization

open Foundations Scheduling

/-- `struct sleeplock` without its spinlock. -/
structure SleepLock where
  locked : Bool := false
  pid : ℤ := 0
  deriving DecidableEq

namespace SleepLock

/-- The address of the lock as a channel. -/
def chan : ℕ := 1

/-- Where a process is: it has no business with the lock or has it, is in the loop of
`acquiresleep`, at the beginning of `releasesleep`, or behind its `wakeup`. -/
inductive Code
  | free
  | held
  | acquiresleep
  | releasesleep
  | released
  deriving DecidableEq

/-- Between the return of `acquiresleep` and the section of `releasesleep`. -/
def has : View Code → Bool
  | .out .held | .waiting .releasesleep | .active .releasesleep => true
  | _ => false

def act (d : SleepLock) (t : Task) : Code → Option (Next SleepLock Code)
  | .acquiresleep =>
    if d.locked then some (.sleep chan .acquiresleep)
    else some (.leave { locked := true, pid := t.pid } .held)
  | .releasesleep => some (.wake { locked := false, pid := 0 } chan .released)
  | .released => some (.leave d .free)
  | .free | .held => none

/-- A process that has the lock releases it, any other may ask for it. -/
def mayCall (v : View Code) (k : Code) : Bool :=
  match v, k with
  | .out .free, .acquiresleep | .out .held, .releasesleep => true
  | _, _ => false

def client : Client SleepLock Code Unit where
  act d t k _ := act d t k
  mayCall _ v p k := mayCall (v p) k
  env _ _ := none
  own c := c = chan
  own_zero := rfl

/-- The lock is taken while somebody has it, and then by one process only. -/
structure Exclusive (d : SleepLock) (v : ℕ → View Code) : Prop where
  locked : ∀ p, has (v p) = true → d.locked = true
  one : ∀ p q, has (v p) = true → has (v q) = true → p = q

theorem Exclusive.act {d : SleepLock} {v : ℕ → View Code} {p : ℕ} {t : Task} {k : Code}
    {x : Next SleepLock Code} (hd : Exclusive d v) (hp : v p = .active k)
    (hact : act d t k = some x) : Exclusive (x.data d) (Function.update v p x.view) := by
  obtain ⟨locked, one⟩ := hd
  cases k with simp only [SleepLock.act] at hact
  | free | held => cases hact
  | acquiresleep =>
    split at hact
    case isTrue =>
      cases hact
      constructor <;> grind [Function.update_apply, has, Next.data, Next.view]
    case isFalse hfree =>
      cases hact
      constructor <;> grind [Function.update_apply, has, Next.data, Next.view]
  | releasesleep =>
    cases hact
    constructor <;> grind [Function.update_apply, has, Next.data, Next.view]
  | released =>
    cases hact
    constructor <;> grind [Function.update_apply, has, Next.data, Next.view]

theorem Exclusive.section {d d' : SleepLock} {v v' : ℕ → View Code} (hd : Exclusive d v)
    (h : Monitor.Section client d v d' v') : Exclusive d' v' := by
  cases h with
  | same => exact hd
  | call p k k' hp hmay =>
    change mayCall (v p) k' = true at hmay
    obtain ⟨locked, one⟩ := hd
    constructor <;> grind [Function.update_apply, has, mayCall]
  | acquire p k hp _ =>
    obtain ⟨locked, one⟩ := hd
    constructor <;> grind [Function.update_apply, has]
  | act p t e k x hp _ hact => exact hd.act hp hact
  | env e d' he => cases he

/-- Nobody may sleep on a free lock. -/
def bad (d : SleepLock) (c : ℕ) : Prop := c = chan ∧ d.locked = false

/-- No debt is carried from section to section: `releasesleep` wakes at once. -/
theorem pays {d : SleepLock} {t : Task} {k : Code} {x : Next SleepLock Code}
    (hact : act d t k = some x) : Monitor.Pays bad (fun _ _ => False) d k x := by
  cases k with simp only [act] at hact
  | free | held => cases hact
  | acquiresleep =>
    split at hact
    case isTrue htaken =>
      cases hact
      refine ⟨fun c hbad => Or.inr ⟨hbad, id⟩, ?_⟩
      rintro c k' - ⟨-, hfree⟩
      rw [htaken] at hfree
      cases hfree
    case isFalse =>
      cases hact
      exact ⟨fun c hbad => (Bool.noConfusion hbad.2), nofun⟩
  | releasesleep =>
    cases hact
    exact ⟨fun c hbad => Or.inl (Or.inl hbad.1), nofun⟩
  | released =>
    cases hact
    exact ⟨fun c hbad => Or.inr ⟨hbad, id⟩, nofun⟩

/-- From any table in which nobody sleeps on the lock yet: at most one process is between
`acquiresleep` and `releasesleep`, and while `lk->lk` is free nobody sleeps on a lock that
is not taken. -/
theorem sleeplock_exclusive_no_lost_wakeup (T : Table)
    (hT : ∀ p, (T p).state = .sleeping → (T p).chan ≠ chan) (s : Monitor SleepLock Code)
    (h : Reach (Monitor.step client) (Monitor.init {} T .free) s) :
    (∀ p q, has (s.view p) = true → has (s.view q) = true → p = q) ∧
      (s.lk = none → s.data.locked = false →
        ∀ p, ¬ ((s.table p).state = .sleeping ∧ (s.table p).chan = chan)) := by
  have hI : ∀ d v d' v', Exclusive d v → Monitor.Section client d v d' v' → Exclusive d' v' :=
    fun _ _ _ _ => Exclusive.section
  have hinit : Exclusive {} fun _ => .out .free := ⟨nofun, nofun⟩
  refine ⟨(Monitor.section_invariant Exclusive hI hinit h).2.one, ?_⟩
  have hsound : s.Sound client bad fun _ _ => False := by
    refine Monitor.sound_of_pays Exclusive hI ?_ nofun hinit ?_ h
    · exact fun s p e k x _ _ _ hact => pays hact
    · exact fun p hp => decide_eq_false (hT p hp)
  rintro hlk hfree p ⟨hstate, hchan⟩
  refine hsound.not_bad hlk hstate (decide_eq_true hchan) ?_
  exact ⟨hchan, hfree⟩

/-- Process 0 takes the lock and process 1 goes to sleep on it. -/
def contended : List (Move Code Unit) :=
  [.call 0 .acquiresleep, .run 0 (), .run 0 (), .call 1 .acquiresleep, .run 1 (), .run 1 (),
    .run 1 (), .run 1 (), .run 1 (), .run 1 ()]

theorem sleeplock_exclusive_no_lost_wakeup_of_contended :
    ∃ s, Reach (Monitor.step client) (Monitor.init {} Monitor.twoRunning .free) s ∧
      has (s.view 0) = true ∧ ((s.table 1).state = .sleeping ∧ (s.table 1).chan = chan) ∧
      (∀ p q, has (s.view p) = true → has (s.view q) = true → p = q) ∧
      (s.lk = none → s.data.locked = false →
        ∀ p, ¬ ((s.table p).state = .sleeping ∧ (s.table p).chan = chan)) := by
  have hrun : (runAll (Monitor.step client) (Monitor.init {} Monitor.twoRunning .free)
      contended).any (fun s => has (s.view 0) = true ∧ (s.table 1).state = .sleeping ∧
      (s.table 1).chan = chan) = true := by
    decide +kernel
  obtain ⟨s, hs, hend⟩ := (Option.any_eq_true _ _).mp hrun
  have hreach : Reach (Monitor.step client) (Monitor.init {} Monitor.twoRunning .free) s :=
    reach_of_runAll hs
  obtain ⟨hhas, hsleep⟩ := of_decide_eq_true hend
  refine ⟨s, hreach, hhas, hsleep, ?_⟩
  exact sleeplock_exclusive_no_lost_wakeup Monitor.twoRunning
    (fun p hp => absurd hp (Monitor.twoRunning_not_sleeping p)) s hreach

end SleepLock

end XV6AndConcurrency.Synchronization
