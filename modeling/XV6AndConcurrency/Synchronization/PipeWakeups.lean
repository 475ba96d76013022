import XV6AndConcurrency.Synchronization.Pipes

/-!
# Sleepers on a pipe

Who sleeps on `&pi->nread` and `&pi->nwrite`. A writer that is killed after it has stored
bytes leaves `pipewrite` without a `wakeup`; in the runs without such an exit nobody sleeps
on a condition that already holds.
-/

namespace XV6AndConcurrency.Synchronization.Pipe

open Foundations Scheduling

/-! ## Open ends -/

/-- Both ends stay open while calls use them. -/
structure Opened (d : Pipe) (v : ℕ → View Code) : Prop where
  bounded : ∀ q, nproc ≤ q → ∃ k, v q = .out k
  opened : ∀ q w, busy Code.uses w (v q) = true →
    d.isOpen w = true ∧ ∀ q', busy Code.closes w (v q') = false

variable {d d' : Pipe} {v v' : ℕ → View Code}

@[simp] theorem isOpen_push (ch : Byte) (w : Bool) : (d.push ch).isOpen w = d.isOpen w := by
  cases w <;> rfl

@[simp] theorem isOpen_pop (w : Bool) : d.pop.isOpen w = d.isOpen w := by
  cases w <;> rfl

@[simp] theorem isOpen_release (w : Bool) : d.release.isOpen w = d.isOpen w := by
  unfold release
  split <;> cases w <;> rfl

theorem isOpen_close_of_ne {w w' : Bool} (h : w' ≠ w) : (d.close w).isOpen w' = d.isOpen w' := by
  cases w <;> cases w' <;> first | rfl | exact absurd rfl h

/-- A section stays in its call, and closes no end but the one it is called for. -/
theorem act_frame {t : Task} {e : Copy} {k : Code} {x : Next Pipe Code}
    (hact : act d t e k = some x) :
    (∀ w, busy Code.uses w x.view = true → k.uses = some w) ∧
      (∀ w, busy Code.closes w x.view = false) ∧
      ∀ w, k.closes ≠ some w → (x.data d).isOpen w = d.isOpen w := by
  cases k with simp only [Pipe.act] at hact
  | back r => cases hact
  | write n i fresh | read n | copy n i =>
    split_ifs at hact <;> cases hact <;>
      simp [Next.view, Next.data, busy, Code.uses, Code.closes]
  | close w =>
    cases hact
    refine ⟨fun w' hw' => (by cases hw'), fun _ => rfl, fun w' hw' => isOpen_close_of_ne ?_⟩
    rintro rfl
    exact hw' rfl
  | _ =>
    cases hact
    simp [Next.view, Next.data, busy, Code.uses, Code.closes]

theorem Opened.section (hd : Opened d v) (h : Monitor.Section client d v d' v') :
    Opened d' v' := by
  obtain ⟨bounded, opened⟩ := hd
  have hall : ∀ f w, (∀ q < nproc, ¬ busy f w (v q) = true) → ∀ q, busy f w (v q) = false := by
    intro f w hf q
    by_cases hq : q < nproc
    · simpa using hf q hq
    · obtain ⟨k, hk⟩ := bounded q (not_lt.mp hq)
      rw [hk]
      rfl
  cases h with
  | same => exact ⟨bounded, opened⟩
  | call p k k' hp hmay =>
    obtain ⟨hlt, hmay⟩ := of_decide_eq_true hmay
    refine ⟨by grind [Function.update_apply], ?_⟩
    cases k' with
    | write n i fresh =>
      obtain ⟨-, -, hopen, hclose⟩ := of_decide_eq_true hmay
      have hnone := hall _ _ hclose
      grind [Function.update_apply, busy, Code.uses, Code.closes, isOpen]
    | read n =>
      obtain ⟨hopen, hclose⟩ := of_decide_eq_true hmay
      have hnone := hall _ _ hclose
      grind [Function.update_apply, busy, Code.uses, Code.closes, isOpen]
    | close w =>
      obtain ⟨hopen, huse⟩ := of_decide_eq_true hmay
      have hnone := hall Code.uses w fun q hq => (huse q hq).1
      grind [Function.update_apply, busy, Code.uses, Code.closes]
    | _ => cases hmay
  | acquire p k hp _ =>
    constructor
    · grind [Function.update_apply]
    · grind [Function.update_apply, busy]
  | act p t e k x hp _ hact =>
    obtain ⟨huses, hcloses, hopen⟩ := act_frame hact
    refine ⟨by grind [Function.update_apply], fun q w hq => ?_⟩
    have hold : busy Code.uses w (v q) = true := by
      grind [Function.update_apply, busy]
    obtain ⟨hopened, hnone⟩ := opened q w hold
    refine ⟨?_, by grind [Function.update_apply]⟩
    -- nobody closes the end while `q` uses it
    rw [hopen w fun hk => ?_]
    · exact hopened
    · have hp' := hnone p
      rw [hp] at hp'
      simp [busy, hk] at hp'
  | env e d' he => cases he

theorem opened_init (junk : ℕ → Byte) : Opened (pipealloc junk) fun _ => .out (.back .none) where
  bounded := fun _ _ => ⟨_, rfl⟩
  opened := nofun

/-- What every run keeps. -/
def Inv (d : Pipe) (v : ℕ → View Code) : Prop := Ordered d v ∧ Opened d v

theorem Inv.section (hd : Inv d v) (h : Monitor.Section client d v d' v') : Inv d' v' :=
  ⟨hd.1.section h, hd.2.section h⟩

theorem inv_init (junk : ℕ → Byte) : Inv (pipealloc junk) fun _ => .out (.back .none) :=
  ⟨ordered_init junk, opened_init junk⟩

/-! ## Debts -/

/-- Nobody may sleep on `&pi->nread` while there is something to read or no writer left,
and nobody on `&pi->nwrite` while there is space or no reader left. An end that is closed
has no sleepers anyway. -/
def bad (d : Pipe) (c : ℕ) : Prop :=
  (c = nreadChan ∧ d.readopen = true ∧ (d.empty = false ∨ d.writeopen = false)) ∨
    (c = nwriteChan ∧ d.writeopen = true ∧ (d.full = false ∨ d.readopen = false))

/-- The wakeups that the code still has to make. -/
def owes : Code → ℕ → Prop
  | .write _ _ fresh, c => fresh = true ∧ c = nreadChan
  | .writeEnd _, c => c = nreadChan
  | .copy .., c | .readEnd .., c => c = nwriteChan
  | _, _ => False

/-- The exit of a writer that is killed and has stored bytes since its last `wakeup`. -/
def silentExit (d : Pipe) (t : Task) : Code → Bool
  | .write n i fresh => i < n ∧ fresh ∧ d.readopen ∧ t.killed ≠ 0
  | _ => false

theorem pays {t : Task} {e : Copy} {k : Code} {x : Next Pipe Code} (hk : tested d k)
    (hact : act d t e k = some x) (hexit : silentExit d t k = false) :
    Monitor.Pays bad owes d k x := by
  cases k with simp only [Pipe.act] at hact
  | back r => cases hact
  | write n i fresh =>
    split_ifs at hact with hi hleave hfull hok
    · -- the reader is gone, or nothing was stored
      cases hact
      refine ⟨fun c hbad => Or.inr ⟨hbad, ?_⟩, fun c k' hsleep => by cases hsleep⟩
      rintro ⟨hfresh, rfl⟩
      obtain ⟨-, hopen, -⟩ | ⟨hc, -⟩ := hbad
      · have hkilled : t.killed ≠ 0 := hleave.resolve_left (not_not.mpr hopen)
        refine of_decide_eq_false hexit ⟨hi, hfresh, hopen, hkilled⟩
      · cases hc
    · cases hact
      constructor <;> grind [bad, owes, Monitor.dueAfter, Next.data, nreadChan, nwriteChan]
    · cases hact
      constructor <;> grind [bad, owes, Monitor.dueAfter, Next.data, push, nreadChan, nwriteChan]
    · cases hact
      constructor <;> grind [bad, owes, Monitor.dueAfter, Next.data, nreadChan, nwriteChan]
    · cases hact
      constructor <;> grind [bad, owes, Monitor.dueAfter, Next.data, nreadChan, nwriteChan]
  | writeSleep n i =>
    cases hact
    constructor <;> grind [bad, owes, Monitor.dueAfter, Next.data, tested, nreadChan, nwriteChan]
  | read n =>
    split_ifs at hact with hwait hkilled
    · cases hact
      constructor <;> grind [bad, owes, Monitor.dueAfter, Next.data]
    · cases hact
      constructor <;> grind [bad, owes, Monitor.dueAfter, Next.data, nreadChan, nwriteChan]
    · cases hact
      constructor <;> grind [bad, owes, Monitor.dueAfter, Next.data, nreadChan, nwriteChan]
  | copy n i =>
    split_ifs at hact with hi hempty hok <;> cases hact <;>
      constructor <;> grind [bad, owes, Monitor.dueAfter, Next.data, pop, nreadChan, nwriteChan]
  | close w =>
    cases hact
    cases w <;> constructor <;>
      grind [bad, owes, Monitor.dueAfter, Next.data, close, nreadChan, nwriteChan]
  | closed =>
    cases hact
    have hbad : ∀ c, bad d.release c → bad d c := by
      intro c
      unfold release
      split <;> exact id
    constructor <;> grind [owes, Monitor.dueAfter, Next.data]
  | _ =>
    cases hact
    constructor <;> grind [bad, owes, Monitor.dueAfter, Next.data, nreadChan, nwriteChan]

/-- The code goes to sleep on `&pi->nread` in `piperead` only, and on `&pi->nwrite` in
`pipewrite` only. -/
theorem uses_of_sleep {t : Task} {e : Copy} {k k' : Code} {c : ℕ}
    (hact : act d t e k = some (.sleep c k')) :
    (c = nreadChan → k'.uses = some false) ∧ (c = nwriteChan → k'.uses = some true) := by
  cases k with simp only [Pipe.act] at hact
  | writeSleep n i =>
    cases hact
    exact ⟨fun hc => (by cases hc), fun _ => rfl⟩
  | read n =>
    split_ifs at hact
    · cases hact
    · cases hact
      exact ⟨fun _ => rfl, fun hc => by cases hc⟩
    · cases hact
  | write n i fresh | copy n i => split_ifs at hact <;> cases hact
  | _ => cases hact

/-- The next section of the process is such an exit. -/
def silent (s : Monitor Pipe Code) (p : ℕ) : Bool :=
  match s.place p with
  | .inside k => silentExit s.data (s.table p) k
  | _ => false

/-- No writer leaves in silence. -/
def Noisy (s : Monitor Pipe Code) : Move Code Copy → Prop
  | .run p _ => silent s p = false
  | _ => True

instance (s : Monitor Pipe Code) : DecidablePred (Noisy s)
  | .run p _ => inferInstanceAs (Decidable (silent s p = false))
  | .call .. | .env _ | .dispatch _ | .yield _ | .sleepElse .. | .wakeup .. | .kill _
  | .recycle .. => isTrue trivial

/-- Nobody sleeps on `&pi->nread` or `&pi->nwrite` without a reason. -/
def Heard (s : Monitor Pipe Code) : Prop :=
  s.lk = none → ∀ p, (s.table p).state = .sleeping →
    ((s.table p).chan = nreadChan → s.data.nread = s.data.nwrite ∧ s.data.writeopen = true) ∧
    ((s.table p).chan = nwriteChan →
      s.data.nwrite = (s.data.nread + pipesize) % 4294967296 ∧ s.data.readopen = true)

/-- In every run in which no writer leaves `pipewrite` because it was killed after it has
stored bytes for which it woke nobody: while `pi->lock` is free, nobody sleeps on
`&pi->nread` while there are bytes or the write end is closed, and nobody on `&pi->nwrite`
while there is space or the read end is closed. -/
theorem pipe_no_lost_wakeup (junk : ℕ → Byte) (T : Table)
    (hT : ∀ p, (T p).state = .sleeping → (T p).chan ≠ nreadChan ∧ (T p).chan ≠ nwriteChan)
    (s : Monitor Pipe Code)
    (h : ReachOf (Monitor.step client) Noisy (Monitor.init (pipealloc junk) T (.back .none)) s) :
    Heard s := by
  have hsound : s.Sound client bad owes := by
    refine Monitor.sound_of_pays Inv (fun _ _ _ _ => Inv.section) ?_ nofun (inv_init junk) ?_ h
    · intro s p e k x hinv hplace hok hact
      have htested : tested s.data k := hinv.1.holds p k (by rw [Monitor.view, hplace]; rfl)
      have hexit : silentExit s.data (s.table p) k = false := by
        simpa only [Noisy, silent, hplace] using hok
      exact pays htested hact hexit
    · intro p hp
      exact decide_eq_false (not_or.mpr (hT p hp))
  have hopened : Opened s.data s.view :=
    (Monitor.section_invariant Inv (fun _ _ _ _ => Inv.section) (inv_init junk) h).2.2
  have hcode := Monitor.sleepsOn_invariant (C := client) (P := fun c k =>
    (c = nreadChan → k.uses = some false) ∧ (c = nwriteChan → k.uses = some true))
    (fun d t k e c k' => uses_of_sleep) h
  -- who sleeps is in a call that keeps its end open
  have hopen : ∀ p, (s.table p).state = .sleeping → client.own (s.table p).chan = true →
      ((s.table p).chan = nreadChan → s.data.isOpen false = true) ∧
      ((s.table p).chan = nwriteChan → s.data.isOpen true = true) := by
    intro p hstate hown
    obtain ⟨k, hk⟩ := hsound.sleeps p hstate hown
    have hon : (s.place p).sleepsOn = some ((s.table p).chan, k) := by
      obtain hk | hk := hk <;> rw [hk] <;> rfl
    have hview : s.view p = .waiting k := by
      unfold Monitor.view
      obtain hk | hk := hk <;> rw [hk] <;> rfl
    obtain ⟨hreads, hwrites⟩ := hcode p _ k hon
    refine ⟨fun hc => (hopened.opened p false ?_).1, fun hc => (hopened.opened p true ?_).1⟩
    · rw [hview]
      exact decide_eq_true (hreads hc)
    · rw [hview]
      exact decide_eq_true (hwrites hc)
  intro hlk p hstate
  constructor
  · intro hc
    have hown : client.own (s.table p).chan = true := decide_eq_true (Or.inl hc)
    have hro : s.data.readopen = true := (hopen p hstate hown).1 hc
    have hgood := hsound.not_bad hlk hstate hown
    rw [hc] at hgood
    have hnot := not_or.mp fun hor => hgood (Or.inl ⟨rfl, hro, hor⟩)
    exact ⟨by simpa [empty] using hnot.1, by simpa using hnot.2⟩
  · intro hc
    have hown : client.own (s.table p).chan = true := decide_eq_true (Or.inr hc)
    have hwo : s.data.writeopen = true := (hopen p hstate hown).2 hc
    have hgood := hsound.not_bad hlk hstate hown
    rw [hc] at hgood
    have hnot := not_or.mp fun hor => hgood (Or.inr ⟨rfl, hwo, hor⟩)
    exact ⟨by simpa [full] using hnot.1, by simpa using hnot.2⟩

/-- Process 0 reads from the empty pipe and falls asleep. -/
def sleepingReader : List (Move Code Copy) :=
  .call 0 (.read 1) :: List.replicate 6 (.run 0 ⟨0, true⟩)

/-- A fresh pipe and two processes. -/
def fresh : Monitor Pipe Code :=
  Monitor.init (pipealloc fun _ => 5) Monitor.twoRunning (.back .none)

theorem pipe_no_lost_wakeup_of_reader :
    ∃ s, ReachOf (Monitor.step client) Noisy fresh s ∧ (s.lk = none ∧
      (s.table 0).state = .sleeping ∧ (s.table 0).chan = nreadChan) ∧ Heard s := by
  have hrun : (runAll (fun s a => if Noisy s a then Monitor.step client s a else none) fresh
      sleepingReader).any (fun s => s.lk = none ∧ (s.table 0).state = .sleeping ∧
        (s.table 0).chan = nreadChan) = true := by
    decide +kernel
  obtain ⟨s, hs, hend⟩ := (Option.any_eq_true _ _).mp hrun
  have hreach : ReachOf (Monitor.step client) Noisy fresh s := reachOf_of_runAll hs
  exact ⟨s, hreach, of_decide_eq_true hend, pipe_no_lost_wakeup _ Monitor.twoRunning
    (fun p hp => absurd hp (Monitor.twoRunning_not_sleeping p)) s hreach⟩

/-- Then process 1 writes two bytes and is killed behind the first one. -/
def killedWriter : List (Move Code Copy) :=
  sleepingReader ++ [.call 1 (.write 2 0 false), .run 1 ⟨7, true⟩, .run 1 ⟨7, true⟩, .kill 1,
    .run 1 ⟨7, true⟩]

theorem pipe_loses_wakeup :
    ¬ ∀ (junk : ℕ → Byte) (T : Table),
      (∀ p, (T p).state = .sleeping → (T p).chan ≠ nreadChan ∧ (T p).chan ≠ nwriteChan) →
      ∀ s : Monitor Pipe Code,
        Reach (Monitor.step client) (Monitor.init (pipealloc junk) T (.back .none)) s →
        Heard s := by
  intro hall
  have hrun : (runAll (Monitor.step client) fresh killedWriter).any (fun s => s.lk = none ∧
      (s.table 0).state = .sleeping ∧ (s.table 0).chan = nreadChan ∧
      s.data.nread ≠ s.data.nwrite) = true := by
    decide +kernel
  obtain ⟨s, hs, hend⟩ := (Option.any_eq_true _ _).mp hrun
  obtain ⟨hlk, hstate, hchan, hne⟩ := of_decide_eq_true hend
  have hheard := hall _ _ (fun p hp => absurd hp (Monitor.twoRunning_not_sleeping p)) s
    (reach_of_runAll hs)
  exact hne ((hheard hlk 0 hstate).1 hchan).1

end XV6AndConcurrency.Synchronization.Pipe
