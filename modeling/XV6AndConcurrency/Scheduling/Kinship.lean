import XV6AndConcurrency.Scheduling.Family

/-!
# Parents, zombies and sleeping parents

One assertion for every place in `fork`, `exit` and `wait`, and what holds of the
table between any two steps. Each assertion is established by the process that comes
to the place and is kept by whatever the others do meanwhile.
-/

namespace XV6AndConcurrency.Scheduling

open Foundations

namespace Family

section

variable (M : Family) (q : ℕ)

/-- The process sleeps inside `wait` or `waitx`. -/
def WaitsAsleep : Prop := M.place q = .waitAsleep ∧ (M.table q).state = .sleeping

/-- The process is on a CPU or preempted. -/
def Active : Prop := (M.table q).state = .running ∨ (M.table q).state = .runnable

def Holding : Prop := M.waitLock = some q ∧ (M.table q).state = .running

/-- The process is in `exit` and holds `wait_lock`. -/
def Exiting : Prop := M.Holding q ∧ q ≠ initproc

def Childless : Prop := ∀ i, (M.table i).parent ≠ some q

def ZombieChild (i : ℕ) : Prop := (M.table i).parent = some q ∧ (M.table i).state = .zombie

/-- A zombie was just handed to `initproc`, which is woken next. -/
def WakesInit : Prop := q = initproc ∧ ∃ r status pp, M.place r = .wakeInit status pp 0

/-- What holds while `q` is at a place. -/
def At : Place → Prop
  | .user _ | .asleep | .dead => True
  | .forkScan _ | .waitRelock => M.Active q
  | .forkLink np _ => M.Active q ∧ (M.table np).state = .used ∧ (M.table np).parent = none
  | .forkReady np _ => M.Active q ∧ (M.table np).state = .used ∧ (M.table np).parent = some q
  | .reparent _ pp => M.Exiting q ∧ ∀ i < pp, (M.table i).parent ≠ some q
  | .wakeInit _ pp _ => M.Exiting q ∧ ∀ i ≤ pp, (M.table i).parent ≠ some q
  | .wakeParent _ chan i => M.Exiting q ∧ M.Childless q ∧
      ∃ r, (M.table q).parent = some r ∧ chan = procChan r ∧ (r < i → ¬ M.WaitsAsleep r)
  | .zombify _ => M.Exiting q ∧ M.Childless q ∧
      ∃ r, (M.table q).parent = some r ∧ ¬ M.WaitsAsleep r
  | .waitScan pp _ => M.Holding q ∧ ∀ i < pp, ¬ M.ZombieChild q i
  | .waitAsleep => (M.table q).state = .sleeping →
      (M.table q).chan = procChan q ∧ ((∀ i, ¬ M.ZombieChild q i) ∨ M.WakesInit q)

end

/-- What holds between any two steps. -/
structure Kin (M : Family) : Prop where
  stands : ∀ q, M.At q (M.place q)
  forks : ∀ p q np, (M.place p).forking = some np → (M.place q).forking = some np → p = q
  outside : ∀ i, nproc ≤ i → (M.table i).state = .unused
  free : ∀ i, (M.table i).state = .unused → (M.table i).parent = none
  alive : ∀ i q, (M.table i).parent = some q → (M.table q).state.live = true
  family : ∀ i, (M.table i).state ≠ .unused → (M.table i).state ≠ .used → i ≠ initproc →
    (M.table i).parent ≠ none
  init : (M.table initproc).state.live = true

variable {M M' : Family} {p q : ℕ}

namespace Kin

/-- Whoever is at a place that needs the lock has it, and runs. -/
theorem holding (I : Kin M) (h : (M.place q).holds = true) : M.Holding q := by
  have hat := I.stands q
  cases hq : M.place q with
  | user => simp [hq, Place.holds] at h
  | asleep => simp [hq, Place.holds] at h
  | forkScan => simp [hq, Place.holds] at h
  | forkLink => simp [hq, Place.holds] at h
  | forkReady => simp [hq, Place.holds] at h
  | dead => simp [hq, Place.holds] at h
  | waitAsleep => simp [hq, Place.holds] at h
  | waitRelock => simp [hq, Place.holds] at h
  | reparent => rw [hq] at hat; exact hat.1.1
  | wakeInit => rw [hq] at hat; exact hat.1.1
  | wakeParent => rw [hq] at hat; exact hat.1.1
  | zombify => rw [hq] at hat; exact hat.1.1
  | waitScan => rw [hq] at hat; exact hat.1

theorem holder_unique (I : Kin M) (hq : M.Holding q) (h : (M.place p).holds = true) : p = q := by
  have hp := (I.holding h).1
  rw [hq.1] at hp
  injection hp with hp
  exact hp.symm

/-- The slot that a `fork` fills is in use and is filled by nobody else. -/
theorem forking_used (I : Kin M) {np : ℕ} (h : (M.place q).forking = some np) :
    (M.table np).state = .used := by
  have hat := I.stands q
  cases hq : M.place q with
  | forkLink np' pid =>
    rw [hq] at hat h
    injection h with h
    exact h ▸ hat.2.1
  | forkReady np' pid =>
    rw [hq] at hat h
    injection h with h
    exact h ▸ hat.2.1
  | user => simp [hq, Place.forking] at h
  | asleep => simp [hq, Place.forking] at h
  | forkScan => simp [hq, Place.forking] at h
  | dead => simp [hq, Place.forking] at h
  | waitAsleep => simp [hq, Place.forking] at h
  | waitRelock => simp [hq, Place.forking] at h
  | reparent => simp [hq, Place.forking] at h
  | wakeInit => simp [hq, Place.forking] at h
  | wakeParent => simp [hq, Place.forking] at h
  | zombify => simp [hq, Place.forking] at h
  | waitScan => simp [hq, Place.forking] at h

end Kin

/-! ## What the others keep -/

section Others

variable (I : Kin M) (e : Effect M M' p) (hne : q ≠ p)
include I e hne

theorem state_of_active (h : M.Active q) : (M'.table q).state = (M.table q).state := by
  unfold Active at h
  cases e.slot q with
  | same hstate => exact hstate
  | own hactor => exact absurd hactor hne
  | zombified _ hactor => exact absurd hactor hne
  | filled _ hbefore => simp [hbefore] at h
  | linked _ _ _ _ hstate => exact hstate
  | readied _ hplace =>
    have hused := I.forking_used (q := p) (by rw [hplace]; rfl)
    simp [hused] at h
  | adopted _ _ _ hstate => exact hstate
  | woken hbefore => simp [hbefore] at h
  | freed _ _ hbefore => simp [hbefore] at h

theorem active_of_other (h : M.Active q) : M'.Active q := by
  unfold Active
  rw [state_of_active I e hne h]
  exact h

omit I in
theorem sleeping_of_other (h : (M'.table q).state = .sleeping) :
    (M.table q).state = .sleeping ∧ (M'.table q).chan = (M.table q).chan := by
  cases e.slot q with
  | same hstate _ hchan => exact ⟨by rw [← hstate, h], hchan⟩
  | own hactor => exact absurd hactor hne
  | zombified _ hactor => exact absurd hactor hne
  | filled _ _ hafter => simp [h] at hafter
  | linked _ _ _ _ hstate _ hchan => exact ⟨by rw [← hstate, h], hchan⟩
  | readied _ _ hafter => simp [h] at hafter
  | adopted _ _ _ hstate _ _ hchan => exact ⟨by rw [← hstate, h], hchan⟩
  | woken _ hafter => simp [h] at hafter
  | freed _ _ _ hafter => simp [h] at hafter

omit I in
theorem waitsAsleep_of_other (h : M'.WaitsAsleep q) : M.WaitsAsleep q := by
  obtain hsame | ⟨-, huser⟩ := e.place q hne
  · exact ⟨hsame ▸ h.1, (sleeping_of_other e hne h.2).1⟩
  · have hplace := h.1
    simp [huser] at hplace

section Locked

variable (hq : M.Holding q)
include hq

omit e in
theorem not_holds_of_other : (M.place p).holds = false := by
  by_contra h
  exact hne (I.holder_unique hq (by simpa using h)).symm

theorem holding_of_other : M'.Holding q := by
  have hstate := state_of_active I e hne (Or.inl hq.2)
  refine ⟨?_, by rw [hstate, hq.2]⟩
  obtain hsame | ⟨hfree, -⟩ | ⟨hholds, -⟩ := e.lock
  · rw [hsame, hq.1]
  · simp [hq.1] at hfree
  · simp [not_holds_of_other I hne hq] at hholds

/-- While someone has the lock, nobody else changes who is whose child. -/
theorem parent_of_locked (i : ℕ) : (M'.table i).parent = (M.table i).parent := by
  have hno := not_holds_of_other I hne hq
  cases e.slot i with
  | same _ hparent => exact hparent
  | own _ _ _ hparent => exact hparent
  | zombified _ _ _ _ hparent => exact hparent
  | filled _ hbefore _ hparent =>
    obtain hsame | hnone := hparent
    · exact hsame
    · rw [hnone, I.free i hbefore]
  | linked _ _ hlock => simp [hq.1] at hlock
  | readied _ _ _ hparent => exact hparent
  | adopted _ hplace => simp [hplace, Place.holds] at hno
  | woken _ _ hparent => exact hparent
  | freed _ hplace => simp [hplace, Place.holds] at hno

theorem zombie_of_locked (i : ℕ) (h : (M'.table i).state = .zombie) :
    (M.table i).state = .zombie := by
  have hno := not_holds_of_other I hne hq
  cases e.slot i with
  | same hstate => rw [← hstate, h]
  | own _ _ hafter => simp [h, ProcState.live] at hafter
  | zombified _ _ hplace => simp [hplace, Place.holds] at hno
  | filled _ _ hafter => simp [h] at hafter
  | linked _ _ _ _ hstate => rw [← hstate, h]
  | readied _ _ hafter => simp [h] at hafter
  | adopted _ _ _ hstate => rw [← hstate, h]
  | woken _ hafter => simp [h] at hafter
  | freed _ _ _ hafter => simp [h] at hafter

theorem waitsAsleep_of_locked (r : ℕ) (h : M'.WaitsAsleep r) : M.WaitsAsleep r := by
  by_cases hr : r = p
  · subst hr
    obtain hholds | hsame := e.sleeps h.1 h.2
    · simp [not_holds_of_other I hne hq] at hholds
    · exact hsame
  · exact waitsAsleep_of_other e hr h

theorem zombieChild_of_locked (r i : ℕ) (h : M'.ZombieChild r i) : M.ZombieChild r i :=
  ⟨by rw [← parent_of_locked I e hne hq, h.1], zombie_of_locked I e hne hq i h.2⟩

theorem childless_of_locked (r : ℕ) (h : M.Childless r) : M'.Childless r := by
  intro i
  rw [parent_of_locked I e hne hq]
  exact h i

end Locked

/-- The slot that `q` fills stays as it is. -/
theorem forking_of_other {np : ℕ} (hfork : (M.place q).forking = some np)
    (hparent : (M.table np).parent = none ∨ (M.table np).parent = some q) :
    (M'.table np).state = .used ∧ (M'.table np).parent = (M.table np).parent := by
  have hused := I.forking_used hfork
  cases e.slot np with
  | same hstate hparent' => exact ⟨by rw [hstate, hused], hparent'⟩
  | own _ hbefore => simp [hused, ProcState.live] at hbefore
  | zombified _ hactor hplace =>
    have hrun := (I.holding (q := p) (by rw [hplace]; rfl)).2
    rw [← hactor, hused] at hrun
    simp at hrun
  | filled _ hbefore => simp [hused] at hbefore
  | linked _ hplace => exact absurd (I.forks q p np hfork (by rw [hplace]; rfl)) hne
  | readied _ hplace => exact absurd (I.forks q p np hfork (by rw [hplace]; rfl)) hne
  | adopted _ _ _ _ hbefore =>
    rw [hbefore] at hparent
    simp [hne.symm] at hparent
  | woken hbefore => simp [hused] at hbefore
  | freed _ _ hbefore => simp [hused] at hbefore

/-- A process asleep in `wait` gets no zombie child, except that `initproc` may be handed
one and is woken next. -/
theorem zombieChild_of_other (h : M'.WaitsAsleep q) (hno : ∀ i, ¬ M.ZombieChild q i) {i : ℕ}
    (hi : M'.ZombieChild q i) : M'.WakesInit q := by
  have hbefore := hno i
  unfold ZombieChild at hbefore hi
  have hasleep := waitsAsleep_of_other e hne h
  cases e.slot i with
  | same hstate hparent => rw [← hstate, ← hparent] at hbefore; exact absurd hi hbefore
  | own _ _ hafter => simp [hi.2, ProcState.live] at hafter
  | zombified _ hactor hplace _ hparent =>
    obtain ⟨-, -, r, hr, hnot⟩ := hplace ▸ I.stands p
    rw [hactor] at hi hparent
    rw [hparent, hr] at hi
    cases hi.1
    exact absurd hasleep hnot
  | filled _ _ hafter => simp [hi.2] at hafter
  | linked _ _ _ _ _ hparent =>
    rw [hi.1] at hparent
    injection hparent with hqp
    exact absurd hqp hne
  | readied _ _ hafter => simp [hi.2] at hafter
  | adopted status _ hplace' _ _ hafter =>
    rw [hi.1] at hafter
    injection hafter with hinit
    exact ⟨hinit, p, status, i, hplace'⟩
  | woken _ hafter => simp [hi.2] at hafter
  | freed _ _ _ hafter => simp [hi.2] at hafter

/-- What a process asleep in `wait` can rely on stays true. -/
theorem waitAsleep_of_other (h : M'.WaitsAsleep q) (hat : M.At q .waitAsleep) :
    (M'.table q).chan = procChan q ∧ ((∀ i, ¬ M'.ZombieChild q i) ∨ M'.WakesInit q) := by
  obtain ⟨hsleep, hchan'⟩ := sleeping_of_other e hne h.2
  obtain ⟨hchan, hno | ⟨hinit, r, status, pp, hr⟩⟩ := hat hsleep
  · refine ⟨by rw [hchan', hchan], ?_⟩
    by_cases hz : ∃ i, M'.ZombieChild q i
    · obtain ⟨i, hi⟩ := hz
      exact Or.inr (zombieChild_of_other I e hne h hno hi)
    · exact Or.inl (not_exists.mp hz)
  · refine ⟨by rw [hchan', hchan], Or.inr ⟨hinit, r, status, pp, ?_⟩⟩
    by_cases hrp : r = p
    · subst hrp
      obtain hsame | hwoken := e.wakes status pp hr
      · rw [hsame, hr]
      · subst hinit
        exact absurd ⟨h.2, by rw [hchan', hchan]⟩ (hwoken (Ne.symm hne))
    · obtain hsame | ⟨hfree, -⟩ := e.place r hrp
      · rw [hsame, hr]
      · have hrun := (I.holding (q := r) (by rw [hr]; rfl)).2
        simp [hfree] at hrun

/-- No step of another process disturbs what holds at the place of `q`. -/
theorem at_of_other : M'.At q (M'.place q) := by
  have hat := I.stands q
  obtain hsame | ⟨-, huser⟩ := e.place q hne
  · rw [hsame]
    cases hq : M.place q with
    | user => trivial
    | asleep => trivial
    | dead => trivial
    | forkScan => rw [hq] at hat; exact active_of_other I e hne hat
    | waitRelock => rw [hq] at hat; exact active_of_other I e hne hat
    | forkLink np pid =>
      rw [hq] at hat
      obtain ⟨hused, hparent⟩ := forking_of_other I e hne (by rw [hq]; rfl) (Or.inl hat.2.2)
      exact ⟨active_of_other I e hne hat.1, hused, by rw [hparent, hat.2.2]⟩
    | forkReady np pid =>
      rw [hq] at hat
      obtain ⟨hused, hparent⟩ := forking_of_other I e hne (by rw [hq]; rfl) (Or.inr hat.2.2)
      exact ⟨active_of_other I e hne hat.1, hused, by rw [hparent, hat.2.2]⟩
    | reparent status pp =>
      rw [hq] at hat
      refine ⟨⟨holding_of_other I e hne hat.1.1, hat.1.2⟩, fun i hi => ?_⟩
      rw [parent_of_locked I e hne hat.1.1]
      exact hat.2 i hi
    | wakeInit status pp j =>
      rw [hq] at hat
      refine ⟨⟨holding_of_other I e hne hat.1.1, hat.1.2⟩, fun i hi => ?_⟩
      rw [parent_of_locked I e hne hat.1.1]
      exact hat.2 i hi
    | wakeParent status chan j =>
      rw [hq] at hat
      obtain ⟨hexit, hless, r, hr, hchan, hwoken⟩ := hat
      refine ⟨⟨holding_of_other I e hne hexit.1, hexit.2⟩,
        childless_of_locked I e hne hexit.1 q hless, r, ?_, hchan, fun hj h => ?_⟩
      · rw [parent_of_locked I e hne hexit.1, hr]
      · exact hwoken hj (waitsAsleep_of_locked I e hne hexit.1 r h)
    | zombify status =>
      rw [hq] at hat
      obtain ⟨hexit, hless, r, hr, hwoken⟩ := hat
      refine ⟨⟨holding_of_other I e hne hexit.1, hexit.2⟩,
        childless_of_locked I e hne hexit.1 q hless, r, ?_, fun h => ?_⟩
      · rw [parent_of_locked I e hne hexit.1, hr]
      · exact hwoken (waitsAsleep_of_locked I e hne hexit.1 r h)
    | waitScan pp havekids =>
      rw [hq] at hat
      exact ⟨holding_of_other I e hne hat.1,
        fun i hi h => hat.2 i hi (zombieChild_of_locked I e hne hat.1 q i h)⟩
    | waitAsleep =>
      rw [hq] at hat
      exact fun hs => waitAsleep_of_other I e hne ⟨by rw [hsame, hq], hs⟩ hat
  · rw [huser]
    trivial

end Others

/-! ## What a process establishes -/

theorem ne_of_running {i : ℕ} (hrun : (M.table p).state = .running)
    (h : (M.table i).state ≠ .running) : i ≠ p := fun hip => h (hip ▸ hrun)

section Own

variable (I : Kin M) {i : ℕ}
include I

/-- The last round of `reparent` has seen every slot. -/
theorem childless_of_scan (hi : nproc ≤ i) (h : ∀ k < i, (M.table k).parent ≠ some p) :
    M.Childless p := by
  intro k
  by_cases hk : k < i
  · exact h k hk
  · rw [I.free k (I.outside k (by omega))]
    simp

/-- Nor is anybody outside of the table a child. -/
theorem no_zombieChild_of_scan (hi : nproc ≤ i) (h : ∀ k < i, ¬ M.ZombieChild p k) (k : ℕ) :
    ¬ M.ZombieChild p k := by
  by_cases hk : k < i
  · exact h k hk
  · intro hz
    have hout := I.outside k (by omega)
    simp [hz.2] at hout

theorem fill_at {ticks : ℕ} {outcome : ForkOutcome} (hrun : (M.table p).state = .running)
    (hfree : (M.table i).state = .unused) :
    (M.fill p i ticks outcome).At p ((M.fill p i ticks outcome).place p) := by
  have hne : i ≠ p := ne_of_running hrun (by simp [hfree])
  cases outcome with
  | noMemory => simp [fill, At]
  | copyFails => simp [fill, At]
  | done =>
    have hparent := I.free i hfree
    simp [fill, At, Active, Table.set_of_ne _ _ hne.symm, hrun, inheritTask, allocTask, foundTask,
      hparent]

theorem reparentRound_at {status : ℤ} (hat : M.At p (.reparent status i)) :
    (M.reparentRound p i status).At p ((M.reparentRound p i status).place p) := by
  obtain ⟨⟨⟨hlock, hrun⟩, hinit⟩, hdone⟩ := hat
  unfold reparentRound
  split_ifs with hi hchild
  · rw [goto_place]
    refine ⟨⟨⟨hlock, ?_⟩, hinit⟩, fun k hk => ?_⟩
    · simp only [goto_table, put_table, Table.set_apply]
      split_ifs with hp
      · exact hp ▸ hrun
      · exact hrun
    · simp only [goto_table, put_table, Table.set_apply]
      split_ifs with hki
      · simpa using hinit.symm
      · exact hdone k (by omega)
  · rw [goto_place]
    refine ⟨⟨⟨hlock, hrun⟩, hinit⟩, fun k hk => ?_⟩
    obtain hlt | rfl := Nat.lt_succ_iff_lt_or_eq.mp hk
    · exact hdone k hlt
    · exact hchild
  · rw [goto_place]
    have hless : M.Childless p := childless_of_scan I (by omega) hdone
    refine ⟨⟨⟨hlock, hrun⟩, hinit⟩, hless, ?_⟩
    have hparent := I.family p (by simp [hrun]) (by simp [hrun]) hinit
    obtain ⟨r, hr⟩ := Option.ne_none_iff_exists'.mp hparent
    exact ⟨r, hr, by rw [parentChan, hr], by simp⟩

theorem waitRound_at {havekids ok : Bool} (hat : M.At p (.waitScan i havekids)) :
    (M.waitRound p i havekids ok).At p ((M.waitRound p i havekids ok).place p) := by
  obtain ⟨⟨hlock, hrun⟩, hdone⟩ := hat
  unfold waitRound
  split_ifs with hi hchild hzombie hok hstop
  · simp [leaveWait, At]
  · simp [leaveWait, At]
  · rw [goto_place]
    refine ⟨⟨hlock, hrun⟩, fun k hk hz => ?_⟩
    obtain hlt | rfl := Nat.lt_succ_iff_lt_or_eq.mp hk
    · exact hdone k hlt hz
    · exact hzombie hz.2
  · rw [goto_place]
    refine ⟨⟨hlock, hrun⟩, fun k hk hz => ?_⟩
    obtain hlt | rfl := Nat.lt_succ_iff_lt_or_eq.mp hk
    · exact hdone k hlt hz
    · exact hchild hz.1
  · simp [leaveWait, At]
  · rw [goto_place]
    refine fun _ => ⟨by simp [sleepTask], Or.inl fun k hz => ?_⟩
    unfold ZombieChild at hz
    simp only [goto_table, release_table, put_table, Table.set_apply] at hz
    split_ifs at hz with hkp
    · simp [sleepTask] at hz
    · exact no_zombieChild_of_scan I (by omega) hdone k hz

end Own

section Wake

variable {i chan : ℕ}

theorem wakeRound_self : (M.wakeRound p i chan).table p = M.table p := by
  unfold wakeRound
  split_ifs with hi
  · rfl
  · rw [put_table, Table.set_of_ne _ _ (Ne.symm hi)]

theorem wakeRound_parent (k : ℕ) :
    ((M.wakeRound p i chan).table k).parent = (M.table k).parent := by
  unfold wakeRound
  split_ifs with hi
  · rfl
  · rw [put_table, Table.set_apply, wakeupTask]
    split_ifs with hk hs
    · rw [hk]
    · rw [hk]
    · rfl

theorem wakeRound_sleeping {k : ℕ} (h : ((M.wakeRound p i chan).table k).state = .sleeping) :
    (M.wakeRound p i chan).table k = M.table k := by
  unfold wakeRound at h ⊢
  split_ifs with hi
  · rfl
  · rw [if_neg hi] at h
    rw [put_table, Table.set_apply, wakeupTask] at h ⊢
    split_ifs with hk hs
    · simp [hk, hs] at h
    · rw [hk]
    · rfl

theorem wakeRound_waitsAsleep {c : Place} {k : ℕ} (hk : k ≠ p)
    (h : ((M.wakeRound p i chan).goto p c).WaitsAsleep k) : M.WaitsAsleep k := by
  obtain ⟨hplace, hstate⟩ := h
  rw [goto_place_of_ne _ _ _ hk, wakeRound_place] at hplace
  rw [goto_table, wakeRound_sleeping hstate] at hstate
  exact ⟨hplace, hstate⟩

theorem exiting_wakeRound {c : Place} (h : M.Exiting p) :
    ((M.wakeRound p i chan).goto p c).Exiting p := by
  refine ⟨⟨?_, ?_⟩, h.2⟩
  · rw [goto_waitLock, wakeRound_waitLock, h.1.1]
  · rw [goto_table, wakeRound_self, h.1.2]

theorem wakeParent_at (I : Kin M) {status : ℤ} (hat : M.At p (.wakeParent status chan i)) :
    ((M.wakeRound p i chan).goto p (.wakeParent status chan (i + 1))).At p
      (.wakeParent status chan (i + 1)) := by
  obtain ⟨hexit, hless, r, hr, hchan, hwoken⟩ := hat
  have hrp : r ≠ p := by
    rintro rfl
    exact hless r hr
  refine ⟨exiting_wakeRound hexit, fun k => ?_, r, ?_, hchan, fun hri h => ?_⟩
  · rw [goto_table, wakeRound_parent]
    exact hless k
  · rw [goto_table, wakeRound_parent, hr]
  · have hasleep := wakeRound_waitsAsleep hrp h
    obtain hlt | rfl := Nat.lt_succ_iff_lt_or_eq.mp hri
    · exact hwoken hlt hasleep
    · have hat' := I.stands r
      rw [hasleep.1] at hat'
      have hrchan := (hat' hasleep.2).1
      have hsame := wakeRound_sleeping h.2
      refine wakeRound_awake hrp ⟨h.2, ?_⟩
      rw [hsame, hrchan, hchan]

end Wake

/-- The running process establishes what holds at its next place. -/
theorem run_at (I : Kin M) {c : Choice} (hrun : (M.table p).state = .running)
    (h : M.run p (M.place p) c = some M') : M'.At p (M'.place p) := by
  have hat := I.stands p
  generalize M.place p = a at h hat
  unfold run at h
  split at h
  · cases h
    rw [goto_place]
    exact Or.inl hrun
  · split_ifs at h with hfree
    cases h
    rw [goto_place]
    exact ⟨⟨⟨rfl, by simp [closeFiles, hrun]⟩, hfree.1⟩, by simp⟩
  · split_ifs at h with hfree
    cases h
    rw [goto_place]
    exact ⟨⟨rfl, hrun⟩, by simp⟩
  · split_ifs at h with hother
    cases h
    rw [goto_place]
    trivial
  · split_ifs at h with hi hunused
    · cases h
      exact fill_at I hrun hunused
    · cases h
      rw [goto_place]
      exact Or.inl hrun
    · cases h
      rw [goto_place]
      trivial
  · split_ifs at h with hfree
    cases h
    rename_i np pid _ _
    have hne : np ≠ p := ne_of_running hrun (by simp [hat.2.1])
    rw [goto_place]
    refine ⟨Or.inl ?_, ?_, ?_⟩
    · rw [goto_table, put_table, Table.set_of_ne _ _ hne.symm, hrun]
    · rw [goto_table, put_table, Table.set_self, hat.2.1]
    · rw [goto_table, put_table, Table.set_self]
  · cases h
    rw [goto_place]
    trivial
  · cases h
    exact reparentRound_at I hat
  · split_ifs at h with hj
    · cases h
      rw [goto_place]
      refine ⟨exiting_wakeRound hat.1, fun k hk => ?_⟩
      rw [goto_table, wakeRound_parent]
      exact hat.2 k hk
    · cases h
      rw [goto_place]
      exact ⟨hat.1, fun k hk => hat.2 k (by omega)⟩
  · split_ifs at h with hj
    · cases h
      rw [goto_place]
      exact wakeParent_at I hat
    · cases h
      rw [goto_place]
      obtain ⟨hexit, hless, r, hr, -, hwoken⟩ := hat
      refine ⟨hexit, hless, r, hr, fun hr' => ?_⟩
      have hrp : r ≠ p := by
        rintro rfl
        exact hless r hr
      have hlt : r < nproc := by
        by_contra hge
        have hlive := I.alive p r hr
        simp [I.outside r (by omega), ProcState.live] at hlive
      rw [WaitsAsleep, goto_place_of_ne _ _ _ hrp] at hr'
      exact hwoken (by omega) hr'
  · cases h
    rw [goto_place]
    trivial
  · cases h
    exact waitRound_at I hat
  · split_ifs at h with hfree
    cases h
    rw [goto_place]
    exact ⟨⟨rfl, hrun⟩, by simp⟩
  · exact absurd h (by simp)

/-- The assertions read three fields of the table, the places and the lock. -/
theorem at_congr {c : Place} (hstate : ∀ i, (M'.table i).state = (M.table i).state)
    (hparent : ∀ i, (M'.table i).parent = (M.table i).parent)
    (hchan : ∀ i, (M'.table i).chan = (M.table i).chan) (hplace : M'.place = M.place)
    (hlock : M'.waitLock = M.waitLock) (h : M.At q c) : M'.At q c := by
  have heq : M'.At q c = M.At q c := by
    cases c <;> simp only [At, Active, Exiting, Holding, Childless, ZombieChild, WaitsAsleep,
      WakesInit, hstate, hparent, hchan, hplace, hlock]
  exact heq ▸ h

/-- What holds at a place outside of the lock stays true when the process is preempted,
switched to or woken. -/
theorem put_at_of_free (I : Kin M) {t : Task} (hfree : (M.place p).holds = false)
    (ht : t.state = .running ∨ t.state = .runnable) : (M.put p t).At p (M.place p) := by
  have hactive : (M.put p t).Active p := by
    unfold Active
    rw [put_table, Table.set_self]
    exact ht
  have hfork {np : ℕ} (h : (M.place p).forking = some np) (hp : M.Active p) :
      (M.put p t).table np = M.table np := by
    have hne : np ≠ p := by
      rintro rfl
      simp [Active, I.forking_used h] at hp
    rw [put_table, Table.set_of_ne _ _ hne]
  have hat := I.stands p
  cases hp : M.place p with
  | user => trivial
  | asleep => trivial
  | dead => trivial
  | forkScan => exact hactive
  | waitRelock => exact hactive
  | forkLink np pid =>
    rw [hp] at hat
    refine ⟨hactive, ?_⟩
    rw [hfork (by rw [hp]; rfl) hat.1]
    exact hat.2
  | forkReady np pid =>
    rw [hp] at hat
    refine ⟨hactive, ?_⟩
    rw [hfork (by rw [hp]; rfl) hat.1]
    exact hat.2
  | reparent => simp [hp, Place.holds] at hfree
  | wakeInit => simp [hp, Place.holds] at hfree
  | wakeParent => simp [hp, Place.holds] at hfree
  | zombify => simp [hp, Place.holds] at hfree
  | waitScan => simp [hp, Place.holds] at hfree
  | waitAsleep =>
    intro hs
    rw [put_table, Table.set_self] at hs
    simp [hs] at ht

theorem put_at_of_same (I : Kin M) {t : Task} (hstate : t.state = (M.table p).state)
    (hparent : t.parent = (M.table p).parent) (hchan : t.chan = (M.table p).chan) :
    (M.put p t).At p (M.place p) := by
  have hput (k : ℕ) : (M.put p t).table k = if k = p then t else M.table k := by
    rw [put_table, Table.set_apply]
  refine at_congr (M := M) (fun k => ?_) (fun k => ?_) (fun k => ?_) rfl rfl (I.stands p)
  · rw [hput]
    split_ifs with hk
    · rw [hstate, hk]
    · rfl
  · rw [hput]
    split_ifs with hk
    · rw [hparent, hk]
    · rfl
  · rw [hput]
    split_ifs with hk
    · rw [hchan, hk]
    · rfl

/-- Nobody who has the lock sleeps. -/
theorem not_holds_of_sleeping (I : Kin M) (h : (M.table p).state ≠ .running) :
    (M.place p).holds = false := by
  by_contra hholds
  exact h (I.holding (by simpa using hholds)).2

theorem wakeup_at (I : Kin M) {chan : ℕ} :
    (M.put p (wakeupTask (M.table p) chan)).At p (M.place p) := by
  by_cases hs : (M.table p).state = .sleeping ∧ (M.table p).chan = chan
  · rw [wakeupTask, if_pos hs]
    exact put_at_of_free I (not_holds_of_sleeping I (by simp [hs.1])) (Or.inr rfl)
  · rw [wakeupTask, if_neg hs]
    exact put_at_of_same I rfl rfl rfl

theorem kill_at (I : Kin M) : (M.put p (killTask (M.table p))).At p (M.place p) := by
  by_cases hs : (M.table p).state = .sleeping
  · refine put_at_of_free I (not_holds_of_sleeping I (by simp [hs])) (Or.inr ?_)
    rw [killTask, if_pos hs]
  · refine put_at_of_same I ?_ rfl rfl
    rw [killTask, if_neg hs]

theorem switchTo_at (I : Kin M) (hready : (M.table p).state = .runnable) :
    (M.switchTo p).At p ((M.switchTo p).place p) := by
  unfold switchTo
  split
  · rw [goto_place]
    trivial
  · rw [goto_place]
    refine Or.inl ?_
    rw [goto_table, put_table, Table.set_self]
    rfl
  · exact put_at_of_free I (not_holds_of_sleeping I (by simp [hready])) (Or.inl rfl)

theorem at_of_actor (I : Kin M) {a : Move} (h : M.step a = some M') :
    M'.At a.actor (M'.place a.actor) := by
  cases a with
  | run p c =>
    dsimp only [step] at h
    split_ifs at h with hrun
    exact run_at I hrun h
  | dispatch p =>
    dsimp only [step] at h
    split_ifs at h with hready
    cases h
    exact switchTo_at I hready
  | yield p =>
    dsimp only [step] at h
    split_ifs at h with hrun
    cases h
    exact put_at_of_free I hrun.2 (Or.inr rfl)
  | wakeup i chan =>
    dsimp only [step] at h
    split_ifs at h with hi
    cases h
    exact wakeup_at I
  | kill i =>
    dsimp only [step] at h
    split_ifs at h with hi
    cases h
    exact kill_at I

/-! ## The table after a step -/

section Table

variable (I : Kin M) (e : Effect M M' p)
include I e

omit I in
/-- A process that can act still can, unless it just left `exit`. -/
theorem live_of_effect (h : (M.table q).state.live = true) :
    (M'.table q).state.live = true ∨ q = p ∧ ∃ status, M.place p = .zombify status := by
  cases e.slot q with
  | same hstate => exact Or.inl (by rw [hstate, h])
  | own _ _ hafter => exact Or.inl hafter
  | zombified status hactor hplace => exact Or.inr ⟨hactor, status, hplace⟩
  | filled _ hbefore => simp [hbefore, ProcState.live] at h
  | linked _ _ _ _ hstate => exact Or.inl (by rw [hstate, h])
  | readied _ _ hafter => exact Or.inl (by rw [hafter]; rfl)
  | adopted _ _ _ hstate => exact Or.inl (by rw [hstate, h])
  | woken _ hafter => exact Or.inl (by rw [hafter]; rfl)
  | freed _ _ hbefore => simp [hbefore, ProcState.live] at h

theorem outside_of_effect (i : ℕ) (hi : nproc ≤ i) : (M'.table i).state = .unused := by
  have hout := I.outside i hi
  cases e.slot i with
  | same hstate => rw [hstate, hout]
  | own _ hbefore => simp [hout, ProcState.live] at hbefore
  | zombified _ hactor hplace =>
    have hrun := (I.holding (q := p) (by rw [hplace]; rfl)).2
    rw [← hactor, hout] at hrun
    simp at hrun
  | filled hlt => omega
  | linked _ _ _ _ hstate => rw [hstate, hout]
  | readied _ hplace =>
    have hused := I.forking_used (q := p) (by rw [hplace]; rfl)
    simp [hout] at hused
  | adopted _ _ _ hstate => rw [hstate, hout]
  | woken hbefore => simp [hout] at hbefore
  | freed _ _ hbefore => simp [hout] at hbefore

theorem free_of_effect (i : ℕ) (h : (M'.table i).state = .unused) :
    (M'.table i).parent = none := by
  cases e.slot i with
  | same hstate hparent => rw [hparent, I.free i (by rw [← hstate, h])]
  | own _ _ hafter => simp [h, ProcState.live] at hafter
  | zombified _ _ _ hafter => simp [h] at hafter
  | filled _ hbefore _ hparent =>
    obtain hsame | hnone := hparent
    · rw [hsame, I.free i hbefore]
    · exact hnone
  | linked _ hplace _ _ hstate =>
    have hused := I.forking_used (q := p) (by rw [hplace]; rfl)
    rw [← hstate, h] at hused
    simp at hused
  | readied _ _ hafter => simp [h] at hafter
  | adopted _ _ _ hstate hbefore =>
    rw [I.free i (by rw [← hstate, h])] at hbefore
    simp at hbefore
  | woken _ hafter => simp [h] at hafter
  | freed _ _ _ _ _ hparent' => exact hparent'

omit I in
/-- A parent after the step is the one before, the process that forks, or `initproc`. -/
theorem parent_of_effect (i q : ℕ) (h : (M'.table i).parent = some q) :
    (M.table i).parent = some q ∨ (∃ pid, M.place p = .forkLink i pid) ∧ q = p ∧
      (M.table p).state = .running ∨ (∃ status, M.place p = .reparent status i) ∧ q = initproc := by
  cases e.slot i with
  | same _ hparent => exact Or.inl (by rw [← hparent, h])
  | own _ _ _ hparent => exact Or.inl (by rw [← hparent, h])
  | zombified _ _ _ _ hparent => exact Or.inl (by rw [← hparent, h])
  | filled _ _ _ hparent =>
    obtain hsame | hnone := hparent
    · exact Or.inl (by rw [← hsame, h])
    · simp [h] at hnone
  | linked pid hplace _ hactor _ hparent =>
    rw [h] at hparent
    injection hparent with hqp
    exact Or.inr (Or.inl ⟨⟨pid, hplace⟩, hqp, hactor⟩)
  | readied _ _ _ hparent => exact Or.inl (by rw [← hparent, h])
  | adopted status hplace _ _ _ hafter =>
    rw [h] at hafter
    injection hafter with hqi
    exact Or.inr (Or.inr ⟨⟨status, hplace⟩, hqi⟩)
  | woken _ _ hparent => exact Or.inl (by rw [← hparent, h])
  | freed _ _ _ _ _ hparent' => simp [h] at hparent'

theorem alive_of_effect (i q : ℕ) (h : (M'.table i).parent = some q) :
    (M'.table q).state.live = true := by
  obtain hold | ⟨⟨pid, hplace⟩, rfl, hrun⟩ | ⟨⟨status, hplace⟩, rfl⟩ :=
    parent_of_effect e i q h
  · obtain hlive | ⟨rfl, status, hplace⟩ := live_of_effect e (I.alive i q hold)
    · exact hlive
    · exact absurd hold ((hplace ▸ I.stands q).2.1 i)
  · obtain hlive | ⟨-, status, hplace'⟩ := live_of_effect e (q := q) (by rw [hrun]; rfl)
    · exact hlive
    · simp [hplace] at hplace'
  · obtain hlive | ⟨-, status', hplace'⟩ := live_of_effect e I.init
    · exact hlive
    · simp [hplace] at hplace'

theorem family_of_effect (i : ℕ) (hunused : (M'.table i).state ≠ .unused)
    (hused : (M'.table i).state ≠ .used) (hi : i ≠ initproc) : (M'.table i).parent ≠ none := by
  cases e.slot i with
  | same hstate hparent =>
    rw [hstate] at hunused hused
    rw [hparent]
    exact I.family i hunused hused hi
  | own _ hbefore _ hparent =>
    rw [hparent]
    refine I.family i (fun hs => ?_) (fun hs => ?_) hi
    · simp [hs, ProcState.live] at hbefore
    · simp [hs, ProcState.live] at hbefore
  | zombified _ hactor hplace _ hparent =>
    have hrun := (I.holding (q := p) (by rw [hplace]; rfl)).2
    rw [hparent]
    rw [← hactor] at hrun
    exact I.family i (by simp [hrun]) (by simp [hrun]) hi
  | filled _ _ hafter => exact absurd hafter (by simp [hunused, hused])
  | linked _ _ _ _ _ hparent => simp [hparent]
  | readied _ hplace _ hparent =>
    have hlinked := (hplace ▸ I.stands p).2.2
    simp [hparent, hlinked]
  | adopted _ _ _ _ _ hafter => simp [hafter]
  | woken hbefore _ hparent =>
    rw [hparent]
    exact I.family i (by simp [hbefore]) (by simp [hbefore]) hi
  | freed _ _ _ hafter => exact absurd hafter hunused

theorem init_of_effect : (M'.table initproc).state.live = true := by
  obtain hlive | ⟨hp, status, hplace⟩ := live_of_effect e I.init
  · exact hlive
  · exact absurd hp.symm (hplace ▸ I.stands p).1.2

theorem forks_of_effect (r q np : ℕ) (hr : (M'.place r).forking = some np)
    (hq : (M'.place q).forking = some np) : r = q := by
  -- Whoever else is filling a slot did so before, and a new slot was unused.
  have hother {s : ℕ} (hs : s ≠ p) (h : (M'.place s).forking = some np) :
      (M.place s).forking = some np := by
    obtain hsame | ⟨-, huser⟩ := e.place s hs
    · rw [← hsame, h]
    · simp [huser, Place.forking] at h
  have hmixed {s : ℕ} (hs : s ≠ p) (h : (M'.place s).forking = some np)
      (hp : (M'.place p).forking = some np) : s = p := by
    obtain hold | hfree := e.forks np hp
    · exact I.forks s p np (hother hs h) hold
    · simp [I.forking_used (hother hs h)] at hfree
  by_cases hrp : r = p
  · by_cases hqp : q = p
    · rw [hrp, hqp]
    · rw [hrp]
      exact (hmixed hqp hq (hrp ▸ hr)).symm
  · by_cases hqp : q = p
    · rw [hqp]
      exact hmixed hrp hr (hqp ▸ hq)
    · exact I.forks r q np (hother hrp hr) (hother hqp hq)

end Table

theorem Kin.step (I : Kin M) {a : Move} (h : M.step a = some M') : Kin M' := by
  have e := step_effect h
  refine ⟨fun q => ?_, forks_of_effect I e, outside_of_effect I e, free_of_effect I e,
    alive_of_effect I e, family_of_effect I e, init_of_effect I e⟩
  by_cases hq : q = a.actor
  · rw [hq]
    exact at_of_actor I h
  · exact at_of_other I e hq

theorem Kin.boot : Kin Family.boot := by
  have hslot (i : ℕ) : Family.boot.table i =
      if i = initproc then readyTask (allocTask {} 1 0) else {} :=
    Table.set_apply (fun _ => {}) initproc (readyTask (allocTask {} 1 0)) i
  have hparent (i : ℕ) : (Family.boot.table i).parent = none := by
    rw [hslot]
    split_ifs <;> rfl
  refine ⟨fun q => trivial, ?_, fun i hi => ?_, fun i _ => hparent i, ?_, fun i hunused => ?_,
    rfl⟩
  · intro p q np h
    simp [Family.boot, Place.forking] at h
  · rw [hslot, if_neg (by unfold initproc nproc at *; omega)]
  · intro i q h
    simp [hparent] at h
  · intro _ hi
    rw [hslot, if_neg hi] at hunused
    simp at hunused

theorem Kin.of_reach (h : Reach Family.step Family.boot M) : Kin M :=
  ReachOf.invariant Kin (fun _ _ _ _ I hs => I.step hs) Kin.boot h

/-! ## The results -/

/-- A step about a process in the scan of its `wait` is the next round, or a `wakeup` or `kill`
that does not move it. -/
theorem step_in_scan {a : Move} (h : M.step a = some M') {z : ℕ} {havekids : Bool}
    (hrun : (M.table a.actor).state = .running)
    (hplace : M.place a.actor = .waitScan z havekids) :
    (∃ ok ticks, a = .run a.actor (.next ok ticks) ∧ M' = M.waitRound a.actor z havekids ok) ∨
      M'.place = M.place ∧ ((M.table z).state = .zombie → (M'.table z).state = .zombie) := by
  cases a with
  | run q c =>
    dsimp only [Move.actor] at hplace hrun ⊢
    dsimp only [step] at h
    rw [if_pos hrun, hplace] at h
    cases c with
    | fork | exit | wait | sleep | scan => simp [run] at h
    | next ok ticks => exact .inl ⟨ok, ticks, rfl, (Option.some.inj h).symm⟩
  | dispatch q =>
    dsimp only [Move.actor] at hrun
    simp [step, hrun] at h
  | yield q =>
    dsimp only [Move.actor] at hplace
    simp [step, hplace, Place.holds] at h
  | wakeup i chan =>
    dsimp only [Move.actor] at hrun
    dsimp only [step] at h
    split_ifs at h
    cases h
    refine .inr ⟨put_place _ _ _, fun hz => ?_⟩
    rw [put_table, wakeupTask, if_neg (by simp [hrun]), Table.set_apply]
    split_ifs with hzi
    · exact hzi ▸ hz
    · exact hz
  | kill i =>
    dsimp only [Move.actor] at hrun
    dsimp only [step] at h
    split_ifs at h
    cases h
    refine .inr ⟨put_place _ _ _, fun hz => ?_⟩
    have hzi : z ≠ i := by
      rintro rfl
      rw [hrun] at hz
      cases hz
    rw [put_table, Table.set_apply, if_neg hzi]
    exact hz

/-- A zombie leaves its state in no other way than in a round of its parent's `wait`,
which returns its pid. -/
theorem freed_by_wait (I : Kin M) {a : Move} (h : M.step a = some M') {z : ℕ}
    (hz : (M.table z).state = .zombie) (hz' : (M'.table z).state ≠ .zombie) :
    ∃ q havekids ticks, a = .run q (.next true ticks) ∧ (M.table z).parent = some q ∧
      M.place q = .waitScan z havekids ∧ M'.place q = .user (M.table z).pid ∧
      M'.table = M.table.set z (freeTask (M.table z)) := by
  obtain ⟨havekids, hplace, hparent⟩ :
      ∃ havekids, M.place a.actor = .waitScan z havekids ∧
        (M.table z).parent = some a.actor := by
    cases (step_effect h).slot z with
    | same hstate => exact absurd (hstate.trans hz) hz'
    | own _ hbefore => simp [hz, ProcState.live] at hbefore
    | zombified _ _ _ hafter => exact absurd hafter hz'
    | filled _ hbefore => simp [hz] at hbefore
    | linked _ _ _ _ hstate => exact absurd (hstate.trans hz) hz'
    | readied _ hplace =>
      have hused := I.forking_used (q := a.actor) (by rw [hplace]; rfl)
      simp [hz] at hused
    | adopted _ _ _ hstate => exact absurd (hstate.trans hz) hz'
    | woken hbefore => simp [hz] at hbefore
    | freed havekids hplace _ _ hparent => exact ⟨havekids, hplace, hparent⟩
  have hrun := (I.holding (q := a.actor) (by rw [hplace]; rfl)).2
  have hlt : z < nproc := by
    by_contra hge
    simp [I.outside z (by omega)] at hz
  rcases step_in_scan h hrun hplace with ⟨ok, ticks, ha, rfl⟩ | ⟨-, hzombie⟩
  · rw [waitRound, if_pos hlt, if_pos hparent, if_pos hz] at hz' ⊢
    cases ok with
    | true => exact ⟨a.actor, havekids, ticks, ha, hparent, hplace, goto_place _ _ _, rfl⟩
    | false => exact absurd hz hz'
  · exact absurd (hzombie hz) hz'

/-- A `wait` that comes to its end has freed the child whose pid it returns, or it returns -1 and
has freed none. -/
theorem left_wait (I : Kin M) {a : Move} (h : M.step a = some M') {q z : ℕ} {havekids : Bool}
    {a0 : ℤ} (hplace : M.place q = .waitScan z havekids) (hplace' : M'.place q = .user a0) :
    a0 = -1 ∧ M'.table = M.table ∨
      a0 = (M.table z).pid ∧ (M.table z).parent = some q ∧ (M.table z).state = .zombie ∧
        M'.table = M.table.set z (freeTask (M.table z)) := by
  have hrun := (I.holding (q := q) (by rw [hplace]; rfl)).2
  have hactor : a.actor = q := by
    by_contra hne
    rcases (step_effect h).place q (Ne.symm hne) with hsame | ⟨hunused, -⟩
    · rw [hsame, hplace] at hplace'
      cases hplace'
    · rw [hunused] at hrun
      cases hrun
  subst hactor
  rcases step_in_scan h hrun hplace with ⟨ok, ticks, -, rfl⟩ | ⟨hsame, -⟩
  · unfold waitRound at hplace' ⊢
    split_ifs at hplace' ⊢ with hlt hparent hzombie hok hgive
    · rw [leaveWait, goto_place] at hplace'
      exact .inr ⟨(Place.user.inj hplace').symm, hparent, hzombie, rfl⟩
    · rw [leaveWait, goto_place] at hplace'
      exact .inl ⟨(Place.user.inj hplace').symm, rfl⟩
    · rw [goto_place] at hplace'
      cases hplace'
    · rw [goto_place] at hplace'
      cases hplace'
    · rw [leaveWait, goto_place] at hplace'
      exact .inl ⟨(Place.user.inj hplace').symm, rfl⟩
    · rw [goto_place] at hplace'
      cases hplace'
  · rw [hsame, hplace] at hplace'
    cases hplace'

/-- In every interleaving: while nobody has `wait_lock`, each process but the first has a
parent that is neither unused nor a zombie, and nobody sleeps in `wait` with a zombie
child; a zombie is freed in its parent's `wait`, which returns its pid and frees nothing
else; and a `wait` that returns a pid has freed that child. -/
theorem family_invariant (h : Reach Family.step Family.boot M) :
    (M.waitLock = none →
      (∀ i, i ≠ initproc → (M.table i).state ∈
          [ProcState.runnable, .running, .sleeping, .zombie] →
        ∃ q, (M.table i).parent = some q ∧ (M.table q).state ≠ .unused ∧
          (M.table q).state ≠ .zombie) ∧
      ∀ q, M.WaitsAsleep q → ∀ i, ¬ M.ZombieChild q i) ∧
    (∀ a M' z, M.step a = some M' → (M.table z).state = .zombie →
      (M'.table z).state ≠ .zombie →
      ∃ q havekids ticks, a = .run q (.next true ticks) ∧ (M.table z).parent = some q ∧
        M.place q = .waitScan z havekids ∧ M'.place q = .user (M.table z).pid ∧
        M'.table = M.table.set z (freeTask (M.table z))) ∧
    ∀ a M' q z havekids a0, M.step a = some M' → M.place q = .waitScan z havekids →
      M'.place q = .user a0 → a0 = -1 ∧ M'.table = M.table ∨
        a0 = (M.table z).pid ∧ (M.table z).parent = some q ∧ (M.table z).state = .zombie ∧
          M'.table = M.table.set z (freeTask (M.table z)) := by
  have I : Kin M := Kin.of_reach h
  refine ⟨fun hlock => ⟨fun i hi hstate => ?_, fun q hq i => ?_⟩,
    fun a M' z hs hz hz' => freed_by_wait I hs hz hz',
    fun a M' q z havekids a0 hs hplace hplace' => left_wait I hs hplace hplace'⟩
  · have hparent : (M.table i).parent ≠ none := by
      refine I.family i (fun hs => ?_) (fun hs => ?_) hi
      · simp [hs] at hstate
      · simp [hs] at hstate
    obtain ⟨q, hq⟩ := Option.ne_none_iff_exists'.mp hparent
    have hlive := I.alive i q hq
    refine ⟨q, hq, fun hs => ?_, fun hs => ?_⟩
    · simp [hs, ProcState.live] at hlive
    · simp [hs, ProcState.live] at hlive
  · have hat := I.stands q
    rw [hq.1] at hat
    obtain ⟨-, hno | ⟨-, r, status, pp, hr⟩⟩ := hat hq.2
    · exact hno i
    · have hheld := (I.holding (q := r) (by rw [hr]; rfl)).1
      simp [hlock] at hheld

/-- A child of the first process up to the section of `exit` that makes it a zombie. -/
def zombieRun : List Move :=
  [.dispatch 0, .run 0 .fork, .run 0 (.scan .done 0), .run 0 (.scan .done 0),
    .run 0 (.next true 0), .run 0 (.next true 0), .dispatch 1, .run 1 (.exit 3)] ++
  List.replicate 131 (.run 1 (.next true 9))

/-- The first process waits, and finds the zombie in the second slot. -/
def waitRun : List Move := [.run 0 .wait, .run 0 (.next true 0)]

theorem family_invariant_of_zombie : ∃ M N N', Reach Family.step Family.boot M ∧
    (M.table 1).state = .zombie ∧ (∃ q, (M.table 1).parent = some q ∧
      (M.table q).state ≠ .unused ∧ (M.table q).state ≠ .zombie) ∧
    Reach Family.step M N ∧ N.step (.run 0 (.next true 0)) = some N' ∧
    N'.place 0 = .user 2 ∧ (N.table 1).pid = 2 ∧
      N'.table = N.table.set 1 (freeTask (N.table 1)) := by
  have hcheck : (runAll Family.step Family.boot zombieRun).any (fun M =>
      M.waitLock = none ∧ (M.table 1).state = .zombie ∧
        (runAll Family.step M waitRun).any fun N => N.place 0 = .waitScan 1 false ∧
          (N.step (.run 0 (.next true 0))).any fun N' => N'.place 0 = .user 2) = true := by
    decide +kernel
  obtain ⟨M, hM, hcheck⟩ := (Option.any_eq_true _ _).mp hcheck
  obtain ⟨hlock, hzombie, hcheck⟩ := of_decide_eq_true hcheck
  obtain ⟨N, hN, hcheck⟩ := (Option.any_eq_true _ _).mp hcheck
  obtain ⟨hplace, hcheck⟩ := of_decide_eq_true hcheck
  obtain ⟨N', hN', hcheck⟩ := (Option.any_eq_true _ _).mp hcheck
  have hplace' := of_decide_eq_true hcheck
  have hreach := reach_of_runAll hM
  have hreach' := reach_of_runAll hN
  refine ⟨M, N, N', hreach, hzombie,
    ((family_invariant hreach).1 hlock).1 1 (by decide) (by simp [hzombie]), hreach', hN', hplace',
    ?_⟩
  rcases (family_invariant (hreach.trans hreach')).2.2 _ N' 0 1 false 2 hN' hplace hplace' with
    ⟨hminus, -⟩ | ⟨hpid, -, -, htable⟩
  · exact absurd hminus (by decide)
  · exact ⟨hpid.symm, htable⟩

end Family

end XV6AndConcurrency.Scheduling
