import XV6AndConcurrency.Synchronization.LockOwners

/-!
# Interrupts around the outermost lock

A process may be moved to another CPU by `sched` while it holds its own lock, and the flag
that its last `pop_off` restores travels with it: `sched` keeps `intena` in a local variable
across `swtch`.
-/

namespace XV6AndConcurrency.Synchronization.Spinlocks

open Foundations

variable {ι κ π : Type*} {plock : π → κ} {s s' : Machine ι κ π} {c : ι} {k k' : Core κ π}
  {act : Action κ π} {a : ι × Action κ π}

/-! ## Runs -/

theorem act_eq_next [DecidableEq ι] [DecidableEq κ] [DecidableEq π]
    (hpc : (s.core c).pc ≠ .code) (hstep : step plock s (c, act) = some s') :
    act = .next := by
  unfold step at hstep
  dsimp only at hstep
  split at hstep <;> first | rfl | exact absurd ‹_› hpc | cases hstep

theorem Inv.step [DecidableEq ι] [DecidableEq κ] [DecidableEq π] (hinv : Inv s)
    (hparked : Parked s) (hok : Disciplined plock s a)
    (hstep : Spinlocks.step plock s a = some s') : Inv s' := by
  obtain ⟨c, act⟩ := a
  by_cases hpc : (s.core c).pc = .code
  · exact step_code hinv hpc hok hstep
  · obtain rfl := act_eq_next hpc hstep
    exact step_next hinv hparked hstep

theorem Boot.inv (hboot : Boot s) : Inv s := by
  refine ⟨fun lk c c' h => ?_, fun lk => ?_, fun lk c h => ?_, fun lk c h => ?_, fun lk c h => ?_,
    fun c => ⟨?_, fun h => ?_, ?_⟩⟩
  · simp [hboot.held] at h
  · simp [hboot.locked, hboot.held]
  · simp [hboot.cpu] at h
  · simp [hboot.held] at h
  · simp [hboot.pc] at h
  · simp [hboot.noff, hboot.held, hboot.pushes, hboot.pc, Pc.extra]
  · simp [hboot.noff] at h
  · simp [Core.Knows, hboot.pc]

/-! ## The flag of a process -/

structure FlagInv (s : Machine ι κ π) : Prop where
  runs : ∀ c p, (s.core c).thread = .proc p → s.place p = .running
  alone : ∀ c c' p, (s.core c).thread = .proc p → (s.core c').thread = .proc p → c = c'
  flag : ∀ c p, (s.core c).thread = .proc p → 0 < (s.core c).noff →
    (s.core c).intena = s.before p
  saved : ∀ p b, s.place p = .out b → b = s.before p

theorem Boot.flagInv (hboot : Boot s) : FlagInv s := by
  refine ⟨fun c p h => ?_, fun c c' p h => ?_, fun c p h => ?_, fun p b h => ?_⟩
  · simp [hboot.thread] at h
  · simp [hboot.thread] at h
  · simp [hboot.thread] at h
  · simp [hboot.place] at h

/-- A step inside of one thread that enters no `push_off`. -/
theorem FlagInv.keep [DecidableEq ι] (hf : FlagInv s)
    (hcore : s'.core = Function.update s.core c k') (hplace : s'.place = s.place)
    (hbefore : s'.before = s.before)
    (hthread : k'.thread = (s.core c).thread) (hintena : k'.intena = (s.core c).intena)
    (hnoff : k'.noff ≤ (s.core c).noff) : FlagInv s' := by
  have hsame : ∀ d, (s'.core d).thread = (s.core d).thread ∧
      (s'.core d).intena = (s.core d).intena ∧ (s'.core d).noff ≤ (s.core d).noff := by
    intro d
    rw [hcore]
    by_cases hd : d = c
    · subst hd
      rw [Function.update_self]
      exact ⟨hthread, hintena, hnoff⟩
    · rw [Function.update_of_ne hd]
      exact ⟨rfl, rfl, le_rfl⟩
  refine ⟨fun d p => ?_, fun d d' p => ?_, fun d p hd hpos => ?_, fun p b => ?_⟩
  · rw [(hsame d).1, hplace]
    exact hf.runs d p
  · rw [(hsame d).1, (hsame d').1]
    exact hf.alone d d' p
  · rw [(hsame d).1] at hd
    rw [(hsame d).2.1, hbefore]
    exact hf.flag d p hd (hpos.trans_le (hsame d).2.2)
  · rw [hplace, hbefore]
    exact hf.saved p b

/-- The outermost `push_off` records the flag. -/
theorem FlagInv.push [DecidableEq ι] [DecidableEq π] (hf : FlagInv s)
    (hthread : k'.thread = (s.core c).thread)
    (hintena : k'.intena = (pushOff (s.core c)).intena) :
    FlagInv ((s.note c).setCore c k') := by
  have hcore : ((s.note c).setCore c k').core = Function.update s.core c k' := note_setCore_core
  have hplace : ((s.note c).setCore c k').place = s.place := by
    show (s.note c).place = s.place
    unfold Machine.note
    split
    · rfl
    · split_ifs <;> rfl
  have hbefore : ∀ p, (s.core c).thread ≠ .proc p ∨ (s.core c).noff ≠ 0 →
      ((s.note c).setCore c k').before p = s.before p := by
    intro p hp
    show (s.note c).before p = s.before p
    unfold Machine.note
    split
    · rfl
    · next q hq =>
      split_ifs with hzero
      · refine Function.update_of_ne ?_ _ _
        rintro rfl
        exact hp.elim (fun h => h hq) fun h => h hzero
      · rfl
  have hsame : ∀ d, (((s.note c).setCore c k').core d).thread = (s.core d).thread := by
    intro d
    rw [hcore]
    by_cases hd : d = c
    · subst hd
      rw [Function.update_self, hthread]
    · rw [Function.update_of_ne hd]
  refine ⟨fun d p => ?_, fun d d' p => ?_, fun d p hd hpos => ?_, fun p b hb => ?_⟩
  · rw [hsame, hplace]
    exact hf.runs d p
  · rw [hsame, hsame]
    exact hf.alone d d' p
  · rw [hsame] at hd
    rw [hcore] at hpos ⊢
    by_cases hdc : d = c
    · subst hdc
      rw [Function.update_self, hintena, pushOff]
      by_cases hzero : (s.core d).noff = 0
      · show (if (s.core d).noff = 0 then _ else _) = (s.note d).before p
        rw [if_pos hzero, Machine.note, hd]
        dsimp only
        rw [if_pos hzero]
        exact (Function.update_self p _ s.before).symm
      · rw [hbefore p (.inr hzero)]
        show (if (s.core d).noff = 0 then _ else _) = _
        rw [if_neg hzero]
        exact hf.flag d p hd (Nat.pos_of_ne_zero hzero)
    · rw [Function.update_of_ne hdc] at hpos ⊢
      rw [hbefore p (.inl fun h => hdc (hf.alone d c p hd h))]
      exact hf.flag d p hd hpos
  · rw [hplace] at hb
    rw [hbefore p (.inl fun h => by rw [hf.runs c p h] at hb; cases hb)]
    exact hf.saved p b hb

/-- `swtch` away from a process. -/
theorem FlagInv.leave [DecidableEq ι] [DecidableEq π] {p : π} (hf : FlagInv s)
    (hthread : (s.core c).thread = .proc p) (hpos : 0 < (s.core c).noff) :
    FlagInv { s.setCore c { s.core c with thread := .scheduler, pc := .code } with
      place := Function.update s.place p (.out (s.core c).intena) } := by
  have hcore : ∀ d q, (Function.update s.core c
      { s.core c with thread := .scheduler, pc := .code } d).thread = .proc q →
      d ≠ c ∧ (s.core d).thread = .proc q := by
    intro d q hd
    by_cases hdc : d = c
    · subst hdc
      rw [Function.update_self] at hd
      cases hd
    · rw [Function.update_of_ne hdc] at hd
      exact ⟨hdc, hd⟩
  refine ⟨fun d q hd => ?_, fun d d' q hd hd' => ?_, fun d q hd hd' => ?_, fun q b hb => ?_⟩
  · obtain ⟨hdc, hold⟩ := hcore d q hd
    have hne : q ≠ p := fun h => hdc (hf.alone d c p (h ▸ hold) hthread)
    show Function.update s.place p _ q = _
    rw [Function.update_of_ne hne]
    exact hf.runs d q hold
  · exact hf.alone d d' q (hcore d q hd).2 (hcore d' q hd').2
  · obtain ⟨hdc, hd⟩ := hcore d q hd
    have hsame : Function.update s.core c { s.core c with thread := .scheduler, pc := .code } d =
        s.core d := Function.update_of_ne hdc _ _
    show (Function.update s.core c _ d).intena = s.before q
    change 0 < (Function.update s.core c _ d).noff at hd'
    rw [hsame] at hd' ⊢
    exact hf.flag d q hd hd'
  · change Function.update s.place p _ q = _ at hb
    by_cases hq : q = p
    · subst hq
      rw [Function.update_self] at hb
      cases hb
      exact hf.flag c q hthread hpos
    · rw [Function.update_of_ne hq] at hb
      exact hf.saved q b hb

/-- `swtch` to a process, with the flag that it will restore. -/
theorem FlagInv.enter [DecidableEq ι] [DecidableEq π] {p : π} {intena : Bool}
    {before running : π → Bool} (hf : FlagInv s) (hplace : s.place p ≠ .running)
    (hbefore : before p = intena) (hother : ∀ q ≠ p, before q = s.before q) :
    FlagInv { s.setCore c { s.core c with thread := .proc p, intena := intena } with
      place := Function.update s.place p .running
      running := running
      before := before } := by
  have hnot : ∀ d, (s.core d).thread ≠ .proc p := fun d hd => hplace (hf.runs d p hd)
  have hcore : ∀ d q, (Function.update s.core c
      { s.core c with thread := .proc p, intena := intena } d).thread = .proc q →
      d = c ∧ q = p ∨ d ≠ c ∧ q ≠ p ∧ (s.core d).thread = .proc q := by
    intro d q hd
    by_cases hdc : d = c
    · subst hdc
      rw [Function.update_self] at hd
      exact .inl ⟨rfl, (Thread.proc.inj hd).symm⟩
    · rw [Function.update_of_ne hdc] at hd
      exact .inr ⟨hdc, fun h => hnot d (h ▸ hd), hd⟩
  refine ⟨fun d q hd => ?_, fun d d' q hd hd' => ?_, fun d q hd hd' => ?_, fun q b hb => ?_⟩
  · show Function.update s.place p .running q = _
    rcases hcore d q hd with ⟨-, rfl⟩ | ⟨-, hne, hd⟩
    · exact Function.update_self _ _ _
    · rw [Function.update_of_ne hne]
      exact hf.runs d q hd
  · rcases hcore d q hd with ⟨rfl, rfl⟩ | ⟨-, hne, hd⟩
    · rcases hcore d' q hd' with ⟨rfl, -⟩ | ⟨-, hne, -⟩
      · rfl
      · exact absurd rfl hne
    · rcases hcore d' q hd' with ⟨-, rfl⟩ | ⟨-, -, hd'⟩
      · exact absurd rfl hne
      · exact hf.alone d d' q hd hd'
  · change 0 < (Function.update s.core c _ d).noff at hd'
    show (Function.update s.core c _ d).intena = before q
    rcases hcore d q hd with ⟨rfl, rfl⟩ | ⟨hdc, hne, hd⟩
    · rw [Function.update_self, hbefore]
    · rw [Function.update_of_ne hdc] at hd' ⊢
      rw [hother q hne]
      exact hf.flag d q hd hd'
  · change Function.update s.place p .running q = _ at hb
    show b = before q
    by_cases hq : q = p
    · subst hq
      rw [Function.update_self] at hb
      cases hb
    · rw [Function.update_of_ne hq] at hb
      rw [hother q hq]
      exact hf.saved q b hb

theorem popOff_noff_le : (popOff k).noff ≤ k.noff := by
  unfold popOff
  split_ifs
  · exact le_rfl
  · exact le_rfl
  · exact Nat.sub_le _ _

theorem answer_same {lk : κ} (caller : Caller) (b : Bool) :
    (answer k lk caller b).thread = k.thread ∧ (answer k lk caller b).intena = k.intena ∧
      (answer k lk caller b).noff = k.noff := by
  cases caller <;> cases b <;> exact ⟨rfl, rfl, rfl⟩

/-! ## The state of a process in `sched` -/

theorem Boot.parked (hboot : Boot s) : Parked s := fun c p h => by
  rw [hboot.thread] at h
  cases h

theorem popOff_inSched (hpc : (popOff k).pc.inSched = true) : k.pc.inSched = true := by
  unfold popOff at hpc
  split_ifs at hpc
  · cases hpc
  · cases hpc
  · exact hpc

theorem inSched_holdingCpu (caller : Caller) (lk : κ) :
    (Pc.holdingCpu caller lk).inSched = (Pc.holding caller lk).inSched := by
  cases caller <;> rfl

/-- Only `sched` goes on behind a call of `holding` by `sched`. -/
theorem answer_inSched {lk : κ} {caller : Caller} {b : Bool}
    (hpc : (answer k lk caller b).pc.inSched = true) : caller = .sched := by
  cases caller <;> cases b <;> first | rfl | cases hpc

@[simp] theorem note_running [DecidableEq π] (s : Machine ι κ π) (c : ι) :
    (s.note c).running = s.running := by
  unfold Machine.note
  split
  · rfl
  · split_ifs <;> rfl

/-- A step that changes no state, and leads into `sched` only with a changed one. -/
theorem Parked.keep [DecidableEq ι] (h : Parked s)
    (hcore : s'.core = Function.update s.core c k') (hrunning : s'.running = s.running)
    (hmine : ∀ p, k'.thread = .proc p → k'.pc.inSched = true → s.running p = false) :
    Parked s' := by
  intro d p
  rw [hcore, hrunning]
  by_cases hd : d = c
  · subst hd
    rw [Function.update_self]
    exact hmine p
  · rw [Function.update_of_ne hd]
    exact h d p

/-- A process that the scheduler runs is in no other place, so it is not the one of another
CPU. -/
theorem Parked.enter [DecidableEq ι] [DecidableEq π] {p : π} (h : Parked s) (hf : FlagInv s)
    (hplace : s.place p ≠ .running) (hcore : s'.core = Function.update s.core c k')
    (hk : k'.pc = .code) (hrunning : s'.running = Function.update s.running p true) :
    Parked s' := by
  intro d q hd hin
  rw [hcore] at hd hin
  by_cases hdc : d = c
  · rw [hdc, Function.update_self, hk] at hin
    cases hin
  · rw [Function.update_of_ne hdc] at hd hin
    have hne : q ≠ p := by
      rintro rfl
      exact hplace (hf.runs d q hd)
    rw [hrunning, Function.update_of_ne hne]
    exact h d q hd hin

/-! ## Steps -/

section

variable [DecidableEq ι] [DecidableEq π]

/-- What a step of a CPU changes: it enters a `push_off`, it goes on inside of its thread, a
process changes its state, or one of the two ends of `swtch`. -/
inductive Effect (s : Machine ι κ π) (c : ι) : Action κ π → Machine ι κ π → Prop
  | push {act : Action κ π} {k' : Core κ π} (hthread : k'.thread = (s.core c).thread)
      (hintena : k'.intena = (pushOff (s.core c)).intena)
      (hnoff : k'.noff = (s.core c).noff + 1)
      (hin : k'.pc.inSched = true → (s.core c).pc.inSched = true) :
      Effect s c act ((s.note c).setCore c k')
  | inside {act : Action κ π} {k' : Core κ π} {s' : Machine ι κ π}
      (hcore : s'.core = Function.update s.core c k') (hplace : s'.place = s.place)
      (hrunning : s'.running = s.running) (hbefore : s'.before = s.before)
      (hthread : k'.thread = (s.core c).thread) (hintena : k'.intena = (s.core c).intena)
      (hdepth : k'.noff = (s.core c).noff ∨
        k'.noff = (popOff (s.core c)).noff ∧ k'.intr = (popOff (s.core c)).intr)
      (hin : k'.pc.inSched = true → (s.core c).pc.inSched = true ∨ act = .sched) :
      Effect s c act s'
  | leave {p : π} : Effect s c .leave { s with running := Function.update s.running p false }
  | away {p : π} (hthread : (s.core c).thread = .proc p) (hnoff : (s.core c).noff = 1) :
      Effect s c .next { s.setCore c { s.core c with thread := .scheduler, pc := .code } with
        place := Function.update s.place p (.out (s.core c).intena) }
  | resumed {p : π} {intena : Bool} (hpc : (s.core c).pc = .code)
      (hplace : s.place p = .out intena) :
      Effect s c (.resume p)
        { s.setCore c { s.core c with thread := .proc p, intena := intena } with
          place := Function.update s.place p .running
          running := Function.update s.running p true }
  | started {p : π} (hpc : (s.core c).pc = .code) (hplace : s.place p = .new) :
      Effect s c (.resume p) { s.setCore c { s.core c with thread := .proc p } with
        place := Function.update s.place p .running
        running := Function.update s.running p true
        before := Function.update s.before p (s.core c).intena }

theorem FlagInv.step (hf : FlagInv s) (heffect : Effect s c act s') : FlagInv s' := by
  cases heffect with
  | push hthread hintena => exact hf.push hthread hintena
  | inside hcore hplace _ hbefore hthread hintena hdepth _ =>
    refine hf.keep hcore hplace hbefore hthread hintena ?_
    rcases hdepth with hsame | ⟨hnoff, -⟩
    · exact hsame.le
    · exact hnoff.trans_le popOff_noff_le
  | leave => exact ⟨hf.runs, hf.alone, hf.flag, hf.saved⟩
  | away hthread hnoff => exact hf.leave hthread (by omega)
  | resumed _ hplace =>
    exact hf.enter (by simp [hplace]) (hf.saved _ _ hplace).symm fun _ _ => rfl
  | started _ hplace =>
    exact hf.enter (by simp [hplace]) (Function.update_self _ _ _)
      fun q hq => Function.update_of_ne hq _ _

theorem Parked.step (h : Parked s) (hf : FlagInv s) (hok : Disciplined plock s (c, act))
    (heffect : Effect s c act s') : Parked s' := by
  cases heffect with
  | push hthread _ _ hin =>
    exact h.keep note_setCore_core (note_running s c) fun p hp hpc =>
      h c p (hthread.symm.trans hp) (hin hpc)
  | inside hcore _ hrunning _ hthread _ _ hin =>
    refine h.keep hcore hrunning fun p hp hpc => ?_
    have hp' := hthread.symm.trans hp
    rcases hin hpc with hin | rfl
    · exact h c p hp' hin
    · exact (hok p hp').2.2
  | @leave q =>
    intro d p hd hin
    show Function.update s.running q false p = false
    by_cases hpq : p = q
    · rw [hpq, Function.update_self]
    · rw [Function.update_of_ne hpq]
      exact h d p hd hin
  | away => exact h.keep rfl rfl fun p _ hin => by cases hin
  | resumed hpc hplace => exact h.enter hf (by simp [hplace]) rfl hpc rfl
  | started hpc hplace => exact h.enter hf (by simp [hplace]) rfl hpc rfl

/-- A step enters a `push_off`, leaves one, or keeps the depth; a process that runs for the
first time takes over the flag of the scheduler's. -/
theorem Effect.kinds (heffect : Effect s c act s') :
    s'.before = (s.note c).before ∧ (s'.core c).noff = (s.core c).noff + 1 ∨
    s'.before = s.before ∧ (s'.core c).noff = (popOff (s.core c)).noff ∧
      (s'.core c).intr = (popOff (s.core c)).intr ∨
    (s'.core c).noff = (s.core c).noff ∧ (s'.before = s.before ∨
      ∃ p, s.place p = .new ∧ s'.before = Function.update s.before p (s.core c).intena) := by
  have hself : ∀ k' : Core κ π, Function.update s.core c k' c = k' := fun k' =>
    Function.update_self c k' s.core
  have hsame : ∀ k' : Core κ π, k'.noff = (s.core c).noff →
      (Function.update s.core c k' c).noff = (s.core c).noff := fun k' h => by rw [hself, h]
  cases heffect with
  | @push k' _ _ _ hnoff =>
    refine .inl ⟨rfl, ?_⟩
    rw [note_setCore_core, hself, hnoff]
  | inside hcore _ _ hbefore _ _ hdepth _ =>
    rw [hcore, hself]
    rcases hdepth with hsame | hpop
    · exact .inr (.inr ⟨hsame, .inl hbefore⟩)
    · exact .inr (.inl ⟨hbefore, hpop⟩)
  | leave => exact .inr (.inr ⟨rfl, .inl rfl⟩)
  | away => exact .inr (.inr ⟨hsame _ rfl, .inl rfl⟩)
  | resumed => exact .inr (.inr ⟨hsame _ rfl, .inl rfl⟩)
  | started _ hplace =>
    exact .inr (.inr ⟨hsame _ rfl, .inr ⟨_, hplace, rfl⟩⟩)

end

section

variable [DecidableEq ι] [DecidableEq κ] [DecidableEq π]

/-- Every step of the machine has one of these effects. -/
theorem step_effect (hstep : Spinlocks.step plock s (c, act) = some s') : Effect s c act s' := by
  unfold Spinlocks.step at hstep
  dsimp only at hstep
  split at hstep
  · cases hstep
    exact .push rfl rfl rfl fun hin => by cases hin
  · cases hstep
    exact .inside rfl rfl rfl rfl rfl rfl (.inl rfl) fun hin => by cases hin
  · cases hstep
    exact .push rfl rfl rfl fun hin => hin
  · cases hstep
    exact .inside rfl rfl rfl rfl popOff_thread popOff_intena (.inr ⟨rfl, rfl⟩)
      fun hin => .inl (popOff_inSched hin)
  · cases hstep
    exact .inside rfl rfl rfl rfl rfl rfl (.inl rfl) .inl
  · cases hstep
    exact .inside rfl rfl rfl rfl rfl rfl (.inl rfl) .inl
  · split at hstep
    · cases hstep
    · cases hstep
      exact .leave
  · -- `sched`
    split at hstep
    · cases hstep
    · cases hstep
      exact .inside rfl rfl rfl rfl rfl rfl (.inl rfl) fun _ => .inr rfl
  · -- the scheduler's `swtch`
    next hpc =>
    split at hstep
    · next hplace =>
      cases hstep
      exact .resumed hpc hplace
    · next hplace =>
      cases hstep
      exact .started hpc hplace
    · cases hstep
  · -- `holding`
    next hpc =>
    split_ifs at hstep
    · cases hstep
      refine .inside rfl rfl rfl rfl rfl rfl (.inl rfl) fun hin => .inl ?_
      rw [hpc, ← inSched_holdingCpu]
      exact hin
    · cases hstep
      obtain ⟨hthread, hintena, hnoff⟩ := answer_same (k := s.core c) _ false
      refine .inside rfl rfl rfl rfl hthread hintena (.inl hnoff) fun hin => ?_
      obtain rfl := answer_inSched hin
      cases hin
  · next hpc =>
    cases hstep
    obtain ⟨hthread, hintena, hnoff⟩ := answer_same (k := s.core c) _ _
    refine .inside rfl rfl rfl rfl hthread hintena (.inl hnoff) fun hin => .inl ?_
    obtain rfl := answer_inSched hin
    rw [hpc]
    rfl
  · split_ifs at hstep
    · cases hstep
      exact .inside (Function.update_eq_self c s.core).symm rfl rfl rfl rfl rfl (.inl rfl) .inl
    · cases hstep
      exact .inside rfl rfl rfl rfl rfl rfl (.inl rfl) fun hin => by cases hin
  · cases hstep
    exact .inside rfl rfl rfl rfl rfl rfl (.inl rfl) fun hin => by cases hin
  · cases hstep
    exact .inside rfl rfl rfl rfl rfl rfl (.inl rfl) fun hin => by cases hin
  · cases hstep
    exact .inside rfl rfl rfl rfl rfl rfl (.inl rfl) fun hin => by cases hin
  · cases hstep
    refine .inside rfl rfl rfl rfl popOff_thread popOff_intena (.inr ?_) fun hin =>
      absurd (popOff_inSched hin) Bool.false_ne_true
    unfold popOff
    split_ifs <;> exact ⟨rfl, rfl⟩
  · -- `swtch` in `sched`
    split at hstep
    · cases hstep
    · next hthread =>
      split_ifs at hstep
      · cases hstep
        exact .inside rfl rfl rfl rfl rfl rfl (.inl rfl) fun hin => by cases hin
      · cases hstep
        exact .inside rfl rfl rfl rfl rfl rfl (.inl rfl) fun hin => by cases hin
      · cases hstep
        exact .inside rfl rfl rfl rfl rfl rfl (.inl rfl) fun hin => by cases hin
      · cases hstep
        exact .away hthread (by omega)
  · cases hstep

/-! ## What runs guarantee -/

theorem inv_of_run {s₀ : Machine ι κ π} (hboot : Boot s₀)
    (hrun : ReachOf (Spinlocks.step plock) (Disciplined plock) s₀ s) : Inv s ∧ FlagInv s := by
  obtain ⟨hinv, hf, -⟩ := hrun.invariant (fun s => Inv s ∧ FlagInv s ∧ Parked s)
    (fun _ _ _ hok h hstep => ⟨h.1.step h.2.2 hok hstep, h.2.1.step (step_effect hstep),
      h.2.2.step h.2.1 hok (step_effect hstep)⟩) ⟨hboot.inv, hboot.flagInv, hboot.parked⟩
  exact ⟨hinv, hf⟩

/-- However the CPUs interleave: a lock is locked while exactly one CPU has it, a CPU with a
lock takes no interrupt, and no check of the lock code fails. -/
theorem spinlocks_exclude {s₀ : Machine ι κ π} (hboot : Boot s₀)
    (hrun : ReachOf (Spinlocks.step plock) (Disciplined plock) s₀ s) :
    (∀ lk c c', lk ∈ (s.core c).held → lk ∈ (s.core c').held → c = c') ∧
    (∀ lk, (s.lock lk).locked = true ↔ ∃ c, lk ∈ (s.core c).held) ∧
    (∀ c, (s.core c).held.Nonempty → (s.core c).intr = false) ∧
    ∀ c text, (s.core c).pc ≠ .panic text := by
  obtain ⟨hinv, -⟩ := inv_of_run hboot hrun
  refine ⟨hinv.unique, hinv.locked, fun c hheld => ?_, fun c text hpc => ?_⟩
  · have hpos := Finset.card_pos.mpr hheld
    have hdepth := (hinv.sound c).depth
    exact (hinv.sound c).off (by omega)
  · have hknows := (hinv.sound c).knows
    simp only [Core.Knows, hpc] at hknows

/-- Two CPUs with interrupts on. -/
def twoCores : Machine (Fin 2) (Fin 2) (Fin 2) where
  core _ := ⟨0, false, true, .scheduler, .code, ∅, 0⟩
  lock _ := ⟨false, none⟩
  place _ := .new
  running _ := false
  before _ := false

theorem twoCores_boot : Boot twoCores := by
  constructor <;> intro _ <;> rfl

/-- The first CPU takes a lock. -/
theorem exists_run_with_lock : ∃ s, ReachOf (Spinlocks.step id) (Disciplined id) twoCores s ∧
    (s.core 0).held = {0} := by
  refine ⟨_, (ReachOf.single (a := (0, .acquire 0)) (Finset.notMem_empty 0) rfl).trans
    ((ReachOf.single (a := (0, .next)) trivial rfl).trans
    ((ReachOf.single (a := (0, .next)) trivial rfl).trans
    (ReachOf.single (a := (0, .next)) trivial rfl))), ?_⟩
  rfl

theorem spinlocks_exclude_two : ∃ s : Machine (Fin 2) (Fin 2) (Fin 2),
    (s.core 0).held = {0} ∧ (s.core 0).intr = false ∧ (0 : Fin 2) ∉ (s.core 1).held := by
  obtain ⟨s, hrun, hheld⟩ := exists_run_with_lock
  obtain ⟨honly, -, hoff, -⟩ := spinlocks_exclude twoCores_boot hrun
  have hmem : (0 : Fin 2) ∈ (s.core 0).held := by simp [hheld]
  exact ⟨s, hheld, hoff 0 ⟨0, hmem⟩, fun h => absurd (honly 0 0 1 hmem h) (by decide)⟩

/-- The flag that a process will get back is noted at its outermost `push_off` and changes
nowhere else, and the `pop_off` that ends the outermost pair sets it, on whatever CPU the
process is by then. -/
theorem interrupts_restored {s₀ : Machine ι κ π} (hboot : Boot s₀)
    (hrun : ReachOf (Spinlocks.step plock) (Disciplined plock) s₀ s)
    (hstep : Spinlocks.step plock s (c, act) = some s') :
    (∀ p, s.place p ≠ .new → s'.before p ≠ s.before p → (s.core c).thread = .proc p ∧
      (s.core c).noff = 0 ∧ s'.before p = (s.core c).intr) ∧
    ∀ p, (s.core c).thread = .proc p → (s.core c).noff = 1 → (s'.core c).noff = 0 →
      (s'.core c).intr = s.before p := by
  obtain ⟨hinv, hflag⟩ := inv_of_run hboot hrun
  constructor
  · intro p hplace hne
    rcases (step_effect hstep).kinds with
      ⟨hbefore, -⟩ | ⟨hbefore, -⟩ | ⟨-, hbefore | ⟨q, hq, hbefore⟩⟩
    · rw [hbefore] at hne ⊢
      unfold Machine.note at hne ⊢
      split at hne
      · exact absurd rfl hne
      · next q hq =>
        split_ifs at hne with hzero
        · obtain rfl : p = q := by
            by_contra hp
            exact hne (Function.update_of_ne hp _ _)
          simp [hq, hzero]
        · exact absurd rfl hne
    · exact absurd (congrFun hbefore p) hne
    · exact absurd (congrFun hbefore p) hne
    · rw [hbefore] at hne
      refine absurd (Function.update_of_ne ?_ _ _) hne
      rintro rfl
      exact hplace hq
  · intro p hthread hone hzero
    have hintr := (hinv.sound c).off (by omega)
    rcases (step_effect hstep).kinds with ⟨-, hnoff⟩ | ⟨-, -, hnew⟩ | ⟨hnoff, -⟩
    · omega
    · rw [hnew, popOff_of_pos (by omega) hintr, hone]
      exact hflag.flag c p hthread (by omega)
    · omega

end

/-- The actions of a CPU that takes a free lock, and of one that releases a lock it has. -/
def acquireActions (c lk : Fin 2) : List (Fin 2 × Action (Fin 2) (Fin 2)) :=
  [(c, .acquire lk), (c, .next), (c, .next), (c, .next)]

def releaseActions (c lk : Fin 2) : List (Fin 2 × Action (Fin 2) (Fin 2)) :=
  [(c, .release lk), (c, .next), (c, .next), (c, .next), (c, .next), (c, .next)]

/-- Process 0 starts on CPU 0 and yields under its lock; CPU 1, which has had its interrupts off,
takes the lock over. -/
def yieldActions : List (Fin 2 × Action (Fin 2) (Fin 2)) :=
  acquireActions 0 0 ++ [(0, .resume 0)] ++ releaseActions 0 0 ++ acquireActions 0 0 ++
    [(0, .leave), (0, .sched), (0, .next), (0, .next), (0, .next)] ++ releaseActions 0 0 ++
    [(1, .intrOff)] ++ acquireActions 1 0

/-- CPU 1 runs the process up to the `pop_off` of its release. -/
def resumeActions : List (Fin 2 × Action (Fin 2) (Fin 2)) :=
  (1, .resume 0) :: (releaseActions 1 0).dropLast

instance (s : Machine (Fin 2) (Fin 2) (Fin 2)) : DecidablePred (Disciplined id s)
  | (c, .acquire lk) => inferInstanceAs (Decidable (lk ∉ (s.core c).held))
  | (c, .release lk) => inferInstanceAs (Decidable (lk ∈ (s.core c).held))
  | (c, .popOff) => inferInstanceAs (Decidable (0 < (s.core c).pushes))
  | (c, .intrOn) | (c, .intrOff) => inferInstanceAs (Decidable ((s.core c).noff = 0))
  | (c, .leave) =>
    inferInstanceAs (Decidable (∀ p, (s.core c).thread = .proc p → p ∈ (s.core c).held))
  | (c, .sched) =>
    inferInstanceAs (Decidable (∀ p, (s.core c).thread = .proc p →
      (s.core c).held = {p} ∧ (s.core c).pushes = 0 ∧ s.running p = false))
  | (c, .resume p) =>
    inferInstanceAs (Decidable ((s.core c).held = {p} ∧ (s.core c).pushes = 0))
  | (_, .pushOff) | (_, .next) => isTrue trivial

/-- A process enters its outermost `push_off` on CPU 0 with interrupts on, is moved by `sched`
to CPU 1, whose own flag says off, and has them on again after its last `pop_off` there. -/
theorem interrupts_restored_moved : ∃ t s s' : Machine (Fin 2) (Fin 2) (Fin 2),
    ReachOf (Spinlocks.step id) (Disciplined id) twoCores t ∧
    (t.place 0 = .out true ∧ (t.core 1).intena = false) ∧
    ReachOf (Spinlocks.step id) (Disciplined id) t s ∧ (s.core 1).thread = .proc 0 ∧
    Spinlocks.step id s (1, .next) = some s' ∧ (s'.core 1).noff = 0 ∧
    (s'.core 1).intr = s.before 0 ∧ s.before 0 = true := by
  have heval : (runAll (fun s a => if Disciplined id s a then Spinlocks.step id s a else none)
      twoCores yieldActions).any (fun t => t.place 0 = .out true ∧ (t.core 1).intena = false ∧
        (runAll (fun s a => if Disciplined id s a then Spinlocks.step id s a else none) t
          resumeActions).any (fun s => (s.core 1).thread = .proc 0 ∧ (s.core 1).noff = 1 ∧
            s.before 0 = true ∧ (Spinlocks.step id s (1, .next)).any
              fun s' => (s'.core 1).noff = 0)) = true := by
    decide +kernel
  obtain ⟨t, ht, hend⟩ := (Option.any_eq_true _ _).mp heval
  obtain ⟨hplace, hintena, hrest⟩ := of_decide_eq_true hend
  obtain ⟨s, hs, hend⟩ := (Option.any_eq_true _ _).mp hrest
  obtain ⟨hthread, hnoff, hbefore, hlast⟩ := of_decide_eq_true hend
  obtain ⟨s', hstep, hzero⟩ := (Option.any_eq_true _ _).mp hlast
  have hrun : ReachOf (Spinlocks.step id) (Disciplined id) twoCores t := reachOf_of_runAll ht
  have hrun' : ReachOf (Spinlocks.step id) (Disciplined id) t s := reachOf_of_runAll hs
  exact ⟨t, s, s', hrun, ⟨hplace, hintena⟩, hrun', hthread, hstep, of_decide_eq_true hzero,
    (interrupts_restored twoCores_boot (hrun.trans hrun') hstep).2 0 hthread hnoff
      (of_decide_eq_true hzero), hbefore⟩

end XV6AndConcurrency.Synchronization.Spinlocks
