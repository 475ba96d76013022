import XV6AndConcurrency.Synchronization.Spinlocks

/-!
# Who holds a spinlock

The invariant behind the spinlocks. A lock is locked exactly while some CPU has it, and
`lk->cpu` never names a CPU that does not have the lock, so `holding` answers correctly
although other CPUs change what it reads. `noff` counts the locks of the CPU, and keeps
interrupts off.
-/

namespace XV6AndConcurrency.Synchronization.Spinlocks

open Foundations

variable {ι κ π : Type*}

/-- The `push_off` of an `acquire` that has no lock yet, or of a `release` that has no lock
any more. -/
def Pc.extra : Pc κ → ℕ
  | .holding .acquire _ => 1
  | .holdingCpu .acquire _ => 1
  | .swap _ => 1
  | .pop => 1
  | _ => 0

/-- What a CPU knows at each place. -/
def Core.Knows (k : Core κ π) : Prop :=
  match k.pc with
  | .code => True
  | .pop => True
  | .holding .acquire lk => lk ∉ k.held
  | .holdingCpu .acquire lk => lk ∉ k.held
  | .swap lk => lk ∉ k.held
  | .holding .release lk => lk ∈ k.held
  | .holdingCpu .release lk => lk ∈ k.held
  | .setCpu lk => lk ∈ k.held
  | .clearCpu lk => lk ∈ k.held
  | .unlock lk => lk ∈ k.held
  | .holding .sched lk => k.held = {lk} ∧ k.pushes = 0
  | .holdingCpu .sched lk => k.held = {lk} ∧ k.pushes = 0
  | .switch => k.held.card = 1 ∧ k.pushes = 0
  | .panic _ => False

/-- One CPU by itself. -/
structure Core.Sound (k : Core κ π) : Prop where
  depth : k.noff = k.held.card + k.pushes + k.pc.extra
  off : 0 < k.noff → k.intr = false
  knows : k.Knows

/-- In `sched`, up to `swtch`. -/
def Pc.inSched : Pc κ → Bool
  | .holding .sched _ => true
  | .holdingCpu .sched _ => true
  | .switch => true
  | _ => false

/-- A process in `sched` has changed its state. -/
def Parked (s : Machine ι κ π) : Prop :=
  ∀ c p, (s.core c).thread = .proc p → (s.core c).pc.inSched = true → s.running p = false

structure Inv (s : Machine ι κ π) : Prop where
  unique : ∀ lk c c', lk ∈ (s.core c).held → lk ∈ (s.core c').held → c = c'
  locked : ∀ lk, (s.lock lk).locked = true ↔ ∃ c, lk ∈ (s.core c).held
  cpu : ∀ lk c, (s.lock lk).cpu = some c → lk ∈ (s.core c).held
  stored : ∀ lk c, lk ∈ (s.core c).held → (s.lock lk).cpu = some c ∨
    (s.core c).pc = .setCpu lk ∨ (s.core c).pc = .unlock lk
  cleared : ∀ lk c, (s.core c).pc = .unlock lk → (s.lock lk).cpu = none
  sound : ∀ c, (s.core c).Sound

variable {plock : π → κ} {s s' : Machine ι κ π} {c : ι} {lk : κ} {k k' : Core κ π}
  {a : ι × Action κ π}

@[simp] theorem pushOff_held : (pushOff k).held = k.held := rfl
@[simp] theorem pushOff_pc : (pushOff k).pc = k.pc := rfl
@[simp] theorem pushOff_thread : (pushOff k).thread = k.thread := rfl

@[simp] theorem popOff_held : (popOff k).held = k.held := by
  unfold popOff
  split_ifs <;> rfl

@[simp] theorem popOff_thread : (popOff k).thread = k.thread := by
  unfold popOff
  split_ifs <;> rfl

@[simp] theorem popOff_intena : (popOff k).intena = k.intena := by
  unfold popOff
  split_ifs <;> rfl

/-- Inside of a `push_off` the counter goes down, and the last one restores the flag. -/
theorem popOff_of_pos (hpos : 0 < k.noff) (hintr : k.intr = false) :
    popOff k = { k with noff := k.noff - 1, intr := decide (k.noff - 1 = 0) && k.intena } := by
  rw [popOff, hintr, if_neg Bool.false_ne_true, if_neg (by omega)]

@[simp] theorem answer_held (caller : Caller) (b : Bool) :
    (answer k lk caller b).held = k.held := by
  cases caller <;> cases b <;> rfl

@[simp] theorem note_core [DecidableEq π] (s : Machine ι κ π) (c : ι) :
    (s.note c).core = s.core := by
  unfold Machine.note
  split
  · rfl
  · split_ifs <;> rfl

@[simp] theorem note_lock [DecidableEq π] (s : Machine ι κ π) (c : ι) :
    (s.note c).lock = s.lock := by
  unfold Machine.note
  split
  · rfl
  · split_ifs <;> rfl

theorem note_setCore_core [DecidableEq ι] [DecidableEq π] :
    ((s.note c).setCore c k).core = Function.update s.core c k := by
  rw [Machine.setCore, note_core]

/-- A step that leaves the locks alone. -/
theorem Inv.keep [DecidableEq ι] (hinv : Inv s) (hcore : s'.core = Function.update s.core c k')
    (hlock : s'.lock = s.lock) (hheld : k'.held = (s.core c).held)
    (hstored : ∀ lk ∈ k'.held, (s.lock lk).cpu = some c ∨ k'.pc = .setCpu lk ∨ k'.pc = .unlock lk)
    (hunlock : ∀ lk, k'.pc ≠ .unlock lk) (hsound : k'.Sound) : Inv s' := by
  have hsame : ∀ d, (s'.core d).held = (s.core d).held := by
    intro d
    rw [hcore]
    by_cases hd : d = c
    · subst hd
      rw [Function.update_self, hheld]
    · rw [Function.update_of_ne hd]
  refine ⟨fun lk d d' => ?_, fun lk => ?_, fun lk d => ?_, fun lk d hd => ?_, fun lk d hd => ?_,
    fun d => ?_⟩
  · rw [hsame, hsame]
    exact hinv.unique lk d d'
  · rw [hlock, hinv.locked]
    simp only [hsame]
  · rw [hlock, hsame]
    exact hinv.cpu lk d
  · rw [hsame] at hd
    rw [hlock, hcore]
    by_cases hdc : d = c
    · subst hdc
      rw [Function.update_self]
      exact hstored lk (hheld ▸ hd)
    · rw [Function.update_of_ne hdc]
      exact hinv.stored lk d hd
  · rw [hcore] at hd
    rw [hlock]
    by_cases hdc : d = c
    · subst hdc
      rw [Function.update_self] at hd
      exact absurd hd (hunlock lk)
    · rw [Function.update_of_ne hdc] at hd
      exact hinv.cleared lk d hd
  · rw [hcore]
    by_cases hdc : d = c
    · subst hdc
      rw [Function.update_self]
      exact hsound
    · rw [Function.update_of_ne hdc]
      exact hinv.sound d

/-- A step on one lock that no other CPU has. -/
theorem Inv.change [DecidableEq ι] [DecidableEq κ] {l : Spinlock ι} (hinv : Inv s)
    (hcore : s'.core = Function.update s.core c k') (hlock : s'.lock = Function.update s.lock lk l)
    (hfree : ∀ d ≠ c, lk ∉ (s.core d).held)
    (hheld : ∀ lk' ≠ lk, lk' ∈ k'.held ↔ lk' ∈ (s.core c).held)
    (hrest : ∀ lk' ≠ lk, lk' ∈ (s.core c).held → (s.lock lk').cpu = some c)
    (hlocked : l.locked = true ↔ lk ∈ k'.held) (hcpu : ∀ d, l.cpu = some d → d = c ∧ lk ∈ k'.held)
    (hstored : lk ∈ k'.held → l.cpu = some c ∨ k'.pc = .setCpu lk ∨ k'.pc = .unlock lk)
    (hcleared : ∀ m, k'.pc = .unlock m → m = lk ∧ l.cpu = none) (hsound : k'.Sound) :
    Inv s' := by
  have hself : s'.core c = k' := by rw [hcore, Function.update_self]
  have hother : ∀ d ≠ c, s'.core d = s.core d := fun d hd => by
    rw [hcore, Function.update_of_ne hd]
  have hlk : s'.lock lk = l := by rw [hlock, Function.update_self]
  have hlk' : ∀ m ≠ lk, s'.lock m = s.lock m := fun m hm => by
    rw [hlock, Function.update_of_ne hm]
  have hmem : ∀ m ≠ lk, ∀ d, m ∈ (s'.core d).held ↔ m ∈ (s.core d).held := by
    intro m hm d
    by_cases hd : d = c
    · rw [hd, hself]
      exact hheld m hm
    · rw [hother d hd]
  have honly : ∀ d, lk ∈ (s'.core d).held → d = c := by
    intro d hd
    by_contra hne
    rw [hother d hne] at hd
    exact hfree d hne hd
  refine ⟨fun m d d' hd hd' => ?_, fun m => ?_, fun m d hd => ?_, fun m d hd => ?_,
    fun m d hd => ?_, fun d => ?_⟩
  · by_cases hm : m = lk
    · subst hm
      exact (honly d hd).trans (honly d' hd').symm
    · exact hinv.unique m d d' ((hmem m hm d).mp hd) ((hmem m hm d').mp hd')
  · by_cases hm : m = lk
    · subst hm
      rw [hlk, hlocked]
      constructor
      · exact fun h => ⟨c, hself.symm ▸ h⟩
      · rintro ⟨d, hd⟩
        obtain rfl := honly d hd
        exact hself ▸ hd
    · rw [hlk' m hm, hinv.locked]
      exact exists_congr fun d => (hmem m hm d).symm
  · by_cases hm : m = lk
    · subst hm
      rw [hlk] at hd
      obtain ⟨rfl, hheld'⟩ := hcpu d hd
      exact hself.symm ▸ hheld'
    · rw [hlk' m hm] at hd
      exact (hmem m hm d).mpr (hinv.cpu m d hd)
  · by_cases hm : m = lk
    · subst hm
      obtain rfl := honly d hd
      rw [hself] at hd
      rw [hlk, hself]
      exact hstored hd
    · rw [hlk' m hm]
      by_cases hdc : d = c
      · subst hdc
        exact .inl (hrest m hm ((hmem m hm d).mp hd))
      · rw [hother d hdc]
        exact hinv.stored m d ((hmem m hm d).mp hd)
  · by_cases hdc : d = c
    · subst hdc
      rw [hself] at hd
      obtain ⟨rfl, hnone⟩ := hcleared m hd
      rw [hlk, hnone]
    · rw [hother d hdc] at hd
      have hheld' := (hinv.sound d).knows
      simp only [Core.Knows, hd] at hheld'
      have hm : m ≠ lk := by
        rintro rfl
        exact hfree d hdc hheld'
      rw [hlk' m hm]
      exact hinv.cleared m d hd
  · by_cases hdc : d = c
    · subst hdc
      exact hself.symm ▸ hsound
    · exact (hother d hdc).symm ▸ hinv.sound d

/-- `lk->cpu` names this CPU for each lock that it has, except in the midst of the code. -/
theorem Inv.cpu_eq (hinv : Inv s) (hmem : lk ∈ (s.core c).held) (hset : (s.core c).pc ≠ .setCpu lk)
    (hunlock : (s.core c).pc ≠ .unlock lk) : (s.lock lk).cpu = some c :=
  (hinv.stored lk c hmem).resolve_right fun h => h.elim hset hunlock

/-- What `holding` finds. -/
theorem Inv.cpu_iff (hinv : Inv s) (hset : (s.core c).pc ≠ .setCpu lk)
    (hunlock : (s.core c).pc ≠ .unlock lk) : (s.lock lk).cpu = some c ↔ lk ∈ (s.core c).held :=
  ⟨hinv.cpu lk c, fun h => hinv.cpu_eq h hset hunlock⟩

section

variable [DecidableEq ι] [DecidableEq κ] [DecidableEq π]

theorem step_code (hinv : Inv s) {act : Action κ π} (hpc : (s.core c).pc = .code)
    (hok : Disciplined plock s (c, act)) (hstep : step plock s (c, act) = some s') : Inv s' := by
  have hsound := hinv.sound c
  have hdepth := hsound.depth
  have hoff := hsound.off
  have hcpu : ∀ lk ∈ (s.core c).held, (s.lock lk).cpu = some c := fun lk h =>
    hinv.cpu_eq h (by simp [hpc]) (by simp [hpc])
  rw [hpc] at hdepth
  simp only [Pc.extra, Nat.add_zero] at hdepth
  cases act with
  | acquire lk =>
    simp only [step, hpc, Option.some.injEq] at hstep
    subst hstep
    refine hinv.keep note_setCore_core (note_lock s c) rfl
      (fun m hm => .inl (hcpu m hm)) (by simp) ⟨?_, fun _ => rfl, hok⟩
    simp only [pushOff, Pc.extra]
    omega
  | release lk =>
    simp only [step, hpc, Option.some.injEq] at hstep
    subst hstep
    exact hinv.keep rfl rfl rfl (fun m hm => .inl (hcpu m hm)) (by simp) ⟨hdepth, hoff, hok⟩
  | pushOff =>
    simp only [step, hpc, Option.some.injEq] at hstep
    subst hstep
    refine hinv.keep note_setCore_core (note_lock s c) rfl
      (fun m hm => .inl (hcpu m hm)) (by simp [hpc]) ⟨?_, fun _ => rfl, ?_⟩
    · simp only [pushOff, hpc, Pc.extra]
      omega
    · simp [Core.Knows, hpc]
  | popOff =>
    have hpushes : 0 < (s.core c).pushes := hok
    have hpos : 0 < (s.core c).noff := by omega
    simp only [step, hpc, popOff_of_pos hpos (hoff hpos), Option.some.injEq] at hstep
    subst hstep
    refine hinv.keep rfl rfl rfl (fun m hm => .inl (hcpu m hm)) (by simp) ⟨?_, fun h => ?_, ?_⟩
    · simp only [Pc.extra]
      omega
    · simp only [Bool.and_eq_false_iff, decide_eq_false_iff_not]
      exact .inl (Nat.ne_of_gt h)
    · simp [Core.Knows]
  | intrOn =>
    have hzero : (s.core c).noff = 0 := hok
    simp only [step, hpc, Option.some.injEq] at hstep
    subst hstep
    refine hinv.keep rfl rfl rfl (fun m hm => .inl (hcpu m hm)) (by simp) ⟨?_, fun h => ?_, ?_⟩
    · simpa [hpc, Pc.extra] using hdepth
    · exact absurd hzero (Nat.ne_of_gt h)
    · simp [Core.Knows]
  | intrOff =>
    simp only [step, hpc, Option.some.injEq] at hstep
    subst hstep
    refine hinv.keep rfl rfl rfl (fun m hm => .inl (hcpu m hm)) (by simp) ⟨?_, fun _ => rfl, ?_⟩
    · simpa [hpc, Pc.extra] using hdepth
    · simp [Core.Knows]
  | leave =>
    simp only [step, hpc] at hstep
    split at hstep
    · cases hstep
    · cases hstep
      exact ⟨hinv.unique, hinv.locked, hinv.cpu, hinv.stored, hinv.cleared, hinv.sound⟩
  | sched =>
    simp only [step, hpc] at hstep
    cases hthread : (s.core c).thread with
    | scheduler =>
      rw [hthread] at hstep
      cases hstep
    | proc p =>
      simp only [hthread, Option.some.injEq] at hstep
      subst hstep
      exact hinv.keep rfl rfl rfl (fun m hm => .inl (hcpu m hm)) (by simp)
        ⟨hdepth, hoff, (hok p hthread).1, (hok p hthread).2.1⟩
  | resume p =>
    simp only [step, hpc] at hstep
    split at hstep
    · cases hstep
      refine hinv.keep rfl rfl rfl (fun m hm => .inl (hcpu m hm)) (by simp) ⟨?_, hoff, ?_⟩
      · simpa [hpc, Pc.extra] using hdepth
      · simp [Core.Knows]
    · cases hstep
      refine hinv.keep rfl rfl rfl (fun m hm => .inl (hcpu m hm)) (by simp) ⟨?_, hoff, ?_⟩
      · simpa [hpc, Pc.extra] using hdepth
      · simp [Core.Knows]
    · cases hstep
  | next =>
    simp only [step, hpc] at hstep
    cases hstep

/-- Both halves of `holding`. -/
theorem step_holding (hinv : Inv s) {caller : Caller}
    (hpc : (s.core c).pc = .holding caller lk ∨ (s.core c).pc = .holdingCpu caller lk)
    (hstep : step plock s (c, .next) = some s') : Inv s' := by
  have hsound := hinv.sound c
  have hdepth := hsound.depth
  have hoff := hsound.off
  have hknows := hsound.knows
  have hcpu : ∀ m ∈ (s.core c).held, (s.lock m).cpu = some c := fun m h =>
    hinv.cpu_eq h (by rcases hpc with hpc | hpc <;> simp [hpc])
      (by rcases hpc with hpc | hpc <;> simp [hpc])
  have hlocked : lk ∈ (s.core c).held → (s.lock lk).locked = true := fun h =>
    (hinv.locked lk).mpr ⟨c, h⟩
  -- the answer is right for each caller
  have hanswer : ∀ b, (b = true ↔ lk ∈ (s.core c).held) →
      s' = s.setCore c (answer (s.core c) lk caller b) → Inv s' := by
    rintro b hb rfl
    refine hinv.keep rfl rfl (answer_held caller b) (fun m hm => .inl (hcpu m ?_)) ?_ ?_
    · rwa [answer_held] at hm
    · cases caller <;> cases b <;> simp [answer]
    · cases caller with
      | acquire =>
        have hno : lk ∉ (s.core c).held := by
          rcases hpc with hpc | hpc <;> simpa only [Core.Knows, hpc] using hknows
        obtain rfl : b = false := Bool.eq_false_iff.mpr fun h => hno (hb.mp h)
        have hextra : (s.core c).pc.extra = 1 := by rcases hpc with hpc | hpc <;> rw [hpc] <;> rfl
        exact ⟨by rw [hextra] at hdepth; exact hdepth, hoff, hno⟩
      | release =>
        have hyes : lk ∈ (s.core c).held := by
          rcases hpc with hpc | hpc <;> simpa only [Core.Knows, hpc] using hknows
        obtain rfl : b = true := hb.mpr hyes
        have hextra : (s.core c).pc.extra = 0 := by rcases hpc with hpc | hpc <;> rw [hpc] <;> rfl
        exact ⟨by rw [hextra] at hdepth; exact hdepth, hoff, hyes⟩
      | sched =>
        have hyes : (s.core c).held = {lk} ∧ (s.core c).pushes = 0 := by
          rcases hpc with hpc | hpc <;> simpa only [Core.Knows, hpc] using hknows
        obtain rfl : b = true := hb.mpr (by rw [hyes.1]; exact Finset.mem_singleton_self lk)
        have hextra : (s.core c).pc.extra = 0 := by rcases hpc with hpc | hpc <;> rw [hpc] <;> rfl
        refine ⟨by rw [hextra] at hdepth; exact hdepth, hoff, ?_, hyes.2⟩
        show (s.core c).held.card = 1
        rw [hyes.1, Finset.card_singleton]
  rcases hpc with hpc | hpc
  · simp only [step, hpc, Option.some.injEq] at hstep
    split_ifs at hstep with hlk
    · subst hstep
      refine hinv.keep rfl rfl rfl (fun m hm => .inl (hcpu m hm)) (by simp) ?_
      rw [hpc] at hdepth
      simp only [Core.Knows, hpc] at hknows
      cases caller with
      | acquire => exact ⟨hdepth, hoff, hknows⟩
      | release => exact ⟨hdepth, hoff, hknows⟩
      | sched => exact ⟨hdepth, hoff, hknows⟩
    · refine hanswer false ?_ hstep.symm
      exact iff_of_false Bool.false_ne_true fun h => hlk (hlocked h)
  · simp only [step, hpc, Option.some.injEq] at hstep
    refine hanswer _ ?_ hstep.symm
    rw [decide_eq_true_eq]
    exact hinv.cpu_iff (by simp [hpc]) (by simp [hpc])

theorem step_next (hinv : Inv s) (hparked : Parked s)
    (hstep : step plock s (c, .next) = some s') : Inv s' := by
  have hsound := hinv.sound c
  have hdepth := hsound.depth
  have hoff := hsound.off
  have hknows := hsound.knows
  cases hpc : (s.core c).pc with
  | code =>
    simp only [step, hpc] at hstep
    cases hstep
  | holding caller m => exact step_holding hinv (.inl hpc) hstep
  | holdingCpu caller m => exact step_holding hinv (.inr hpc) hstep
  | swap m =>
    have hcpu : ∀ m' ∈ (s.core c).held, (s.lock m').cpu = some c := fun m' h =>
      hinv.cpu_eq h (by simp [hpc]) (by simp [hpc])
    simp only [step, hpc] at hstep
    simp only [Core.Knows, hpc] at hknows
    rw [hpc] at hdepth
    split_ifs at hstep with hlk
    · cases hstep
      exact hinv
    · cases hstep
      have hnone : ∀ d, m ∉ (s.core d).held := fun d hd => hlk ((hinv.locked m).mpr ⟨d, hd⟩)
      refine hinv.change rfl rfl (fun d _ => hnone d) (fun m' hm' => ?_) (fun m' _ => hcpu m')
        ?_ (fun d hd => absurd (hinv.cpu m d hd) (hnone d)) (fun _ => .inr (.inl rfl))
        (by simp) ⟨?_, hoff, ?_⟩
      · simp [hm']
      · simp
      · simp only [Pc.extra, Finset.card_insert_of_notMem hknows] at hdepth ⊢
        omega
      · exact Finset.mem_insert_self m _
  | setCpu m =>
    simp only [step, hpc, Option.some.injEq] at hstep
    simp only [Core.Knows, hpc] at hknows
    rw [hpc] at hdepth
    subst hstep
    refine hinv.change rfl rfl (fun d hd hmem => hd (hinv.unique m d c hmem hknows))
      (fun m' _ => Iff.rfl) (fun m' hm' h => hinv.cpu_eq h ?_ ?_) ?_ (fun d hd => ?_)
      (fun _ => .inl rfl) (by simp) ⟨hdepth, hoff, trivial⟩
    · simpa [hpc] using hm'.symm
    · simp [hpc]
    · exact (hinv.locked m).trans (iff_of_true ⟨c, hknows⟩ hknows)
    · exact ⟨(Option.some.inj hd).symm, hknows⟩
  | clearCpu m =>
    simp only [step, hpc, Option.some.injEq] at hstep
    simp only [Core.Knows, hpc] at hknows
    rw [hpc] at hdepth
    subst hstep
    refine hinv.change rfl rfl (fun d hd hmem => hd (hinv.unique m d c hmem hknows))
      (fun m' _ => Iff.rfl) (fun m' hm' h => hinv.cpu_eq h ?_ ?_) ?_ (fun d hd => ?_)
      (fun _ => .inr (.inr rfl)) (by simp) ⟨hdepth, hoff, hknows⟩
    · simp [hpc]
    · simp [hpc]
    · exact (hinv.locked m).trans (iff_of_true ⟨c, hknows⟩ hknows)
    · cases hd
  | unlock m =>
    simp only [step, hpc, Option.some.injEq] at hstep
    simp only [Core.Knows, hpc] at hknows
    rw [hpc] at hdepth
    subst hstep
    refine hinv.change rfl rfl (fun d hd hmem => hd (hinv.unique m d c hmem hknows))
      (fun m' hm' => ?_) (fun m' hm' h => hinv.cpu_eq h ?_ ?_) ?_ (fun d hd => ?_)
      (fun h => absurd h (Finset.notMem_erase m _)) (by simp) ⟨?_, hoff, trivial⟩
    · simp [hm']
    · simp [hpc]
    · simpa [hpc] using hm'.symm
    · simp
    · rw [hinv.cleared m c hpc] at hd
      cases hd
    · simp only [Pc.extra, Finset.card_erase_of_mem hknows] at hdepth ⊢
      have := Finset.card_pos.mpr ⟨m, hknows⟩
      omega
  | pop =>
    simp only [step, hpc, Option.some.injEq] at hstep
    rw [hpc] at hdepth
    simp only [Pc.extra] at hdepth
    have hpos : 0 < (s.core c).noff := by omega
    rw [popOff_of_pos (by exact hpos) (by exact hoff hpos)] at hstep
    subst hstep
    refine hinv.keep rfl rfl rfl (fun m hm => .inl (hinv.cpu_eq hm (by simp [hpc]) (by simp [hpc])))
      (by simp) ⟨?_, fun h => ?_, trivial⟩
    · simp only [Pc.extra]
      omega
    · simp only [Bool.and_eq_false_iff, decide_eq_false_iff_not]
      exact .inl (Nat.ne_of_gt h)
  | switch =>
    simp only [step, hpc] at hstep
    simp only [Core.Knows, hpc] at hknows
    rw [hpc] at hdepth
    simp only [Pc.extra] at hdepth
    have hone : (s.core c).noff = 1 := by omega
    split at hstep
    · cases hstep
    · next p hthread =>
      have hleft : s.running p = false := hparked c p hthread (by rw [hpc]; rfl)
      rw [if_neg (by simp [hone]), if_neg (by simp [hleft]), if_neg (by simp [hoff (by omega)])]
        at hstep
      cases hstep
      exact hinv.keep rfl rfl rfl
        (fun m hm => .inl (hinv.cpu_eq hm (by simp [hpc]) (by simp [hpc]))) (by simp)
        ⟨hdepth, hoff, trivial⟩
  | panic text =>
    simp only [Core.Knows, hpc] at hknows

end

end XV6AndConcurrency.Synchronization.Spinlocks
