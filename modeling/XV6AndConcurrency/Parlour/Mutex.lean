import XV6AndConcurrency.Parlour.Serving

/-!
# The mutex

The mutex is not recursive: a thread that locks it while it holds it waits for ever.
-/

namespace XV6AndConcurrency.Parlour

open Foundations State

variable {inp : Input} {s s' : State} {o : IceCream} {t m : ℕ} {a : Move}

def OrderPlace.isInside : OrderPlace → Bool
  | .inside _ => true
  | _ => false

def CustomerPlace.isInside : CustomerPlace → Bool
  | .inside _ => true
  | _ => false

def MachinePlace.isInside : MachinePlace → Bool
  | .inside _ => true
  | _ => false

namespace State

/-- The thread is about to execute `pthread_mutex_lock(&mutex)`. -/
def AtLock (s : State) : Thread → Prop
  | .machine m => ∃ k, s.machineAt m = .lock k
  | .customer t => ∃ k, s.customerAt t = .lock k
  | .order o => ∃ k, s.orderAt o = .lock k

/-- The thread is in the body of a section. -/
def inSection (s : State) : Thread → Bool
  | .machine m => (s.machineAt m).isInside
  | .customer t => (s.customerAt t).isInside
  | .order o => (s.orderAt o).isInside

theorem inSection_goOrder (s : State) (o : IceCream) (p : OrderPlace) :
    (s.goOrder o p).inSection = Function.update s.inSection (.order o) p.isInside := by
  funext th
  cases th with
  | machine m | customer t => simp [inSection]
  | order x => by_cases hx : x = o <;> simp [inSection, hx]

theorem inSection_goCustomer (s : State) (t : ℕ) (p : CustomerPlace) :
    (s.goCustomer t p).inSection = Function.update s.inSection (.customer t) p.isInside := by
  funext th
  cases th with
  | machine m | order o => simp [inSection]
  | customer x => by_cases hx : x = t <;> simp [inSection, hx]

theorem inSection_goMachine (s : State) (m : ℕ) (p : MachinePlace) :
    (s.goMachine m p).inSection = Function.update s.inSection (.machine m) p.isInside := by
  funext th
  cases th with
  | customer t | order o => simp [inSection]
  | machine x => by_cases hx : x = m <;> simp [inSection, hx]

end State

/-- What a step of a thread does with the mutex. -/
inductive Handling (s s' : State) (th : Thread) : Prop
  | keep (hout : s.inSection th = false) (hmutex : s'.mutex = s.mutex)
      (hin : s'.inSection = s.inSection)
  | take (hfree : s.mutex = none) (hmutex : s'.mutex = some th)
      (hin : s'.inSection = Function.update s.inSection th true)
  | give (hwas : s.inSection th = true) (hmutex : s'.mutex = none)
      (hin : s'.inSection = Function.update s.inSection th false)

/-- No section of the step finds a listed topping used up behind the selection of a machine. -/
def supplied (inp : Input) (s : State) : Move → Bool
  | .thread (.order o) =>
    match s.orderAt o with
    | .inside (.begins _) => !inp.short s.quantity o
    | .inside (.finish i) => !s.available i || !inp.short s.quantity o
    | _ => true
  | _ => true

section Statements

variable {x : State}

theorem Handling.keepOrder {p : OrderPlace} (hout : (s.orderAt o).isInside = false)
    (hp : p.isInside = false) (hmutex : x.mutex = s.mutex) (hin : x.inSection = s.inSection) :
    Handling s (x.goOrder o p) (.order o) := by
  refine .keep hout hmutex ?_
  rw [inSection_goOrder, hin, hp]
  exact Function.update_eq_iff.mpr ⟨hout.symm, fun _ _ => rfl⟩

theorem Handling.giveOrder {p : OrderPlace} (hwas : (s.orderAt o).isInside = true)
    (hp : p.isInside = false) (hin : x.inSection = s.inSection) :
    Handling s (x.unlock.goOrder o p) (.order o) := by
  refine .give hwas rfl ?_
  rw [inSection_goOrder, hp]
  exact congrArg (Function.update · (Thread.order o) false) hin

theorem Handling.keepCustomer {p : CustomerPlace} (hout : (s.customerAt t).isInside = false)
    (hp : p.isInside = false) (hmutex : x.mutex = s.mutex) (hin : x.inSection = s.inSection) :
    Handling s (x.goCustomer t p) (.customer t) := by
  refine .keep hout hmutex ?_
  rw [inSection_goCustomer, hin, hp]
  exact Function.update_eq_iff.mpr ⟨hout.symm, fun _ _ => rfl⟩

theorem Handling.giveCustomer {p : CustomerPlace} (hwas : (s.customerAt t).isInside = true)
    (hp : p.isInside = false) (hin : x.inSection = s.inSection) :
    Handling s (x.unlock.goCustomer t p) (.customer t) := by
  refine .give hwas rfl ?_
  rw [inSection_goCustomer, hp]
  exact congrArg (Function.update · (Thread.customer t) false) hin

theorem Handling.keepMachine {p : MachinePlace} (hout : (s.machineAt m).isInside = false)
    (hp : p.isInside = false) (hmutex : x.mutex = s.mutex) (hin : x.inSection = s.inSection) :
    Handling s (x.goMachine m p) (.machine m) := by
  refine .keep hout hmutex ?_
  rw [inSection_goMachine, hin, hp]
  exact Function.update_eq_iff.mpr ⟨hout.symm, fun _ _ => rfl⟩

theorem Handling.giveMachine {p : MachinePlace} (hwas : (s.machineAt m).isInside = true)
    (hp : p.isInside = false) (hin : x.inSection = s.inSection) :
    Handling s (x.unlock.goMachine m p) (.machine m) := by
  refine .give hwas rfl ?_
  rw [inSection_goMachine, hp]
  exact congrArg (Function.update · (Thread.machine m) false) hin

end Statements

theorem makeOrder_handling (hok : supplied inp s (.thread (.order o)) = true)
    (h : s.makeOrder inp o = some s') : Handling s s' (.order o) := by
  unfold State.makeOrder at h
  split at h
  case h_1 | h_2 => cases h
  case h_3 hat =>
    have hout : (s.orderAt o).isInside = false := by rw [hat]; rfl
    split at h
    all_goals cases h
    case isTrue => exact .keepOrder hout rfl rfl rfl
    case isFalse => exact .keep hout rfl rfl
  case h_21 k hat =>
    split at h
    all_goals cases h
    case isTrue hfree => exact .take hfree rfl (inSection_goOrder _ _ _)
  case h_22 k hat =>
    cases h
    have hwas : (s.orderAt o).isInside = true := by rw [hat]; rfl
    simp only [supplied, hat] at hok
    cases k with
    | stopScan i =>
      refine .giveOrder hwas ?_ rfl
      split <;> rfl
    | closing | unserviced | shortage | beginShortage i | finishShortage i =>
      simp only [orderSection, shortageWith, sendAway_eq]
      exact .giveOrder hwas rfl rfl
    | machineScan i count | timing i count => exact .giveOrder hwas rfl rfl
    | begins i =>
      have hsupplied : inp.short s.quantity o = false := by simpa using hok
      simp only [orderSection, hsupplied, Bool.false_eq_true, if_false]
      exact .giveOrder hwas rfl rfl
    | finish i =>
      by_cases havailable : s.available i = false
      · simp only [orderSection, havailable, if_true]
        exact .giveOrder hwas rfl rfl
      · have hsupplied : inp.short s.quantity o = false := by
          simpa [havailable] using hok
        simp only [orderSection, havailable, hsupplied, Bool.false_eq_true, if_false]
        exact .giveOrder hwas rfl rfl
  all_goals
    rename_i hat
    have hout : (s.orderAt o).isInside = false := by rw [hat]; rfl
    try split at h
    all_goals cases h
    all_goals
      refine .keepOrder hout ?_ rfl rfl
      grind [OrderPlace.isInside]

theorem serveCustomer_handling (hI : Serving inp s) (h : s.serveCustomer inp t = some s') :
    Handling s s' (.customer t) := by
  unfold State.serveCustomer at h
  split at h
  case h_1 => cases h
  case h_9 c i hat =>
    have hout : (s.customerAt t).isInside = false := by rw [hat]; rfl
    split at h
    all_goals cases h
    case isTrue =>
      refine .keepCustomer hout rfl rfl ?_
      rw [inSection_goOrder]
      refine Function.update_eq_iff.mpr ⟨?_, fun _ _ => rfl⟩
      simp only [inSection, hI.fresh t c i (by rw [hat]; rfl) i le_rfl]
      rfl
    case isFalse => exact .keepCustomer hout rfl rfl rfl
  case h_12 k hat =>
    split at h
    all_goals cases h
    case isTrue hfree => exact .take hfree rfl (inSection_goCustomer _ _ _)
  case h_13 k hat =>
    cases h
    have hwas : (s.customerAt t).isInside = true := by rw [hat]; rfl
    cases k with
    | admission =>
      simp only [customerSection]
      split
      all_goals
        refine .giveCustomer hwas ?_ rfl
        grind [CustomerPlace.isInside]
    | arrival c | enter c | collection c => exact .giveCustomer hwas rfl rfl
  all_goals
    rename_i hat
    have hout : (s.customerAt t).isInside = false := by rw [hat]; rfl
    try split at h
    try split at h
    all_goals cases h
    all_goals
      refine .keepCustomer hout ?_ rfl rfl
      grind [CustomerPlace.isInside]

theorem printMachine_handling (h : s.printMachine inp m = some s') :
    Handling s s' (.machine m) := by
  unfold State.printMachine at h
  split at h
  case h_1 => cases h
  case h_8 k hat =>
    split at h
    all_goals cases h
    case isTrue hfree => exact .take hfree rfl (inSection_goMachine _ _ _)
  case h_9 hat | h_10 hat =>
    cases h
    exact .giveMachine (by rw [hat]; rfl) rfl rfl
  all_goals
    rename_i hat
    have hout : (s.machineAt m).isInside = false := by rw [hat]; rfl
    try split at h
    all_goals cases h
    all_goals
      refine .keepMachine hout ?_ rfl rfl
      grind [MachinePlace.isInside]

/-- The mutex is held by the thread that is in the body of a section. -/
structure Held (inp : Input) (s : State) : Prop where
  serving : Serving inp s
  holder : ∀ th, s.mutex = some th ↔ s.inSection th = true

theorem Handling.holder {th : Thread} (hI : ∀ th, s.mutex = some th ↔ s.inSection th = true)
    (h : Handling s s' th) (th' : Thread) : s'.mutex = some th' ↔ s'.inSection th' = true := by
  have hold := hI th'
  cases h with
  | keep _ hmutex hin => rw [hmutex, hin, hold]
  | take hfree hmutex hin =>
    rw [hfree] at hold
    rw [hmutex, hin, Function.update_apply]
    grind
  | give hwas hmutex hin =>
    have hth := (hI th).mpr hwas
    rw [hmutex, hin, Function.update_apply]
    grind

theorem Held.step (hok : supplied inp s a = true) (hI : Held inp s) (h : step inp s a = some s') :
    Held inp s' := by
  refine ⟨hI.serving.step h, ?_⟩
  cases a with
  | tick d | main =>
    cases h
    exact hI.holder
  | thread th =>
    cases th with
    | machine m =>
      exact (printMachine_handling (Option.ite_none_right_eq_some.mp h).2).holder hI.holder
    | customer t =>
      have hstep := (Option.ite_none_right_eq_some.mp h).2
      exact (serveCustomer_handling hI.serving hstep).holder hI.holder
    | order o => exact (makeOrder_handling hok h).holder hI.holder

theorem not_atLock_of_inSection {th : Thread} (h : s.inSection th = true) : ¬ s.AtLock th := by
  cases th with
  | machine m | customer t | order o =>
    rintro ⟨k, hk⟩
    simp only [inSection, hk] at h
    cases h

/-- As long as every order finds its toppings behind the selection of a machine, no thread
locks the mutex while it holds it, and whoever waits for the mutex waits for a thread that
does not. -/
theorem mutex_never_taken_twice (inp : Input) (s : State)
    (h : ReachOf (step inp) (fun s a => supplied inp s a) (init inp) s) (th : Thread) :
    s.AtLock th → s.mutex ≠ some th ∧ ∀ holder, s.mutex = some holder → ¬ s.AtLock holder := by
  have hI : Held inp s := by
    refine h.invariant (Held inp) (fun _ _ _ hok hI hs => hI.step hok hs) ⟨serving_init inp, ?_⟩
    intro th
    cases th <;> simp [init, inSection, MachinePlace.isInside, CustomerPlace.isInside,
      OrderPlace.isInside]
  intro hlock
  constructor
  · intro hmutex
    exact not_atLock_of_inSection ((hI.holder th).mp hmutex) hlock
  · intro holder hmutex
    exact not_atLock_of_inSection ((hI.holder holder).mp hmutex)

/-- Two machines, and one customer whose two ice creams share the last portion of nuts. -/
def lastPortion : Input where
  K := 1
  machines := [⟨0, 10⟩, ⟨0, 10⟩]
  flavors := [⟨"vanilla", 1⟩]
  toppings := [⟨"nuts", 1⟩]
  customers := [⟨0, [⟨"vanilla", ["nuts"]⟩, ⟨"vanilla", ["nuts"]⟩]⟩]

/-- Both orders are given a machine; the first is completed before the second begins. -/
def secondTooLate : List Move :=
  stepsOf 5 (.machine 0) ++ stepsOf 5 (.machine 1) ++ stepsOf 12 (.customer 0) ++
    [.tick 1] ++ stepsOf 17 (.order (0, 0)) ++ stepsOf 20 (.order (0, 1)) ++
    [.tick 1] ++ stepsOf 6 (.order (0, 0))

theorem mutex_never_taken_twice_lastPortion :
    ∃ s, ReachOf (step lastPortion) (fun s a => supplied lastPortion s a) (init lastPortion) s ∧
      s.AtLock (.order (0, 1)) ∧ s.mutex ≠ some (.order (0, 1)) := by
  have hrun : (runAll
      (fun s a => if supplied lastPortion s a then step lastPortion s a else none)
      (init lastPortion) secondTooLate).any (fun s => s.orderAt (0, 1) = .lock (.begins 1))
      = true := by
    decide +kernel
  obtain ⟨s, hs, hprop⟩ := (Option.any_eq_true _ _).mp hrun
  have hreach := reachOf_of_runAll hs
  have hlock : s.AtLock (.order (0, 1)) := ⟨_, of_decide_eq_true hprop⟩
  exact ⟨s, hreach, hlock, (mutex_never_taken_twice lastPortion s hreach _ hlock).1⟩

/-- The second order finds the nuts used up when it begins, and locks the mutex again. -/
theorem mutex_taken_twice :
    ∃ s, Reach (step lastPortion) (init lastPortion) s ∧
      s.AtLock (.order (0, 1)) ∧ s.mutex = some (.order (0, 1)) := by
  have hrun : (runAll (step lastPortion) (init lastPortion)
      (secondTooLate ++ stepsOf 2 (.order (0, 1)))).any (fun s =>
        s.orderAt (0, 1) = .lock (.beginShortage 1) ∧ s.mutex = some (.order (0, 1))) = true := by
    decide +kernel
  obtain ⟨s, hs, hprop⟩ := (Option.any_eq_true _ _).mp hrun
  obtain ⟨hat, hmutex⟩ := of_decide_eq_true hprop
  exact ⟨s, reach_of_runAll hs, ⟨_, hat⟩, hmutex⟩

end XV6AndConcurrency.Parlour
