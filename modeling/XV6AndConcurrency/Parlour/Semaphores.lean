import XV6AndConcurrency.Foundations.BinarySemaphores
import XV6AndConcurrency.Parlour.Serving

/-!
# The machine semaphores

An order has a machine from its successful `sem_trywait` to its `sem_post`.
-/

namespace XV6AndConcurrency.Parlour

open Foundations State

variable {inp : Input} {s s' : State} {o : IceCream} {i : ℕ} {a : Move}

/-- The machine that the thread has. -/
def OrderPlace.machine : OrderPlace → Option ℕ
  | .lock (.timing i _) | .inside (.timing i _) | .selectTest i _ _ | .giveBack i _
  | .lock (.begins i) | .inside (.begins i)
  | .lock (.beginShortage i) | .inside (.beginShortage i)
  | .prepare i _ | .stopPost i _ | .stopClear i _
  | .lock (.finish i) | .inside (.finish i)
  | .lock (.finishShortage i) | .inside (.finishShortage i)
  | .consume i _ | .post i => some i
  | _ => none

/-- The place of a thread whose machine stopped during the preparation. -/
def OrderPlace.isStopped : OrderPlace → Bool
  | .stopPost _ _ | .stopClear _ _ => true
  | _ => false

/-- The preparation does not find its machine stopped, and a selection has counted a machine. -/
def steady (inp : Input) (s : State) : Move → Bool
  | .thread (.order o) =>
    match s.orderAt o with
    | .prepare i k => !decide ((k : ℤ) < inp.preparationTime o) || s.available i
    | .selectTest i count totalPrep =>
      !s.available i || decide (inp.endTime i ≤ totalPrep) || count
    | _ => true
  | _ => true

/-- What a step of an order does with the semaphores. -/
inductive SemStep (s s' : State) (o : IceCream) : Prop
  | keep (hsem : s'.sem = s.sem) (hwaits : s'.waits = s.waits) (hposts : s'.posts = s.posts)
      (hmachine : (s'.orderAt o).machine = (s.orderAt o).machine)
  | acquire (i : ℕ) (hpos : 0 < s.sem i) (hsem : s'.sem = drop s.sem i)
      (hwaits : s'.waits = bump s.waits i) (hposts : s'.posts = s.posts)
      (hnone : (s.orderAt o).machine = none) (hmachine : (s'.orderAt o).machine = some i)
  | release (i : ℕ) (hsem : s'.sem = bump s.sem i) (hwaits : s'.waits = s.waits)
      (hposts : s'.posts = bump s.posts i) (hhad : (s.orderAt o).machine = some i)
      (hmachine : (s'.orderAt o).machine = none)

theorem orderSection_semStep {k : OrderSection} (hat : s.orderAt o = .inside k) :
    SemStep s (s.orderSection inp o k) o := by
  cases k with
  | stopScan i =>
    refine .keep rfl rfl rfl ?_
    simp only [orderSection, goOrder, Function.update_self, hat]
    split <;> rfl
  | closing | unserviced | shortage =>
    simp only [orderSection, sendAway_eq]
    refine .keep rfl rfl rfl ?_
    simp [hat, OrderPlace.machine]
  | machineScan i count | timing i count =>
    refine .keep rfl rfl rfl ?_
    simp [orderSection, hat, OrderPlace.machine]
  | begins i =>
    simp only [orderSection]
    split
    all_goals
      refine .keep rfl rfl rfl ?_
      simp [hat, OrderPlace.machine]
  | finish i =>
    simp only [orderSection]
    split_ifs
    · refine .release i rfl rfl rfl (by rw [hat]; rfl) ?_
      simp [OrderPlace.machine]
    all_goals
      refine .keep rfl rfl rfl ?_
      simp [hat, OrderPlace.machine]
  | beginShortage i | finishShortage i =>
    simp only [orderSection, shortageWith, sendAway_eq]
    refine .release i rfl rfl rfl (by rw [hat]; rfl) ?_
    simp [OrderPlace.machine]

theorem makeOrder_semStep (hok : steady inp s (.thread (.order o)) = true)
    (hI : (s.orderAt o).isStopped = false) (h : s.makeOrder inp o = some s') :
    SemStep s s' o := by
  unfold State.makeOrder at h
  split at h
  case h_1 | h_2 => cases h
  case h_3 hat =>
    split at h
    all_goals cases h
    case isTrue =>
      refine .keep rfl rfl rfl ?_
      simp [hat, OrderPlace.machine]
    case isFalse => exact .keep rfl rfl rfl rfl
  case h_13 i count hat =>
    split at h
    all_goals cases h
    case isTrue hpos =>
      exact .acquire i hpos rfl rfl rfl (by rw [hat]; rfl) (by simp [OrderPlace.machine])
    case isFalse =>
      refine .keep rfl rfl rfl ?_
      simp [hat, OrderPlace.machine]
  case h_14 i count totalPrep hat =>
    cases h
    refine .keep rfl rfl rfl ?_
    simp only [steady, hat] at hok
    simp only [goOrder, Function.update_self, hat]
    split_ifs <;> grind [OrderPlace.machine]
  case h_15 i count hat =>
    cases h
    exact .release i rfl rfl rfl (by rw [hat]; rfl) (by simp [OrderPlace.machine])
  case h_17 | h_18 =>
    rename_i hat
    rw [hat] at hI
    cases hI
  case h_20 i hat =>
    cases h
    exact .release i rfl rfl rfl (by rw [hat]; rfl) (by simp [OrderPlace.machine])
  case h_21 k hat =>
    split at h
    all_goals cases h
    refine .keep rfl rfl rfl ?_
    simp only [goOrder, Function.update_self, hat]
    cases k <;> rfl
  case h_22 k hat =>
    cases h
    exact orderSection_semStep hat
  case h_16 i k hat =>
    cases h
    refine .keep rfl rfl rfl ?_
    simp only [goOrder, Function.update_self, hat]
    grind [OrderPlace.machine]
  all_goals
    rename_i hat
    try split at h
    all_goals cases h
    all_goals
      refine .keep rfl rfl rfl ?_
      simp only [goOrder, Function.update_self, hat]
      grind [OrderPlace.machine]

theorem orderSection_isStopped (k : OrderSection) :
    ((s.orderSection inp o k).orderAt o).isStopped = false := by
  cases k with
  | stopScan i =>
    simp only [orderSection, goOrder, Function.update_self]
    split <;> rfl
  | begins i | finish i =>
    simp only [orderSection]
    split_ifs <;> simp [OrderPlace.isStopped]
  | _ => simp [orderSection, OrderPlace.isStopped]

theorem makeOrder_isStopped (hok : steady inp s (.thread (.order o)) = true)
    (hI : (s.orderAt o).isStopped = false) (h : s.makeOrder inp o = some s') :
    (s'.orderAt o).isStopped = false := by
  unfold State.makeOrder at h
  split at h
  case h_1 | h_2 => cases h
  case h_3 hat =>
    split at h
    all_goals cases h
    case isTrue => simp [OrderPlace.isStopped]
    case isFalse => exact hI
  case h_16 i k hat =>
    cases h
    simp only [steady, hat] at hok
    simp only [goOrder, Function.update_self]
    split_ifs with hk havailable
    · simp [hk, havailable] at hok
    · rfl
    · rfl
  case h_17 | h_18 =>
    rename_i hat
    rw [hat] at hI
    cases hI
  case h_22 k hat =>
    cases h
    exact orderSection_isStopped k
  all_goals
    try split at h
    all_goals cases h
    all_goals
      simp only [goOrder, Function.update_self]
      grind [OrderPlace.isStopped]

theorem SemStep.operation (h : SemStep s s' o) :
    Operation s.sem s'.sem (fun x => (s.orderAt x).machine)
      (fun x => (s'.orderAt x).machine) o := by
  cases h with
  | keep hsem _ _ hmachine => exact .keep hsem hmachine
  | acquire i hpos hsem _ _ hnone hmachine => exact .wait i hpos hsem hnone hmachine
  | release i hsem _ _ hhad hmachine => exact .post i hsem hhad hmachine

/-- Every post gives back what one wait has taken. -/
theorem SemStep.balance (hI : s.sem i + s.waits i = s.posts i + 1) (h : SemStep s s' o) :
    s'.sem i + s'.waits i = s'.posts i + 1 := by
  cases h with
  | keep hsem hwaits hposts _ => rw [hsem, hwaits, hposts, hI]
  | acquire j hpos hsem hwaits hposts _ _ =>
    rw [hsem, hwaits, hposts, drop_apply, bump_apply]
    split
    case isTrue hj =>
      subst hj
      omega
    case isFalse => omega
  | release j hsem hwaits hposts _ _ =>
    rw [hsem, hwaits, hposts, bump_apply, bump_apply]
    omega

/-- Every machine is balanced and no preparation has found its machine stopped. -/
structure Balanced (inp : Input) (s : State) : Prop where
  serving : Serving inp s
  working : ∀ o, (s.orderAt o).isStopped = false
  guarded : ∀ i, Guarded s.sem (fun o => (s.orderAt o).machine) i
  balance : ∀ i, s.sem i + s.waits i = s.posts i + 1

theorem Balanced.step (hok : steady inp s a = true) (hI : Balanced inp s)
    (h : step inp s a = some s') : Balanced inp s' := by
  have hworking : ∀ o, (s'.orderAt o).isStopped = false := by
    intro o
    cases orderStep hI.serving h o with
    | own hmove hown =>
      subst hmove
      exact makeOrder_isStopped hok (hI.working o) hown
    | create _ hat _ => rw [hat]; rfl
    | other hat _ => rw [hat]; exact hI.working o
  have hguarded : ∀ i, Guarded s'.sem (fun o => (s'.orderAt o).machine) i ∧
      s'.sem i + s'.waits i = s'.posts i + 1 := by
    intro i
    have hg := hI.guarded i
    have hb := hI.balance i
    cases a with
    | tick d | main =>
      cases h
      exact ⟨hg, hb⟩
    | thread th =>
      cases th with
      | machine m =>
        have hf := printMachine_frame (Option.ite_none_right_eq_some.mp h).2
        rw [hf.sem, hf.waits, hf.posts, hf.orderAt]
        exact ⟨hg, hb⟩
      | customer t =>
        have hstep := (Option.ite_none_right_eq_some.mp h).2
        have hf := serveCustomer_frame hstep
        rw [hf.sem, hf.waits, hf.posts]
        refine ⟨hg.of_same rfl fun x => ?_, hb⟩
        obtain hat | ⟨hidle, hat⟩ := serveCustomer_orderAt hI.serving hstep x
        · rw [hat]
        · simp [hidle, hat, OrderPlace.machine]
      | order o =>
        have hsem := makeOrder_semStep hok (hI.working o) h
        refine ⟨hg.operate (x := o) (fun x hx => ?_) hsem.operation, hsem.balance hb⟩
        rw [(makeOrder_frame h).others x hx]
  exact ⟨hI.serving.step h, hworking, fun i => (hguarded i).1, fun i => (hguarded i).2⟩

/-- As long as no preparation finds its machine stopped, and machines are selected only
where one has been counted: the semaphore of every machine is 0 or 1, it is 0 while exactly
one order has the machine, and then one `sem_post` is missing; otherwise every
`sem_trywait` has been undone. -/
theorem machine_semaphores_binary (inp : Input) (s : State)
    (h : ReachOf (step inp) (fun s a => steady inp s a) (init inp) s) (i : ℕ) :
    s.posts i ≤ s.waits i ∧ (s.sem i = 0 ∨ s.sem i = 1) ∧
      (s.sem i = 0 ↔ ∃ o, (s.orderAt o).machine = some i) ∧
      (∀ o o', (s.orderAt o).machine = some i → (s.orderAt o').machine = some i → o = o') ∧
      s.waits i = s.posts i + (1 - s.sem i) := by
  have hI : Balanced inp s := by
    refine h.invariant (Balanced inp) (fun _ _ _ hok hI hs => hI.step hok hs)
      ⟨serving_init inp, fun _ => rfl, fun i => ?_, fun _ => rfl⟩
    exact Or.inl ⟨rfl, nofun⟩
  have hg := hI.guarded i
  have hb := hI.balance i
  have hbinary := hg.binary
  exact ⟨by omega, hbinary, hg.eq_zero_iff, fun o o' ho ho' => hg.exclusive ho ho', by omega⟩

/-- A machine that works until second 4, and an ice cream that takes two seconds. -/
def shortDay : Input where
  K := 1
  machines := [⟨0, 4⟩]
  flavors := [⟨"vanilla", 2⟩]
  toppings := []
  customers := [⟨0, [⟨"vanilla", []⟩]⟩]

/-- The machine is selected at second 1 and has worked for one round. -/
def halfPrepared : List Move :=
  stepsOf 5 (.machine 0) ++ stepsOf 11 (.customer 0) ++ [.tick 1] ++ stepsOf 17 (.order (0, 0))

theorem machine_semaphores_binary_shortDay :
    ∃ s, ReachOf (step shortDay) (fun s a => steady shortDay s a) (init shortDay) s ∧
      s.sem 0 = 0 ∧ s.waits 0 = s.posts 0 + 1 := by
  have hrun : (runAll (fun s a => if steady shortDay s a then step shortDay s a else none)
      (init shortDay) halfPrepared).any (fun s => s.orderAt (0, 0) = .prepare 0 1) = true := by
    decide +kernel
  obtain ⟨s, hs, hprop⟩ := (Option.any_eq_true _ _).mp hrun
  have hreach := reachOf_of_runAll hs
  have hat := of_decide_eq_true hprop
  obtain ⟨-, -, hzero, -, hwaits⟩ := machine_semaphores_binary shortDay s hreach 0
  have hsem := hzero.mpr ⟨(0, 0), by rw [hat]; rfl⟩
  refine ⟨s, hreach, hsem, ?_⟩
  rw [hwaits, hsem]

/-- The second round takes three seconds: the machine stops, the loop gives it back, and so
does the section behind the loop. -/
theorem machine_given_back_twice :
    ∃ s, Reach (step shortDay) (init shortDay) s ∧ s.sem 0 = 2 ∧ s.waits 0 < s.posts 0 := by
  have hrun : (runAll (step shortDay) (init shortDay)
      (halfPrepared ++ [.tick 3] ++ stepsOf 4 (.machine 0) ++ stepsOf 6 (.order (0, 0)))).any
        (fun s => s.sem 0 = 2 ∧ s.waits 0 < s.posts 0) = true := by
    decide +kernel
  obtain ⟨s, hs, hprop⟩ := (Option.any_eq_true _ _).mp hrun
  exact ⟨s, reach_of_runAll hs, of_decide_eq_true hprop⟩

end XV6AndConcurrency.Parlour
