import XV6AndConcurrency.Parlour.Customers

/-!
# The capacity of the parlour

`curr_queue` counts the customers inside.
-/

namespace XV6AndConcurrency.Parlour

open Foundations State

variable {inp : Input} {s s' : State} {o : IceCream} {t c : ℕ} {a : Move}

/-- The customers that have been admitted and have not left. -/
def State.present (inp : Input) (s : State) : Finset ℕ :=
  (Finset.range inp.numCustomers).filter fun c => s.admitted c = true ∧ s.left c = false

/-- A customer is admitted while there is one left and a place is free, and no thread finds
at its entry that its customer has left. -/
def admitting (inp : Input) (s : State) : Move → Bool
  | .thread (.customer t) =>
    match s.customerAt t with
    | .inside .admission => decide (s.currQueue < inp.K) && decide (s.served < inp.numCustomers)
    | _ => true
  | .thread (.order o) =>
    match s.orderAt o with
    | .leftTest => !s.left o.1
    | _ => true
  | _ => true

/-- The thread is in the exit for customers that have left. -/
def OrderPlace.isLeaving : OrderPlace → Bool
  | .leftDone | .leftQueue => true
  | _ => false

theorem orderSection_isLeaving (k : OrderSection) :
    ((s.orderSection inp o k).orderAt o).isLeaving = false := by
  cases k with
  | stopScan i =>
    simp only [orderSection, goOrder, Function.update_self]
    split <;> rfl
  | begins i | finish i =>
    simp only [orderSection]
    split_ifs <;> simp [OrderPlace.isLeaving]
  | _ => simp [orderSection, OrderPlace.isLeaving]

theorem makeOrder_isLeaving (hok : admitting inp s (.thread (.order o)) = true)
    (hI : (s.orderAt o).isLeaving = false) (h : s.makeOrder inp o = some s') :
    (s'.orderAt o).isLeaving = false := by
  unfold State.makeOrder at h
  split at h
  case h_1 | h_2 => cases h
  case h_3 hat =>
    split at h
    all_goals cases h
    case isTrue => simp [OrderPlace.isLeaving]
    case isFalse => exact hI
  case h_4 hat =>
    cases h
    have hleft : s.left o.1 = false := by simpa [admitting, hat] using hok
    simp [hleft, OrderPlace.isLeaving]
  case h_5 | h_6 =>
    rename_i hat
    rw [hat] at hI
    cases hI
  case h_22 k hat =>
    cases h
    exact orderSection_isLeaving k
  all_goals
    try split at h
    all_goals cases h
    all_goals
      simp only [goOrder, Function.update_self]
      grind [OrderPlace.isLeaving]

/-- The counter is right, within its bounds, and nobody is in the exit that spoils it. -/
structure Counted (inp : Input) (s : State) : Prop where
  customers : Customers inp s
  staying : ∀ o, (s.orderAt o).isLeaving = false
  count : s.currQueue = (s.present inp).card
  bound : s.currQueue ≤ inp.K

theorem present_admit (hc : c < inp.numCustomers) (hnew : s.admitted c = false)
    (hleft : s.left c = false) (hadmitted : s'.admitted = Function.update s.admitted c true)
    (hsame : s'.left = s.left) : (s'.present inp).card = (s.present inp).card + 1 := by
  have hinsert : s'.present inp = insert c (s.present inp) := by
    ext x
    simp only [present, Finset.mem_filter, Finset.mem_range, Finset.mem_insert, hadmitted, hsame]
    by_cases hx : x = c
    · subst hx
      simp [hc, hleft]
    · simp [hx]
  rw [hinsert, Finset.card_insert_of_notMem]
  simp [present, hnew]

theorem present_leave (hc : c < inp.numCustomers) (hin : s.admitted c = true)
    (hleft : s.left c = false) (hadmitted : s'.admitted = s.admitted)
    (hnew : s'.left = Function.update s.left c true) :
    (s'.present inp).card + 1 = (s.present inp).card := by
  have hmem : c ∈ s.present inp := by simp [present, hc, hin, hleft]
  have herase : s'.present inp = (s.present inp).erase c := by
    ext x
    simp only [present, Finset.mem_filter, Finset.mem_range, Finset.mem_erase, hadmitted, hnew]
    by_cases hx : x = c
    · simp [hx]
    · simp [hx]
  rw [herase]
  exact Finset.card_erase_add_one hmem

theorem Counted.serveCustomer (hok : admitting inp s (.thread (.customer t)) = true)
    (hI : Counted inp s) (h : s.serveCustomer inp t = some s') :
    s'.currQueue = (s'.present inp).card ∧ s'.currQueue ≤ inp.K := by
  have hsv := hI.customers.lifecycle.serving
  have hcount := hI.count
  have hbound := hI.bound
  cases serveCustomer_queueStep (hI.customers.knows t) h with
  | keep hadmitted hleft hqueue _ =>
    have hsame : s'.present inp = s.present inp := by rw [present, present, hadmitted, hleft]
    rw [hsame, hqueue]
    exact ⟨hcount, hbound⟩
  | refuse hat hfull _ _ => omega
  | letIn hat hadmitted hleft hqueue _ =>
    obtain ⟨hroom, hserved⟩ : s.currQueue < inp.K ∧ s.served < inp.numCustomers := by
      simpa [admitting, hat] using hok
    have hstayed : s.left s.served = false := by
      by_contra hl
      exact absurd (hI.customers.left_served s.served (by simpa using hl)) (lt_irrefl _)
    have := present_admit hserved (hsv.unclaimed s.served le_rfl) hstayed hadmitted hleft
    omega
  | collect c hat hadmitted hleft hqueue _ =>
    have hserves : (s.customerAt t).serving = some c := by rw [hat]; rfl
    obtain ⟨-, hc, hin⟩ := hsv.claimed t c hserves
    have hstayed : s.left c = false := by
      by_contra hl
      obtain ⟨j, hj, hu⟩ := hI.customers.left_serving t c (by simpa using hl) hserves
      have hdone := hI.customers.knows t
      rw [hat] at hdone
      have := hdone j hj
      rw [hu.2] at this
      cases this
    have := present_leave hc hin hstayed hadmitted hleft
    omega

theorem Counted.makeOrder (hI : Counted inp s) (h : s.makeOrder inp o = some s') :
    s'.currQueue = (s'.present inp).card ∧ s'.currQueue ≤ inp.K := by
  have hf := makeOrder_frame h
  have hcount := hI.count
  have hbound := hI.bound
  cases makeOrder_leavingStep h with
  | keep hleft _ hqueue =>
    have hsame : s'.present inp = s.present inp := by rw [present, present, hf.admitted, hleft]
    rw [hsame, hqueue]
    exact ⟨hcount, hbound⟩
  | leave hat =>
    have := hI.staying o
    rw [hat] at this
    cases this
  | reject k hat _ hstayed _ _ hleft _ hqueue =>
    obtain ⟨-, hmem, hin⟩ :=
      hI.customers.lifecycle.serving.created o (by rw [hat]; nofun)
    have hc := (Input.mem_iceCreams.mp hmem).1
    have := present_leave hc hin hstayed hf.admitted hleft
    omega

theorem Counted.step (hok : admitting inp s a = true) (hI : Counted inp s)
    (h : step inp s a = some s') : Counted inp s' := by
  have hstaying : ∀ o, (s'.orderAt o).isLeaving = false := by
    intro o
    cases orderStep hI.customers.lifecycle.serving h o with
    | own hmove hown =>
      subst hmove
      exact makeOrder_isLeaving hok (hI.staying o) hown
    | create _ hat _ => rw [hat]; rfl
    | other hat _ => rw [hat]; exact hI.staying o
  have hcount : s'.currQueue = (s'.present inp).card ∧ s'.currQueue ≤ inp.K := by
    cases a with
    | tick d | main =>
      cases h
      exact ⟨hI.count, hI.bound⟩
    | thread th =>
      cases th with
      | machine m =>
        have hf := printMachine_frame (Option.ite_none_right_eq_some.mp h).2
        have hsame : s'.present inp = s.present inp := by
          rw [present, present, hf.admitted, hf.left]
        rw [hsame, hf.currQueue]
        exact ⟨hI.count, hI.bound⟩
      | customer t => exact hI.serveCustomer hok (Option.ite_none_right_eq_some.mp h).2
      | order o => exact hI.makeOrder h
  exact ⟨hI.customers.step h, hstaying, hcount.1, hcount.2⟩

/-- As long as customers are admitted only while there is one left and a place is free, and
no thread finds at its entry that its customer has left: `curr_queue` is the number of the
customers inside, and between 0 and `K`. -/
theorem capacity_respected (inp : Input) (hK : 0 ≤ inp.K) (s : State)
    (h : ReachOf (step inp) (fun s a => admitting inp s a) (init inp) s) :
    s.currQueue = (s.present inp).card ∧ 0 ≤ s.currQueue ∧ s.currQueue ≤ inp.K := by
  have hI : Counted inp s := by
    refine h.invariant (Counted inp) (fun _ _ _ hok hI hs => hI.step hok hs) ?_
    exact ⟨customers_init inp, fun _ => rfl, by simp [init, present], hK⟩
  have hcount := hI.count
  have hbound := hI.bound
  exact ⟨hcount, by omega, hbound⟩

/-- Two customers, and room for one. -/
def oneSeat : Input where
  K := 1
  machines := [⟨0, 10⟩]
  flavors := [⟨"vanilla", 1⟩]
  toppings := []
  customers := [⟨0, [⟨"vanilla", []⟩]⟩, ⟨0, [⟨"vanilla", []⟩]⟩]

/-- The first customer collects the order, and the second one comes in after that. -/
def oneAfterTheOther : List Move :=
  stepsOf 5 (.machine 0) ++ stepsOf 12 (.customer 0) ++ stepsOf 16 (.order (0, 0)) ++ [.tick 1] ++
    stepsOf 7 (.order (0, 0)) ++ stepsOf 6 (.customer 0) ++ stepsOf 3 (.customer 1)

theorem capacity_respected_oneSeat :
    ∃ s, ReachOf (step oneSeat) (fun s a => admitting oneSeat s a) (init oneSeat) s ∧
      s.collected 0 = true ∧ s.served = 2 ∧
      s.currQueue = (s.present oneSeat).card ∧ s.currQueue ≤ 1 := by
  have hrun : (runAll (fun s a => if admitting oneSeat s a then step oneSeat s a else none)
      (init oneSeat) oneAfterTheOther).any (fun s => s.collected 0 = true ∧ s.served = 2)
      = true := by
    decide +kernel
  obtain ⟨s, hs, hprop⟩ := (Option.any_eq_true _ _).mp hrun
  obtain ⟨hcollected, hserved⟩ := of_decide_eq_true hprop
  have hreach := reachOf_of_runAll hs
  obtain ⟨hcount, -, hbound⟩ := capacity_respected oneSeat (by decide) s hreach
  exact ⟨s, hreach, hcollected, hserved, hcount, hbound⟩

/-- `curr_queue > K` lets one customer more in. -/
theorem capacity_exceeded :
    ∃ s, Reach (step oneSeat) (init oneSeat) s ∧ s.currQueue = 2 ∧ oneSeat.K < s.currQueue := by
  have hrun : (runAll (step oneSeat) (init oneSeat)
      (stepsOf 3 (.customer 0) ++ stepsOf 3 (.customer 1))).any (fun s =>
        s.currQueue = 2 ∧ oneSeat.K < s.currQueue) = true := by
    decide +kernel
  obtain ⟨s, hs, hprop⟩ := (Option.any_eq_true _ _).mp hrun
  exact ⟨s, reach_of_runAll hs, of_decide_eq_true hprop⟩

end XV6AndConcurrency.Parlour
