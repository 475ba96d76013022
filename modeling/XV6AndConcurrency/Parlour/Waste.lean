import XV6AndConcurrency.Parlour.Customers

/-!
# Rejected customers and the toppings

The order threads of a customer take their toppings each for itself.
-/

namespace XV6AndConcurrency.Parlour

open Foundations State

variable {inp : Input} {s s' : State} {o : IceCream} {t c : ℕ} {a : Move}

/-- A customer is sent away only before any of its ice creams is done, and an ice cream is
completed only while its customer is there and can be given all the others. -/
def wasteless (inp : Input) (s : State) : Move → Bool
  | .thread (.order o) =>
    match s.orderAt o with
    | .inside (.finish i) =>
      !s.available i || inp.short s.quantity o ||
        (!s.left o.1 && (List.range (inp.numIceCreams o.1)).all fun j =>
          inp.preparationTime (o.1, j) != -1)
    | .inside k =>
      !k.rejects || s.left o.1 ||
        (List.range (inp.numIceCreams o.1)).all fun j => !s.done (o.1, j)
    | _ => true
  | _ => true

/-- All threads have ended, as far as they were created. -/
structure State.Ended (inp : Input) (s : State) : Prop where
  machines : ∀ m < inp.N, s.machineAt m = .ended
  customers : ∀ t < inp.numCustomers, s.customerAt t = .ended
  orders : ∀ o, s.orderAt o = .idle ∨ s.orderAt o = .ended

/-- A customer with an ice cream that is done is there, or has collected. -/
structure Wasteless (inp : Input) (s : State) : Prop where
  customers : Customers inp s
  accounted : Accounted inp s
  spare : ∀ t, inp.numCustomers ≤ t → s.customerAt t = .serveTest
  stays : ∀ o, s.done o = true → s.collected o.1 = true ∨ s.left o.1 = false
  known : ∀ o, s.done o = true → ∀ j < inp.numIceCreams o.1, inp.preparationTime (o.1, j) ≠ -1

theorem exists_of_done (hI : Lifecycle inp s) (h : s.done o = true) : s.orderAt o ≠ .idle := by
  intro hidle
  have hK := hI.known o
  rw [hidle] at hK
  have : s.done o = false := hK.2
  rw [h] at this
  cases this

theorem spare_step (hI : ∀ t, inp.numCustomers ≤ t → s.customerAt t = .serveTest)
    (h : step inp s a = some s') (ht : inp.numCustomers ≤ t) : s'.customerAt t = .serveTest := by
  cases a with
  | tick d | main =>
    cases h
    exact hI t ht
  | thread th =>
    cases th with
    | machine m =>
      rw [(printMachine_frame (Option.ite_none_right_eq_some.mp h).2).customerAt]
      exact hI t ht
    | customer x =>
      obtain ⟨hx, hstep⟩ := Option.ite_none_right_eq_some.mp h
      rw [(serveCustomer_frame hstep).others t (by omega)]
      exact hI t ht
    | order o =>
      rw [(makeOrder_frame h).customerAt]
      exact hI t ht

/-- An order that is done was done before, or is completed for a customer that is there. -/
theorem makeOrder_stays (hok : wasteless inp s (.thread (.order o)) = true)
    (hI : Wasteless inp s) (h : s.makeOrder inp o = some s') (x : IceCream)
    (hx : s'.done x = true) :
    (s'.collected x.1 = true ∨ s'.left x.1 = false) ∧
      ∀ j < inp.numIceCreams x.1, inp.preparationTime (x.1, j) ≠ -1 := by
  have hf := makeOrder_frame h
  have hL := hI.customers.lifecycle
  have hcompleted : s.done x = true ∨ s.left x.1 = false ∧
      ∀ j < inp.numIceCreams x.1, inp.preparationTime (x.1, j) ≠ -1 := by
    cases makeOrder_toppingStep h with
    | keep _ _ hdone | use _ _ _ _ _ _ _ hdone => exact Or.inl (hdone ▸ hx)
    | complete i hat havailable hshort _ _ hdone =>
      rw [hdone, Function.update_apply] at hx
      split at hx
      case isTrue he =>
        subst he
        refine Or.inr ?_
        simpa [wasteless, hat, havailable, hshort] using hok
      case isFalse => exact Or.inl hx
  have hvalid : ∀ j < inp.numIceCreams x.1, inp.preparationTime (x.1, j) ≠ -1 := by
    obtain hd | ⟨-, hvalid⟩ := hcompleted
    · exact hI.known x hd
    · exact hvalid
  refine ⟨?_, hvalid⟩
  rw [hf.collected]
  cases makeOrder_leavingStep h with
  | keep hleft | leave _ hleft =>
    rw [hleft]
    obtain hd | ⟨hstayed, -⟩ := hcompleted
    · exact hI.stays x hd
    · exact Or.inr hstayed
  | reject k hat hk hstayed _ hdone hleft =>
    have hd : s.done x = true := hdone ▸ hx
    have hnone : ∀ j < inp.numIceCreams o.1, s.done (o.1, j) = false := by
      cases k <;> simp_all [wasteless, OrderSection.rejects]
    have hne : x.1 ≠ o.1 := by
      intro he
      have hmem := (hL.serving.created x (exists_of_done hL hd)).2.1
      have hj := (Input.mem_iceCreams.mp hmem).2
      rw [he] at hj
      have := hnone x.2 hj
      rw [← he, hd] at this
      cases this
    rw [hleft, Function.update_of_ne hne]
    exact hI.stays x hd

theorem serveCustomer_stays (hI : Wasteless inp s) (h : s.serveCustomer inp t = some s')
    (hd : s.done o = true) : s'.collected o.1 = true ∨ s'.left o.1 = false := by
  have hL := hI.customers.lifecycle
  have hold := hI.stays o hd
  cases serveCustomer_queueStep (hI.customers.knows t) h with
  | keep _ hleft _ hcollected | letIn _ _ hleft _ hcollected =>
    rw [hleft, hcollected]
    exact hold
  | refuse _ _ hleft hcollected =>
    have hserved := (hL.serving.created o (exists_of_done hL hd)).1
    rw [hleft, hcollected, Function.update_of_ne hserved.ne]
    exact hold
  | collect c _ _ hleft _ hcollected =>
    rw [hleft, hcollected]
    by_cases hc : o.1 = c
    · simp [hc]
    · simpa [hc] using hold

theorem Wasteless.step (hok : wasteless inp s a = true) (hI : Wasteless inp s)
    (h : step inp s a = some s') : Wasteless inp s' := by
  have hstays : ∀ o, s'.done o = true → (s'.collected o.1 = true ∨ s'.left o.1 = false) ∧
      ∀ j < inp.numIceCreams o.1, inp.preparationTime (o.1, j) ≠ -1 := by
    intro o hd
    cases a with
    | tick d | main =>
      cases h
      exact ⟨hI.stays o hd, hI.known o hd⟩
    | thread th =>
      cases th with
      | machine m =>
        have hf := printMachine_frame (Option.ite_none_right_eq_some.mp h).2
        rw [hf.done] at hd
        rw [hf.collected, hf.left]
        exact ⟨hI.stays o hd, hI.known o hd⟩
      | customer t =>
        have hstep := (Option.ite_none_right_eq_some.mp h).2
        rw [(serveCustomer_frame hstep).done] at hd
        exact ⟨serveCustomer_stays hI hstep hd, hI.known o hd⟩
      | order x => exact makeOrder_stays hok hI h o hd
  exact ⟨hI.customers.step h, hI.accounted.step h, fun t => spare_step hI.spare h,
    fun o hd => (hstays o hd).1, fun o hd => (hstays o hd).2⟩

/-- When all threads have ended, the ice creams that are done are those of the customers
that have collected. -/
theorem Wasteless.done_iff (hI : Wasteless inp s) (hend : s.Ended inp) (ho : o ∈ inp.iceCreams) :
    s.done o = true ↔ s.collected o.1 = true := by
  have hC := hI.customers
  constructor
  · intro hd
    obtain ⟨t, ht⟩ | hc | ⟨j, hj, hended, hnot⟩ := hC.fate o (exists_of_done hC.lifecycle hd)
    · exfalso
      by_cases hlt : t < inp.numCustomers
      · rw [hend.customers t hlt] at ht
        cases ht
      · rw [hI.spare t (not_lt.mp hlt)] at ht
        cases ht
    · exact hc
    · have hK := hC.lifecycle.known (o.1, j)
      rw [hended] at hK
      obtain hdone | hleft | hunknown := hK
      · rw [hnot] at hdone
        cases hdone
      · obtain hc | hstayed := hI.stays o hd
        · exact hc
        · rw [hstayed] at hleft
          cases hleft
      · exact absurd hunknown (hI.known o hd j hj)
  · intro hc
    exact (hC.collected o.1 hc).2.1 o.2 (Input.mem_iceCreams.mp ho).2

/-- As long as a customer is sent away only before any of its ice creams is done, and an ice
cream is completed only for a customer that is there and can be given all the others: a
customer that was reported as not serviced or as having left has used no topping, and at the
end the toppings used are those of the customers that have collected. -/
theorem rejected_waste_nothing (inp : Input) (s : State)
    (h : ReachOf (step inp) (fun s a => wasteless inp s a) (init inp) s) :
    (∀ c j t, s.reported c = true → s.used (c, j) t = 0) ∧
      (s.Ended inp → ∀ t, inp.quantity t - s.quantity t =
        (∑ o ∈ inp.iceCreams with s.collected o.1 = true, inp.uses o t : ℕ)) := by
  have hI : Wasteless inp s :=
    h.invariant (Wasteless inp) (fun _ _ _ hok hI hs => hI.step hok hs)
      ⟨customers_init inp, accounted_init inp, fun _ _ => rfl, nofun, nofun⟩
  have hL := hI.customers.lifecycle
  constructor
  · intro c j t hc
    obtain ⟨hleft, hcollected⟩ := hI.customers.reported c hc
    have hnot : s.done (c, j) = false := by
      by_contra hd
      obtain hcol | hstayed := hI.stays (c, j) (by simpa using hd)
      · rw [hcollected] at hcol
        cases hcol
      · rw [hstayed] at hleft
        cases hleft
    have hspent := hL.spent (c, j) t
    rw [hnot, if_neg Bool.false_ne_true] at hspent
    omega
  · intro hend t
    rw [hI.accounted.conserved t]
    have hsum : ∑ o ∈ inp.iceCreams, s.used o t =
        ∑ o ∈ inp.iceCreams with s.collected o.1 = true, inp.uses o t := by
      rw [Finset.sum_filter]
      apply Finset.sum_congr rfl
      intro o ho
      have hspent := hL.spent o t
      have hzero : (s.orderAt o).remaining inp o t = 0 := by
        obtain hat | hat := hend.orders o <;> rw [hat] <;> rfl
      rw [hzero, add_zero] at hspent
      rw [hspent]
      simp only [hI.done_iff hend ho]
    rw [hsum]
    omega

/-- One customer with two ice creams that take the same topping. -/
def sharedNuts (quantity : ℤ) : Input where
  K := 1
  machines := [⟨0, 10⟩]
  flavors := [⟨"vanilla", 1⟩]
  toppings := [⟨"nuts", quantity⟩]
  customers := [⟨0, [⟨"vanilla", ["nuts"]⟩, ⟨"vanilla", ["nuts"]⟩]⟩]

/-- The machine opens, the customer orders, the first ice cream is completed. -/
def firstCompleted : List Move :=
  stepsOf 5 (.machine 0) ++ stepsOf 12 (.customer 0) ++ [.tick 1] ++ stepsOf 17 (.order (0, 0)) ++
    [.tick 1] ++ stepsOf 8 (.order (0, 0))

/-- So is the second, the customer collects and the machine stops. -/
def bothCollected : List Move :=
  firstCompleted ++ stepsOf 17 (.order (0, 1)) ++ [.tick 1] ++ stepsOf 8 (.order (0, 1)) ++
    stepsOf 10 (.customer 0) ++ [.tick 10] ++ stepsOf 5 (.machine 0)

theorem rejected_waste_nothing_sharedNuts :
    ∃ s, ReachOf (step (sharedNuts 2)) (fun s a => wasteless (sharedNuts 2) s a)
      (init (sharedNuts 2)) s ∧ s.Ended (sharedNuts 2) ∧
      (sharedNuts 2).quantity 0 - s.quantity 0 =
        (∑ o ∈ (sharedNuts 2).iceCreams with s.collected o.1 = true,
          (sharedNuts 2).uses o 0 : ℕ) := by
  have hrun : (runAll
      (fun s a => if wasteless (sharedNuts 2) s a then step (sharedNuts 2) s a else none)
      (init (sharedNuts 2)) bothCollected).any (fun s =>
        s.machineAt 0 = .ended ∧ s.customerAt 0 = .ended ∧
          s.orderAt (0, 0) = .ended ∧ s.orderAt (0, 1) = .ended) = true := by
    decide +kernel
  obtain ⟨s, hs, hprop⟩ := (Option.any_eq_true _ _).mp hrun
  obtain ⟨hmachine, hcustomer, hfirst, hsecond⟩ := of_decide_eq_true hprop
  have hreach := reachOf_of_runAll hs
  have hsv : Serving (sharedNuts 2) s :=
    hreach.invariant (Serving (sharedNuts 2)) (fun _ _ _ _ hI hs => hI.step hs) (serving_init _)
  have hend : s.Ended (sharedNuts 2) := by
    refine ⟨fun m hm => ?_, fun t ht => ?_, fun o => ?_⟩
    · obtain rfl : m = 0 := Nat.lt_one_iff.mp hm
      exact hmachine
    · obtain rfl : t = 0 := Nat.lt_one_iff.mp ht
      exact hcustomer
    · by_contra hrunning
      have hmem := (hsv.created o fun h => hrunning (Or.inl h)).2.1
      have hall : ∀ o ∈ (sharedNuts 2).iceCreams, o = (0, 0) ∨ o = (0, 1) := by decide +kernel
      obtain rfl | rfl := hall o hmem
      · exact hrunning (Or.inr hfirst)
      · exact hrunning (Or.inr hsecond)
  exact ⟨s, hreach, hend, (rejected_waste_nothing (sharedNuts 2) s hreach).2 hend 0⟩

/-- With one portion, the customer leaves with an unfulfilled order after its first ice cream
has used up the nuts. -/
theorem rejected_after_use :
    ∃ s, Reach (step (sharedNuts 1)) (init (sharedNuts 1)) s ∧
      s.reported 0 = true ∧ s.used (0, 0) 0 = 1 := by
  have hrun : (runAll (step (sharedNuts 1)) (init (sharedNuts 1))
      (firstCompleted ++ stepsOf 8 (.order (0, 1)))).any (fun s =>
        s.reported 0 = true ∧ s.used (0, 0) 0 = 1) = true := by
    decide +kernel
  obtain ⟨s, hs, hprop⟩ := (Option.any_eq_true _ _).mp hrun
  exact ⟨s, reach_of_runAll hs, of_decide_eq_true hprop⟩

end XV6AndConcurrency.Parlour
