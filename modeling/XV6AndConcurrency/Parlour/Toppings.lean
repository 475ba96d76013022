import XV6AndConcurrency.Foundations.PointSums
import XV6AndConcurrency.Parlour.Serving

/-!
# The toppings

A completed order takes its toppings one by one, outside the mutex.
-/

namespace XV6AndConcurrency.Parlour

open Foundations State

variable {inp : Input} {s s' : State} {o : IceCream} {t : ℕ} {a : Move}

/-- How often a thread at a place has still to take a topping. -/
def OrderPlace.remaining (inp : Input) (o : IceCream) (t : ℕ) : OrderPlace → ℕ
  | .consume _ k => ((inp.listed o).drop k).count (some t)
  | _ => 0

/-- How often the completed orders have still to take a topping. -/
def pending (inp : Input) (s : State) (t : ℕ) : ℕ :=
  ∑ o ∈ inp.iceCreams, (s.orderAt o).remaining inp o t

/-- An order is completed only where, besides what the orders completed before have still
to take, there is enough of every topping for it. -/
def covered (inp : Input) (s : State) : Move → Bool
  | .thread (.order o) =>
    match s.orderAt o with
    | .inside (.finish i) =>
      !s.available i || inp.short s.quantity o ||
        (List.range inp.toppings.length).all fun t =>
          decide ((inp.uses o t + pending inp s t : ℕ) ≤ s.quantity t)
    | _ => true
  | _ => true

theorem uses_eq_zero (ht : inp.toppings.length ≤ t) : inp.uses o t = 0 := by
  refine List.count_eq_zero.mpr fun hmem => ?_
  obtain ⟨name, -, hfind⟩ := List.mem_map.mp hmem
  obtain ⟨hlt, -⟩ := List.findIdx?_eq_some_iff_getElem.mp hfind
  omega

theorem count_drop {k : ℕ} {x : Option ℕ} (h : (inp.listed o)[k]? = some x) (t : ℕ) :
    ((inp.listed o).drop k).count (some t) =
      ((inp.listed o).drop (k + 1)).count (some t) + if x = some t then 1 else 0 := by
  rw [List.drop_eq_getElem?_toList_append, h]
  simp [List.count_cons, add_comm]

/-- What a step of an order does with the toppings. -/
inductive ToppingStep (inp : Input) (s s' : State) (o : IceCream) : Prop
  | keep (hquantity : s'.quantity = s.quantity) (hused : s'.used = s.used)
      (hdone : s'.done = s.done)
      (hremaining : ∀ t, (s'.orderAt o).remaining inp o t = (s.orderAt o).remaining inp o t)
  | complete (i : ℕ) (hat : s.orderAt o = .inside (.finish i)) (havailable : s.available i = true)
      (hshort : inp.short s.quantity o = false) (hquantity : s'.quantity = s.quantity)
      (hused : s'.used = s.used) (hdone : s'.done = Function.update s.done o true)
      (hafter : s'.orderAt o = .consume i 0)
  | use (i k t : ℕ) (hat : s.orderAt o = .consume i k) (ht : (inp.listed o)[k]? = some (some t))
      (hquantity : s'.quantity = Function.update s.quantity t (s.quantity t - 1))
      (hused : s'.used = Function.update s.used o (bump (s.used o) t)) (hdone : s'.done = s.done)
      (hafter : s'.orderAt o = .consume i (k + 1))

theorem orderSection_toppingStep {k : OrderSection} (hat : s.orderAt o = .inside k) :
    ToppingStep inp s (s.orderSection inp o k) o := by
  cases k with
  | stopScan i =>
    refine .keep rfl rfl rfl fun t => ?_
    simp only [orderSection, goOrder, Function.update_self, hat]
    split <;> rfl
  | finish i =>
    by_cases havailable : s.available i = false
    · refine .keep ?_ ?_ ?_ fun t => ?_ <;>
        simp [orderSection, havailable, hat, OrderPlace.remaining]
    · by_cases hshort : inp.short s.quantity o = true
      · refine .keep ?_ ?_ ?_ fun t => ?_ <;>
          simp [orderSection, havailable, hshort, hat, OrderPlace.remaining]
      · refine .complete i hat (by simpa using havailable) (by simpa using hshort) ?_ ?_ ?_ ?_ <;>
          simp [orderSection, havailable, hshort]
  | begins i =>
    simp only [orderSection]
    split
    all_goals
      refine .keep rfl rfl rfl fun t => ?_
      simp [hat, OrderPlace.remaining]
  | _ =>
    simp only [orderSection, shortageWith, sendAway_eq]
    refine .keep rfl rfl rfl fun t => ?_
    simp [hat, OrderPlace.remaining]

theorem makeOrder_toppingStep (h : s.makeOrder inp o = some s') : ToppingStep inp s s' o := by
  unfold State.makeOrder at h
  split at h
  case h_1 | h_2 => cases h
  case h_3 hat =>
    split at h
    all_goals cases h
    case isTrue =>
      refine .keep rfl rfl rfl fun t => ?_
      simp [hat, OrderPlace.remaining]
    case isFalse => exact .keep rfl rfl rfl fun _ => rfl
  case h_19 i k hat =>
    split at h
    case h_1 hnone =>
      cases h
      refine .keep rfl rfl rfl fun t => ?_
      have hall : (inp.listed o).drop k = [] :=
        List.drop_eq_nil_of_le (List.getElem?_eq_none_iff.mp hnone)
      simp [hat, OrderPlace.remaining, hall]
    case h_2 hunknown =>
      cases h
      refine .keep rfl rfl rfl fun t => ?_
      simp [hat, OrderPlace.remaining, count_drop hunknown]
    case h_3 t ht =>
      cases h
      exact .use i k t hat ht rfl rfl rfl (by simp)
  case h_22 k hat =>
    cases h
    exact orderSection_toppingStep hat
  all_goals
    rename_i hat
    try split at h
    all_goals cases h
    all_goals
      refine .keep rfl rfl rfl fun t => ?_
      simp only [goOrder, Function.update_self, hat]
      grind [OrderPlace.remaining]

theorem conserved_step (hI : Serving inp s) (h : step inp s a = some s')
    (hold : s.quantity t = inp.quantity t - (∑ o ∈ inp.iceCreams, s.used o t : ℕ)) :
    s'.quantity t = inp.quantity t - (∑ o ∈ inp.iceCreams, s'.used o t : ℕ) := by
  cases a with
  | tick d | main =>
    cases h
    exact hold
  | thread th =>
    cases th with
    | machine m =>
      have hf := printMachine_frame (Option.ite_none_right_eq_some.mp h).2
      rw [hf.quantity, hf.used]
      exact hold
    | customer c =>
      have hf := serveCustomer_frame (Option.ite_none_right_eq_some.mp h).2
      rw [hf.quantity, hf.used]
      exact hold
    | order o =>
      cases makeOrder_toppingStep h with
      | keep hquantity hused _ _ | complete _ _ _ _ hquantity hused _ _ =>
        rw [hquantity, hused]
        exact hold
      | use i k x hat hx hquantity hused _ _ =>
        have hmem := (hI.created o (by rw [hat]; nofun)).2.1
        have hsum : ∑ y ∈ inp.iceCreams, s'.used y t + s.used o t =
            ∑ y ∈ inp.iceCreams, s.used y t + s'.used o t := by
          apply sum_add_point hmem
          intro y _ hy
          rw [hused, Function.update_of_ne hy]
        have hown : s'.used o t = s.used o t + if t = x then 1 else 0 := by
          rw [hused, Function.update_self, bump_apply]
        by_cases ht : t = x
        · subst ht
          rw [hquantity, Function.update_self]
          rw [if_pos rfl] at hown
          omega
        · rw [hquantity, Function.update_of_ne ht]
          rw [if_neg ht] at hown
          omega

/-- What has been taken from the initial quantities is what the ice creams took. -/
structure Accounted (inp : Input) (s : State) : Prop where
  serving : Serving inp s
  conserved : ∀ t, s.quantity t = inp.quantity t - (∑ o ∈ inp.iceCreams, s.used o t : ℕ)

theorem Accounted.step (hI : Accounted inp s) (h : step inp s a = some s') : Accounted inp s' :=
  ⟨hI.serving.step h, fun t => conserved_step hI.serving h (hI.conserved t)⟩

theorem accounted_init (inp : Input) : Accounted inp (init inp) :=
  ⟨serving_init inp, fun t => by simp [init]⟩

theorem remaining_of_ne {x : IceCream} (hI : Serving inp s) (h : step inp s a = some s')
    (ha : a ≠ .thread (.order x)) :
    (s'.orderAt x).remaining inp x t = (s.orderAt x).remaining inp x t := by
  cases orderStep hI h x with
  | own hmove _ => exact absurd hmove ha
  | create hidle hat _ => rw [hidle, hat]; rfl
  | other hat _ => rw [hat]

theorem pending_step (hok : covered inp s a = true) (hI : Accounted inp s)
    (hpending : ∀ t, (pending inp s t : ℤ) ≤ s.quantity t) (h : step inp s a = some s') (t : ℕ) :
    (pending inp s' t : ℤ) ≤ s'.quantity t := by
  have hne : ∀ x, a ≠ .thread (.order x) →
      (s'.orderAt x).remaining inp x t = (s.orderAt x).remaining inp x t :=
    fun x hx => remaining_of_ne hI.serving h hx
  have hold := hpending t
  cases a with
  | tick d | main =>
    cases h
    exact hold
  | thread th =>
    cases th with
    | machine m =>
      have hf := printMachine_frame (Option.ite_none_right_eq_some.mp h).2
      have hsame : pending inp s' t = pending inp s t :=
        Finset.sum_congr rfl fun x _ => hne x nofun
      rw [hsame, hf.quantity]
      exact hold
    | customer c =>
      have hf := serveCustomer_frame (Option.ite_none_right_eq_some.mp h).2
      have hsame : pending inp s' t = pending inp s t :=
        Finset.sum_congr rfl fun x _ => hne x nofun
      rw [hsame, hf.quantity]
      exact hold
    | order o =>
      have hmem := (hI.serving.created o (makeOrder_frame h).exists_before).2.1
      have hsum : pending inp s' t + (s.orderAt o).remaining inp o t =
          pending inp s t + (s'.orderAt o).remaining inp o t := by
        apply sum_add_point hmem
        intro y _ hy
        exact hne y fun he => hy (by cases he; rfl)
      cases makeOrder_toppingStep h with
      | keep hquantity _ _ hremaining =>
        rw [hremaining t] at hsum
        rw [hquantity]
        omega
      | complete i hat havailable hshort hquantity _ _ hafter =>
        have huses : (s'.orderAt o).remaining inp o t = inp.uses o t := by
          rw [hafter]
          rfl
        have hzero : (s.orderAt o).remaining inp o t = 0 := by rw [hat]; rfl
        rw [hquantity]
        by_cases ht : t < inp.toppings.length
        · have hall : ∀ t < inp.toppings.length,
              (inp.uses o t + pending inp s t : ℕ) ≤ s.quantity t := by
            simpa [covered, hat, havailable, hshort] using hok
          have := hall t ht
          omega
        · have hnone : inp.uses o t = 0 := uses_eq_zero (not_lt.mp ht)
          omega
      | use i k x hat hx hquantity _ _ hafter =>
        have hcount := count_drop hx t
        have hbefore : (s.orderAt o).remaining inp o t =
            ((inp.listed o).drop k).count (some t) := by rw [hat]; rfl
        have hlater : (s'.orderAt o).remaining inp o t =
            ((inp.listed o).drop (k + 1)).count (some t) := by rw [hafter]; rfl
        by_cases ht : t = x
        · subst ht
          rw [if_pos rfl] at hcount
          rw [hquantity, Function.update_self]
          omega
        · rw [if_neg fun he => ht (Option.some.inj he).symm] at hcount
          rw [hquantity, Function.update_of_ne ht]
          omega

/-- From quantities that are not negative, as long as every order is completed where there
is enough for it: no topping goes negative, and the completed uses of a topping do not
exceed its initial quantity. -/
theorem toppings_never_negative (inp : Input) (hquantity : ∀ t, 0 ≤ inp.quantity t) (s : State)
    (h : ReachOf (step inp) (fun s a => covered inp s a) (init inp) s) (t : ℕ) :
    0 ≤ s.quantity t ∧ (∑ o ∈ inp.iceCreams, s.used o t : ℕ) ≤ inp.quantity t := by
  have hI : Accounted inp s ∧ ∀ t, (pending inp s t : ℤ) ≤ s.quantity t := by
    refine h.invariant (fun s => Accounted inp s ∧ ∀ t, (pending inp s t : ℤ) ≤ s.quantity t)
      (fun _ _ _ hok hI hs => ⟨hI.1.step hs, pending_step hok hI.1 hI.2 hs⟩)
      ⟨accounted_init inp, fun t => ?_⟩
    have hzero : pending inp (init inp) t = 0 := Finset.sum_eq_zero fun _ _ => rfl
    rw [hzero]
    exact hquantity t
  have hpending := hI.2 t
  have hconserved := hI.1.conserved t
  omega

/-- One ice cream that lists the nuts twice. -/
def doubleNuts (quantity : ℤ) : Input where
  K := 1
  machines := [⟨0, 10⟩]
  flavors := [⟨"vanilla", 1⟩]
  toppings := [⟨"nuts", quantity⟩]
  customers := [⟨0, [⟨"vanilla", ["nuts", "nuts"]⟩]⟩]

/-- The ice cream is completed and takes both its toppings. -/
def bothTaken : List Move :=
  stepsOf 5 (.machine 0) ++ stepsOf 11 (.customer 0) ++ [.tick 1] ++ stepsOf 19 (.order (0, 0)) ++
    [.tick 1] ++ stepsOf 5 (.order (0, 0))

theorem toppings_never_negative_doubleNuts :
    ∃ s, ReachOf (step (doubleNuts 2)) (fun s a => covered (doubleNuts 2) s a)
      (init (doubleNuts 2)) s ∧ s.used (0, 0) 0 = 2 ∧ 0 ≤ s.quantity 0 := by
  have hrun : (runAll
      (fun s a => if covered (doubleNuts 2) s a then step (doubleNuts 2) s a else none)
      (init (doubleNuts 2)) bothTaken).any (fun s => s.used (0, 0) 0 = 2) = true := by
    decide +kernel
  obtain ⟨s, hs, hprop⟩ := (Option.any_eq_true _ _).mp hrun
  have hreach := reachOf_of_runAll hs
  have hquantity : ∀ t, 0 ≤ (doubleNuts 2).quantity t := by
    intro t
    cases t with
    | zero => decide
    | succ t => exact le_rfl
  exact ⟨s, hreach, of_decide_eq_true hprop,
    (toppings_never_negative (doubleNuts 2) hquantity s hreach 0).1⟩

/-- With one portion left the checks pass, and the second use takes what is not there. -/
theorem topping_taken_twice :
    ∃ s, Reach (step (doubleNuts 1)) (init (doubleNuts 1)) s ∧ s.quantity 0 = -1 := by
  have hrun : (runAll (step (doubleNuts 1)) (init (doubleNuts 1)) bothTaken).any
      (fun s => s.quantity 0 = -1) = true := by
    decide +kernel
  obtain ⟨s, hs, hprop⟩ := (Option.any_eq_true _ _).mp hrun
  exact ⟨s, reach_of_runAll hs, of_decide_eq_true hprop⟩

end XV6AndConcurrency.Parlour
