import XV6AndConcurrency.Parlour.Serving

/-!
# The start hand-off

The `make_order` thread of an ice cream waits until its predecessor has `started = 1`.
-/

namespace XV6AndConcurrency.Parlour

open Foundations State

variable {inp : Input} {s s' : State} {o : IceCream} {a : Move}

/-- The thread that moves does not find at its entry that its customer has left, nor that
its flavor is unknown. -/
def publishing (inp : Input) (s : State) : Move → Bool
  | .thread (.order o) =>
    match s.orderAt o with
    | .leftTest => !s.left o.1
    | .flavor => inp.preparationTime o != -1
    | _ => true
  | _ => true

/-- What a thread has to have published at a place. -/
def Published (started : Bool) : OrderPlace → Prop
  | .leftDone | .leftQueue => False
  | .ended => started = true
  | _ => True

theorem orderSection_published (k : OrderSection) :
    Published ((s.orderSection inp o k).started o) ((s.orderSection inp o k).orderAt o) := by
  cases k <;> simp only [orderSection] <;> (try split_ifs) <;> simp [Published]

theorem makeOrder_published (hok : publishing inp s (.thread (.order o)) = true)
    (hI : Published (s.started o) (s.orderAt o)) (h : s.makeOrder inp o = some s') :
    Published (s'.started o) (s'.orderAt o) := by
  unfold publishing at hok
  unfold State.makeOrder at h
  split at h
  case h_22 k _ =>
    cases h
    exact orderSection_published k
  case h_3 =>
    split at h
    all_goals cases h
    case isTrue => simp [Published]
    case isFalse => exact hI
  case h_4 hat =>
    cases h
    have hleft : s.left o.1 = false := by simpa [hat] using hok
    simp [hleft, Published]
  case h_5 hat | h_6 hat =>
    rw [hat] at hI
    exact hI.elim
  case h_9 hat =>
    cases h
    have hflavor : inp.preparationTime o ≠ -1 := by simpa [hat] using hok
    simp [hflavor, Published]
  all_goals
    try split at h
    all_goals cases h
    all_goals
      simp only [goOrder, semPost, setStarted, useTopping, Function.update_self]
      grind [Published]

/-- Every `make_order` thread has published what its place demands. -/
structure HandingOff (inp : Input) (s : State) : Prop where
  serving : Serving inp s
  published : ∀ o, Published (s.started o) (s.orderAt o)

theorem HandingOff.step (hok : publishing inp s a = true) (hI : HandingOff inp s)
    (h : step inp s a = some s') : HandingOff inp s' := by
  refine ⟨hI.serving.step h, fun o => ?_⟩
  have ho := hI.published o
  cases orderStep hI.serving h o with
  | own hmove hown =>
    subst hmove
    exact makeOrder_published hok ho hown
  | create _ hat _ =>
    rw [hat]
    trivial
  | other hat hsame => rwa [hat, hsame.1]

theorem handingOff_of_reachOf
    (h : ReachOf (step inp) (fun s a => publishing inp s a) (init inp) s) : HandingOff inp s :=
  h.invariant (HandingOff inp) (fun _ _ _ hok hI hs => hI.step hok hs)
    ⟨serving_init inp, fun _ => trivial⟩

/-- As long as no thread finds at its entry that its customer has left or that its flavor
is unknown, a thread that has returned has published `started = 1` for good, and the
successor that waits for it goes on. -/
theorem handOff_never_sticks (inp : Input) (s : State)
    (h : ReachOf (step inp) (fun s a => publishing inp s a) (init inp) s) (c j : ℕ)
    (hended : s.orderAt (c, j) = .ended) :
    (∀ s', ReachOf (step inp) (fun s a => publishing inp s a) s s' →
        s'.started (c, j) = true) ∧
      (s.orderAt (c, j + 1) = .waiting →
        s.makeOrder inp (c, j + 1) = some (s.goOrder (c, j + 1) .leftTest)) := by
  have hstarted : ∀ s, HandingOff inp s → s.orderAt (c, j) = .ended → s.started (c, j) = true := by
    intro s hI ho
    have := hI.published (c, j)
    rwa [ho] at this
  constructor
  · intro s' h'
    have hstay := h'.invariant (fun s => HandingOff inp s ∧ s.orderAt (c, j) = .ended)
      (fun s a s' hok hI hs => ⟨hI.1.step hok hs, ended_step hI.1.serving hs hI.2⟩)
      ⟨handingOff_of_reachOf h, hended⟩
    exact hstarted s' hstay.1 hstay.2
  · intro hwaiting
    have := hstarted s (handingOff_of_reachOf h) hended
    simp [State.makeOrder, hwaiting, this]

/-- One customer with three ice creams; the topping of the first has run out. -/
def soldOut : Input where
  K := 1
  machines := [⟨0, 10⟩]
  flavors := [⟨"vanilla", 1⟩]
  toppings := [⟨"nuts", 0⟩]
  customers := [⟨0, [⟨"vanilla", ["nuts"]⟩, ⟨"vanilla", []⟩, ⟨"vanilla", []⟩]⟩]

/-- The customer orders and the first of its threads finds the shortage. -/
def firstSentAway : List Move := stepsOf 13 (.customer 0) ++ stepsOf 10 (.order (0, 0))

theorem handOff_never_sticks_soldOut :
    ∃ s, ReachOf (step soldOut) (fun s a => publishing soldOut s a) (init soldOut) s ∧
      s.orderAt (0, 0) = .ended ∧ s.started (0, 0) = true := by
  have hrun : (runAll (fun s a => if publishing soldOut s a then step soldOut s a else none)
      (init soldOut) firstSentAway).any (fun s => s.orderAt (0, 0) = .ended) = true := by
    decide +kernel
  obtain ⟨s, hs, hprop⟩ := (Option.any_eq_true _ _).mp hrun
  have hreach := reachOf_of_runAll hs
  have hended := of_decide_eq_true hprop
  have hstays := (handOff_never_sticks soldOut s hreach 0 0 hended).1
  exact ⟨s, hreach, hended, hstays s (ReachOf.refl s)⟩

/-- The second thread finds that the customer has left and returns without a word; the third
waits for it for ever. -/
theorem returned_without_started :
    ∃ s, Reach (step soldOut) (init soldOut) s ∧ s.orderAt (0, 1) = .ended ∧
      s.started (0, 1) = false ∧ s.orderAt (0, 2) = .waiting := by
  have hrun : (runAll (step soldOut) (init soldOut)
      (firstSentAway ++ stepsOf 4 (.order (0, 1)))).any (fun s =>
        s.orderAt (0, 1) = .ended ∧ s.started (0, 1) = false ∧ s.orderAt (0, 2) = .waiting)
      = true := by
    decide +kernel
  obtain ⟨s, hs, hprop⟩ := (Option.any_eq_true _ _).mp hrun
  exact ⟨s, reach_of_runAll hs, of_decide_eq_true hprop⟩

end XV6AndConcurrency.Parlour
