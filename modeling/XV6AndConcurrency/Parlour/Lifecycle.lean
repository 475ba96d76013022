import XV6AndConcurrency.Parlour.Toppings

/-!
# The life of an order

A machine works once, so an order is completed at most once, and its thread returns
without it only if the customer has left or the flavor is unknown.
-/

namespace XV6AndConcurrency.Parlour

open Foundations State

variable {inp : Input} {s s' : State} {o : IceCream} {t m : ℕ} {a : Move}

/-- Before, in and after the working time of a machine. -/
def MachinePlace.stage : MachinePlace → ℕ
  | .lock .startClock | .inside .startClock | .startTest | .openTest => 0
  | .opening | .lock .endClock | .inside .endClock | .endTest | .closeTest => 1
  | .closing | .ended => 2

namespace State

/-- The machine has been available. -/
def Seen (s : State) (m : ℕ) : Prop :=
  (s.machineAt m).stage = 1 ∧ s.available m = true ∨ (s.machineAt m).stage = 2

/-- The machine will not be available again. -/
def Stopped (s : State) (m : ℕ) : Prop :=
  (s.machineAt m).stage = 2 ∧ s.available m = false

/-- What holds of an order while its thread is at a place. -/
def Known (inp : Input) (s : State) (o : IceCream) : OrderPlace → Prop
  | .loopTest => s.started o = s.done o
  | .lock (.begins i) | .inside (.begins i) =>
    s.started o = false ∧ s.done o = false ∧ s.Seen i
  | .prepare i _ | .lock (.finish i) | .inside (.finish i) =>
    s.done o = false ∧ s.Seen i ∧ (s.started o = false → s.Stopped i)
  | .stopPost i _ | .stopClear i _ => s.done o = false ∧ s.Stopped i
  | .lock (.finishShortage _) | .inside (.finishShortage _) => s.done o = false
  | .consume _ _ | .post _ => s.started o = true ∧ s.done o = true
  | .leftDone | .leftQueue => s.started o = false ∧ s.done o = false ∧ s.left o.1 = true
  | .ended => s.done o = true ∨ s.left o.1 = true ∨ inp.preparationTime o = -1
  | _ => s.started o = false ∧ s.done o = false

end State

/-- A machine that has not started is not available. -/
def Closed (s : State) : Prop := ∀ m, (s.machineAt m).stage = 0 → s.available m = false

theorem Seen.of_available (hI : Closed s) (h : s.available m = true) : s.Seen m := by
  cases hstage : s.machineAt m with
  | lock k | inside k => cases k <;> grind [Closed, Seen, MachinePlace.stage]
  | _ => grind [Closed, Seen, MachinePlace.stage]

theorem Seen.stopped (h : s.Seen m) (havailable : s.available m = false) : s.Stopped m := by
  obtain ⟨-, htrue⟩ | hstage := h
  · rw [havailable] at htrue
    cases htrue
  · exact ⟨hstage, havailable⟩

/-- The stages of a machine follow each other, and it is available in the middle one. -/
theorem printMachine_stage (hI : Closed s) (h : s.printMachine inp m = some s') :
    Closed s' ∧ (∀ x, s.Seen x → s'.Seen x) ∧ ∀ x, s.Stopped x → s'.Stopped x := by
  have hf := printMachine_frame h
  have hm := hI m
  have hown : ((s'.machineAt m).stage = 0 → s'.available m = false) ∧
      (s.Seen m → s'.Seen m) ∧ (s.Stopped m → s'.Stopped m) := by
    unfold Seen Stopped
    unfold State.printMachine at h
    split at h
    case h_1 => cases h
    case h_3 | h_6 =>
      rename_i hat
      split at h
      all_goals cases h
      all_goals simp [hat, MachinePlace.stage]
    case h_8 k hat =>
      split at h
      all_goals cases h
      simp only [goMachine, Function.update_self, hat]
      cases k <;> grind [MachinePlace.stage]
    case h_4 | h_7 =>
      rename_i hat
      cases h
      simp [hat, MachinePlace.stage]
    all_goals
      rename_i hat
      cases h
      rw [hat] at hm
      simp only [goMachine, readClock, unlock, Function.update_self, hat]
      grind [MachinePlace.stage]
  have hother : ∀ x, x ≠ m → s'.machineAt x = s.machineAt x ∧ s'.available x = s.available x :=
    fun x hx => ⟨hf.others x hx, hf.availableOthers x hx⟩
  obtain ⟨hclosed, hseen, hstopped⟩ := hown
  refine ⟨fun x => ?_, fun x => ?_, fun x => ?_⟩
  all_goals
    by_cases hx : x = m
    · subst hx
      assumption
    · simp only [Seen, Stopped, (hother x hx).1, (hother x hx).2]
      first | exact hI x | exact id

theorem orderSection_known {k : OrderSection} (hat : s.orderAt o = .inside k)
    (hK : s.Known inp o (.inside k)) :
    (s.orderSection inp o k).Known inp o ((s.orderSection inp o k).orderAt o) := by
  cases k with
  | stopScan i =>
    simp only [orderSection, goOrder, Function.update_self]
    split <;> exact hK
  | closing | unserviced | shortage | beginShortage i | finishShortage i =>
    simp only [orderSection, shortageWith, sendAway_eq]
    simp [Known]
  | machineScan i count | timing i count => simpa [orderSection, Known] using hK
  | begins i =>
    simp only [orderSection]
    split
    · simpa [Known] using ⟨hK.1, hK.2.1⟩
    · simpa [Known] using ⟨hK.2.1, hK.2.2⟩
  | finish i =>
    obtain ⟨hdone, hseen, hstarted⟩ := hK
    simp only [orderSection]
    split_ifs with havailable hshort
    · simp [Known, hdone]
    · simpa [Known] using hdone
    · have : s.started o = true := by
        cases hs : s.started o with
        | true => rfl
        | false => exact absurd (hstarted hs).2 havailable
      simpa [Known] using this

theorem makeOrder_known (hI : Closed s) (hK : s.Known inp o (s.orderAt o))
    (h : s.makeOrder inp o = some s') : s'.Known inp o (s'.orderAt o) := by
  unfold State.makeOrder at h
  split at h
  case h_1 | h_2 => cases h
  case h_3 hat =>
    rw [hat] at hK
    split at h
    all_goals cases h
    case isTrue => simpa [Known] using hK
    case isFalse => rwa [hat]
  case h_4 hat =>
    cases h
    rw [hat] at hK
    by_cases hleft : s.left o.1 = true
    · simpa [hleft, Known] using hK
    · simp [hleft, Known, hK.1, hK.2]
  case h_5 hat =>
    cases h
    rw [hat] at hK
    simpa [Known] using hK
  case h_6 hat =>
    cases h
    rw [hat] at hK
    simp [Known, hK.2.2]
  case h_7 hat =>
    cases h
    rw [hat] at hK
    have hsame : s.started o = s.done o := hK
    by_cases hstarted : s.started o = true
    · simp [hstarted, Known, ← hsame]
    · simp [hstarted, Known, ← hsame]
  case h_9 hat =>
    cases h
    rw [hat] at hK
    by_cases hunknown : inp.preparationTime o = -1
    · simp [hunknown, Known]
    · simpa [hunknown, Known] using hK
  case h_14 i count totalPrep hat =>
    cases h
    rw [hat] at hK
    simp only [goOrder, Function.update_self]
    split_ifs with hback
    · exact hK
    · have havailable : s.available i = true := by simpa using fun h => hback (Or.inl h)
      exact ⟨hK.1, hK.2, Seen.of_available hI havailable⟩
    · exact hK
  case h_16 i k hat =>
    cases h
    rw [hat] at hK
    simp only [goOrder, Function.update_self]
    split_ifs with hk havailable
    · exact ⟨hK.1, Seen.stopped hK.2.1 havailable⟩
    · exact hK
    · exact hK
  case h_17 i k hat =>
    cases h
    rw [hat] at hK
    simp only [goOrder, Function.update_self]
    exact hK
  case h_18 i k hat =>
    cases h
    rw [hat] at hK
    simp only [goOrder, Function.update_self]
    exact ⟨hK.1, Or.inr hK.2.1, fun _ => hK.2⟩
  case h_19 i k hat =>
    rw [hat] at hK
    split at h
    all_goals
      cases h
      simpa [Known] using hK
  case h_20 i hat =>
    cases h
    rw [hat] at hK
    simp [Known, hK.1, hK.2]
  case h_21 k hat =>
    split at h
    all_goals cases h
    rw [hat] at hK
    simp only [goOrder, Function.update_self]
    cases k <;> exact hK
  case h_22 k hat =>
    cases h
    exact orderSection_known hat (hat ▸ hK)
  all_goals
    rename_i hat
    rw [hat] at hK
    try split at h
    all_goals cases h
    all_goals
      simp only [goOrder, semPost, Function.update_self]
      (try split_ifs) <;> exact hK

/-- What other threads do leaves an order as it is. -/
theorem Known.mono {p : OrderPlace} (hstarted : s'.started o = s.started o)
    (hdone : s'.done o = s.done o) (hleft : s.left o.1 = true → s'.left o.1 = true)
    (hseen : ∀ x, s.Seen x → s'.Seen x) (hstopped : ∀ x, s.Stopped x → s'.Stopped x)
    (hK : s.Known inp o p) : s'.Known inp o p := by
  cases p with
  | lock k | inside k => cases k <;> grind [Known]
  | _ => grind [Known]

/-- The sections whose body sends the customer away. -/
def OrderSection.rejects : OrderSection → Bool
  | .closing | .shortage | .unserviced | .beginShortage _ | .finishShortage _ => true
  | _ => false

/-- What a step of an order does to its customer. -/
inductive LeavingStep (s s' : State) (o : IceCream) : Prop
  | keep (hleft : s'.left = s.left) (hreported : s'.reported = s.reported)
      (hqueue : s'.currQueue = s.currQueue)
  | reject (k : OrderSection) (hat : s.orderAt o = .inside k) (hk : k.rejects = true)
      (hstayed : s.left o.1 = false) (hafter : s'.orderAt o = .ended) (hdone : s'.done = s.done)
      (hleft : s'.left = Function.update s.left o.1 true)
      (hreported : s'.reported = Function.update s.reported o.1 true)
      (hqueue : s'.currQueue = s.currQueue - 1)
  | leave (hat : s.orderAt o = .leftQueue) (hleft : s'.left = s.left)
      (hreported : s'.reported = s.reported) (hqueue : s'.currQueue = s.currQueue - 1)

theorem orderSection_leavingStep {k : OrderSection} (hat : s.orderAt o = .inside k) :
    LeavingStep s (s.orderSection inp o k) o := by
  cases k with
  | closing | unserviced | shortage | beginShortage i | finishShortage i =>
    by_cases hleft : s.left o.1 = true
    · refine .keep ?_ ?_ ?_
      · simp [orderSection, hleft]
      · simp [orderSection, hleft]
      · simp [orderSection, hleft]
    · refine .reject _ hat rfl (by simpa using hleft) ?_ ?_ ?_ ?_ ?_ <;>
        simp [orderSection, hleft]
  | begins i | finish i =>
    simp only [orderSection]
    split_ifs <;> exact .keep rfl rfl rfl
  | stopScan i | machineScan i count | timing i count => exact .keep rfl rfl rfl

theorem makeOrder_leavingStep (h : s.makeOrder inp o = some s') : LeavingStep s s' o := by
  unfold State.makeOrder at h
  split at h
  case h_6 hat =>
    cases h
    exact .leave hat rfl rfl rfl
  case h_22 k hat =>
    cases h
    exact orderSection_leavingStep hat
  all_goals
    try split at h
    all_goals cases h
    all_goals exact .keep rfl rfl rfl

theorem LeavingStep.left_mono {c : ℕ} (h : LeavingStep s s' o) (hc : s.left c = true) :
    s'.left c = true := by
  cases h with
  | keep hleft | leave _ hleft => rw [hleft, hc]
  | reject k _ _ _ _ _ hleft =>
    rw [hleft, Function.update_apply]
    split
    · rfl
    · exact hc

/-- Machines and orders are where their places say. -/
structure Lifecycle (inp : Input) (s : State) : Prop where
  serving : Serving inp s
  closed : Closed s
  known : ∀ o, s.Known inp o (s.orderAt o)
  spent : ∀ o t, s.used o t + (s.orderAt o).remaining inp o t =
    if s.done o = true then inp.uses o t else 0

theorem customerSection_left_mono {k : CustomerSection} {c : ℕ} (hc : s.left c = true) :
    (s.customerSection inp t k).left c = true := by
  cases k with
  | admission =>
    simp only [customerSection]
    split
    · simp [Function.update_apply, hc]
    · exact hc
  | arrival c' | enter c' => exact hc
  | collection c' => simp [customerSection, Function.update_apply, hc]

theorem serveCustomer_left_mono {c : ℕ} (h : s.serveCustomer inp t = some s')
    (hc : s.left c = true) : s'.left c = true := by
  unfold State.serveCustomer at h
  split at h
  case h_7 =>
    cases h
    simp [Function.update_apply, hc]
  case h_13 k _ =>
    cases h
    exact customerSection_left_mono hc
  all_goals
    try split at h
    try split at h
    all_goals cases h
    all_goals exact hc

theorem left_mono {c : ℕ} (h : step inp s a = some s') (hc : s.left c = true) :
    s'.left c = true := by
  cases a with
  | tick d | main =>
    cases h
    exact hc
  | thread th =>
    cases th with
    | machine m =>
      rw [(printMachine_frame (Option.ite_none_right_eq_some.mp h).2).left]
      exact hc
    | customer t => exact serveCustomer_left_mono (Option.ite_none_right_eq_some.mp h).2 hc
    | order o => exact (makeOrder_leavingStep h).left_mono hc

/-- No step takes a machine back in its day. -/
theorem stage_step (hI : Closed s) (h : step inp s a = some s') :
    Closed s' ∧ (∀ x, s.Seen x → s'.Seen x) ∧ ∀ x, s.Stopped x → s'.Stopped x := by
  have hsame : s'.machineAt = s.machineAt → s'.available = s.available →
      Closed s' ∧ (∀ x, s.Seen x → s'.Seen x) ∧ ∀ x, s.Stopped x → s'.Stopped x := by
    intro hmachine havailable
    unfold Closed Seen Stopped
    rw [hmachine, havailable]
    exact ⟨hI, fun _ => id, fun _ => id⟩
  cases a with
  | tick d | main =>
    cases h
    exact hsame rfl rfl
  | thread th =>
    cases th with
    | machine m => exact printMachine_stage hI (Option.ite_none_right_eq_some.mp h).2
    | customer t =>
      have hf := serveCustomer_frame (Option.ite_none_right_eq_some.mp h).2
      exact hsame hf.machineAt hf.available
    | order o =>
      have hf := makeOrder_frame h
      exact hsame hf.machineAt hf.available

theorem Lifecycle.step (hI : Lifecycle inp s) (h : step inp s a = some s') :
    Lifecycle inp s' := by
  obtain ⟨hclosed, hseen, hstopped⟩ := stage_step hI.closed h
  refine ⟨hI.serving.step h, hclosed, fun o => ?_, fun o t => ?_⟩
  · have hK := hI.known o
    cases orderStep hI.serving h o with
    | own _ hown => exact makeOrder_known hI.closed hK hown
    | create hidle hat hsame =>
      rw [hidle] at hK
      rw [hat]
      exact Known.mono (p := .waiting) hsame.1 hsame.2.1 (left_mono h) hseen hstopped hK
    | other hat hsame =>
      rw [hat]
      exact Known.mono hsame.1 hsame.2.1 (left_mono h) hseen hstopped hK
  · have hold := hI.spent o t
    cases orderStep hI.serving h o with
    | own _ hown =>
      cases makeOrder_toppingStep hown with
      | keep _ hused hdone hremaining => rw [hused, hdone, hremaining, hold]
      | complete i hat _ _ _ hused hdone hafter =>
        have hfalse : s.done o = false := by
          have hK := hI.known o
          rw [hat] at hK
          exact hK.1
        have hzero : s.used o t = 0 := by
          rw [hfalse, hat] at hold
          simpa [OrderPlace.remaining] using hold
        rw [hused, hdone, hafter, hzero, Function.update_self, if_pos rfl, zero_add]
        rfl
      | use i k x hat hx _ hused hdone hafter =>
        have hcount := count_drop hx t
        rw [hat] at hold
        rw [hused, hdone, hafter, Function.update_self, bump_apply, ← hold]
        simp only [OrderPlace.remaining, hcount, Option.some.injEq, eq_comm (a := x)]
        omega
    | create hidle hat hsame =>
      rw [hidle] at hold
      rw [hat, hsame.2.1, hsame.2.2]
      exact hold
    | other hat hsame => rw [hat, hsame.2.1, hsame.2.2, hold]

theorem lifecycle_init (inp : Input) : Lifecycle inp (init inp) where
  serving := serving_init inp
  closed _ _ := rfl
  known _ := ⟨rfl, rfl⟩
  spent _ _ := rfl

end XV6AndConcurrency.Parlour
