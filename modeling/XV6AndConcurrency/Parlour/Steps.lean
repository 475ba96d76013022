import XV6AndConcurrency.Parlour.Simulation

/-!
# What a step leaves alone

A thread moves in its own procedure; each procedure touches few of the shared variables.
-/

namespace XV6AndConcurrency.Parlour.State

open Foundations

variable {inp : Input} {s s' : State} {o : IceCream} {p : OrderPlace} {t m : ℕ}

/-- The variables that no `make_order` thread writes. -/
structure Kept (s s' : State) : Prop where
  customerAt : s'.customerAt = s.customerAt
  machineAt : s'.machineAt = s.machineAt
  available : s'.available = s.available
  now : s'.now = s.now
  served : s'.served = s.served
  customerDone : s'.customerDone = s.customerDone
  admitted : s'.admitted = s.admitted
  collected : s'.collected = s.collected

/-- A step of a `make_order` thread. -/
structure OrderFrame (s s' : State) (o : IceCream) : Prop extends Kept s s' where
  exists_before : s.orderAt o ≠ .idle
  exists_after : s'.orderAt o ≠ .idle
  others : ∀ x, x ≠ o → s'.orderAt x = s.orderAt x
  flags : ∀ x, x ≠ o → s'.started x = s.started x ∧ s'.done x = s.done x ∧ s'.used x = s.used x

theorem goOrder_frame {x : State} (hs : s.orderAt o ≠ .idle) (hp : p ≠ .idle)
    (hat : x.orderAt = s.orderAt) (hx : Kept s x)
    (hflags : ∀ y, y ≠ o → x.started y = s.started y ∧ x.done y = s.done y ∧ x.used y = s.used y) :
    OrderFrame s (x.goOrder o p) o where
  toKept := { hx with }
  exists_before := hs
  exists_after := by simp [hp]
  others y hy := by simp [hat, hy]
  flags := hflags

theorem orderSection_frame (hs : s.orderAt o ≠ .idle) (k : OrderSection) :
    OrderFrame s (s.orderSection inp o k) o := by
  cases k with
  | stopScan i =>
    refine goOrder_frame hs ?_ rfl ⟨rfl, rfl, rfl, rfl, rfl, rfl, rfl, rfl⟩ ?_
    · split <;> nofun
    · exact fun _ _ => ⟨rfl, rfl, rfl⟩
  | closing | unserviced | shortage | beginShortage i | finishShortage i =>
    simp only [orderSection, shortageWith, sendAway_eq]
    refine goOrder_frame hs ?_ rfl ⟨rfl, rfl, rfl, rfl, rfl, rfl, rfl, rfl⟩ ?_
    · nofun
    · exact fun y hy => ⟨Function.update_of_ne hy _ _, rfl, rfl⟩
  | machineScan i count | timing i count =>
    refine goOrder_frame hs ?_ rfl ⟨rfl, rfl, rfl, rfl, rfl, rfl, rfl, rfl⟩ ?_
    · nofun
    · exact fun _ _ => ⟨rfl, rfl, rfl⟩
  | begins i | finish i =>
    simp only [orderSection]
    split_ifs
    all_goals
      refine goOrder_frame hs ?_ rfl ⟨rfl, rfl, rfl, rfl, rfl, rfl, rfl, rfl⟩ ?_
      · nofun
      · intro y hy
        simp [hy]

theorem makeOrder_frame (h : s.makeOrder inp o = some s') : OrderFrame s s' o := by
  have hs : s.orderAt o ≠ .idle := by
    intro hidle
    simp [makeOrder, hidle] at h
  unfold makeOrder at h
  split at h
  case h_22 k _ =>
    cases h
    exact orderSection_frame hs k
  case h_3 =>
    split at h
    case isTrue =>
      cases h
      refine goOrder_frame hs ?_ rfl ⟨rfl, rfl, rfl, rfl, rfl, rfl, rfl, rfl⟩ ?_
      · nofun
      · exact fun _ _ => ⟨rfl, rfl, rfl⟩
    case isFalse =>
      cases h
      exact ⟨⟨rfl, rfl, rfl, rfl, rfl, rfl, rfl, rfl⟩, hs, hs, fun _ _ => rfl,
        fun _ _ => ⟨rfl, rfl, rfl⟩⟩
  all_goals
    try split at h
    all_goals cases h
    all_goals
      refine goOrder_frame hs ?_ rfl ⟨rfl, rfl, rfl, rfl, rfl, rfl, rfl, rfl⟩ ?_
      · grind
      · intro y hy
        simp [hy]

/-- A step of a `serve_customer` thread. -/
structure CustomerFrame (s s' : State) (t : ℕ) : Prop where
  others : ∀ x, x ≠ t → s'.customerAt x = s.customerAt x
  machineAt : s'.machineAt = s.machineAt
  available : s'.available = s.available
  now : s'.now = s.now
  sem : s'.sem = s.sem
  quantity : s'.quantity = s.quantity
  started : s'.started = s.started
  done : s'.done = s.done
  used : s'.used = s.used
  waits : s'.waits = s.waits
  posts : s'.posts = s.posts
  reported : s'.reported = s.reported

theorem serveCustomer_frame (h : s.serveCustomer inp t = some s') : CustomerFrame s s' t := by
  have hothers : ∀ p x, x ≠ t → Function.update s.customerAt t p x = s.customerAt x :=
    fun p x hx => Function.update_of_ne hx _ _
  unfold serveCustomer at h
  split at h
  case h_13 k _ =>
    cases h
    cases k with
    | admission =>
      simp only [customerSection]
      split <;> exact ⟨hothers _, rfl, rfl, rfl, rfl, rfl, rfl, rfl, rfl, rfl, rfl, rfl⟩
    | arrival c | enter c | collection c =>
      exact ⟨hothers _, rfl, rfl, rfl, rfl, rfl, rfl, rfl, rfl, rfl, rfl, rfl⟩
  all_goals
    try split at h
    try split at h
    all_goals cases h
    all_goals exact ⟨hothers _, rfl, rfl, rfl, rfl, rfl, rfl, rfl, rfl, rfl, rfl, rfl⟩

/-- A step of a `print_machine` thread. -/
structure MachineFrame (s s' : State) (m : ℕ) : Prop where
  others : ∀ x, x ≠ m → s'.machineAt x = s.machineAt x
  availableOthers : ∀ x, x ≠ m → s'.available x = s.available x
  customerAt : s'.customerAt = s.customerAt
  orderAt : s'.orderAt = s.orderAt
  sem : s'.sem = s.sem
  quantity : s'.quantity = s.quantity
  started : s'.started = s.started
  done : s'.done = s.done
  left : s'.left = s.left
  customerDone : s'.customerDone = s.customerDone
  served : s'.served = s.served
  currQueue : s'.currQueue = s.currQueue
  used : s'.used = s.used
  waits : s'.waits = s.waits
  posts : s'.posts = s.posts
  admitted : s'.admitted = s.admitted
  reported : s'.reported = s.reported
  collected : s'.collected = s.collected

theorem printMachine_frame (h : s.printMachine inp m = some s') : MachineFrame s s' m := by
  have hplace : ∀ p x, x ≠ m → Function.update s.machineAt m p x = s.machineAt x :=
    fun p x hx => Function.update_of_ne hx _ _
  have havailable : ∀ b x, x ≠ m → Function.update s.available m b x = s.available x :=
    fun b x hx => Function.update_of_ne hx _ _
  unfold printMachine at h
  split at h
  case h_1 => cases h
  case h_3 | h_6 =>
    split at h
    all_goals cases h
    all_goals
      constructor
      case others => exact hplace _
      case availableOthers => first | exact havailable _ | exact fun _ _ => rfl
      all_goals rfl
  case h_4 | h_7 =>
    cases h
    constructor
    case others => exact hplace _
    case availableOthers => exact havailable _
    all_goals rfl
  all_goals
    try split at h
    all_goals cases h
    all_goals
      constructor
      case others => exact hplace _
      case availableOthers => exact fun _ _ => rfl
      all_goals rfl

end XV6AndConcurrency.Parlour.State
