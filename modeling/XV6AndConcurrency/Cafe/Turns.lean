import XV6AndConcurrency.Cafe.Baristas

/-!
# First come, first served

A customer looks only at the flag of its predecessor, which is set when the order of the
predecessor begins and when the predecessor gives up.
-/

namespace XV6AndConcurrency.Cafe

open Foundations State

variable {inp : Input} {s s' : State} {t c i : ℕ} {a : Move}

/-- The predecessor's flag is set, or there is no predecessor. -/
def State.Next (s : State) (c : ℕ) : Prop := c = 0 ∨ s.custDone (c - 1) = true

/-- The customer has ordered, its order has not begun, and it has not left. -/
def State.Waiting (s : State) (c : ℕ) : Prop :=
  s.ordered c = true ∧ s.begun c = false ∧ s.leftFlags c = false

/-- A customer that gives up waiting is the next one. -/
def inTurn (s : State) : Move → Bool
  | .thread t =>
    match s.place t with
    | .inside (.giveUp c) => decide (c = 0) || s.custDone (c - 1)
    | _ => true
  | .tick _ => true

/-- What a thread knows of the flags inside a section, and at its lock. -/
def State.KnowsInside (s : State) : Section → Prop
  | .lookAgain c _ | .giveUpSelected c _ | .begins c _ => s.Next c
  | .second c _ _ | .giveUpPreparing c _ _ | .complete c _ | .depart c _ => s.custDone c = true
  | _ => True

/-- What a thread knows of the flags. -/
def State.Knows (s : State) : Place → Prop
  | .selectedTest c _ _ | .previousWait c _ | .beginning c _ => s.Next c
  | .prepare c _ _ | .secondPassed c _ _ | .secondTest c _ _ | .prepared c _ | .departTest c _ _ =>
    s.custDone c = true
  | .lock k | .inside k => s.KnowsInside k
  | _ => True

/-- Flags are only set, and a new one belongs to a customer whose turn it is and which has
begun or left. -/
structure Advance (s s' : State) : Prop where
  done : ∀ x, s.custDone x = true → s'.custDone x = true
  begun : ∀ x, s.begun x = true → s'.begun x = true
  left : ∀ x, s.leftFlags x = true → s'.leftFlags x = true
  new : ∀ x, s'.custDone x = true →
    s.custDone x = true ∨ s.Next x ∧ (s'.begun x = true ∨ s'.leftFlags x = true)

theorem Advance.of_same (hdone : s'.custDone = s.custDone) (hbegun : s'.begun = s.begun)
    (hleft : s'.leftFlags = s.leftFlags) : Advance s s' := by
  constructor
  · rw [hdone]
    exact fun _ => id
  · rw [hbegun]
    exact fun _ => id
  · rw [hleft]
    exact fun _ => id
  · rw [hdone]
    exact fun _ => Or.inl

/-- The flag of one customer is set. -/
theorem Advance.of_set (hdone : s'.custDone = Function.update s.custDone c true)
    (hbegun : ∀ x, s.begun x = true → s'.begun x = true)
    (hleft : ∀ x, s.leftFlags x = true → s'.leftFlags x = true)
    (hc : s.custDone c = true ∨ s.Next c ∧ (s'.begun c = true ∨ s'.leftFlags c = true)) :
    Advance s s' := by
  refine ⟨fun x hx => ?_, hbegun, hleft, fun x hx => ?_⟩
  · rw [hdone, Function.update_apply]
    split
    · rfl
    · exact hx
  · rw [hdone, Function.update_apply] at hx
    split at hx
    case isTrue he =>
      subst he
      exact hc
    case isFalse => exact Or.inl hx

theorem Next.mono (h : ∀ x, s.custDone x = true → s'.custDone x = true) (hc : s.Next c) :
    s'.Next c := by
  obtain hzero | hdone := hc
  · exact Or.inl hzero
  · exact Or.inr (h _ hdone)

theorem Knows.mono {p : Place} (h : ∀ x, s.custDone x = true → s'.custDone x = true)
    (hK : s.Knows p) : s'.Knows p := by
  cases p with
  | lock k | inside k =>
    cases k with
    | lookAgain c i | giveUpSelected c i | begins c i => exact Next.mono h hK
    | second c i k | giveUpPreparing c i k | complete c i | depart c i => exact h _ hK
    | _ => trivial
  | selectedTest c i curr | previousWait c i | beginning c i => exact Next.mono h hK
  | prepare c i k | secondPassed c i k | secondTest c i k | prepared c i | departTest c i finish =>
    exact h _ hK
  | _ => trivial

theorem sectionBody_advance {k : Section} (hat : s.place t = .inside k)
    (hok : inTurn s (.thread t) = true) (hK : s.KnowsInside k) :
    Advance s (s.sectionBody inp t k) ∧
      (s.sectionBody inp t k).Knows ((s.sectionBody inp t k).place t) := by
  have hset : ∀ c : ℕ, ∀ f : ℕ → Bool, ∀ x, f x = true → Function.update f c true x = true := by
    intro c f x hx
    rw [Function.update_apply]
    split
    · rfl
    · exact hx
  cases k with
  | giveUp c =>
    have hnext : s.Next c := by simpa [inTurn, hat, Next] using hok
    constructor
    · refine .of_set rfl (fun _ => id) (hset c s.leftFlags) (Or.inr ⟨hnext, Or.inr ?_⟩)
      simp [sectionBody]
    · simp [sectionBody, Knows]
  | giveUpSelected c i =>
    constructor
    · refine .of_set rfl (fun _ => id) (hset c s.leftFlags) (Or.inr ⟨hK, Or.inr ?_⟩)
      simp [sectionBody]
    · simp [sectionBody, Knows]
  | giveUpPreparing c i k =>
    refine ⟨.of_set rfl (fun _ => id) (hset c s.leftFlags) (Or.inl hK), ?_⟩
    simp [sectionBody, Knows]
  | depart c i =>
    refine ⟨.of_set rfl (fun _ => id) (fun _ => id) (Or.inl hK), ?_⟩
    simp [sectionBody, Knows]
  | claim =>
    refine ⟨.of_same rfl rfl rfl, ?_⟩
    simp only [sectionBody, go, Function.update_self]
    split <;> trivial
  | lookAgain c i | begins c i | second c i k | complete c i =>
    refine ⟨.of_same rfl rfl rfl, ?_⟩
    simp only [sectionBody, go, Function.update_self]
    exact hK
  | arrival c | order c | look c i =>
    refine ⟨.of_same rfl rfl rfl, ?_⟩
    simp [sectionBody, Knows]

theorem serveCustomer_advance (hok : inTurn s (.thread t) = true) (hK : s.Knows (s.place t))
    (h : s.serveCustomer inp t = some s') : Advance s s' ∧ s'.Knows (s'.place t) := by
  cases hat : s.place t with simp only [State.serveCustomer, hat] at h hK
  | inside k =>
    cases h
    exact sectionBody_advance hat hok hK
  | lock k =>
    split at h
    all_goals cases h
    refine ⟨.of_same rfl rfl rfl, ?_⟩
    simp only [go, Function.update_self]
    exact hK
  | beginning c i =>
    cases h
    constructor
    · refine .of_set rfl (fun x hx => ?_) (fun _ => id) (Or.inr ⟨hK, Or.inl ?_⟩)
      · simp [Function.update_apply, hx]
      · simp
    · simp [Knows]
  | previousTest c i =>
    cases h
    refine ⟨.of_same rfl rfl rfl, ?_⟩
    simp only [go, Function.update_self]
    split
    · trivial
    · change s.Next c
      unfold Next
      grind
  | _ =>
    try split at h
    all_goals cases h
    all_goals
      refine ⟨.of_same rfl rfl rfl, ?_⟩
      simp only [go, semPost, setFinish, Function.update_self]
      first | exact hK | trivial

/-- The flags are set in the order of the customers, and only of those that have begun or left. -/
structure InOrder (s : State) : Prop where
  knows : ∀ t, s.Knows (s.place t)
  downward : ∀ c, s.custDone (c + 1) = true → s.custDone c = true
  settled : ∀ c, s.custDone c = true → s.begun c = true ∨ s.leftFlags c = true

theorem InOrder.step (hok : inTurn s a = true) (hI : InOrder s) (h : step inp s a = some s') :
    InOrder s' := by
  cases a with
  | tick d =>
    cases h
    refine { hI with knows := fun t => ?_ }
    exact Knows.mono (fun _ => id) (hI.knows t)
  | thread t =>
    have hstep := (Option.ite_none_right_eq_some.mp h).2
    obtain ⟨hadvance, hown⟩ := serveCustomer_advance hok (hI.knows t) hstep
    constructor
    case knows =>
      intro x
      by_cases hx : x = t
      · rw [hx]
        exact hown
      · rw [serveCustomer_others hstep hx]
        exact Knows.mono hadvance.done (hI.knows x)
    case downward =>
      intro c hc
      obtain hold | ⟨hnext, -⟩ := hadvance.new (c + 1) hc
      · exact hadvance.done c (hI.downward c hold)
      · obtain hzero | hdone := hnext
        · cases hzero
        · exact hadvance.done c hdone
    case settled =>
      intro c hc
      obtain hold | ⟨-, hgone⟩ := hadvance.new c hc
      · obtain hbegun | hleft := hI.settled c hold
        · exact Or.inl (hadvance.begun c hbegun)
        · exact Or.inr (hadvance.left c hleft)
      · exact hgone

theorem inOrder_init (inp : Input) : InOrder (init inp) where
  knows _ := trivial
  downward := nofun
  settled := nofun

theorem InOrder.all_before (hI : InOrder s) (hc : s.custDone c = true) :
    ∀ j ≤ c, s.custDone j = true := by
  induction c with
  | zero =>
    intro j hj
    obtain rfl : j = 0 := Nat.le_zero.mp hj
    exact hc
  | succ c ih =>
    intro j hj
    obtain hlt | rfl := Nat.lt_or_eq_of_le hj
    · exact ih (hI.downward c hc) j (Nat.lt_succ_iff.mp hlt)
    · exact hc

theorem InOrder.not_waiting (hI : InOrder s) (hc : s.Next c) {j : ℕ} (hj : j < c) :
    ¬ s.Waiting j := by
  rintro ⟨-, hbegun, hleft⟩
  obtain hzero | hdone := hc
  · omega
  · obtain hb | hl := hI.settled j (hI.all_before hdone j (by omega))
    · rw [hbegun] at hb
      cases hb
    · rw [hleft] at hl
      cases hl

/-- An order begins in one place of the code. -/
theorem serveCustomer_begun (h : s.serveCustomer inp t = some s') (hold : s.begun c = false)
    (hnew : s'.begun c = true) : ∃ i, s.place t = .beginning c i := by
  cases hat : s.place t with simp only [State.serveCustomer, hat] at h
  | beginning c' i =>
    cases h
    simp only [go, unlock, Function.update_apply] at hnew
    split at hnew
    case isTrue he => exact ⟨i, by rw [he]⟩
    case isFalse =>
      rw [hold] at hnew
      cases hnew
  | inside k =>
    cases h
    have hsame : (s.sectionBody inp t k).begun = s.begun := by cases k <;> rfl
    rw [hsame, hold] at hnew
    cases hnew
  | _ =>
    try split at h
    all_goals cases h
    all_goals
      have hfalse : s.begun c = true := hnew
      rw [hold] at hfalse
      cases hfalse

/-- As long as only the next customer gives up waiting for a barista: when the order of a
customer begins, no customer before it is still waiting. -/
theorem first_come_first_served (inp : Input) (s s' : State) (a : Move)
    (h : ReachOf (step inp) (fun s a => inTurn s a) (init inp) s)
    (hstep : step inp s a = some s') (k : ℕ) (hold : s.begun k = false)
    (hnew : s'.begun k = true) : ∀ j < k, ¬ s.Waiting j := by
  have hI : InOrder s :=
    h.invariant InOrder (fun _ _ _ hok hI hs => hI.step hok hs) (inOrder_init inp)
  intro j hj
  cases a with
  | tick d =>
    cases hstep
    rw [hold] at hnew
    cases hnew
  | thread t =>
    obtain ⟨i, hat⟩ :=
      serveCustomer_begun (Option.ite_none_right_eq_some.mp hstep).2 hold hnew
    have hnext := hI.knows t
    rw [hat] at hnext
    exact hI.not_waiting hnext hj

/-- Three customers, the second without any patience. -/
def impatient : Input where
  B := 1
  coffeeTypes := [⟨"latte", 1⟩]
  customers := [⟨"latte", 0, 100⟩, ⟨"latte", 0, 0⟩, ⟨"latte", 0, 100⟩]

/-- The first customer is served alone. -/
theorem first_come_first_served_impatient :
    ∃ s s', ReachOf (step impatient) (fun s a => inTurn s a) (init impatient) s ∧
      step impatient s (.thread 1) = some s' ∧ s'.begun 1 = true ∧ ¬ s.Waiting 0 := by
  have hrun : (runAll (fun s a => if inTurn s a then step impatient s a else none)
      (init impatient) (stepsOf 35 0 ++ stepsOf 21 1)).any (fun s =>
        s.place 1 = .beginning 1 0 ∧ s.begun 1 = false) = true := by
    decide +kernel
  obtain ⟨s, hs, hprop⟩ := (Option.any_eq_true _ _).mp hrun
  obtain ⟨hat, hold⟩ := of_decide_eq_true hprop
  have hreach := reachOf_of_runAll hs
  have hstep : ∃ s', step impatient s (.thread 1) = some s' ∧ s'.begun 1 = true := by
    simp [step, State.serveCustomer, hat, impatient, Input.N]
  obtain ⟨s', hs', hnew⟩ := hstep
  exact ⟨s, s', hreach, hs', hnew,
    first_come_first_served impatient s s' _ hreach hs' 1 hold hnew 0 Nat.one_pos⟩

/-- The second customer gives up and sets its flag, and the third is served before the first. -/
theorem served_out_of_turn :
    ∃ s s', Reach (step impatient) (init impatient) s ∧
      step impatient s (.thread 2) = some s' ∧ s.begun 2 = false ∧ s'.begun 2 = true ∧
      s.Waiting 0 := by
  have hrun : (runAll (step impatient) (init impatient)
      (stepsOf 9 0 ++ stepsOf 10 1 ++ [.tick 1] ++ stepsOf 5 1 ++ stepsOf 21 2)).any (fun s =>
        s.place 2 = .beginning 2 0 ∧ s.begun 2 = false ∧
          s.ordered 0 = true ∧ s.begun 0 = false ∧ s.leftFlags 0 = false) = true := by
    decide +kernel
  obtain ⟨s, hs, hprop⟩ := (Option.any_eq_true _ _).mp hrun
  obtain ⟨hat, hold, hwaiting⟩ := of_decide_eq_true hprop
  have hstep : ∃ s', step impatient s (.thread 2) = some s' ∧ s'.begun 2 = true := by
    simp [step, State.serveCustomer, hat, impatient, Input.N]
  obtain ⟨s', hs', hnew⟩ := hstep
  exact ⟨s, s', reach_of_runAll hs, hs', hold, hnew, hwaiting⟩

end XV6AndConcurrency.Cafe
