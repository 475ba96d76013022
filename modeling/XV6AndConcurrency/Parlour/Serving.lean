import XV6AndConcurrency.Parlour.Steps

/-!
# Who is served by whom

Every customer is claimed by one thread, which creates every order thread once.
-/

namespace XV6AndConcurrency.Parlour

open Foundations

/-- The customer that a thread has claimed and not yet finished. -/
def CustomerPlace.serving : CustomerPlace → Option ℕ
  | .serveTest | .ended | .lock .admission | .inside .admission => none
  | .arrivalTest c | .enterTest c | .turn c | .turnCheck c | .giveUpLeft c | .giveUpDone c
  | .create c _ | .join c _ | .tally c _
  | .lock (.arrival c) | .inside (.arrival c)
  | .lock (.enter c) | .inside (.enter c)
  | .lock (.collection c) | .inside (.collection c) => some c

/-- The customer whose order threads are still to be created, from which order on. -/
def CustomerPlace.creating : CustomerPlace → Option IceCream
  | .arrivalTest c | .enterTest c | .turn c | .turnCheck c | .giveUpLeft c | .giveUpDone c
  | .lock (.arrival c) | .inside (.arrival c)
  | .lock (.enter c) | .inside (.enter c) => some (c, 0)
  | .create c i => some (c, i)
  | _ => none

theorem CustomerPlace.serving_of_creating {p : CustomerPlace} {o : IceCream}
    (h : p.creating = some o) : p.serving = some o.1 := by
  unfold creating at h
  split at h <;> first | (cases h; rfl) | cases h

/-- The ice creams of the input. -/
def Input.iceCreams (inp : Input) : Finset IceCream :=
  (Finset.range inp.numCustomers).biUnion fun c =>
    (Finset.range (inp.numIceCreams c)).image fun j => (c, j)

theorem Input.mem_iceCreams {inp : Input} {o : IceCream} :
    o ∈ inp.iceCreams ↔ o.1 < inp.numCustomers ∧ o.2 < inp.numIceCreams o.1 := by
  obtain ⟨c, j⟩ := o
  simp only [iceCreams, Finset.mem_biUnion, Finset.mem_image, Finset.mem_range, Prod.mk.injEq]
  constructor
  · rintro ⟨c', hc, j', hj, rfl, rfl⟩
    exact ⟨hc, hj⟩
  · rintro ⟨hc, hj⟩
    exact ⟨c, hc, j, hj, rfl, rfl⟩

namespace State

variable {inp : Input} {s s' : State} {o : IceCream} {t m : ℕ} {a : Move}

structure Serving (inp : Input) (s : State) : Prop where
  claimed : ∀ t c, (s.customerAt t).serving = some c →
    c < s.served ∧ c < inp.numCustomers ∧ s.admitted c = true
  one : ∀ t t' c, (s.customerAt t).serving = some c → (s.customerAt t').serving = some c → t = t'
  fresh : ∀ t c i, (s.customerAt t).creating = some (c, i) →
    ∀ j, i ≤ j → s.orderAt (c, j) = .idle
  created : ∀ o, s.orderAt o ≠ .idle →
    o.1 < s.served ∧ o ∈ inp.iceCreams ∧ s.admitted o.1 = true
  unclaimed : ∀ c, s.served ≤ c → s.admitted c = false

theorem Serving.makeOrder (hI : Serving inp s) (h : s.makeOrder inp o = some s') :
    Serving inp s' := by
  have hf := makeOrder_frame h
  obtain ⟨claimed, one, fresh, created, unclaimed⟩ := hI
  constructor
  case claimed =>
    rw [hf.customerAt, hf.served, hf.admitted]
    exact claimed
  case one =>
    rw [hf.customerAt]
    exact one
  case fresh =>
    intro t c i hc j hj
    rw [hf.customerAt] at hc
    have hidle := fresh t c i hc j hj
    have hne : (c, j) ≠ o := fun he => hf.exists_before (he ▸ hidle)
    rw [hf.others _ hne, hidle]
  case created =>
    intro x hx
    rw [hf.served, hf.admitted]
    by_cases he : x = o
    · subst he
      exact created x hf.exists_before
    · exact created x (hf.others x he ▸ hx)
  case unclaimed =>
    rw [hf.served, hf.admitted]
    exact unclaimed

theorem Serving.printMachine (hI : Serving inp s) (h : s.printMachine inp m = some s') :
    Serving inp s' := by
  have hf := printMachine_frame h
  obtain ⟨claimed, one, fresh, created, unclaimed⟩ := hI
  constructor
  case claimed => rwa [hf.customerAt, hf.served, hf.admitted]
  case one => rwa [hf.customerAt]
  case fresh => rwa [hf.customerAt, hf.orderAt]
  case created => rwa [hf.orderAt, hf.served, hf.admitted]
  case unclaimed => rwa [hf.served, hf.admitted]

/-- A thread that stays with its customer, or leaves it. -/
theorem Serving.move {x : State} {p : CustomerPlace} (hI : Serving inp s)
    (hserving : p.serving = none ∨ p.serving = (s.customerAt t).serving)
    (hcreating : p.creating = none ∨ p.creating = (s.customerAt t).creating)
    (hcustomer : x.customerAt = s.customerAt) (horder : x.orderAt = s.orderAt)
    (hserved : x.served = s.served) (hadmitted : x.admitted = s.admitted) :
    Serving inp (x.goCustomer t p) := by
  obtain ⟨claimed, one, fresh, created, unclaimed⟩ := hI
  constructor <;> simp only [goCustomer, hcustomer, horder, hserved, hadmitted]
  case claimed =>
    intro t' c hc
    by_cases ht : t' = t <;> grind
  case one =>
    intro t' t'' c hc hc'
    by_cases ht : t' = t <;> by_cases ht' : t'' = t <;> grind
  case fresh =>
    intro t' c i hc j hj
    by_cases ht : t' = t <;> grind
  case created => exact created
  case unclaimed => exact unclaimed

theorem Serving.create {c i : ℕ} (hI : Serving inp s) (hat : s.customerAt t = .create c i)
    (hi : i < inp.numIceCreams c) :
    Serving inp ((s.goOrder (c, i) .waiting).goCustomer t (.create c (i + 1))) := by
  have hserves : (s.customerAt t).serving = some c := by rw [hat]; rfl
  obtain ⟨claimed, one, fresh, created, unclaimed⟩ := hI
  constructor <;> simp only [goCustomer, goOrder]
  case claimed =>
    intro t' c' hc
    by_cases ht : t' = t
    · subst ht
      rw [Function.update_self] at hc
      cases hc
      exact claimed t' c hserves
    · rw [Function.update_of_ne ht] at hc
      exact claimed t' c' hc
  case one =>
    intro t' t'' c' hc hc'
    have hback : ∀ x, (Function.update s.customerAt t (.create c (i + 1)) x).serving = some c' →
        (s.customerAt x).serving = some c' := by
      intro x hx
      by_cases hxt : x = t
      · subst hxt
        rw [Function.update_self] at hx
        rw [hserves]
        exact hx
      · rwa [Function.update_of_ne hxt] at hx
    exact one t' t'' c' (hback t' hc) (hback t'' hc')
  case fresh =>
    intro t' c' i' hc j hj
    by_cases ht : t' = t
    · subst ht
      rw [Function.update_self] at hc
      cases hc
      have hne : ((c, j) : IceCream) ≠ (c, i) := by
        intro he
        cases he
        omega
      rw [Function.update_of_ne hne]
      exact fresh t' c i (by rw [hat]; rfl) j (by omega)
    · rw [Function.update_of_ne ht] at hc
      have hne : c' ≠ c := by
        intro he
        subst he
        exact ht (one t' t c' (CustomerPlace.serving_of_creating hc) hserves)
      rw [Function.update_of_ne (by simp [hne])]
      exact fresh t' c' i' hc j hj
  case created =>
    intro o ho
    by_cases he : o = (c, i)
    · subst he
      obtain ⟨hserved, hc, hadmitted⟩ := claimed t c hserves
      exact ⟨hserved, Input.mem_iceCreams.mpr ⟨hc, hi⟩, hadmitted⟩
    · exact created o (by rwa [Function.update_of_ne he] at ho)
  case unclaimed => exact unclaimed

theorem Serving.admission (hI : Serving inp s) (hat : s.customerAt t = .inside .admission) :
    Serving inp (s.customerSection inp t .admission) := by
  obtain ⟨claimed, one, fresh, created, unclaimed⟩ := hI
  have hcreated : ∀ o, s.orderAt o ≠ .idle →
      o.1 < s.served + 1 ∧ o ∈ inp.iceCreams ∧
        Function.update s.admitted s.served true o.1 = true := by
    intro o ho
    obtain ⟨hserved, hmem, hadmitted⟩ := created o ho
    exact ⟨by omega, hmem, by rw [Function.update_of_ne (by omega)]; exact hadmitted⟩
  simp only [customerSection]
  split
  case isTrue =>
    constructor <;> simp only [goCustomer, unlock]
    case claimed =>
      intro t' c hc
      by_cases ht : t' = t
      · subst ht
        simp [CustomerPlace.serving] at hc
      · rw [Function.update_of_ne ht] at hc
        have := claimed t' c hc
        exact ⟨by omega, this.2⟩
    case one =>
      intro t' t'' c hc hc'
      by_cases ht : t' = t <;> by_cases ht' : t'' = t <;> grind [CustomerPlace.serving]
    case fresh =>
      intro t' c i hc
      by_cases ht : t' = t
      · subst ht
        simp [CustomerPlace.creating] at hc
      · rw [Function.update_of_ne ht] at hc
        exact fresh t' c i hc
    case created =>
      intro o ho
      have := created o ho
      exact ⟨by omega, this.2⟩
    case unclaimed =>
      intro c hc
      exact unclaimed c (by omega)
  case isFalse =>
    constructor <;> simp only [goCustomer, unlock]
    case claimed =>
      intro t' c hc
      by_cases ht : t' = t
      · subst ht
        rw [Function.update_self] at hc
        split at hc
        · cases hc
        · cases hc
          exact ⟨by omega, by omega, Function.update_self ..⟩
      · rw [Function.update_of_ne ht] at hc
        obtain ⟨hserved, hnum, hadmitted⟩ := claimed t' c hc
        exact ⟨by omega, hnum, by rw [Function.update_of_ne (by omega)]; exact hadmitted⟩
    case one =>
      intro t' t'' c hc hc'
      have hnew : ∀ x, (if inp.numCustomers ≤ s.served then CustomerPlace.ended
          else .lock (.arrival s.served)).serving = some c → (s.customerAt x).serving ≠ some c := by
        intro x hx hold
        split at hx
        · cases hx
        · cases hx
          exact absurd (claimed x _ hold).1 (lt_irrefl _)
      by_cases ht : t' = t <;> by_cases ht' : t'' = t <;> grind
    case fresh =>
      intro t' c i hc j hj
      by_cases ht : t' = t
      · subst ht
        rw [Function.update_self] at hc
        split at hc
        · cases hc
        · cases hc
          by_contra hidle
          exact absurd (created _ hidle).1 (lt_irrefl _)
      · rw [Function.update_of_ne ht] at hc
        exact fresh t' c i hc j hj
    case created => exact hcreated
    case unclaimed =>
      intro c hc
      rw [Function.update_of_ne (by omega)]
      exact unclaimed c (by omega)

theorem Serving.serveCustomer (hI : Serving inp s) (h : s.serveCustomer inp t = some s') :
    Serving inp s' := by
  unfold State.serveCustomer at h
  split at h
  case h_1 => cases h
  case h_9 c i hat =>
    split at h
    case isTrue hi =>
      cases h
      exact hI.create hat hi
    case isFalse =>
      cases h
      exact hI.move (Or.inr (by rw [hat]; rfl)) (Or.inl rfl) rfl rfl rfl rfl
  case h_13 k hat =>
    cases h
    cases k with
    | admission => exact hI.admission hat
    | arrival c | enter c =>
      exact hI.move (Or.inr (by rw [hat]; rfl)) (Or.inr (by rw [hat]; rfl)) rfl rfl rfl rfl
    | collection c => exact hI.move (Or.inl rfl) (Or.inl rfl) rfl rfl rfl rfl
  case h_12 k hat =>
    split at h
    all_goals cases h
    cases k
    all_goals exact hI.move (Or.inr (by rw [hat]; rfl)) (Or.inr (by rw [hat]; rfl)) rfl rfl rfl rfl
  all_goals
    rename_i hat
    try split at h
    try split at h
    all_goals cases h
    all_goals
      refine hI.move ?_ ?_ rfl rfl rfl rfl
      · rw [hat]
        grind [CustomerPlace.serving]
      · rw [hat]
        grind [CustomerPlace.creating]

theorem Serving.step (hI : Serving inp s) (h : step inp s a = some s') : Serving inp s' := by
  cases a with
  | tick d =>
    cases h
    exact { hI with }
  | main =>
    cases h
    exact { hI with }
  | thread th =>
    cases th with
    | machine m => exact hI.printMachine (Option.ite_none_right_eq_some.mp h).2
    | customer t => exact hI.serveCustomer (Option.ite_none_right_eq_some.mp h).2
    | order o => exact hI.makeOrder h

/-- The flags of an order and the uses of its thread. -/
def SameFlags (s s' : State) (o : IceCream) : Prop :=
  s'.started o = s.started o ∧ s'.done o = s.done o ∧ s'.used o = s.used o

/-- A creation finds no thread under the name of the new one. -/
theorem serveCustomer_orderAt (hI : Serving inp s) (h : s.serveCustomer inp t = some s')
    (o : IceCream) :
    s'.orderAt o = s.orderAt o ∨ s.orderAt o = .idle ∧ s'.orderAt o = .waiting := by
  unfold State.serveCustomer at h
  split at h
  case h_9 c i hat =>
    split at h
    all_goals cases h
    case isTrue =>
      by_cases ho : o = (c, i)
      · subst ho
        exact Or.inr ⟨hI.fresh t c i (by rw [hat]; rfl) i le_rfl, by simp⟩
      · exact Or.inl (by simp [ho])
    case isFalse => exact Or.inl rfl
  case h_13 k hat =>
    cases h
    cases k with
    | admission =>
      simp only [customerSection]
      split <;> exact Or.inl rfl
    | arrival c | enter c | collection c => exact Or.inl rfl
  all_goals
    try split at h
    try split at h
    all_goals cases h
    all_goals exact Or.inl rfl

/-- What a step does to an order: its thread takes a step, is created, or nothing. -/
inductive OrderStep (inp : Input) (s : State) (a : Move) (s' : State) (o : IceCream) : Prop
  | own (hmove : a = .thread (.order o)) (h : s.makeOrder inp o = some s')
  | create (hidle : s.orderAt o = .idle) (hat : s'.orderAt o = .waiting) (h : SameFlags s s' o)
  | other (hat : s'.orderAt o = s.orderAt o) (h : SameFlags s s' o)

theorem orderStep (hI : Serving inp s) (h : Parlour.step inp s a = some s') (o : IceCream) :
    OrderStep inp s a s' o := by
  cases a with
  | tick d | main =>
    cases h
    exact .other rfl ⟨rfl, rfl, rfl⟩
  | thread th =>
    cases th with
    | machine m =>
      have hf := printMachine_frame (Option.ite_none_right_eq_some.mp h).2
      exact .other (by rw [hf.orderAt]) ⟨by rw [hf.started], by rw [hf.done], by rw [hf.used]⟩
    | customer t =>
      have hstep := (Option.ite_none_right_eq_some.mp h).2
      have hf := serveCustomer_frame hstep
      have hsame : SameFlags s s' o := ⟨by rw [hf.started], by rw [hf.done], by rw [hf.used]⟩
      obtain hat | ⟨hidle, hat⟩ := serveCustomer_orderAt hI hstep o
      · exact .other hat hsame
      · exact .create hidle hat hsame
    | order x =>
      by_cases hx : o = x
      · subst hx
        exact .own rfl h
      · have hf := makeOrder_frame h
        exact .other (hf.others o hx) (hf.flags o hx)

/-- A thread that has returned is not started again. -/
theorem ended_step (hI : Serving inp s) (h : Parlour.step inp s a = some s')
    (ho : s.orderAt o = .ended) : s'.orderAt o = .ended := by
  cases orderStep hI h o with
  | own _ hown =>
    unfold State.makeOrder at hown
    rw [ho] at hown
    cases hown
  | create hidle _ _ =>
    rw [ho] at hidle
    cases hidle
  | other hat _ => rw [hat, ho]

theorem serving_init (inp : Input) : Serving inp (init inp) := by
  constructor
  case claimed => nofun
  case one => nofun
  case fresh => nofun
  case created => exact fun o ho => absurd rfl ho
  case unclaimed => exact fun _ _ => rfl

end State

end XV6AndConcurrency.Parlour
