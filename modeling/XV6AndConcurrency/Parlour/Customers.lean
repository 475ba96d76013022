import XV6AndConcurrency.Parlour.Lifecycle

/-!
# The fate of the customers

A customer collects only if every order is done, and whoever is served and has left
before has an order whose thread has returned without it.
-/

namespace XV6AndConcurrency.Parlour

open Foundations State

variable {inp : Input} {s s' : State} {o : IceCream} {t m c : ℕ} {a : Move}

namespace State

/-- The thread of the order has returned without it. -/
def Unfinished (s : State) (o : IceCream) : Prop := s.orderAt o = .ended ∧ s.done o = false

/-- What a thread knows of the orders of its customer. -/
def Knows (inp : Input) (s : State) : CustomerPlace → Prop
  | .giveUpLeft _ | .giveUpDone _ => False
  | .join c i => ∀ j < i, s.orderAt (c, j) = .ended
  | .tally c i =>
    (∀ j < inp.numIceCreams c, s.orderAt (c, j) = .ended) ∧ ∀ j < i, s.done (c, j) = true
  | .lock (.collection c) | .inside (.collection c) =>
    ∀ j < inp.numIceCreams c, s.done (c, j) = true
  | _ => True

end State

structure Customers (inp : Input) (s : State) : Prop where
  lifecycle : Lifecycle inp s
  knows : ∀ t, s.Knows inp (s.customerAt t)
  notDone : ∀ c, s.customerDone c = false
  left_served : ∀ c, s.left c = true → c < s.served
  left_serving : ∀ t c, s.left c = true → (s.customerAt t).serving = some c →
    ∃ j < inp.numIceCreams c, s.Unfinished (c, j)
  collected : ∀ c, s.collected c = true →
    s.left c = true ∧ (∀ j < inp.numIceCreams c, s.done (c, j) = true) ∧
      ∀ t, (s.customerAt t).serving ≠ some c
  reported : ∀ c, s.reported c = true → s.left c = true ∧ s.collected c = false
  fate : ∀ o, s.orderAt o ≠ .idle →
    (∃ t, (s.customerAt t).serving = some o.1) ∨ s.collected o.1 = true ∨
      ∃ j < inp.numIceCreams o.1, s.Unfinished (o.1, j)

theorem done_mono (hI : Serving inp s) (h : step inp s a = some s') (ho : s.done o = true) :
    s'.done o = true := by
  cases orderStep hI h o with
  | own _ hown =>
    cases makeOrder_toppingStep hown with
    | keep _ _ hdone | use _ _ _ _ _ _ _ hdone => rw [hdone, ho]
    | complete _ _ _ _ _ _ hdone => rw [hdone, Function.update_self]
  | create _ _ hsame | other _ hsame => rw [hsame.2.1, ho]

theorem Unfinished.step (hI : Serving inp s) (h : step inp s a = some s') (ho : s.Unfinished o) :
    s'.Unfinished o := by
  refine ⟨ended_step hI h ho.1, ?_⟩
  cases orderStep hI h o with
  | own _ hown =>
    unfold State.makeOrder at hown
    rw [ho.1] at hown
    cases hown
  | create _ _ hsame | other _ hsame => rw [hsame.2.1, ho.2]

theorem Knows.mono {p : CustomerPlace} (hdone : ∀ o, s.done o = true → s'.done o = true)
    (hended : ∀ o, s.orderAt o = .ended → s'.orderAt o = .ended) (hK : s.Knows inp p) :
    s'.Knows inp p := by
  cases p with
  | lock k | inside k => cases k <;> grind [Knows]
  | _ => grind [Knows]

/-- Order threads leave `serve_customer` alone, and a rejected customer has an order without
ice cream. -/
theorem Customers.makeOrder (hI : Customers inp s)
    (h : step inp s (.thread (.order o)) = some s') : Customers inp s' := by
  have hserving := hI.lifecycle.serving
  have hf := makeOrder_frame h
  have hfate : ∀ x : ℕ, (∃ j < inp.numIceCreams x, s.Unfinished (x, j)) →
      ∃ j < inp.numIceCreams x, s'.Unfinished (x, j) := by
    rintro x ⟨j, hj, hu⟩
    exact ⟨j, hj, Unfinished.step hserving h hu⟩
  have hreject : ∀ k, s.orderAt o = .inside k → k.rejects = true → s'.orderAt o = .ended →
      s'.done = s.done → o.2 < inp.numIceCreams o.1 ∧ s'.Unfinished o := by
    intro k hat hk hafter hdone
    have hK := hI.lifecycle.known o
    rw [hat] at hK
    have hfalse : s.done o = false := by cases k <;> grind [Known, OrderSection.rejects]
    have hmem := (hserving.created o (by simp [hat])).2.1
    exact ⟨(Input.mem_iceCreams.mp hmem).2, hafter, by rw [hdone, hfalse]⟩
  constructor
  case lifecycle => exact hI.lifecycle.step h
  case knows =>
    intro t
    rw [hf.customerAt]
    exact Knows.mono (fun _ => done_mono hserving h) (fun _ => ended_step hserving h) (hI.knows t)
  case notDone => rw [hf.customerDone]; exact hI.notDone
  case left_served =>
    intro c hc
    rw [hf.served]
    cases makeOrder_leavingStep h with
    | keep hleft | leave _ hleft => exact hI.left_served c (hleft ▸ hc)
    | reject k hat _ _ _ _ hleft =>
      rw [hleft, Function.update_apply] at hc
      split at hc
      case isTrue he =>
        rw [he]
        exact (hserving.created o (by simp [hat])).1
      case isFalse => exact hI.left_served c hc
  case left_serving =>
    intro t c hc ht
    rw [hf.customerAt] at ht
    cases makeOrder_leavingStep h with
    | keep hleft | leave _ hleft => exact hfate c (hI.left_serving t c (hleft ▸ hc) ht)
    | reject k hat hk _ hafter hdone hleft =>
      rw [hleft, Function.update_apply] at hc
      split at hc
      case isTrue he =>
        subst he
        exact ⟨o.2, hreject k hat hk hafter hdone⟩
      case isFalse => exact hfate c (hI.left_serving t c hc ht)
  case collected =>
    intro c hc
    rw [hf.collected] at hc
    obtain ⟨hleft, hdone, hnobody⟩ := hI.collected c hc
    rw [hf.customerAt]
    exact ⟨left_mono h hleft, fun j hj => done_mono hserving h (hdone j hj), hnobody⟩
  case reported =>
    intro c hc
    rw [hf.collected]
    cases makeOrder_leavingStep h with
    | keep hleft hreported | leave _ hleft hreported =>
      rw [hleft]
      exact hI.reported c (hreported ▸ hc)
    | reject k _ _ hstayed _ _ hleft hreported =>
      rw [hreported, Function.update_apply] at hc
      split at hc
      case isTrue he =>
        subst he
        refine ⟨by rw [hleft, Function.update_self], ?_⟩
        by_contra hcollected
        have := (hI.collected o.1 (by simpa using hcollected)).1
        rw [hstayed] at this
        cases this
      case isFalse =>
        have := hI.reported c hc
        exact ⟨left_mono h this.1, this.2⟩
  case fate =>
    intro x hx
    rw [hf.customerAt, hf.collected]
    have hold : s.orderAt x ≠ .idle := by
      by_cases he : x = o
      · exact he ▸ hf.exists_before
      · exact hf.others x he ▸ hx
    obtain ht | hc | hu := hI.fate x hold
    · exact Or.inl ht
    · exact Or.inr (Or.inl hc)
    · exact Or.inr (Or.inr (hfate x.1 hu))

/-- Machines do not touch what customers depend on. -/
theorem Customers.printMachine (hI : Customers inp s)
    (h : step inp s (.thread (.machine m)) = some s') : Customers inp s' := by
  have hL := hI.lifecycle.step h
  have hf := printMachine_frame (Option.ite_none_right_eq_some.mp h).2
  obtain ⟨-, knows, notDone, left_served, left_serving, collected, reported, fate⟩ := hI
  unfold Unfinished at left_serving fate
  constructor
  case lifecycle => exact hL
  case knows =>
    intro t
    rw [hf.customerAt]
    refine Knows.mono (fun o => ?_) (fun o => ?_) (knows t)
    · rw [hf.done]
      exact id
    · rw [hf.orderAt]
      exact id
  all_goals
    try unfold Unfinished
    simp only [hf.customerAt, hf.customerDone, hf.left, hf.served, hf.done, hf.orderAt,
      hf.collected, hf.reported]
    assumption

/-- A thread moves without touching the fate of its customer, or leaves a customer with an
order that has not been done. -/
theorem Customers.move {x : State} {p : CustomerPlace} (hI : Customers inp s)
    (hL : Lifecycle inp (x.goCustomer t p)) (hK : s.Knows inp p)
    (hserving : p.serving = (s.customerAt t).serving ∨ p.serving = none ∧
      ∀ c, (s.customerAt t).serving = some c → ∃ j < inp.numIceCreams c, s.Unfinished (c, j))
    (hcustomer : x.customerAt = s.customerAt) (horder : x.orderAt = s.orderAt)
    (hdone : x.done = s.done) (hleft : x.left = s.left) (hserved : x.served = s.served)
    (hnotDone : x.customerDone = s.customerDone) (hcollected : x.collected = s.collected)
    (hreported : x.reported = s.reported) : Customers inp (x.goCustomer t p) := by
  have hback : ∀ t' c, (Function.update s.customerAt t p t').serving = some c →
      (s.customerAt t').serving = some c := by
    intro t' c hc
    by_cases ht : t' = t
    · subst ht
      rw [Function.update_self] at hc
      obtain hsame | ⟨hnone, -⟩ := hserving
      · rwa [hsame] at hc
      · rw [hnone] at hc
        cases hc
    · rwa [Function.update_of_ne ht] at hc
  obtain ⟨-, knows, notDone, left_served, left_serving, collected, reported, fate⟩ := hI
  unfold Unfinished at left_serving fate hserving
  constructor
  case lifecycle => exact hL
  case knows =>
    intro t'
    have hsame : s.Knows inp (Function.update s.customerAt t p t') := by
      by_cases ht : t' = t
      · subst ht
        rwa [Function.update_self]
      · rw [Function.update_of_ne ht]
        exact knows t'
    simp only [goCustomer, hcustomer]
    refine Knows.mono (fun o => ?_) (fun o => ?_) hsame
    · rw [hdone]
      exact id
    · rw [horder]
      exact id
  case notDone => rw [goCustomer, hnotDone]; exact notDone
  case left_served => rw [goCustomer, hleft, hserved]; exact left_served
  case left_serving =>
    unfold Unfinished
    simp only [goCustomer, hcustomer, horder, hdone, hleft]
    intro t' c hc ht
    exact left_serving t' c hc (hback t' c ht)
  case collected =>
    simp only [goCustomer, hcustomer, hdone, hleft, hcollected]
    intro c hc
    obtain ⟨hl, hd, hnobody⟩ := collected c hc
    exact ⟨hl, hd, fun t' ht => hnobody t' (hback t' c ht)⟩
  case reported => rw [goCustomer, hreported, hleft, hcollected]; exact reported
  case fate =>
    unfold Unfinished
    simp only [goCustomer, hcustomer, horder, hdone, hcollected]
    intro o ho
    obtain ⟨t', ht'⟩ | hc := fate o ho
    · by_cases ht : t' = t
      · subst ht
        obtain hsame | ⟨-, hleave⟩ := hserving
        · exact Or.inl ⟨t', by rw [Function.update_self, hsame, ht']⟩
        · exact Or.inr (Or.inr (hleave o.1 ht'))
      · exact Or.inl ⟨t', by rw [Function.update_of_ne ht, ht']⟩
    · exact Or.inr hc

theorem Customers.create {i : ℕ} (hI : Customers inp s) (hat : s.customerAt t = .create c i)
    (h : step inp s (.thread (.customer t)) =
      some ((s.goOrder (c, i) .waiting).goCustomer t (.create c (i + 1)))) :
    Customers inp ((s.goOrder (c, i) .waiting).goCustomer t (.create c (i + 1))) := by
  have hsv := hI.lifecycle.serving
  have hserving : ∀ t', (Function.update s.customerAt t (.create c (i + 1)) t').serving =
      (s.customerAt t').serving := by
    intro t'
    by_cases ht : t' = t
    · subst ht
      rw [Function.update_self, hat]
      rfl
    · rw [Function.update_of_ne ht]
  have hfate : ∀ x : ℕ, (∃ j < inp.numIceCreams x, s.Unfinished (x, j)) →
      ∃ j < inp.numIceCreams x,
        ((s.goOrder (c, i) .waiting).goCustomer t (.create c (i + 1))).Unfinished (x, j) :=
    fun x ⟨j, hj, hu⟩ => ⟨j, hj, Unfinished.step hsv h hu⟩
  constructor
  case lifecycle => exact hI.lifecycle.step h
  case knows =>
    intro t'
    refine Knows.mono (fun _ => done_mono hsv h) (fun _ => ended_step hsv h) ?_
    by_cases ht : t' = t
    · subst ht
      simp [Knows]
    · simp only [goCustomer, goOrder, Function.update_of_ne ht]
      exact hI.knows t'
  case notDone => exact hI.notDone
  case left_served => exact hI.left_served
  case left_serving =>
    intro t' x hx ht
    rw [goCustomer, goOrder, hserving] at ht
    exact hfate x (hI.left_serving t' x hx ht)
  case collected =>
    intro x hx
    simp only [goCustomer, goOrder, hserving]
    exact hI.collected x hx
  case reported => exact hI.reported
  case fate =>
    intro o ho
    by_cases ho' : o = (c, i)
    · subst ho'
      exact Or.inl ⟨t, by simp [CustomerPlace.serving]⟩
    · simp only [goCustomer, goOrder, Function.update_of_ne ho'] at ho
      obtain ⟨t', ht'⟩ | hc | hu := hI.fate o ho
      · exact Or.inl ⟨t', by rw [goCustomer, goOrder, hserving, ht']⟩
      · exact Or.inr (Or.inl hc)
      · exact Or.inr (Or.inr (hfate o.1 hu))

theorem Customers.collection (hI : Customers inp s)
    (hat : s.customerAt t = .inside (.collection c))
    (hL : Lifecycle inp (s.customerSection inp t (.collection c))) :
    Customers inp (s.customerSection inp t (.collection c)) := by
  have hsv := hI.lifecycle.serving
  have hdone : ∀ j < inp.numIceCreams c, s.done (c, j) = true := by
    have := hI.knows t
    rwa [hat] at this
  have hserves : (s.customerAt t).serving = some c := by rw [hat]; rfl
  have hleft : s.left c = false := by
    by_contra hleft
    obtain ⟨j, hj, hu⟩ := hI.left_serving t c (by simpa using hleft) hserves
    have := hdone j hj
    rw [hu.2] at this
    cases this
  have hback : ∀ t' x, (Function.update s.customerAt t .serveTest t').serving = some x →
      (s.customerAt t').serving = some x ∧ x ≠ c := by
    intro t' x hx
    by_cases ht : t' = t
    · subst ht
      rw [Function.update_self] at hx
      cases hx
    · rw [Function.update_of_ne ht] at hx
      refine ⟨hx, ?_⟩
      rintro rfl
      exact ht (hsv.one t' t x hx hserves)
  constructor
  case lifecycle => exact hL
  case knows =>
    intro t'
    by_cases ht : t' = t
    · subst ht
      simp [customerSection, Knows]
    · simp only [customerSection, goCustomer, unlock, readClock, Function.update_of_ne ht]
      exact Knows.mono (fun _ => id) (fun _ => id) (hI.knows t')
  case notDone => exact hI.notDone
  case left_served =>
    intro x hx
    by_cases hxc : x = c
    · subst hxc
      exact (hsv.claimed t x hserves).1
    · simp only [customerSection, goCustomer, unlock, readClock, Function.update_of_ne hxc] at hx
      exact hI.left_served x hx
  case left_serving =>
    intro t' x hx ht
    obtain ⟨ht, hxc⟩ := hback t' x ht
    simp only [customerSection, goCustomer, unlock, readClock, Function.update_of_ne hxc] at hx
    exact hI.left_serving t' x hx ht
  case collected =>
    intro x hx
    by_cases hxc : x = c
    · subst hxc
      exact ⟨Function.update_self .., hdone, fun t' ht => (hback t' x ht).2 rfl⟩
    · simp only [customerSection, goCustomer, unlock, readClock, Function.update_of_ne hxc] at hx ⊢
      obtain ⟨hl, hd, hnobody⟩ := hI.collected x hx
      exact ⟨hl, hd, fun t' ht => hnobody t' (hback t' x ht).1⟩
  case reported =>
    intro x hx
    have hold := hI.reported x hx
    have hxc : x ≠ c := by
      rintro rfl
      rw [hleft] at hold
      cases hold.1
    simp only [customerSection, goCustomer, unlock, readClock, Function.update_of_ne hxc]
    exact hold
  case fate =>
    intro o ho
    by_cases hoc : o.1 = c
    · refine Or.inr (Or.inl ?_)
      simp [customerSection, hoc]
    · obtain ⟨t', ht'⟩ | hc | hu := hI.fate o ho
      · have ht : t' ≠ t := by
          rintro rfl
          rw [hserves] at ht'
          exact hoc (Option.some.inj ht').symm
        refine Or.inl ⟨t', ?_⟩
        simp only [customerSection, goCustomer, unlock, readClock, Function.update_of_ne ht]
        exact ht'
      · refine Or.inr (Or.inl ?_)
        simp only [customerSection, goCustomer, unlock, readClock, Function.update_of_ne hoc]
        exact hc
      · exact Or.inr (Or.inr hu)

theorem Customers.admission (hI : Customers inp s) (hat : s.customerAt t = .inside .admission)
    (hL : Lifecycle inp (s.customerSection inp t .admission)) :
    Customers inp (s.customerSection inp t .admission) := by
  have hsv := hI.lifecycle.serving
  have hnone : (s.customerAt t).serving = none := by rw [hat]; rfl
  have hfresh : s.left s.served = false := by
    by_contra hleft
    exact absurd (hI.left_served s.served (by simpa using hleft)) (lt_irrefl _)
  have hcollected : ∀ c, s.collected c = true → c < s.served :=
    fun c hc => hI.left_served c (hI.collected c hc).1
  have hclaimed : ∀ t' c, (s.customerAt t').serving = some c → c < s.served :=
    fun t' c ht => (hsv.claimed t' c ht).1
  have hother : ∀ o, s.orderAt o ≠ .idle → ∀ p, (∃ t', (s.customerAt t').serving = some o.1) →
      ∃ t', (Function.update s.customerAt t p t').serving = some o.1 := by
    rintro o - p ⟨t', ht'⟩
    have ht : t' ≠ t := by
      rintro rfl
      rw [hnone] at ht'
      cases ht'
    exact ⟨t', by rw [Function.update_of_ne ht, ht']⟩
  simp only [customerSection] at hL ⊢
  split
  case isTrue hfull =>
    rw [if_pos hfull] at hL
    have hback : ∀ t' c, (Function.update s.customerAt t .ended t').serving = some c →
        (s.customerAt t').serving = some c := by
      intro t' c hc
      by_cases ht : t' = t
      · subst ht
        rw [Function.update_self] at hc
        cases hc
      · rwa [Function.update_of_ne ht] at hc
    have hleft : ∀ c, c ≠ s.served → Function.update s.left s.served true c = s.left c :=
      fun c hc => Function.update_of_ne hc _ _
    constructor <;> simp only [goCustomer, unlock]
    case lifecycle => exact hL
    case knows =>
      intro t'
      by_cases ht : t' = t
      · subst ht
        simp [Knows]
      · rw [Function.update_of_ne ht]
        exact Knows.mono (fun _ => id) (fun _ => id) (hI.knows t')
    case notDone => exact hI.notDone
    case left_served =>
      intro c hc
      by_cases hcs : c = s.served
      · omega
      · rw [hleft c hcs] at hc
        exact Nat.lt_succ_of_lt (hI.left_served c hc)
    case left_serving =>
      intro t' c hc ht
      have hserving := hback t' c ht
      rw [hleft c (hclaimed t' c hserving).ne] at hc
      exact hI.left_serving t' c hc hserving
    case collected =>
      intro c hc
      obtain ⟨hl, hd, hnobody⟩ := hI.collected c hc
      rw [hleft c (hcollected c hc).ne]
      exact ⟨hl, hd, fun t' ht => hnobody t' (hback t' c ht)⟩
    case reported =>
      intro c hc
      obtain ⟨hl, hnc⟩ := hI.reported c hc
      rw [hleft c (hI.left_served c hl).ne]
      exact ⟨hl, hnc⟩
    case fate =>
      intro o ho
      obtain ht | hrest := hI.fate o ho
      · exact Or.inl (hother o ho _ ht)
      · exact Or.inr hrest
  case isFalse hroom =>
    rw [if_neg hroom] at hL
    have hback : ∀ t' c, (Function.update s.customerAt t (if inp.numCustomers ≤ s.served then .ended
        else .lock (.arrival s.served)) t').serving = some c →
        (s.customerAt t').serving = some c ∨ c = s.served := by
      intro t' c hc
      by_cases ht : t' = t
      · subst ht
        rw [Function.update_self] at hc
        split at hc
        · cases hc
        · cases hc
          exact Or.inr rfl
      · rw [Function.update_of_ne ht] at hc
        exact Or.inl hc
    constructor <;> simp only [goCustomer, unlock]
    case lifecycle => exact hL
    case knows =>
      intro t'
      by_cases ht : t' = t
      · subst ht
        rw [Function.update_self]
        split <;> simp [Knows]
      · rw [Function.update_of_ne ht]
        exact Knows.mono (fun _ => id) (fun _ => id) (hI.knows t')
    case notDone => exact hI.notDone
    case left_served =>
      intro c hc
      exact Nat.lt_succ_of_lt (hI.left_served c hc)
    case left_serving =>
      intro t' c hc ht
      obtain hold | rfl := hback t' c ht
      · exact hI.left_serving t' c hc hold
      · rw [hfresh] at hc
        cases hc
    case collected =>
      intro c hc
      obtain ⟨hl, hd, hnobody⟩ := hI.collected c hc
      refine ⟨hl, hd, fun t' ht => ?_⟩
      obtain hold | rfl := hback t' c ht
      · exact hnobody t' hold
      · exact absurd (hcollected _ hc) (lt_irrefl _)
    case reported => exact hI.reported
    case fate =>
      intro o ho
      obtain ht | hrest := hI.fate o ho
      · exact Or.inl (hother o ho _ ht)
      · exact Or.inr hrest

theorem Customers.serveCustomer (hI : Customers inp s)
    (h : step inp s (.thread (.customer t)) = some s') : Customers inp s' := by
  have hL := hI.lifecycle.step h
  have hstep := h
  have hK := hI.knows t
  replace h := (Option.ite_none_right_eq_some.mp h).2
  unfold State.serveCustomer at h
  split at h
  case h_1 => cases h
  case h_6 c hat =>
    cases h
    have hleft : s.left c = false := by
      by_contra hleft
      have hserves : (s.customerAt t).serving = some c := by rw [hat]; rfl
      obtain ⟨j, -, hu⟩ := hI.left_serving t c (by simpa using hleft) hserves
      have hidle := hI.lifecycle.serving.fresh t c 0 (by rw [hat]; rfl) j (Nat.zero_le j)
      rw [hu.1] at hidle
      cases hidle
    refine hI.move hL ?_ ?_ rfl rfl rfl rfl rfl rfl rfl rfl
    · simp [hleft, hI.notDone c, Knows]
    · rw [hat]
      simp [hleft, hI.notDone c, CustomerPlace.serving]
  case h_7 | h_8 =>
    rename_i hat
    rw [hat] at hK
    exact hK.elim
  case h_9 c i hat =>
    split at h
    case isTrue =>
      cases h
      exact hI.create hat hstep
    case isFalse =>
      cases h
      refine hI.move hL ?_ (Or.inl (by rw [hat]; rfl)) rfl rfl rfl rfl rfl rfl rfl rfl
      exact fun j hj => absurd hj (Nat.not_lt_zero j)
  case h_10 c i hat =>
    rw [hat] at hK
    split at h
    case isTrue hi =>
      split at h
      all_goals cases h
      case isTrue hended =>
      refine hI.move hL ?_ (Or.inl (by rw [hat]; rfl)) rfl rfl rfl rfl rfl rfl rfl rfl
      intro j hj
      obtain hlt | rfl := Nat.lt_succ_iff_lt_or_eq.mp hj
      · exact hK j hlt
      · exact hended
    case isFalse hi =>
      cases h
      refine hI.move hL ?_ (Or.inl (by rw [hat]; rfl)) rfl rfl rfl rfl rfl rfl rfl rfl
      exact ⟨fun j hj => hK j (by omega), fun j hj => absurd hj (Nat.not_lt_zero j)⟩
  case h_11 c i hat =>
    rw [hat] at hK
    obtain ⟨hended, hdone⟩ := hK
    cases h
    by_cases hi : i < inp.numIceCreams c
    · simp only [if_pos hi] at hL ⊢
      by_cases hd : s.done (c, i) = true
      · simp only [if_pos hd] at hL ⊢
        refine hI.move hL ?_ (Or.inl (by rw [hat]; rfl)) rfl rfl rfl rfl rfl rfl rfl rfl
        refine ⟨hended, fun j hj => ?_⟩
        obtain hlt | rfl := Nat.lt_succ_iff_lt_or_eq.mp hj
        · exact hdone j hlt
        · exact hd
      · simp only [if_neg hd] at hL ⊢
        refine hI.move hL trivial ?_ rfl rfl rfl rfl rfl rfl rfl rfl
        refine Or.inr ⟨rfl, fun c' hc => ?_⟩
        rw [hat] at hc
        cases hc
        exact ⟨i, hi, hended i hi, by simpa using hd⟩
    · simp only [if_neg hi] at hL ⊢
      refine hI.move hL ?_ (Or.inl (by rw [hat]; rfl)) rfl rfl rfl rfl rfl rfl rfl rfl
      exact fun j hj => hdone j (by omega)
  case h_12 k hat =>
    rw [hat] at hK
    split at h
    all_goals cases h
    refine hI.move hL ?_ (Or.inl ?_) rfl rfl rfl rfl rfl rfl rfl rfl
    · cases k <;> exact hK
    · rw [hat]
      cases k <;> rfl
  case h_13 k hat =>
    cases h
    cases k with
    | admission => exact hI.admission hat hL
    | arrival c | enter c =>
      exact hI.move hL trivial (Or.inl (by rw [hat]; rfl)) rfl rfl rfl rfl rfl rfl rfl rfl
    | collection c => exact hI.collection hat hL
  all_goals
    rename_i hat
    cases h
    refine hI.move hL ?_ (Or.inl ?_) rfl rfl rfl rfl rfl rfl rfl rfl
    · split <;> trivial
    · rw [hat]
      split <;> rfl

theorem Customers.step (hI : Customers inp s) (h : step inp s a = some s') :
    Customers inp s' := by
  cases a with
  | tick d | main =>
    have hL := hI.lifecycle.step h
    cases h
    refine { hI with lifecycle := hL, knows := fun t => ?_ }
    exact Knows.mono (fun _ => id) (fun _ => id) (hI.knows t)
  | thread th =>
    cases th with
    | machine m => exact hI.printMachine h
    | customer t => exact hI.serveCustomer h
    | order o => exact hI.makeOrder h

theorem customers_init (inp : Input) : Customers inp (init inp) where
  lifecycle := lifecycle_init inp
  knows _ := trivial
  notDone _ := rfl
  left_served := nofun
  left_serving := nofun
  collected := nofun
  reported := nofun
  fate _ ho := absurd rfl ho

/-- What a step of a `serve_customer` thread does with the customers and their number. -/
inductive QueueStep (inp : Input) (s s' : State) (t : ℕ) : Prop
  | keep (hadmitted : s'.admitted = s.admitted) (hleft : s'.left = s.left)
      (hqueue : s'.currQueue = s.currQueue) (hcollected : s'.collected = s.collected)
  | refuse (hat : s.customerAt t = .inside .admission) (hfull : inp.K < s.currQueue)
      (hleft : s'.left = Function.update s.left s.served true)
      (hcollected : s'.collected = s.collected)
  | letIn (hat : s.customerAt t = .inside .admission)
      (hadmitted : s'.admitted = Function.update s.admitted s.served true)
      (hleft : s'.left = s.left) (hqueue : s'.currQueue = s.currQueue + 1)
      (hcollected : s'.collected = s.collected)
  | collect (c : ℕ) (hat : s.customerAt t = .inside (.collection c))
      (hadmitted : s'.admitted = s.admitted) (hleft : s'.left = Function.update s.left c true)
      (hqueue : s'.currQueue = s.currQueue - 1)
      (hcollected : s'.collected = Function.update s.collected c true)

theorem serveCustomer_queueStep (hK : s.Knows inp (s.customerAt t))
    (h : s.serveCustomer inp t = some s') : QueueStep inp s s' t := by
  unfold State.serveCustomer at h
  split at h
  case h_7 | h_8 =>
    rename_i hat
    rw [hat] at hK
    exact hK.elim
  case h_13 k hat =>
    cases h
    cases k with
    | admission =>
      simp only [customerSection]
      split
      case isTrue hfull => exact .refuse hat hfull rfl rfl
      case isFalse => exact .letIn hat rfl rfl rfl rfl
    | arrival c | enter c => exact .keep rfl rfl rfl rfl
    | collection c => exact .collect c hat rfl rfl rfl rfl
  all_goals
    try split at h
    try split at h
    all_goals cases h
    all_goals exact .keep rfl rfl rfl rfl

end XV6AndConcurrency.Parlour
