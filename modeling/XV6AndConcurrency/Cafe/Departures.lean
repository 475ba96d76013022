import XV6AndConcurrency.Cafe.Baristas

/-!
# The departures

A customer leaves while it waits for a barista, just after it got one, in a second of the
preparation, or after the preparation.
-/

namespace XV6AndConcurrency.Cafe

open Foundations State

variable {inp : Input} {s s' : State} {t c i : ℕ} {a : Move}

/-- If the reading after the preparation is too late, the customer has left before. -/
def punctual (inp : Input) (s : State) : Move → Bool
  | .thread t =>
    match s.place t with
    | .inside (.complete c _) => decide (s.now ≤ inp.limit c) || s.leftFlags c
    | _ => true
  | .tick _ => true

namespace State

/-- The customer has not departed. -/
def Fresh (s : State) (c : ℕ) : Prop :=
  s.withOrder c = 0 ∧ s.withoutOrder c = 0 ∧ s.leftFlags c = false

/-- The customer has departed once. -/
def Gone (s : State) (c : ℕ) : Prop := s.withOrder c + s.withoutOrder c = 1

/-- The order is being prepared, and its customer may have left when it was too late. -/
def Preparing (inp : Input) (s : State) (c : ℕ) : Prop :=
  s.Fresh c ∨
    s.leftFlags c = true ∧ s.withOrder c = 0 ∧ s.withoutOrder c = 1 ∧ inp.limit c < s.now

/-- What a thread knows of its customer inside a section, and at its lock. -/
def DepartsInside (inp : Input) (s : State) : Section → Prop
  | .claim => True
  | .second c _ _ | .complete c _ => s.Preparing inp c
  | .giveUpPreparing c _ _ => s.Fresh c ∧ inp.limit c < s.now
  | .arrival c | .order c | .look c _ | .giveUp c | .lookAgain c _ | .giveUpSelected c _
  | .begins c _ | .depart c _ => s.Fresh c

/-- What a thread knows of its customer. -/
def Departs (inp : Input) (s : State) : Place → Prop
  | .loopTest | .ended => True
  | .prepare c _ _ | .secondPassed c _ _ | .prepared c _ => s.Preparing inp c
  | .secondTest c i _ => s.Preparing inp c ∧ s.finishTimes i ≤ s.now
  | .departTest c _ finish =>
    s.Preparing inp c ∧ (s.leftFlags c = true ↔ inp.limit c < finish)
  | .postSelected c _ | .post c _ | .total c | .totalLeft c | .returned c => s.Gone c
  | .invalid c => inp.preparationTime c = -1
  | .arrivalTest c | .coffee c | .scan c _ | .lookTest c _ _ | .trywait c _ | .previousTest c _
  | .giveBack c _ | .selectedTest c _ _ | .previousWait c _ | .beginning c _ => s.Fresh c
  | .lock k | .inside k => s.DepartsInside inp k

end State

/-- A step of a thread touches its own customer and its own barista. -/
structure Effect (s s' : State) (t : ℕ) : Prop where
  withOrder : ∀ c, (s.place t).customer ≠ some c → s'.withOrder c = s.withOrder c
  withoutOrder : ∀ c, (s.place t).customer ≠ some c → s'.withoutOrder c = s.withoutOrder c
  left : ∀ c, (s.place t).customer ≠ some c → s'.leftFlags c = s.leftFlags c
  finish : ∀ i, (s.place t).barista ≠ some i → s'.finishTimes i = s.finishTimes i
  now : s'.now = s.now

theorem sectionBody_effect {k : Section} (hat : s.place t = .inside k) :
    Effect s (s.sectionBody inp t k) t := by
  cases k <;> constructor <;>
    simp +contextual [sectionBody, hat, Place.customer, Section.customer, Place.barista,
      Section.barista, bump_apply, eq_comm]

theorem serveCustomer_effect (h : s.serveCustomer inp t = some s') : Effect s s' t := by
  cases hat : s.place t with simp only [State.serveCustomer, hat] at h
  | inside k =>
    cases h
    exact sectionBody_effect hat
  | secondPassed c i k | prepared c i =>
    cases h
    constructor <;> simp +contextual [hat, Place.barista, eq_comm]
  | _ =>
    try split at h
    all_goals cases h
    all_goals exact ⟨fun _ _ => rfl, fun _ _ => rfl, fun _ _ => rfl, fun _ _ => rfl, rfl⟩

theorem sectionBody_departs {k : Section} (hat : s.place t = .inside k)
    (hok : punctual inp s (.thread t) = true) (hfresh : s.Fresh s.served)
    (hK : s.DepartsInside inp k) :
    (s.sectionBody inp t k).Departs inp ((s.sectionBody inp t k).place t) := by
  cases k with
  | claim =>
    simp only [sectionBody, go, Function.update_self]
    split
    · trivial
    · exact hfresh
  | giveUp c | giveUpSelected c i =>
    obtain ⟨hwith, hwithout, -⟩ := hK
    simp [sectionBody, Departs, Gone, hwith, hwithout]
  | second c i k =>
    simp only [sectionBody, go, Function.update_self]
    exact ⟨hK, by simp⟩
  | giveUpPreparing c i k =>
    obtain ⟨⟨hwith, hwithout, -⟩, hlate⟩ := hK
    simp only [sectionBody, go, Function.update_self]
    exact Or.inr (by simp [hwith, hwithout, hlate])
  | complete c i =>
    simp only [sectionBody, go, Function.update_self]
    have hpunctual : s.now ≤ inp.limit c ∨ s.leftFlags c = true := by
      simpa [punctual, hat] using hok
    refine ⟨hK, ?_, fun hlate => hpunctual.resolve_left (not_le.mpr hlate)⟩
    intro hleft
    obtain ⟨-, -, hstayed⟩ | ⟨-, -, -, hlate⟩ := hK
    · have hleft' : s.leftFlags c = true := hleft
      rw [hstayed] at hleft'
      cases hleft'
    · exact hlate
  | depart c i =>
    obtain ⟨hwith, hwithout, -⟩ := hK
    simp [sectionBody, Departs, Gone, hwith, hwithout]
  | arrival c | order c | look c i | lookAgain c i | begins c i =>
    simp only [sectionBody, go, Function.update_self]
    exact hK

theorem serveCustomer_departs (hok : punctual inp s (.thread t) = true)
    (hfresh : s.Fresh s.served) (hK : s.Departs inp (s.place t))
    (h : s.serveCustomer inp t = some s') : s'.Departs inp (s'.place t) := by
  cases hat : s.place t with simp only [State.serveCustomer, hat] at h hK
  | inside k =>
    cases h
    exact sectionBody_departs hat hok hfresh hK
  | lock k =>
    split at h
    all_goals cases h
    simp only [go, Function.update_self]
    exact hK
  | coffee c =>
    split at h
    case isTrue hunknown =>
      cases h
      simpa [Departs] using hunknown
    case isFalse =>
      cases h
      simp only [go, Function.update_self]
      exact hK
  | beginning c i =>
    cases h
    simp only [go, Function.update_self]
    exact Or.inl hK
  | secondTest c i k =>
    obtain ⟨hprep, hfinish⟩ := hK
    split at h
    case isTrue hlate =>
      cases h
      simp only [go, Function.update_self]
      obtain hf | ⟨hleft, -⟩ := hprep
      · exact ⟨hf, hlate.1.trans_le hfinish⟩
      · rw [hlate.2] at hleft
        cases hleft
    case isFalse =>
      cases h
      simp only [go, Function.update_self]
      exact hprep
  | departTest c i finish =>
    obtain ⟨hprep, hleft⟩ := hK
    split at h
    case isTrue hin =>
      cases h
      simp only [go, Function.update_self]
      obtain hf | ⟨hl, -⟩ := hprep
      · exact hf
      · exact absurd (hleft.mp hl) (not_lt.mpr hin)
    case isFalse hlate =>
      cases h
      simp only [go, Function.update_self]
      obtain ⟨-, -, hstayed⟩ | ⟨-, hwith, hwithout, -⟩ := hprep
      · rw [hleft.mpr (not_le.mp hlate)] at hstayed
        cases hstayed
      · simp [Departs, Gone, hwith, hwithout]
  | _ =>
    try split at h
    all_goals cases h
    all_goals
      simp only [go, semPost, setFinish, Function.update_self]
      first | exact hK | trivial

/-- What other threads do leaves a customer as it is. -/
theorem Departs.mono {p : Place} (hK : s.Departs inp p)
    (hdata : ∀ c, p.customer = some c → s'.withOrder c = s.withOrder c ∧
      s'.withoutOrder c = s.withoutOrder c ∧ s'.leftFlags c = s.leftFlags c)
    (hfinish : ∀ i, p.barista = some i → s'.finishTimes i = s.finishTimes i)
    (hnow : s.now ≤ s'.now) : s'.Departs inp p := by
  cases p with
  | lock k | inside k =>
    cases k <;> grind [Departs, DepartsInside, Fresh, Preparing, Place.customer, Section.customer]
  | secondTest c i k =>
    have := hfinish i rfl
    grind [Departs, Fresh, Preparing, Place.customer]
  | _ => grind [Departs, Fresh, Gone, Preparing, Place.customer]

theorem serveCustomer_wasted (h : s.serveCustomer inp t = some s') :
    s'.wasted = s.wasted ∧ s'.withoutOrder = s.withoutOrder ∨
      ∃ c, (s.place t).customer = some c ∧ s'.wasted = s.wasted + 1 ∧
        s'.withoutOrder = bump s.withoutOrder c := by
  cases hat : s.place t with simp only [State.serveCustomer, hat] at h
  | inside k =>
    cases h
    cases k with
    | giveUp c | giveUpSelected c i | giveUpPreparing c i k => exact Or.inr ⟨c, rfl, rfl, rfl⟩
    | _ => exact Or.inl ⟨rfl, rfl⟩
  | _ =>
    try split at h
    all_goals cases h
    all_goals exact Or.inl ⟨rfl, rfl⟩

/-- A thread stays with its customer until the end of the iteration. -/
theorem serveCustomer_stays (h : s.serveCustomer inp t = some s')
    (hc : (s.place t).customer = some c) :
    (s'.place t).customer = some c ∨ s.place t = .total c ∧ s'.withOrder = s.withOrder ∧
      s'.withoutOrder = s.withoutOrder := by
  cases hat : s.place t with simp only [State.serveCustomer, hat] at h hc
  | inside k =>
    cases h
    cases k with
    | claim => cases hc
    | _ =>
      refine Or.inl ?_
      simp only [sectionBody, go, Function.update_self]
      exact hc
  | loopTest | ended => cases hc
  | lock k =>
    split at h
    all_goals cases h
    refine Or.inl ?_
    simp only [go, Function.update_self]
    exact hc
  | total c' =>
    cases h
    cases hc
    exact Or.inr ⟨rfl, rfl, rfl⟩
  | _ =>
    try split at h
    all_goals cases h
    all_goals
      refine Or.inl ?_
      simp only [go, semPost, setFinish, Function.update_self]
      exact hc

/-- Every customer that has been claimed is being served or has departed once. -/
structure Departing (inp : Input) (s : State) : Prop where
  staffed : Staffed inp s
  departs : ∀ t, s.Departs inp (s.place t)
  fresh : ∀ c, s.served ≤ c → s.Fresh c
  gone : ∀ c < s.served, c < inp.N → (∃ t, (s.place t).customer = some c) ∨ s.Gone c
  wasted : s.wasted = ∑ c ∈ Finset.range inp.N, s.withoutOrder c

theorem Departing.serveCustomer (hok : punctual inp s (.thread t) = true) (hI : Departing inp s)
    (hstaffed : Staffed inp s') (h : s.serveCustomer inp t = some s') : Departing inp s' := by
  have hE := serveCustomer_effect h
  have hothers : ∀ x, x ≠ t → s'.place x = s.place x := fun x hx => serveCustomer_others h hx
  have hclaimed := hI.staffed.toClaimed
  have hserved : s'.served = s.served ∨ s'.served = s.served + 1 ∧
      (s'.place t).customer = if inp.N ≤ s.served then none else some s.served := by
    cases serveCustomer_claimStep h with
    | keep hserved => exact Or.inl hserved
    | claim hserved _ hplace =>
      refine Or.inr ⟨hserved, ?_⟩
      rw [hplace]
      split <;> rfl
  constructor
  case staffed => exact hstaffed
  case departs =>
    intro x
    by_cases hx : x = t
    · rw [hx]
      exact serveCustomer_departs hok (hI.fresh s.served le_rfl) (hI.departs t) h
    · rw [hothers x hx]
      refine Departs.mono (hI.departs x) (fun c hc => ?_) (fun i hi => ?_) hE.now.ge
      · have hne : (s.place t).customer ≠ some c := fun ht => hx (hclaimed.one x t c hc ht)
        exact ⟨hE.withOrder c hne, hE.withoutOrder c hne, hE.left c hne⟩
      · exact hE.finish i fun ht => hx ((hI.staffed.guarded i).exclusive hi ht)
  case fresh =>
    intro c hc
    have hle : s.served ≤ c := by omega
    have hne : (s.place t).customer ≠ some c := by
      intro ht
      have := (hclaimed.current t c ht).1
      omega
    unfold Fresh
    rw [hE.withOrder c hne, hE.withoutOrder c hne, hE.left c hne]
    exact hI.fresh c hle
  case gone =>
    intro c hc hN
    by_cases hlt : c < s.served
    · obtain ⟨x, hx⟩ | hgone := hI.gone c hlt hN
      · by_cases hxt : x = t
        · subst hxt
          obtain hstays | ⟨hat, hwith, hwithout⟩ := serveCustomer_stays h hx
          · exact Or.inl ⟨x, hstays⟩
          · have hgone := hI.departs x
            rw [hat] at hgone
            refine Or.inr ?_
            unfold Gone
            rw [hwith, hwithout]
            exact hgone
        · exact Or.inl ⟨x, by rw [hothers x hxt, hx]⟩
      · by_cases ht : (s.place t).customer = some c
        · obtain hstays | ⟨-, hwith, hwithout⟩ := serveCustomer_stays h ht
          · exact Or.inl ⟨t, hstays⟩
          · refine Or.inr ?_
            unfold Gone
            rw [hwith, hwithout]
            exact hgone
        · refine Or.inr ?_
          unfold Gone
          rw [hE.withOrder c ht, hE.withoutOrder c ht]
          exact hgone
    · obtain hsame | ⟨hsucc, hnew⟩ := hserved
      · omega
      · obtain rfl : c = s.served := by omega
        rw [if_neg (by omega)] at hnew
        exact Or.inl ⟨t, hnew⟩
  case wasted =>
    obtain ⟨hwasted, hsame⟩ | ⟨c, hc, hwasted, hbump⟩ := serveCustomer_wasted h
    · rw [hwasted, hsame]
      exact hI.wasted
    · have hmem : c ∈ Finset.range inp.N := Finset.mem_range.mpr (hclaimed.current t c hc).2
      have hsum : ∑ x ∈ Finset.range inp.N, s'.withoutOrder x + s.withoutOrder c =
          ∑ x ∈ Finset.range inp.N, s.withoutOrder x + s'.withoutOrder c := by
        apply sum_add_point hmem
        intro x _ hx
        rw [hbump, bump_apply, if_neg hx, add_zero]
      rw [hbump, bump_self, ← hbump] at hsum
      have := hI.wasted
      omega

theorem Departing.step (hok : punctual inp s a = true) (hI : Departing inp s)
    (h : step inp s a = some s') : Departing inp s' := by
  have hstaffed := hI.staffed.step h
  cases a with
  | tick d =>
    cases h
    refine { hI with staffed := hstaffed, departs := fun t => ?_ }
    refine Departs.mono (hI.departs t) (fun _ _ => ⟨rfl, rfl, rfl⟩) (fun _ _ => rfl) ?_
    exact le_add_of_nonneg_right (Int.natCast_nonneg d)
  | thread t => exact hI.serveCustomer hok hstaffed (Option.ite_none_right_eq_some.mp h).2

theorem departing_init (inp : Input) : Departing inp (init inp) where
  staffed := staffed_init inp
  departs _ := trivial
  fresh _ _ := ⟨rfl, rfl, rfl⟩
  gone := nofun
  wasted := by simp [init]

/-- With coffees that the cafe has, and as long as no reading after a preparation is the first
that is too late: when all threads have ended, every customer has departed once, and
`wasted_coffees` is the number of the departures without an order. -/
theorem every_customer_leaves_once (inp : Input)
    (hvalid : ∀ c < inp.N, 0 < inp.preparationTime c) (s : State)
    (h : ReachOf (step inp) (fun s a => punctual inp s a) (init inp) s) (hover : s.Over inp) :
    (∀ c < inp.N, s.withOrder c + s.withoutOrder c = 1) ∧
      s.wasted = ∑ c ∈ Finset.range inp.N, s.withoutOrder c := by
  have hI : Departing inp s :=
    h.invariant (Departing inp) (fun _ _ _ hok hI hs => hI.step hok hs) (departing_init inp)
  refine ⟨fun c hc => ?_, hI.wasted⟩
  have hall := hI.staffed.all_claimed hover
  obtain ⟨t, ht⟩ | hgone := hI.gone c (by omega) hc
  · by_cases hN : t < inp.N
    · have hend := hover t hN
      have hK := hI.departs t
      cases hat : s.place t with
      | returned c' =>
        rw [hat] at ht hK
        cases ht
        exact hK
      | invalid c' =>
        rw [hat] at ht hK
        cases ht
        have hunknown : inp.preparationTime c = -1 := hK
        have := hvalid c hc
        omega
      | ended =>
        rw [hat] at ht
        cases ht
      | _ =>
        rw [hat] at hend
        cases hend
    · rw [hI.staffed.spare t (not_lt.mp hN)] at ht
      cases ht
  · exact hgone

/-- Two customers for one barista; the second one has little patience. -/
def oneImpatient : Input where
  B := 1
  coffeeTypes := [⟨"latte", 1⟩]
  customers := [⟨"latte", 0, 10⟩, ⟨"latte", 0, 1⟩]

/-- The second customer does not get the barista, waits while the first is served, and gives
up. -/
def oneGivesUp : List Move :=
  stepsOf 14 0 ++ stepsOf 14 1 ++ stepsOf 7 0 ++ [.tick 1] ++ stepsOf 2 0 ++ [.tick 1] ++
    stepsOf 14 0 ++ stepsOf 8 1

theorem every_customer_leaves_once_oneImpatient :
    ∃ s, ReachOf (step oneImpatient) (fun s a => punctual oneImpatient s a)
      (init oneImpatient) s ∧ s.Over oneImpatient ∧ s.withOrder 0 = 1 ∧
      (∀ c < 2, s.withOrder c + s.withoutOrder c = 1) ∧
      s.wasted = ∑ c ∈ Finset.range 2, s.withoutOrder c := by
  have hrun : (runAll
      (fun s a => if punctual oneImpatient s a then step oneImpatient s a else none)
      (init oneImpatient) oneGivesUp).any (fun s =>
        s.place 0 = .ended ∧ s.place 1 = .returned 1 ∧ s.withOrder 0 = 1) = true := by
    decide +kernel
  obtain ⟨s, hs, hprop⟩ := (Option.any_eq_true _ _).mp hrun
  obtain ⟨hended, hreturned, hserved⟩ := of_decide_eq_true hprop
  have hreach := reachOf_of_runAll hs
  have hover : s.Over oneImpatient := by
    intro t ht
    obtain rfl | rfl : t = 0 ∨ t = 1 := by
      change t < 2 at ht
      omega
    · rw [hended]; rfl
    · rw [hreturned]; rfl
  have hvalid : ∀ c < oneImpatient.N, 0 < oneImpatient.preparationTime c := by
    decide +kernel
  have hleaves := every_customer_leaves_once oneImpatient hvalid s hreach hover
  exact ⟨s, hreach, hover, hserved, hleaves⟩

/-- One customer whose patience just covers the preparation. -/
def tightPatience : Input where
  B := 1
  coffeeTypes := [⟨"latte", 1⟩]
  customers := [⟨"latte", 0, 2⟩]

/-- The order begins at second 1 and the reading in its second of preparation is 2. -/
def preparedInTime : List Move :=
  stepsOf 21 0 ++ [.tick 1] ++ stepsOf 2 0 ++ [.tick 1] ++ stepsOf 5 0

/-- The second changes before the reading after the preparation, and the customer never
leaves. -/
theorem customer_never_leaves :
    ∃ s, Reach (step tightPatience) (init tightPatience) s ∧ s.Over tightPatience ∧
      s.withOrder 0 = 0 ∧ s.withoutOrder 0 = 0 := by
  have hrun : (runAll (step tightPatience) (init tightPatience)
      (preparedInTime ++ [.tick 1] ++ stepsOf 7 0)).any (fun s =>
        s.place 0 = .ended ∧ s.withOrder 0 = 0 ∧ s.withoutOrder 0 = 0) = true := by
    decide +kernel
  obtain ⟨s, hs, hprop⟩ := (Option.any_eq_true _ _).mp hrun
  obtain ⟨hended, hwith, hwithout⟩ := of_decide_eq_true hprop
  have hover : s.Over tightPatience := by
    intro t ht
    obtain rfl : t = 0 := Nat.lt_one_iff.mp ht
    rw [hended]
    rfl
  exact ⟨s, reach_of_runAll hs, hover, hwith, hwithout⟩

end XV6AndConcurrency.Cafe
