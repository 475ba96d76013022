import XV6AndConcurrency.Cafe.Service
import XV6AndConcurrency.Foundations.BinarySemaphores

/-!
# The baristas

Customers are claimed one after the other, and a barista serves one of them at a time.
-/

namespace XV6AndConcurrency.Cafe

open Foundations State

variable {inp : Input} {s s' : State} {t c i : ℕ} {a : Move}

/-- The customer of the section. -/
def Section.customer : Section → Option ℕ
  | .claim => none
  | .arrival c | .order c | .look c _ | .giveUp c | .lookAgain c _ | .giveUpSelected c _
  | .begins c _ | .second c _ _ | .giveUpPreparing c _ _ | .complete c _ | .depart c _ => some c

/-- The customer that the thread has claimed in the iteration it is in, or has returned from. -/
def Place.customer : Place → Option ℕ
  | .loopTest | .ended => none
  | .arrivalTest c | .coffee c | .scan c _ | .lookTest c _ _ | .trywait c _ | .previousTest c _
  | .giveBack c _ | .selectedTest c _ _ | .postSelected c _ | .previousWait c _ | .beginning c _
  | .prepare c _ _ | .secondPassed c _ _ | .secondTest c _ _ | .prepared c _ | .departTest c _ _
  | .post c _ | .total c | .totalLeft c | .returned c | .invalid c => some c
  | .lock k | .inside k => k.customer

/-- The barista of the section. -/
def Section.barista : Section → Option ℕ
  | .lookAgain _ i | .giveUpSelected _ i | .begins _ i | .second _ i _ | .giveUpPreparing _ i _
  | .complete _ i | .depart _ i => some i
  | _ => none

/-- The barista that the thread has, from its `sem_trywait` to its `sem_post`. -/
def Place.barista : Place → Option ℕ
  | .previousTest _ i | .giveBack _ i | .selectedTest _ i _ | .postSelected _ i
  | .previousWait _ i | .beginning _ i | .prepare _ i _ | .secondPassed _ i _ | .secondTest _ i _
  | .prepared _ i | .departTest _ i _ | .post _ i => some i
  | .lock k | .inside k => k.barista
  | _ => none

/-- The thread has ended. -/
def Place.isOver : Place → Bool
  | .returned _ | .invalid _ | .ended => true
  | _ => false

/-- A thread moves only itself. -/
theorem serveCustomer_others (h : s.serveCustomer inp t = some s') {x : ℕ} (hx : x ≠ t) :
    s'.place x = s.place x := by
  cases hat : s.place t with simp only [State.serveCustomer, hat] at h
  | inside k =>
    cases h
    cases k <;> exact Function.update_of_ne hx _ _
  | _ =>
    try split at h
    all_goals cases h
    all_goals exact Function.update_of_ne hx _ _

/-- What a step does with the claims. -/
inductive ClaimStep (inp : Input) (s s' : State) (t : ℕ) : Prop
  | keep (hserved : s'.served = s.served) (hclaims : s'.claims = s.claims)
      (hcustomer : (s'.place t).customer = none ∨
        (s'.place t).customer = (s.place t).customer)
      (hended : s'.place t = .ended → inp.N ≤ s.served)
  | claim (hserved : s'.served = s.served + 1) (hclaims : s'.claims = (t, s.served) :: s.claims)
      (hplace : s'.place t = if inp.N ≤ s.served then .ended else .lock (.arrival s.served))

theorem serveCustomer_claimStep (h : s.serveCustomer inp t = some s') :
    ClaimStep inp s s' t := by
  cases hat : s.place t with simp only [State.serveCustomer, hat] at h
  | inside k =>
    cases h
    cases k with
    | claim => exact .claim rfl rfl (by simp [sectionBody])
    | _ =>
      refine .keep rfl rfl (Or.inr ?_) ?_
      · simp [sectionBody, hat, Place.customer, Section.customer]
      · simp [sectionBody]
  | loopTest =>
    cases h
    refine .keep rfl rfl (Or.inl ?_) ?_
    · simp only [go, Function.update_self]
      split <;> rfl
    · simp only [go, Function.update_self]
      grind
  | lock k =>
    split at h
    all_goals cases h
    refine .keep rfl rfl (Or.inr ?_) ?_
    · simp [hat, Place.customer]
    · simp
  | total c =>
    cases h
    exact .keep rfl rfl (Or.inl (by simp [Place.customer])) (by simp)
  | _ =>
    try split at h
    all_goals cases h
    all_goals
      refine .keep rfl rfl (Or.inr ?_) ?_
      · simp [hat, Place.customer, Section.customer]
      · simp

/-- What a step does with the semaphores. -/
theorem serveCustomer_operation (h : s.serveCustomer inp t = some s') :
    Operation s.sem s'.sem (fun x => (s.place x).barista) (fun x => (s'.place x).barista) t := by
  cases hat : s.place t with simp only [State.serveCustomer, hat] at h
  | inside k =>
    cases h
    cases k with
    | claim =>
      refine .keep rfl ?_
      simp only [sectionBody, go, Function.update_self, hat]
      split <;> rfl
    | _ =>
      refine .keep rfl ?_
      simp [sectionBody, hat, Place.barista, Section.barista]
  | lock k =>
    split at h
    all_goals cases h
    refine .keep rfl ?_
    simp [hat, Place.barista]
  | trywait c i =>
    split at h
    case isTrue hpos =>
      cases h
      refine .wait i hpos rfl ?_ ?_
      · simp [hat, Place.barista]
      · simp [Place.barista]
    case isFalse =>
      cases h
      refine .keep rfl ?_
      simp [hat, Place.barista]
  | giveBack c i | postSelected c i | post c i =>
    cases h
    refine .post i rfl ?_ ?_
    · simp [hat, Place.barista]
    · simp [Place.barista]
  | _ =>
    cases h
    all_goals
      refine .keep rfl ?_
      simp only [go, setFinish, Function.update_self, hat]
      grind [Place.barista, Section.barista]

/-- The claims so far, and who is at work on them. -/
structure Claimed (inp : Input) (s : State) : Prop where
  list : s.claims.map Prod.snd = (List.range s.served).reverse
  current : ∀ t c, (s.place t).customer = some c → c < s.served ∧ c < inp.N
  one : ∀ t t' c, (s.place t).customer = some c → (s.place t').customer = some c → t = t'
  ended : ∀ t, s.place t = .ended → inp.N ≤ s.served

theorem Claimed.serveCustomer (hI : Claimed inp s) (h : s.serveCustomer inp t = some s') :
    Claimed inp s' := by
  have hothers : ∀ x, x ≠ t → s'.place x = s.place x := fun x hx => serveCustomer_others h hx
  obtain ⟨list, current, one, ended⟩ := hI
  cases serveCustomer_claimStep h with
  | keep hserved hclaims hcustomer hended =>
    have hback : ∀ x c, (s'.place x).customer = some c → (s.place x).customer = some c := by
      intro x c hc
      by_cases hx : x = t
      · subst hx
        obtain hnone | hsame := hcustomer
        · rw [hnone] at hc
          cases hc
        · rw [← hsame, hc]
      · rwa [hothers x hx] at hc
    constructor
    case list => rw [hserved, hclaims, list]
    case current =>
      intro x c hc
      rw [hserved]
      exact current x c (hback x c hc)
    case one => exact fun x y c hc hc' => one x y c (hback x c hc) (hback y c hc')
    case ended =>
      intro x hx
      rw [hserved]
      by_cases hxt : x = t
      · exact hended (hxt ▸ hx)
      · exact ended x (hothers x hxt ▸ hx)
  | claim hserved hclaims hplace =>
    have hback : ∀ x c, (s'.place x).customer = some c →
        (s.place x).customer = some c ∧ c < s.served ∨ x = t ∧ c = s.served ∧ c < inp.N := by
      intro x c hc
      by_cases hx : x = t
      · subst hx
        rw [hplace] at hc
        split at hc
        · cases hc
        · cases hc
          exact Or.inr ⟨rfl, rfl, by omega⟩
      · rw [hothers x hx] at hc
        exact Or.inl ⟨hc, (current x c hc).1⟩
    constructor
    case list => simp [hserved, hclaims, list, List.range_succ]
    case current =>
      intro x c hc
      rw [hserved]
      obtain ⟨hc, -⟩ | ⟨-, rfl, hN⟩ := hback x c hc
      · have := current x c hc
        omega
      · omega
    case one =>
      intro x y c hc hc'
      obtain ⟨hx, hlt⟩ | ⟨rfl, rfl, -⟩ := hback x c hc
      · obtain ⟨hy, -⟩ | ⟨-, rfl, -⟩ := hback y c hc'
        · exact one x y c hx hy
        · omega
      · obtain ⟨-, hlt⟩ | ⟨rfl, -, -⟩ := hback y _ hc'
        · omega
        · rfl
    case ended =>
      intro x hx
      rw [hserved]
      by_cases hxt : x = t
      · rw [hxt, hplace] at hx
        split at hx
        case isTrue hN => omega
        case isFalse => cases hx
      · have := ended x (hothers x hxt ▸ hx)
        omega

/-- Claims and baristas are in order; there are `N` threads. -/
structure Staffed (inp : Input) (s : State) : Prop extends Claimed inp s where
  guarded : ∀ i, Guarded s.sem (fun x => (s.place x).barista) i
  spare : ∀ t, inp.N ≤ t → s.place t = .loopTest

theorem Staffed.step (hI : Staffed inp s) (h : step inp s a = some s') : Staffed inp s' := by
  cases a with
  | tick d =>
    cases h
    exact { hI with }
  | thread t =>
    obtain ⟨ht, hstep⟩ := Option.ite_none_right_eq_some.mp h
    have hothers : ∀ x, x ≠ t → s'.place x = s.place x :=
      fun x hx => serveCustomer_others hstep hx
    refine ⟨hI.toClaimed.serveCustomer hstep, fun i => ?_, fun x hx => ?_⟩
    · exact (hI.guarded i).operate (x := t) (fun x hx => by rw [hothers x hx])
        (serveCustomer_operation hstep)
    · rw [hothers x (by omega)]
      exact hI.spare x hx

theorem staffed_init (inp : Input) : Staffed inp (init inp) where
  list := rfl
  current := nofun
  one := nofun
  ended := nofun
  guarded _ := Or.inl ⟨rfl, nofun⟩
  spare _ _ := rfl

theorem staffed_of_reach (h : Reach (step inp) (init inp) s) : Staffed inp s :=
  h.invariant (Staffed inp) (fun _ _ _ _ hI hs => hI.step hs) (staffed_init inp)

/-- All threads have ended. -/
def State.Over (inp : Input) (s : State) : Prop := ∀ t < inp.N, (s.place t).isOver = true

/-- At the end everybody has been claimed: a thread that has returned from within the loop
has claimed a customer of its own. -/
theorem Claimed.all_claimed (hI : Claimed inp s) (hover : s.Over inp) : inp.N ≤ s.served := by
  by_contra hlt
  have hcustomer : ∀ t ∈ Finset.range inp.N, ∃ c, (s.place t).customer = some c := by
    intro t ht
    have hend := hover t (Finset.mem_range.mp ht)
    cases hat : s.place t with
    | returned c | invalid c => exact ⟨c, rfl⟩
    | ended => exact absurd (hI.ended t hat) hlt
    | _ =>
      rw [hat] at hend
      cases hend
  choose! f hf using hcustomer
  have hmaps : ∀ t ∈ Finset.range inp.N, f t ∈ Finset.range s.served :=
    fun t ht => Finset.mem_range.mpr (hI.current t (f t) (hf t ht)).1
  have hinj : ∀ t ∈ Finset.range inp.N, ∀ t' ∈ Finset.range inp.N, f t = f t' → t = t' :=
    fun t ht t' ht' he => hI.one t t' (f t) (hf t ht) (he ▸ hf t' ht')
  have hcard := Finset.card_le_card_of_injOn f hmaps hinj
  simp only [Finset.card_range] at hcard
  omega

theorem Claimed.count (hI : Claimed inp s) (c : ℕ) :
    (s.claims.map Prod.snd).count c = if c < s.served then 1 else 0 := by
  rw [hI.list, List.count_reverse]
  split
  case isTrue hc =>
    exact List.count_eq_one_of_mem List.nodup_range (List.mem_range.mpr hc)
  case isFalse hc =>
    exact List.count_eq_zero.mpr fun hmem => hc (List.mem_range.mp hmem)

/-- No customer is claimed twice, every barista's semaphore is 0 or 1, and 0 exactly while
one thread has the barista; when all threads have ended, every customer has been claimed
once and every semaphore is 1 again. -/
theorem baristas_exclusive (inp : Input) (s : State) (h : Reach (step inp) (init inp) s) :
    (∀ c, (s.claims.map Prod.snd).count c ≤ 1) ∧
      (∀ i, (s.sem i = 0 ∨ s.sem i = 1) ∧
        (s.sem i = 0 ↔ ∃ t, (s.place t).barista = some i) ∧
        ∀ t t', (s.place t).barista = some i → (s.place t').barista = some i → t = t') ∧
      (s.Over inp → (∀ c < inp.N, (s.claims.map Prod.snd).count c = 1) ∧ ∀ i, s.sem i = 1) := by
  have hI := staffed_of_reach h
  refine ⟨fun c => ?_, fun i => ?_, fun hover => ⟨fun c hc => ?_, fun i => ?_⟩⟩
  · rw [hI.count c]
    split <;> omega
  · have hg := hI.guarded i
    exact ⟨hg.binary, hg.eq_zero_iff, fun t t' ht ht' => hg.exclusive ht ht'⟩
  · have := hI.all_claimed hover
    rw [hI.count c, if_pos (by omega)]
  · obtain hzero | hone := (hI.guarded i).binary
    · obtain ⟨t, ht⟩ := (hI.guarded i).eq_zero_iff.mp hzero
      by_cases hN : t < inp.N
      · have hend := hover t hN
        cases hat : s.place t with
        | returned c | invalid c | ended => simp [hat, Place.barista] at ht
        | _ =>
          rw [hat] at hend
          cases hend
      · rw [hI.spare t (not_lt.mp hN)] at ht
        cases ht
    · exact hone

/-- Two customers with enough patience, and one barista. -/
def twoLattes : Input where
  B := 1
  coffeeTypes := [⟨"latte", 1⟩]
  customers := [⟨"latte", 0, 10⟩, ⟨"latte", 0, 10⟩]

/-- The first customer has the barista, the second has tried in vain. -/
def bothTry : List Move := stepsOf 14 0 ++ stepsOf 14 1

/-- The first customer is served, then the second. -/
def bothServed : List Move :=
  stepsOf 7 0 ++ [.tick 1] ++ stepsOf 2 0 ++ [.tick 1] ++ stepsOf 14 0 ++
    stepsOf 13 1 ++ [.tick 1] ++ stepsOf 2 1 ++ [.tick 1] ++ stepsOf 14 1

theorem baristas_exclusive_twoLattes :
    (∃ s, Reach (step twoLattes) (init twoLattes) s ∧ s.place 1 = .scan 1 1 ∧
      s.sem 0 = 0 ∧ ∀ t, (s.place t).barista = some 0 → t = 0) ∧
    ∃ s, Reach (step twoLattes) (init twoLattes) s ∧ s.withOrder 0 = 1 ∧ s.withOrder 1 = 1 ∧
      (∀ c < 2, (s.claims.map Prod.snd).count c = 1) ∧ s.sem 0 = 1 := by
  constructor
  · have hrun : (runAll (step twoLattes) (init twoLattes) bothTry).any (fun s =>
        (s.place 0).barista = some 0 ∧ s.place 1 = .scan 1 1) = true := by
      decide +kernel
    obtain ⟨s, hs, hprop⟩ := (Option.any_eq_true _ _).mp hrun
    obtain ⟨hbarista, hscan⟩ := of_decide_eq_true hprop
    have hreach := reach_of_runAll hs
    obtain ⟨-, hzero, hone⟩ := (baristas_exclusive twoLattes s hreach).2.1 0
    exact ⟨s, hreach, hscan, hzero.mpr ⟨0, hbarista⟩, fun t ht => hone t 0 ht hbarista⟩
  · have hrun : (runAll (step twoLattes) (init twoLattes) (bothTry ++ bothServed)).any (fun s =>
        (s.withOrder 0 = 1 ∧ s.withOrder 1 = 1) ∧ s.place 0 = .ended ∧ s.place 1 = .ended)
        = true := by
      decide +kernel
    obtain ⟨s, hs, hprop⟩ := (Option.any_eq_true _ _).mp hrun
    obtain ⟨⟨hfirst, hsecond⟩, hended⟩ := of_decide_eq_true hprop
    have hreach := reach_of_runAll hs
    have hover : s.Over twoLattes := by
      intro t ht
      obtain rfl | rfl : t = 0 ∨ t = 1 := by
        change t < 2 at ht
        omega
      · rw [hended.1]; rfl
      · rw [hended.2]; rfl
    have hend := (baristas_exclusive twoLattes s hreach).2.2 hover
    exact ⟨s, hreach, hfirst, hsecond, hend.1, hend.2 0⟩

end XV6AndConcurrency.Cafe
