import XV6AndConcurrency.Foundations.PointSums
import XV6AndConcurrency.Foundations.Transitions

/-!
# The cafe

The customer threads of the simulation, `serve_customer`. A step is the acquisition of the
mutex, the body of a section under it, a semaphore operation or a single statement; the
clock may advance between any two.
-/

namespace XV6AndConcurrency.Cafe

open Foundations

/-! ## The input -/

structure CoffeeType where
  name : String
  preparationTime : ℤ

structure Customer where
  coffeeName : String
  arrivalTime : ℤ
  patienceTime : ℤ

structure Input where
  B : ℕ
  coffeeTypes : List CoffeeType
  customers : List Customer

namespace Input

variable (inp : Input)

def N : ℕ := inp.customers.length

def arrivalTime (c : ℕ) : ℤ := (inp.customers[c]?).elim 0 Customer.arrivalTime

def patienceTime (c : ℕ) : ℤ := (inp.customers[c]?).elim 0 Customer.patienceTime

/-- The last second at which the customer takes its order. -/
def limit (c : ℕ) : ℤ := inp.arrivalTime c + inp.patienceTime c

/-- `-1` for a coffee that the cafe does not have. -/
def preparationTime (c : ℕ) : ℤ :=
  ((inp.customers[c]?).bind fun x => inp.coffeeTypes.find? fun k => k.name == x.coffeeName).elim
    (-1) CoffeeType.preparationTime

end Input

/-! ## The places of a thread -/

/-- The sections of `serve_customer`; `c` is `customer_id`, `i` is a barista and `k` the
second of the preparation. -/
inductive Section
  | claim
  | arrival (c : ℕ)
  | order (c : ℕ)
  | look (c i : ℕ)
  | giveUp (c : ℕ)
  | lookAgain (c i : ℕ)
  | giveUpSelected (c i : ℕ)
  | begins (c i : ℕ)
  | second (c i k : ℕ)
  | giveUpPreparing (c i k : ℕ)
  | complete (c i : ℕ)
  | depart (c i : ℕ)
  deriving DecidableEq

/-- The places of `serve_customer`. A thread in `beginning` holds the mutex over a `sleep`;
`returned` and `invalid` are returns from within the loop. -/
inductive Place
  | loopTest
  | arrivalTest (c : ℕ)
  | coffee (c : ℕ)
  | scan (c i : ℕ)
  | lookTest (c i : ℕ) (curr : ℤ)
  | trywait (c i : ℕ)
  | previousTest (c i : ℕ)
  | giveBack (c i : ℕ)
  | selectedTest (c i : ℕ) (curr : ℤ)
  | postSelected (c i : ℕ)
  | previousWait (c i : ℕ)
  | beginning (c i : ℕ)
  | prepare (c i k : ℕ)
  | secondPassed (c i k : ℕ)
  | secondTest (c i k : ℕ)
  | prepared (c i : ℕ)
  | departTest (c i : ℕ) (finish : ℤ)
  | post (c i : ℕ)
  | total (c : ℕ)
  | totalLeft (c : ℕ)
  | lock (k : Section)
  | inside (k : Section)
  | returned (c : ℕ)
  | invalid (c : ℕ)
  | ended
  deriving DecidableEq

/-! ## The state -/

/-- The shared variables, the places of the threads, and what has happened: which thread has
claimed which customer, who has ordered, whose order has begun, and the departures. -/
structure State where
  mutex : Option ℕ
  now : ℤ
  elapsed : ℤ
  served : ℕ
  wasted : ℕ
  totalWaiting : ℤ
  waiting : ℕ → ℤ
  sem : ℕ → ℕ
  finishTimes : ℕ → ℤ
  leftFlags : ℕ → Bool
  custDone : ℕ → Bool
  place : ℕ → Place
  claims : List (ℕ × ℕ)
  ordered : ℕ → Bool
  begun : ℕ → Bool
  withOrder : ℕ → ℕ
  withoutOrder : ℕ → ℕ

namespace State

/-- The threads are created, nothing has happened. -/
def init (inp : Input) : State where
  mutex := none
  now := 0
  elapsed := 0
  served := 0
  wasted := 0
  totalWaiting := 0
  waiting _ := 0
  sem _ := 1
  finishTimes := inp.arrivalTime
  leftFlags _ := false
  custDone _ := false
  place _ := .loopTest
  claims := []
  ordered _ := false
  begun _ := false
  withOrder _ := 0
  withoutOrder _ := 0

variable (inp : Input) (s : State)

@[simp] def go (t : ℕ) (p : Place) : State :=
  { s with place := Function.update s.place t p }

@[simp] def unlock : State := { s with mutex := none }

/-- `time(&currentTime); elapsedSeconds = difftime(currentTime, startTime)`. -/
@[simp] def readClock : State := { s with elapsed := s.now }

@[simp] def setFinish (i : ℕ) (x : ℤ) : State :=
  { s with finishTimes := Function.update s.finishTimes i x }

@[simp] def setWaiting (c : ℕ) (x : ℤ) : State :=
  { s with waiting := Function.update s.waiting c x }

@[simp] def setDone (c : ℕ) : State :=
  { s with custDone := Function.update s.custDone c true }

/-- `sem_post(&barista_available[i])`. -/
@[simp] def semPost (i : ℕ) : State := { s with sem := bump s.sem i }

/-- The customer leaves without the order. -/
@[simp] def leave (c : ℕ) : State :=
  { s with leftFlags := Function.update s.leftFlags c true
           custDone := Function.update s.custDone c true
           wasted := s.wasted + 1
           withoutOrder := bump s.withoutOrder c }

/-- The body of a section. -/
def sectionBody (t : ℕ) : Section → State
  | .claim =>
    { s with served := s.served + 1
             claims := (t, s.served) :: s.claims }.unlock.go t
      (if inp.N ≤ s.served then .ended else .lock (.arrival s.served))
  | .arrival c => s.readClock.unlock.go t (.arrivalTest c)
  | .order c =>
    { s with ordered := Function.update s.ordered c true }.unlock.go t (.coffee c)
  | .look c i => s.readClock.unlock.go t (.lookTest c i s.now)
  | .giveUp c => ((s.setWaiting c (inp.patienceTime c)).leave c).unlock.go t (.totalLeft c)
  | .lookAgain c i => s.readClock.unlock.go t (.selectedTest c i s.now)
  | .giveUpSelected c i =>
    ((s.setWaiting c (inp.patienceTime c)).leave c).unlock.go t (.postSelected c i)
  -- the sleep, if any, and the second reading are in `beginning`
  | .begins c i => s.readClock.go t (.beginning c i)
  | .second c i k => (s.readClock.setFinish i s.now).unlock.go t (.secondTest c i k)
  | .giveUpPreparing c i k => (s.leave c).unlock.go t (.prepare c i (k + 1))
  | .complete c i => (s.readClock.setFinish i s.now).unlock.go t (.departTest c i s.now)
  -- the waiting time stays what it was set to when the order began
  | .depart c i =>
    { s.setDone c with withOrder := bump s.withOrder c }.unlock.go t (.post c i)

/-- `serve_customer`. -/
def serveCustomer (t : ℕ) : Option State :=
  match s.place t with
  | .returned _ | .invalid _ | .ended => none
  | .loopTest => some (s.go t (if s.served < inp.N then .lock .claim else .ended))
  | .arrivalTest c =>
    some (s.go t (if s.elapsed < inp.arrivalTime c then .lock (.arrival c) else .lock (.order c)))
  -- `INVALID ORDER`
  | .coffee c =>
    some (s.go t (if inp.preparationTime c = -1 then .invalid c else .scan c 0))
  | .scan c i => some (s.go t (if i < inp.B then .lock (.look c i) else .scan c 0))
  | .lookTest c i curr =>
    some (s.go t (
      if inp.limit c < curr ∧ s.leftFlags c = false then .lock (.giveUp c) else .trywait c i))
  | .trywait c i =>
    if 0 < s.sem i then some ({ s with sem := drop s.sem i }.go t (.previousTest c i))
    else some (s.go t (.scan c (i + 1)))
  | .previousTest c i =>
    some (s.go t (
      if c ≠ 0 ∧ s.custDone (c - 1) = false then .giveBack c i else .lock (.lookAgain c i)))
  | .giveBack c i => some ((s.semPost i).go t (.scan c (i + 1)))
  | .selectedTest c i curr =>
    some (s.go t (
      if inp.limit c < curr ∧ s.leftFlags c = false then .lock (.giveUpSelected c i)
      else .previousWait c i))
  | .postSelected c i => some ((s.semPost i).go t (.totalLeft c))
  | .previousWait c i =>
    some (s.go t (
      if c ≠ 0 ∧ s.custDone (c - 1) = false then .previousWait c i else .lock (.begins c i)))
  | .beginning c i =>
    some ({ (s.readClock.setDone c).setWaiting c (s.now - inp.arrivalTime c) with
      begun := Function.update s.begun c true }.unlock.go t (.prepare c i 0))
  | .prepare c i k =>
    some (s.go t (if (k : ℤ) < inp.preparationTime c then .secondPassed c i k else .prepared c i))
  | .secondPassed c i k =>
    some ((s.setFinish i (s.finishTimes i + 1)).go t (.lock (.second c i k)))
  | .secondTest c i k =>
    some (s.go t (
      if inp.limit c < s.finishTimes i ∧ s.leftFlags c = false then .lock (.giveUpPreparing c i k)
      else .prepare c i (k + 1)))
  | .prepared c i => some ((s.setFinish i (s.finishTimes i + 1)).go t (.lock (.complete c i)))
  | .departTest c i finish =>
    some (s.go t (if finish ≤ inp.limit c then .lock (.depart c i) else .post c i))
  | .post c i => some ((s.semPost i).go t (.total c))
  | .total c => some ({ s with totalWaiting := s.totalWaiting + s.waiting c }.go t .loopTest)
  | .totalLeft c =>
    some ({ s with totalWaiting := s.totalWaiting + s.waiting c }.go t (.returned c))
  | .lock k =>
    if s.mutex = none then some ({ s with mutex := some t }.go t (.inside k)) else none
  | .inside k => some (s.sectionBody inp t k)

end State

/-- A thread takes a step, or the clock advances. -/
inductive Move
  | thread (t : ℕ)
  | tick (d : ℕ)

/-- One step of the simulation. -/
def step (inp : Input) (s : State) : Move → Option State
  | .thread t => if t < inp.N then s.serveCustomer inp t else none
  | .tick d => some { s with now := s.now + d }

/-- `n` steps of a thread. -/
def stepsOf (n t : ℕ) : List Move := List.replicate n (.thread t)

end XV6AndConcurrency.Cafe
