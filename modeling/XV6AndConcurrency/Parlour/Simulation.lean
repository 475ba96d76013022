import XV6AndConcurrency.Foundations.Transitions

/-!
# The ice cream parlour

The threads of the simulation: `print_machine` for every machine, `serve_customer`
for every customer, and a `make_order` thread for every ice cream of a customer being
served. A step is the acquisition of the mutex, the body of a section under it, a
semaphore operation or a single statement; the clock may advance between any two.
-/

namespace XV6AndConcurrency.Parlour

open Foundations

/-! ## The input -/

structure Machine where
  startTime : ℤ
  endTime : ℤ

structure Flavor where
  name : String
  preparationTime : ℤ

/-- The quantity is the number in the input, `-1` for a topping without a limit. -/
structure Topping where
  name : String
  quantity : ℤ

structure Order where
  flavor : String
  toppings : List String

structure CustomerOrder where
  arrivalTime : ℤ
  order : List Order

structure Input where
  K : ℤ
  machines : List Machine
  flavors : List Flavor
  toppings : List Topping
  customers : List CustomerOrder

/-- An ice cream: the customer and the number of the order. -/
abbrev IceCream := ℕ × ℕ

namespace Input

variable (inp : Input)

/-- `INT_MAX`. -/
def intMax : ℤ := 2147483647

def N : ℕ := inp.machines.length

def numCustomers : ℕ := inp.customers.length

def startTime (m : ℕ) : ℤ := (inp.machines[m]?).elim 0 Machine.startTime

def endTime (m : ℕ) : ℤ := (inp.machines[m]?).elim 0 Machine.endTime

def arrivalTime (c : ℕ) : ℤ := (inp.customers[c]?).elim 0 CustomerOrder.arrivalTime

def numIceCreams (c : ℕ) : ℕ := (inp.customers[c]?).elim 0 fun x => x.order.length

def orderOf (o : IceCream) : Order :=
  ((inp.customers[o.1]?).bind fun x => x.order[o.2]?).getD ⟨"", []⟩

/-- `-1` for a flavor that the parlour does not have. -/
def preparationTime (o : IceCream) : ℤ :=
  (inp.flavors.find? fun f => f.name == (inp.orderOf o).flavor).elim (-1) Flavor.preparationTime

/-- The number of the first topping of each listed name. -/
def listed (o : IceCream) : List (Option ℕ) :=
  (inp.orderOf o).toppings.map fun name => inp.toppings.findIdx? fun t => t.name == name

/-- How often the ice cream takes a topping. -/
def uses (o : IceCream) (t : ℕ) : ℕ := (inp.listed o).count (some t)

def quantity (t : ℕ) : ℤ :=
  (inp.toppings[t]?).elim 0 fun x => if x.quantity = -1 then intMax else x.quantity

/-- A listed topping has run out. -/
def short (q : ℕ → ℤ) (o : IceCream) : Bool :=
  (inp.listed o).any fun x => x.any fun t => decide (q t ≤ 0)

end Input

/-! ## The places of the threads -/

/-- The sections of `make_order`; `i` is a machine, `count` is `available_count`. -/
inductive OrderSection
  | stopScan (i : ℕ)
  | closing
  | shortage
  | machineScan (i : ℕ) (count : Bool)
  | timing (i : ℕ) (count : Bool)
  | unserviced
  | begins (i : ℕ)
  | beginShortage (i : ℕ)
  | finish (i : ℕ)
  | finishShortage (i : ℕ)
  deriving DecidableEq

/-- The places of `make_order`; `idle` is a thread that does not exist yet. -/
inductive OrderPlace
  | idle
  | waiting
  | leftTest
  | leftDone
  | leftQueue
  | loopTest
  | stopTest (i : ℕ)
  | flavor
  | check (k : ℕ)
  | scan (i : ℕ) (count : Bool)
  | scanAvailable (i : ℕ) (count : Bool)
  | trywait (i : ℕ) (count : Bool)
  | selectTest (i : ℕ) (count : Bool) (totalPrep : ℤ)
  | giveBack (i : ℕ) (count : Bool)
  | prepare (i k : ℕ)
  | stopPost (i k : ℕ)
  | stopClear (i k : ℕ)
  | consume (i k : ℕ)
  | post (i : ℕ)
  | lock (k : OrderSection)
  | inside (k : OrderSection)
  | ended
  deriving DecidableEq

inductive CustomerSection
  | admission
  | arrival (c : ℕ)
  | enter (c : ℕ)
  | collection (c : ℕ)
  deriving DecidableEq

/-- The places of `serve_customer`; `c` is `customer_id`. -/
inductive CustomerPlace
  | serveTest
  | arrivalTest (c : ℕ)
  | enterTest (c : ℕ)
  | turn (c : ℕ)
  | turnCheck (c : ℕ)
  | giveUpLeft (c : ℕ)
  | giveUpDone (c : ℕ)
  | create (c i : ℕ)
  | join (c i : ℕ)
  | tally (c i : ℕ)
  | lock (k : CustomerSection)
  | inside (k : CustomerSection)
  | ended
  deriving DecidableEq

inductive MachineSection
  | startClock
  | endClock
  deriving DecidableEq

/-- The places of `print_machine`. -/
inductive MachinePlace
  | startTest
  | openTest
  | opening
  | endTest
  | closeTest
  | closing
  | lock (k : MachineSection)
  | inside (k : MachineSection)
  | ended
  deriving DecidableEq

inductive Thread
  | machine (m : ℕ)
  | customer (t : ℕ)
  | order (o : IceCream)
  deriving DecidableEq

/-! ## The state -/

/-- The shared variables, the places of the threads, and what has happened: the uses of
every topping, the operations on the semaphores and the fate of every customer. -/
structure State where
  mutex : Option Thread
  now : ℤ
  elapsed : ℤ
  available : ℕ → Bool
  sem : ℕ → ℕ
  quantity : ℕ → ℤ
  started : IceCream → Bool
  done : IceCream → Bool
  left : ℕ → Bool
  customerDone : ℕ → Bool
  custDone : ℕ → Bool
  served : ℕ
  currQueue : ℤ
  machineAt : ℕ → MachinePlace
  customerAt : ℕ → CustomerPlace
  orderAt : IceCream → OrderPlace
  used : IceCream → ℕ → ℕ
  waits : ℕ → ℕ
  posts : ℕ → ℕ
  admitted : ℕ → Bool
  reported : ℕ → Bool
  collected : ℕ → Bool

namespace State

/-- The threads are created, nothing has happened. -/
def init (inp : Input) : State where
  mutex := none
  now := 0
  elapsed := 0
  available _ := false
  sem _ := 1
  quantity := inp.quantity
  started _ := false
  done _ := false
  left _ := false
  customerDone _ := false
  custDone _ := false
  served := 0
  currQueue := 0
  machineAt _ := .lock .startClock
  customerAt _ := .serveTest
  orderAt _ := .idle
  used _ _ := 0
  waits _ := 0
  posts _ := 0
  admitted _ := false
  reported _ := false
  collected _ := false

variable (inp : Input) (s : State)

@[simp] def goOrder (o : IceCream) (p : OrderPlace) : State :=
  { s with orderAt := Function.update s.orderAt o p }

@[simp] def goCustomer (t : ℕ) (p : CustomerPlace) : State :=
  { s with customerAt := Function.update s.customerAt t p }

@[simp] def goMachine (m : ℕ) (p : MachinePlace) : State :=
  { s with machineAt := Function.update s.machineAt m p }

@[simp] def unlock : State := { s with mutex := none }

/-- `time(&currentTime); elapsedSeconds = difftime(currentTime, startTime)`. -/
@[simp] def readClock : State := { s with elapsed := s.now }

@[simp] def setStarted (o : IceCream) (b : Bool) : State :=
  { s with started := Function.update s.started o b }

@[simp] def setAvailable (m : ℕ) (b : Bool) : State :=
  { s with available := Function.update s.available m b }

/-- `sem_post(&machine_available[i])`. -/
@[simp] def semPost (i : ℕ) : State :=
  { s with sem := Function.update s.sem i (s.sem i + 1)
           posts := Function.update s.posts i (s.posts i + 1) }

/-- The customer is reported as not serviced or as having left, unless it left before. -/
def sendAway (c : ℕ) : State :=
  if s.left c = false then
    { s with left := Function.update s.left c true
             custDone := Function.update s.custDone c true
             currQueue := s.currQueue - 1
             reported := Function.update s.reported c true }
  else s

@[simp] theorem sendAway_eq (c : ℕ) : s.sendAway c =
    { s with left := Function.update s.left c true
             custDone := if s.left c then s.custDone else Function.update s.custDone c true
             currQueue := if s.left c then s.currQueue else s.currQueue - 1
             reported :=
              if s.left c then s.reported else Function.update s.reported c true } := by
  unfold sendAway
  cases h : s.left c with
  | false => simp
  | true =>
    have hleft : Function.update s.left c true = s.left := by rw [← h, Function.update_eq_self]
    simp [hleft]

/-- One `toppings[i].quantity--` for an ice cream. -/
@[simp] def useTopping (o : IceCream) (t : ℕ) : State :=
  { s with quantity := Function.update s.quantity t (s.quantity t - 1)
           used := Function.update s.used o (Function.update (s.used o) t (s.used o t + 1)) }

/-- Both shortage branches after the selection: the report, and the machine given back. -/
@[simp] def shortageWith (o : IceCream) (i : ℕ) : State :=
  (((s.readClock.sendAway o.1).setStarted o true).semPost i).unlock.goOrder o .ended

/-- The body of a section of `make_order`. The two shortage branches inside a section
lock the mutex again before anything else. -/
def orderSection (o : IceCream) : OrderSection → State
  | .stopScan i =>
    s.readClock.unlock.goOrder o (if s.now < inp.endTime i then .flavor else .stopTest (i + 1))
  | .closing | .unserviced => ((s.setStarted o true).sendAway o.1).unlock.goOrder o .ended
  | .shortage => ((s.readClock.sendAway o.1).setStarted o true).unlock.goOrder o .ended
  | .machineScan i count =>
    s.readClock.unlock.goOrder o (.scanAvailable i (count || decide (s.now < inp.endTime i)))
  | .timing i count =>
    s.readClock.unlock.goOrder o (.selectTest i count (inp.preparationTime o + s.now))
  | .begins i =>
    if inp.short s.quantity o then s.goOrder o (.lock (.beginShortage i))
    else (s.readClock.setStarted o true).unlock.goOrder o (.prepare i 0)
  | .finish i =>
    if s.available i = false then
      ((s.readClock.semPost i).setStarted o false).unlock.goOrder o .loopTest
    else if inp.short s.quantity o then s.readClock.goOrder o (.lock (.finishShortage i))
    else
      { s.readClock with done := Function.update s.done o true }.unlock.goOrder o (.consume i 0)
  | .beginShortage i | .finishShortage i => s.shortageWith o i

/-- `make_order`. -/
def makeOrder (o : IceCream) : Option State :=
  match s.orderAt o with
  | .idle | .ended => none
  | .waiting =>
    if o.2 = 0 ∨ s.started (o.1, o.2 - 1) = true then some (s.goOrder o .leftTest) else some s
  | .leftTest => some (s.goOrder o (if s.left o.1 then .leftDone else .loopTest))
  -- `orders[cust_id].order[order_no].started == 1;` has no effect
  | .leftDone =>
    some ({ s with custDone := Function.update s.custDone o.1 true }.goOrder o .leftQueue)
  | .leftQueue => some ({ s with currQueue := s.currQueue - 1 }.goOrder o .ended)
  | .loopTest => some (s.goOrder o (if s.started o then .ended else .stopTest 0))
  | .stopTest i =>
    some (s.goOrder o (
      if i < inp.N then if s.available i then .flavor else .lock (.stopScan i)
      else .lock .closing))
  -- `INVALID ORDER` leaves the loop
  | .flavor => some (s.goOrder o (if inp.preparationTime o = -1 then .ended else .check 0))
  | .check k =>
    some (s.goOrder o (match (inp.listed o)[k]? with
      | none => .scan 0 false
      | some none => .check (k + 1)
      | some (some t) => if s.quantity t ≤ 0 then .lock .shortage else .check (k + 1)))
  | .scan i count =>
    some (s.goOrder o (
      if i < inp.N then .lock (.machineScan i count)
      else if count then .scan 0 false else .lock .unserviced))
  | .scanAvailable i count => some (s.goOrder o (.trywait i (count || s.available i)))
  | .trywait i count =>
    if 0 < s.sem i then
      some ({ s with sem := Function.update s.sem i (s.sem i - 1)
                     waits := Function.update s.waits i (s.waits i + 1) }.goOrder o
        (.lock (.timing i count)))
    else some (s.goOrder o (.scan (i + 1) count))
  | .selectTest i count totalPrep =>
    some (s.goOrder o (
      if s.available i = false ∨ inp.endTime i ≤ totalPrep then .giveBack i count
      else if count then .lock (.begins i) else .lock .unserviced))
  | .giveBack i count => some ((s.semPost i).goOrder o (.scan (i + 1) count))
  | .prepare i k =>
    some (s.goOrder o (
      if (k : ℤ) < inp.preparationTime o then
        if s.available i = false then .stopPost i k else .prepare i (k + 1)
      else .lock (.finish i)))
  | .stopPost i k => some ((s.semPost i).goOrder o (.stopClear i k))
  | .stopClear i k => some ((s.setStarted o false).goOrder o (.prepare i (k + 1)))
  | .consume i k =>
    match (inp.listed o)[k]? with
    | none => some (s.goOrder o (.post i))
    | some none => some (s.goOrder o (.consume i (k + 1)))
    | some (some t) => some ((s.useTopping o t).goOrder o (.consume i (k + 1)))
  | .post i => some ((s.semPost i).goOrder o .loopTest)
  | .lock k =>
    if s.mutex = none then some ({ s with mutex := some (.order o) }.goOrder o (.inside k))
    else none
  | .inside k => some (s.orderSection inp o k)

/-- The body of a section of `serve_customer`. -/
def customerSection (t : ℕ) : CustomerSection → State
  | .admission =>
    if inp.K < s.currQueue then
      { s with served := s.served + 1
               currQueue := s.currQueue - 1
               custDone := Function.update s.custDone s.served true
               left := Function.update s.left s.served true }.unlock.goCustomer t .ended
    else
      { s with served := s.served + 1
               currQueue := s.currQueue + 1
               admitted := Function.update s.admitted s.served true }.unlock.goCustomer t
        (if inp.numCustomers ≤ s.served then .ended else .lock (.arrival s.served))
  | .arrival c => s.readClock.unlock.goCustomer t (.arrivalTest c)
  | .enter c => s.unlock.goCustomer t (.turn c)
  | .collection c =>
    { s.readClock with left := Function.update s.left c true
                       custDone := Function.update s.custDone c true
                       currQueue := s.currQueue - 1
                       collected := Function.update s.collected c true }.unlock.goCustomer t
      .serveTest

/-- `serve_customer`. -/
def serveCustomer (t : ℕ) : Option State :=
  match s.customerAt t with
  | .ended => none
  | .serveTest =>
    some (s.goCustomer t (if s.served < inp.numCustomers then .lock .admission else .ended))
  | .arrivalTest c =>
    some (s.goCustomer t (
      if s.elapsed < inp.arrivalTime c then .lock (.arrival c) else .enterTest c))
  | .enterTest c =>
    some (s.goCustomer t (if inp.arrivalTime c ≤ s.elapsed then .lock (.enter c) else .turn c))
  | .turn c =>
    some (s.goCustomer t (
      if c = 0 ∨ s.custDone (c - 1) = true then .create c 0 else .turnCheck c))
  | .turnCheck c =>
    some (s.goCustomer t (
      if s.left c = true ∨ s.customerDone c = true then .giveUpLeft c else .turn c))
  | .giveUpLeft c =>
    some ({ s with left := Function.update s.left c true }.goCustomer t (.giveUpDone c))
  | .giveUpDone c =>
    some ({ s with customerDone := Function.update s.customerDone c true }.goCustomer t .ended)
  | .create c i =>
    if i < inp.numIceCreams c then
      some ((s.goOrder (c, i) .waiting).goCustomer t (.create c (i + 1)))
    else some (s.goCustomer t (.join c 0))
  | .join c i =>
    if i < inp.numIceCreams c then
      if s.orderAt (c, i) = .ended then some (s.goCustomer t (.join c (i + 1))) else none
    else some (s.goCustomer t (.tally c 0))
  | .tally c i =>
    some (s.goCustomer t (
      if i < inp.numIceCreams c then if s.done (c, i) then .tally c (i + 1) else .serveTest
      else .lock (.collection c)))
  | .lock k =>
    if s.mutex = none then some ({ s with mutex := some (.customer t) }.goCustomer t (.inside k))
    else none
  | .inside k => some (s.customerSection inp t k)

/-- `print_machine`. -/
def printMachine (m : ℕ) : Option State :=
  match s.machineAt m with
  | .ended => none
  | .startTest =>
    some (s.goMachine m (if s.elapsed < inp.startTime m then .lock .startClock else .openTest))
  | .openTest =>
    some ((if inp.startTime m ≤ s.elapsed then s.setAvailable m true else s).goMachine m .opening)
  | .opening => some ((s.setAvailable m true).goMachine m (.lock .endClock))
  | .endTest =>
    some (s.goMachine m (if s.elapsed < inp.endTime m then .lock .endClock else .closeTest))
  | .closeTest =>
    some ((if inp.endTime m ≤ s.elapsed then s.setAvailable m false else s).goMachine m .closing)
  | .closing => some ((s.setAvailable m false).goMachine m .ended)
  | .lock k =>
    if s.mutex = none then some ({ s with mutex := some (.machine m) }.goMachine m (.inside k))
    else none
  | .inside .startClock => some (s.readClock.unlock.goMachine m .startTest)
  | .inside .endClock => some (s.readClock.unlock.goMachine m .endTest)

end State

/-- A thread takes a step, the clock advances, or `main` reads the clock. -/
inductive Move
  | thread (th : Thread)
  | tick (d : ℕ)
  | main

/-- One step of the simulation. -/
def step (inp : Input) (s : State) : Move → Option State
  | .thread (.machine m) => if m < inp.N then s.printMachine inp m else none
  | .thread (.customer t) => if t < inp.numCustomers then s.serveCustomer inp t else none
  | .thread (.order o) => s.makeOrder inp o
  | .tick d => some { s with now := s.now + d }
  | .main => some s.readClock

/-- `n` steps of a thread. -/
def stepsOf (n : ℕ) (th : Thread) : List Move := List.replicate n (.thread th)

end XV6AndConcurrency.Parlour
