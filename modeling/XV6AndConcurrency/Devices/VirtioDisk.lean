import XV6AndConcurrency.Foundations.Rings
import XV6AndConcurrency.Synchronization.Monitor

/-!
# The virtio disk driver

`virtio_disk_rw` and `virtio_disk_intr` as code under `disk.vdisk_lock`, and the device as
the other party: it fetches chain heads from the avail ring, serves their requests in any
order and appends the heads to the used ring. The requests it has served are kept as a
history, and a request header carries a serial number to tell requests apart.
-/

namespace XV6AndConcurrency.Devices

open Foundations Scheduling Synchronization

/-- `NUM`. -/
def num : ℕ := 8

/-- `VRING_DESC_F_NEXT` and `VRING_DESC_F_WRITE`. -/
def fNext : ℕ := 1

def fWrite : ℕ := 2

/-- What the address in a descriptor points to: a request header, the data of a buffer, or
a status byte. -/
inductive Addr
  | null
  | ops (i : ℕ)
  | data (b : ℕ)
  | status (i : ℕ)
  deriving DecidableEq

/-- `struct virtq_desc`. -/
structure Desc where
  addr : Addr := .null
  len : ℕ := 0
  flags : ℕ := 0
  next : ℕ := 0
  deriving DecidableEq

/-- `struct virtio_blk_req`. The serial number is a history variable. -/
structure BlkReq where
  write : Bool := false
  reserved : ℕ := 0
  sector : ℕ := 0
  serial : ℕ := 0
  deriving DecidableEq

/-- An element of `disk.info`. -/
structure Info where
  b : Option ℕ := none
  status : ℕ := 0

/-- The avail ring, and the used ring with its ids. -/
structure VirtRing where
  idx : ℕ := 0
  ring : ℕ → ℕ := fun _ => 0

inductive VirtioPanic
  | freeDesc1
  | freeDesc2
  | intrStatus
  | kerneltrap
  deriving DecidableEq

/-- `struct disk` with the rings it points to, the field `disk` of every buffer, the state
of the device (`lastAvail`, `inflight`), and the history (`serial`, `served`, `acking`). -/
structure Disk where
  desc : ℕ → Desc := fun _ => {}
  avail : VirtRing := {}
  used : VirtRing := {}
  free : ℕ → Bool := fun i => i < num
  usedIdx : ℕ := 0
  info : ℕ → Info := fun _ => {}
  ops : ℕ → BlkReq := fun _ => {}
  bufDisk : ℕ → Bool := fun _ => false
  lastAvail : ℕ := 0
  inflight : List ℕ := []
  serial : ℕ := 0
  served : List (BlkReq × ℕ) := []
  acking : Bool := false
  panic : Option VirtioPanic := none

/-- The variables of a call of `virtio_disk_rw`. -/
structure Op where
  b : ℕ
  blockno : ℕ
  write : Bool
  i0 : ℕ := 0
  i1 : ℕ := 0
  i2 : ℕ := 0
  serial : ℕ := 0
  deriving DecidableEq

/-- The request header that a call fills in; `sector` is computed as a `uint`. -/
def Op.header (r : Op) : BlkReq :=
  { write := r.write, reserved := 0, sector := r.blockno * 2 % 4294967296, serial := r.serial }

namespace Disk

section

variable (d : Disk)

/-! ## Descriptors -/

/-- `alloc_desc`. -/
def allocDesc : Option (ℕ × Disk) :=
  ((List.range num).find? d.free).map fun i =>
    (i, { d with free := Function.update d.free i false })

/-- `free_desc` without its `wakeup`. -/
def freeDesc (i : ℕ) : Except VirtioPanic Disk :=
  if num ≤ i then .error .freeDesc1
  else if d.free i then .error .freeDesc2
  else .ok { d with desc := Function.update d.desc i {}, free := Function.update d.free i true }

/-- How `alloc3_desc` ends; when it fails, after so many calls of `free_desc`. -/
inductive Alloc3
  | got (i0 i1 i2 : ℕ) (d : Disk)
  | failed (m : ℕ) (d : Disk)
  | panicked (e : VirtioPanic)

/-- The inner loop of `alloc3_desc`. -/
def undo (idx : List ℕ) : Alloc3 :=
  match idx.foldlM freeDesc d with
  | .ok d' => .failed idx.length d'
  | .error e => .panicked e

/-- `alloc3_desc`, with the three rounds of its loop written out. -/
def alloc3Desc : Alloc3 :=
  match d.allocDesc with
  | none => d.undo []
  | some (i0, d0) =>
    match d0.allocDesc with
    | none => d0.undo [i0]
    | some (i1, d1) =>
      match d1.allocDesc with
      | none => d1.undo [i0, i1]
      | some (i2, d2) => .got i0 i1 i2 d2

/-! ## Requests -/

/-- `virtio_disk_rw` from the three descriptors up to the entry of the avail ring. -/
def format (r : Op) : Disk :=
  { d with
    ops := Function.update d.ops r.i0 r.header
    desc := Function.update (Function.update (Function.update d.desc
      r.i0 { addr := .ops r.i0, len := 16, flags := fNext, next := r.i1 })
      r.i1 { addr := .data r.b, len := 1024,
             flags := (if r.write then 0 else fWrite) ||| fNext, next := r.i2 })
      r.i2 { addr := .status r.i0, len := 1, flags := fWrite, next := 0 }
    info := Function.update d.info r.i0 { b := some r.b, status := 255 }
    bufDisk := Function.update d.bufDisk r.b true
    avail := { d.avail with ring := Function.update d.avail.ring (d.avail.idx % num) r.i0 }
    serial := d.serial + 1 }

/-- `disk.avail->idx += 1`. -/
def publish : Disk := { d with avail := { d.avail with idx := (d.avail.idx + 1) % 65536 } }

/-- `disk.info[idx[0]].b = 0`. -/
def forget (i : ℕ) : Disk :=
  { d with info := Function.update d.info i { d.info i with b := none } }

/-! ## The device -/

/-- The device finds the next head in the avail ring. -/
def fetch : Disk :=
  { d with lastAvail := (d.lastAvail + 1) % 65536
           inflight := d.inflight ++ [d.avail.ring (d.lastAvail % num)] }

/-- The header and the buffer of the chain with head `h`, and where its status goes. -/
def request (h : ℕ) : Option ((BlkReq × ℕ) × ℕ) :=
  let d1 := d.desc (d.desc h).next
  match (d.desc h).addr, d1.addr, (d.desc d1.next).addr with
  | .ops i, .data b, .status j => some ((d.ops i, b), j)
  | _, _, _ => none

/-- The device serves the chain with head `h`: status 0, and an entry of the used ring. -/
def complete (h : ℕ) (x : BlkReq × ℕ) (j : ℕ) : Disk :=
  { d with info := Function.update d.info j { d.info j with status := 0 }
           served := d.served ++ [x]
           inflight := d.inflight.erase h
           used := { idx := (d.used.idx + 1) % 65536,
                     ring := Function.update d.used.ring (d.used.idx % num) h } }

end

/-- A move of the device. -/
inductive Event
  | none
  | fetch
  | complete (h : ℕ)

def device (d : Disk) : Event → Option Disk
  | .none => Option.none
  | .fetch => if d.lastAvail ≠ d.avail.idx then some d.fetch else Option.none
  | .complete h =>
    if h ∈ d.inflight then (d.request h).map fun x => d.complete h x.1 x.2 else Option.none

/-! ## The code -/

/-- `&disk.free[0]` and the address of a buffer as channels. -/
def freeChan : ℕ := 1

def bufChan (b : ℕ) : ℕ := b + 2

/-- Where a call is. In `allocFailed` some calls of `wakeup` are left to do. `intrNext` is
behind the `wakeup` of `virtio_disk_intr`. -/
inductive Code
  | idle
  | returned (r : Op)
  | alloc (r : Op)
  | allocFailed (r : Op) (m : ℕ)
  | format (r : Op)
  | publish (r : Op)
  | wait (r : Op)
  | freeChain (r : Op) (i : ℕ)
  | done (r : Op)
  | intr
  | intrNext
  | panicked
  deriving DecidableEq

/-- The buffer of a call. -/
def Code.buf : Code → Option ℕ
  | .alloc r | .allocFailed r _ | .format r | .publish r | .wait r | .freeChain r _ | .done r =>
    some r.b
  | _ => none

/-- The descriptors that a call holds. -/
def Code.chain : Code → List ℕ
  | .format r | .publish r | .wait r => [r.i0, r.i1, r.i2]
  | .freeChain r i => [r.i0, r.i1, r.i2].dropWhile (· ≠ i)
  | _ => []

def stop (d : Disk) (e : VirtioPanic) : Next Disk Code := .go { d with panic := some e } .panicked

def act (d : Disk) : Code → Option (Next Disk Code)
  | .idle | .returned _ | .panicked => none
  | .alloc r =>
    match d.alloc3Desc with
    | .got i0 i1 i2 d' => some (.go d' (.format { r with i0 := i0, i1 := i1, i2 := i2 }))
    | .failed m d' => some (.go d' (.allocFailed r m))
    | .panicked e => some (d.stop e)
  | .allocFailed r 0 => some (.sleep freeChan (.alloc r))
  | .allocFailed r (m + 1) => some (.wake d freeChan (.allocFailed r m))
  | .format r =>
    let r := { r with serial := d.serial }
    some (.go (d.format r) (.publish r))
  | .publish r => some (.go d.publish (.wait r))
  | .wait r =>
    if d.bufDisk r.b then some (.sleep (bufChan r.b) (.wait r))
    else some (.go (d.forget r.i0) (.freeChain r r.i0))
  | .freeChain r i =>
    match d.freeDesc i with
    | .error e => some (d.stop e)
    | .ok d' =>
      some (.wake d' freeChan
        (if (d.desc i).flags &&& fNext ≠ 0 then .freeChain r (d.desc i).next else .done r))
  | .done r => some (.leave d (.returned r))
  | .intr =>
    if d.usedIdx ≠ d.used.idx then
      let id := d.used.ring (d.usedIdx % num)
      if (d.info id).status ≠ 0 then some (d.stop .intrStatus)
      else
        match (d.info id).b with
        | none => some (d.stop .kerneltrap)
        | some b =>
          some (.wake { d with bufDisk := Function.update d.bufDisk b false, acking := true }
            (bufChan b) .intrNext)
    else some (.leave d .idle)
  | .intrNext => some (.go { d with usedIdx := (d.usedIdx + 1) % 65536, acking := false } .intr)

/-- The code of a call in progress. -/
def code : View Code → Code
  | .out _ => .idle
  | .waiting k | .active k => k

/-- The callers of `virtio_disk_rw` hold the sleep-lock of the buffer; the handler runs on
the interrupts of some hart. -/
def mayCall (v : ℕ → View Code) (p : ℕ) : Code → Bool
  | .alloc r => p < nproc ∧ ∀ q < nproc, (code (v q)).buf ≠ some r.b
  | .intr => nproc ≤ p
  | _ => false

def client : Client Disk Code Event where
  act d _ k _ := d.act k
  mayCall _ v p k := mayCall v p k
  env := device
  own _ := false
  own_zero := rfl

end Disk

end XV6AndConcurrency.Devices
