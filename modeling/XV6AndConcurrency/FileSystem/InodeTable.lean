import XV6AndConcurrency.FileSystem.Layout
import XV6AndConcurrency.Foundations.Int32
import XV6AndConcurrency.Foundations.PointSums
import XV6AndConcurrency.Foundations.Transitions

/-!
# The table of inodes in memory

`iget`, `idup`, `ilock`, `iunlock`, `iput` and `ialloc` by any processes in any order. A step
is a section under `itable.lock` or a shorter part of one under the sleep-lock of an inode.

References are numbered in the order in which they are handed out, so that one can say
which of them are outstanding: from the return of the call that hands one out to the return
of its `iput`. No section of the code reads or changes the history.
-/

namespace XV6AndConcurrency.FileSystem

open Foundations

/-- `NINODE`. -/
def ninode : ℕ := 50

/-- `struct inode`; of the sleep-lock, who has it. -/
structure Inode where
  dev : ℕ := 0
  inum : ℕ := 0
  ref : ℤ := 0
  holder : Option ℕ := none
  valid : Bool := false
  node : Dinode := {}

/-- The statements of `iput` between the two sections under `itable.lock`. -/
inductive Stage
  | truncating
  | freeing
  | clearing
  | unlocking
  deriving DecidableEq

inductive InodePanic
  | iget
  | ilock
  | noType
  | iunlock
  | sched
  deriving DecidableEq

/-- The table and the inodes on disk. -/
structure Itable where
  inode : ℕ → Inode := fun _ => {}
  disk : ℕ → ℕ → Dinode
  ninodes : ℕ

namespace Itable

section

variable (s : Itable)

def setInode (i : ℕ) (e : Inode) : Itable := { s with inode := Function.update s.inode i e }

def setDisk (dev inum : ℕ) (d : Dinode) : Itable :=
  { s with disk := Function.update s.disk dev (Function.update (s.disk dev) inum d) }

/-- `idup`. -/
def idup (i : ℕ) : Itable :=
  let e := s.inode i
  s.setInode i { e with ref := wrap32 (e.ref + 1) }

/-- `iget`, with the entry that it returns. -/
def iget (dev inum : ℕ) : Except InodePanic (ℕ × Itable) :=
  match (List.range ninode).find? fun i =>
      0 < (s.inode i).ref ∧ (s.inode i).dev = dev ∧ (s.inode i).inum = inum with
  | some i => .ok (i, s.idup i)
  | none =>
    match (List.range ninode).find? fun i => (s.inode i).ref = 0 with
    | none => .error .iget
    | some i =>
      let e := s.inode i
      .ok (i, s.setInode i { e with dev := dev, inum := inum, ref := 1, valid := false })

/-- `iupdate`. -/
def iupdate (i : ℕ) : Itable :=
  let e := s.inode i
  s.setDisk e.dev e.inum e.node

/-- `acquiresleep` and `releasesleep` on the lock of an inode. -/
def setHolder (i : ℕ) (holder : Option ℕ) : Itable :=
  let e := s.inode i
  s.setInode i { e with holder := holder }

/-- The rest of `ilock` once the sleep-lock is acquired. -/
def load (i : ℕ) : Except InodePanic Itable :=
  let e := s.inode i
  if e.valid then .ok s
  else
    let d := s.disk e.dev e.inum
    if d.type = 0 then .error .noType
    else .ok (s.setInode i { e with node := d, valid := true })

/-- `ip->ref--`. -/
def putRef (i : ℕ) : Itable :=
  let e := s.inode i
  s.setInode i { e with ref := wrap32 (e.ref - 1) }

/-- The first section of `iput`, and whether the inode is to be freed. Where the sleep-lock
is taken, `acquiresleep` would have to sleep with `itable.lock` held. -/
def iput (p i : ℕ) : Except InodePanic (Bool × Itable) :=
  let e := s.inode i
  if e.ref = 1 ∧ e.valid ∧ e.node.nlink = 0 then
    if e.holder.isSome then .error .sched else .ok (true, s.setHolder i (some p))
  else .ok (false, s.putRef i)

/-- A statement of `iput` on the inode that it has locked. -/
def free (i : ℕ) : Stage → Itable
  | .truncating =>
    let e := s.inode i
    (s.setInode i { e with node := { e.node with size := 0, addrs := fun _ => 0 } }).iupdate i
  | .freeing =>
    let e := s.inode i
    (s.setInode i { e with node := { e.node with type := 0 } }).iupdate i
  | .clearing =>
    let e := s.inode i
    s.setInode i { e with valid := false }
  | .unlocking => s.setHolder i none

/-- How a test of the loop in `ialloc` ends: there is no inode left, it has taken this one,
or it goes on with the next. -/
inductive Scan
  | noInodes
  | taken (s : Itable)
  | next

/-- A test of the loop in `ialloc`. -/
def scan (dev type inum : ℕ) : Scan :=
  if s.ninodes ≤ inum then .noInodes
  else if (s.disk dev inum).type = 0 then .taken (s.setDisk dev inum { type := type })
  else .next

/-- `holdingsleep`. -/
def locks (p i : ℕ) : Bool := (s.inode i).holder = some p

end

end Itable

/-- Where a process stands. In `freeing`, the reference that is dropped, the entry, and the
number of the next reference when `iput` decided. -/
inductive Place
  | ready
  | scanning (dev type inum : ℕ)
  | found (dev inum : ℕ)
  | loading (r i : ℕ)
  | freeing (stage : Stage) (r i since : ℕ)
  | putting (r i : ℕ)
  deriving DecidableEq

def Stage.next (r i since : ℕ) : Stage → Place
  | .truncating => .freeing .freeing r i since
  | .freeing => .freeing .clearing r i since
  | .clearing => .freeing .unlocking r i since
  | .unlocking => .putting r i

/-- The reference that a process is dropping, and its entry. -/
def Place.drops : Place → Option (ℕ × ℕ)
  | .freeing _ r i _ | .putting r i => some (r, i)
  | .ready | .scanning _ _ _ | .found _ _ | .loading _ _ => none

/-- The table and the processes that use it. The history says what each reference refers to
while it is outstanding and whether its `iput` has begun, who has locked an inode and with
which reference, how often `ialloc` gave an inode out, and how often it had when an entry was
read from disk. -/
structure ItableUse extends Itable where
  place : ℕ → Place := fun _ => .ready
  refers : ℕ → Option ℕ := fun _ => none
  dropped : ℕ → Bool := fun _ => false
  fresh : ℕ := 0
  lockedBy : ℕ → Option (ℕ × ℕ) := fun _ => none
  allocs : ℕ → ℕ → ℕ := fun _ _ => 0
  loaded : ℕ → ℕ := fun _ => 0

namespace ItableUse

section

variable (s : ItableUse)

def setPlace (p : ℕ) (c : Place) : ItableUse := { s with place := Function.update s.place p c }

def setLockedBy (i : ℕ) (l : Option (ℕ × ℕ)) : ItableUse :=
  { s with lockedBy := Function.update s.lockedBy i l }

/-- A call has handed out the next reference. -/
def newRef (i : ℕ) : ItableUse :=
  { s with refers := Function.update s.refers s.fresh (some i), fresh := s.fresh + 1 }

/-- The `iput` of a reference has returned. -/
def endRef (r : ℕ) : ItableUse := { s with refers := Function.update s.refers r none }

/-- The entry that a reference gives access to. -/
def entry (r : ℕ) : Option ℕ := if s.dropped r then none else s.refers r

/-- The number of references to an entry. -/
def outstanding (i : ℕ) : ℕ :=
  ∑ r ∈ Finset.range s.fresh, if s.refers r = some i then 1 else 0

/-- `iget` or `idup` returns an entry. -/
def returns (x : ℕ × Itable) : ItableUse := { s with toItable := x.2 }.newRef x.1

/-- After the first section of `iput`: the inode is to be freed, or the call returns. -/
def puts (p r i : ℕ) (x : Bool × Itable) : ItableUse :=
  if x.1 then
    { s with toItable := x.2
             dropped := Function.update s.dropped r true
             lockedBy := Function.update s.lockedBy i (some (p, r))
             place := Function.update s.place p (.freeing .truncating r i s.fresh) }
  else { s with toItable := x.2 }.endRef r

/-- After the second part of `ilock`, which reads an entry that is not valid. -/
def loads (p i : ℕ) (t : Itable) : ItableUse :=
  let e := s.inode i
  { s with toItable := t
           loaded := if e.valid then s.loaded
             else Function.update s.loaded i (s.allocs e.dev e.inum)
           place := Function.update s.place p .ready }

/-- After a statement of `iput` on the inode that it has locked. -/
def frees (p r i since : ℕ) (stage : Stage) : ItableUse :=
  { s with toItable := s.free i stage
           lockedBy := if stage = .unlocking then Function.update s.lockedBy i none
             else s.lockedBy
           place := Function.update s.place p (stage.next r i since) }

/-- After a test of the loop in `ialloc`. -/
def scans (p dev type inum : ℕ) : ItableUse :=
  match s.scan dev type inum with
  | .noInodes => s.setPlace p .ready
  | .taken t =>
    { s with toItable := t
             allocs := Function.update s.allocs dev (bump (s.allocs dev) inum)
             place := Function.update s.place p (.found dev inum) }
  | .next => s.setPlace p (.scanning dev type (inum + 1))

/-- The next section of the call a process is in. -/
def advance (p : ℕ) : Option (Except InodePanic ItableUse) :=
  match s.place p with
  | .ready => none
  | .scanning dev type inum => some (.ok (s.scans p dev type inum))
  | .found dev inum => some ((s.iget dev inum).map fun x => (s.returns x).setPlace p .ready)
  | .loading _ i => some ((s.load i).map fun t => s.loads p i t)
  | .freeing stage r i since => some (.ok (s.frees p r i since stage))
  | .putting r i => some (.ok (({ s with toItable := s.putRef i }.endRef r).setPlace p .ready))

end

/-- A call of a process, or its next section. Who has the lock may also write the fields of
the inode, except its type, and copy them to disk. -/
inductive Call
  | iget (dev inum : ℕ)
  | idup (r : ℕ)
  | ilock (r : ℕ)
  | iunlock (i : ℕ)
  | iput (r : ℕ)
  | ialloc (dev type : ℕ)
  | write (i : ℕ) (d : Dinode)
  | iupdate (i : ℕ)
  | next

/-- A call by a process that is in none. -/
def call (s : ItableUse) (p : ℕ) : Call → Option (Except InodePanic ItableUse)
  | .next => none
  | .iget dev inum => some ((s.iget dev inum).map fun x => s.returns x)
  | .idup r => (s.entry r).map fun i => .ok (s.returns (i, s.idup i))
  | .ilock r =>
    (s.entry r).bind fun i =>
      let e := s.inode i
      if e.ref < 1 then some (.error .ilock)
      else if e.holder.isSome then none
      else
        let t := { s with toItable := s.setHolder i (some p) }
        some (.ok ((t.setLockedBy i (some (p, r))).setPlace p (.loading r i)))
  | .iunlock i =>
    if ¬ s.locks p i ∨ (s.inode i).ref < 1 then some (.error .iunlock)
    else some (.ok ({ s with toItable := s.setHolder i none }.setLockedBy i none))
  | .iput r =>
    (s.entry r).bind fun i =>
      if (s.lockedBy i).map Prod.snd = some r then none
      else some ((s.iput p i).map fun x => s.puts p r i x)
  | .ialloc dev type => some (.ok (s.setPlace p (.scanning dev type 1)))
  | .write i d =>
    if s.locks p i then
      let e := { s.inode i with node := { d with type := (s.inode i).node.type } }
      some (.ok { s with toItable := s.setInode i e })
    else none
  | .iupdate i =>
    if s.locks p i then some (.ok { s with toItable := s.iupdate i }) else none

def step (t : ItableUse ⊕ InodePanic) (m : ℕ × Call) : Option (ItableUse ⊕ InodePanic) :=
  match t with
  | .inr _ => none
  | .inl s =>
    let outcome := match s.place m.1 with
      | .ready => s.call m.1 m.2
      | _ => s.advance m.1
    outcome.map fun o => match o with
      | .ok s' => .inl s'
      | .error e => .inr e

/-- There are not as many references as an `int` can count: they are in the open files, in
the working directories and in the variables of the calls under way. -/
def Room (s : ItableUse) : Prop := ∀ i < ninode, s.outstanding i + 1 < 2147483648

/-- What the callers keep to. -/
def Callers (t : ItableUse ⊕ InodePanic) (_ : ℕ × Call) : Prop :=
  match t with
  | .inl s => s.Room
  | .inr _ => True

/-- The table after `iinit`, over any disk. -/
def init (disk : ℕ → ℕ → Dinode) (ninodes : ℕ) : ItableUse := { disk := disk, ninodes := ninodes }

end ItableUse

end XV6AndConcurrency.FileSystem
