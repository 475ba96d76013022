import XV6AndConcurrency.Foundations.PanicState
import XV6AndConcurrency.Foundations.PointSums
import XV6AndConcurrency.Foundations.Transitions
import XV6AndConcurrency.Scheduling.Tasks

/-!
# Open files

The table of open files, the descriptors of all processes and the pages of the pipes, with
the calls that open, duplicate and close. What lies below is an argument of the call:
whether a path was found and which inode it names, whether `kalloc` has a page, whether
`copyout` and the other parts of `fork` succeed.
-/

namespace XV6AndConcurrency.FileSystem

open Foundations Scheduling

/-- `NFILE`. -/
def nfile : ℕ := 100

/-- `NOFILE`. -/
def nofile : ℕ := 16

/-- `NDEV`. -/
def ndev : ℤ := 10

inductive FileType
  | none
  | pipe
  | inode
  | device
  deriving DecidableEq

/-- `struct file`; an inode is its address, a pipe the number of its page. -/
structure File where
  type : FileType := .none
  ref : ℕ := 0
  readable : Bool := false
  writable : Bool := false
  pipe : ℕ := 0
  ip : ℕ := 0
  off : ℕ := 0
  major : ℤ := 0

/-- The fields of `struct pipe` that count. -/
structure Ends where
  readopen : Bool
  writeopen : Bool
  deriving DecidableEq

inductive FilePanic
  | filedup
  | fileclose
  | pipeclose
  | initExiting
  deriving DecidableEq

inductive Slot
  | unused
  | live
  | zombie
  deriving DecidableEq

/-- `ftable`, the array `ofile` of every process, and the pages that hold a pipe; the
history counts how often a page became a pipe and how often `pipeclose` gave it back. -/
structure Files where
  file : ℕ → File := fun _ => {}
  ofile : ℕ → ℕ → Option ℕ := fun _ _ => none
  slot : ℕ → Slot
  pipes : ℕ → Option Ends := fun _ => none
  kallocs : ℕ → ℕ := fun _ => 0
  kfrees : ℕ → ℕ := fun _ => 0

abbrev FileM := Stoppable Files FilePanic

namespace Files

section

variable (s : Files)

def setFile (f : ℕ) (g : File) : Files := { s with file := Function.update s.file f g }

def setFd (p fd : ℕ) (o : Option ℕ) : Files :=
  { s with ofile := Function.update s.ofile p (Function.update (s.ofile p) fd o) }

def setPipe (pa : ℕ) (o : Option Ends) : Files :=
  { s with pipes := Function.update s.pipes pa o }

def setSlot (p : ℕ) (o : Slot) : Files := { s with slot := Function.update s.slot p o }

end

/-! ## `file.c` and `pipe.c` -/

/-- `filealloc`. -/
def filealloc : FileM (Option ℕ) := fun s =>
  match (List.range nfile).find? fun f => (s.file f).ref = 0 with
  | none => .ok (none, s)
  | some f => .ok (some f, s.setFile f { s.file f with ref := 1 })

/-- `filedup`. -/
def filedup (f : ℕ) : FileM Unit := fun s =>
  if (s.file f).ref < 1 then .error .filedup
  else .ok ((), s.setFile f { s.file f with ref := (s.file f).ref + 1 })

def Ends.close (e : Ends) (w : Bool) : Ends :=
  if w then { e with writeopen := false } else { e with readopen := false }

/-- `pipeclose`; it must not be called for a page that is no pipe any more. -/
def pipeclose (pa : ℕ) (writable : Bool) : FileM Unit := fun s =>
  match s.pipes pa with
  | none => .error .pipeclose
  | some e =>
    let e := Ends.close e writable
    if ¬ e.readopen ∧ ¬ e.writeopen then
      .ok ((), { s.setPipe pa none with kfrees := bump s.kfrees pa })
    else .ok ((), s.setPipe pa (some e))

/-- `fileclose`. The `iput` of an inode is not visible here. -/
def fileclose (f : ℕ) : FileM Unit := do
  let ff ← look fun s => s.file f
  if ff.ref < 1 then stop .fileclose
  else if ff.ref - 1 > 0 then modify fun s => s.setFile f { ff with ref := ff.ref - 1 }
  else
    modify fun s => s.setFile f { ff with ref := 0, type := .none }
    if ff.type = .pipe then pipeclose ff.pipe ff.writable else pure ()

/-- What `pipealloc` writes when it has two files and a page. -/
def makePipe (s : Files) (f0 f1 pa : ℕ) : Files :=
  let s := { s.setPipe pa (some ⟨true, true⟩) with kallocs := bump s.kallocs pa }
  let s := s.setFile f0
    { s.file f0 with type := .pipe, readable := true, writable := false, pipe := pa }
  s.setFile f1 { s.file f1 with type := .pipe, readable := false, writable := true, pipe := pa }

/-- `pipealloc`, with the page that `kalloc` returns. -/
def pipealloc (page : Option ℕ) : FileM (Option (ℕ × ℕ)) := do
  match ← filealloc with
  | none => pure none
  | some f0 =>
    match ← filealloc with
    | none =>
      fileclose f0
      pure none
    | some f1 =>
      match page with
      | none =>
        fileclose f0
        fileclose f1
        pure none
      | some pa =>
        modify fun s => s.makePipe f0 f1 pa
        pure (some (f0, f1))

/-! ## System calls -/

/-- `argfd`. -/
def argfd (p : ℕ) (fd : ℤ) : FileM (Option ℕ) :=
  look fun s => if fd < 0 ∨ nofile ≤ fd then none else s.ofile p fd.toNat

/-- `fdalloc`. -/
def fdalloc (p f : ℕ) : FileM (Option ℕ) := fun s =>
  match (List.range nofile).find? fun fd => s.ofile p fd = none with
  | none => .ok (none, s)
  | some fd => .ok (some fd, s.setFd p fd (some f))

def sysDup (p : ℕ) (fd : ℤ) : FileM Unit := do
  match ← argfd p fd with
  | none => pure ()
  | some f =>
    match ← fdalloc p f with
    | none => pure ()
    | some _ => filedup f

def sysClose (p : ℕ) (fd : ℤ) : FileM Unit := do
  match ← argfd p fd with
  | none => pure ()
  | some f =>
    modify fun s => s.setFd p fd.toNat none
    fileclose f

/-- The inode that `create` or `namei` has found. -/
structure Found where
  ip : ℕ
  type : ℕ
  major : ℤ

/-- The tests of `sys_open` on the inode. -/
def openable (omode : ℕ) (i : Found) : Bool :=
  ¬ (omode &&& 512 = 0 ∧ i.type = 1 ∧ omode ≠ 0) ∧ ¬ (i.type = 3 ∧ (i.major < 0 ∨ ndev ≤ i.major))

/-- What `sys_open` writes into its file. -/
def openFile (g : File) (omode : ℕ) (i : Found) : File :=
  let g := if i.type = 3 then { g with type := .device, major := i.major }
    else { g with type := .inode, off := 0 }
  { g with ip := i.ip, readable := omode &&& 1 = 0, writable := omode &&& 1 ≠ 0 ∨ omode &&& 2 ≠ 0 }

/-- `sys_open`; the path may not be found at all. -/
def sysOpen (p omode : ℕ) (found : Option Found) : FileM Unit := do
  match found with
  | none => pure ()
  | some i =>
    if openable omode i then
      match ← filealloc with
      | none => pure ()
      | some f =>
        match ← fdalloc p f with
        | none => fileclose f
        | some _ => modify fun s => s.setFile f (openFile (s.file f) omode i)
    else pure ()

/-- `sys_pipe`; `copied` says whether both calls of `copyout` succeed. -/
def sysPipe (p : ℕ) (page : Option ℕ) (copied : Bool) : FileM Unit := do
  match ← pipealloc page with
  | none => pure ()
  | some (rf, wf) =>
    match ← fdalloc p rf with
    | none =>
      fileclose rf
      fileclose wf
    | some fd0 =>
      match ← fdalloc p wf with
      | none =>
        modify fun s => s.setFd p fd0 none
        fileclose rf
        fileclose wf
      | some fd1 =>
        if copied then pure ()
        else
          modify fun s => (s.setFd p fd0 none).setFd p fd1 none
          fileclose rf
          fileclose wf

/-- A round of the loop over `ofile` in `fork`. -/
def forkRound (p np i : ℕ) : FileM Unit := do
  match ← look fun s => s.ofile p i with
  | none => pure ()
  | some f =>
    filedup f
    modify fun s => s.setFd np i (some f)

/-- `fork` with the slot that `allocproc` has found and marked. When it fails the slot is
given back before any file is touched. -/
def fork (p np : ℕ) (ok : Bool) : FileM Unit := do
  if ok then
    modify fun s => s.setSlot np .live
    (List.range nofile).forM (forkRound p np)
  else pure ()

/-- A round of the loop over `ofile` in `exit`. -/
def exitRound (p fd : ℕ) : FileM Unit := do
  match ← look fun s => s.ofile p fd with
  | none => pure ()
  | some f =>
    fileclose f
    modify fun s => s.setFd p fd none

/-- `exit`; the first process is `initproc`. -/
def exit (p : ℕ) : FileM Unit := do
  if p = 0 then stop .initExiting
  else
    (List.range nofile).forM (exitRound p)
    modify fun s => s.setSlot p .zombie

/-! ## Sequences of calls -/

inductive FileCall
  | open (p omode : ℕ) (found : Option Found)
  | pipe (p : ℕ) (page : Option ℕ) (copied : Bool)
  | dup (p : ℕ) (fd : ℤ)
  | close (p : ℕ) (fd : ℤ)
  | fork (p np : ℕ) (ok : Bool)
  | exit (p : ℕ)
  | wait (q : ℕ)

/-- Who calls, except that `wait` is told by the slot that it frees. -/
def FileCall.caller : FileCall → ℕ
  | .open p _ _ | .pipe p _ _ | .dup p _ | .close p _ | .fork p _ _ | .exit p | .wait p => p

def FileCall.run : FileCall → FileM Unit
  | .open p omode found => sysOpen p omode found
  | .pipe p page copied => sysPipe p page copied
  | .dup p fd => sysDup p fd
  | .close p fd => sysClose p fd
  | .fork p np ok => Files.fork p np ok
  | .exit p => Files.exit p
  | .wait q => modify fun s => s.setSlot q .unused

/-- `kalloc` returns no page that holds a pipe, `allocproc` finds an unused slot, and `wait`
a zombie; the others are calls of a process. -/
def FileCall.enabled (s : Files) : FileCall → Bool
  | .pipe p page _ => s.slot p = .live ∧ (page.bind s.pipes).isNone
  | .fork p np _ => s.slot p = .live ∧ np < nproc ∧ s.slot np = .unused
  | .wait q => s.slot q = .zombie
  | .open p _ _ | .dup p _ | .close p _ | .exit p => s.slot p = .live

/-- A call, or nothing more after a panic. -/
def step (s : Files ⊕ FilePanic) (c : FileCall) : Option (Files ⊕ FilePanic) :=
  match s with
  | .inr _ => none
  | .inl s =>
    if c.caller < nproc ∧ c.enabled s then
      match c.run s with
      | .ok (_, s') => some (.inl s')
      | .error e => some (.inr e)
    else none

/-- The first process, with no files open. -/
def boot : Files := { slot := fun p => if p = 0 then .live else .unused }

end Files

end XV6AndConcurrency.FileSystem
