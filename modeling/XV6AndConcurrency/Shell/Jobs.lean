import XV6AndConcurrency.FileSystem.OpenFiles
import XV6AndConcurrency.Shell.Parser

/-!
# The processes of a command line

`runcmd` with the calls it makes: `fork`, `wait`, `exec`, `exit`, and those on the descriptors
of the process. Each process of a line stands at a node of its tree, and a pipe is named after
the node at which it was made. What the kernel answers is an argument. A program that was
started uses its descriptors, forks and exits as it likes.
-/

namespace XV6AndConcurrency.Shell

open FileSystem

variable {α : Type*}

/-- From a node of a tree to one right below it. -/
inductive Turn
  | left
  | right
  | inner
  deriving DecidableEq

/-- What a descriptor stands for: a file that was there before, one that was opened, or an end
of the pipe made at a node, `true` being the end to write to. -/
inductive Handle (α : Type*)
  | given (fd : ℕ)
  | file (name : α) (mode : ℕ)
  | pipe (node : List Turn) (w : Bool)
  deriving DecidableEq

def Handle.isPipe : Handle α → Bool
  | .pipe _ _ => true
  | _ => false

/-- The array `ofile` of a process. -/
abbrev Fds (α : Type*) := ℕ → Option (Handle α)

namespace Fds

variable (t : Fds α)

def fdalloc : Option ℕ := (List.range nofile).find? fun fd => (t fd).isNone

def close (fd : ℕ) : Fds α := Function.update t fd none

def dup (fd : ℕ) : Fds α :=
  match t fd, fdalloc t with
  | some h, some n => Function.update t n (some h)
  | _, _ => t

def openAs (h : Handle α) : Option (Fds α) :=
  (fdalloc t).map fun fd => Function.update t fd (some h)

/-- `pipe(p)`, with `p[0]` and `p[1]`. -/
def pipe (node : List Turn) : Option (Fds α × ℕ × ℕ) :=
  (fdalloc t).bind fun r =>
    let t := Function.update t r (some (.pipe node false))
    (fdalloc t).map fun w => (Function.update t w (some (.pipe node true)), r, w)

end Fds

/-- The calls between a `fork` and the next `runcmd` or `wait`. -/
inductive Call
  | close (fd : ℕ)
  | dup (fd : ℕ)
  deriving DecidableEq

def Call.run (t : Fds α) : Call → Fds α
  | .close fd => Fds.close t fd
  | .dup fd => Fds.dup t fd

/-- Where a process is. `opening` is in front of the `open` of a redirection, `forkLeft` and
`forkRight` in front of the two forks of a pipeline, and `wait` has so many calls of `wait`
to go before it runs another command or exits. -/
inductive Code (α : Type*)
  | runcmd (cmd : Cmd α)
  | opening (r : Redir α) (cmd : Cmd α)
  | forkLeft (p : ℕ × ℕ) (left right : Cmd α)
  | forkRight (p : ℕ × ℕ) (right : Cmd α)
  | calls (cs : List Call) (next : Option (Cmd α))
  | wait (n : ℕ) (next : Option (Cmd α))
  | exit
  | program (argv : List α)
  | zombie
  deriving DecidableEq

/-- A process. It stands at `node` and was forked for `start`; its parent waits for it if it
is in `front`, and `own` tells those of `runcmd` from the children of programs. -/
structure Proc (α : Type*) where
  parent : ℕ
  code : Code α
  fds : Fds α
  node : List Turn
  start : List Turn
  front : Bool := true
  own : Bool := true

/-- What a process does next; a child begins with the descriptors of its parent. `leave` says
whether a `fork` or a `pipe` has failed. -/
inductive Effect (α : Type*)
  | go (P : Proc α)
  | fork (P : Proc α) (t : Turn) (code : Code α)
  | leave (bad : Bool)

namespace Proc

variable (P : Proc α)

def live : Bool :=
  match P.code with
  | .zombie => false
  | _ => true

def isProgram : Bool :=
  match P.code with
  | .program _ => true
  | _ => false

def goto (code : Code α) : Proc α := { P with code := code }

/-- `runcmd` on a part of the command, in the same process. -/
def enter (t : Turn) (cmd : Cmd α) : Proc α :=
  { P with code := .runcmd cmd, node := P.node ++ [t] }

/-- `alone` says that the process has no children, and `ok` that the call succeeds. -/
def act (alone ok : Bool) : Option (Effect α) :=
  match P.code with
  | .runcmd (.exec argv) =>
    if argv.isEmpty || !ok then some (.leave false) else some (.go (P.goto (.program argv)))
  | .runcmd (.redir cmd r) =>
    some (.go { P.goto (.opening r cmd) with fds := Fds.close P.fds r.fd })
  | .opening r cmd =>
    match Fds.openAs P.fds (.file r.file r.mode) with
    | some fds =>
      if ok then some (.go { P.enter .inner cmd with fds := fds }) else some (.leave false)
    | none => some (.leave false)
  | .runcmd (.list left right) =>
    if ok then some (.fork (P.goto (.wait 1 (some right))) .left (.runcmd left))
    else some (.leave true)
  | .runcmd (.pipe left right) =>
    match Fds.pipe P.fds P.node with
    | some (fds, p) =>
      if ok then some (.go { P.goto (.forkLeft p left right) with fds := fds })
      else some (.leave true)
    | none => some (.leave true)
  | .forkLeft p left right =>
    if ok then
      some (.fork (P.goto (.forkRight p right)) .left
        (.calls [.close 1, .dup p.2, .close p.1, .close p.2] (some left)))
    else some (.leave true)
  | .forkRight p right =>
    if ok then
      some (.fork (P.goto (.calls [.close p.1, .close p.2] none)) .right
        (.calls [.close 0, .dup p.1, .close p.1, .close p.2] (some right)))
    else some (.leave true)
  | .runcmd (.back cmd) =>
    if ok then some (.fork (P.goto .exit) .inner (.runcmd cmd)) else some (.leave true)
  | .calls (c :: cs) next => some (.go { P.goto (.calls cs next) with fds := c.run P.fds })
  | .calls [] (some cmd) => some (.go (P.goto (.runcmd cmd)))
  | .calls [] none => some (.go (P.goto (.wait 2 none)))
  -- `wait` returns -1 to a process without children
  | .wait (n + 1) next => if alone then some (.go (P.goto (.wait n next))) else none
  | .wait 0 (some cmd) => some (.go (P.enter .right cmd))
  | .wait 0 none => some (.leave false)
  | .exit => some (.leave false)
  | .program _ => none
  | .zombie => none

def child (p : ℕ) (t : Turn) (code : Code α) : Proc α :=
  { parent := p, code := code, fds := P.fds, node := P.node ++ [t], start := P.node ++ [t],
    front := t ≠ .inner }

end Proc

/-- The processes by their numbers. `failed` records that a process has exited early in
`runcmd`, because a `fork` or a `pipe` failed or because it was killed. -/
structure Jobs (α : Type*) where
  proc : ℕ → Option (Proc α)
  next : ℕ
  failed : Bool := false

/-- The number of `init`, which adopts orphans. -/
def initPid : ℕ := 1

/-- The numbers of the shell, and of the process that runs the line. -/
def shPid : ℕ := 2

def linePid : ℕ := 3

/-- Three descriptors. -/
def std (w : ℕ → Handle α) : Fds α := fun fd => if fd < 3 then some (w fd) else none

inductive Move (α : Type*)
  | run (p : ℕ) (ok : Bool)
  | reap (q : ℕ)
  | exit (p : ℕ)
  | copy (p fd fd' : ℕ)
  | give (p fd : ℕ) (h : Handle α)
  | spawn (p : ℕ)

namespace Jobs

variable (s : Jobs α) (p : ℕ)

def put (P : Proc α) : Jobs α := { s with proc := Function.update s.proc p (some P) }

def add (P : Proc α) : Jobs α :=
  { s with proc := Function.update s.proc s.next (some P), next := s.next + 1 }

def remove : Jobs α := { s with proc := Function.update s.proc p none }

/-- What `exit` does to the process `q`. -/
def exited (q : ℕ) (Q : Proc α) : Proc α :=
  if q = p then { Q with code := .zombie, fds := fun _ => none }
  else if Q.parent = p then { Q with parent := initPid }
  else Q

def leave (bad : Bool) : Jobs α :=
  { s with proc := fun q => (s.proc q).map (exited p q), failed := s.failed || bad }

def alone : Bool := (List.range s.next).all fun q => (s.proc q).all fun Q => Q.parent ≠ p

def perform (P : Proc α) : Effect α → Jobs α
  | .go P' => s.put p P'
  | .fork P' t code => (s.put p P').add (P.child p t code)
  | .leave bad => s.leave p bad

/-- A zombie is collected by its parent. Neither `init` nor the shell does anything else. -/
def reap (q : ℕ) (Q : Proc α) : Option (Jobs α) :=
  match s.proc Q.parent with
  | none => if Q.parent ≤ shPid then some (s.remove q) else none
  | some P =>
    match P.code with
    | .wait (n + 1) next => some ((s.remove q).put Q.parent (P.goto (.wait n next)))
    | .program _ => some (s.remove q)
    | _ => none

def step : Move α → Option (Jobs α)
  | .run p ok => do
    let P ← s.proc p
    let e ← P.act (s.alone p) ok
    return s.perform p P e
  | .reap q => do
    let Q ← s.proc q
    if Q.live then none else s.reap q Q
  | .exit p => do
    let P ← s.proc p
    if P.live then some (s.leave p (!P.isProgram)) else none
  | .copy p fd fd' => do
    let P ← s.proc p
    if P.isProgram then some (s.put p { P with fds := Function.update P.fds fd (P.fds fd') })
    else none
  | .give p fd h => do
    let P ← s.proc p
    if P.isProgram && !h.isPipe then
      some (s.put p { P with fds := Function.update P.fds fd (some h) })
    else none
  | .spawn p => do
    let P ← s.proc p
    if P.isProgram then some (s.add { P with parent := p, front := false, own := false }) else none

/-- The shell has forked a process for the line. -/
def start (cmd : Cmd α) : Jobs α where
  proc := Function.update (fun _ => none) linePid
    (some { parent := shPid, code := .runcmd cmd, fds := std .given, node := [], start := [] })
  next := linePid + 1

variable {s p} {s' : Jobs α} {P Q : Proc α} {q : ℕ}

@[simp] theorem put_proc : (s.put p P).proc q = if q = p then some P else s.proc q :=
  Function.update_apply ..

@[simp] theorem add_proc : (s.add P).proc q = if q = s.next then some P else s.proc q :=
  Function.update_apply ..

@[simp] theorem remove_proc : (s.remove p).proc q = if q = p then none else s.proc q :=
  Function.update_apply ..

theorem put_cases (h : (s.put p P).proc q = some Q) :
    q = p ∧ Q = P ∨ q ≠ p ∧ s.proc q = some Q := by
  rw [put_proc] at h
  split_ifs at h with hqp
  · exact .inl ⟨hqp, (Option.some.inj h).symm⟩
  · exact .inr ⟨hqp, h⟩

theorem add_cases (h : (s.add P).proc q = some Q) : q = s.next ∧ Q = P ∨ s.proc q = some Q := by
  rw [add_proc] at h
  split_ifs at h with hq
  · exact .inl ⟨hq, (Option.some.inj h).symm⟩
  · exact .inr h

theorem leave_proc {bad : Bool} : (s.leave p bad).proc q = (s.proc q).map (exited p q) := rfl

/-- What a move can do. -/
inductive Stepped (s : Jobs α) : Jobs α → Prop
  | act (p : ℕ) (P : Proc α) (ok : Bool) (e : Effect α) (hp : s.proc p = some P)
    (hact : P.act (s.alone p) ok = some e) : Stepped s (s.perform p P e)
  | collect (q : ℕ) (Q P : Proc α) (n : ℕ) (next : Option (Cmd α)) (hq : s.proc q = some Q)
    (hdead : Q.live = false) (hp : s.proc Q.parent = some P) (hcode : P.code = .wait (n + 1) next) :
    Stepped s ((s.remove q).put Q.parent (P.goto (.wait n next)))
  | remove (q : ℕ) (Q : Proc α) (hq : s.proc q = some Q) (hdead : Q.live = false)
    (hp : ∀ P, s.proc Q.parent = some P → P.isProgram = true) : Stepped s (s.remove q)
  | leave (p : ℕ) (P : Proc α) (hp : s.proc p = some P) (hlive : P.live = true) :
    Stepped s (s.leave p (!P.isProgram))
  | use (p : ℕ) (P : Proc α) (fds : Fds α) (hp : s.proc p = some P) (hprog : P.isProgram = true)
    (hfds : ∀ fd h, fds fd = some h → h.isPipe = true → ∃ fd', P.fds fd' = some h) :
    Stepped s (s.put p { P with fds := fds })
  | spawn (p : ℕ) (P : Proc α) (hp : s.proc p = some P) (hprog : P.isProgram = true) :
    Stepped s (s.add { P with parent := p, front := false, own := false })

theorem stepped {m : Move α} (h : s.step m = some s') : Stepped s s' := by
  cases m with
  | run p ok =>
    obtain ⟨P, hp, h⟩ := Option.bind_eq_some_iff.mp h
    obtain ⟨e, hact, h⟩ := Option.bind_eq_some_iff.mp h
    cases h
    exact .act p P ok e hp hact
  | reap q =>
    obtain ⟨Q, hq, h⟩ := Option.bind_eq_some_iff.mp h
    cases hlive : Q.live with
    | true =>
      rw [hlive] at h
      cases h
    | false =>
      rw [hlive] at h
      change s.reap q Q = some s' at h
      unfold reap at h
      split at h
      · next hnone =>
        split_ifs at h
        cases h
        refine .remove q Q hq hlive fun P hP => ?_
        rw [hnone] at hP
        cases hP
      · next P hp =>
        split at h
        · next n next hcode =>
          cases h
          exact .collect q Q P n next hq hlive hp hcode
        · next argv hcode =>
          cases h
          refine .remove q Q hq hlive fun P' hP' => ?_
          rw [hp] at hP'
          cases hP'
          unfold Proc.isProgram
          rw [hcode]
        · cases h
  | exit p =>
    obtain ⟨P, hp, h⟩ := Option.bind_eq_some_iff.mp h
    split_ifs at h with hlive
    cases h
    exact .leave p P hp hlive
  | copy p fd fd' =>
    obtain ⟨P, hp, h⟩ := Option.bind_eq_some_iff.mp h
    split_ifs at h with hprog
    cases h
    refine .use p P _ hp hprog fun i g hi _ => ?_
    rw [Function.update_apply] at hi
    split_ifs at hi
    · exact ⟨fd', hi⟩
    · exact ⟨i, hi⟩
  | give p fd g =>
    obtain ⟨P, hp, h⟩ := Option.bind_eq_some_iff.mp h
    split_ifs at h with hboth
    cases h
    rw [Bool.and_eq_true] at hboth
    refine .use p P _ hp hboth.1 fun i g' hi hpipe => ?_
    rw [Function.update_apply] at hi
    split_ifs at hi
    · cases hi
      simp [hpipe] at hboth
    · exact ⟨i, hi⟩
  | spawn p =>
    obtain ⟨P, hp, h⟩ := Option.bind_eq_some_iff.mp h
    split_ifs at h with hprog
    cases h
    exact .spawn p P hp hprog

end Jobs

end XV6AndConcurrency.Shell
