import XV6AndConcurrency.Foundations.PagedMemory
import Mathlib.Tactic

/-!
# The console

`consoleread` and `consoleintr` on the ring `cons.buf`. `cons.lock` is held from one sleep
of a reader to the next, so what a reader does in between is one turn. Echo and the process
list of control-P go to the UART and are left out.
-/

namespace XV6AndConcurrency.Devices

open Foundations

/-- `C(x)`. -/
def control (x : Char) : Byte := BitVec.ofNat 8 (x.toNat - '@'.toNat)

def newline : Byte := 10#8
def carriageReturn : Byte := 13#8
def delete : Byte := 0x7f#8

/-- `INPUT_BUF_SIZE`. -/
def inputBufSize : ℕ := 128

/-- A `uint` after `++`, after `--`, and the difference of two. -/
def inc (x : ℕ) : ℕ := (x + 1) % 4294967296
def dec (x : ℕ) : ℕ := (x + 4294967295) % 4294967296
def minus (x y : ℕ) : ℕ := (x + 4294967296 - y) % 4294967296

/-- `cons` without its spinlock: the ring, and the read, write and edit index. -/
structure Cons where
  buf : ℕ → Byte
  r : ℕ
  w : ℕ
  e : ℕ

namespace Cons

/-- The loop of control-U, with the number of times that `e` can move down before it meets
`w`. -/
def kill : ℕ → Cons → Cons
  | 0, s => s
  | n + 1, s =>
    if s.e ≠ s.w ∧ s.buf (dec s.e % inputBufSize) ≠ newline then kill n { s with e := dec s.e }
    else s

/-- `cons.buf[cons.e++ % INPUT_BUF_SIZE] = c`. -/
def store (s : Cons) (c : Byte) : Cons :=
  { s with buf := Function.update s.buf (s.e % inputBufSize) c, e := inc s.e }

def consoleintr (c : Byte) (s : Cons) : Cons :=
  if c = control 'P' then s
  else if c = control 'U' then s.kill (minus s.e s.w)
  else if c = control 'H' ∨ c = delete then
    if s.e ≠ s.w then { s with e := dec s.e } else s
  else if c ≠ 0 ∧ minus s.e s.r < inputBufSize then
    let c := if c = carriageReturn then newline else c
    let s := s.store c
    if c = newline ∨ c = control 'D' ∨ minus s.e s.r = inputBufSize then { s with w := s.e }
    else s
  else s

end Cons

/-- How a turn of a reader ends: asleep with `n` bytes to go, or with a return value. -/
inductive Turn
  | asleep (n : ℕ)
  | returned (ret : ℤ)
  deriving DecidableEq

/-- What a reader keeps while it sleeps. -/
def Turn.slot (target : ℕ) : Turn → Option (ℕ × ℕ)
  | .asleep n => some (target, n)
  | .returned _ => none

/-- What a reader got in one turn: the bytes it took from the console, and those of them
that it copied to the user. -/
structure Served where
  turn : Turn
  taken : List Byte
  copied : List Byte
  deriving DecidableEq

/-- One more byte in front. -/
def Served.cons (c : Byte) (v : Served) : Served := ⟨v.turn, c :: v.taken, c :: v.copied⟩

/-- The loop of `consoleread` with `n` bytes to go, until it sleeps or returns. `copies i` tells
whether `either_copyout` of byte `i` succeeds. -/
def consoleread (killed : Bool) (copies : ℕ → Bool) (target : ℕ) : ℕ → Cons → Served × Cons
  | 0, s => (⟨.returned target, [], []⟩, s)
  | n + 1, s =>
    if s.r = s.w then (⟨if killed then .returned (-1) else .asleep (n + 1), [], []⟩, s)
    else
      let c := s.buf (s.r % inputBufSize)
      let s := { s with r := inc s.r }
      let done : ℤ := target - (n + 1)
      if c = control 'D' then
        if n + 1 < target then (⟨.returned done, [], []⟩, { s with r := dec s.r })
        else (⟨.returned done, [c], []⟩, s)
      else if ¬ copies (target - (n + 1)) then (⟨.returned done, [c], []⟩, s)
      else if c = newline then (⟨.returned (done + 1), [c], [c]⟩, s)
      else ((consoleread killed copies target n s).1.cons c,
        (consoleread killed copies target n s).2)

/-! ## Processes and interrupts -/

/-- A device that interrupts feed and processes read. -/
structure Device (δ : Type) where
  intr : Byte → δ → δ
  read : Bool → (ℕ → Bool) → ℕ → ℕ → δ → Served × δ

/-- The console of the kernel. -/
def console : Device Cons := ⟨Cons.consoleintr, consoleread⟩

/-- What happens: an input character, a call `read(n)` of a process, or another turn of one that
sleeps in it. -/
inductive Act
  | intr (c : Byte)
  | call (p : ℕ) (n : ℤ) (killed : Bool) (copies : ℕ → Bool)
  | resume (p : ℕ) (killed : Bool) (copies : ℕ → Bool)

/-- The device, the readers that sleep with `target` and `n`, and what was served to whom. -/
structure System (δ : Type) where
  device : δ
  asleep : ℕ → Option (ℕ × ℕ)
  log : List (ℕ × Served)

variable {δ : Type}

/-- A turn of the process `p`. -/
def System.serve (dev : Device δ) (s : System δ) (p target n : ℕ) (killed : Bool)
    (copies : ℕ → Bool) : System δ :=
  let (v, device) := dev.read killed copies target n s.device
  ⟨device, Function.update s.asleep p (v.turn.slot target), s.log ++ [(p, v)]⟩

def System.step (dev : Device δ) (s : System δ) : Act → Option (System δ)
  | .intr c => some { s with device := dev.intr c s.device }
  | .call p n killed copies =>
    match s.asleep p with
    | none => some (s.serve dev p n.toNat n.toNat killed copies)
    | some _ => none
  | .resume p killed copies =>
    match s.asleep p with
    | some (target, n) => some (s.serve dev p target n killed copies)
    | none => none

/-- Nobody reads. -/
def System.idle (device : δ) : System δ := ⟨device, fun _ => none, []⟩

/-- The bytes that readers have consumed. -/
def System.consumed (s : System δ) : List Byte := s.log.flatMap fun x => x.2.taken

end XV6AndConcurrency.Devices
