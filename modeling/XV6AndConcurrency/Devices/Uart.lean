import XV6AndConcurrency.Foundations.PagedMemory
import XV6AndConcurrency.Foundations.Rings
import XV6AndConcurrency.Synchronization.Monitor

/-!
# The transmit side of the UART

`uartputc`, `uartstart` and the transmit half of `uartintr`, as code under `uart_tx_lock`.
The device has a queue of sixteen bytes, says that it is idle when the queue is empty, and
interrupts when it has become so. `uartputc_sync`, which does not take the lock, may add
bytes of its own at any time; its users look for an idle device first and are fewer than
the places of the queue.
-/

namespace XV6AndConcurrency.Devices

open Foundations Scheduling Synchronization

/-- `UART_TX_BUF_SIZE`. -/
def uartTxBufSize : ℕ := 32

/-- The ring and the device. A byte is marked by whether `uartstart` sent it; `line` is what
has left the device, and `accepted` records what `uartputc` has stored. -/
structure Uart where
  buf : ℕ → Byte
  w : ℕ := 0
  r : ℕ := 0
  fifo : List (Bool × Byte) := []
  line : List (Bool × Byte) := []
  pending : Bool := false
  accepted : List Byte := []

namespace Uart

variable (d : Uart) (c : Byte)

/-- `uart_tx_w == uart_tx_r + UART_TX_BUF_SIZE`. -/
def full : Bool := d.w = (d.r + uartTxBufSize) % 18446744073709551616

/-- `uart_tx_buf[uart_tx_w % UART_TX_BUF_SIZE] = c; uart_tx_w += 1`. -/
def push : Uart :=
  { d with
    buf := Function.update d.buf (d.w % uartTxBufSize) c
    w := (d.w + 1) % 18446744073709551616
    accepted := d.accepted ++ [c] }

/-- `uart_tx_r += 1`. -/
def pop : Uart := { d with r := (d.r + 1) % 18446744073709551616 }

/-- `WriteReg(THR, c)` in `uartstart`. -/
def send : Uart := { d with fifo := d.fifo ++ [(true, c)] }

/-- What happens without the lock: a byte leaves the device, or `uartputc_sync` adds one. -/
inductive Event
  | transmit
  | sync (c : Byte)

def env : Event → Option Uart
  | .transmit =>
    match d.fifo with
    | [] => none
    | x :: rest => some { d with
        fifo := rest, line := d.line ++ [x], pending := d.pending || rest.isEmpty }
  | .sync c => if d.fifo.length < 15 then some { d with fifo := d.fifo ++ [(false, c)] } else none

/-- `&uart_tx_r` as a channel. -/
def chan : ℕ := 1

/-- Where a process or a handler is: outside, at the test of `uartputc`, at the top of the
loop of `uartstart`, behind its `wakeup`, or at the beginning of the handler's section. -/
inductive Code
  | free
  | putc (c : Byte)
  | start
  | write (c : Byte)
  | intr

def act : Code → Option (Next Uart Code)
  | .free => none
  | .putc c => if d.full then some (.sleep chan (.putc c)) else some (.go (d.push c) .start)
  | .start =>
    if d.w = d.r then some (.leave d .free)
    else if d.fifo ≠ [] then some (.leave d .free)
    else some (.wake d.pop chan (.write (d.buf (d.r % uartTxBufSize))))
  | .write c => some (.go (d.send c) .start)
  | .intr => some (.go { d with pending := false } .start)

/-- `uartputc` may sleep, so it is called by processes; handlers call `uartintr`. -/
def mayCall (v : View Code) (p : ℕ) (k : Code) : Bool :=
  match v, k with
  | .out .free, .putc _ => p < nproc
  | .out .free, .intr => nproc ≤ p
  | _, _ => false

def client : Client Uart Code Event where
  act d _ k _ := d.act k
  mayCall _ v p k := mayCall (v p) p k
  env := env
  own c := c = chan
  own_zero := rfl

/-- The bytes in the ring, the oldest first. -/
def contents : List Byte := window 18446744073709551616 uartTxBufSize d.buf d.r d.w

/-- The bytes of `uartstart` that have left the device or are in it. -/
def sent : List Byte := ((d.line ++ d.fifo).filter Prod.fst).map Prod.snd

/-- The counters are apart by no more than the size of the ring. -/
structure Ring : Prop where
  r_lt : d.r < 18446744073709551616
  w_lt : d.w < 18446744073709551616
  le : span 18446744073709551616 d.r d.w ≤ uartTxBufSize

end Uart

end XV6AndConcurrency.Devices
