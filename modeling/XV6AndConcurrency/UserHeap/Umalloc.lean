import XV6AndConcurrency.Foundations.Int32
import XV6AndConcurrency.Foundations.Walks
import Mathlib.Tactic

/-!
# The user-level memory allocator

`malloc` and `free` of `user/umalloc.c` with `morecore`, and the kernel's `sbrk` below
them. Addresses are bytes; a header takes sixteen of them, and block sizes count headers.
-/

namespace XV6AndConcurrency.UserHeap

open Foundations

/-- What the allocator reads: the header at each address, `freep`, and the kernel's side,
the size of the process and the memory it could still be given. -/
structure Heap where
  ptr : ℕ → ℕ
  size : ℕ → ℕ
  freep : ℕ
  sz : ℕ
  room : ℕ

namespace Heap

variable (h : Heap) (p v : ℕ)

def setPtr : Heap := { h with ptr := Function.update h.ptr p v }

/-- `p->s.size = v`, a `uint`. -/
def setSize : Heap := { h with size := Function.update h.size p (v % 4294967296) }

/-- `p + p->s.size`, the first byte behind the block at `p`. -/
def stop : ℕ := p + 16 * h.size p

/-- The first byte that the process cannot write: the one behind its pages, or behind its size
if its last page is `shared` since a fork, as a page fault behind the size is fatal. -/
def limit (shared : Bool) : ℕ := if shared then h.sz else (h.sz + 4095) / 4096 * 4096

end Heap

/-- `sbrk(n)`: a process that shrinks below nothing wraps to a huge size, which the kernel
takes for growth and ignores. -/
def sbrk (h : Heap) (n : ℤ) : Heap × Option ℕ :=
  if 0 < n then
    if n.toNat ≤ h.room then
      ({ h with sz := h.sz + n.toNat, room := h.room - n.toNat }, some h.sz)
    else (h, none)
  else if n < 0 ∧ (-n).toNat ≤ h.sz then
    ({ h with sz := h.sz - (-n).toNat, room := h.room + (-n).toNat }, some h.sz)
  else (h, some h.sz)

/-- The block in the list that `bp` goes behind. -/
def search (h : Heap) (bp fuel : ℕ) : Option ℕ :=
  walk h.ptr (fun p => decide (p < bp ∧ bp < h.ptr p) ||
    decide (h.ptr p ≤ p ∧ (p < bp ∨ bp < h.ptr p))) fuel h.freep

/-- `if(bp + bp->s.size == p->s.ptr) ... else bp->s.ptr = p->s.ptr`. -/
def joinNext (h : Heap) (bp p : ℕ) : Heap :=
  if h.stop bp = h.ptr p then
    (h.setSize bp (h.size bp + h.size (h.ptr p))).setPtr bp (h.ptr (h.ptr p))
  else h.setPtr bp (h.ptr p)

/-- `if(p + p->s.size == bp) ... else p->s.ptr = bp`. -/
def joinPrev (h : Heap) (bp p : ℕ) : Heap :=
  if h.stop p = bp then
    (h.setSize p (h.size p + h.size bp)).setPtr p (h.ptr bp)
  else h.setPtr p bp

def free (fuel : ℕ) (h : Heap) (ap : ℕ) : Option Heap :=
  let bp := ap - 16
  (search h bp fuel).map fun p => { joinPrev (joinNext h bp p) bp p with freep := p }

/-- How `morecore` and `malloc` end: with an address, or with the process, which the kernel
kills for a store to a page that is not there. -/
inductive Outcome
  | killed
  | returned (h : Heap) (p : ℕ)

/-- `morecore(nu)`; the product is a `size_t` that becomes an `int`. What `sbrk` returns is the
old size, and the process need not have grown behind it: `hp->s.size = nu`, a store of four
bytes, is the only store that may miss its pages. -/
def morecore (shared : Bool) (fuel : ℕ) (h : Heap) (nu : ℕ) : Option Outcome :=
  let nu := if nu < 4096 then 4096 else nu
  match sbrk h (wrap32 (nu * 16 : ℕ)) with
  | (h, none) => some (.returned h 0)
  | (h, some p) =>
    if h.limit shared < p + 12 then some .killed
    else (free fuel (h.setSize p nu) (p + 16)).map fun h => .returned h h.freep

/-- `(nbytes + sizeof(Header) - 1)/sizeof(Header) + 1`. -/
def nunits (nbytes : UInt32) : ℕ := (nbytes.toNat + 16 - 1) / 16 + 1

/-- Take the block at `p` from the list, or the units at its end. -/
def take (h : Heap) (nunits prevp p : ℕ) : Outcome :=
  if h.size p = nunits then
    .returned { h.setPtr prevp (h.ptr p) with freep := prevp } (p + 16)
  else
    let h := h.setSize p (h.size p - nunits)
    let q := h.stop p
    .returned { h.setSize q nunits with freep := prevp } (q + 16)

/-- `for(p = prevp->s.ptr; ; prevp = p, p = p->s.ptr)`. -/
def mallocLoop (shared : Bool) : ℕ → Heap → ℕ → ℕ → ℕ → Option Outcome
  | 0, _, _, _, _ => none
  | fuel + 1, h, nunits, prevp, p =>
    if nunits ≤ h.size p then some (take h nunits prevp p)
    else if p = h.freep then
      match morecore shared fuel h nunits with
      | none => none
      | some .killed => some .killed
      | some (.returned h' 0) => some (.returned h' 0)
      | some (.returned h' p') => mallocLoop shared fuel h' nunits p' (h'.ptr p')
    else mallocLoop shared fuel h nunits p (h.ptr p)

/-- `base.s.ptr = freep = prevp = &base; base.s.size = 0`, on the first call. -/
def start (base : ℕ) (h : Heap) : Heap :=
  if h.freep = 0 then { (h.setPtr base base).setSize base 0 with freep := base } else h

def malloc (shared : Bool) (base fuel : ℕ) (h : Heap) (nbytes : UInt32) : Option Outcome :=
  let h := start base h
  mallocLoop shared fuel h (nunits nbytes) h.freep (h.ptr h.freep)

end XV6AndConcurrency.UserHeap
