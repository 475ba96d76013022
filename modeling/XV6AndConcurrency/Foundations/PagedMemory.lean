import Mathlib.Tactic

/-!
# Byte memory split into pages

An address is a page together with an offset into it, so that writes to
different pages never meet and no address arithmetic is needed to say so.
A page also serves as an array of 64-bit words in little-endian order; the
lemmas below are the read-over-write laws for both views.
-/

namespace XV6AndConcurrency.Foundations

abbrev Byte := BitVec 8

/-- Byte `o` of page `p` is `m p o`. -/
abbrev Memory := ℕ → ℕ → Byte

/-- The number whose `n` little-endian digits are the bytes from offset `o` on. -/
def leNat (b : ℕ → Byte) (o : ℕ) : ℕ → ℕ
  | 0 => 0
  | n + 1 => (b o).toNat + 256 * leNat b (o + 1) n

theorem leNat_congr {b c : ℕ → Byte} {o n : ℕ} (h : ∀ k < n, b (o + k) = c (o + k)) :
    leNat b o n = leNat c o n := by
  induction n generalizing o with
  | zero => rfl
  | succ n ih =>
    have h0 := h 0 (Nat.succ_pos n)
    simp only [Nat.add_zero] at h0
    have ht : leNat b (o + 1) n = leNat c (o + 1) n := by
      apply ih
      intro k hk
      have := h (k + 1) (by omega)
      rwa [show o + (k + 1) = o + 1 + k by omega] at this
    simp only [leNat, h0, ht]

theorem leNat_lt (b : ℕ → Byte) (o n : ℕ) : leNat b o n < 256 ^ n := by
  induction n generalizing o with
  | zero => simp [leNat]
  | succ n ih =>
    have hb := (b o).isLt
    have hr := ih (o + 1)
    rw [leNat, pow_succ']
    omega

/-- The digits of `v`, stored from offset `o` on, read back as `v` modulo `256 ^ n`. -/
theorem leNat_digits (v o n : ℕ) (b : ℕ → Byte)
    (h : ∀ k < n, b (o + k) = BitVec.ofNat 8 (v / 256 ^ k)) : leNat b o n = v % 256 ^ n := by
  induction n generalizing o v with
  | zero => simp [leNat, Nat.mod_one]
  | succ n ih =>
    have h0 := h 0 (Nat.succ_pos n)
    have ht : leNat b (o + 1) n = v / 256 % 256 ^ n := by
      apply ih
      intro k hk
      have := h (k + 1) (by omega)
      rw [show o + (k + 1) = o + 1 + k by omega] at this
      rw [this, Nat.div_div_eq_div_mul, pow_succ']
    simp only [Nat.add_zero, pow_zero, Nat.div_one] at h0
    have hv : v % 256 ^ (n + 1) = v % 256 + 256 * (v / 256 % 256 ^ n) := by
      rw [pow_succ', Nat.mod_mul]
    rw [leNat, h0, ht, hv, BitVec.toNat_ofNat]

namespace Memory

/-- Word `i` of page `p`, little-endian. -/
def word (m : Memory) (p i : ℕ) : BitVec 64 := BitVec.ofNat 64 (leNat (m p) (8 * i) 8)

/-- Store the word `w` at index `i` of page `p`. -/
def setWord (m : Memory) (p i : ℕ) (w : BitVec 64) : Memory := fun q o =>
  if q = p ∧ o / 8 = i then BitVec.ofNat 8 (w.toNat / 256 ^ (o % 8)) else m q o

/-- Set every byte of page `p` to `c`. -/
def fill (m : Memory) (p : ℕ) (c : Byte) : Memory := fun q o => if q = p then c else m q o

/-- Copy the whole page `src` over the page `dst`. -/
def copyPage (m : Memory) (dst src : ℕ) : Memory := fun q o => if q = dst then m src o else m q o

/-- Store the bytes `bs` in page `p` from offset `off` on. -/
def putBytes (m : Memory) (p off : ℕ) (bs : List Byte) : Memory := fun q o =>
  if q = p ∧ off ≤ o then (bs[o - off]?).getD (m q o) else m q o

variable (m : Memory) (p q i j o : ℕ) (c : Byte) (w : BitVec 64)

theorem word_congr {m m' : Memory} {p : ℕ} (h : m' p = m p) (i : ℕ) : m'.word p i = m.word p i := by
  simp [word, h]

@[simp] theorem word_setWord_self : (m.setWord p i w).word p i = w := by
  have h : leNat (m.setWord p i w p) (8 * i) 8 = w.toNat % 256 ^ 8 := by
    apply leNat_digits
    intro k hk
    rw [setWord, if_pos ⟨rfl, by omega⟩, show (8 * i + k) % 8 = k by omega]
  have hw : w.toNat % 256 ^ 8 = w.toNat := Nat.mod_eq_of_lt (by simpa using w.isLt)
  rw [word, h, hw, BitVec.ofNat_toNat, BitVec.setWidth_eq]

theorem word_setWord_of_ne (h : q ≠ p ∨ j ≠ i) :
    (m.setWord p i w).word q j = m.word q j := by
  have hc : leNat (m.setWord p i w q) (8 * j) 8 = leNat (m q) (8 * j) 8 := by
    apply leNat_congr
    intro k hk
    rw [setWord, if_neg]
    rintro ⟨rfl, hi⟩
    rcases h with h | h
    · exact h rfl
    · exact h (by omega)
  rw [word, hc, word]

theorem setWord_of_ne (h : q ≠ p) : m.setWord p i w q = m q := by
  funext o
  simp [setWord, h]

@[simp] theorem setWord_setWord (v : BitVec 64) :
    (m.setWord p i w).setWord p i v = m.setWord p i v := by
  funext q o
  by_cases h : q = p ∧ o / 8 = i
  · simp [setWord, h]
  · simp [setWord, h]

@[simp] theorem fill_self : m.fill p c p = fun _ => c := by
  funext o
  simp [fill]

theorem fill_of_ne (h : q ≠ p) : m.fill p c q = m q := by
  funext o
  simp [fill, h]

@[simp] theorem word_fill_zero : (m.fill p 0#8).word p i = 0#64 := by
  simp [word, leNat]

@[simp] theorem copyPage_self : m.copyPage p q p = m q := by
  funext o
  simp [copyPage]

theorem copyPage_of_ne {dst src : ℕ} (h : q ≠ dst) : m.copyPage dst src q = m q := by
  funext o
  simp [copyPage, h]

variable (off : ℕ) (bs : List Byte)

theorem putBytes_of_ne (h : q ≠ p) : m.putBytes p off bs q = m q := by
  funext o
  simp [putBytes, h]

theorem putBytes_self_of_mem {k : ℕ} (hk : k < bs.length) :
    m.putBytes p off bs p (off + k) = bs[k] := by
  simp [putBytes, hk]

theorem putBytes_self_of_not_mem (h : o < off ∨ off + bs.length ≤ o) :
    m.putBytes p off bs p o = m p o := by
  unfold putBytes
  split_ifs with hc
  · have : bs.length ≤ o - off := by omega
    rw [List.getElem?_eq_none this, Option.getD_none]
  · rfl

/-- The bytes put in a page, over whatever that page held. -/
theorem putBytes_congr {m m' : Memory} {p q : ℕ} (h : m p = m' q) (off : ℕ) (bs : List Byte) :
    m.putBytes p off bs p = m'.putBytes q off bs q := by
  funext o
  simp [putBytes, h]

/-- Writes to different pages commute. -/
theorem setWord_fill_comm (h : q ≠ p) :
    (m.setWord p i w).fill q c = (m.fill q c).setWord p i w := by
  funext r o
  by_cases hr : r = q
  · subst hr
    simp [fill, setWord, h]
  · simp [fill, setWord, hr]

end Memory
end XV6AndConcurrency.Foundations
