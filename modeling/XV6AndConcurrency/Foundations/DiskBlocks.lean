import XV6AndConcurrency.Foundations.PagedMemory

/-!
# Disk blocks

A block is an array of bytes that also serves as an array of 32-bit words in
little-endian order. Writes to a disk, or to any function, are applied in order: the
last one to a place counts.
-/

namespace XV6AndConcurrency.Foundations

abbrev Block := ℕ → Byte

namespace Block

/-- Word `i` of a block. -/
def word (b : Block) (i : ℕ) : ℕ := leNat b (4 * i) 4

/-- Store the low 32 bits of `v` at word `i`. -/
def setWord (b : Block) (i v : ℕ) : Block := fun o =>
  if o / 4 = i then BitVec.ofNat 8 (v / 256 ^ (o % 4)) else b o

/-- Store words from index `i` on. -/
def setWords (b : Block) (i : ℕ) : List ℕ → Block
  | [] => b
  | v :: vs => (b.setWord i v).setWords (i + 1) vs

/-- Bit `i` of a block. -/
def bit (b : Block) (i : ℕ) : Bool := (b (i / 8)).getLsbD (i % 8)

/-- The byte with bit `i` set alone. -/
def mask (i : ℕ) : Byte := 1#8 <<< (i % 8)

def setBit (b : Block) (i : ℕ) : Block := Function.update b (i / 8) (b (i / 8) ||| mask i)

def clearBit (b : Block) (i : ℕ) : Block := Function.update b (i / 8) (b (i / 8) &&& ~~~mask i)

/-- Store the bytes `bs` from offset `off` on. -/
def putBytes (b : Block) (off : ℕ) (bs : List Byte) : Block := fun o =>
  if off ≤ o then (bs[o - off]?).getD (b o) else b o

variable (b : Block) {i j v : ℕ}

theorem word_setWord_self (hv : v < 4294967296) : (b.setWord i v).word i = v := by
  have h : leNat (b.setWord i v) (4 * i) 4 = v % 256 ^ 4 := by
    apply leNat_digits
    intro k hk
    rw [setWord, if_pos (by omega), show (4 * i + k) % 4 = k by omega]
  rw [word, h, Nat.mod_eq_of_lt (by simpa using hv)]

theorem word_setWord_of_ne (h : j ≠ i) : (b.setWord i v).word j = b.word j := by
  unfold word
  apply leNat_congr
  intro k hk
  rw [setWord, if_neg (by omega)]

theorem word_setWords_of_lt {vs : List ℕ} (h : j < i) : (b.setWords i vs).word j = b.word j := by
  induction vs generalizing b i with
  | nil => rfl
  | cons v vs ih =>
    rw [setWords, ih (b.setWord i v) (Nat.lt_succ_of_lt h), word_setWord_of_ne b (by omega)]

/-- Words that were stored are read back. -/
theorem word_setWords {vs : List ℕ} (hvs : ∀ v ∈ vs, v < 4294967296) {k : ℕ} (hk : k < vs.length) :
    (b.setWords i vs).word (i + k) = vs[k] := by
  induction vs generalizing b i k with
  | nil => simp at hk
  | cons v vs ih =>
    cases k with
    | zero =>
      change ((b.setWord i v).setWords (i + 1) vs).word i = v
      rw [word_setWords_of_lt _ (Nat.lt_add_one i),
        word_setWord_self b (hvs v List.mem_cons_self)]
    | succ k =>
      rw [setWords, show i + (k + 1) = i + 1 + k by omega,
        ih (b.setWord i v) (fun w hw => hvs w (List.mem_cons_of_mem v hw))
          (by simpa using hk), List.getElem_cons_succ]

theorem word_setWords_of_le {vs : List ℕ} (h : i + vs.length ≤ j) :
    (b.setWords i vs).word j = b.word j := by
  induction vs generalizing b i with
  | nil => rfl
  | cons v vs ih =>
    rw [List.length_cons] at h
    rw [setWords, ih (b.setWord i v) (by omega), word_setWord_of_ne b (by omega)]

@[simp] theorem word_zero (i : ℕ) : word (fun _ => 0#8) i = 0 := by simp [word, leNat]

/-! ### Bits -/

theorem mask_getLsbD {k : ℕ} (hk : k < 8) : (mask i).getLsbD k = decide (k = i % 8) := by
  unfold mask
  have hi := Nat.mod_lt i (show 0 < 8 by decide)
  generalize i % 8 = m at hi ⊢
  interval_cases k <;> interval_cases m <;> decide

/-- Changing bit `i` leaves the other ones alone. -/
theorem bit_setBit : (b.setBit i).bit j = (decide (j = i) || b.bit j) := by
  unfold bit setBit
  have hj := Nat.mod_lt j (show 0 < 8 by decide)
  by_cases hbyte : j / 8 = i / 8
  · rw [hbyte, Function.update_self, BitVec.getLsbD_or, mask_getLsbD hj, Bool.or_comm]
    congr 2
    apply propext
    omega
  · rw [Function.update_of_ne hbyte, decide_eq_false (by rintro rfl; exact hbyte rfl),
      Bool.false_or]

/-! ### Bytes -/

theorem putBytes_of_mem {bs : List Byte} {off k : ℕ} (hk : k < bs.length) :
    b.putBytes off bs (off + k) = bs[k] := by
  simp [putBytes, hk]

theorem putBytes_of_not_mem {bs : List Byte} {off o : ℕ} (h : o < off ∨ off + bs.length ≤ o) :
    b.putBytes off bs o = b o := by
  unfold putBytes
  split_ifs with hoff
  · rw [List.getElem?_eq_none (by omega), Option.getD_none]
  · rfl

end Block

/-! ## Writes in order -/

section

variable {α β : Type*} [DecidableEq α]

def overlay (d : α → β) : List (α × β) → α → β
  | [] => d
  | (a, v) :: ws => overlay (Function.update d a v) ws

variable {d : α → β} {ws vs : List (α × β)} {a : α}

theorem overlay_append : overlay d (ws ++ vs) = overlay (overlay d ws) vs := by
  induction ws generalizing d with
  | nil => rfl
  | cons w ws ih => exact ih

theorem overlay_of_not_mem (h : a ∉ ws.map Prod.fst) : overlay d ws a = d a := by
  induction ws generalizing d with
  | nil => rfl
  | cons w ws ih =>
    rw [List.map_cons, List.mem_cons, not_or] at h
    rw [overlay, ih h.2, Function.update_of_ne h.1]

theorem overlay_snoc (v : β) :
    overlay d (ws ++ [(a, v)]) = Function.update (overlay d ws) a v := by
  rw [overlay_append]
  rfl

end

end XV6AndConcurrency.Foundations
