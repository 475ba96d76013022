import Mathlib.Tactic

/-!
# Reading from a partial memory

Reads that go from one address to the next and stop at the first one that cannot be read, of a
given number of entries or up to a terminator.
-/

namespace XV6AndConcurrency.Foundations

variable {α : Type*} (get : ℕ → Option α)

/-- Read `n` entries from `a` on: whether all could be read, and what was read. -/
def readFrom (a : ℕ) : ℕ → Bool × List α
  | 0 => (true, [])
  | n + 1 =>
    match get a with
    | none => (false, [])
    | some b => ((readFrom (a + 1) n).1, b :: (readFrom (a + 1) n).2)

/-- Read up to the terminator `z`, and at most `n` entries: whether it was met, and what was
read, the terminator included. -/
def readUntil [DecidableEq α] (z : α) (a : ℕ) : ℕ → Bool × List α
  | 0 => (false, [])
  | n + 1 =>
    match get a with
    | none => (false, [])
    | some b =>
      if b = z then (true, [b])
      else ((readUntil z (a + 1) n).1, b :: (readUntil z (a + 1) n).2)

variable {get} {f : ℕ → α} {a m n : ℕ} {z : α}

theorem forall_shift {P : ℕ → Prop} :
    (∀ i < n + 1, P (a + i)) ↔ P a ∧ ∀ i < n, P (a + 1 + i) := by
  constructor
  · intro h
    refine ⟨h 0 (Nat.succ_pos n), fun i hi => ?_⟩
    rw [Nat.add_right_comm]
    exact h (i + 1) (Nat.succ_lt_succ hi)
  · rintro ⟨h0, h⟩ i hi
    cases i with
    | zero => exact h0
    | succ i =>
      have hnext := h i (Nat.lt_of_succ_lt_succ hi)
      rwa [Nat.add_right_comm] at hnext

theorem map_range_shift (f : ℕ → α) (a n : ℕ) :
    (List.range (n + 1)).map (fun i => f (a + i)) =
      f a :: (List.range n).map fun i => f (a + 1 + i) := by
  rw [List.range_succ_eq_map, List.map_cons, List.map_map]
  simp [Function.comp_def, Nat.add_assoc, Nat.add_comm 1]

theorem readFrom_fst : (readFrom get a n).1 = true ↔ ∀ i < n, (get (a + i)).isSome := by
  induction n generalizing a with
  | zero => simp [readFrom]
  | succ n ih =>
    rw [forall_shift (P := fun x => (get x).isSome), ← ih, readFrom]
    cases get a <;> simp

/-- Reading on behind what can be read. -/
theorem readFrom_add (f : ℕ → α) (h : ∀ i < m, get (a + i) = some (f (a + i))) (n : ℕ) :
    readFrom get a (m + n) = ((readFrom get (a + m) n).1,
      (List.range m).map (fun i => f (a + i)) ++ (readFrom get (a + m) n).2) := by
  induction m generalizing a with
  | zero => simp
  | succ m ih =>
    obtain ⟨h0, hnext⟩ := (forall_shift (P := fun x => get x = some (f x))).mp h
    rw [Nat.add_right_comm, readFrom, h0, ih hnext, map_range_shift f,
      show a + 1 + m = a + (m + 1) by omega]
    rfl

theorem readFrom_of_forall (f : ℕ → α) (h : ∀ i < n, get (a + i) = some (f (a + i))) :
    readFrom get a n = (true, (List.range n).map fun i => f (a + i)) := by
  have hadd := readFrom_add f h 0
  rwa [Nat.add_zero, readFrom, List.append_nil] at hadd

variable [DecidableEq α]

theorem length_readUntil_le : (readUntil get z a n).2.length ≤ n := by
  induction n generalizing a with
  | zero => simp [readUntil]
  | succ n ih =>
    have := @ih (a + 1)
    rw [readUntil]
    cases get a with
    | none => simp
    | some b =>
      dsimp only
      split_ifs
      · simp
      · simpa using this

/-- Reading on behind entries that can be read and are no terminators. -/
theorem readUntil_add (f : ℕ → α) (h : ∀ i < m, get (a + i) = some (f (a + i)))
    (hz : ∀ i < m, f (a + i) ≠ z) (n : ℕ) :
    readUntil get z a (m + n) = ((readUntil get z (a + m) n).1,
      (List.range m).map (fun i => f (a + i)) ++ (readUntil get z (a + m) n).2) := by
  induction m generalizing a with
  | zero => simp
  | succ m ih =>
    obtain ⟨h0, hnext⟩ := (forall_shift (P := fun x => get x = some (f x))).mp h
    obtain ⟨hz0, hznext⟩ := (forall_shift (P := fun x => f x ≠ z)).mp hz
    rw [Nat.add_right_comm, readUntil, h0]
    dsimp only
    rw [if_neg hz0, ih hnext hznext, map_range_shift f, show a + 1 + m = a + (m + 1) by omega]
    rfl

/-- The terminator ends the read. -/
theorem readUntil_of_some (h : get a = some z) : readUntil get z a (n + 1) = (true, [z]) := by
  rw [readUntil, h]
  exact if_pos rfl

theorem readUntil_of_none (h : get a = none) : readUntil get z a n = (false, []) := by
  cases n with
  | zero => rfl
  | succ n => rw [readUntil, h]

/-- The terminator is met exactly if it is there and everything up to it can be read. -/
theorem readUntil_fst : (readUntil get z a n).1 = true ↔
    ∃ k < n, get (a + k) = some z ∧ ∀ i < k, (get (a + i)).isSome := by
  induction n generalizing a with
  | zero => simp [readUntil]
  | succ n ih =>
    cases ha : get a with
    | none =>
      rw [readUntil_of_none ha]
      refine iff_of_false Bool.false_ne_true ?_
      rintro ⟨k, -, hk, hall⟩
      cases k with
      | zero => exact absurd (ha.symm.trans hk) (by simp)
      | succ k => simpa [ha] using hall 0 (Nat.succ_pos k)
    | some b =>
      by_cases hb : b = z
      · subst hb
        rw [readUntil_of_some ha]
        exact iff_of_true rfl ⟨0, Nat.succ_pos n, ha, fun i hi => absurd hi (Nat.not_lt_zero i)⟩
      · rw [readUntil, ha]
        dsimp only
        rw [if_neg hb, ih]
        constructor
        · rintro ⟨k, hk, hz, hall⟩
          refine ⟨k + 1, Nat.succ_lt_succ hk, by rwa [Nat.add_right_comm] at hz, ?_⟩
          exact (forall_shift (P := fun x => (get x).isSome)).mpr ⟨by simp [ha], hall⟩
        · rintro ⟨k, hk, hz, hall⟩
          cases k with
          | zero => exact absurd (Option.some.inj (ha.symm.trans hz)) hb
          | succ k =>
            refine ⟨k, Nat.lt_of_succ_lt_succ hk, by rwa [Nat.add_right_comm], ?_⟩
            exact ((forall_shift (P := fun x => (get x).isSome)).mp hall).2

/-- What is read then ends with the first terminator. -/
theorem readUntil_snd (hf : ∀ x, (get x).isSome → get x = some (f x))
    (h : (readUntil get z a n).1 = true) :
    ∃ k < n, (∀ i < k, f (a + i) ≠ z) ∧ f (a + k) = z ∧
      (readUntil get z a n).2 = (List.range (k + 1)).map fun i => f (a + i) := by
  have hex := readUntil_fst.mp h
  obtain ⟨k, hk, hz, hall, hfirst⟩ : ∃ k < n, get (a + k) = some z ∧
      (∀ i < k, (get (a + i)).isSome) ∧ ∀ i < k, f (a + i) ≠ z := by
    classical
    obtain ⟨hk, hz, hall⟩ := Nat.find_spec hex
    refine ⟨Nat.find hex, hk, hz, hall, fun i hi hzi => Nat.find_min hex hi ?_⟩
    refine ⟨hi.trans hk, ?_, fun j hj => hall j (hj.trans hi)⟩
    rw [hf _ (hall i hi), hzi]
  have hzf : f (a + k) = z := by
    have hfk := hf _ (by rw [hz]; rfl)
    exact (Option.some.inj (hz.symm.trans hfk)).symm
  refine ⟨k, hk, hfirst, hzf, ?_⟩
  obtain ⟨d, rfl⟩ := Nat.exists_eq_add_of_lt hk
  have hadd := readUntil_add f (fun i hi => hf _ (hall i hi)) hfirst (d + 1)
  rw [readUntil_of_some hz] at hadd
  rw [Nat.add_assoc, hadd, List.range_succ, List.map_append]
  simp [hzf]

end XV6AndConcurrency.Foundations
