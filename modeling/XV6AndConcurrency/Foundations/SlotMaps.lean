import Mathlib.Tactic

/-!
# Maps kept in slots

A row of slots, each empty or with a key and a value. When no key is in two slots the row
stands for a finite map: filling an empty slot inserts, and emptying a slot erases.
-/

namespace XV6AndConcurrency.Foundations

variable {κ ν : Type*}

/-- No key is in two of the first `n` slots. -/
def DistinctKeys (entry : ℕ → Option (κ × ν)) (n : ℕ) : Prop :=
  ∀ i < n, ∀ j < n, ∀ k v w, entry i = some (k, v) → entry j = some (k, w) → i = j

variable [DecidableEq κ]

/-- The first slot with the key. -/
def findSlot (entry : ℕ → Option (κ × ν)) (n : ℕ) (k : κ) : Option ℕ :=
  (List.range n).find? fun i => (entry i).map Prod.fst = some k

/-- The map that the slots stand for. -/
def toMap (entry : ℕ → Option (κ × ν)) (n : ℕ) (k : κ) : Option ν :=
  (findSlot entry n k).bind fun i => (entry i).map Prod.snd

variable {entry entry' : ℕ → Option (κ × ν)} {n n' i : ℕ} {k k' : κ} {v : ν}

theorem findSlot_eq_some (h : findSlot entry n k = some i) :
    i < n ∧ ∃ v, entry i = some (k, v) := by
  have hkey : (entry i).map Prod.fst = some k := by simpa using List.find?_some h
  obtain ⟨⟨k', v⟩, he, rfl⟩ := Option.map_eq_some_iff.mp hkey
  exact ⟨List.mem_range.mp (List.mem_of_find?_eq_some h), v, he⟩

theorem findSlot_eq_none : findSlot entry n k = none ↔ ∀ i < n, ∀ v, entry i ≠ some (k, v) := by
  unfold findSlot
  rw [List.find?_eq_none]
  constructor
  · intro h i hi v he
    exact h i (List.mem_range.mpr hi) (by simp [he])
  · intro h i hi hkey
    obtain ⟨⟨k', v⟩, he, rfl⟩ := Option.map_eq_some_iff.mp (of_decide_eq_true hkey)
    exact h i (List.mem_range.mp hi) v he

theorem findSlot_isSome (hi : i < n) (he : entry i = some (k, v)) :
    (findSlot entry n k).isSome := by
  rw [Option.isSome_iff_ne_none]
  exact fun hnone => findSlot_eq_none.mp hnone i hi v he

theorem toMap_eq_some (h : DistinctKeys entry n) :
    toMap entry n k = some v ↔ ∃ i < n, entry i = some (k, v) := by
  unfold toMap
  constructor
  · intro hmap
    obtain ⟨i, hfind, hval⟩ := Option.bind_eq_some_iff.mp hmap
    obtain ⟨hi, w, he⟩ := findSlot_eq_some hfind
    refine ⟨i, hi, ?_⟩
    rw [he] at hval ⊢
    cases hval
    rfl
  · rintro ⟨i, hi, he⟩
    obtain ⟨j, hj⟩ := Option.isSome_iff_exists.mp (findSlot_isSome hi he)
    obtain ⟨hjn, w, hje⟩ := findSlot_eq_some hj
    obtain rfl := h i hi j hjn k v w he hje
    simp [hj, he]

theorem toMap_eq_none : toMap entry n k = none ↔ findSlot entry n k = none := by
  unfold toMap
  cases h : findSlot entry n k with
  | none => simp
  | some i =>
    obtain ⟨-, v, he⟩ := findSlot_eq_some h
    simp [he]

/-- A slot that was empty, or right behind the end, gets a key that was in no slot. -/
theorem DistinctKeys.fill (h : DistinctKeys entry n) (hn : n ≤ n') (hi : i < n')
    (hend : ∀ j < n', n ≤ j → j = i) (hempty : i < n → entry i = none)
    (habsent : findSlot entry n k = none) (hself : entry' i = some (k, v))
    (hothers : ∀ j < n', j ≠ i → entry' j = entry j) :
    DistinctKeys entry' n' ∧ toMap entry' n' = Function.update (toMap entry n) k (some v) := by
  have hnew : ∀ j < n', ∀ k' w, entry' j = some (k', w) ↔
      j = i ∧ k' = k ∧ w = v ∨ j < n ∧ entry j = some (k', w) := by
    intro j hj k' w
    by_cases hji : j = i
    · subst hji
      rw [hself]
      constructor
      · intro heq
        cases heq
        exact .inl ⟨rfl, rfl, rfl⟩
      · rintro (⟨-, rfl, rfl⟩ | ⟨hlt, he⟩)
        · rfl
        · rw [hempty hlt] at he
          cases he
    · have hlt : j < n := by
        by_contra hge
        exact hji (hend j hj (not_lt.mp hge))
      rw [hothers j hj hji]
      simp [hji, hlt]
  have hno := findSlot_eq_none.mp habsent
  have hdistinct : DistinctKeys entry' n' := by
    intro j hj l hl k' w w' hje hle
    rcases (hnew j hj k' w).mp hje with ⟨rfl, rfl, -⟩ | ⟨hjn, hje⟩
    · rcases (hnew l hl _ w').mp hle with ⟨rfl, -, -⟩ | ⟨hln, hle⟩
      · rfl
      · exact absurd hle (hno l hln w')
    · rcases (hnew l hl _ w').mp hle with ⟨rfl, rfl, -⟩ | ⟨hln, hle⟩
      · exact absurd hje (hno j hjn w)
      · exact h j hjn l hln k' w w' hje hle
  refine ⟨hdistinct, funext fun k' => Option.ext fun w => ?_⟩
  rw [toMap_eq_some hdistinct]
  by_cases hk : k' = k
  · subst hk
    rw [Function.update_self]
    constructor
    · rintro ⟨j, hj, hje⟩
      rcases (hnew j hj _ w).mp hje with ⟨-, -, rfl⟩ | ⟨hjn, hje⟩
      · rfl
      · exact absurd hje (hno j hjn w)
    · intro hw
      cases hw
      exact ⟨i, hi, hself⟩
  · rw [Function.update_of_ne hk, toMap_eq_some h]
    constructor
    · rintro ⟨j, hj, hje⟩
      rcases (hnew j hj _ w).mp hje with ⟨-, hkk, -⟩ | hold
      · exact absurd hkk hk
      · exact ⟨j, hold⟩
    · rintro ⟨j, hj, hje⟩
      exact ⟨j, hj.trans_le hn, (hnew j (hj.trans_le hn) _ w).mpr (.inr ⟨hj, hje⟩)⟩

/-- The slot of a key is emptied. -/
theorem DistinctKeys.clear (h : DistinctKeys entry n) (hi : i < n) (he : entry i = some (k, v))
    (hself : entry' i = none) (hothers : ∀ j < n, j ≠ i → entry' j = entry j) :
    DistinctKeys entry' n ∧ toMap entry' n = Function.update (toMap entry n) k none := by
  have hnew : ∀ j < n, ∀ k' w, entry' j = some (k', w) ↔ j ≠ i ∧ entry j = some (k', w) := by
    intro j hj k' w
    by_cases hji : j = i
    · rw [hji, hself]
      simp
    · rw [hothers j hj hji]
      simp [hji]
  have hdistinct : DistinctKeys entry' n := by
    intro j hj l hl k' w w' hje hle
    exact h j hj l hl k' w w' ((hnew j hj k' w).mp hje).2 ((hnew l hl k' w').mp hle).2
  refine ⟨hdistinct, funext fun k' => Option.ext fun w => ?_⟩
  rw [toMap_eq_some hdistinct]
  by_cases hk : k' = k
  · subst hk
    rw [Function.update_self]
    constructor
    · rintro ⟨j, hj, hje⟩
      obtain ⟨hji, hje⟩ := (hnew j hj _ w).mp hje
      exact absurd (h j hj i hi _ w v hje he) hji
    · intro hw
      cases hw
  · rw [Function.update_of_ne hk, toMap_eq_some h]
    constructor
    · rintro ⟨j, hj, hje⟩
      exact ⟨j, hj, ((hnew j hj _ w).mp hje).2⟩
    · rintro ⟨j, hj, hje⟩
      refine ⟨j, hj, (hnew j hj _ w).mpr ⟨?_, hje⟩⟩
      rintro rfl
      rw [he] at hje
      cases hje
      exact hk rfl

end XV6AndConcurrency.Foundations
