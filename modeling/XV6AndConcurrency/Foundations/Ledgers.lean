import Mathlib.Tactic

/-!
# Exclusive ownership

Places that hold at most one unit of a resource each, and a mark on every unit in use. The
ledger is balanced when no unit is in two places and the marked units are exactly the reserved
ones and those in some place. Taking an unmarked unit and giving one back keep the balance.
-/

namespace XV6AndConcurrency.Foundations

variable {ι β : Type*}

/-- The units in `place` and the `reserved` ones are the `marked` ones, each counted once. -/
structure Ledger (place : ι → Option β) (reserved marked : β → Prop) : Prop where
  unique : ∀ {x y b}, place x = some b → place y = some b → x = y
  apart : ∀ {x b}, place x = some b → ¬ reserved b
  marked_iff : ∀ b, marked b ↔ reserved b ∨ ∃ x, place x = some b

namespace Ledger

variable {place : ι → Option β} {reserved marked : β → Prop} {x y : ι} {b : β}

theorem marked_of_place (h : Ledger place reserved marked) (hx : place x = some b) : marked b :=
  (h.marked_iff b).mpr (.inr ⟨x, hx⟩)

theorem marked_of_reserved (h : Ledger place reserved marked) (hb : reserved b) : marked b :=
  (h.marked_iff b).mpr (.inl hb)

/-- Two ledgers with the same entries. -/
theorem congr {place' : ι → Option β} {marked' : β → Prop} (h : Ledger place reserved marked)
    (hplace : ∀ x, place' x = place x) (hmarked : ∀ b, marked' b ↔ marked b) :
    Ledger place' reserved marked' := by
  obtain rfl : place' = place := funext hplace
  obtain rfl : marked' = marked := funext fun b => propext (hmarked b)
  exact h

variable [DecidableEq ι]

/-- An unmarked unit goes to an empty place. -/
theorem take (h : Ledger place reserved marked) (hx : place x = none) (hb : ¬ marked b) :
    Ledger (Function.update place x (some b)) reserved (fun c => c = b ∨ marked c) := by
  constructor
  · intro y z c hy hz
    by_cases hyx : y = x
    · by_cases hzx : z = x
      · rw [hyx, hzx]
      · rw [hyx, Function.update_self] at hy
        rw [Function.update_of_ne hzx] at hz
        cases hy
        exact absurd (h.marked_of_place hz) hb
    · rw [Function.update_of_ne hyx] at hy
      by_cases hzx : z = x
      · rw [hzx, Function.update_self] at hz
        cases hz
        exact absurd (h.marked_of_place hy) hb
      · rw [Function.update_of_ne hzx] at hz
        exact h.unique hy hz
  · intro y c hy
    by_cases hyx : y = x
    · rw [hyx, Function.update_self] at hy
      cases hy
      exact fun hres => hb (h.marked_of_reserved hres)
    · rw [Function.update_of_ne hyx] at hy
      exact h.apart hy
  · intro c
    rw [h.marked_iff]
    constructor
    · rintro (rfl | hres | ⟨y, hy⟩)
      · exact .inr ⟨x, Function.update_self ..⟩
      · exact .inl hres
      · have hyx : y ≠ x := by
          rintro rfl
          rw [hx] at hy
          cases hy
        exact .inr ⟨y, by rw [Function.update_of_ne hyx, hy]⟩
    · rintro (hres | ⟨y, hy⟩)
      · exact .inr (.inl hres)
      · by_cases hyx : y = x
        · rw [hyx, Function.update_self] at hy
          cases hy
          exact .inl rfl
        · rw [Function.update_of_ne hyx] at hy
          exact .inr (.inr ⟨y, hy⟩)

/-- A unit leaves its place and loses its mark. -/
theorem release (h : Ledger place reserved marked) (hx : place x = some b) :
    Ledger (Function.update place x none) reserved (fun c => c ≠ b ∧ marked c) := by
  have hold : ∀ {y c}, Function.update place x none y = some c → y ≠ x ∧ place y = some c := by
    intro y c hy
    by_cases hyx : y = x
    · rw [hyx, Function.update_self] at hy
      cases hy
    · rw [Function.update_of_ne hyx] at hy
      exact ⟨hyx, hy⟩
  constructor
  · intro y z c hy hz
    exact h.unique (hold hy).2 (hold hz).2
  · intro y c hy
    exact h.apart (hold hy).2
  · intro c
    rw [h.marked_iff]
    constructor
    · rintro ⟨hne, hres | ⟨y, hy⟩⟩
      · exact .inl hres
      · have hyx : y ≠ x := by
          rintro rfl
          rw [hx] at hy
          cases hy
          exact hne rfl
        exact .inr ⟨y, by rw [Function.update_of_ne hyx, hy]⟩
    · rintro (hres | ⟨y, hy⟩)
      · exact ⟨fun heq => h.apart hx (heq ▸ hres), .inl hres⟩
      · obtain ⟨hyx, hy⟩ := hold hy
        refine ⟨fun heq => hyx ?_, .inr ⟨y, hy⟩⟩
        rw [heq] at hy
        exact h.unique hy hx

end Ledger

end XV6AndConcurrency.Foundations
