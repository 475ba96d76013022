import Mathlib.Computability.Language
import Mathlib.Tactic

/-!
# Words of a language at the beginning of a list

The rules by which a matcher that goes through a list from the front decides whether the list
begins with a word of a language, or is one.
-/

namespace XV6AndConcurrency.Foundations

open Computability

variable {α : Type*}

/-- The words of one character out of a set. -/
def chars (S : Set α) : Language α := {l | ∃ c ∈ S, l = [c]}

/-- `text` begins with a word of `L`, and is that word if `whole` holds. -/
def Begins (L : Language α) (whole : Prop) (text : List α) : Prop :=
  ∃ mid post, text = mid ++ post ∧ mid ∈ L ∧ (whole → post = [])

variable {L M : Language α} {S : Set α} {whole : Prop} {text : List α}

theorem begins_one : Begins 1 whole text ↔ (whole → text = []) := by
  constructor
  · rintro ⟨mid, post, rfl, hmid, hpost⟩ hwhole
    obtain rfl := (Language.mem_one mid).mp hmid
    rw [hpost hwhole]
    rfl
  · intro h
    exact ⟨[], text, rfl, Language.nil_mem_one, h⟩

theorem begins_add : Begins (L + M) whole text ↔ Begins L whole text ∨ Begins M whole text := by
  constructor
  · rintro ⟨mid, post, rfl, hmid, hpost⟩
    rcases (Language.mem_add L M mid).mp hmid with h | h
    · exact .inl ⟨mid, post, rfl, h, hpost⟩
    · exact .inr ⟨mid, post, rfl, h, hpost⟩
  · rintro (⟨mid, post, rfl, hmid, hpost⟩ | ⟨mid, post, rfl, hmid, hpost⟩)
    · exact ⟨mid, post, rfl, (Language.mem_add L M mid).mpr (.inl hmid), hpost⟩
    · exact ⟨mid, post, rfl, (Language.mem_add L M mid).mpr (.inr hmid), hpost⟩

theorem begins_chars_mul :
    Begins (chars S * L) whole text ↔ ∃ c t, text = c :: t ∧ c ∈ S ∧ Begins L whole t := by
  constructor
  · rintro ⟨mid, post, rfl, hmid, hpost⟩
    obtain ⟨-, ⟨c, hc, rfl⟩, w, hw, rfl⟩ := Language.mem_mul.mp hmid
    exact ⟨c, w ++ post, rfl, hc, w, post, rfl, hw, hpost⟩
  · rintro ⟨c, t, rfl, hc, w, post, rfl, hw, hpost⟩
    exact ⟨c :: w, post, rfl, Language.mem_mul.mpr ⟨[c], ⟨c, hc, rfl⟩, w, hw, rfl⟩, hpost⟩

/-- A repetition is left at once, or goes on for one character. -/
theorem begins_kstar_mul :
    Begins ((chars S)∗ * L) whole text ↔
      Begins L whole text ∨ ∃ c t, text = c :: t ∧ c ∈ S ∧ Begins ((chars S)∗ * L) whole t := by
  have hunfold : (chars S)∗ * L = L + chars S * ((chars S)∗ * L) := by
    conv_lhs => rw [← Language.one_add_self_mul_kstar_eq_kstar, add_mul, one_mul, mul_assoc]
  conv_lhs => rw [hunfold]
  rw [begins_add, begins_chars_mul]

end XV6AndConcurrency.Foundations
