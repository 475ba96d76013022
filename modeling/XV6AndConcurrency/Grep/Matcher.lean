import XV6AndConcurrency.Foundations.DiskBlocks
import XV6AndConcurrency.Foundations.Prefixes

/-!
# The matcher of grep

`match`, `matchhere` and `matchstar`. A string is the list of its characters, and the end of
the list is the NUL.
-/

namespace XV6AndConcurrency.Grep

open Foundations Computability

/-- The character `^`. -/
def caret : Byte := 94

/-- The character `$`. -/
def dollar : Byte := 36

/-- The character `.`. -/
def dot : Byte := 46

/-- The character `*`. -/
def star : Byte := 42

mutual

/-- `matchhere`. -/
def matchhere : List Byte → List Byte → Bool
  | [], _ => true
  | c :: re, text =>
    if re.head? = some star then matchstar c re.tail text
    else if c = dollar ∧ re = [] then text = []
    else
      match text with
      | [] => false
      | t :: text => if c = dot ∨ c = t then matchhere re text else false
termination_by re text => (re.length, text.length, 0)
decreasing_by all_goals simp [Prod.lex_def]

/-- `matchstar`. -/
def matchstar (c : Byte) (re text : List Byte) : Bool :=
  if matchhere re text then true
  else
    match text with
    | [] => false
    | t :: text => if t = c ∨ c = dot then matchstar c re text else false
termination_by (re.length, text.length, 1)
decreasing_by all_goals simp [Prod.lex_def]

end

/-- The loop in `match`. -/
def matchLoop (re : List Byte) : List Byte → Bool
  | [] => matchhere re []
  | t :: text => if matchhere re (t :: text) then true else matchLoop re text

/-- `match`. -/
def matchRe (re text : List Byte) : Bool :=
  if re.head? = some caret then matchhere re.tail text else matchLoop re text

/-! ## The language of a pattern -/

/-- The characters that `c` stands for. -/
def charClass (c : Byte) : Set Byte := {t | c = dot ∨ c = t}

/-- The language of a pattern without `^` in front and `$` at the end. -/
def language : List Byte → Language Byte
  | [] => 1
  | [c] => chars (charClass c)
  | c :: d :: re =>
    if d = star then (chars (charClass c))∗ * language re
    else chars (charClass c) * language (d :: re)

/-- The pattern behind a `^` in front. -/
def unanchored (re : List Byte) : List Byte := if re.head? = some caret then re.tail else re

/-- A pattern is held to the end of the text. A `$` at the end has no star behind it. -/
def EndsText (re : List Byte) : Prop := re.getLast? = some dollar

instance (re : List Byte) : Decidable (EndsText re) := inferInstanceAs (Decidable (_ = _))

/-- The pattern before a `$` at the end. -/
def body (re : List Byte) : List Byte := if EndsText re then re.dropLast else re

/-! ## matchhere -/

variable {c d : Byte} {re text : List Byte}

theorem language_cons (h : re.head? ≠ some star) :
    language (c :: re) = chars (charClass c) * language re := by
  cases re with
  | nil => rw [language, language, mul_one]
  | cons d re =>
    rw [language, if_neg]
    rintro rfl
    exact h rfl

theorem endsText_cons_cons : EndsText (c :: d :: re) ↔ EndsText (d :: re) := by
  unfold EndsText
  rw [List.getLast?_cons_cons]

theorem body_cons_cons : body (c :: d :: re) = c :: body (d :: re) := by
  unfold body
  simp only [endsText_cons_cons]
  split_ifs <;> rfl

theorem endsText_star : EndsText (c :: star :: re) ↔ EndsText re := by
  rw [endsText_cons_cons]
  cases re with
  | nil => simp [EndsText, star, dollar]
  | cons d re => exact endsText_cons_cons

theorem body_star : body (c :: star :: re) = c :: star :: body re := by
  rw [body_cons_cons]
  cases re with
  | nil => simp [body, EndsText, star, dollar]
  | cons d re => rw [body_cons_cons]

theorem head?_body (h : re.head? ≠ some star) : (body re).head? ≠ some star := by
  cases re with
  | nil => exact h
  | cons c re =>
    cases re with
    | nil =>
      unfold body
      split_ifs
      · simp
      · exact h
    | cons d re =>
      rw [body_cons_cons]
      exact h

/-- `matchstar` tries `matchhere` behind every repetition. -/
theorem matchstar_iff {L : Language Byte} {whole : Prop}
    (h : ∀ text, matchhere re text = true ↔ Begins L whole text) :
    matchstar c re text = true ↔ Begins ((chars (charClass c))∗ * L) whole text := by
  induction text with
  | nil =>
    rw [matchstar, begins_kstar_mul, ← h]
    simp
  | cons t text ih =>
    rw [matchstar, begins_kstar_mul, ← h]
    have hclass : t ∈ charClass c ↔ t = c ∨ c = dot := by
      rw [or_comm, @eq_comm _ t]
      rfl
    by_cases hnow : matchhere re (t :: text) = true
    · simp [hnow]
    · simp [hnow, ← hclass, ih]

/-- `matchhere` decides whether the text begins with a word of the language. -/
theorem matchhere_iff (re text : List Byte) :
    matchhere re text = true ↔ Begins (language (body re)) (EndsText re) text := by
  induction hlen : re.length using Nat.strong_induction_on generalizing re text with
  | h n ih =>
    subst hlen
    match re with
    | [] =>
      rw [matchhere]
      simp [body, EndsText, language, begins_one]
    | c :: re =>
      rw [matchhere.eq_def]
      dsimp only
      by_cases hstar : re.head? = some star
      · obtain ⟨re, rfl⟩ : ∃ re', re = star :: re' := ⟨re.tail, (List.eq_cons_of_mem_head? hstar)⟩
        rw [if_pos hstar, body_star, language, if_pos rfl, List.tail_cons]
        simp only [endsText_star]
        exact matchstar_iff fun text => ih _ (by simp) re text rfl
      rw [if_neg hstar]
      by_cases hend : c = dollar ∧ re = []
      · obtain ⟨rfl, rfl⟩ := hend
        simp [body, EndsText, language, begins_one]
      rw [if_neg hend]
      have hbody : body (c :: re) = c :: body re ∧ (EndsText (c :: re) ↔ EndsText re) := by
        cases re with
        | nil =>
          have hc : c ≠ dollar := fun h => hend ⟨h, rfl⟩
          simp [body, EndsText, hc]
        | cons d re => exact ⟨body_cons_cons, endsText_cons_cons⟩
      rw [hbody.1, hbody.2, language_cons (head?_body hstar), begins_chars_mul]
      cases text with
      | nil => simp
      | cons t text =>
        have hrest := ih re.length (by simp) re text rfl
        have hclass : t ∈ charClass c ↔ c = dot ∨ c = t := Iff.rfl
        simp [← hclass, ← hrest]

/-- The loop tries every suffix of the text. -/
theorem matchLoop_iff (re text : List Byte) :
    matchLoop re text = true ↔ ∃ before rest, text = before ++ rest ∧ matchhere re rest = true := by
  induction text with
  | nil => simp [matchLoop]
  | cons t text ih =>
    rw [matchLoop]
    split_ifs with hnow
    · exact iff_of_true rfl ⟨[], t :: text, rfl, hnow⟩
    · rw [ih]
      constructor
      · rintro ⟨before, rest, rfl, hrest⟩
        exact ⟨t :: before, rest, rfl, hrest⟩
      · rintro ⟨before, rest, htext, hrest⟩
        cases before with
        | nil => exact absurd (htext ▸ hrest) hnow
        | cons b before =>
          rw [List.cons_append, List.cons.injEq] at htext
          exact ⟨before, rest, htext.2, hrest⟩

/-- `match` decides whether the text contains a word of the language. -/
theorem match_decides (re text : List Byte) :
    matchRe re text = true ↔ ∃ before mid after, text = before ++ mid ++ after ∧
      mid ∈ language (body (unanchored re)) ∧ (re.head? = some caret → before = []) ∧
      (EndsText (unanchored re) → after = []) := by
  unfold matchRe unanchored
  by_cases hcaret : re.head? = some caret
  · rw [if_pos hcaret, if_pos hcaret, matchhere_iff]
    constructor
    · rintro ⟨mid, after, rfl, hmid, hafter⟩
      exact ⟨[], mid, after, rfl, hmid, fun _ => rfl, hafter⟩
    · rintro ⟨before, mid, after, rfl, hmid, hbefore, hafter⟩
      rw [hbefore hcaret]
      exact ⟨mid, after, rfl, hmid, hafter⟩
  · rw [if_neg hcaret, if_neg hcaret, matchLoop_iff]
    constructor
    · rintro ⟨before, rest, rfl, hrest⟩
      obtain ⟨mid, after, rfl, hmid, hafter⟩ := (matchhere_iff re rest).mp hrest
      exact ⟨before, mid, after, (List.append_assoc ..).symm, hmid, fun h => absurd h hcaret,
        hafter⟩
    · rintro ⟨before, mid, after, rfl, hmid, -, hafter⟩
      exact ⟨before, mid ++ after, List.append_assoc ..,
        (matchhere_iff re _).mpr ⟨mid, after, rfl, hmid, hafter⟩⟩

end XV6AndConcurrency.Grep
