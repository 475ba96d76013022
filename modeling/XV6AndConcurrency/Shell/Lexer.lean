import Mathlib.Tactic

/-!
# Tokens of the shell

`gettoken` and `peek` on the rest of the command line, from the cursor to `es`. A pointer
into the line is represented by the text from it to `es`; the line has no NUL before `es`.
-/

namespace XV6AndConcurrency.Shell

/-- `" \t\r\n\v"`. -/
def whitespace : List Char := [' ', '\t', '\r', '\n', '\x0b']

/-- `"<|>&;()"`. -/
def symbols : List Char := ['<', '|', '>', '&', ';', '(', ')']

def isWhitespace (c : Char) : Bool := whitespace.contains c

/-- The characters of a word. -/
def isWord (c : Char) : Bool := !whitespace.contains c && !symbols.contains c

/-- `while(s < es && strchr(whitespace, *s)) s++`. -/
def skip (s : List Char) : List Char := s.dropWhile isWhitespace

/-- What `gettoken` returns, with the beginning and the end of the token, and the cursor. -/
structure Found where
  ret : Char
  q : List Char
  eq : List Char
  rest : List Char
  deriving DecidableEq

/-- The token at the cursor. -/
def tokenAt : List Char → Found
  | [] => ⟨'\x00', [], [], []⟩
  | c :: r =>
    if ['|', '(', ')', ';', '&', '<'].contains c then ⟨c, c :: r, r, skip r⟩
    else if c = '>' then
      match r with
      | '>' :: r' => ⟨'+', c :: r, r', skip r'⟩
      | _ => ⟨'>', c :: r, r, skip r⟩
    else ⟨'a', c :: r, (c :: r).dropWhile isWord, skip ((c :: r).dropWhile isWord)⟩

def gettoken (s : List Char) : Found := tokenAt (skip s)

/-- The cursor behind the whitespace, and whether a character of `toks` is there. -/
def peek (s toks : List Char) : List Char × Bool :=
  (skip s, match skip s with
    | [] => false
    | c :: _ => toks.contains c)

/-! ## The cursor -/

theorem skip_suffix (s : List Char) : skip s <:+ s := List.dropWhile_suffix _

theorem length_skip_le (s : List Char) : (skip s).length ≤ s.length := (skip_suffix s).length_le

theorem isWhitespace_skip {s r : List Char} {c : Char} (h : skip s = c :: r) :
    isWhitespace c = false := by
  have hhead := List.head?_dropWhile_not isWhitespace s
  rw [← skip, h] at hhead
  simpa using hhead

theorem skip_eq_self {s : List Char} (h : ∀ c ∈ s.head?, isWhitespace c = false) : skip s = s := by
  cases s with
  | nil => rfl
  | cons c r =>
    have hc : isWhitespace c = false := h c rfl
    simp [skip, hc]

@[simp] theorem skip_skip (s : List Char) : skip (skip s) = skip s := by
  apply skip_eq_self
  intro c hc
  cases h : skip s with
  | nil => simp [h] at hc
  | cons d r =>
    rw [h] at hc
    cases hc
    exact isWhitespace_skip h

@[simp] theorem peek_peek (s toks toks' : List Char) :
    peek (peek s toks).1 toks' = peek s toks' := by
  change peek (skip s) toks' = peek s toks'
  unfold peek
  rw [skip_skip]

theorem tokenAt_suffix (s : List Char) :
    (tokenAt s).q = s ∧ (tokenAt s).eq <:+ s ∧ (tokenAt s).rest = skip (tokenAt s).eq := by
  unfold tokenAt
  split
  case h_1 => simp [skip]
  case h_2 c r =>
    split_ifs
    · exact ⟨rfl, List.suffix_cons c r, rfl⟩
    · split
      · exact ⟨rfl, (List.suffix_cons _ _).trans (List.suffix_cons _ _), rfl⟩
      · exact ⟨rfl, List.suffix_cons c r, rfl⟩
    · exact ⟨rfl, List.dropWhile_suffix _, rfl⟩

/-- A token is not empty, unless the line is at its end. -/
theorem length_tokenAt_lt {c : Char} {r : List Char} (hc : isWhitespace c = false) :
    (tokenAt (c :: r)).eq.length < (c :: r).length := by
  simp only [tokenAt]
  split_ifs with hsymbol hgt
  · simp
  · split
    · simp only [List.length_cons]
      omega
    · simp
  · have hword : isWord c = true := by
      unfold isWord symbols
      unfold isWhitespace at hc
      simp only [List.contains_cons, List.contains_nil] at hsymbol ⊢
      simp_all
    rw [List.dropWhile_cons_of_pos hword]
    exact Nat.lt_succ_of_le (List.dropWhile_suffix _).length_le

theorem length_gettoken_le (s : List Char) : (gettoken s).rest.length ≤ s.length := by
  obtain ⟨-, heq, hrest⟩ := tokenAt_suffix (skip s)
  calc (gettoken s).rest.length
      = (skip (tokenAt (skip s)).eq).length := by rw [gettoken, hrest]
    _ ≤ (tokenAt (skip s)).eq.length := length_skip_le _
    _ ≤ (skip s).length := heq.length_le
    _ ≤ s.length := length_skip_le s

theorem length_gettoken_lt {s : List Char} (h : (gettoken s).ret ≠ '\x00') :
    (gettoken s).rest.length < s.length := by
  cases hs : skip s with
  | nil => simp [gettoken, hs, tokenAt] at h
  | cons c r =>
    have hlt := length_tokenAt_lt (r := r) (isWhitespace_skip hs)
    obtain ⟨-, -, hrest⟩ := tokenAt_suffix (skip s)
    calc (gettoken s).rest.length
        = (skip (tokenAt (skip s)).eq).length := by rw [gettoken, hrest]
      _ ≤ (tokenAt (skip s)).eq.length := length_skip_le _
      _ < (skip s).length := by rw [hs]; exact hlt
      _ ≤ s.length := length_skip_le s

theorem length_peek_le (s toks : List Char) : (peek s toks).1.length ≤ s.length :=
  length_skip_le s

/-- `gettoken` after a successful `peek` moves on. -/
theorem length_gettoken_peek_lt {s toks : List Char} (h : (peek s toks).2 = true) :
    (gettoken (peek s toks).1).rest.length < s.length := by
  cases hs : skip s with
  | nil => simp [peek, hs] at h
  | cons c r =>
    have hlt := length_tokenAt_lt (r := r) (isWhitespace_skip hs)
    obtain ⟨-, -, hrest⟩ := tokenAt_suffix (skip s)
    calc (gettoken (peek s toks).1).rest.length
        = (skip (tokenAt (skip s)).eq).length := by rw [gettoken, peek, skip_skip, hrest]
      _ ≤ (tokenAt (skip s)).eq.length := length_skip_le _
      _ < (skip s).length := by rw [hs]; exact hlt
      _ ≤ s.length := length_skip_le s

end XV6AndConcurrency.Shell
