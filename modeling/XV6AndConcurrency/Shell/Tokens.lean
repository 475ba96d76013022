import Mathlib.Data.List.TakeWhile
import XV6AndConcurrency.Shell.Grammar

/-!
# `gettoken` and `peek` on the tokens

The cursor stands before a list of tokens; `gettoken` takes the first, `peek` looks at it.
-/

namespace XV6AndConcurrency.Shell

variable {s : List Char} {t : Token} {ts : List Token}

theorem Lexes.skip (h : Lexes s ts) : Lexes (skip s) ts := by
  induction h with
  | nil => exact .nil
  | @space c s ts hc h ih =>
    rw [Shell.skip, List.dropWhile_cons_of_pos hc]
    exact ih
  | @symbol c t s ts hc h =>
    have hw : isWhitespace c = false := by
      unfold Token.ofSymbol at hc
      split_ifs at hc <;> subst c <;> rfl
    rw [skip_eq_self (by simpa using hw)]
    exact .symbol hc h
  | gt hs h =>
    rw [skip_eq_self (by simp [isWhitespace, whitespace])]
    exact .gt hs h
  | append h =>
    rw [skip_eq_self (by simp [isWhitespace, whitespace])]
    exact .append h
  | @word w s ts hw hall hend h =>
    cases w with
    | nil => exact absurd rfl hw
    | cons c w =>
      have hc := hall c (List.mem_cons_self ..)
      have hspace : isWhitespace c = false := by
        unfold isWord at hc
        unfold isWhitespace
        simp_all
      rw [skip_eq_self (by simpa using hspace)]
      exact .word hw hall hend h

/-- The word `w` lies between two pointers, and ends where words end. -/
structure Slice.Spells (x : Slice) (w : List Char) : Prop where
  text : x.q = w ++ x.eq
  all : ∀ c ∈ w, isWord c = true
  ends : ∀ c ∈ x.eq.head?, isWord c = false

/-- What `gettoken` finds at a token. -/
structure Next (s : List Char) (t : Token) (ts : List Token) : Prop where
  ret : (gettoken s).ret = t.ret
  rest : Lexes (gettoken s).rest ts
  word : ∀ w, t = .word w → Slice.Spells ⟨(gettoken s).q, (gettoken s).eq⟩ w

theorem ofSymbol_ret {c : Char} (h : Token.ofSymbol c = some t) :
    ['|', '(', ')', ';', '&', '<'].contains c = true ∧ t.ret = c ∧ ∀ w, t ≠ .word w := by
  unfold Token.ofSymbol at h
  split_ifs at h <;> subst c <;> cases h <;> exact ⟨rfl, rfl, nofun⟩

theorem isWord_cons {c : Char} (h : isWord c = true) :
    ['|', '(', ')', ';', '&', '<'].contains c = false ∧ c ≠ '>' := by
  unfold isWord symbols at h
  simp only [List.contains_cons, List.contains_nil] at h ⊢
  simp_all

theorem tokenAt_symbol {c : Char} (h : ['|', '(', ')', ';', '&', '<'].contains c = true)
    (r : List Char) : tokenAt (c :: r) = ⟨c, c :: r, r, Shell.skip r⟩ := by
  unfold tokenAt
  exact if_pos h

theorem tokenAt_gt {r : List Char} (h : r.head? ≠ some '>') :
    tokenAt ('>' :: r) = ⟨'>', '>' :: r, r, Shell.skip r⟩ := by
  unfold tokenAt
  dsimp only
  rw [if_neg (by decide), if_pos rfl]
  split
  · exact absurd rfl h
  · rfl

theorem tokenAt_append (r : List Char) :
    tokenAt ('>' :: '>' :: r) = ⟨'+', '>' :: '>' :: r, r, Shell.skip r⟩ := rfl

theorem tokenAt_word {c : Char} (h : isWord c = true) (r : List Char) :
    tokenAt (c :: r) =
      ⟨'a', c :: r, (c :: r).dropWhile isWord, Shell.skip ((c :: r).dropWhile isWord)⟩ := by
  obtain ⟨hmem, hgt⟩ := isWord_cons h
  exact (if_neg (by rw [hmem]; exact Bool.false_ne_true)).trans (if_neg hgt)

theorem Lexes.next {l : List Char} (h : Lexes l (t :: ts)) : Next l t ts := by
  have hskip := h.skip
  generalize hr : Shell.skip l = r at hskip
  cases hskip with
  | @space c s ts hc _ =>
    rw [isWhitespace_skip hr] at hc
    cases hc
  | @symbol c t s ts hc h =>
    obtain ⟨hmem, hret, hnot⟩ := ofSymbol_ret hc
    have hfound : gettoken l = ⟨c, c :: s, s, Shell.skip s⟩ := by
      rw [gettoken, hr, tokenAt_symbol hmem]
    constructor
    · rw [hfound, hret]
    · rw [hfound]
      exact h.skip
    · exact fun w hw => absurd hw (hnot w)
  | @gt s ts hs h =>
    have hfound : gettoken l = ⟨'>', '>' :: s, s, Shell.skip s⟩ := by
      rw [gettoken, hr, tokenAt_gt hs]
    constructor
    · rw [hfound]
      rfl
    · rw [hfound]
      exact h.skip
    · intro w hw
      cases hw
  | @append s ts h =>
    have hfound : gettoken l = ⟨'+', '>' :: '>' :: s, s, Shell.skip s⟩ := by
      rw [gettoken, hr, tokenAt_append]
    constructor
    · rw [hfound]
      rfl
    · rw [hfound]
      exact h.skip
    · intro w hw
      cases hw
  | @word w s ts hw hall hend hrest =>
    obtain ⟨c, w, rfl⟩ := List.exists_cons_of_ne_nil hw
    have hdrop : (c :: (w ++ s)).dropWhile isWord = s := by
      rw [← List.cons_append, List.dropWhile_append_of_pos hall]
      cases s with
      | nil => rfl
      | cons d s => exact List.dropWhile_cons_of_neg (by simp [hend d rfl])
    have hfound : gettoken l = ⟨'a', c :: (w ++ s), s, Shell.skip s⟩ := by
      rw [gettoken, hr, List.cons_append, tokenAt_word (hall c (List.mem_cons_self ..)), hdrop]
    constructor
    · rw [hfound]
      rfl
    · rw [hfound]
      exact hrest.skip
    · intro w' hw'
      cases hw'
      rw [hfound]
      exact ⟨rfl, hall, hend⟩

/-- The end of the line. -/
theorem Lexes.skip_eq_nil (h : Lexes s []) : Shell.skip s = [] := by
  have hskip := h.skip
  generalize hr : Shell.skip s = r at hskip
  cases hskip with
  | nil => rfl
  | @space c r _ hc _ =>
    rw [isWhitespace_skip hr] at hc
    cases hc

theorem Lexes.ret_nil (h : Lexes s []) : (gettoken s).ret = '\x00' ∧ (gettoken s).rest = [] := by
  simp [gettoken, h.skip_eq_nil, tokenAt]

/-- The symbol that a token begins with. -/
def Token.first : Token → Option Char
  | .bar => some '|'
  | .lparen => some '('
  | .rparen => some ')'
  | .semi => some ';'
  | .amp => some '&'
  | .lt => some '<'
  | .gt | .append => some '>'
  | .word _ => none

/-- `peek` for symbols looks at the first token. -/
theorem Lexes.peek {toks : List Char} (h : Lexes s ts)
    (hsymbols : ∀ c ∈ toks, symbols.contains c = true) :
    (Shell.peek s toks).2 = (ts.head?.bind Token.first).any toks.contains := by
  have hskip := h.skip
  unfold Shell.peek
  generalize hr : Shell.skip s = r at hskip
  cases hskip with
  | nil => rfl
  | @space c s ts hc _ =>
    rw [isWhitespace_skip hr] at hc
    cases hc
  | @symbol c t s ts hc h =>
    unfold Token.ofSymbol at hc
    split_ifs at hc <;> subst c <;> cases hc <;> rfl
  | gt hs h => rfl
  | append h => rfl
  | @word w s ts hw hall hend h =>
    obtain ⟨c, w, rfl⟩ := List.exists_cons_of_ne_nil hw
    have hc := hall c (List.mem_cons_self ..)
    have hnot : toks.contains c = false := by
      by_contra hmem
      have hsym := hsymbols c (by simpa using hmem)
      unfold isWord at hc
      rw [hsym] at hc
      simp at hc
    simpa [Token.first] using hnot

/-- Every text has its tokens. -/
theorem exists_lexes (s : List Char) : ∃ ts, Lexes s ts := by
  induction hn : s.length using Nat.strong_induction_on generalizing s with
  | _ n ih =>
    subst hn
    cases s with
    | nil => exact ⟨[], .nil⟩
    | cons c s =>
      obtain ⟨ts, hts⟩ := ih s.length (Nat.lt_succ_self _) s rfl
      by_cases hspace : isWhitespace c = true
      · exact ⟨ts, .space hspace hts⟩
      by_cases hword : isWord c = true
      · have hdrop : ((c :: s).dropWhile isWord).length < (c :: s).length := by
          rw [List.dropWhile_cons_of_pos hword]
          exact Nat.lt_succ_of_le (List.dropWhile_suffix _).length_le
        obtain ⟨us, hus⟩ := ih _ hdrop _ rfl
        have hend : ∀ d ∈ ((c :: s).dropWhile isWord).head?, isWord d = false := by
          intro d hd
          have hnot := List.head?_dropWhile_not isWord (c :: s)
          rwa [Option.mem_def.mp hd] at hnot
        have htoken := Lexes.word (w := (c :: s).takeWhile isWord)
          (by rw [List.takeWhile_cons_of_pos hword]; exact List.cons_ne_nil _ _)
          (fun d hd => List.mem_takeWhile_imp hd) hend hus
        rw [List.takeWhile_append_dropWhile] at htoken
        exact ⟨_, htoken⟩
      cases hsymbol : Token.ofSymbol c with
      | some t => exact ⟨t :: ts, .symbol hsymbol hts⟩
      | none =>
        have hgt : c = '>' := by
          unfold Token.ofSymbol at hsymbol
          unfold isWord symbols at hword
          unfold isWhitespace at hspace
          split_ifs at hsymbol
          simp_all
        subst hgt
        cases s with
        | nil => exact ⟨.gt :: ts, .gt (by simp) hts⟩
        | cons d s =>
          by_cases hd : d = '>'
          · subst hd
            obtain ⟨us, hus⟩ := ih s.length (by simp only [List.length_cons]; omega) s rfl
            exact ⟨.append :: us, .append hus⟩
          · exact ⟨.gt :: ts, .gt (by simpa using hd) hts⟩

/-! ## A place in the line -/

/-- The word `w` of the line. -/
structure Slice.Of (line : List Char) (x : Slice) (w : List Char) : Prop where
  spells : x.Spells w
  suffix : x.q <:+ line

/-- The cursor is in the line, before these tokens. -/
structure Cursor (line s : List Char) (ts : List Token) : Prop where
  suffix : s <:+ line
  lexes : Lexes s ts

variable {line : List Char}

theorem Cursor.peek (h : Cursor line s ts) (toks : List Char) :
    Cursor line (Shell.peek s toks).1 ts :=
  ⟨(skip_suffix s).trans h.suffix, h.lexes.skip⟩

theorem gettoken_suffix (s : List Char) : (gettoken s).q <:+ s ∧ (gettoken s).rest <:+ s := by
  obtain ⟨hq, heq, hrest⟩ := tokenAt_suffix (Shell.skip s)
  constructor
  · rw [gettoken, hq]
    exact skip_suffix s
  · rw [gettoken, hrest]
    exact (skip_suffix _).trans (heq.trans (skip_suffix s))

theorem Cursor.next (h : Cursor line s (t :: ts)) : Cursor line (gettoken s).rest ts :=
  ⟨(gettoken_suffix s).2.trans h.suffix, h.lexes.next.rest⟩

theorem Cursor.ret (h : Cursor line s (t :: ts)) : (gettoken s).ret = t.ret := h.lexes.next.ret

theorem Cursor.word {w : List Char} (h : Cursor line s (.word w :: ts)) :
    Slice.Of line ⟨(gettoken s).q, (gettoken s).eq⟩ w :=
  ⟨h.lexes.next.word w rfl, (gettoken_suffix s).1.trans h.suffix⟩

theorem Cursor.end (h : Cursor line s []) :
    (gettoken s).ret = '\x00' ∧ Cursor line (gettoken s).rest [] := by
  obtain ⟨hret, hrest⟩ := h.lexes.ret_nil
  exact ⟨hret, (gettoken_suffix s).2.trans h.suffix, hrest ▸ .nil⟩

/-- After the whitespace, in the line. -/
theorem Cursor.peek_eq (h : Cursor line s ts) {toks : List Char}
    (hsymbols : ∀ c ∈ toks, symbols.contains c = true) :
    (Shell.peek s toks).2 = (ts.head?.bind Token.first).any toks.contains :=
  h.lexes.peek hsymbols

theorem ofSymbol_first {c : Char} (h : Token.ofSymbol c = some t) :
    t.first = some c ∧ symbols.contains c = true ∧ ∀ t', Token.first t' = some c → t' = t := by
  unfold Token.ofSymbol at h
  split_ifs at h <;> subst c <;> cases h <;> refine ⟨rfl, rfl, fun t' h' => ?_⟩ <;>
    cases t' <;> simp_all [Token.first]

/-- `peek` for one symbol. -/
theorem Cursor.peek_symbol {c : Char} (h : Cursor line s ts) (hc : Token.ofSymbol c = some t) :
    (Shell.peek s [c]).2 = true ↔ ∃ us, ts = t :: us := by
  obtain ⟨hfirst, hsymbol, hunique⟩ := ofSymbol_first hc
  rw [h.peek_eq (by simpa using hsymbol)]
  constructor
  · intro hany
    cases ts with
    | nil => cases hany
    | cons t' us =>
      have ht' : t'.first = some c := by
        cases hf : t'.first with
        | none => simp [hf] at hany
        | some d => simpa [hf] using hany
      exact ⟨us, by rw [hunique t' ht']⟩
  · rintro ⟨us, rfl⟩
    simp [hfirst]

/-- `peek` for the beginning of a redirection. -/
theorem Cursor.peek_redir (h : Cursor line s ts) :
    (Shell.peek s ['<', '>']).2 = true ↔
      ∃ t us, ts = t :: us ∧ (t = .lt ∨ t = .gt ∨ t = .append) := by
  rw [h.peek_eq (by simp [symbols])]
  constructor
  · intro hany
    cases ts with
    | nil => cases hany
    | cons t us =>
      refine ⟨t, us, rfl, ?_⟩
      cases t <;> simp_all [Token.first]
  · rintro ⟨t, us, rfl, rfl | rfl | rfl⟩ <;> rfl

/-- `gettoken` found a word. -/
theorem Cursor.exists_word (h : Cursor line s ts) (hret : (gettoken s).ret = 'a') :
    ∃ w us, ts = .word w :: us := by
  cases ts with
  | nil =>
    rw [h.end.1] at hret
    cases hret
  | cons t us =>
    rw [h.ret] at hret
    cases t with
    | word w => exact ⟨w, us, rfl⟩
    | _ => cases hret

/-- `gettoken` found no token. -/
theorem Cursor.eq_nil (h : Cursor line s ts) (hret : (gettoken s).ret = '\x00') : ts = [] := by
  cases ts with
  | nil => rfl
  | cons t us =>
    rw [h.ret] at hret
    cases t <;> cases hret

end XV6AndConcurrency.Shell
