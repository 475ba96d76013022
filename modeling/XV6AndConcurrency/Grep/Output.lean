import XV6AndConcurrency.Foundations.CStrings
import XV6AndConcurrency.Foundations.Lines
import XV6AndConcurrency.Grep.Matcher
import Mathlib.Data.List.GetD

/-!
# The output of grep

`grep` with its buffer: pieces of the input are appended to an open line, and every line is cut
off in place by a NUL while it is matched.
-/

namespace XV6AndConcurrency.Grep

open Foundations

/-- The character `\n`. -/
def newline : Byte := 10

/-- `sizeof(buf)`. -/
def bufSize : ℕ := 1024

/-- `strchr` of a string of less than `n` characters. -/
def strchr (buf : ℕ → Byte) (c : Byte) : ℕ → ℕ → Option ℕ
  | 0, _ => none
  | n + 1, s =>
    if buf s = 0 then none
    else if buf s = c then some s
    else strchr buf c n (s + 1)

/-- What the loop over the lines leaves: the buffer, `p` and what has been written. -/
structure Scan where
  buf : ℕ → Byte
  p : ℕ
  out : List Byte

/-- The loop over the lines in the buffer. Every round moves `p` on, so `bufSize` rounds are
enough. -/
def lineLoop (pattern : List Byte) : ℕ → Scan → Scan
  | 0, s => s
  | n + 1, s =>
    match strchr s.buf newline bufSize s.p with
    | none => s
    | some q =>
      let buf := Function.update s.buf q 0
      if matchRe pattern (cstr (fun i => buf (s.p + i)) bufSize) then
        let buf := Function.update buf q newline
        let written := (List.range (q + 1 - s.p)).map fun i => buf (s.p + i)
        lineLoop pattern n ⟨buf, q + 1, s.out ++ written⟩
      else lineLoop pattern n ⟨buf, q + 1, s.out⟩

/-- `read`, with `n` bytes asked for: any number of them, but none only at the end of the
file. -/
def read (rest : List Byte) (n size : ℕ) : List Byte := rest.take (min n (size + 1))

/-- The bytes of `data` stored from `off` on. -/
def store (buf : ℕ → Byte) (off : ℕ) (data : List Byte) : ℕ → Byte :=
  fun i => if off ≤ i ∧ i < off + data.length then data.getD (i - off) 0 else buf i

/-- `memmove(buf, p, m)` within the buffer. -/
def shift (buf : ℕ → Byte) (p m : ℕ) : ℕ → Byte := fun i => if i < m then buf (p + i) else buf i

theorem length_rest_lt {rest : List Byte} {n size : ℕ} (h : read rest n size ≠ []) :
    (rest.drop (read rest n size).length).length < rest.length := by
  have hpos := List.length_pos_iff.mpr h
  have hle : (read rest n size).length ≤ rest.length := List.length_take_le' ..
  rw [List.length_drop]
  omega

/-- The loop of `grep`, with `m` bytes in the buffer and `rest` left of the file. -/
def grepLoop (pattern : List Byte) (sizes : ℕ → ℕ) (k : ℕ) (buf : ℕ → Byte) (m : ℕ)
    (rest out : List Byte) : List Byte :=
  let data := read rest (bufSize - m - 1) (sizes k)
  if _h : data = [] then out
  else
    let buf := store buf m data
    let m := m + data.length
    let buf := Function.update buf m 0
    let s := lineLoop pattern bufSize ⟨buf, 0, out⟩
    let m := m - s.p
    grepLoop pattern sizes (k + 1) (shift s.buf s.p m) m (rest.drop data.length) s.out
termination_by rest.length
decreasing_by exact length_rest_lt _h

/-- `grep` of a file with the bytes `content`: what it writes. Read `k` delivers at most
`sizes k + 1` bytes. -/
def grep (pattern : List Byte) (sizes : ℕ → ℕ) (buf : ℕ → Byte) (content : List Byte) : List Byte :=
  grepLoop pattern sizes 0 buf 0 content []

/-- The lines that match, each with its newline. -/
def printed (pattern : List Byte) (lines : List (List Byte)) : List Byte :=
  (lines.filter (matchRe pattern)).flatMap (· ++ [newline])

/-! ## The lines in the buffer -/

/-- The string `d` is stored from `p` on. -/
def StringAt (buf : ℕ → Byte) (p : ℕ) (d : List Byte) : Prop :=
  ∀ i ≤ d.length, buf (p + i) = d.getD i 0

variable {buf : ℕ → Byte} {p n : ℕ} {c : Byte} {d x pattern out rest : List Byte}

theorem StringAt.head (h : StringAt buf p (c :: d)) : buf p = c := by
  simpa using h 0 (Nat.zero_le _)

theorem StringAt.tail (h : StringAt buf p (c :: d)) : StringAt buf (p + 1) d := by
  intro i hi
  have hnext := h (i + 1) (Nat.succ_le_succ hi)
  rwa [List.getD_cons_succ, ← Nat.add_assoc, Nat.add_right_comm] at hnext

theorem StringAt.drop (h : StringAt buf p (x ++ d)) : StringAt buf (p + x.length) d := by
  induction x generalizing p with
  | nil => exact h
  | cons b x ih =>
    rw [List.length_cons, Nat.add_comm x.length, ← Nat.add_assoc]
    exact ih h.tail

theorem StringAt.update (h : StringAt buf p d) {q : ℕ} (hq : q < p) (b : Byte) :
    StringAt (Function.update buf q b) p d := by
  intro i hi
  rw [Function.update_of_ne (by omega)]
  exact h i hi

theorem StringAt.getD (h : StringAt buf p (x ++ d)) {i : ℕ} (hi : i < x.length) :
    buf (p + i) = x.getD i 0 := by
  rw [h i (by rw [List.length_append]; omega), List.getD_append _ _ _ _ hi]

theorem StringAt.map_range (h : StringAt buf p (x ++ d)) :
    (List.range x.length).map (fun i => buf (p + i)) = x := by
  apply List.ext_getElem (by simp)
  intro i hi hx
  rw [List.getElem_map, List.getElem_range, h.getD hx, List.getD_eq_getElem _ _ hx]

/-- A line that is cut off by a NUL. -/
theorem StringAt.cstr_cut (h : StringAt buf p (x ++ c :: d)) (hnul : ∀ b ∈ x, b ≠ 0)
    (hlen : x.length ≤ n) :
    cstr (fun i => Function.update buf (p + x.length) 0 (p + i)) n = x := by
  rw [cstr_eq_take hnul, List.take_of_length_le hlen]
  intro i _ hi
  rcases hi.lt_or_eq with hlt | rfl
  · rw [Function.update_of_ne (by omega), h.getD hlt]
  · rw [Function.update_self, List.getD_eq_default _ _ le_rfl]

theorem strchr_eq_none (hs : StringAt buf p d) (hnul : ∀ b ∈ d, b ≠ 0) (hc : c ∉ d) (n : ℕ) :
    strchr buf c n p = none := by
  induction d generalizing p n with
  | nil =>
    have hend : buf p = 0 := by simpa using hs 0 le_rfl
    cases n with
    | zero => rfl
    | succ n => rw [strchr, if_pos hend]
  | cons b d ih =>
    cases n with
    | zero => rfl
    | succ n =>
      rw [strchr, hs.head, if_neg (hnul b List.mem_cons_self), if_neg ?_]
      · exact ih hs.tail (fun b hb => hnul b (List.mem_cons_of_mem _ hb))
          (fun hmem => hc (List.mem_cons_of_mem _ hmem)) n
      · rintro rfl
        exact hc List.mem_cons_self

theorem strchr_eq_some (hs : StringAt buf p (x ++ c :: d)) (hnul : ∀ b ∈ x ++ c :: d, b ≠ 0)
    (hc : c ∉ x) (hn : x.length < n) : strchr buf c n p = some (p + x.length) := by
  induction x generalizing p n with
  | nil =>
    obtain ⟨n, rfl⟩ := Nat.exists_eq_add_of_lt hn
    rw [strchr, hs.head, if_neg (hnul c (by simp)), if_pos rfl]
    rfl
  | cons b x ih =>
    obtain ⟨n, rfl⟩ : ∃ k, n = k + 1 := ⟨n - 1, by omega⟩
    rw [List.length_cons] at hn
    rw [List.cons_append] at hs
    rw [strchr, hs.head, if_neg (hnul b (by simp)), if_neg ?_,
      ih hs.tail (fun b hb => hnul b (by simp_all)) (fun h => hc (List.mem_cons_of_mem _ h))
        (by omega), List.length_cons]
    · congr 1
      omega
    · rintro rfl
      exact hc List.mem_cons_self

theorem printed_cons (x : List Byte) (lines : List (List Byte)) :
    printed pattern (x :: lines) =
      (if matchRe pattern x then x ++ [newline] else []) ++ printed pattern lines := by
  unfold printed
  rw [List.filter_cons]
  split_ifs <;> simp

theorem printed_append (lines lines' : List (List Byte)) :
    printed pattern (lines ++ lines') = printed pattern lines ++ printed pattern lines' := by
  simp [printed]

/-- What the loop over the lines does to a buffer with the string `d`. -/
theorem lineLoop_spec {s : Scan} (hs : StringAt s.buf s.p d) (hnul : ∀ b ∈ d, b ≠ 0)
    (hlen : d.length < bufSize) (hn : d.length < n) :
    (lineLoop pattern n s).out = s.out ++ printed pattern (closedLines newline d) ∧
      (lineLoop pattern n s).p + (openLine newline d).length = s.p + d.length ∧
      StringAt (lineLoop pattern n s).buf (lineLoop pattern n s).p (openLine newline d) := by
  induction n generalizing s d with
  | zero => exact absurd hn (Nat.not_lt_zero _)
  | succ n ih =>
    by_cases hmem : newline ∈ d
    · obtain ⟨x, d, rfl, hx⟩ := List.eq_append_cons_of_mem hmem
      rw [List.length_append, List.length_cons] at hlen hn
      have hq := strchr_eq_some hs hnul hx (n := bufSize) (by omega)
      have hline : ∀ b ∈ x, b ≠ 0 := fun b hb => hnul b (List.mem_append_left _ hb)
      have hcut := hs.cstr_cut hline (show x.length ≤ bufSize by omega)
      have hnewline : s.buf (s.p + x.length) = newline := hs.drop.head
      have hrest : StringAt s.buf (s.p + x.length + 1) d := hs.drop.tail
      have hd : ∀ b ∈ d, b ≠ 0 := fun b hb => hnul b (by simp [hb])
      rw [lineLoop, hq, closedLines_append_cons hx, openLine_append_cons hx, List.length_append,
        List.length_cons]
      dsimp only
      rw [hcut]
      split_ifs with hmatch
      · -- the newline is restored, and the line is written
        rw [Function.update_idem, ← hnewline, Function.update_eq_self, hnewline]
        obtain ⟨hout, hp, hopen⟩ := @ih d ⟨s.buf, s.p + x.length + 1, s.out ++
          (List.range (s.p + x.length + 1 - s.p)).map fun i => s.buf (s.p + i)⟩ hrest hd
          (by omega) (by omega)
        dsimp only at hp
        refine ⟨?_, by omega, hopen⟩
        have hwritten : (List.range (s.p + x.length + 1 - s.p)).map (fun i => s.buf (s.p + i)) =
            x ++ [newline] := by
          have hall := hs
          rw [List.append_cons] at hall
          have hcount : s.p + x.length + 1 - s.p = (x ++ [newline]).length := by
            rw [List.length_append, List.length_singleton]
            omega
          rw [hcount]
          exact hall.map_range
        rw [hout, hwritten, printed_cons, if_pos hmatch, List.append_assoc]
      · obtain ⟨hout, hp, hopen⟩ := @ih d
          ⟨Function.update s.buf (s.p + x.length) 0, s.p + x.length + 1, s.out⟩
          (hrest.update (Nat.lt_succ_self _) 0) hd (by omega) (by omega)
        dsimp only at hp
        refine ⟨?_, by omega, hopen⟩
        rw [hout, printed_cons, if_neg hmatch, List.nil_append]
    · rw [lineLoop, strchr_eq_none hs hnul hmem, closedLines_of_notMem hmem,
        openLine_of_notMem hmem]
      exact ⟨(List.append_nil _).symm, rfl, hs⟩

/-! ## The whole file -/

/-- A line fits into the buffer, with its newline and a NUL. -/
def FitsBuffer (line : List Byte) : Prop := line.length + 1 < bufSize

instance (line : List Byte) : Decidable (FitsBuffer line) := inferInstanceAs (Decidable (_ < _))

/-- The lines that `grep` gets to see. -/
def seen (content : List Byte) : List (List Byte) :=
  (closedLines newline content).takeWhile (FitsBuffer ·)

theorem store_stringAt (hbuf : ∀ i < d.length, buf i = d.getD i 0) :
    StringAt (Function.update (store buf d.length x) (d.length + x.length) 0) 0 (d ++ x) := by
  intro i hi
  rw [Nat.zero_add]
  rw [List.length_append] at hi
  rcases hi.lt_or_eq with hlt | rfl
  · rw [Function.update_of_ne (by omega)]
    unfold store
    split_ifs with hin
    · rw [List.getD_append_right _ _ _ _ hin.1]
    · rw [hbuf i (by omega), List.getD_append _ _ _ _ (by omega)]
  · rw [Function.update_self, List.getD_eq_default _ _ (by rw [List.length_append])]

/-- Nothing is seen of a line that fills the buffer, or that no newline ends. -/
theorem seen_eq_nil (hopen : newline ∉ d) (h : rest = [] ∨ bufSize ≤ d.length + 1) :
    seen (d ++ rest) = [] := by
  unfold seen
  cases hlines : closedLines newline (d ++ rest) with
  | nil => rfl
  | cons x lines =>
    rcases h with rfl | hfull
    · rw [List.append_nil, closedLines_of_notMem hopen] at hlines
      exact absurd hlines.symm (List.cons_ne_nil _ _)
    · have hle : d.length ≤ x.length :=
        le_length_of_head?_closedLines hopen (by rw [hlines]; rfl)
      refine List.takeWhile_cons_of_neg ?_
      have hlong : ¬ FitsBuffer x := by
        unfold FitsBuffer
        omega
      simpa using hlong

/-- The lines closed in the buffer are seen, and the open line goes on. -/
theorem seen_append (h : d.length < bufSize) (r : List Byte) :
    seen (d ++ r) = closedLines newline d ++ seen (openLine newline d ++ r) := by
  unfold seen
  rw [closedLines_append, List.takeWhile_append_of_pos]
  intro x hx
  have hlt := length_lt_of_mem_closedLines hx
  have hfits : FitsBuffer x := by
    unfold FitsBuffer
    omega
  simpa using hfits

theorem read_eq_nil {size : ℕ} (h : read rest n size = []) : rest = [] ∨ n = 0 := by
  rw [read, List.take_eq_nil_iff] at h
  rcases h with h | h
  · right
    omega
  · exact .inl h

theorem length_read_le (rest : List Byte) (n size : ℕ) : (read rest n size).length ≤ n := by
  rw [read, List.length_take]
  omega

theorem read_append_drop (rest : List Byte) (n size : ℕ) :
    read rest n size ++ rest.drop (read rest n size).length = rest := by
  unfold read
  rw [List.length_take]
  rcases le_total (min n (size + 1)) rest.length with h | h
  · rw [Nat.min_eq_left h, List.take_append_drop]
  · rw [Nat.min_eq_right h, List.take_of_length_le h, List.drop_length, List.append_nil]

/-- What is written does not depend on how the input is split: the open line `d` goes on. -/
theorem grepLoop_eq (pattern : List Byte) (sizes : ℕ → ℕ) (k : ℕ) (hopen : newline ∉ d)
    (hlen : d.length < bufSize) (hbuf : ∀ i < d.length, buf i = d.getD i 0)
    (hnul : ∀ b ∈ d ++ rest, b ≠ 0) :
    grepLoop pattern sizes k buf d.length rest out = out ++ printed pattern (seen (d ++ rest)) := by
  induction hn : rest.length using Nat.strong_induction_on generalizing k buf d rest out with
  | h n ih =>
    subst hn
    rw [grepLoop]
    dsimp only
    split_ifs with hnil
    · rw [seen_eq_nil hopen]
      · exact (List.append_nil _).symm
      · rcases read_eq_nil hnil with h | h
        · exact .inl h
        · right
          omega
    have hshort := length_rest_lt hnil
    have hfit := length_read_le rest (bufSize - d.length - 1) (sizes k)
    have hsplit := read_append_drop rest (bufSize - d.length - 1) (sizes k)
    generalize read rest (bufSize - d.length - 1) (sizes k) = data at *
    generalize rest.drop data.length = rest' at *
    subst hsplit
    have hlong : (d ++ data).length < bufSize := by
      rw [List.length_append]
      omega
    rw [← List.append_assoc] at hnul
    have hall : ∀ b ∈ d ++ data, b ≠ 0 := fun b hb => hnul b (List.mem_append_left _ hb)
    obtain ⟨hout, hp, hstring⟩ := @lineLoop_spec bufSize _ pattern
      ⟨Function.update (store buf d.length data) (d.length + data.length) 0, 0, out⟩
      (store_stringAt hbuf) hall hlong hlong
    generalize lineLoop pattern bufSize _ = s at *
    dsimp only at hout hp
    set t := openLine newline (d ++ data) with ht
    have hseen : seen (d ++ (data ++ rest')) =
        closedLines newline (d ++ data) ++ seen (t ++ rest') := by
      rw [← List.append_assoc, seen_append hlong]
    rw [List.length_append] at hp hlong
    have hm : d.length + data.length - s.p = t.length := by omega
    have ht_lt : t.length < bufSize := by omega
    have hshift : ∀ i < t.length, shift s.buf s.p t.length i = t.getD i 0 := by
      intro i hi
      unfold shift
      rw [if_pos hi, hstring i hi.le]
    have hrest : ∀ b ∈ t ++ rest', b ≠ 0 := by
      intro b hb
      rcases List.mem_append.mp hb with hb | hb
      · exact hall b (mem_of_mem_openLine hb)
      · exact hnul b (List.mem_append_right _ hb)
    rw [hm, ih _ hshort (k + 1) (notMem_openLine _ _) ht_lt hshift hrest rfl, hout, hseen,
      printed_append, List.append_assoc]

/-- `grep` prints the matching lines that it gets to see, however the input is split. -/
theorem grep_eq (pattern : List Byte) (sizes : ℕ → ℕ) (buf : ℕ → Byte) {content : List Byte}
    (hnul : ∀ b ∈ content, b ≠ 0) :
    grep pattern sizes buf content = printed pattern (seen content) := by
  have h := @grepLoop_eq buf [] [] content pattern sizes 0 List.not_mem_nil (by decide)
    (fun i hi => absurd hi (Nat.not_lt_zero _)) hnul
  exact h

theorem printed_eq_nil {lines : List (List Byte)} :
    printed pattern lines = [] ↔ ∀ line ∈ lines, matchRe pattern line = false := by
  unfold printed
  rw [List.flatMap_eq_nil_iff]
  constructor
  · intro h line hline
    by_contra hmatch
    have hnil := h line (List.mem_filter.mpr ⟨hline, by simpa using hmatch⟩)
    exact absurd hnil (by simp)
  · intro h line hline
    obtain ⟨hmem, hmatch⟩ := List.mem_filter.mp hline
    rw [h line hmem] at hmatch
    exact absurd hmatch Bool.false_ne_true

/-- Exactly the matching lines are printed if and only if none of them is too long for the
buffer, or comes after one that is. -/
theorem grep_prints_matching_lines_iff (pattern : List Byte) (sizes : ℕ → ℕ) (buf : ℕ → Byte)
    (content : List Byte) (hnul : ∀ b ∈ content, b ≠ 0) :
    grep pattern sizes buf content = printed pattern (closedLines newline content) ↔
      ∀ line ∈ (closedLines newline content).dropWhile (FitsBuffer ·),
        matchRe pattern line = false := by
  rw [grep_eq _ _ _ hnul, ← printed_eq_nil]
  conv_lhs =>
    rw [← List.takeWhile_append_dropWhile (p := (FitsBuffer ·)) (l := closedLines newline content)]
  rw [printed_append]
  exact eq_comm.trans List.append_right_eq_self

/-- A line of 1023 characters fills the buffer without its newline. -/
theorem grep_drops_long_line :
    ¬ grep [97] (fun _ => 0) (fun _ => 0) (List.replicate 1023 97 ++ [newline]) =
      printed [97] (closedLines newline (List.replicate 1023 97 ++ [newline])) := by
  have hfree : newline ∉ List.replicate 1023 (97 : Byte) := by
    rw [List.mem_replicate]
    exact fun h => absurd h.2 (by decide)
  have hlines : closedLines newline (List.replicate 1023 97 ++ [newline]) =
      [List.replicate 1023 97] := closedLines_append_cons hfree []
  have hnul : ∀ b ∈ List.replicate 1023 (97 : Byte) ++ [newline], b ≠ 0 := by
    intro b hb
    rcases List.mem_append.mp hb with hb | hb
    · rw [List.eq_of_mem_replicate hb]
      decide
    · rw [List.mem_singleton.mp hb]
      decide
  have hseen : seen (List.replicate 1023 97 ++ [newline]) = [] :=
    seen_eq_nil hfree (.inr (by rw [List.length_replicate]; decide))
  have hmatch : matchRe [97] (List.replicate 1023 97) = true := by
    rw [List.replicate_succ]
    generalize List.replicate 1022 (97 : Byte) = l
    simp [matchRe, matchLoop, matchhere, caret, dollar]
  rw [grep_eq _ _ _ hnul, hseen, hlines, printed_cons, if_pos hmatch]
  generalize List.replicate 1023 (97 : Byte) = l
  simp [printed]

/-- Two short lines, read byte by byte. -/
theorem grep_prints_matching_lines_iff_short :
    grep [97] (fun _ => 0) (fun _ => 0) [97, newline, 98, newline] =
      printed [97] (closedLines newline [97, newline, 98, newline]) := by
  refine (grep_prints_matching_lines_iff [97] (fun _ => 0) (fun _ => 0)
    [97, newline, 98, newline] (by decide)).mpr ?_
  have hdrop : (closedLines newline [97, newline, 98, newline]).dropWhile (FitsBuffer ·) = [] := by
    decide
  rw [hdrop]
  exact fun line hline => absurd hline List.not_mem_nil

end XV6AndConcurrency.Grep
