import XV6AndConcurrency.Devices.Console
import XV6AndConcurrency.Foundations.Rings
import XV6AndConcurrency.Foundations.Transitions

/-!
# Line editing on the console

The console as an editor of lines on lists without bound: an open line that the user may still
change, and the committed text that readers take from the front. The ring of the kernel
behaves like it in every interleaving of input and readers.
-/

namespace XV6AndConcurrency.Devices

open Foundations

/-- The text that may be read, and the line that is still open. -/
structure Editor where
  committed : List Byte
  line : List Byte

namespace Editor

/-- Number of bytes that were typed and not yet read. -/
def unread (ed : Editor) : ℕ := ed.committed.length + ed.line.length

/-- The line is closed. -/
def commit (ed : Editor) : Editor := ⟨ed.committed ++ ed.line, []⟩

/-- A character joins the line; newline, control-D and a full buffer close it. -/
def append (ed : Editor) (c : Byte) : Editor :=
  let ed' : Editor := { ed with line := ed.line ++ [c] }
  if c = newline ∨ c = control 'D' ∨ ed'.unread = inputBufSize then ed'.commit else ed'

/-- A key was pressed. -/
def type (c : Byte) (ed : Editor) : Editor :=
  if c = control 'P' then ed
  else if c = control 'U' then { ed with line := [] }
  else if c = control 'H' ∨ c = delete then { ed with line := ed.line.dropLast }
  else if c ≠ 0 ∧ ed.unread < inputBufSize then
    ed.append (if c = carriageReturn then newline else c)
  else ed

/-- A turn of a reader with `n` bytes of `target` to go: it waits for text, and stops after a
newline, at a control-D, or when a byte cannot be copied. A control-D ends a read that has
some bytes without being taken. -/
def take (killed : Bool) (copies : ℕ → Bool) (target : ℕ) : ℕ → Editor → Served × Editor
  | 0, ed => (⟨.returned target, [], []⟩, ed)
  | n + 1, ⟨[], line⟩ =>
    (⟨if killed then .returned (-1) else .asleep (n + 1), [], []⟩, ⟨[], line⟩)
  | n + 1, ⟨c :: text, line⟩ =>
    let done : ℤ := target - (n + 1)
    if c = control 'D' then
      if n + 1 < target then (⟨.returned done, [], []⟩, ⟨c :: text, line⟩)
      else (⟨.returned done, [c], []⟩, ⟨text, line⟩)
    else if ¬ copies (target - (n + 1)) then (⟨.returned done, [c], []⟩, ⟨text, line⟩)
    else if c = newline then (⟨.returned (done + 1), [c], [c]⟩, ⟨text, line⟩)
    else ((take killed copies target n ⟨text, line⟩).1.cons c,
      (take killed copies target n ⟨text, line⟩).2)

end Editor

/-- The editor, read like a device. -/
def editor : Device Editor := ⟨Editor.type, Editor.take⟩

/-- The ring holds the committed text from `r` to `w` and the open line from `w` to `e`. -/
structure Holds (s : Cons) (ed : Editor) : Prop where
  r_lt : s.r < 4294967296
  w_lt : s.w < 4294967296
  e_lt : s.e < 4294967296
  committed : window 4294967296 inputBufSize s.buf s.r s.w = ed.committed
  line : window 4294967296 inputBufSize s.buf s.w s.e = ed.line
  room : ed.unread ≤ inputBufSize

/-- Between two inputs there is no newline in the open line. -/
structure Represents (s : Cons) (ed : Editor) : Prop extends Holds s ed where
  open_line : ∀ c ∈ ed.line, c ≠ newline

variable {s s' : Cons} {ed : Editor} {c : Byte} {n target : ℕ} {killed : Bool}
  {copies : ℕ → Bool}

theorem dec_lt (x : ℕ) : dec x < 4294967296 := Nat.mod_lt _ (by norm_num)

theorem inc_dec {x : ℕ} (h : x < 4294967296) : (dec x + 1) % 4294967296 = x := by
  unfold dec
  omega

theorem dec_inc {x : ℕ} (h : x < 4294967296) : dec (inc x) = x := by
  unfold dec inc
  omega

theorem minus_eq_span (x y : ℕ) : minus x y = span 4294967296 y x := rfl

namespace Holds

theorem committed_length (h : Holds s ed) :
    span 4294967296 s.r s.w = ed.committed.length := by
  rw [← h.committed, window_length]

theorem line_length (h : Holds s ed) : span 4294967296 s.w s.e = ed.line.length := by
  rw [← h.line, window_length]

theorem spans_lt (h : Holds s ed) :
    span 4294967296 s.r s.w + span 4294967296 s.w s.e < 4294967296 := by
  have hroom := h.room
  unfold Editor.unread inputBufSize at hroom
  rw [h.committed_length, h.line_length]
  omega

/-- `e - r` counts the bytes that are not read. -/
theorem unread_eq (h : Holds s ed) : span 4294967296 s.r s.e = ed.unread := by
  rw [span_add h.r_lt h.w_lt h.e_lt h.spans_lt, h.committed_length, h.line_length]
  rfl

theorem line_eq_nil_iff (h : Holds s ed) : s.e = s.w ↔ ed.line = [] := by
  rw [← List.length_eq_zero_iff, ← h.line_length, span_eq_zero h.w_lt h.e_lt, eq_comm]

theorem committed_eq_nil_iff (h : Holds s ed) : s.r = s.w ↔ ed.committed = [] := by
  rw [← List.length_eq_zero_iff, ← h.committed_length, span_eq_zero h.r_lt h.w_lt]

/-! ### Input -/

/-- The last byte of the open line. -/
theorem line_last (h : Holds s ed) (hne : s.e ≠ s.w) :
    ed.line = window 4294967296 inputBufSize s.buf s.w (dec s.e) ++
      [s.buf (dec s.e % inputBufSize)] := by
  have hpos : 0 < ed.line.length := List.length_pos_iff.mpr fun hnil =>
    hne (h.line_eq_nil_iff.mpr hnil)
  have hlt := h.spans_lt
  have hspan : span 4294967296 s.w (dec s.e) + 1 = span 4294967296 s.w s.e := by
    have hlen : span 4294967296 s.w (dec s.e) = span 4294967296 s.w s.e - 1 := by
      refine span_unique h.w_lt (by omega) ?_
      have hadd := add_span h.w_lt h.e_lt
      rw [h.line_length] at hadd ⊢
      unfold dec
      omega
    rw [hlen, h.line_length]
    omega
  have hsucc := window_succ (N := inputBufSize) h.w_lt (dec_lt s.e) (by omega) s.buf
  rw [inc_dec h.e_lt, h.line] at hsucc
  exact hsucc

/-- A byte is stored behind the open line. -/
theorem store (h : Holds s ed) (hroom : ed.unread < inputBufSize) (c : Byte) :
    Holds (s.store c) { ed with line := ed.line ++ [c] } := by
  have hlt := h.spans_lt
  have hr := h.unread_eq
  have hw := h.line_length
  unfold Editor.unread at hroom hr
  unfold inputBufSize at hroom
  have hdvd : inputBufSize ∣ 4294967296 := by decide
  refine ⟨h.r_lt, h.w_lt, Nat.mod_lt _ (by norm_num), ?_, ?_, ?_⟩
  · -- the committed text is the beginning of all that is not read
    have hall := window_append h.r_lt h.w_lt h.e_lt hlt s.buf (N := inputBufSize)
    have hkeep := window_update hdvd h.r_lt h.e_lt (by unfold inputBufSize; omega) s.buf c
    rw [hall, window_append h.r_lt h.w_lt h.e_lt hlt] at hkeep
    have hsame := (List.append_inj hkeep (by simp)).1
    exact hsame.trans h.committed
  · have hpush := window_push hdvd h.w_lt h.e_lt (by unfold inputBufSize; omega) (by omega)
      s.buf c
    rw [h.line] at hpush
    exact hpush
  · unfold Editor.unread inputBufSize
    simp only [List.length_append, List.length_singleton]
    omega

/-- `cons.w = cons.e` closes the line. -/
theorem commit (h : Holds s ed) : Represents { s with w := s.e } ed.commit := by
  have hall := window_append h.r_lt h.w_lt h.e_lt h.spans_lt s.buf (N := inputBufSize)
  rw [h.committed, h.line] at hall
  refine ⟨⟨h.r_lt, h.e_lt, h.e_lt, hall, window_self h.e_lt s.buf, ?_⟩, nofun⟩
  have hroom := h.room
  unfold Editor.unread at hroom
  simpa [Editor.unread, Editor.commit] using hroom

end Holds

namespace Represents

/-- Erasing takes the last byte of the open line. -/
theorem erase (h : Represents s ed) (hne : s.e ≠ s.w) :
    Represents { s with e := dec s.e } { ed with line := ed.line.dropLast } := by
  have hlast := h.line_last hne
  refine ⟨⟨h.r_lt, h.w_lt, dec_lt _, h.committed, ?_, ?_⟩, ?_⟩
  · rw [hlast, List.dropLast_concat]
  · have hroom := h.room
    unfold Editor.unread at hroom ⊢
    simp only [List.length_dropLast]
    omega
  · intro c hc
    exact h.open_line c (List.mem_of_mem_dropLast hc)

/-- The loop of control-U empties the open line and leaves the committed text alone. -/
theorem kill (h : Represents s ed) (hn : n = ed.line.length) :
    Represents (s.kill n) { ed with line := [] } := by
  induction n generalizing s ed with
  | zero =>
    have hnil : ed.line = [] := List.length_eq_zero_iff.mp hn.symm
    rw [← hnil]
    exact h
  | succ n ih =>
    have hne : s.e ≠ s.w := fun heq => by
      rw [h.line_eq_nil_iff.mp heq] at hn
      cases hn
    have hbyte : s.buf (dec s.e % inputBufSize) ≠ newline := by
      apply h.open_line
      rw [h.line_last hne]
      exact List.mem_append_right _ (List.mem_singleton_self _)
    unfold Cons.kill
    rw [if_pos ⟨hne, hbyte⟩]
    refine @ih _ { ed with line := ed.line.dropLast } (h.erase hne) ?_
    simp only [List.length_dropLast]
    omega

/-- Input of one character. -/
theorem consoleintr (h : Represents s ed) (c : Byte) :
    Represents (s.consoleintr c) (ed.type c) := by
  unfold Cons.consoleintr Editor.type
  by_cases hp : c = control 'P'
  · rwa [if_pos hp, if_pos hp]
  rw [if_neg hp, if_neg hp]
  by_cases hu : c = control 'U'
  · rw [if_pos hu, if_pos hu]
    exact h.kill h.line_length
  rw [if_neg hu, if_neg hu]
  by_cases he : c = control 'H' ∨ c = delete
  · rw [if_pos he, if_pos he]
    by_cases hne : s.e = s.w
    · rw [if_neg (not_not.mpr hne), h.line_eq_nil_iff.mp hne, List.dropLast_nil,
        ← h.line_eq_nil_iff.mp hne]
      exact h
    · rw [if_pos hne]
      exact h.erase hne
  rw [if_neg he, if_neg he, minus_eq_span, h.unread_eq]
  by_cases hroom : c ≠ 0 ∧ ed.unread < inputBufSize
  · rw [if_pos hroom, if_pos hroom]
    -- the key that is stored, after the translation of the carriage return
    generalize (if c = carriageReturn then newline else c) = d
    have hstore := h.store hroom.2 d
    dsimp only
    rw [minus_eq_span, hstore.unread_eq]
    unfold Editor.append
    dsimp only
    split_ifs with hclose
    · exact hstore.commit
    · refine ⟨hstore, ?_⟩
      intro x hx
      rcases List.mem_append.mp hx with hx | hx
      · exact h.open_line x hx
      · rw [List.mem_singleton.mp hx]
        exact fun heq => hclose (Or.inl heq)
  · rwa [if_neg hroom, if_neg hroom]

/-! ### Readers -/

/-- `cons.r++` takes the first byte of the committed text. -/
theorem pop {text : List Byte} (h : Represents s ed) (htext : ed.committed = c :: text) :
    s.buf (s.r % inputBufSize) = c ∧
      Represents { s with r := inc s.r } { ed with committed := text } := by
  have hne : s.r ≠ s.w := fun heq => by
    rw [h.committed_eq_nil_iff.mp heq] at htext
    cases htext
  have hpop := window_pop (N := inputBufSize) h.r_lt h.w_lt hne s.buf
  rw [h.committed, htext] at hpop
  obtain ⟨rfl, hrest⟩ := List.cons.inj hpop
  refine ⟨rfl, ⟨Nat.mod_lt _ (by norm_num), h.w_lt, h.e_lt, hrest.symm, h.line, ?_⟩,
    h.open_line⟩
  have hroom := h.room
  unfold Editor.unread at hroom ⊢
  rw [htext, List.length_cons] at hroom
  dsimp only
  omega

/-- A turn of a reader, byte by byte: it gets the same from both, and they stay related. -/
theorem consoleread (h : Represents s ed) (killed : Bool) (copies : ℕ → Bool) (target n : ℕ) :
    (Devices.consoleread killed copies target n s).1 =
        (Editor.take killed copies target n ed).1 ∧
      Represents (Devices.consoleread killed copies target n s).2
        (Editor.take killed copies target n ed).2 := by
  induction n generalizing s ed with
  | zero => exact ⟨rfl, h⟩
  | succ n ih =>
    obtain ⟨committed, line⟩ := ed
    cases committed with
    | nil =>
      have heq : s.r = s.w := h.committed_eq_nil_iff.mpr rfl
      unfold Devices.consoleread Editor.take
      rw [if_pos heq]
      exact ⟨rfl, h⟩
    | cons c text =>
      obtain ⟨hbyte, hpop⟩ := h.pop rfl
      have hne : s.r ≠ s.w := fun heq => nomatch h.committed_eq_nil_iff.mp heq
      have hback : ({ s with r := dec (inc s.r) } : Cons) = s := by rw [dec_inc h.r_lt]
      obtain ⟨hserved, hrest⟩ := ih hpop
      unfold Devices.consoleread Editor.take
      rw [if_neg hne]
      dsimp only
      rw [hbyte]
      by_cases hend : c = control 'D'
      · rw [if_pos hend, if_pos hend]
        by_cases hsome : n + 1 < target
        · -- the control-D is put back
          rw [if_pos hsome, if_pos hsome, hback]
          exact ⟨rfl, h⟩
        · rw [if_neg hsome, if_neg hsome]
          exact ⟨rfl, hpop⟩
      rw [if_neg hend, if_neg hend]
      by_cases hcopy : ¬ copies (target - (n + 1))
      · rw [if_pos hcopy, if_pos hcopy]
        exact ⟨rfl, hpop⟩
      rw [if_neg hcopy, if_neg hcopy]
      by_cases hline : c = newline
      · rw [if_pos hline, if_pos hline]
        exact ⟨rfl, hpop⟩
      · rw [if_neg hline, if_neg hline]
        exact ⟨congrArg (Served.cons c) hserved, hrest⟩

end Represents

/-! ## Runs -/

/-- The two systems have served the same, and their devices are related. -/
structure Agree (s : System Cons) (t : System Editor) : Prop where
  device : Represents s.device t.device
  asleep : s.asleep = t.asleep
  log : s.log = t.log

variable {a : System Cons} {b : System Editor}

theorem Agree.serve (h : Agree a b) (p target n : ℕ) (killed : Bool) (copies : ℕ → Bool) :
    Agree (a.serve console p target n killed copies)
      (b.serve editor p target n killed copies) := by
  obtain ⟨hserved, hdevice⟩ := h.device.consoleread killed copies target n
  constructor
  · exact hdevice
  · change Function.update a.asleep p _ = Function.update b.asleep p _
    rw [h.asleep]
    exact congrArg (fun v : Served => Function.update b.asleep p (v.turn.slot target)) hserved
  · change a.log ++ [(p, _)] = b.log ++ [(p, _)]
    rw [h.log]
    exact congrArg (fun v => b.log ++ [(p, v)]) hserved

/-- Both systems take a step together, and still agree, or neither can. -/
theorem Agree.step (h : Agree a b) (act : Act) :
    Option.Rel Agree (a.step console act) (b.step editor act) := by
  cases act with
  | intr c => exact .some ⟨h.device.consoleintr c, h.asleep, h.log⟩
  | call p n killed copies =>
    simp only [System.step, h.asleep]
    cases b.asleep p with
    | none => exact .some (h.serve p n.toNat n.toNat killed copies)
    | some w => exact .none
  | resume p killed copies =>
    simp only [System.step, h.asleep]
    cases b.asleep p with
    | none => exact .none
    | some w => exact .some (h.serve p w.1 w.2 killed copies)

theorem Agree.run (h : Agree a b) (acts : List Act) :
    Option.Rel Agree (runAll (System.step console) a acts)
      (runAll (System.step editor) b acts) := by
  induction acts generalizing a b with
  | nil => exact .some h
  | cons act acts ih =>
    have hstep := h.step act
    unfold runAll
    generalize a.step console act = x at hstep
    generalize b.step editor act = y at hstep
    cases hstep with
    | none => exact .none
    | some h' => exact ih h'

/-- An empty ring, wherever its indices are. -/
def Cons.emptyAt (x : ℕ) (buf : ℕ → Byte) : Cons := ⟨buf, x, x, x⟩

theorem represents_emptyAt {x : ℕ} (hx : x < 4294967296) (buf : ℕ → Byte) :
    Represents (.emptyAt x buf) ⟨[], []⟩ :=
  ⟨⟨hx, hx, hx, window_self hx buf, window_self hx buf, Nat.zero_le _⟩, nofun⟩

/-- In every interleaving of input and readers the ring serves what the editor serves, to the
same readers in the same order; the ring is the editor's text, and its indices are in order. -/
theorem console_edits_lines {x : ℕ} (hx : x < 4294967296) (buf : ℕ → Byte) (acts : List Act)
    (h : runAll (System.step console) (.idle (.emptyAt x buf)) acts = some a) :
    ∃ b, runAll (System.step editor) (.idle ⟨[], []⟩) acts = some b ∧
      a.consumed = b.consumed ∧ a.log = b.log ∧ a.asleep = b.asleep ∧
      minus a.device.w a.device.r ≤ minus a.device.e a.device.r ∧
      minus a.device.e a.device.r ≤ inputBufSize ∧
      window 4294967296 inputBufSize a.device.buf a.device.r a.device.w = b.device.committed ∧
      window 4294967296 inputBufSize a.device.buf a.device.w a.device.e = b.device.line := by
  have hinit : Agree (.idle (.emptyAt x buf)) (.idle ⟨[], []⟩) :=
    ⟨represents_emptyAt hx buf, rfl, rfl⟩
  have hrun := hinit.run acts
  rw [h] at hrun
  generalize runAll (System.step editor) (.idle ⟨[], []⟩) acts = y at hrun
  cases hrun with
  | @some _ b hb =>
    have hd := hb.device
    refine ⟨b, rfl, congrArg (List.flatMap _) hb.log, hb.log, hb.asleep, ?_, ?_, hd.committed,
      hd.line⟩
    · rw [minus_eq_span, minus_eq_span, span_add hd.r_lt hd.w_lt hd.e_lt hd.spans_lt]
      exact Nat.le_add_right _ _
    · rw [minus_eq_span, hd.unread_eq]
      exact hd.room

/-- A typing error is corrected where the indices wrap, and then a line is read. -/
theorem console_edits_lines_wrapped : ∃ a b,
    runAll (System.step console) (.idle (.emptyAt 4294967295 fun _ => 0))
      [.intr 104, .intr 101, .intr delete, .intr 105, .call 1 9 false fun _ => true,
        .intr newline, .resume 1 false fun _ => true] = some a ∧
    runAll (System.step editor) (.idle ⟨[], []⟩)
      [.intr 104, .intr 101, .intr delete, .intr 105, .call 1 9 false fun _ => true,
        .intr newline, .resume 1 false fun _ => true] = some b ∧
    a.consumed = [104, 105, newline] ∧ a.log = b.log := by
  obtain ⟨a, ha, hc⟩ : ∃ a, runAll (System.step console)
      (.idle (.emptyAt 4294967295 fun _ => 0))
      [.intr 104, .intr 101, .intr delete, .intr 105, .call 1 9 false fun _ => true,
        .intr newline, .resume 1 false fun _ => true] = some a ∧
      a.consumed = [104, 105, newline] := ⟨_, rfl, by decide +kernel⟩
  obtain ⟨b, hb, -, hlog, -⟩ := console_edits_lines (by decide) _ _ ha
  exact ⟨a, b, ha, hb, hc, hlog⟩

end XV6AndConcurrency.Devices
