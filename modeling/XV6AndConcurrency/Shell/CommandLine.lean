import XV6AndConcurrency.Shell.Completeness

/-!
# `parsecmd` accepts the lines of the grammar

`nulterminate` writes a NUL behind every word and nowhere inside one, so the strings that
the tree points to are the words of the derivation.
-/

namespace XV6AndConcurrency.Shell

/-! ## The NULs -/

/-- A NUL at each of the places. -/
def nulsAt (places : List ℕ) (mem : List Char) : List Char :=
  places.foldl (fun mem p => mem.set p '\x00') mem

theorem nulsAt_append (ps qs : List ℕ) (mem : List Char) :
    nulsAt (ps ++ qs) mem = nulsAt qs (nulsAt ps mem) := List.foldl_append

theorem getElem?_nulsAt_of_not_mem {ps : List ℕ} {i : ℕ} (h : i ∉ ps) (mem : List Char) :
    (nulsAt ps mem)[i]? = mem[i]? := by
  induction ps generalizing mem with
  | nil => rfl
  | cons p ps ih =>
    have hne : i ≠ p := List.ne_of_not_mem_cons h
    have hnot : i ∉ ps := List.not_mem_of_not_mem_cons h
    calc (nulsAt ps (mem.set p '\x00'))[i]?
        = (mem.set p '\x00')[i]? := ih hnot _
      _ = mem[i]? := List.getElem?_set_ne (Ne.symm hne)

theorem getElem?_nulsAt_of_mem {ps : List ℕ} {i : ℕ} (h : i ∈ ps) {mem : List Char}
    (hi : i < mem.length) : (nulsAt ps mem)[i]? = some '\x00' := by
  induction ps generalizing mem with
  | nil => cases h
  | cons p ps ih =>
    change (nulsAt ps (mem.set p '\x00'))[i]? = some '\x00'
    by_cases hmem : i ∈ ps
    · exact ih hmem (by rwa [List.length_set])
    · obtain rfl : i = p := (List.mem_cons.mp h).resolve_right hmem
      rw [getElem?_nulsAt_of_not_mem hmem, List.getElem?_set_self hi]

theorem nulterminate_eq (n : ℕ) (cmd : Cmd Slice) (mem : List Char) :
    nulterminate n cmd mem = nulsAt (cmd.words.map fun x => n - x.eq.length) mem := by
  induction cmd generalizing mem with
  | exec argv =>
    unfold nulsAt
    rw [List.foldl_map]
    rfl
  | redir cmd r ih =>
    rw [nulterminate, ih, Cmd.words, List.map_append, nulsAt_append]
    rfl
  | pipe left right ihl ihr | list left right ihl ihr =>
    rw [nulterminate, ihl, ihr, Cmd.words, List.map_append, nulsAt_append]
  | back cmd ih => exact ih mem

/-! ## The strings -/

theorem cstring_drop {mem w : List Char} {k : ℕ} (hw : ∀ c ∈ w, c ≠ '\x00')
    (hchars : ∀ i < w.length, mem[k + i]? = w[i]?) (hend : mem[k + w.length]? = some '\x00') :
    cstring (mem.drop k) = w := by
  induction w generalizing k with
  | nil =>
    obtain ⟨hk, hget⟩ := List.getElem?_eq_some_iff.mp hend
    simp only [List.length_nil, Nat.add_zero] at hk hget
    rw [List.drop_eq_getElem_cons hk, hget]
    rfl
  | cons c w ih =>
    have hfirst : mem[k]? = some c := hchars 0 (Nat.zero_lt_succ _)
    obtain ⟨hk, hget⟩ := List.getElem?_eq_some_iff.mp hfirst
    have hrest : cstring (mem.drop (k + 1)) = w := by
      refine ih (fun d hd => hw d (List.mem_cons_of_mem c hd)) ?_ ?_
      · intro i hi
        have hnext := hchars (i + 1) (Nat.succ_lt_succ hi)
        rwa [Nat.add_comm i 1, ← Nat.add_assoc, Nat.add_comm 1 i] at hnext
      · rwa [List.length_cons, Nat.add_comm w.length 1, ← Nat.add_assoc] at hend
    rw [List.drop_eq_getElem_cons hk, hget]
    calc cstring (c :: mem.drop (k + 1))
        = c :: cstring (mem.drop (k + 1)) :=
          List.takeWhile_cons_of_pos (decide_eq_true (hw c (List.mem_cons_self ..)))
      _ = c :: w := by rw [hrest]

theorem ne_nul_of_mem_cstring {mem : List Char} {c : Char} (h : c ∈ cstring mem) : c ≠ '\x00' := by
  have hc := List.mem_takeWhile_imp h
  exact of_decide_eq_true hc

/-- The string that a word of the tree points to; `n` is the length of the line. -/
def Slice.read (n : ℕ) (mem : List Char) (x : Slice) : List Char :=
  cstring (mem.drop (n - x.q.length))

variable {text w w' : List Char} {x x' : Slice}

/-- Where the word is in the line. -/
theorem Slice.Of.place (h : x.Of text w) :
    ∃ a, text = a ++ (w ++ x.eq) ∧ text.length - x.q.length = a.length ∧
      text.length - x.eq.length = a.length + w.length := by
  obtain ⟨a, ha⟩ := h.suffix
  have hlength := congrArg List.length ha
  have hlength' := congrArg List.length h.spells.text
  simp only [List.length_append] at hlength hlength'
  refine ⟨a, ?_, ?_, ?_⟩
  · rw [← h.spells.text, ha]
  · omega
  · omega

/-- The end of a word is not inside a word. -/
theorem Slice.Of.end_ne (h : x.Of text w) (h' : x'.Of text w') {i : ℕ} (hi : i < w.length) :
    text.length - x'.eq.length ≠ text.length - x.q.length + i := by
  intro heq
  obtain ⟨a, hline, hq, -⟩ := h.place
  obtain ⟨b, hline', -, hend⟩ := h'.place
  have hword : text[a.length + i]? = some w[i] := by
    rw [hline, List.getElem?_append_right (Nat.le_add_right ..), Nat.add_sub_cancel_left,
      List.getElem?_append_left hi, List.getElem?_eq_getElem hi]
  have hnot : text[a.length + i]? = x'.eq.head? := by
    rw [← hq, ← heq, hend, hline', ← List.append_assoc, ← List.length_append,
      List.getElem?_append_right (Nat.le_refl _), Nat.sub_self, List.head?_eq_getElem?]
  rw [hnot] at hword
  have hfalse := h'.spells.ends _ hword
  rw [h.spells.all _ (List.getElem_mem hi)] at hfalse
  cases hfalse

/-- With NULs at the ends of words, among them its own, a word can be read. -/
theorem Slice.Of.read_nulsAt {xs : List Slice} (hnul : ∀ c ∈ text, c ≠ '\x00')
    (hxs : ∀ y ∈ xs, ∃ v, y.Of text v) (hx : x ∈ xs) (h : x.Of text w) :
    x.read text.length (nulsAt (xs.map fun y => text.length - y.eq.length) (text ++ ['\x00'])) =
      w := by
  obtain ⟨a, hline, hq, hend⟩ := h.place
  have hw : ∀ c ∈ w, c ≠ '\x00' := by
    intro c hc
    apply hnul
    rw [hline]
    exact List.mem_append_right a (List.mem_append_left _ hc)
  refine cstring_drop hw ?_ ?_
  · intro i hi
    have hnot : text.length - x.q.length + i ∉ xs.map fun y => text.length - y.eq.length := by
      intro hmem
      obtain ⟨y, hy, heq⟩ := List.mem_map.mp hmem
      obtain ⟨v, hv⟩ := hxs y hy
      exact h.end_ne hv hi heq
    have hlt : a.length + i < text.length := by
      rw [hline, List.length_append, List.length_append]
      omega
    rw [getElem?_nulsAt_of_not_mem hnot, hq, List.getElem?_append_left hlt, hline,
      List.getElem?_append_right (Nat.le_add_right ..), Nat.add_sub_cancel_left,
      List.getElem?_append_left hi]
  · have hmem : text.length - x.q.length + w.length ∈
        xs.map fun y => text.length - y.eq.length := by
      rw [hq, ← hend]
      exact List.mem_map_of_mem hx
    apply getElem?_nulsAt_of_mem hmem
    rw [hq, ← hend, List.length_append, List.length_singleton]
    omega

/-! ## `parsecmd` -/

theorem Lexes.eq_nil {ts : List Token} (h : Lexes [] ts) : ts = [] := by
  generalize hs : ([] : List Char) = s at h
  cases h with
  | nil => rfl
  | word hw hall hend h => exact absurd (List.append_eq_nil_iff.mp hs.symm).1 hw
  | _ => cases hs

variable {mem mem' : List Char} {cmd : Cmd Slice} {tree : Cmd (List Char)}

theorem parsecmd_eq (mem : List Char) {p : Parsed (cstring mem)}
    (h : parseline (cstring mem) = .ok p) :
    parsecmd mem = if skip p.rest ≠ [] then .error (.leftovers (skip p.rest))
      else .ok (p.cmd, nulterminate (cstring mem).length p.cmd (cstring mem ++ ['\x00'])) := by
  unfold parsecmd
  dsimp only
  rw [h]
  rfl

/-- What a tree that matches reads, after `nulterminate`. -/
theorem read_nulterminate (h : cmd.Matches (Slice.Of (cstring mem)) tree) :
    cmd.map (Slice.read (cstring mem).length
      (nulterminate (cstring mem).length cmd (cstring mem ++ ['\x00']))) = tree := by
  apply h.map_eq
  intro x hx w hw
  rw [nulterminate_eq]
  exact hw.read_nulsAt (fun c hc => ne_nul_of_mem_cstring hc) h.words hx

theorem LineDerives.parsecmd (h : LineDerives (cstring mem) tree) :
    ∃ cmd mem', parsecmd mem = .ok (cmd, mem') ∧
      cmd.map (Slice.read (cstring mem).length mem') = tree := by
  obtain ⟨ts, hts, hd⟩ := h
  have hc : Cursor (cstring mem) (cstring mem) (ts ++ []) :=
    ⟨List.suffix_rfl, by rwa [List.append_nil]⟩
  obtain ⟨p, hp, hrest, hm⟩ := hd.parses _ [] hc nofun
  refine ⟨p.cmd, _, ?_, read_nulterminate hm⟩
  rw [parsecmd_eq mem hp, if_neg (not_not.mpr hrest.lexes.skip_eq_nil)]

theorem parsecmd_explains (mem : List Char) :
    match parsecmd mem with
    | .ok (cmd, mem') =>
      LineDerives (cstring mem) (cmd.map (Slice.read (cstring mem).length mem'))
    | .error e => e ≠ .parseblock := by
  obtain ⟨ts, hts⟩ := exists_lexes (cstring mem)
  have hc : Cursor (cstring mem) (cstring mem) ts := ⟨List.suffix_rfl, hts⟩
  have hline := parseline_explains hc
  cases hp : parseline (cstring mem) with
  | error e =>
    rw [hp] at hline
    unfold parsecmd
    dsimp only
    rw [hp]
    exact hline
  | ok p =>
    rw [hp] at hline
    obtain ⟨us, vs, tree, rfl, hd, hrest, hm⟩ := hline
    rw [parsecmd_eq mem hp]
    by_cases hskip : skip p.rest = []
    · have hvs := hrest.lexes.skip
      rw [hskip] at hvs
      rw [if_neg (not_not.mpr hskip)]
      obtain rfl := hvs.eq_nil
      rw [List.append_nil] at hts
      change LineDerives _ (Cmd.map _ _)
      rw [read_nulterminate hm]
      exact ⟨us, hts, hd⟩
    · rw [if_pos hskip]
      exact nofun

/-- A tree is returned for the lines of the grammar, and for no others; its strings are the
words of the derivation, and there is one derivation. -/
theorem parsecmd_accepts (mem : List Char) :
    ((∃ cmd mem', parsecmd mem = .ok (cmd, mem')) ↔ ∃ tree, LineDerives (cstring mem) tree) ∧
      (∀ cmd mem' tree, parsecmd mem = .ok (cmd, mem') →
        (LineDerives (cstring mem) tree ↔
          cmd.map (Slice.read (cstring mem).length mem') = tree)) ∧
      ∀ e, parsecmd mem = .error e → e ≠ .parseblock := by
  have hsound := parsecmd_explains mem
  refine ⟨⟨?_, ?_⟩, ?_, ?_⟩
  · rintro ⟨cmd, mem', h⟩
    rw [h] at hsound
    exact ⟨_, hsound⟩
  · rintro ⟨tree, htree⟩
    obtain ⟨cmd, mem', h, -⟩ := htree.parsecmd
    exact ⟨cmd, mem', h⟩
  · intro cmd mem' tree h
    rw [h] at hsound
    constructor
    · intro htree
      obtain ⟨cmd', mem'', h', hread⟩ := htree.parsecmd
      rw [h] at h'
      cases h'
      exact hread
    · rintro rfl
      exact hsound
  · intro e h
    rw [h] at hsound
    exact hsound

end XV6AndConcurrency.Shell
