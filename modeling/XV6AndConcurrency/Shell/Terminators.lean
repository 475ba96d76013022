import XV6AndConcurrency.Shell.CommandLine

/-!
# The terminators of the tokens

The NUL that ends one token of a command line is never inside another, so `nulterminate`
could visit the tree in any order, and a token can be read as soon as its own NUL is there.
-/

namespace XV6AndConcurrency.Shell

/-- The text between the two pointers of a word. -/
def Slice.text (x : Slice) : List Char := x.q.take (x.q.length - x.eq.length)

/-- The offsets of `q` and `eq` in a line of `n` characters. -/
def Slice.first (n : ℕ) (x : Slice) : ℕ := n - x.q.length
def Slice.last (n : ℕ) (x : Slice) : ℕ := n - x.eq.length

/-- The line after the NULs of some words were written, one after the other. -/
def terminate (line : List Char) (words : List Slice) : List Char :=
  nulsAt (words.map fun x => x.last line.length) (line ++ ['\x00'])

variable {line mem mem' : List Char} {cmd : Cmd Slice} {x y : Slice} {w : List Char}
  {tree : Cmd (List Char)}

theorem Slice.Of.text_eq (h : x.Of line w) : x.text = w := by
  have hq := h.spells.text
  unfold Slice.text
  rw [hq, List.length_append, Nat.add_sub_cancel, List.take_left]

theorem length_nulsAt (ps : List ℕ) (mem : List Char) : (nulsAt ps mem).length = mem.length := by
  induction ps generalizing mem with
  | nil => rfl
  | cons p ps ih => exact (ih _).trans List.length_set

/-- Only where the NULs go matters, not in which order. -/
theorem nulsAt_congr {ps qs : List ℕ} (h : ∀ i, i ∈ ps ↔ i ∈ qs) (mem : List Char) :
    nulsAt ps mem = nulsAt qs mem := by
  apply List.ext_getElem?
  intro i
  by_cases hi : i < mem.length
  · by_cases hmem : i ∈ ps
    · rw [getElem?_nulsAt_of_mem hmem hi, getElem?_nulsAt_of_mem ((h i).mp hmem) hi]
    · have hmem' : i ∉ qs := fun hc => hmem ((h i).mpr hc)
      rw [getElem?_nulsAt_of_not_mem hmem, getElem?_nulsAt_of_not_mem hmem']
  · have hlen := Nat.le_of_not_lt hi
    rw [List.getElem?_eq_none (by rwa [length_nulsAt]),
      List.getElem?_eq_none (by rwa [length_nulsAt])]

/-- The tree that `parsecmd` returns, with the words of a derivation, and the memory. -/
theorem parsecmd_ok (h : parsecmd mem = .ok (cmd, mem')) : ∃ tree,
    LineDerives (cstring mem) tree ∧ cmd.Matches (Slice.Of (cstring mem)) tree ∧
      mem' = terminate (cstring mem) cmd.words := by
  obtain ⟨ts, hts⟩ := exists_lexes (cstring mem)
  have hc : Cursor (cstring mem) (cstring mem) ts := ⟨List.suffix_rfl, hts⟩
  have hline := parseline_explains hc
  cases hp : parseline (cstring mem) with
  | error e =>
    unfold parsecmd at h
    dsimp only at h
    rw [hp] at h
    cases h
  | ok p =>
    rw [hp] at hline
    obtain ⟨us, vs, tree, rfl, hd, hrest, hm⟩ := hline
    rw [parsecmd_eq mem hp] at h
    split_ifs at h with hskip
    cases h
    have hvs := hrest.lexes.skip
    rw [not_not.mp hskip] at hvs
    obtain rfl := hvs.eq_nil
    rw [List.append_nil] at hts
    exact ⟨tree, ⟨us, hts, hd⟩, hm, nulterminate_eq ..⟩

theorem Cmd.Matches.of_text (h : cmd.Matches (Slice.Of line) tree) :
    ∀ x ∈ cmd.words, x.Of line x.text := by
  intro x hx
  obtain ⟨w, hw⟩ := h.words x hx
  rwa [hw.text_eq]

/-- After `nulterminate` every word of the tree reads as the text of its token, and so it would
in whatever order the terminators were written, from its own one on: none of them is inside
another token. -/
theorem nulterminate_yields_tokens (h : parsecmd mem = .ok (cmd, mem')) :
    LineDerives (cstring mem) (cmd.map Slice.text) ∧
    (∀ x ∈ cmd.words, x.Of (cstring mem) x.text ∧
      x.read (cstring mem).length mem' = x.text) ∧
    (∀ x ∈ cmd.words, ∀ y ∈ cmd.words, ∀ i < x.text.length,
      y.last (cstring mem).length ≠ x.first (cstring mem).length + i) ∧
    (∀ visited ⊆ cmd.words, ∀ x ∈ visited,
      x.read (cstring mem).length (terminate (cstring mem) visited) = x.text) ∧
    ∀ walk : List Slice, (∀ x, x ∈ walk ↔ x ∈ cmd.words) → terminate (cstring mem) walk = mem' := by
  obtain ⟨tree, htree, hm, rfl⟩ := parsecmd_ok h
  have hof := hm.of_text
  have hread : ∀ visited ⊆ cmd.words, ∀ x ∈ visited,
      x.read (cstring mem).length (terminate (cstring mem) visited) = x.text := by
    intro visited hsub x hx
    exact (hof x (hsub hx)).read_nulsAt (fun c hc => ne_nul_of_mem_cstring hc)
      (fun y hy => hm.words y (hsub hy)) hx
  have hmap : cmd.map Slice.text = tree := hm.map_eq fun x _ w hw => hw.text_eq
  refine ⟨by rwa [hmap], ?_, ?_, hread, ?_⟩
  · intro x hx
    exact ⟨hof x hx, hread cmd.words (List.Subset.refl _) x hx⟩
  · intro x hx y hy i hi
    exact (hof x hx).end_ne (hof y hy) hi
  · intro walk hwalk
    apply nulsAt_congr
    intro i
    simp only [List.mem_map, hwalk]

/-- `ls>f`: the terminator of the first word takes the place of the symbol. -/
theorem nulterminate_yields_tokens_redirected :
    ∃ cmd mem', parsecmd "ls>f".toList = .ok (cmd, mem') ∧ cmd.words ≠ [] ∧
      ∀ x ∈ cmd.words, x.read 4 mem' = x.text := by
  have hlex : Lexes "ls>f".toList [.word ['l', 's'], .gt, .word ['f']] :=
    .word (w := ['l', 's']) (s := ['>', 'f']) (by simp) (by simp [isWord, whitespace, symbols])
      (by simp [isWord, whitespace, symbols])
      (.gt (by simp) (.word (w := ['f']) (s := []) (by simp)
        (by simp [isWord, whitespace, symbols]) (by simp) .nil))
  have hargs : Args [.word ['l', 's'], .gt, .word ['f']] [['l', 's']]
      [⟨['f'], 0x001 + 0x200 + 0x400, 1⟩] := .cons (.gt .nil) .nil
  have hline : LineDerives (cstring "ls>f".toList)
      (.redir (.exec [['l', 's']]) ⟨['f'], 0x001 + 0x200 + 0x400, 1⟩) :=
    ⟨_, hlex, .line 0 (.single (.exec .nil hargs (by decide)))⟩
  obtain ⟨cmd, mem', hrun, hmap⟩ := hline.parsecmd
  obtain ⟨-, hwords, -⟩ := nulterminate_yields_tokens hrun
  refine ⟨cmd, mem', hrun, ?_, fun x hx => (hwords x hx).2⟩
  intro hnil
  cases cmd with
  | redir c r => simp [Cmd.words] at hnil
  | exec argv => cases hmap
  | pipe left right => cases hmap
  | list left right => cases hmap
  | back c => cases hmap

end XV6AndConcurrency.Shell
