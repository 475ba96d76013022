import XV6AndConcurrency.Shell.Grammar

/-!
# Trees over two kinds of words

The trees of the parser are over slices of the line, those of the grammar over the words.
-/

namespace XV6AndConcurrency.Shell

variable {α β : Type*}

/-- The same tree over other words. -/
def Cmd.map (f : α → β) : Cmd α → Cmd β
  | .exec argv => .exec (argv.map f)
  | .redir cmd r => .redir (cmd.map f) ⟨f r.file, r.mode, r.fd⟩
  | .pipe left right => .pipe (left.map f) (right.map f)
  | .list left right => .list (left.map f) (right.map f)
  | .back cmd => .back (cmd.map f)

/-- The words of a tree, in the order of `nulterminate`. -/
def Cmd.words : Cmd α → List α
  | .exec argv => argv
  | .redir cmd r => cmd.words ++ [r.file]
  | .pipe left right | .list left right => left.words ++ right.words
  | .back cmd => cmd.words

/-- Trees of the same form, with related words at every place. -/
inductive Cmd.Matches (R : α → β → Prop) : Cmd α → Cmd β → Prop
  | exec {argv ws} (h : List.Forall₂ R argv ws) : Matches R (.exec argv) (.exec ws)
  | redir {c d x w mode fd} (h : Matches R c d) (hx : R x w) :
    Matches R (.redir c ⟨x, mode, fd⟩) (.redir d ⟨w, mode, fd⟩)
  | pipe {c d c' d'} (h : Matches R c d) (h' : Matches R c' d') :
    Matches R (.pipe c c') (.pipe d d')
  | list {c d c' d'} (h : Matches R c d) (h' : Matches R c' d') :
    Matches R (.list c c') (.list d d')
  | back {c d} (h : Matches R c d) : Matches R (.back c) (.back d)

namespace Cmd

variable {R : α → β → Prop} {c : Cmd α} {d : Cmd β} {x : α} {w : β}

theorem Matches.addArg (h : Matches R c d) (hx : R x w) : Matches R (c.addArg x) (d.addArg w) := by
  induction h with
  | exec h => exact .exec (List.rel_append h (.cons hx .nil))
  | redir _ hy ih => exact .redir ih hy
  | pipe h h' => exact .pipe h h'
  | list h h' => exact .list h h'
  | back h => exact .back h

theorem Matches.backs (h : Matches R c d) (n : ℕ) : Matches R (c.backs n) (d.backs n) := by
  induction n generalizing c d with
  | zero => exact h
  | succ n ih => exact ih (.back h)

theorem redirs_append (c : Cmd α) (rs rs' : List (Redir α)) :
    c.redirs (rs ++ rs') = (c.redirs rs).redirs rs' := List.foldl_append

/-- Words go to the command, through the redirections around it. -/
theorem addArg_redirs (c : Cmd α) (rs : List (Redir α)) (x : α) :
    (c.redirs rs).addArg x = (c.addArg x).redirs rs := by
  induction rs generalizing c with
  | nil => rfl
  | cons r rs ih => exact ih (.redir c r)

/-- A function that agrees with the relation on the words of the tree gives the other tree. -/
theorem Matches.map_eq {f : α → β} (h : Matches R c d)
    (hf : ∀ x ∈ c.words, ∀ w, R x w → f x = w) : c.map f = d := by
  induction h with
  | exec h =>
    refine congrArg Cmd.exec ?_
    change ∀ x ∈ _, _ at hf
    induction h with
    | nil => rfl
    | cons hx _ ih =>
      rw [List.map_cons, hf _ (List.mem_cons_self ..) _ hx]
      rw [ih fun y hy => hf y (List.mem_cons_of_mem _ hy)]
  | redir h hx ih =>
    simp only [words, List.mem_append, List.mem_singleton] at hf
    rw [Cmd.map, ih fun y hy => hf y (.inl hy), hf _ (.inr rfl) _ hx]
  | pipe _ _ ih ih' =>
    simp only [words, List.mem_append] at hf
    rw [Cmd.map, ih fun y hy => hf y (.inl hy), ih' fun y hy => hf y (.inr hy)]
  | list _ _ ih ih' =>
    simp only [words, List.mem_append] at hf
    rw [Cmd.map, ih fun y hy => hf y (.inl hy), ih' fun y hy => hf y (.inr hy)]
  | back _ ih => rw [Cmd.map, ih hf]

/-- Every word of the tree has its counterpart. -/
theorem Matches.words (h : Matches R c d) : ∀ x ∈ c.words, ∃ w, R x w := by
  induction h with
  | exec h =>
    intro x hx
    change x ∈ _ at hx
    induction h with
    | nil => cases hx
    | cons hy _ ih =>
      cases hx with
      | head => exact ⟨_, hy⟩
      | tail _ hx => exact ih hx
  | redir _ hy ih =>
    intro x hx
    obtain hx | hx := List.mem_append.mp hx
    · exact ih x hx
    · cases List.mem_singleton.mp hx
      exact ⟨_, hy⟩
  | pipe _ _ ih ih' => exact fun x hx => (List.mem_append.mp hx).elim (ih x) (ih' x)
  | list _ _ ih ih' => exact fun x hx => (List.mem_append.mp hx).elim (ih x) (ih' x)
  | back _ ih => exact ih

end Cmd

end XV6AndConcurrency.Shell
