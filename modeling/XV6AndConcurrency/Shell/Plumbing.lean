import XV6AndConcurrency.Shell.CommandLine
import XV6AndConcurrency.Shell.Wiring

/-!
# Plumbing

In every run of the processes of a line, each program starts with the three descriptors that
the tree says and no others, and an end of a pipe is held by the parts on its side only, and
by processes of the shell that are about to close it.
-/

namespace XV6AndConcurrency.Shell

open Foundations FileSystem

variable {α : Type*} {tree : Cmd α} {P P' : Proc α} {e : Effect α} {s s' : Jobs α} {m : Move α}

/-- Between the making of a pipe and the last `close` of its ends. -/
def Proc.setup (P : Proc α) : Bool :=
  match P.code with
  | .forkLeft .. | .forkRight .. | .calls .. => true
  | _ => false

/-- What a process has at each place of the code. -/
def Fits (tree : Cmd α) (P : Proc α) : Prop :=
  ∃ cmd w, wiring tree P.node = some (cmd, w) ∧
    match P.code with
    | .runcmd cmd' => cmd' = cmd ∧ P.fds = std w
    | .opening r cmd' => cmd = .redir cmd' r ∧ P.fds = Function.update (std w) r.fd none
    | .forkLeft p left right => cmd = .pipe left right ∧ p = (3, 4) ∧ P.fds = piped w P.node
    | .forkRight p right => (∃ left, cmd = .pipe left right) ∧ p = (3, 4) ∧ P.fds = piped w P.node
    | .calls cs (some cmd') => cmd' = cmd ∧ cs.foldl Call.run P.fds = std w
    | .calls cs none => (∃ left right, cmd = .pipe left right) ∧ cs.foldl Call.run P.fds = std w
    | .wait _ (some right) => (∃ left, cmd = .list left right) ∧ P.fds = std w
    | .wait _ none => (∃ left right, cmd = .pipe left right) ∧ P.fds = std w
    | .exit => ∃ cmd', cmd = .back cmd'
    | .program argv => cmd = .exec argv
    | .zombie => True

/-- The pipes that a process has ends of. -/
def Held (P : Proc α) : Prop :=
  ∀ fd ν b, P.fds fd = some (.pipe ν b) → ν ++ [side b] <+: P.node ∨
    P.setup = true ∧ (P.node = ν ∨ ∃ t, P.node = ν ++ [t])

def Wired (tree : Cmd α) (P : Proc α) : Prop := Fits tree P ∧ Held P

/-- What holds of the processes that an effect leaves, the child included. -/
def Effect.All (G : Proc α → Prop) (P : Proc α) : Effect α → Prop
  | .go P' => G P'
  | .fork P' t code => G P' ∧ ∀ p, G (P.child p t code)
  | .leave _ => True

/-! ## One process -/

theorem held_std {cmd : Cmd α} {w : ℕ → Handle α} (hw : wiring tree P.node = some (cmd, w))
    (hfds : P.fds = std w) : Held P := by
  intro fd ν b hfd
  rw [hfds] at hfd
  exact .inl (wiring_pipe hw (std_eq_some hfd))

theorem held_piped {cmd : Cmd α} {w : ℕ → Handle α} {n : List Turn}
    (hw : wiring tree n = some (cmd, w)) (hfds : P.fds = piped w n) (hsetup : P.setup = true)
    (hnode : P.node = n ∨ ∃ t, P.node = n ++ [t]) : Held P := by
  intro fd ν b hfd
  rw [hfds] at hfd
  rcases piped_pipe hfd with rfl | hfd
  · exact .inr ⟨hsetup, hnode⟩
  · refine .inl ((wiring_pipe hw (std_eq_some hfd)).trans ?_)
    rcases hnode with hnode | ⟨t, hnode⟩
    · rw [hnode]
    · rw [hnode]
      exact List.prefix_append _ _

/-- Handles of the process itself are allowed as they were. -/
theorem Held.subset (h : Held P) (hnode : P'.node = P.node)
    (hsetup : P.setup = true → P'.setup = true)
    (hfds : ∀ fd ν b, P'.fds fd = some (.pipe ν b) → ∃ fd', P.fds fd' = some (.pipe ν b)) :
    Held P' := by
  intro fd ν b hfd
  obtain ⟨fd', hfd'⟩ := hfds fd ν b hfd
  rw [hnode]
  exact (h fd' ν b hfd').imp_right fun hs => ⟨hsetup hs.1, hs.2⟩

theorem Wired.act {alone ok : Bool} (htree : tree.Standard) (h : Wired tree P)
    (hact : P.act alone ok = some e) : e.All (Wired tree) P := by
  obtain ⟨⟨cmd, w, hw, hfits⟩, hheld⟩ := h
  -- a part that begins with its wiring
  have hstart : ∀ (Q : Proc α) (cmd' : Cmd α) (w' : ℕ → Handle α),
      wiring tree Q.node = some (cmd', w') → Q.code = .runcmd cmd' → Q.fds = std w' →
      Wired tree Q := by
    intro Q cmd' w' hQ hcode hfds
    refine ⟨⟨cmd', w', hQ, ?_⟩, held_std hQ hfds⟩
    rw [hcode]
    exact ⟨rfl, hfds⟩
  cases hcode : P.code with
  | runcmd cmd' =>
    simp only [hcode] at hfits
    obtain ⟨rfl, hfds⟩ := hfits
    cases cmd' with simp only [Proc.act, hcode] at hact
    | exec argv =>
      split_ifs at hact
      · cases hact
        trivial
      · cases hact
        exact ⟨⟨_, w, hw, rfl⟩, held_std (P := P.goto (.program argv)) hw hfds⟩
    | redir cmd r =>
      cases hact
      refine ⟨⟨_, w, hw, rfl, ?_⟩, ?_⟩
      · show Fds.close P.fds r.fd = _
        rw [hfds]
        rfl
      · intro fd ν b hfd
        obtain ⟨fd', hfd'⟩ := Call.run_subset (c := .close r.fd) hfd
        exact .inl ((hheld fd' ν b hfd').resolve_right fun hs => by simp [Proc.setup, hcode] at hs)
    | list left right =>
      split_ifs at hact
      · cases hact
        refine ⟨⟨⟨_, w, hw, ⟨left, rfl⟩, hfds⟩, held_std (P := P.goto _) hw hfds⟩, fun p => ?_⟩
        exact hstart (P.child p _ _) left w (wiring_snoc hw) rfl hfds
      · cases hact
        trivial
    | pipe left right =>
      rw [hfds, pipe_std] at hact
      dsimp only at hact
      split_ifs at hact
      · cases hact
        refine ⟨⟨_, w, hw, rfl, rfl, rfl⟩, ?_⟩
        exact held_piped (P := { P.goto (.forkLeft (3, 4) left right) with fds := piped w P.node })
          hw rfl rfl (.inl rfl)
      · cases hact
        trivial
    | back cmd =>
      split_ifs at hact
      · cases hact
        refine ⟨⟨⟨_, w, hw, cmd, rfl⟩, held_std (P := P.goto _) hw hfds⟩, fun p => ?_⟩
        exact hstart (P.child p _ _) cmd w (wiring_snoc hw) rfl hfds
      · cases hact
        trivial
  | opening r cmd' =>
    simp only [hcode] at hfits
    obtain ⟨rfl, hfds⟩ := hfits
    have hstandard := wiring_standard htree hw
    simp only [Proc.act, hcode, hfds, openAs_std w _ hstandard.2] at hact
    split_ifs at hact
    · cases hact
      exact hstart _ cmd' _ (wiring_snoc hw) rfl rfl
    · cases hact
      trivial
  | forkLeft p left right =>
    simp only [hcode] at hfits
    obtain ⟨rfl, rfl, hfds⟩ := hfits
    simp only [Proc.act, hcode] at hact
    split_ifs at hact
    · cases hact
      refine ⟨⟨⟨_, w, hw, ⟨left, rfl⟩, rfl, hfds⟩, ?_⟩,
        fun p => ⟨⟨left, _, wiring_snoc hw, rfl, ?_⟩, ?_⟩⟩
      · exact held_piped (P := P.goto _) hw hfds rfl (.inl rfl)
      · show List.foldl Call.run P.fds _ = _
        rw [hfds]
        exact left_calls w P.node
      · exact held_piped (P := P.child p .left _) hw hfds rfl (.inr ⟨_, rfl⟩)
    · cases hact
      trivial
  | forkRight p right =>
    simp only [hcode] at hfits
    obtain ⟨⟨left, rfl⟩, rfl, hfds⟩ := hfits
    simp only [Proc.act, hcode] at hact
    split_ifs at hact
    · cases hact
      refine ⟨⟨⟨_, w, hw, ⟨left, right, rfl⟩, ?_⟩, ?_⟩,
        fun p => ⟨⟨right, _, wiring_snoc hw, rfl, ?_⟩, ?_⟩⟩
      · show List.foldl Call.run P.fds _ = _
        rw [hfds]
        exact close_piped w P.node
      · exact held_piped (P := P.goto _) hw hfds rfl (.inl rfl)
      · show List.foldl Call.run P.fds _ = _
        rw [hfds]
        exact right_calls w P.node
      · exact held_piped (P := P.child p .right _) hw hfds rfl (.inr ⟨_, rfl⟩)
    · cases hact
      trivial
  | calls cs next =>
    cases cs with
    | nil =>
      cases next with simp only [Proc.act, hcode] at hact hfits
      | none =>
        cases hact
        obtain ⟨hpipe, hfds⟩ := hfits
        exact ⟨⟨_, w, hw, hpipe, hfds⟩, held_std (P := P.goto _) hw hfds⟩
      | some cmd' =>
        cases hact
        obtain ⟨rfl, hfds⟩ := hfits
        exact hstart _ cmd' w hw rfl hfds
    | cons c cs =>
      have hgo : e = .go { P.goto (.calls cs next) with fds := c.run P.fds } := by
        simp only [Proc.act, hcode, Option.some.injEq] at hact
        exact hact.symm
      rw [hgo]
      refine ⟨⟨cmd, w, hw, ?_⟩, ?_⟩
      · cases next with simp only [hcode] at hfits
        | none => exact hfits
        | some cmd' => exact hfits
      · exact hheld.subset rfl (fun _ => rfl) fun fd ν b hfd => Call.run_subset hfd
  | wait n next =>
    cases n with
    | zero =>
      cases next with simp only [Proc.act, hcode] at hact hfits
      | none =>
        cases hact
        trivial
      | some right =>
        cases hact
        obtain ⟨⟨left, rfl⟩, hfds⟩ := hfits
        exact hstart _ right w (wiring_snoc hw) rfl hfds
    | succ n =>
      simp only [Proc.act, hcode] at hact
      split_ifs at hact
      cases hact
      cases next with simp only [hcode] at hfits
      | none => exact ⟨⟨cmd, w, hw, hfits⟩, held_std (P := P.goto _) hw hfits.2⟩
      | some right => exact ⟨⟨cmd, w, hw, hfits⟩, held_std (P := P.goto _) hw hfits.2⟩
  | exit =>
    simp only [Proc.act, hcode] at hact
    cases hact
    trivial
  | program argv =>
    simp only [Proc.act, hcode] at hact
    cases hact
  | zombie =>
    simp only [Proc.act, hcode] at hact
    cases hact

/-! ## All processes -/

/-- What every process keeps on its way holds of all processes of a run. -/
theorem Jobs.Stepped.all {G : Proc α → Prop} (hstep : Jobs.Stepped s s')
    (h : ∀ p P, s.proc p = some P → G P)
    (hact : ∀ P alone ok e, G P → P.act alone ok = some e → e.All G P)
    (hwait : ∀ P n next, G P → P.code = .wait (n + 1) next → G (P.goto (.wait n next)))
    (hexit : ∀ P, G P → G { P with code := .zombie, fds := fun _ => none })
    (hadopt : ∀ P, G P → G { P with parent := initPid })
    (huse : ∀ P fds, G P → P.isProgram = true →
      (∀ fd h, fds fd = some h → h.isPipe = true → ∃ fd', P.fds fd' = some h) →
      G { P with fds := fds })
    (hspawn : ∀ P p, G P → P.isProgram = true →
      G { P with parent := p, front := false, own := false }) :
    ∀ p P, s'.proc p = some P → G P := by
  have hput : ∀ p P, G P → ∀ q Q, (s.put p P).proc q = some Q → G Q := by
    intro p P hP q Q hQ
    rw [Jobs.put_proc] at hQ
    split_ifs at hQ
    · cases hQ
      exact hP
    · exact h q Q hQ
  have hleave : ∀ p bad q Q, (s.leave p bad).proc q = some Q → G Q := by
    intro p bad q Q hQ
    obtain ⟨R, hR, rfl⟩ := Option.map_eq_some_iff.mp hQ
    unfold Jobs.exited
    split_ifs
    · exact hexit R (h q R hR)
    · exact hadopt R (h q R hR)
    · exact h q R hR
  cases hstep with
  | act p P ok e hp heff =>
    have hall := hact P _ ok e (h p P hp) heff
    cases e with
    | go P' => exact hput p P' hall
    | fork P' t code =>
      intro q Q hQ
      change ((s.put p P').add (P.child p t code)).proc q = some Q at hQ
      rw [Jobs.add_proc] at hQ
      split_ifs at hQ
      · cases hQ
        exact hall.2 p
      · exact hput p P' hall.1 q Q hQ
    | leave bad => exact hleave p bad
  | collect q Q P n next hq hdead hp hcode =>
    intro r R hR
    rw [Jobs.put_proc, Jobs.remove_proc] at hR
    split_ifs at hR
    · cases hR
      exact hwait P n next (h _ P hp) hcode
    · exact h r R hR
  | remove q Q hq hdead hp =>
    intro r R hR
    rw [Jobs.remove_proc] at hR
    split_ifs at hR
    exact h r R hR
  | leave p P hp hlive => exact hleave p _
  | use p P fds hp hprog hfds => exact hput p _ (huse P fds (h p P hp) hprog hfds)
  | spawn p P hp hprog =>
    intro q Q hQ
    rw [Jobs.add_proc] at hQ
    split_ifs at hQ
    · cases hQ
      exact hspawn P p (h p P hp) hprog
    · exact h q Q hQ

theorem wired_of_run (htree : tree.Standard) (hrun : Reach Jobs.step (Jobs.start tree) s) :
    ∀ p P, s.proc p = some P → Wired tree P := by
  refine hrun.invariant (fun s => ∀ p P, s.proc p = some P → Wired tree P) ?_ ?_
  · intro s m s' _ h hstep
    refine (Jobs.stepped hstep).all h (fun P alone ok e hP hact => hP.act htree hact) ?_ ?_ ?_ ?_ ?_
    · rintro P n next ⟨⟨cmd, w, hw, hfits⟩, hheld⟩ hcode
      refine ⟨⟨cmd, w, hw, ?_⟩, hheld.subset rfl (fun hs => ?_) fun fd ν b hfd => ⟨fd, hfd⟩⟩
      · cases next with simp only [hcode] at hfits
        | none => exact hfits
        | some right => exact hfits
      · simp [Proc.setup, hcode] at hs
    · rintro P ⟨⟨cmd, w, hw, -⟩, -⟩
      exact ⟨⟨cmd, w, hw, trivial⟩, fun _ _ _ hfd => by cases hfd⟩
    · exact fun P hP => hP
    · rintro P fds ⟨⟨cmd, w, hw, hfits⟩, hheld⟩ hprog hfds
      refine ⟨⟨cmd, w, hw, ?_⟩, hheld.subset rfl id fun fd ν b hfd => hfds fd _ hfd rfl⟩
      unfold Proc.isProgram at hprog
      cases hcode : P.code with simp only [hcode] at hprog hfits ⊢
      | program argv => exact hfits
      | _ => cases hprog
    · exact fun P p hP _ => hP
  · intro p P hp
    simp only [Jobs.start, Function.update_apply] at hp
    split_ifs at hp
    cases hp
    exact ⟨⟨tree, .given, rfl, rfl, rfl⟩, held_std (show wiring tree [] = _ from rfl) rfl⟩

/-! ## Lines that were parsed -/

theorem Cmd.standard_redirs {cmd : Cmd α} {rs : List (Redir α)} (h : cmd.Standard)
    (hrs : ∀ r ∈ rs, r.fd < 3) : (cmd.redirs rs).Standard := by
  induction rs generalizing cmd with
  | nil => exact h
  | cons r rs ih =>
    have hredir : (Cmd.redir cmd r).Standard := ⟨h, hrs r (List.mem_cons_self ..)⟩
    exact ih hredir fun r' hr' => hrs r' (List.mem_cons_of_mem _ hr')

theorem Cmd.standard_backs {cmd : Cmd α} (h : cmd.Standard) (n : ℕ) : (cmd.backs n).Standard := by
  induction n generalizing cmd with
  | zero => exact h
  | succ n ih =>
    have hback : (Cmd.back cmd).Standard := h
    exact ih hback

theorem Redirs.fd_lt {ts : List Token} {rs : List (Redir (List Char))} (h : Redirs ts rs) :
    ∀ r ∈ rs, r.fd < 3 := by
  induction h with
  | nil => exact fun r hr => absurd hr List.not_mem_nil
  | lt h ih | gt h ih | append h ih =>
    intro r hr
    rcases List.mem_cons.mp hr with rfl | hr
    · norm_num
    · exact ih r hr

theorem Args.fd_lt {ts : List Token} {ws : List (List Char)} {rs : List (Redir (List Char))}
    (h : Args ts ws rs) : ∀ r ∈ rs, r.fd < 3 := by
  induction h with
  | nil => exact fun r hr => absurd hr List.not_mem_nil
  | cons hr _ ih => exact fun r hmem => (List.mem_append.mp hmem).elim (hr.fd_lt r) (ih r)

theorem Derives.standard {g : Nonterminal} {ts : List Token} {tree : Cmd (List Char)}
    (h : Derives g ts tree) : tree.Standard := by
  induction h with
  | line n _ ih => exact Cmd.standard_backs ih n
  | seq n _ _ ih ih' => exact ⟨Cmd.standard_backs ih n, ih'⟩
  | single _ ih => exact ih
  | pipe _ _ ih ih' => exact ⟨ih, ih'⟩
  | block _ hr ih => exact Cmd.standard_redirs ih hr.fd_lt
  | exec hr ha _ =>
    refine Cmd.standard_redirs trivial fun r hmem => ?_
    exact (List.mem_append.mp hmem).elim (hr.fd_lt r) (ha.fd_lt r)

/-- The strings in the tree that `runcmd` gets, after `nulterminate`. -/
def lineTree (mem mem' : List Char) (cmd : Cmd Slice) : Cmd (List Char) :=
  cmd.map (Slice.read (cstring mem).length mem')

theorem lineTree_standard {mem mem' : List Char} {cmd : Cmd Slice}
    (h : parsecmd mem = .ok (cmd, mem')) : (lineTree mem mem' cmd).Standard := by
  have hexplains := parsecmd_explains mem
  rw [h] at hexplains
  obtain ⟨ts, -, hd⟩ := hexplains
  exact hd.standard

theorem Derives.word (w : List Char) : Derives .exec [.word w] (.exec [w]) :=
  .exec .nil (.cons .nil .nil) (by simp [MAXARGS])

/-- The line `a|b`. -/
theorem pipeline_parses : ∃ cmd mem', parsecmd "a|b".toList = .ok (cmd, mem') ∧
    lineTree "a|b".toList mem' cmd = .pipe (.exec [['a']]) (.exec [['b']]) := by
  have hlex : Lexes "a|b".toList [.word ['a'], .bar, .word ['b']] :=
    .word (w := ['a']) (s := ['|', 'b']) (by simp) (by simp [isWord, whitespace, symbols])
      (by simp [isWord, whitespace, symbols])
      (.symbol (by decide) (.word (w := ['b']) (s := []) (by simp)
        (by simp [isWord, whitespace, symbols]) (by simp) .nil))
  have hline : LineDerives (cstring "a|b".toList) (.pipe (.exec [['a']]) (.exec [['b']])) :=
    ⟨_, hlex, .line 0 (.pipe (.word _) (.single (.word _)))⟩
  exact hline.parsecmd

/-- Every program of the line belongs to a simple command of its tree, and when it starts it
has the descriptors 0, 1 and 2 which the tree gives to that command, and no others. -/
theorem programs_start_wired (mem mem' : List Char) (cmd : Cmd Slice)
    (hparse : parsecmd mem = .ok (cmd, mem')) (s : Jobs (List Char))
    (hrun : Reach Jobs.step (Jobs.start (lineTree mem mem' cmd)) s) (p : ℕ)
    (P : Proc (List Char)) (hp : s.proc p = some P) (argv : List (List Char)) :
    (P.code = .runcmd (.exec argv) →
      ∃ w, wiring (lineTree mem mem' cmd) P.node = some (.exec argv, w) ∧
        ∀ fd, P.fds fd = if fd < 3 then some (w fd) else none) ∧
    (P.code = .program argv →
      ∃ w, wiring (lineTree mem mem' cmd) P.node = some (.exec argv, w)) := by
  obtain ⟨⟨cmd', w, hw, hfits⟩, -⟩ := wired_of_run (lineTree_standard hparse) hrun p P hp
  constructor
  · intro hcode
    simp only [hcode] at hfits
    obtain ⟨rfl, hfds⟩ := hfits
    exact ⟨w, hw, fun fd => congrFun hfds fd⟩
  · intro hcode
    simp only [hcode] at hfits
    exact ⟨w, hfits ▸ hw⟩

/-- The first program of `a|b` is about to start. -/
theorem programs_start_wired_pipeline : ∃ cmd mem' s P,
    parsecmd "a|b".toList = .ok (cmd, mem') ∧
      Reach Jobs.step (Jobs.start (lineTree "a|b".toList mem' cmd)) s ∧
      s.proc 4 = some P ∧ P.code = .runcmd (.exec [['a']]) ∧
      ∃ w, wiring (lineTree "a|b".toList mem' cmd) P.node = some (.exec [['a']], w) ∧
        ∀ fd, P.fds fd = if fd < 3 then some (w fd) else none := by
  obtain ⟨cmd, mem', hparse, htree⟩ := pipeline_parses
  have hrun : (runAll Jobs.step (Jobs.start (.pipe (.exec [['a']]) (.exec [['b']])))
      [.run 3 true, .run 3 true, .run 4 true, .run 4 true, .run 4 true, .run 4 true,
        .run 4 true]).any (fun s =>
      (s.proc 4).any fun P => P.code = .runcmd (.exec [['a']])) = true := by
    decide +kernel
  obtain ⟨s, hs, hend⟩ := (Option.any_eq_true _ _).mp hrun
  obtain ⟨P, hP, hcode⟩ := (Option.any_eq_true _ _).mp hend
  have hreach : Reach Jobs.step (Jobs.start (lineTree "a|b".toList mem' cmd)) s := by
    rw [htree]
    exact reach_of_runAll hs
  refine ⟨cmd, mem', s, P, hparse, hreach, hP, of_decide_eq_true hcode, ?_⟩
  exact (programs_start_wired _ mem' cmd hparse s hreach 4 P hP [['a']]).1 (of_decide_eq_true hcode)

/-- An end of a pipe is held by processes on its side of the pipe, and for a moment by the
processes of the shell that stand at the pipe or right below it; these are between the making
of the pipe and their last `close`, and nothing keeps them from going on. So the readers see
the end of the input when the writers are gone. -/
theorem pipe_ends_are_closed (mem mem' : List Char) (cmd : Cmd Slice)
    (hparse : parsecmd mem = .ok (cmd, mem')) (s : Jobs (List Char))
    (hrun : Reach Jobs.step (Jobs.start (lineTree mem mem' cmd)) s) (p : ℕ)
    (P : Proc (List Char)) (hp : s.proc p = some P) (fd : ℕ) (ν : List Turn) (b : Bool)
    (hfd : P.fds fd = some (.pipe ν b)) :
    ν ++ [side b] <+: P.node ∨
      P.setup = true ∧ (P.node = ν ∨ ∃ t, P.node = ν ++ [t]) ∧
        ∀ alone ok, (P.act alone ok).isSome = true := by
  obtain ⟨-, hheld⟩ := wired_of_run (lineTree_standard hparse) hrun p P hp
  refine (hheld fd ν b hfd).imp_right fun hboth => ⟨hboth.1, hboth.2, fun alone ok => ?_⟩
  have hsetup := hboth.1
  unfold Proc.setup at hsetup
  cases hcode : P.code with simp only [hcode] at hsetup
  | forkLeft q left right => cases ok <;> simp [Proc.act, hcode]
  | forkRight q right => cases ok <;> simp [Proc.act, hcode]
  | calls cs next =>
    cases cs with
    | nil => cases next <;> simp [Proc.act, hcode]
    | cons c cs => simp [Proc.act, hcode]
  | _ => cases hsetup

/-- The process for the left side of `a|b` was forked; it has to close the end for reading. -/
theorem pipe_ends_are_closed_pipeline : ∃ cmd mem' s P,
    parsecmd "a|b".toList = .ok (cmd, mem') ∧
      Reach Jobs.step (Jobs.start (lineTree "a|b".toList mem' cmd)) s ∧
      s.proc 4 = some P ∧ P.fds 3 = some (.pipe [] false) ∧
      ([] ++ [side false] <+: P.node ∨
        P.setup = true ∧ (P.node = [] ∨ ∃ t, P.node = [] ++ [t]) ∧
          ∀ alone ok, (P.act alone ok).isSome = true) := by
  obtain ⟨cmd, mem', hparse, htree⟩ := pipeline_parses
  have hrun : (runAll Jobs.step (Jobs.start (.pipe (.exec [['a']]) (.exec [['b']])))
      [.run 3 true, .run 3 true]).any (fun s =>
      (s.proc 4).any fun P => P.fds 3 = some (.pipe [] false)) = true := by
    decide +kernel
  obtain ⟨s, hs, hend⟩ := (Option.any_eq_true _ _).mp hrun
  obtain ⟨P, hP, hfd⟩ := (Option.any_eq_true _ _).mp hend
  have hreach : Reach Jobs.step (Jobs.start (lineTree "a|b".toList mem' cmd)) s := by
    rw [htree]
    exact reach_of_runAll hs
  refine ⟨cmd, mem', s, P, hparse, hreach, hP, of_decide_eq_true hfd, ?_⟩
  exact pipe_ends_are_closed _ mem' cmd hparse s hreach 4 P hP 3 [] false (of_decide_eq_true hfd)

end XV6AndConcurrency.Shell
