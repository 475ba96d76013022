import XV6AndConcurrency.Foundations.Transitions
import XV6AndConcurrency.Shell.Jobs

/-!
# The wiring of a command line

What the tree of a line says about the descriptors of its parts, and that the processes of
`runcmd` have exactly these when they turn into programs. No process keeps an end of a pipe
that is not its own.
-/

namespace XV6AndConcurrency.Shell

open Foundations FileSystem

variable {α : Type*}

/-! ## What a tree says -/

/-- What is right below a node, with what it has as 0, 1 and 2. -/
def below (here : List Turn) : Cmd α → (ℕ → Handle α) → Turn → Option (Cmd α × (ℕ → Handle α))
  | .redir cmd r, w, .inner => some (cmd, Function.update w r.fd (.file r.file r.mode))
  | .pipe left _, w, .left => some (left, Function.update w 1 (.pipe here true))
  | .pipe _ right, w, .right => some (right, Function.update w 0 (.pipe here false))
  | .list left _, w, .left => some (left, w)
  | .list _ right, w, .right => some (right, w)
  | .back cmd, w, .inner => some (cmd, w)
  | _, _, _ => none

def placed (here : List Turn) (cmd : Cmd α) (w : ℕ → Handle α) :
    List Turn → Option (Cmd α × (ℕ → Handle α))
  | [] => some (cmd, w)
  | t :: n => (below here cmd w t).bind fun x => placed (here ++ [t]) x.1 x.2 n

/-- The part of a line at a node, and its wiring. -/
def wiring (tree : Cmd α) (n : List Turn) : Option (Cmd α × (ℕ → Handle α)) :=
  placed [] tree .given n

/-- Only 0, 1 and 2 are redirected. -/
def Cmd.Standard : Cmd α → Prop
  | .exec _ => True
  | .redir cmd r => cmd.Standard ∧ r.fd < 3
  | .pipe left right | .list left right => left.Standard ∧ right.Standard
  | .back cmd => cmd.Standard

theorem placed_snoc {here n : List Turn} {cmd : Cmd α} {w : ℕ → Handle α} {t : Turn} :
    placed here cmd w (n ++ [t]) =
      (placed here cmd w n).bind fun x => below (here ++ n) x.1 x.2 t := by
  induction n generalizing here cmd w with
  | nil =>
    rw [List.append_nil]
    show (below here cmd w t).bind (fun x => some x) = below here cmd w t
    cases below here cmd w t <;> rfl
  | cons u n ih =>
    cases hb : below here cmd w u with
    | none => simp [placed, hb]
    | some x => simp [placed, hb, ih]

theorem wiring_snoc {tree cmd : Cmd α} {n : List Turn} {w : ℕ → Handle α} {t : Turn}
    (h : wiring tree n = some (cmd, w)) : wiring tree (n ++ [t]) = below n cmd w t := by
  rw [wiring, placed_snoc]
  unfold wiring at h
  rw [h]
  rfl

theorem wiring_snoc_eq_some {tree cmd : Cmd α} {n : List Turn} {w : ℕ → Handle α} {t : Turn}
    (h : wiring tree (n ++ [t]) = some (cmd, w)) :
    ∃ c v, wiring tree n = some (c, v) ∧ below n c v t = some (cmd, w) := by
  rw [wiring, placed_snoc] at h
  obtain ⟨⟨c, v⟩, hn, hb⟩ := Option.bind_eq_some_iff.mp h
  exact ⟨c, v, hn, hb⟩

theorem below_standard {here : List Turn} {c cmd : Cmd α} {v w : ℕ → Handle α} {t : Turn}
    (h : below here c v t = some (cmd, w)) (hc : c.Standard) : cmd.Standard := by
  cases c <;> cases t <;> simp only [below, reduceCtorEq, Option.some.injEq, Prod.mk.injEq] at h
  all_goals obtain ⟨rfl, -⟩ := h
  all_goals simp_all [Cmd.Standard]

theorem wiring_standard {tree cmd : Cmd α} {n : List Turn} {w : ℕ → Handle α}
    (htree : tree.Standard) (h : wiring tree n = some (cmd, w)) : cmd.Standard := by
  induction n using List.reverseRecOn generalizing cmd w with
  | nil =>
    cases h
    exact htree
  | append_singleton n t ih =>
    obtain ⟨c, v, hn, hb⟩ := wiring_snoc_eq_some h
    exact below_standard hb (ih hn)

/-- The side of a pipe that an end belongs to. -/
def side (b : Bool) : Turn := if b then .left else .right

/-- An end of a pipe is given to the parts on its side only. -/
theorem wiring_pipe {tree cmd : Cmd α} {n ν : List Turn} {w : ℕ → Handle α} {fd : ℕ} {b : Bool}
    (h : wiring tree n = some (cmd, w)) (hw : w fd = .pipe ν b) : ν ++ [side b] <+: n := by
  induction n using List.reverseRecOn generalizing cmd w with
  | nil =>
    cases h
    cases hw
  | append_singleton n t ih =>
    obtain ⟨c, v, hn, hb⟩ := wiring_snoc_eq_some h
    have hold : v fd = .pipe ν b → ν ++ [side b] <+: n ++ [t] := fun hv =>
      (ih hn hv).trans (List.prefix_append _ _)
    cases c <;> cases t <;>
      simp only [below, reduceCtorEq, Option.some.injEq, Prod.mk.injEq] at hb
    all_goals obtain ⟨-, rfl⟩ := hb
    -- the wiring is the one above, but for what a redirection or a pipe has put there
    all_goals
      first
      | exact hold hw
      | rw [Function.update_apply] at hw
        split_ifs at hw
        all_goals first | exact hold hw | (cases hw; exact List.prefix_rfl)

/-! ## Descriptors -/

/-- The descriptors behind `pipe(p)`. -/
def piped (w : ℕ → Handle α) (node : List Turn) : Fds α :=
  Function.update (Function.update (std w) 3 (some (.pipe node false))) 4
    (some (.pipe node true))

theorem pipe_std (w : ℕ → Handle α) (node : List Turn) :
    Fds.pipe (std w) node = some (piped w node, 3, 4) := rfl

theorem openAs_std (w : ℕ → Handle α) (h : Handle α) {fd : ℕ} (hfd : fd < 3) :
    Fds.openAs (Function.update (std w) fd none) h = some (std (Function.update w fd h)) := by
  have halloc : Fds.fdalloc (Function.update (std w) fd none) = some fd := by
    interval_cases fd <;> rfl
  rw [Fds.openAs, halloc, Option.map_some, Function.update_idem]
  refine congrArg some (funext fun i => ?_)
  simp only [std, Function.update_apply]
  split_ifs with h1 h2
  · rfl
  · omega
  · rfl
  · rfl

theorem left_calls (w : ℕ → Handle α) (node : List Turn) :
    [Call.close 1, .dup 4, .close 3, .close 4].foldl Call.run (piped w node) =
      std (Function.update w 1 (.pipe node true)) := by
  have hrun : [Call.close 1, .dup 4, .close 3, .close 4].foldl Call.run (piped w node) =
      Function.update (Function.update (Function.update (Function.update (piped w node) 1 none) 1
        (some (.pipe node true))) 3 none) 4 none := rfl
  rw [hrun]
  funext i
  simp only [std, piped, Function.update_apply]
  split_ifs <;> first | rfl | omega

theorem right_calls (w : ℕ → Handle α) (node : List Turn) :
    [Call.close 0, .dup 3, .close 3, .close 4].foldl Call.run (piped w node) =
      std (Function.update w 0 (.pipe node false)) := by
  have hrun : [Call.close 0, .dup 3, .close 3, .close 4].foldl Call.run (piped w node) =
      Function.update (Function.update (Function.update (Function.update (piped w node) 0 none) 0
        (some (.pipe node false))) 3 none) 4 none := rfl
  rw [hrun]
  funext i
  simp only [std, piped, Function.update_apply]
  split_ifs <;> first | rfl | omega

theorem close_piped (w : ℕ → Handle α) (node : List Turn) :
    [Call.close 3, .close 4].foldl Call.run (piped w node) = std w := by
  funext i
  simp only [List.foldl, Call.run, Fds.close, std, piped, Function.update_apply]
  split_ifs <;> first | rfl | omega

/-- Closing and duplicating bring nothing new. -/
theorem Call.run_subset {t : Fds α} {c : Call} {fd : ℕ} {h : Handle α}
    (hrun : c.run t fd = some h) : ∃ fd', t fd' = some h := by
  cases c with
  | close i =>
    simp only [Call.run, Fds.close, Function.update_apply] at hrun
    split_ifs at hrun
    exact ⟨fd, hrun⟩
  | dup i =>
    cases hi : t i with
    | none =>
      simp only [Call.run, Fds.dup, hi] at hrun
      exact ⟨fd, hrun⟩
    | some h' =>
      cases hn : Fds.fdalloc t with simp only [Call.run, Fds.dup, hi, hn] at hrun
      | none => exact ⟨fd, hrun⟩
      | some n =>
        rw [Function.update_apply] at hrun
        split_ifs at hrun
        · exact ⟨i, hi.trans hrun⟩
        · exact ⟨fd, hrun⟩

theorem piped_pipe {w : ℕ → Handle α} {node ν : List Turn} {fd : ℕ} {b : Bool}
    (h : piped w node fd = some (.pipe ν b)) : ν = node ∨ std w fd = some (.pipe ν b) := by
  simp only [piped, Function.update_apply] at h
  split_ifs at h
  · cases h
    exact .inl rfl
  · cases h
    exact .inl rfl
  · exact .inr h

theorem std_eq_some {w : ℕ → Handle α} {fd : ℕ} {h : Handle α} (hstd : std w fd = some h) :
    w fd = h := by
  unfold std at hstd
  split_ifs at hstd
  exact Option.some.inj hstd

end XV6AndConcurrency.Shell
