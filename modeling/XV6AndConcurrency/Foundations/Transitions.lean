import Mathlib.Logic.Relation
import Mathlib.Tactic

/-!
# Transition systems

A system is a partial step function: `step s a` is the state after the action `a`,
or `none` where `a` cannot happen. A run may be restricted to actions that meet a
condition on the state they are taken in.
-/

namespace XV6AndConcurrency.Foundations

variable {σ α : Type*}

/-- The states that runs reach whose actions all meet the condition `ok`. -/
def ReachOf (step : σ → α → Option σ) (ok : σ → α → Prop) : σ → σ → Prop :=
  Relation.ReflTransGen fun s s' => ∃ a, ok s a ∧ step s a = some s'

/-- The states that any run reaches. -/
def Reach (step : σ → α → Option σ) : σ → σ → Prop := ReachOf step fun _ _ => True

variable {step : σ → α → Option σ} {ok : σ → α → Prop} {s s' s'' : σ} {a : α}

namespace ReachOf

theorem refl (s : σ) : ReachOf step ok s s := Relation.ReflTransGen.refl

theorem trans (h : ReachOf step ok s s') (h' : ReachOf step ok s' s'') : ReachOf step ok s s'' :=
  Relation.ReflTransGen.trans h h'

theorem single (hok : ok s a) (h : step s a = some s') : ReachOf step ok s s' :=
  Relation.ReflTransGen.single ⟨a, hok, h⟩

/-- What every allowed step keeps, every allowed run keeps. -/
theorem invariant (I : σ → Prop) (hstep : ∀ s a s', ok s a → I s → step s a = some s' → I s')
    (hinit : I s) (h : ReachOf step ok s s') : I s' := by
  induction h with
  | refl => exact hinit
  | tail _ hlast ih =>
    obtain ⟨a, hok, hs⟩ := hlast
    exact hstep _ a _ hok ih hs

/-- A loop of the system: `n` rounds lead from the first state to the last. -/
theorem iterate {f : ℕ → σ} {n : ℕ} (h : ∀ k < n, ReachOf step ok (f k) (f (k + 1))) :
    ReachOf step ok (f 0) (f n) := by
  induction n with
  | zero => exact refl _
  | succ n ih => exact (ih fun k hk => h k (Nat.lt_succ_of_lt hk)).trans (h n n.lt_succ_self)

end ReachOf

/-- The state after a list of actions. -/
def runAll (step : σ → α → Option σ) : σ → List α → Option σ
  | s, [] => some s
  | s, a :: l => (step s a).bind fun s' => runAll step s' l

/-- A run that checks the condition on the way. -/
theorem reachOf_of_runAll [∀ s a, Decidable (ok s a)] {l : List α}
    (h : runAll (fun s a => if ok s a then step s a else none) s l = some s') :
    ReachOf step ok s s' := by
  induction l generalizing s with
  | nil =>
    cases h
    exact ReachOf.refl _
  | cons a l ih =>
    obtain ⟨t, ht, hrest⟩ := Option.bind_eq_some_iff.mp h
    dsimp only at ht
    split_ifs at ht with hok
    exact (ReachOf.single hok ht).trans (ih hrest)

theorem reach_of_runAll {l : List α} (h : runAll step s l = some s') : Reach step s s' := by
  refine reachOf_of_runAll (l := l) ?_
  simpa only [if_true] using h

end XV6AndConcurrency.Foundations
