import Mathlib.Tactic

/-!
# Stateful computations that may stop

A computation reads and writes a state and either returns a value or stops with
a fault, after which there is no state to speak of. `Ensures x Q s` is its
weakest precondition for total correctness: from `s` the computation returns,
and what it returns satisfies `Q`. Every specification below a panicking program
is stated with it, so a proved specification also says that no panic is reached.
-/

namespace XV6AndConcurrency.Foundations

variable {σ ε α β : Type}

/-- State passing over computations that may stop with a fault of type `ε`. -/
abbrev Stoppable (σ ε : Type) := StateT σ (Except ε)

/-- Stop with the fault `e`. -/
def stop (e : ε) : Stoppable σ ε α := fun _ => .error e

/-- Read a component of the state. -/
def look (g : σ → α) : Stoppable σ ε α := fun s => .ok (g s, s)

/-- From `s`, the computation `x` returns, and its value and final state satisfy `Q`. -/
def Ensures (x : Stoppable σ ε α) (Q : α → σ → Prop) (s : σ) : Prop :=
  ∃ a s', x s = .ok (a, s') ∧ Q a s'

namespace Ensures

variable {x : Stoppable σ ε α} {f : α → Stoppable σ ε β} {s : σ}

theorem mono {Q R : α → σ → Prop} (h : Ensures x Q s) (hQR : ∀ a s', Q a s' → R a s') :
    Ensures x R s := by
  obtain ⟨a, s', hx, hq⟩ := h
  exact ⟨a, s', hx, hQR a s' hq⟩

theorem of_pure {a : α} {Q : α → σ → Prop} (h : Q a s) :
    Ensures (pure a : Stoppable σ ε α) Q s :=
  ⟨a, s, rfl, h⟩

/-- Sequencing: the first part establishes what the second part needs. -/
theorem bind {P : α → σ → Prop} {Q : β → σ → Prop} (hx : Ensures x P s)
    (hf : ∀ a s', P a s' → Ensures (f a) Q s') : Ensures (x >>= f) Q s := by
  obtain ⟨a, s', hx, hp⟩ := hx
  obtain ⟨b, s'', hb, hq⟩ := hf a s' hp
  refine ⟨b, s'', ?_, hq⟩
  change (x s >>= fun p => f p.1 p.2) = _
  rw [hx]
  exact hb

/-- A first part whose outcome is known is executed in place. -/
theorem bind_of_run {a : α} {t : σ} {Q : β → σ → Prop} (hx : x s = .ok (a, t))
    (hf : Ensures (f a) Q t) : Ensures (x >>= f) Q s :=
  bind (P := fun b u => b = a ∧ u = t) ⟨a, t, hx, rfl, rfl⟩ (by rintro _ _ ⟨rfl, rfl⟩; exact hf)

theorem of_run {a : α} {t : σ} {Q : α → σ → Prop} (hx : x s = .ok (a, t)) (h : Q a t) :
    Ensures x Q s :=
  ⟨a, t, hx, h⟩

theorem modify_bind {g : σ → σ} {f : PUnit → Stoppable σ ε β} {Q : β → σ → Prop}
    (h : Ensures (f ⟨⟩) Q (g s)) : Ensures (modify g >>= f) Q s :=
  bind_of_run rfl h

theorem look_bind {g : σ → α} {Q : β → σ → Prop} (h : Ensures (f (g s)) Q s) :
    Ensures (look g >>= f) Q s :=
  bind_of_run rfl h

theorem of_modify {g : σ → σ} {Q : PUnit → σ → Prop} (h : Q ⟨⟩ (g s)) :
    Ensures (modify g : Stoppable σ ε PUnit) Q s :=
  ⟨⟨⟩, g s, rfl, h⟩

/-- The loop `for (i = 0; i < n; i++)`, with the invariant at the start of every round. -/
theorem forM_range {body : ℕ → Stoppable σ ε PUnit} {I : ℕ → σ → Prop} {n : ℕ} (hinit : I 0 s)
    (hstep : ∀ k < n, ∀ t, I k t → Ensures (body k) (fun _ t' => I (k + 1) t') t) :
    Ensures ((List.range n).forM body) (fun _ t => I n t) s := by
  induction n with
  | zero => exact of_pure hinit
  | succ n ih =>
    have hlast : (List.range (n + 1)).forM body =
        ((List.range n).forM body >>= fun _ => body n) := by
      rw [List.range_succ]
      simp [List.forM_append]
    rw [hlast]
    exact (ih fun k hk => hstep k (Nat.lt_succ_of_lt hk)).bind fun _ t ht =>
      hstep n n.lt_succ_self t ht

/-- Two outcomes of one run agree. -/
theorem unique {a : α} {s' : σ} {Q : α → σ → Prop} (h : Ensures x Q s)
    (hx : x s = .ok (a, s')) : Q a s' := by
  obtain ⟨b, t, hb, hq⟩ := h
  rw [hx] at hb
  cases hb
  exact hq

theorem and {Q R : α → σ → Prop} (hq : Ensures x Q s) (hr : Ensures x R s) :
    Ensures x (fun a s' => Q a s' ∧ R a s') s := by
  obtain ⟨a, s', hx, h⟩ := hq
  exact ⟨a, s', hx, h, hr.unique hx⟩

end Ensures

@[simp] theorem bind_run (x : Stoppable σ ε α) (f : α → Stoppable σ ε β) (s : σ) :
    (x >>= f) s = (x s >>= fun p => f p.1 p.2) := rfl

@[simp] theorem map_run (f : α → β) (x : Stoppable σ ε α) (s : σ) :
    (f <$> x) s = (x s >>= fun p => .ok (f p.1, p.2)) := rfl

@[simp] theorem pure_run (a : α) (s : σ) :
    (pure a : Stoppable σ ε α) s = .ok (a, s) := rfl

@[simp] theorem stop_run (e : ε) (s : σ) : (stop e : Stoppable σ ε α) s = .error e := rfl

@[simp] theorem modify_run (g : σ → σ) (s : σ) :
    (modify g : Stoppable σ ε PUnit) s = .ok (⟨⟩, g s) := rfl

@[simp] theorem look_run (g : σ → α) (s : σ) :
    (look g : Stoppable σ ε α) s = .ok (g s, s) := rfl

@[simp] theorem ok_bind (a : α) (f : α → Except ε β) : (Except.ok a >>= f) = f a := rfl

@[simp] theorem error_bind (e : ε) (f : α → Except ε β) : (Except.error e >>= f) = .error e := rfl

end XV6AndConcurrency.Foundations
