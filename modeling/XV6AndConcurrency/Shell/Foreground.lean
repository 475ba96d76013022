import XV6AndConcurrency.Shell.Plumbing

/-!
# Foreground and background

`runcmd` waits for the processes it forks, except for those behind a `&`. Unless a `fork`
fails or a process is killed in `runcmd`, a list runs its second part when all of the first that is
not behind a `&` has ended, and so does the shell go on when the line has ended.
-/

namespace XV6AndConcurrency.Shell

open Foundations

variable {α : Type*} {tree : Cmd α} {P P' Q : Proc α} {s s' : Jobs α} {p q : ℕ} {t : Turn}
  {alone ok bad : Bool} {code : Code α} {n n' ν : List Turn}

/-- From `ν` on down to `n` there is a `&`. -/
def Behind (tree : Cmd α) (ν n : List Turn) : Prop :=
  ∃ μ t cmd w, wiring tree μ = some (.back cmd, w) ∧ ν <+: μ ∧ μ ++ [t] <+: n

theorem Behind.mono (h : Behind tree ν n) (hn : n <+: n') : Behind tree ν n' := by
  obtain ⟨μ, t, cmd, w, hback, hle, hpre⟩ := h
  exact ⟨μ, t, cmd, w, hback, hle, hpre.trans hn⟩

/-! ## One process -/

namespace Proc

/-- The forks that a process has done where it stands. -/
def forked (P : Proc α) (t : Turn) : Bool :=
  match P.code with
  | .forkRight .. | .wait _ (some _) => t = .left
  | .calls _ none | .wait _ none => t ≠ .inner
  | .exit => t = .inner
  | _ => false

/-- How often the process is going to call `wait` for the children it has. -/
def waits (P : Proc α) : ℕ :=
  match P.code with
  | .forkRight .. => 1
  | .calls _ none => 2
  | .wait n _ => n
  | _ => 0

/-- The process has children that it does not wait for. -/
def aside (P : Proc α) : Bool :=
  match P.code with
  | .exit | .program _ => true
  | _ => false

/-- What a process keeps while it goes on. -/
structure Keeps (P P' : Proc α) : Prop where
  parent : P'.parent = P.parent
  start : P'.start = P.start
  front : P'.front = P.front
  own : P'.own = P.own
  live : P'.live = true

theorem aside_of_isProgram (h : P.isProgram = true) : P.aside = true := by
  unfold isProgram at h
  unfold aside
  split at h
  · next argv hcode => simp [hcode]
  · cases h

theorem act_go (h : P.act alone ok = some (.go P')) :
    P.Keeps P' ∧ P.live = true ∧ P.aside = false ∧
      (P'.node = P.node ∧ P'.forked = P.forked ∧ (P'.waits = P.waits ∨ alone = true) ∨
        ∃ t, t ≠ .left ∧ P'.node = P.node ++ [t] ∧ P.waits = 0 ∧ P.forked t = false ∧
          ∀ t', P'.forked t' = false) := by
  unfold act at h
  split at h
  case h_1 argv hcode =>
    split_ifs at h
    · cases h
    · cases h
      refine ⟨⟨rfl, rfl, rfl, rfl, rfl⟩, by simp [live, hcode], by simp [aside, hcode], .inl ?_⟩
      exact ⟨rfl, by funext t; simp [forked, hcode, goto], .inl (by simp [waits, hcode, goto])⟩
  case h_2 cmd r hcode =>
    cases h
    refine ⟨⟨rfl, rfl, rfl, rfl, rfl⟩, by simp [live, hcode], by simp [aside, hcode], .inl ?_⟩
    exact ⟨rfl, by funext t; simp [forked, hcode, goto], .inl (by simp [waits, hcode, goto])⟩
  case h_3 r cmd hcode =>
    split at h
    · split_ifs at h
      · cases h
        refine ⟨⟨rfl, rfl, rfl, rfl, rfl⟩, by simp [live, hcode], by simp [aside, hcode], .inr ?_⟩
        exact ⟨.inner, by decide, rfl, by simp [waits, hcode], by simp [forked, hcode],
          fun _ => rfl⟩
      · cases h
    · cases h
  case h_4 left right hcode => split_ifs at h <;> cases h
  case h_5 left right hcode =>
    split at h
    · split_ifs at h
      · cases h
        refine ⟨⟨rfl, rfl, rfl, rfl, rfl⟩, by simp [live, hcode], by simp [aside, hcode], .inl ?_⟩
        exact ⟨rfl, by funext t; simp [forked, hcode, goto], .inl (by simp [waits, hcode, goto])⟩
      · cases h
    · cases h
  case h_6 => split_ifs at h <;> cases h
  case h_7 => split_ifs at h <;> cases h
  case h_8 => split_ifs at h <;> cases h
  case h_9 c cs next hcode =>
    cases h
    refine ⟨⟨rfl, rfl, rfl, rfl, rfl⟩, by simp [live, hcode], by simp [aside, hcode], .inl ?_⟩
    refine ⟨rfl, ?_, .inl ?_⟩
    · funext t
      cases next <;> simp [forked, hcode, goto]
    · cases next <;> simp [waits, hcode, goto]
  case h_10 cmd hcode =>
    cases h
    refine ⟨⟨rfl, rfl, rfl, rfl, rfl⟩, by simp [live, hcode], by simp [aside, hcode], .inl ?_⟩
    exact ⟨rfl, by funext t; simp [forked, hcode, goto], .inl (by simp [waits, hcode, goto])⟩
  case h_11 hcode =>
    cases h
    refine ⟨⟨rfl, rfl, rfl, rfl, rfl⟩, by simp [live, hcode], by simp [aside, hcode], .inl ?_⟩
    exact ⟨rfl, by funext t; simp [forked, hcode, goto], .inl (by simp [waits, hcode, goto])⟩
  case h_12 n next hcode =>
    split_ifs at h with halone
    cases h
    refine ⟨⟨rfl, rfl, rfl, rfl, rfl⟩, by simp [live, hcode], by simp [aside, hcode], .inl ?_⟩
    refine ⟨rfl, ?_, .inr halone⟩
    funext t
    cases next <;> simp [forked, hcode, goto]
  case h_13 cmd hcode =>
    cases h
    refine ⟨⟨rfl, rfl, rfl, rfl, rfl⟩, by simp [live, hcode], by simp [aside, hcode], .inr ?_⟩
    exact ⟨.right, by decide, rfl, by simp [waits, hcode], by simp [forked, hcode], fun _ => rfl⟩
  all_goals cases h

theorem act_fork (h : P.act alone ok = some (.fork P' t code)) :
    P.Keeps P' ∧ P.live = true ∧ P'.node = P.node ∧ P.forked t = false ∧
      (∀ t', P.forked t' = true ∨ t' = t → P'.forked t' = true) ∧
      P'.waits = P.waits + (if t = .inner then 0 else 1) ∧
      (t = .left → ∀ t', P.forked t' = false) ∧
      (t = .right → ∃ p right, P.code = .forkRight p right) ∧
      (t = .inner → P'.aside = true ∧ ∃ cmd, P.code = .runcmd (.back cmd)) ∧
      P.aside = false ∧ ∀ p, (P.child p t code).live = true ∧
        ∀ t', (P.child p t code).forked t' = false := by
  unfold act at h
  split at h
  case h_4 left right hcode =>
    split_ifs at h
    · cases h
      refine ⟨⟨rfl, rfl, rfl, rfl, rfl⟩, by simp [live, hcode], rfl, by simp [forked, hcode], ?_,
        by simp [waits, hcode, goto], fun _ t' => by simp [forked, hcode],
        fun ht => (by cases ht), fun ht => (by cases ht), by simp [aside, hcode],
        fun p => ⟨rfl, fun _ => rfl⟩⟩
      intro t'
      simp [forked, hcode, goto]
    · cases h
  case h_6 q left right hcode =>
    split_ifs at h
    · cases h
      refine ⟨⟨rfl, rfl, rfl, rfl, rfl⟩, by simp [live, hcode], rfl, by simp [forked, hcode], ?_,
        by simp [waits, hcode, goto], fun _ t' => by simp [forked, hcode],
        fun ht => (by cases ht), fun ht => (by cases ht), by simp [aside, hcode],
        fun p => ⟨rfl, fun _ => rfl⟩⟩
      intro t'
      simp [forked, hcode, goto]
    · cases h
  case h_7 q right hcode =>
    split_ifs at h
    · cases h
      refine ⟨⟨rfl, rfl, rfl, rfl, rfl⟩, by simp [live, hcode], rfl, by simp [forked, hcode], ?_,
        by simp [waits, hcode, goto], fun ht => (by cases ht), fun _ => ⟨q, right, hcode⟩,
        fun ht => (by cases ht), by simp [aside, hcode], fun p => ⟨rfl, fun _ => rfl⟩⟩
      rintro t' (ht' | rfl)
      · have hleft : t' = .left := by simpa [forked, hcode] using ht'
        rw [hleft]
        rfl
      · rfl
    · cases h
  case h_8 cmd hcode =>
    split_ifs at h
    · cases h
      refine ⟨⟨rfl, rfl, rfl, rfl, rfl⟩, by simp [live, hcode], rfl, by simp [forked, hcode], ?_,
        by simp [waits, hcode, goto], fun ht => (by cases ht), fun ht => (by cases ht),
        fun _ => ⟨rfl, cmd, hcode⟩, by simp [aside, hcode], fun p => ⟨rfl, fun _ => rfl⟩⟩
      intro t'
      simp [forked, hcode, goto]
    · cases h
  all_goals
    try split at h
    all_goals try split_ifs at h
    all_goals cases h

theorem live_of_act {e : Effect α} (h : P.act alone ok = some e) : P.live = true := by
  cases hcode : P.code with
  | zombie => simp [act, hcode] at h
  | _ => simp [live, hcode]

theorem act_leave (h : P.act alone ok = some (.leave bad)) (hbad : bad = false) : P.waits = 0 := by
  subst hbad
  cases hcode : P.code with
  | forkRight q right =>
    simp only [act, hcode] at h
    split_ifs at h <;> cases h
  | calls cs next =>
    cases cs with
    | nil => cases next <;> simp [act, hcode] at h
    | cons c cs => simp [act, hcode] at h
  | wait n next =>
    cases n with
    | zero => simp [waits, hcode]
    | succ n =>
      simp only [act, hcode] at h
      split_ifs at h
      cases h
  | _ => simp [waits, hcode]

end Proc

/-! ## Children -/

namespace Jobs

/-- The process `q` is a child of `p` that is waited for. -/
def kid (s : Jobs α) (p q : ℕ) : Bool := (s.proc q).any fun Q => Q.parent = p && Q.front

def kids (s : Jobs α) (p : ℕ) : ℕ := ((Finset.range s.next).filter fun q => s.kid p q).card

theorem kid_iff : s.kid p q = true ↔ ∃ Q, s.proc q = some Q ∧ Q.parent = p ∧ Q.front = true := by
  simp [kid, Option.any_eq_true]

theorem kids_eq_zero (h : s.kids p = 0) (hq : s.proc q = some Q) (hlt : q < s.next)
    (hfront : Q.front = true) : Q.parent ≠ p := by
  intro hparent
  have hempty := Finset.card_eq_zero.mp h
  have hmem : q ∈ (Finset.range s.next).filter fun q => s.kid p q :=
    Finset.mem_filter.mpr ⟨Finset.mem_range.mpr hlt, kid_iff.mpr ⟨Q, hq, hparent, hfront⟩⟩
  rw [hempty] at hmem
  exact Finset.notMem_empty q hmem

theorem kids_le (hnext : s'.next = s.next) (h : ∀ q, s'.kid p q = true → s.kid p q = true) :
    s'.kids p ≤ s.kids p := by
  refine Finset.card_le_card fun q hq => ?_
  rw [Finset.mem_filter] at hq ⊢
  exact ⟨hnext ▸ hq.1, h q hq.2⟩

theorem kids_of_alone (h : s.alone p = true) : s.kids p = 0 := by
  refine Finset.card_eq_zero.mpr (Finset.filter_eq_empty_iff.mpr fun q hq hkid => ?_)
  obtain ⟨Q, hQ, hparent, -⟩ := kid_iff.mp hkid
  have hall := List.all_eq_true.mp h q (List.mem_range.mpr (Finset.mem_range.mp hq))
  rw [hQ] at hall
  exact of_decide_eq_true hall hparent

theorem kids_add :
    (s.add Q).kids p = s.kids p + if Q.parent = p ∧ Q.front = true then 1 else 0 := by
  have hold : ∀ q ∈ Finset.range s.next, ((s.add Q).kid p q = true ↔ s.kid p q = true) := by
    intro q hq
    rw [kid_iff, kid_iff, add_proc, if_neg (Finset.mem_range.mp hq).ne]
  have hnew : (s.add Q).kid p s.next = true ↔ Q.parent = p ∧ Q.front = true := by
    rw [kid_iff, add_proc, if_pos rfl]
    simp
  show ((Finset.range (s.next + 1)).filter _).card = _
  rw [Finset.range_add_one, Finset.filter_insert, Finset.filter_congr hold]
  split_ifs with h h' h'
  · exact Finset.card_insert_of_notMem (by simp)
  · exact absurd (hnew.mp h) h'
  · exact absurd (hnew.mpr h') h
  · rfl

theorem kids_remove (hq : s.proc q = some Q) (hlt : q < s.next) (hparent : Q.parent = p)
    (hfront : Q.front = true) : (s.remove q).kids p + 1 = s.kids p := by
  have heq : (Finset.range s.next).filter (fun r => (s.remove q).kid p r) =
      ((Finset.range s.next).filter fun r => s.kid p r).erase q := by
    ext r
    simp only [Finset.mem_filter, Finset.mem_erase, kid_iff, remove_proc]
    by_cases hr : r = q
    · simp [hr]
    · simp [hr]
  have hmem : q ∈ (Finset.range s.next).filter fun r => s.kid p r :=
    Finset.mem_filter.mpr ⟨Finset.mem_range.mpr hlt, kid_iff.mpr ⟨Q, hq, hparent, hfront⟩⟩
  show ((Finset.range s.next).filter _).card + 1 = _
  rw [heq]
  exact Finset.card_erase_add_one hmem

end Jobs

/-! ## The invariant -/

structure Tended (tree : Cmd α) (s : Jobs α) : Prop where
  wired : ∀ p P, s.proc p = some P → Wired tree P
  pids : ∀ p P, s.proc p = some P → linePid ≤ p ∧ p < s.next
  older : ∀ p P, s.proc p = some P → P.parent < p
  root : ∀ P, s.proc linePid = some P → P.start = []
  /-- From where it was forked a process only goes on into redirections and to the right. -/
  slides : ∀ p P, s.proc p = some P → ∃ rest, P.node = P.start ++ rest ∧ .left ∉ rest
  forks : ∀ p P, s.proc p = some P → P.own = true → p ≠ linePid → ∃ ν t, P.start = ν ++ [t] ∧
    (P.front = false → ∃ cmd w, wiring tree ν = some (.back cmd, w))
  owned : ∀ p P, s.proc p = some P → P.live = true → P.own = true ∨ P.isProgram = true
  one : ∀ p P q Q, s.proc p = some P → s.proc q = some Q → P.own = true → Q.own = true →
    P.live = true → Q.live = true → P.node = Q.node → p = q
  /-- Nobody has been where a process has not forked yet. -/
  fresh : ∀ p P q Q t, s.proc p = some P → s.proc q = some Q → P.own = true → P.live = true →
    P.node ++ [t] <+: Q.node → P.forked t = true
  aside : ∀ p P q Q, s.proc p = some P → s.proc q = some Q → Q.parent = p → Q.front = false →
    P.aside = true
  tended : s.failed = false → ∀ q Q, s.proc q = some Q → Q.front = true → q ≠ linePid →
    ∃ P t, s.proc Q.parent = some P ∧ P.live = true ∧ P.own = true ∧ Q.start = P.node ++ [t]
  count : s.failed = false → ∀ p P, s.proc p = some P → P.live = true → s.kids p ≤ P.waits
  /-- While there is a process in the right part of a list, those that are left in the left
  part are behind a `&`. -/
  ordered : s.failed = false → ∀ ν left right w, wiring tree ν = some (.list left right, w) →
    ∀ p P q Q, s.proc p = some P → s.proc q = some Q → Q.own = true → Q.live = true →
      ν ++ [.right] <+: P.node → ν ++ [.left] <+: Q.node → Behind tree (ν ++ [.left]) Q.node

/-- A step in which nobody moves on in the tree and nobody is born. -/
structure Later (s s' : Jobs α) : Prop where
  next : s'.next = s.next
  failed : s'.failed = false → s.failed = false
  proc : ∀ q Q', s'.proc q = some Q' → ∃ Q, s.proc q = some Q ∧ Q'.start = Q.start ∧
    Q'.front = Q.front ∧ Q'.own = Q.own ∧ Q'.node = Q.node ∧
    (Q'.parent = Q.parent ∨ Q'.parent = initPid) ∧
    (Q'.live = true → Q.live = true ∧ ∀ t, Q.forked t = true → Q'.forked t = true)

theorem Tended.later (h : Tended tree s) (hl : Later s s')
    (hwired : ∀ p P, s'.proc p = some P → Wired tree P)
    (howned : ∀ p P, s'.proc p = some P → P.live = true → P.own = true ∨ P.isProgram = true)
    (haside : ∀ p P q Q, s'.proc p = some P → s'.proc q = some Q → Q.parent = p →
      Q.front = false → P.aside = true)
    (htended : s'.failed = false → ∀ q Q, s'.proc q = some Q → Q.front = true → q ≠ linePid →
      ∃ P t, s'.proc Q.parent = some P ∧ P.live = true ∧ P.own = true ∧ Q.start = P.node ++ [t])
    (hcount : s'.failed = false → ∀ p P, s'.proc p = some P → P.live = true →
      s'.kids p ≤ P.waits) : Tended tree s' where
  wired := hwired
  owned := howned
  aside := haside
  tended := htended
  count := hcount
  pids := by
    intro p P hp
    obtain ⟨R, hR, -⟩ := hl.proc p P hp
    rw [hl.next]
    exact h.pids p R hR
  older := by
    intro p P hp
    obtain ⟨R, hR, -, -, -, -, hparent, -⟩ := hl.proc p P hp
    rcases hparent with hparent | hparent
    · rw [hparent]
      exact h.older p R hR
    · rw [hparent]
      exact lt_of_lt_of_le (by decide) (h.pids p R hR).1
  root := by
    intro P hp
    obtain ⟨R, hR, hstart, -⟩ := hl.proc _ P hp
    rw [hstart]
    exact h.root R hR
  slides := by
    intro p P hp
    obtain ⟨R, hR, hstart, -, -, hnode, -⟩ := hl.proc p P hp
    rw [hstart, hnode]
    exact h.slides p R hR
  forks := by
    intro p P hp hown hne
    obtain ⟨R, hR, hstart, hfront, hown', -⟩ := hl.proc p P hp
    rw [hstart, hfront]
    exact h.forks p R hR (hown' ▸ hown) hne
  one := by
    intro p P q Q hp hq hown hown' hlive hlive' hnode
    obtain ⟨R, hR, -, -, hownR, hnodeR, -, hliveR⟩ := hl.proc p P hp
    obtain ⟨T, hT, -, -, hownT, hnodeT, -, hliveT⟩ := hl.proc q Q hq
    refine h.one p R q T hR hT (hownR ▸ hown) (hownT ▸ hown') (hliveR hlive).1 (hliveT hlive').1 ?_
    rw [← hnodeR, ← hnodeT, hnode]
  fresh := by
    intro p P q Q t hp hq hown hlive hpre
    obtain ⟨R, hR, -, -, hownR, hnodeR, -, hliveR⟩ := hl.proc p P hp
    obtain ⟨T, hT, -, -, -, hnodeT, -, -⟩ := hl.proc q Q hq
    rw [hnodeR, hnodeT] at hpre
    exact (hliveR hlive).2 t (h.fresh p R q T t hR hT (hownR ▸ hown) (hliveR hlive).1 hpre)
  ordered := by
    intro hfailed ν left right w hν p P q Q hp hq hown hlive hright hleft
    obtain ⟨R, hR, -, -, -, hnodeR, -, -⟩ := hl.proc p P hp
    obtain ⟨T, hT, -, -, hownT, hnodeT, -, hliveT⟩ := hl.proc q Q hq
    rw [hnodeR] at hright
    rw [hnodeT] at hleft ⊢
    exact h.ordered (hl.failed hfailed) ν left right w hν p R q T hR hT (hownT ▸ hown)
      (hliveT hlive).1 hright hleft

theorem prefix_of_not_mem {l m r : List Turn} {a : Turn} (h : l ++ [a] <+: m ++ r) (ha : a ∉ r) :
    l ++ [a] <+: m := by
  rcases List.prefix_or_prefix_of_prefix h (List.prefix_append m r) with hl | hm
  · exact hl
  · obtain ⟨x, hx⟩ := hm
    rcases List.eq_nil_or_concat x with rfl | ⟨y, b, rfl⟩
    · rw [List.append_nil] at hx
      rw [hx]
    · rw [List.concat_eq_append, ← List.append_assoc] at hx
      obtain ⟨-, hb⟩ := List.append_inj' hx rfl
      cases hb
      rw [← hx, List.append_assoc, List.prefix_append_right_inj] at h
      exact absurd (h.subset (List.mem_append_right _ (List.mem_singleton_self _))) ha

theorem not_prefix_self {l : List Turn} {a : Turn} : ¬ l ++ [a] <+: l := fun h => by
  have := h.length_le
  rw [List.length_append, List.length_singleton] at this
  omega

theorem snoc_inj {l m : List Turn} {a b : Turn} (h : l ++ [a] = m ++ [b]) : l = m ∧ a = b := by
  obtain ⟨hl, hab⟩ := List.append_inj' h rfl
  exact ⟨hl, List.singleton_inj.mp hab⟩

namespace Tended

/-- From a process in the left part of a list that is behind no `&`, parents lead up to the
one that runs the list, and that still waits. -/
theorem climb (h : Tended tree s) (hok : s.failed = false) {left right : Cmd α} {w : ℕ → Handle α}
    (hν : wiring tree ν = some (.list left right, w)) (hq : s.proc q = some Q)
    (hown : Q.own = true) (hpre : ν ++ [.left] <+: Q.node)
    (hnot : ¬ Behind tree (ν ++ [.left]) Q.node) :
    ∃ P, ∃ r R, s.proc R.parent = some P ∧ P.live = true ∧ P.own = true ∧ P.node = ν ∧
      s.proc r = some R ∧ R.front = true := by
  induction q using Nat.strong_induction_on generalizing Q with
  | _ q ih =>
    obtain ⟨rest, hnode, hrest⟩ := h.slides q Q hq
    have hstart : ν ++ [.left] <+: Q.start := prefix_of_not_mem (hnode ▸ hpre) hrest
    have hne : q ≠ linePid := by
      rintro rfl
      rw [h.root Q hq, List.prefix_nil] at hstart
      simp at hstart
    obtain ⟨μ, u, hμ, hback⟩ := h.forks q Q hq hown hne
    have hle : μ ++ [u] <+: Q.node := by
      rw [hnode, hμ]
      exact List.prefix_append _ _
    rw [hμ, List.prefix_concat_iff] at hstart
    have hfront : Q.front = true := by
      by_contra hfront
      obtain ⟨cmd, v, hv⟩ := hback (Bool.not_eq_true _ ▸ hfront)
      rcases hstart with heq | hstart
      · obtain ⟨rfl, -⟩ := snoc_inj heq
        rw [hν] at hv
        cases hv
      · exact hnot ⟨μ, u, cmd, v, hv, hstart, hle⟩
    obtain ⟨R, t', hR, hlive, hownR, hst⟩ := h.tended hok q Q hq hfront hne
    obtain ⟨rfl, -⟩ := snoc_inj (hμ.symm.trans hst)
    rcases hstart with heq | hstart
    · exact ⟨R, q, Q, hR, hlive, hownR, (snoc_inj heq).1.symm, hq, hfront⟩
    · refine ih Q.parent (h.older q Q hq) hR hownR hstart fun hb => hnot (hb.mono ?_)
      exact (List.prefix_append _ _).trans hle

theorem kid_put (hp : s.proc p = some P) (hkeeps : P.Keeps P') (r q : ℕ) :
    (s.put p P').kid r q = s.kid r q := by
  refine Bool.eq_iff_iff.mpr ?_
  rw [Jobs.kid_iff, Jobs.kid_iff, Jobs.put_proc]
  by_cases hqp : q = p
  · rw [if_pos hqp, hqp, hp]
    simp [hkeeps.parent, hkeeps.front]
  · rw [if_neg hqp]

theorem kids_put (hp : s.proc p = some P) (hkeeps : P.Keeps P') (r : ℕ) :
    (s.put p P').kids r = s.kids r := by
  unfold Jobs.kids
  simp only [kid_put hp hkeeps]
  rfl

/-- What a process was before one of them went on. -/
theorem put_old (hp : s.proc p = some P) (hkeeps : P.Keeps P')
    (hQ : (s.put p P').proc q = some Q) : ∃ Q₀, s.proc q = some Q₀ ∧ Q₀.parent = Q.parent ∧
      Q₀.front = Q.front ∧ Q₀.start = Q.start := by
  rcases Jobs.put_cases hQ with ⟨rfl, rfl⟩ | ⟨-, hQ⟩
  · exact ⟨P, hp, hkeeps.parent.symm, hkeeps.front.symm, hkeeps.start.symm⟩
  · exact ⟨Q, hQ, rfl, rfl, rfl⟩

/-- Nobody is where a process has not forked yet. -/
theorem nobody_below (h : Tended tree s) (hp : s.proc p = some P) (hown : P.own = true)
    (hlive : P.live = true) (hforked : P.forked t = false) (q : ℕ) (Q : Proc α) (u : List Turn)
    (hQ : s.proc q = some Q) : ¬ P.node ++ [t] ++ u <+: Q.node := by
  intro hpre
  have hforked' := h.fresh p P q Q t hp hQ hown hlive ((List.prefix_append _ u).trans hpre)
  rw [hforked] at hforked'
  cases hforked'

/-- A process that goes on where it stands. -/
theorem put (h : Tended tree s) (hp : s.proc p = some P) (hkeeps : P.Keeps P')
    (hlive : P.live = true) (hnode : P'.node = P.node)
    (hforked : ∀ t, P.forked t = true → P'.forked t = true)
    (hwired : Wired tree P') (howned : P'.own = true ∨ P'.isProgram = true)
    (haside : P.aside = true → P'.aside = true)
    (hcount : s.failed = false → s.kids p ≤ P'.waits) : Tended tree (s.put p P') := by
  refine h.later ⟨rfl, id, fun q Q hQ => ?_⟩ (fun q Q hQ => ?_) (fun q Q hQ hl => ?_)
    (fun r R q Q hR hQ hparent hfront => ?_) (fun hok q Q hQ hfront hne => ?_)
    fun hok q Q hQ hl => ?_
  · replace hQ := Jobs.put_cases hQ
    rcases hQ with ⟨rfl, rfl⟩ | ⟨-, hQ⟩
    · exact ⟨P, hp, hkeeps.start, hkeeps.front, hkeeps.own, hnode, .inl hkeeps.parent,
        fun _ => ⟨hlive, hforked⟩⟩
    · exact ⟨Q, hQ, rfl, rfl, rfl, rfl, .inl rfl, fun hl => ⟨hl, fun _ => id⟩⟩
  · replace hQ := Jobs.put_cases hQ
    rcases hQ with ⟨-, rfl⟩ | ⟨-, hQ⟩
    · exact hwired
    · exact h.wired q Q hQ
  · replace hQ := Jobs.put_cases hQ
    rcases hQ with ⟨-, rfl⟩ | ⟨-, hQ⟩
    · exact howned
    · exact h.owned q Q hQ hl
  · obtain ⟨Q₀, hQ₀, hparent₀, hfront₀, -⟩ := put_old hp hkeeps hQ
    rw [hparent] at hparent₀
    rw [hfront] at hfront₀
    replace hR := Jobs.put_cases hR
    rcases hR with ⟨rfl, rfl⟩ | ⟨-, hR⟩
    · exact haside (h.aside r P q Q₀ hp hQ₀ hparent₀ hfront₀)
    · exact h.aside r R q Q₀ hR hQ₀ hparent₀ hfront₀
  · obtain ⟨Q₀, hQ₀, hparent, hfront₀, hstart⟩ := put_old hp hkeeps hQ
    rw [hfront] at hfront₀
    obtain ⟨R, t, hR, hliveR, hownR, hst⟩ := h.tended hok q Q₀ hQ₀ hfront₀ hne
    rw [hparent] at hR
    rw [hstart] at hst
    rw [Jobs.put_proc]
    split_ifs with hqp
    · rw [hqp, hp] at hR
      cases hR
      exact ⟨P', t, rfl, hkeeps.live, hkeeps.own ▸ hownR, hnode ▸ hst⟩
    · exact ⟨R, t, hR, hliveR, hownR, hst⟩
  · rw [kids_put hp hkeeps]
    replace hQ := Jobs.put_cases hQ
    rcases hQ with ⟨rfl, rfl⟩ | ⟨-, hQ⟩
    · exact hcount hok
    · exact h.count hok q Q hQ hl

/-- A process that goes on right below where it stands. -/
theorem slide (h : Tended tree s) (hp : s.proc p = some P) (hkeeps : P.Keeps P')
    (hlive : P.live = true) (hown : P.own = true) (hside : P.aside = false) (ht : t ≠ .left)
    (hnode : P'.node = P.node ++ [t]) (hwaits : P.waits = 0) (hforked : P.forked t = false)
    (hnone : ∀ t', P'.forked t' = false) (hwired : Wired tree P') : Tended tree (s.put p P') := by
  have hkids : s.failed = false → s.kids p = 0 := fun hok =>
    Nat.le_zero.mp (hwaits ▸ h.count hok p P hp hlive)
  have hbelow := h.nobody_below hp hown hlive hforked
  constructor
  case wired =>
    intro q Q hQ
    replace hQ := Jobs.put_cases hQ
    rcases hQ with ⟨-, rfl⟩ | ⟨-, hQ⟩
    · exact hwired
    · exact h.wired q Q hQ
  case pids =>
    intro q Q hQ
    replace hQ := Jobs.put_cases hQ
    rcases hQ with ⟨rfl, -⟩ | ⟨-, hQ⟩
    · exact h.pids q P hp
    · exact h.pids q Q hQ
  case older =>
    intro q Q hQ
    replace hQ := Jobs.put_cases hQ
    rcases hQ with ⟨rfl, rfl⟩ | ⟨-, hQ⟩
    · exact hkeeps.parent ▸ h.older q P hp
    · exact h.older q Q hQ
  case root =>
    intro Q hQ
    replace hQ := Jobs.put_cases hQ
    rcases hQ with ⟨rfl, rfl⟩ | ⟨-, hQ⟩
    · exact hkeeps.start ▸ h.root P hp
    · exact h.root Q hQ
  case slides =>
    intro q Q hQ
    replace hQ := Jobs.put_cases hQ
    rcases hQ with ⟨rfl, rfl⟩ | ⟨-, hQ⟩
    · obtain ⟨rest, hrest, hno⟩ := h.slides q P hp
      refine ⟨rest ++ [t], ?_, ?_⟩
      · rw [hnode, hkeeps.start, hrest, List.append_assoc]
      · rw [List.mem_append, List.mem_singleton]
        exact fun hmem => hmem.elim hno fun heq => ht heq.symm
    · exact h.slides q Q hQ
  case forks =>
    intro q Q hQ hownQ hne
    replace hQ := Jobs.put_cases hQ
    rcases hQ with ⟨rfl, rfl⟩ | ⟨-, hQ⟩
    · rw [hkeeps.start, hkeeps.front]
      exact h.forks q P hp hown hne
    · exact h.forks q Q hQ hownQ hne
  case owned =>
    intro q Q hQ hl
    replace hQ := Jobs.put_cases hQ
    rcases hQ with ⟨-, rfl⟩ | ⟨-, hQ⟩
    · exact .inl (hkeeps.own ▸ hown)
    · exact h.owned q Q hQ hl
  case one =>
    intro q Q r R hQ hR hownQ hownR hlQ hlR heq
    replace hQ := Jobs.put_cases hQ
    rcases hQ with ⟨rfl, rfl⟩ | ⟨hqp, hQ⟩
    · replace hR := Jobs.put_cases hR
      rcases hR with ⟨rfl, -⟩ | ⟨-, hR⟩
      · rfl
      · refine absurd ?_ (hbelow r R [] hR)
        rw [List.append_nil, ← heq, hnode]
    · replace hR := Jobs.put_cases hR
      rcases hR with ⟨rfl, rfl⟩ | ⟨-, hR⟩
      · refine absurd ?_ (hbelow q Q [] hQ)
        rw [List.append_nil, heq, hnode]
      · exact h.one q Q r R hQ hR hownQ hownR hlQ hlR heq
  case fresh =>
    intro q Q r R u hQ hR hownQ hlQ hpre
    replace hQ := Jobs.put_cases hQ
    rcases hQ with ⟨rfl, rfl⟩ | ⟨hqp, hQ⟩
    · rw [hnode] at hpre
      replace hR := Jobs.put_cases hR
      rcases hR with ⟨-, rfl⟩ | ⟨-, hR⟩
      · rw [hnode] at hpre
        exact absurd hpre not_prefix_self
      · exact absurd hpre (hbelow r R [u] hR)
    · replace hR := Jobs.put_cases hR
      rcases hR with ⟨-, rfl⟩ | ⟨-, hR⟩
      · rw [hnode, List.prefix_concat_iff] at hpre
        rcases hpre with heq | hpre
        · exact absurd (h.one q Q p P hQ hp hownQ hown hlQ hlive (snoc_inj heq).1) hqp
        · exact h.fresh q Q p P u hQ hp hownQ hlQ hpre
      · exact h.fresh q Q r R u hQ hR hownQ hlQ hpre
  case aside =>
    intro r R q Q hR hQ hparent hfront
    obtain ⟨Q₀, hQ₀, hparent₀, hfront₀, -⟩ := put_old hp hkeeps hQ
    rw [hparent] at hparent₀
    rw [hfront] at hfront₀
    replace hR := Jobs.put_cases hR
    rcases hR with ⟨rfl, rfl⟩ | ⟨-, hR⟩
    · have haside := h.aside r P q Q₀ hp hQ₀ hparent₀ hfront₀
      rw [hside] at haside
      cases haside
    · exact h.aside r R q Q₀ hR hQ₀ hparent₀ hfront₀
  case tended =>
    intro hok q Q hQ hfront hne
    obtain ⟨Q₀, hQ₀, hparent, hfront₀, hstart⟩ := put_old hp hkeeps hQ
    rw [hfront] at hfront₀
    obtain ⟨R, u, hR, hliveR, hownR, hst⟩ := h.tended hok q Q₀ hQ₀ hfront₀ hne
    have hqp : Q.parent ≠ p := by
      rw [← hparent]
      exact Jobs.kids_eq_zero (hkids hok) hQ₀ (h.pids q Q₀ hQ₀).2 hfront₀
    refine ⟨R, u, ?_, hliveR, hownR, hstart ▸ hst⟩
    rw [Jobs.put_proc, if_neg hqp, ← hparent]
    exact hR
  case count =>
    intro hok q Q hQ hl
    rw [kids_put hp hkeeps]
    replace hQ := Jobs.put_cases hQ
    rcases hQ with ⟨rfl, rfl⟩ | ⟨-, hQ⟩
    · rw [hkids hok]
      exact Nat.zero_le _
    · exact h.count hok q Q hQ hl
  case ordered =>
    intro hok ν left right w hν r R q Q hR hQ hownQ hlQ hright hleft
    -- where the second process was before
    obtain ⟨q₀, Q₀, hQ₀, hownQ₀, hlQ₀, hleft₀, hle⟩ : ∃ q₀ Q₀, s.proc q₀ = some Q₀ ∧
        Q₀.own = true ∧ Q₀.live = true ∧ ν ++ [.left] <+: Q₀.node ∧ Q₀.node <+: Q.node := by
      replace hQ := Jobs.put_cases hQ
      rcases hQ with ⟨rfl, rfl⟩ | ⟨-, hQ⟩
      · rw [hnode, List.prefix_concat_iff] at hleft
        refine ⟨q, P, hp, hown, hlive, hleft.resolve_left fun heq => ht (snoc_inj heq).2.symm, ?_⟩
        rw [hnode]
        exact List.prefix_append _ _
      · exact ⟨q, Q, hQ, hownQ, hlQ, hleft, List.prefix_rfl⟩
    refine Behind.mono ?_ hle
    replace hR := Jobs.put_cases hR
    rcases hR with ⟨rfl, rfl⟩ | ⟨-, hR⟩
    · rw [hnode, List.prefix_concat_iff] at hright
      rcases hright with heq | hright
      · by_contra hnot
        obtain ⟨T, r', R', hT, hlT, hownT, hnodeT, hR', hfront'⟩ :=
          h.climb hok hν hQ₀ hownQ₀ hleft₀ hnot
        have hparent := h.one _ T r P hT hp hownT hown hlT hlive (hnodeT.trans (snoc_inj heq).1)
        exact Jobs.kids_eq_zero (hkids hok) hR' (h.pids r' R' hR').2 hfront' hparent
      · exact h.ordered hok ν left right w hν r P q₀ Q₀ hp hQ₀ hownQ₀ hlQ₀ hright hleft₀
    · exact h.ordered hok ν left right w hν r R q₀ Q₀ hR hQ₀ hownQ₀ hlQ₀ hright hleft₀

theorem kids_next (h : Tended tree s) : s.kids s.next = 0 := by
  refine Finset.card_eq_zero.mpr (Finset.filter_eq_empty_iff.mpr fun q hq hkid => ?_)
  obtain ⟨Q, hQ, hparent, -⟩ := Jobs.kid_iff.mp hkid
  have hlt := (h.older q Q hQ).trans (h.pids q Q hQ).2
  omega

/-- A child begins right below its parent. -/
theorem birth (h : Tended tree s) (hp : s.proc p = some P) (hown : P.own = true)
    (hlive : P.live = true) (hforked : P.forked t = true)
    (hbelow : ∀ q Q u, s.proc q = some Q → ¬ P.node ++ [t] ++ u <+: Q.node)
    (hback : t = .inner → P.aside = true ∧ ∃ cmd w, wiring tree P.node = some (.back cmd, w))
    (hcount : s.failed = false → t ≠ .inner → s.kids p + 1 ≤ P.waits)
    (hlist : ∀ left right w, wiring tree P.node = some (.list left right, w) →
      t ≠ .right ∧ ∀ q Q, s.proc q = some Q → ¬ P.node ++ [.right] <+: Q.node)
    (O : Proc α) (hC : (O.child p t code).live = true ∧ ∀ t', (O.child p t code).forked t' = false)
    (hO : O.node = P.node) (hwired : Wired tree (O.child p t code)) :
    Tended tree (s.add (O.child p t code)) := by
  have hnode : (O.child p t code).node = P.node ++ [t] := congrArg (· ++ [t]) hO
  have hstart : (O.child p t code).start = P.node ++ [t] := congrArg (· ++ [t]) hO
  have hfront : (O.child p t code).front = true ↔ t ≠ .inner := decide_eq_true_iff
  have hparent : (O.child p t code).parent = p := rfl
  have hCown : (O.child p t code).own = true := rfl
  generalize O.child p t code = C at *
  obtain ⟨hClive, hnone⟩ := hC
  have hpids := h.pids p P hp
  have hold : ∀ q Q, s.proc q = some Q → (s.add C).proc q = some Q := by
    intro q Q hQ
    rw [Jobs.add_proc, if_neg (h.pids q Q hQ).2.ne]
    exact hQ
  constructor
  case wired =>
    intro q Q hQ
    replace hQ := Jobs.add_cases hQ
    rcases hQ with ⟨-, rfl⟩ | hQ
    · exact hwired
    · exact h.wired q Q hQ
  case pids =>
    intro q Q hQ
    show linePid ≤ q ∧ q < s.next + 1
    replace hQ := Jobs.add_cases hQ
    rcases hQ with ⟨rfl, -⟩ | hQ
    · omega
    · have := h.pids q Q hQ
      omega
  case older =>
    intro q Q hQ
    replace hQ := Jobs.add_cases hQ
    rcases hQ with ⟨rfl, rfl⟩ | hQ
    · rw [hparent]
      exact hpids.2
    · exact h.older q Q hQ
  case root =>
    intro Q hQ
    replace hQ := Jobs.add_cases hQ
    rcases hQ with ⟨heq, -⟩ | hQ
    · omega
    · exact h.root Q hQ
  case slides =>
    intro q Q hQ
    replace hQ := Jobs.add_cases hQ
    rcases hQ with ⟨-, rfl⟩ | hQ
    · exact ⟨[], by rw [hnode, hstart, List.append_nil], List.not_mem_nil⟩
    · exact h.slides q Q hQ
  case forks =>
    intro q Q hQ hownQ hne
    replace hQ := Jobs.add_cases hQ
    rcases hQ with ⟨-, rfl⟩ | hQ
    · refine ⟨P.node, t, hstart, fun hfalse => (hback ?_).2⟩
      by_contra ht
      rw [hfront.mpr ht] at hfalse
      cases hfalse
    · exact h.forks q Q hQ hownQ hne
  case owned =>
    intro q Q hQ hl
    replace hQ := Jobs.add_cases hQ
    rcases hQ with ⟨-, rfl⟩ | hQ
    · exact .inl hCown
    · exact h.owned q Q hQ hl
  case one =>
    intro q Q r R hQ hR hownQ hownR hlQ hlR heq
    replace hQ := Jobs.add_cases hQ
    rcases hQ with ⟨rfl, rfl⟩ | hQ
    · replace hR := Jobs.add_cases hR
      rcases hR with ⟨rfl, -⟩ | hR
      · rfl
      · refine absurd ?_ (hbelow r R [] hR)
        rw [List.append_nil, ← heq, hnode]
    · replace hR := Jobs.add_cases hR
      rcases hR with ⟨rfl, rfl⟩ | hR
      · refine absurd ?_ (hbelow q Q [] hQ)
        rw [List.append_nil, heq, hnode]
      · exact h.one q Q r R hQ hR hownQ hownR hlQ hlR heq
  case fresh =>
    intro q Q r R u hQ hR hownQ hlQ hpre
    replace hQ := Jobs.add_cases hQ
    rcases hQ with ⟨rfl, rfl⟩ | hQ
    · rw [hnode] at hpre
      replace hR := Jobs.add_cases hR
      rcases hR with ⟨-, rfl⟩ | hR
      · rw [hnode] at hpre
        exact absurd hpre not_prefix_self
      · exact absurd hpre (hbelow r R [u] hR)
    · replace hR := Jobs.add_cases hR
      rcases hR with ⟨-, rfl⟩ | hR
      · rw [hnode, List.prefix_concat_iff] at hpre
        rcases hpre with heq | hpre
        · obtain ⟨hnodes, rfl⟩ := snoc_inj heq
          obtain rfl := h.one q Q p P hQ hp hownQ hown hlQ hlive hnodes
          rw [hp] at hQ
          cases hQ
          exact hforked
        · exact h.fresh q Q p P u hQ hp hownQ hlQ hpre
      · exact h.fresh q Q r R u hQ hR hownQ hlQ hpre
  case aside =>
    intro r R q Q hR hQ hpar hfr
    replace hR := Jobs.add_cases hR
    rcases hR with ⟨rfl, rfl⟩ | hR
    · exfalso
      replace hQ := Jobs.add_cases hQ
      rcases hQ with ⟨-, rfl⟩ | hQ
      · omega
      · have := (h.older q Q hQ).trans (h.pids q Q hQ).2
        omega
    · replace hQ := Jobs.add_cases hQ
      rcases hQ with ⟨-, rfl⟩ | hQ
      · obtain rfl : p = r := hparent.symm.trans hpar
        rw [hp] at hR
        cases hR
        refine (hback ?_).1
        by_contra ht
        rw [hfront.mpr ht] at hfr
        cases hfr
      · exact h.aside r R q Q hR hQ hpar hfr
  case tended =>
    intro hok q Q hQ hfr hne
    replace hQ := Jobs.add_cases hQ
    rcases hQ with ⟨-, rfl⟩ | hQ
    · rw [hparent]
      exact ⟨P, t, hold p P hp, hlive, hown, hstart⟩
    · obtain ⟨R, u, hR, hl, ho, hst⟩ := h.tended hok q Q hQ hfr hne
      exact ⟨R, u, hold _ R hR, hl, ho, hst⟩
  case count =>
    intro hok q Q hQ hl
    rw [Jobs.kids_add, hparent]
    replace hQ := Jobs.add_cases hQ
    rcases hQ with ⟨rfl, rfl⟩ | hQ
    · rw [h.kids_next, if_neg fun hand => hpids.2.ne hand.1]
      exact Nat.zero_le _
    · split_ifs with hand
      · obtain ⟨rfl, hfr⟩ := hand
        rw [hp] at hQ
        cases hQ
        exact hcount hok (hfront.mp hfr)
      · exact h.count hok q Q hQ hl
  case ordered =>
    intro hok ν left right w hν r R q Q hR hQ hownQ hlQ hright hleft
    -- the list at which the child was forked has no right part yet
    replace hR := Jobs.add_cases hR
    rcases hR with ⟨-, rfl⟩ | hR
    · rw [hnode, List.prefix_concat_iff] at hright
      rcases hright with heq | hright
      · obtain ⟨rfl, rfl⟩ := snoc_inj heq
        exact absurd rfl (hlist left right w hν).1
      · replace hQ := Jobs.add_cases hQ
        rcases hQ with ⟨-, rfl⟩ | hQ
        · rw [hnode, List.prefix_concat_iff] at hleft
          rcases hleft with heq | hleft
          · obtain ⟨rfl, -⟩ := snoc_inj heq
            exact absurd hright not_prefix_self
          · rw [hnode]
            exact (h.ordered hok ν left right w hν p P p P hp hp hown hlive hright hleft).mono
              (List.prefix_append _ _)
        · exact h.ordered hok ν left right w hν p P q Q hp hQ hownQ hlQ hright hleft
    · replace hQ := Jobs.add_cases hQ
      rcases hQ with ⟨-, rfl⟩ | hQ
      · rw [hnode, List.prefix_concat_iff] at hleft
        rcases hleft with heq | hleft
        · obtain ⟨rfl, -⟩ := snoc_inj heq
          exact absurd hright ((hlist left right w hν).2 r R hR)
        · rw [hnode]
          exact (h.ordered hok ν left right w hν r R p P hR hp hown hlive hright hleft).mono
            (List.prefix_append _ _)
      · exact h.ordered hok ν left right w hν r R q Q hR hQ hownQ hlQ hright hleft

/-- A process exits, and its children become orphans. -/
theorem leave (h : Tended tree s) (hp : s.proc p = some P) (hlive : P.live = true)
    (hdone : bad = false → P.waits = 0) : Tended tree (s.leave p bad) := by
  have hold : ∀ q Q, (s.leave p bad).proc q = some Q → ∃ Q₀, s.proc q = some Q₀ ∧
      Q = Jobs.exited p q Q₀ := by
    intro q Q hQ
    obtain ⟨Q₀, hQ₀, heq⟩ := Option.map_eq_some_iff.mp hQ
    exact ⟨Q₀, hQ₀, heq.symm⟩
  have hsame : ∀ q (Q : Proc α), (Jobs.exited p q Q).start = Q.start ∧
      (Jobs.exited p q Q).front = Q.front ∧
      (Jobs.exited p q Q).own = Q.own ∧ (Jobs.exited p q Q).node = Q.node := by
    intro q Q
    unfold Jobs.exited
    split_ifs <;> exact ⟨rfl, rfl, rfl, rfl⟩
  have hother : ∀ q (Q : Proc α), q ≠ p → (Jobs.exited p q Q).code = Q.code := by
    intro q Q hqp
    unfold Jobs.exited
    rw [if_neg hqp]
    split_ifs <;> rfl
  have hdead : ∀ Q : Proc α, (Jobs.exited p p Q).live = false := by
    intro Q
    unfold Jobs.exited
    rw [if_pos rfl]
    rfl
  have hparent : ∀ q Q, s.proc q = some Q → (Jobs.exited p q Q).parent = Q.parent ∧ Q.parent ≠ p ∨
      (Jobs.exited p q Q).parent = initPid := by
    intro q Q hQ
    unfold Jobs.exited
    split_ifs with hqp hpar
    · exact .inl ⟨rfl, hqp ▸ (h.older q Q hQ).ne⟩
    · exact .inr rfl
    · exact .inl ⟨rfl, hpar⟩
  have hokay : (s.leave p bad).failed = false → s.failed = false ∧ bad = false := fun hok =>
    Bool.or_eq_false_iff.mp hok
  have hkids : (s.leave p bad).failed = false → s.kids p = 0 := fun hok =>
    Nat.le_zero.mp (hdone (hokay hok).2 ▸ h.count (hokay hok).1 p P hp hlive)
  have hinit : ∀ r R, s.proc r = some R → r ≠ initPid := by
    rintro r R hR rfl
    exact absurd (h.pids _ R hR).1 (by decide)
  refine h.later ⟨rfl, fun hok => (hokay hok).1, fun q Q hQ => ?_⟩ (fun q Q hQ => ?_)
    (fun q Q hQ hl => ?_) (fun r R q Q hR hQ hpar hfront => ?_) (fun hok q Q hQ hfront hne => ?_)
    fun hok q Q hQ hl => ?_
  · obtain ⟨Q₀, hQ₀, rfl⟩ := hold q Q hQ
    obtain ⟨hs, hf, ho, hn⟩ := hsame q Q₀
    refine ⟨Q₀, hQ₀, hs, hf, ho, hn, (hparent q Q₀ hQ₀).imp_left And.left, fun hl => ?_⟩
    have hqp : q ≠ p := by
      rintro rfl
      rw [hdead] at hl
      cases hl
    have hcode := hother q Q₀ hqp
    unfold Proc.live at hl ⊢
    unfold Proc.forked
    rw [hcode] at hl ⊢
    exact ⟨hl, fun _ => id⟩
  · obtain ⟨Q₀, hQ₀, rfl⟩ := hold q Q hQ
    obtain ⟨⟨cmd, w, hw, hfits⟩, hheld⟩ := h.wired q Q₀ hQ₀
    unfold Jobs.exited
    split_ifs
    · exact ⟨⟨cmd, w, hw, trivial⟩, fun _ _ _ hfd => by cases hfd⟩
    · exact ⟨⟨cmd, w, hw, hfits⟩, hheld⟩
    · exact ⟨⟨cmd, w, hw, hfits⟩, hheld⟩
  · obtain ⟨Q₀, hQ₀, rfl⟩ := hold q Q hQ
    have hqp : q ≠ p := by
      rintro rfl
      rw [hdead] at hl
      cases hl
    have hcode := hother q Q₀ hqp
    unfold Proc.live at hl
    rw [hcode] at hl
    unfold Proc.isProgram
    rw [(hsame q Q₀).2.2.1, hcode]
    exact h.owned q Q₀ hQ₀ hl
  · obtain ⟨Q₀, hQ₀, rfl⟩ := hold q Q hQ
    obtain ⟨R₀, hR₀, rfl⟩ := hold r R hR
    rcases hparent q Q₀ hQ₀ with ⟨hpar', hne⟩ | hpar'
    · have hrp : r ≠ p := by
        rw [← hpar, hpar']
        exact hne
      have haside := h.aside r R₀ q Q₀ hR₀ hQ₀ (hpar'.symm.trans hpar) ((hsame q Q₀).2.1 ▸ hfront)
      unfold Proc.aside at haside ⊢
      rwa [hother r R₀ hrp]
    · exact absurd (hpar.symm.trans hpar') (hinit r R₀ hR₀)
  · obtain ⟨Q₀, hQ₀, rfl⟩ := hold q Q hQ
    have hfront₀ : Q₀.front = true := (hsame q Q₀).2.1 ▸ hfront
    have hpar₀ := Jobs.kids_eq_zero (hkids hok) hQ₀ (h.pids q Q₀ hQ₀).2 hfront₀
    have hpar : (Jobs.exited p q Q₀).parent = Q₀.parent := by
      unfold Jobs.exited
      split_ifs
      · rfl
      · rfl
    obtain ⟨R, t, hR, hl, ho, hst⟩ := h.tended (hokay hok).1 q Q₀ hQ₀ hfront₀ hne
    obtain ⟨-, -, hownR, hnodeR⟩ := hsame Q₀.parent R
    refine ⟨Jobs.exited p Q₀.parent R, t, ?_, ?_, hownR.trans ho, ?_⟩
    · rw [hpar, Jobs.leave_proc, hR]
      rfl
    · unfold Proc.live
      rw [hother _ R hpar₀]
      exact hl
    · rw [(hsame q Q₀).1, hnodeR, hst]
  · obtain ⟨Q₀, hQ₀, rfl⟩ := hold q Q hQ
    have hqp : q ≠ p := by
      rintro rfl
      rw [hdead] at hl
      cases hl
    have hcode := hother q Q₀ hqp
    have hle : (s.leave p bad).kids q ≤ s.kids q := by
      refine Jobs.kids_le rfl fun r hkid => ?_
      obtain ⟨R, hR, hpar, hfront⟩ := Jobs.kid_iff.mp hkid
      obtain ⟨R₀, hR₀, rfl⟩ := hold r R hR
      refine Jobs.kid_iff.mpr ⟨R₀, hR₀, ?_, (hsame r R₀).2.1 ▸ hfront⟩
      rcases hparent r R₀ hR₀ with ⟨hpar', -⟩ | hpar'
      · exact hpar'.symm.trans hpar
      · exact absurd (hpar.symm.trans hpar') (hinit q Q₀ hQ₀)
    unfold Proc.live at hl
    unfold Proc.waits
    rw [hcode] at hl ⊢
    exact hle.trans (h.count (hokay hok).1 q Q₀ hQ₀ hl)

theorem remove (h : Tended tree s) (hdead : ∀ Q, s.proc q = some Q → Q.live = false) :
    Tended tree (s.remove q) := by
  have hold : ∀ r R, (s.remove q).proc r = some R → r ≠ q ∧ s.proc r = some R := by
    intro r R hR
    rw [Jobs.remove_proc] at hR
    split_ifs at hR with hrq
    exact ⟨hrq, hR⟩
  refine h.later ⟨rfl, id, fun r R hR => ?_⟩ (fun r R hR => h.wired r R (hold r R hR).2)
    (fun r R hR => h.owned r R (hold r R hR).2)
    (fun r R r' R' hR hR' => h.aside r R r' R' (hold r R hR).2 (hold r' R' hR').2)
    (fun hok r R hR hfront hne => ?_) fun hok r R hR hl => ?_
  · exact ⟨R, (hold r R hR).2, rfl, rfl, rfl, rfl, .inl rfl, fun hl => ⟨hl, fun _ => id⟩⟩
  · obtain ⟨T, t, hT, hl, ho, hst⟩ := h.tended hok r R (hold r R hR).2 hfront hne
    refine ⟨T, t, ?_, hl, ho, hst⟩
    rw [Jobs.remove_proc, if_neg]
    · exact hT
    · intro heq
      rw [hdead T (heq ▸ hT)] at hl
      cases hl
  · have hle : (s.remove q).kids r ≤ s.kids r := by
      refine Jobs.kids_le rfl fun r' hkid => ?_
      obtain ⟨T, hT, hpar, hfront⟩ := Jobs.kid_iff.mp hkid
      exact Jobs.kid_iff.mpr ⟨T, (hold r' T hT).2, hpar, hfront⟩
    exact hle.trans (h.count hok r R (hold r R hR).2 hl)

/-- A program forks. -/
theorem spawn (h : Tended tree s) (hp : s.proc p = some P) (hprog : P.isProgram = true) :
    Tended tree (s.add { P with parent := p, front := false, own := false }) := by
  have hpids := h.pids p P hp
  constructor
  case wired =>
    intro q Q hQ
    replace hQ := Jobs.add_cases hQ
    rcases hQ with ⟨-, rfl⟩ | hQ
    · exact h.wired p P hp
    · exact h.wired q Q hQ
  case pids =>
    intro q Q hQ
    show linePid ≤ q ∧ q < s.next + 1
    replace hQ := Jobs.add_cases hQ
    rcases hQ with ⟨rfl, -⟩ | hQ
    · omega
    · have := h.pids q Q hQ
      omega
  case older =>
    intro q Q hQ
    replace hQ := Jobs.add_cases hQ
    rcases hQ with ⟨rfl, rfl⟩ | hQ
    · exact hpids.2
    · exact h.older q Q hQ
  case root =>
    intro Q hQ
    replace hQ := Jobs.add_cases hQ
    rcases hQ with ⟨heq, -⟩ | hQ
    · omega
    · exact h.root Q hQ
  case slides =>
    intro q Q hQ
    replace hQ := Jobs.add_cases hQ
    rcases hQ with ⟨-, rfl⟩ | hQ
    · exact h.slides p P hp
    · exact h.slides q Q hQ
  case forks =>
    intro q Q hQ hownQ hne
    replace hQ := Jobs.add_cases hQ
    rcases hQ with ⟨-, rfl⟩ | hQ
    · cases hownQ
    · exact h.forks q Q hQ hownQ hne
  case owned =>
    intro q Q hQ hl
    replace hQ := Jobs.add_cases hQ
    rcases hQ with ⟨-, rfl⟩ | hQ
    · exact .inr hprog
    · exact h.owned q Q hQ hl
  case one =>
    intro q Q r R hQ hR hownQ hownR hlQ hlR heq
    replace hQ := Jobs.add_cases hQ
    rcases hQ with ⟨-, rfl⟩ | hQ
    · cases hownQ
    · replace hR := Jobs.add_cases hR
      rcases hR with ⟨-, rfl⟩ | hR
      · cases hownR
      · exact h.one q Q r R hQ hR hownQ hownR hlQ hlR heq
  case fresh =>
    intro q Q r R u hQ hR hownQ hlQ hpre
    replace hQ := Jobs.add_cases hQ
    rcases hQ with ⟨-, rfl⟩ | hQ
    · cases hownQ
    · replace hR := Jobs.add_cases hR
      rcases hR with ⟨-, rfl⟩ | hR
      · exact h.fresh q Q p P u hQ hp hownQ hlQ hpre
      · exact h.fresh q Q r R u hQ hR hownQ hlQ hpre
  case aside =>
    intro r R q Q hR hQ hpar hfr
    replace hR := Jobs.add_cases hR
    rcases hR with ⟨rfl, rfl⟩ | hR
    · exact P.aside_of_isProgram hprog
    · replace hQ := Jobs.add_cases hQ
      rcases hQ with ⟨-, rfl⟩ | hQ
      · obtain rfl : p = r := hpar
        rw [hp] at hR
        cases hR
        exact P.aside_of_isProgram hprog
      · exact h.aside r R q Q hR hQ hpar hfr
  case tended =>
    intro hok q Q hQ hfr hne
    replace hQ := Jobs.add_cases hQ
    rcases hQ with ⟨-, rfl⟩ | hQ
    · cases hfr
    · obtain ⟨R, u, hR, hl, ho, hst⟩ := h.tended hok q Q hQ hfr hne
      refine ⟨R, u, ?_, hl, ho, hst⟩
      rw [Jobs.add_proc, if_neg (h.pids _ R hR).2.ne]
      exact hR
  case count =>
    intro hok q Q hQ hl
    rw [Jobs.kids_add, if_neg (by simp), Nat.add_zero]
    replace hQ := Jobs.add_cases hQ
    rcases hQ with ⟨rfl, rfl⟩ | hQ
    · rw [h.kids_next]
      exact Nat.zero_le _
    · exact h.count hok q Q hQ hl
  case ordered =>
    intro hok ν left right w hν r R q Q hR hQ hownQ hlQ hright hleft
    replace hQ := Jobs.add_cases hQ
    rcases hQ with ⟨-, rfl⟩ | hQ
    · cases hownQ
    · replace hR := Jobs.add_cases hR
      rcases hR with ⟨-, rfl⟩ | hR
      · exact h.ordered hok ν left right w hν p P q Q hp hQ hownQ hlQ hright hleft
      · exact h.ordered hok ν left right w hν r R q Q hR hQ hownQ hlQ hright hleft

/-! ## Runs -/

theorem act (h : Tended tree s) (htree : tree.Standard) {e : Effect α} (hp : s.proc p = some P)
    (hact : P.act (s.alone p) ok = some e) : Tended tree (s.perform p P e) := by
  have hall := (h.wired p P hp).act htree hact
  have hlive := Proc.live_of_act hact
  cases e with
  | go P' =>
    obtain ⟨hkeeps, -, hside, hmove⟩ := Proc.act_go hact
    have hown : P.own = true := (h.owned p P hp hlive).resolve_right fun hprog => by
      rw [Proc.aside_of_isProgram hprog] at hside
      cases hside
    rcases hmove with ⟨hnode, hforked, hwaits⟩ | ⟨t, ht, hnode, hwaits, hforked, hnone⟩
    · refine h.put hp hkeeps hlive hnode (fun t ht => hforked ▸ ht) hall
        (.inl (hkeeps.own.trans hown)) (fun haside => ?_) fun hok => ?_
      · rw [hside] at haside
        cases haside
      · rcases hwaits with hwaits | halone
        · rw [hwaits]
          exact h.count hok p P hp hlive
        · rw [Jobs.kids_of_alone halone]
          exact Nat.zero_le _
    · exact h.slide hp hkeeps hlive hown hside ht hnode hwaits hforked hnone hall
  | fork P' t code =>
    obtain ⟨hkeeps, -, hnode, hforked, hmore, hwaits, hleft, hright, hinner, hside, hC⟩ :=
      Proc.act_fork hact
    have hown : P.own = true := (h.owned p P hp hlive).resolve_right fun hprog => by
      rw [Proc.aside_of_isProgram hprog] at hside
      cases hside
    obtain ⟨cmd, w, hw, hfits⟩ := (h.wired p P hp).1
    have hput : Tended tree (s.put p P') := by
      refine h.put hp hkeeps hlive hnode (fun t' ht' => hmore t' (.inl ht')) hall.1
        (.inl (hkeeps.own.trans hown)) (fun haside => ?_) fun hok => ?_
      · rw [hside] at haside
        cases haside
      · rw [hwaits]
        exact (h.count hok p P hp hlive).trans (Nat.le_add_right _ _)
    have hbelow := h.nobody_below hp hown hlive hforked
    have hself : (s.put p P').proc p = some P' := by rw [Jobs.put_proc, if_pos rfl]
    have hnew : ∀ q Q, (s.put p P').proc q = some Q → ∃ Q₀, s.proc q = some Q₀ ∧
        Q.node = Q₀.node := by
      intro q Q hQ
      rw [Jobs.put_proc] at hQ
      split_ifs at hQ with hqp
      · cases hQ
        exact ⟨P, hqp ▸ hp, hnode⟩
      · exact ⟨Q, hQ, rfl⟩
    refine hput.birth hself (hkeeps.own.trans hown) hkeeps.live (hmore t (.inr rfl)) ?_ ?_ ?_ ?_ P
      (hC p) hnode.symm (hall.2 p)
    · intro q Q u hQ hpre
      obtain ⟨Q₀, hQ₀, heq⟩ := hnew q Q hQ
      rw [hnode, heq] at hpre
      exact hbelow q Q₀ u hQ₀ hpre
    · rintro rfl
      obtain ⟨haside, cmd', hcode⟩ := hinner rfl
      simp only [hcode] at hfits
      rw [hnode]
      exact ⟨haside, cmd', w, hfits.1 ▸ hw⟩
    · intro hok ht
      rw [kids_put hp hkeeps, hwaits, if_neg ht]
      exact Nat.add_le_add_right (h.count hok p P hp hlive) 1
    · intro left right v hν
      rw [hnode, hw] at hν
      cases hν
      have ht : t ≠ .right := by
        intro ht
        obtain ⟨q, right', hcode⟩ := hright ht
        simp only [hcode] at hfits
        obtain ⟨⟨left', heq⟩, -⟩ := hfits
        cases heq
      refine ⟨ht, fun q Q hQ hpre => ?_⟩
      obtain ⟨Q₀, hQ₀, heq⟩ := hnew q Q hQ
      rw [hnode, heq] at hpre
      have hforked' := h.fresh p P q Q₀ .right hp hQ₀ hown hlive hpre
      cases t with
      | left =>
        rw [hleft rfl] at hforked'
        cases hforked'
      | right => exact ht rfl
      | inner =>
        obtain ⟨-, cmd', hcode⟩ := hinner rfl
        simp only [hcode] at hfits
        cases hfits.1
  | leave bad => exact h.leave hp hlive fun hbad => Proc.act_leave hact hbad

theorem step (h : Tended tree s) (htree : tree.Standard) (hstep : Jobs.Stepped s s') :
    Tended tree s' := by
  cases hstep with
  | act p P ok e hp hact => exact h.act htree hp hact
  | collect q Q P n next hq hdead hp hcode =>
    have hne : Q.parent ≠ q := (h.older q Q hq).ne
    have hlive : P.live = true := by simp [Proc.live, hcode]
    have hfront : Q.front = true := by
      by_contra hfront
      have haside := h.aside _ P q Q hp hq rfl (Bool.not_eq_true _ ▸ hfront)
      simp [Proc.aside, hcode] at haside
    have hremove : Tended tree (s.remove q) := h.remove fun Q' hQ' => by
      rw [hq] at hQ'
      cases hQ'
      exact hdead
    have hp' : (s.remove q).proc Q.parent = some P := by rw [Jobs.remove_proc, if_neg hne, hp]
    have hown : P.own = true := (h.owned _ P hp hlive).resolve_right fun hprog => by
      simp [Proc.isProgram, hcode] at hprog
    obtain ⟨⟨cmd, w, hw, hfits⟩, hheld⟩ := h.wired _ P hp
    refine hremove.put hp' ⟨rfl, rfl, rfl, rfl, rfl⟩ hlive rfl (fun t ht => ?_)
      ⟨⟨cmd, w, hw, ?_⟩, hheld.subset rfl (fun hs => ?_) fun fd ν b hfd => ⟨fd, hfd⟩⟩ (.inl hown)
      (fun haside => ?_) fun hok => ?_
    · cases next <;> simpa [Proc.forked, hcode, Proc.goto] using ht
    · cases next with simp only [hcode] at hfits
      | none => exact hfits
      | some right => exact hfits
    · simp [Proc.setup, hcode] at hs
    · simp [Proc.aside, hcode] at haside
    · have hkids := Jobs.kids_remove hq (h.pids q Q hq).2 rfl hfront
      have hcount := h.count hok _ P hp hlive
      unfold Proc.waits at hcount
      rw [hcode] at hcount
      change (s.remove q).kids Q.parent ≤ n
      dsimp only at hcount
      omega
  | remove q Q hq hdead hp =>
    refine h.remove fun Q' hQ' => ?_
    rw [hq] at hQ'
    cases hQ'
    exact hdead
  | leave p P hp hlive =>
    refine h.leave hp hlive fun hbad => ?_
    have hprog : P.isProgram = true := by simpa using hbad
    unfold Proc.isProgram at hprog
    cases hcode : P.code with simp only [hcode] at hprog
    | program argv => simp [Proc.waits, hcode]
    | _ => cases hprog
  | use p P fds hp hprog hfds =>
    obtain ⟨⟨cmd, w, hw, hfits⟩, hheld⟩ := h.wired p P hp
    have hcode : ∃ argv, P.code = .program argv := by
      unfold Proc.isProgram at hprog
      cases hcode : P.code with simp only [hcode] at hprog
      | program argv => exact ⟨argv, rfl⟩
      | _ => cases hprog
    obtain ⟨argv, hcode⟩ := hcode
    have hlive : P.live = true := by simp [Proc.live, hcode]
    refine h.put hp ⟨rfl, rfl, rfl, rfl, hlive⟩ hlive rfl (fun t ht => ht)
      ⟨⟨cmd, w, hw, ?_⟩, hheld.subset rfl id fun fd ν b hfd => hfds fd _ hfd rfl⟩
      (.inr hprog) id fun hok => ?_
    · simp only [hcode] at hfits ⊢
      exact hfits
    · exact h.count hok p P hp hlive
  | spawn p P hp hprog => exact h.spawn hp hprog

end Tended

theorem tended_start (tree : Cmd α) : Tended tree (Jobs.start tree) := by
  have hone : ∀ p P, (Jobs.start tree).proc p = some P → p = linePid ∧
      P = ⟨shPid, .runcmd tree, std .given, [], [], true, true⟩ := by
    intro p P hp
    simp only [Jobs.start, Function.update_apply] at hp
    split_ifs at hp with hp'
    exact ⟨hp', (Option.some.inj hp).symm⟩
  constructor
  case wired =>
    intro p P hp
    obtain ⟨-, rfl⟩ := hone p P hp
    exact ⟨⟨tree, .given, rfl, rfl, rfl⟩, held_std (show wiring tree [] = _ from rfl) rfl⟩
  case pids =>
    intro p P hp
    obtain ⟨rfl, -⟩ := hone p P hp
    exact ⟨le_rfl, Nat.lt_succ_self _⟩
  case older =>
    intro p P hp
    obtain ⟨rfl, rfl⟩ := hone p P hp
    exact Nat.lt_succ_self _
  case root =>
    intro P hp
    obtain ⟨-, rfl⟩ := hone _ P hp
    rfl
  case slides =>
    intro p P hp
    obtain ⟨-, rfl⟩ := hone p P hp
    exact ⟨[], rfl, List.not_mem_nil⟩
  case forks =>
    intro p P hp hown hne
    exact absurd (hone p P hp).1 hne
  case owned =>
    intro p P hp hl
    obtain ⟨-, rfl⟩ := hone p P hp
    exact .inl rfl
  case one =>
    intro p P q Q hp hq _ _ _ _ _
    rw [(hone p P hp).1, (hone q Q hq).1]
  case fresh =>
    intro p P q Q t hp hq _ _ hpre
    obtain ⟨-, rfl⟩ := hone p P hp
    obtain ⟨-, rfl⟩ := hone q Q hq
    exact absurd hpre not_prefix_self
  case aside =>
    intro p P q Q hp hq hpar _
    obtain ⟨rfl, -⟩ := hone p P hp
    obtain ⟨-, rfl⟩ := hone q Q hq
    cases hpar
  case tended =>
    intro _ q Q hq _ hne
    exact absurd (hone q Q hq).1 hne
  case count =>
    intro _ p P hp _
    have hzero : (Jobs.start tree).kids p = 0 := by
      refine Finset.card_eq_zero.mpr (Finset.filter_eq_empty_iff.mpr fun q _ hkid => ?_)
      obtain ⟨Q, hQ, hpar, -⟩ := Jobs.kid_iff.mp hkid
      obtain ⟨-, rfl⟩ := hone q Q hQ
      obtain ⟨rfl, -⟩ := hone p P hp
      cases hpar
    rw [hzero]
    exact Nat.zero_le _
  case ordered =>
    intro _ ν left right w _ p P q Q hp _ _ _ hright _
    obtain ⟨-, rfl⟩ := hone p P hp
    rw [List.prefix_nil] at hright
    simp at hright

theorem tended_of_run (htree : tree.Standard) (hrun : Reach Jobs.step (Jobs.start tree) s) :
    Tended tree s :=
  hrun.invariant (Tended tree) (fun _ _ _ _ h hstep => h.step htree (Jobs.stepped hstep))
    (tended_start tree)

/-- Only what is behind a `&` outlives the process of the line. -/
theorem Tended.behind (h : Tended tree s) (hok : s.failed = false)
    (hgone : ∀ P, s.proc linePid = some P → P.live = false) (hq : s.proc q = some Q)
    (hown : Q.own = true) (hlive : Q.live = true) : Behind tree [] Q.node := by
  induction q using Nat.strong_induction_on generalizing Q with
  | _ q ih =>
    have hne : q ≠ linePid := by
      rintro rfl
      rw [hgone Q hq] at hlive
      cases hlive
    obtain ⟨rest, hnode, -⟩ := h.slides q Q hq
    obtain ⟨μ, u, hμ, hback⟩ := h.forks q Q hq hown hne
    have hle : μ ++ [u] <+: Q.node := by
      rw [hnode, hμ]
      exact List.prefix_append _ _
    cases hfront : Q.front with
    | false =>
      obtain ⟨cmd, w, hw⟩ := hback hfront
      exact ⟨μ, u, cmd, w, hw, List.nil_prefix, hle⟩
    | true =>
      obtain ⟨R, t, hR, hliveR, hownR, hst⟩ := h.tended hok q Q hq hfront hne
      obtain ⟨rfl, -⟩ := snoc_inj (hμ.symm.trans hst)
      refine (ih Q.parent (h.older q Q hq) hR hownR hliveR).mono ?_
      exact (List.prefix_append _ _).trans hle

/-- While no `fork` or `pipe` has failed and no process was killed in `runcmd`: as long as a
process is in the right part of a list, the processes of the left part have ended, and when
the process of the line has ended so have all others that `runcmd` forked, except in both
cases for those behind a `&`. -/
theorem foreground_is_awaited (mem mem' : List Char) (cmd : Cmd Slice)
    (hparse : parsecmd mem = .ok (cmd, mem')) (s : Jobs (List Char))
    (hrun : Reach Jobs.step (Jobs.start (lineTree mem mem' cmd)) s) (hok : s.failed = false)
    (q : ℕ) (Q : Proc (List Char)) (hq : s.proc q = some Q) (hown : Q.own = true)
    (hlive : Q.live = true) :
    (∀ ν left right w, wiring (lineTree mem mem' cmd) ν = some (.list left right, w) →
      ∀ p P, s.proc p = some P → ν ++ [.right] <+: P.node → ν ++ [.left] <+: Q.node →
        Behind (lineTree mem mem' cmd) (ν ++ [.left]) Q.node) ∧
    ((∀ P, s.proc linePid = some P → P.live = false) →
      Behind (lineTree mem mem' cmd) [] Q.node) := by
  have h := tended_of_run (lineTree_standard hparse) hrun
  refine ⟨fun ν left right w hν p P hp hright hleft => ?_, fun hgone => ?_⟩
  · exact h.ordered hok ν left right w hν p P q Q hp hq hown hlive hright hleft
  · exact h.behind hok hgone hq hown hlive

/-- In `a&;b` the second program has its turn while the first still runs. -/
theorem foreground_is_awaited_background : ∃ cmd mem' s P Q,
    parsecmd "a&;b".toList = .ok (cmd, mem') ∧
      Reach Jobs.step (Jobs.start (lineTree "a&;b".toList mem' cmd)) s ∧ s.failed = false ∧
      s.proc 3 = some P ∧ P.node = [.right] ∧ s.proc 5 = some Q ∧ Q.node = [.left, .inner] ∧
      Behind (lineTree "a&;b".toList mem' cmd) [.left] Q.node := by
  have hlex : Lexes "a&;b".toList [.word ['a'], .amp, .semi, .word ['b']] :=
    .word (w := ['a']) (s := ['&', ';', 'b']) (by simp) (by simp [isWord, whitespace, symbols])
      (by simp [isWord, whitespace, symbols])
      (.symbol (by decide) (.symbol (by decide) (.word (w := ['b']) (s := []) (by simp)
        (by simp [isWord, whitespace, symbols]) (by simp) .nil)))
  have hline : LineDerives (cstring "a&;b".toList)
      (.list (.back (.exec [['a']])) (.exec [['b']])) :=
    ⟨_, hlex, .seq 1 (.single (.word _)) (.line 0 (.single (.word _)))⟩
  obtain ⟨cmd, mem', hparse, htree⟩ := hline.parsecmd
  replace htree : lineTree "a&;b".toList mem' cmd = _ := htree
  have hrun : (runAll Jobs.step (Jobs.start (.list (.back (.exec [['a']])) (.exec [['b']])))
      [.run 3 true, .run 4 true, .run 4 true, .reap 4, .run 3 true]).any (fun s =>
      s.failed = false ∧ ((s.proc 3).any fun P => P.node = [.right]) = true ∧
        ((s.proc 5).any fun Q => Q.node = [.left, .inner] ∧ Q.own = true ∧ Q.live = true) =
          true) = true := by
    decide +kernel
  obtain ⟨s, hs, hend⟩ := (Option.any_eq_true _ _).mp hrun
  obtain ⟨hok, hright, hleft⟩ := of_decide_eq_true hend
  obtain ⟨P, hP, hnode⟩ := (Option.any_eq_true _ _).mp hright
  obtain ⟨Q, hQ, hall⟩ := (Option.any_eq_true _ _).mp hleft
  obtain ⟨hnode', hown, hlive⟩ := of_decide_eq_true hall
  replace hnode : P.node = [.right] := of_decide_eq_true hnode
  have hreach : Reach Jobs.step (Jobs.start (lineTree "a&;b".toList mem' cmd)) s := by
    rw [htree]
    exact reach_of_runAll hs
  refine ⟨cmd, mem', s, P, Q, hparse, hreach, hok, hP, hnode, hQ, hnode', ?_⟩
  refine (foreground_is_awaited _ mem' cmd hparse s hreach hok 5 Q hQ hown hlive).1 []
    (.back (.exec [['a']])) (.exec [['b']]) .given ?_ 3 P hP ?_ ?_
  · rw [htree]
    rfl
  · rw [hnode]
    exact List.prefix_rfl
  · rw [hnode']
    exact ⟨[.inner], rfl⟩

end XV6AndConcurrency.Shell
