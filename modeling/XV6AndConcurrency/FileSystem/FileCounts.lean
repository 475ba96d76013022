import XV6AndConcurrency.FileSystem.OpenFiles

/-!
# References to open files

The `ref` of every file counts the descriptors that hold it. In the middle of a call some
references are held by its local variables, and these are counted too.
-/

namespace XV6AndConcurrency.FileSystem.Files

open Foundations Scheduling

/-! ## Counting descriptors -/

/-- How many of the given descriptors hold the file. -/
def slotsIn (D : Finset (ℕ × ℕ)) (o : ℕ → ℕ → Option ℕ) (f : ℕ) : ℕ :=
  ∑ x ∈ D, if o x.1 x.2 = some f then 1 else 0

/-- The number of descriptors that hold the file. -/
def slots : (ℕ → ℕ → Option ℕ) → ℕ → ℕ := slotsIn (Finset.range nproc ×ˢ Finset.range nofile)

variable {s s' : Files} {x : ℕ → ℕ} {p fd f : ℕ}

theorem slotsIn_set {D : Finset (ℕ × ℕ)} (o : ℕ → ℕ → Option ℕ) (hmem : (p, fd) ∈ D)
    (v : Option ℕ) (f : ℕ) :
    slotsIn D (Function.update o p (Function.update (o p) fd v)) f +
      (if o p fd = some f then 1 else 0) = slotsIn D o f + if v = some f then 1 else 0 := by
  have hsum := sum_add_point (f := fun y : ℕ × ℕ => if o y.1 y.2 = some f then 1 else 0)
    (g := fun y =>
      if Function.update o p (Function.update (o p) fd v) y.1 y.2 = some f then 1 else 0)
    hmem fun y _ hne => by
      by_cases hy : y.1 = p
      · have hy2 : y.2 ≠ fd := fun heq => hne (Prod.ext hy heq)
        simp only [hy, Function.update_self, Function.update_of_ne hy2]
      · simp only [Function.update_of_ne hy]
  unfold slotsIn
  simpa only [Function.update_self] using hsum

theorem slots_set (o : ℕ → ℕ → Option ℕ) (hp : p < nproc) (hfd : fd < nofile) (v : Option ℕ)
    (f : ℕ) :
    slots (Function.update o p (Function.update (o p) fd v)) f +
      (if o p fd = some f then 1 else 0) = slots o f + if v = some f then 1 else 0 := by
  refine slotsIn_set o ?_ v f
  rw [Finset.mem_product, Finset.mem_range, Finset.mem_range]
  exact ⟨hp, hfd⟩

/-! ## The invariant -/

/-- The end of a pipe that an open file stands for. -/
def endOf (g : File) : Option (ℕ × Bool) :=
  if 0 < g.ref ∧ g.type = .pipe then some (g.pipe, g.writable) else none

def Ends.isOpen (e : Ends) (w : Bool) : Bool := if w then e.writeopen else e.readopen

/-- An end of a pipe is open while one file stands for it, and the page is there while an
end is open. -/
structure Piped (s : Files) : Prop where
  ends : ∀ f pa w, endOf (s.file f) = some (pa, w) → (s.file f).readable = !w ∧
    ∃ e, s.pipes pa = some e ∧ Ends.isOpen e w = true
  one : ∀ f g y, endOf (s.file f) = some y → endOf (s.file g) = some y → f = g
  held : ∀ pa e w, s.pipes pa = some e → Ends.isOpen e w = true →
    ∃ f, endOf (s.file f) = some (pa, w)
  opened : ∀ pa e, s.pipes pa = some e → ∃ w, Ends.isOpen e w = true
  pages : ∀ pa, s.kallocs pa = s.kfrees pa + if (s.pipes pa).isSome then 1 else 0

/-- Besides the descriptors, `x` counts the references of local variables. -/
structure Counts (s : Files) (x : ℕ → ℕ) : Prop where
  refs : ∀ f, (s.file f).ref = slots s.ofile f + x f
  lt : ∀ f, 0 < (s.file f).ref → f < nfile
  idle : ∀ f, (s.file f).ref = 0 → (s.file f).type = .none
  procs : ∀ p, s.slot p ≠ .unused → p < nproc
  fds : ∀ p fd g, s.ofile p fd = some g → s.slot p = .live ∧ fd < nofile
  piped : s.Piped

/-- A step that keeps every end of a pipe. -/
theorem Piped.congr (h : s.Piped) (hfile : ∀ f, endOf (s'.file f) = endOf (s.file f))
    (hread : ∀ f y, endOf (s.file f) = some y → (s'.file f).readable = (s.file f).readable)
    (hpipes : s'.pipes = s.pipes) (hallocs : s'.kallocs = s.kallocs)
    (hfrees : s'.kfrees = s.kfrees) : s'.Piped where
  ends := by
    intro f pa w hf
    rw [hfile] at hf
    rw [hread f _ hf, hpipes]
    exact h.ends f pa w hf
  one := by
    intro f g y hf hg
    rw [hfile] at hf hg
    exact h.one f g y hf hg
  held := by
    intro pa e w he hw
    rw [hpipes] at he
    obtain ⟨f, hf⟩ := h.held pa e w he hw
    exact ⟨f, (hfile f).trans hf⟩
  opened := hpipes ▸ h.opened
  pages := by
    rw [hallocs, hfrees, hpipes]
    exact h.pages

/-! ## Moving references -/

/-- A descriptor that is cleared hands its reference over. -/
theorem Counts.clear {g : ℕ} (h : Counts s x) (hfd : s.ofile p fd = some g) :
    Counts (s.setFd p fd none) (bump x g) := by
  obtain ⟨hlive, hlt⟩ := h.fds p fd g hfd
  have hp : p < nproc := h.procs p (by simp [hlive])
  refine ⟨fun f => ?_, h.lt, h.idle, h.procs, fun q fd' g' hq => ?_, h.piped.congr (fun _ => rfl)
    (fun _ _ _ => rfl) rfl rfl rfl⟩
  · have hset := slots_set s.ofile hp hlt none f
    have href := h.refs f
    simp only [setFd, hfd, bump_apply, reduceCtorEq, if_false] at hset href ⊢
    grind
  · refine h.fds q fd' g' ?_
    simp only [setFd, Function.update_apply] at hq
    grind

/-- A descriptor that was free takes a reference over. -/
theorem Counts.store {g : ℕ} (h : Counts s x) (hlive : s.slot p = .live) (hlt : fd < nofile)
    (hfd : s.ofile p fd = none) (hg : 0 < x g) : Counts (s.setFd p fd (some g)) (drop x g) := by
  have hp : p < nproc := h.procs p (by simp [hlive])
  refine ⟨fun f => ?_, h.lt, h.idle, h.procs, fun q fd' g' hq => ?_, h.piped.congr (fun _ => rfl)
    (fun _ _ _ => rfl) rfl rfl rfl⟩
  · have hset := slots_set s.ofile hp hlt (some g) f
    have href := h.refs f
    simp only [setFd, hfd, drop_apply, reduceCtorEq, if_false, Option.some.injEq] at hset href ⊢
    grind
  · simp only [setFd, Function.update_apply] at hq ⊢
    have hold := h.fds q fd' g'
    grind

/-- A call that keeps the descriptors. -/
def Quiet (s s' : Files) : Prop := s'.ofile = s.ofile ∧ s'.slot = s.slot

/-- A file whose count changes with the local references. -/
theorem Counts.setFile {g : File} {x' : ℕ → ℕ} (h : Counts s x) (hquiet : Quiet s s')
    (hfile : s'.file = Function.update s.file f g) (hf : f < nfile)
    (href : g.ref = slots s.ofile f + x' f) (hx : ∀ f', f' ≠ f → x' f' = x f')
    (hidle : g.ref = 0 → g.type = .none) (hpiped : s'.Piped) : Counts s' x' := by
  obtain ⟨hofile, hslot⟩ := hquiet
  refine ⟨fun f' => ?_, fun f' hpos => ?_, fun f' => ?_, hslot ▸ h.procs, ?_, hpiped⟩
  · have hold := h.refs f'
    rw [hfile, hofile, Function.update_apply]
    grind
  · have hold := h.lt f'
    rw [hfile, Function.update_apply] at hpos
    grind
  · have hold := h.idle f'
    rw [hfile, Function.update_apply]
    grind
  · rw [hofile, hslot]
    exact h.fds

/-- A file is written that stays what it is for the pipes. -/
theorem Piped.setFile {g : File} (h : s.Piped) (hend : endOf g = endOf (s.file f))
    (hread : endOf g ≠ none → g.readable = (s.file f).readable) : (s.setFile f g).Piped := by
  refine h.congr (fun f' => ?_) (fun f' y hy => ?_) rfl rfl rfl
  · simp only [Files.setFile, Function.update_apply]
    split
    · simp_all
    · rfl
  · simp only [Files.setFile, Function.update_apply]
    split
    · simp_all
    · rfl

/-! ## `file.c` and `pipe.c` -/

theorem endOf_none {g : File} (h : g.type = .none) : endOf g = none := by
  simp [endOf, h]

theorem filealloc_spec (h : Counts s x) :
    Ensures filealloc (fun r s' => Quiet s s' ∧ s'.pipes = s.pipes ∧ match r with
      | none => Counts s' x
      | some f => Counts s' (bump x f) ∧ (s'.file f).type = .none ∧ (s.file f).ref = 0 ∧
          (s'.file f).ref = 1 ∧ ∀ f', f' ≠ f → s'.file f' = s.file f') s := by
  unfold filealloc
  cases hfind : (List.range nfile).find? fun f => (s.file f).ref = 0 with
  | none => exact ⟨none, s, by simp only [hfind], ⟨rfl, rfl⟩, rfl, h⟩
  | some f =>
    have hzero : (s.file f).ref = 0 := by simpa using List.find?_some hfind
    have hlt : f < nfile := List.mem_range.mp (List.mem_of_find?_eq_some hfind)
    have htype := h.idle f hzero
    refine ⟨some f, s.setFile f { s.file f with ref := 1 }, by simp only [hfind], ⟨rfl, rfl⟩, rfl,
      ?_, ?_, hzero, ?_, fun f' hne => Function.update_of_ne hne _ _⟩
    · refine h.setFile ⟨rfl, rfl⟩ rfl hlt ?_ (fun f' hne => ?_) nofun ?_
      · have href := h.refs f
        rw [bump_self]
        dsimp only
        omega
      · rw [bump_apply, if_neg hne, Nat.add_zero]
      · have hnone : endOf { s.file f with ref := 1 } = none := endOf_none htype
        exact h.piped.setFile (hnone.trans (endOf_none htype).symm) fun hne => absurd hnone hne
    · simp only [Files.setFile, Function.update_self]
      exact htype
    · simp only [Files.setFile, Function.update_self]

theorem filedup_spec (h : Counts s x) (hpos : 0 < (s.file f).ref) :
    Ensures (filedup f) (fun _ s' => Quiet s s' ∧ Counts s' (bump x f)) s := by
  unfold filedup
  refine ⟨(), s.setFile f { s.file f with ref := (s.file f).ref + 1 }, ?_, ⟨rfl, rfl⟩, ?_⟩
  · exact if_neg (by omega)
  · refine h.setFile ⟨rfl, rfl⟩ rfl (h.lt f hpos) ?_ (fun f' hne => ?_) nofun ?_
    · have href := h.refs f
      rw [bump_self]
      dsimp only
      omega
    · rw [bump_apply, if_neg hne, Nat.add_zero]
    · refine h.piped.setFile ?_ fun _ => rfl
      simp [endOf, hpos]

theorem isOpen_close_self (e : Ends) (w : Bool) : Ends.isOpen (Ends.close e w) w = false := by
  cases w <;> rfl

theorem isOpen_close_of_ne (e : Ends) {w w' : Bool} (h : w' ≠ w) :
    Ends.isOpen (Ends.close e w) w' = Ends.isOpen e w' := by
  cases w <;> cases w' <;> first | rfl | exact absurd rfl h

theorem closed_iff (e : Ends) :
    (¬ e.readopen = true ∧ ¬ e.writeopen = true) ↔ ∀ w, Ends.isOpen e w = false := by
  simp [Ends.isOpen]

/-- The files and pages after the last file of an end is closed. -/
theorem Piped.close {g : File} {pa : ℕ} {w : Bool} {e : Ends} {o : Option Ends} {k : ℕ → ℕ}
    (h : s.Piped) (hend : endOf (s.file f) = some (pa, w)) (hg : endOf g = none)
    (he : s.pipes pa = some e)
    (ho : ∀ e', o = some e' → e' = Ends.close e w ∧ ∃ w, Ends.isOpen e' w = true)
    (hnone : o = none → ∀ w', Ends.isOpen (Ends.close e w) w' = false)
    (hk : ∀ pa', k pa' = s.kfrees pa' + if pa' = pa ∧ o = none then 1 else 0) :
    Piped { (s.setFile f g).setPipe pa o with kfrees := k } := by
  -- the other files keep their ends, which are not this one
  have hfile : ∀ f' y, endOf (Function.update s.file f g f') = some y →
      endOf (s.file f') = some y ∧ f' ≠ f ∧ y ≠ (pa, w) := by
    intro f' y hy
    rw [Function.update_apply] at hy
    split at hy
    · rw [hg] at hy
      cases hy
    case isFalse hne =>
      refine ⟨hy, hne, ?_⟩
      rintro rfl
      exact hne (h.one f' f _ hy hend)
  have hkeep : ∀ f' y, endOf (s.file f') = some y → y ≠ (pa, w) →
      endOf (Function.update s.file f g f') = some y := by
    intro f' y hy hne
    rwa [Function.update_of_ne]
    rintro rfl
    rw [hend] at hy
    cases hy
    exact hne rfl
  constructor
  · intro f' pa' w' hf'
    obtain ⟨hold, hne, hother⟩ := hfile f' _ hf'
    obtain ⟨hread, e', he', hopen⟩ := h.ends f' pa' w' hold
    refine ⟨?_, ?_⟩
    · simp only [Files.setFile, setPipe, Function.update_of_ne hne]
      exact hread
    · simp only [setPipe, Function.update_apply]
      split
      case isTrue hpa =>
        subst hpa
        rw [he] at he'
        cases he'
        have hw : w' ≠ w := fun heq => hother (by rw [heq])
        cases o with
        | none =>
          have hclosed := hnone rfl w'
          rw [isOpen_close_of_ne e hw, hopen] at hclosed
          cases hclosed
        | some e' =>
          obtain ⟨rfl, -⟩ := ho e' rfl
          exact ⟨_, rfl, (isOpen_close_of_ne e hw).trans hopen⟩
      case isFalse => exact ⟨e', he', hopen⟩
  · intro f' g' y hf' hg'
    exact h.one f' g' y (hfile f' y hf').1 (hfile g' y hg').1
  · intro pa' e' w' he' hopen
    simp only [setPipe, Function.update_apply] at he'
    split at he'
    case isTrue hpa =>
      subst hpa
      obtain ⟨rfl, -⟩ := ho e' he'
      have hw : w' ≠ w := by
        rintro rfl
        rw [isOpen_close_self] at hopen
        cases hopen
      rw [isOpen_close_of_ne e hw] at hopen
      obtain ⟨f', hf'⟩ := h.held pa' e w' he hopen
      exact ⟨f', hkeep f' _ hf' fun heq => hw (Prod.mk.inj heq).2⟩
    case isFalse hpa =>
      obtain ⟨f', hf'⟩ := h.held pa' e' w' he' hopen
      exact ⟨f', hkeep f' _ hf' fun heq => hpa (Prod.mk.inj heq).1⟩
  · intro pa' e' he'
    simp only [setPipe, Function.update_apply] at he'
    split at he'
    · exact (ho e' he').2
    · exact h.opened pa' e' he'
  · intro pa'
    have hpages := h.pages pa'
    simp only [setPipe, Files.setFile, hk, Function.update_apply]
    by_cases hpa : pa' = pa
    · subst hpa
      rw [he] at hpages
      cases o <;> simp_all
    · simpa [hpa] using hpages

theorem pipeclose_spec {g : File} {pa : ℕ} {w : Bool} (h : s.Piped)
    (hend : endOf (s.file f) = some (pa, w)) (hg : endOf g = none) :
    Ensures (pipeclose pa w) (fun _ s' => Quiet s s' ∧ s'.file = Function.update s.file f g ∧
      s'.Piped) (s.setFile f g) := by
  obtain ⟨hread, e, he, hopen⟩ := h.ends f pa w hend
  have hrun : pipeclose pa w (s.setFile f g) =
      if ¬ (Ends.close e w).readopen ∧ ¬ (Ends.close e w).writeopen then
        .ok ((), { (s.setFile f g).setPipe pa none with kfrees := bump s.kfrees pa })
      else .ok ((), (s.setFile f g).setPipe pa (some (Ends.close e w))) := by
    have he' : (s.setFile f g).pipes pa = some e := he
    unfold pipeclose
    rw [he']
    rfl
  split at hrun
  case isTrue hclosed =>
    refine ⟨_, _, hrun, ⟨rfl, rfl⟩, rfl, h.close hend hg he (fun e' he' => by cases he')
      (fun _ => (closed_iff _).mp hclosed) fun pa' => ?_⟩
    simp [bump_apply]
  case isFalse hsome =>
    refine ⟨_, _, hrun, ⟨rfl, rfl⟩, rfl, ?_⟩
    refine h.close (k := s.kfrees) hend hg he ?_ (fun hnone => by cases hnone) fun pa' => by simp
    rintro e' ⟨⟩
    refine ⟨rfl, by_contra fun hnone => hsome ((closed_iff _).mpr fun w' => ?_)⟩
    simpa using not_exists.mp hnone w'

theorem fileclose_spec (h : Counts s x) (hx : 0 < x f) :
    Ensures (fileclose f) (fun _ s' => Quiet s s' ∧ Counts s' (drop x f) ∧
      ∀ f', f' ≠ f → s'.file f' = s.file f') s := by
  have href := h.refs f
  have hlt : f < nfile := h.lt f (by omega)
  have hdrop : ∀ f', f' ≠ f → drop x f f' = x f' := fun f' hne => by
    rw [drop_apply, if_neg hne, Nat.sub_zero]
  unfold fileclose
  refine Ensures.look_bind ?_
  rw [if_neg (by omega)]
  split
  case isTrue hmore =>
    refine Ensures.of_modify ⟨⟨rfl, rfl⟩, ?_, fun f' hne => Function.update_of_ne hne _ _⟩
    refine h.setFile ⟨rfl, rfl⟩ rfl hlt ?_ hdrop (fun hzero => ?_) ?_
    · simp only [drop_apply, if_true]
      omega
    · dsimp only at hzero
      omega
    · refine h.piped.setFile ?_ fun _ => rfl
      have hpos : 0 < (s.file f).ref := by omega
      simp [endOf, hmore, hpos]
  case isFalse hlast =>
    have hone : (s.file f).ref = 1 := by omega
    set g : File := { s.file f with ref := 0, type := .none }
    have hg : endOf g = none := endOf_none rfl
    have hcount : g.ref = slots s.ofile f + drop x f f := by
      simp only [drop_apply, if_true]
      change 0 = _
      omega
    refine Ensures.modify_bind ?_
    split
    case isTrue hpipe =>
      have hend : endOf (s.file f) = some ((s.file f).pipe, (s.file f).writable) := by
        simp [endOf, hone, hpipe]
      refine (pipeclose_spec h.piped hend hg).mono ?_
      rintro _ s' ⟨hquiet, hfile, hpiped⟩
      refine ⟨hquiet, h.setFile hquiet hfile hlt hcount hdrop (fun _ => rfl) hpiped, ?_⟩
      intro f' hne
      rw [hfile, Function.update_of_ne hne]
    case isFalse hpipe =>
      have hend : endOf (s.file f) = none := by simp [endOf, hpipe]
      refine Ensures.of_pure ⟨⟨rfl, rfl⟩, ?_, fun f' hne => Function.update_of_ne hne _ _⟩
      exact h.setFile ⟨rfl, rfl⟩ rfl hlt hcount hdrop (fun _ => rfl)
        (h.piped.setFile (hg.trans hend.symm) fun hne => absurd hg hne)

/-- Two fresh files become the ends of a pipe. -/
theorem Counts.makePipe {f0 f1 pa : ℕ} (h : Counts s x) (hne : f0 ≠ f1)
    (h0 : (s.file f0).type = .none ∧ 0 < (s.file f0).ref)
    (h1 : (s.file f1).type = .none ∧ 0 < (s.file f1).ref) (hpa : s.pipes pa = none) :
    Counts (s.makePipe f0 f1 pa) x := by
  have hfile : ∀ f, (s.makePipe f0 f1 pa).file f =
      if f = f1 then
        { s.file f1 with type := .pipe, readable := false, writable := true, pipe := pa }
      else if f = f0 then
        { s.file f0 with type := .pipe, readable := true, writable := false, pipe := pa }
      else s.file f := by
    intro f
    simp only [Files.makePipe, Files.setFile, setPipe, Function.update_apply, if_neg hne.symm]
  have hends : ∀ f, endOf ((s.makePipe f0 f1 pa).file f) =
      if f = f1 then some (pa, true)
      else if f = f0 then some (pa, false) else endOf (s.file f) := by
    intro f
    rw [hfile]
    split
    · simp [endOf, h1.2]
    · split
      · simp [endOf, h0.2]
      · rfl
  -- no file knows the page yet
  have hfresh : ∀ f w, endOf (s.file f) ≠ some (pa, w) := by
    intro f w hf
    obtain ⟨-, e, he, -⟩ := h.piped.ends f pa w hf
    rw [hpa] at he
    cases he
  have hpipes : (s.makePipe f0 f1 pa).pipes = Function.update s.pipes pa (some ⟨true, true⟩) := rfl
  refine ⟨fun f => ?_, fun f hpos => ?_, fun f hzero => ?_, h.procs, h.fds, ?_⟩
  · have href := h.refs f
    rw [hfile]
    change _ = slots s.ofile f + x f
    grind
  · have hlt := h.lt f
    rw [hfile] at hpos
    grind
  · have hidle := h.idle f
    rw [hfile] at hzero ⊢
    grind
  · constructor
    · intro f pa' w hf
      rw [hends] at hf
      rw [hfile, hpipes, Function.update_apply]
      have hold := h.piped.ends f pa' w
      split_ifs at hf with hf1 hf0
      · cases hf
        exact ⟨by simp [hf1], ⟨true, true⟩, if_pos rfl, rfl⟩
      · cases hf
        exact ⟨by rw [if_neg hf1, if_pos hf0]; rfl, ⟨true, true⟩, if_pos rfl, rfl⟩
      · have hpa' : pa' ≠ pa := by
          rintro rfl
          exact hfresh f w hf
        rw [if_neg hf1, if_neg hf0, if_neg hpa']
        exact hold hf
    · intro f g y hf hg
      rw [hends] at hf hg
      have hone := h.piped.one f g y
      grind
    · intro pa' e w he hw
      rw [hpipes, Function.update_apply] at he
      split at he
      case isTrue heq =>
        cases w with
        | true => exact ⟨f1, by rw [hends, if_pos rfl, heq]⟩
        | false => exact ⟨f0, by rw [hends, if_neg hne, if_pos rfl, heq]⟩
      case isFalse =>
        obtain ⟨f, hf⟩ := h.piped.held pa' e w he hw
        refine ⟨f, ?_⟩
        rw [hends, if_neg, if_neg]
        · exact hf
        · rintro rfl
          rw [endOf_none h0.1] at hf
          cases hf
        · rintro rfl
          rw [endOf_none h1.1] at hf
          cases hf
    · intro pa' e he
      rw [hpipes, Function.update_apply] at he
      split at he
      · cases he
        exact ⟨true, rfl⟩
      · exact h.piped.opened pa' e he
    · intro pa'
      have hpages := h.piped.pages pa'
      change bump s.kallocs pa pa' = s.kfrees pa' + _
      rw [hpipes, bump_apply, Function.update_apply]
      by_cases heq : pa' = pa
      · subst heq
        rw [hpa] at hpages
        simp_all
      · simpa [heq] using hpages

theorem pipealloc_spec {page : Option ℕ} (h : Counts s x)
    (hpage : (page.bind s.pipes).isNone = true) :
    Ensures (pipealloc page) (fun r s' => Quiet s s' ∧ match r with
      | none => Counts s' x
      | some (f0, f1) => Counts s' (bump (bump x f0) f1)) s := by
  unfold pipealloc
  refine (filealloc_spec h).bind ?_
  rintro r s0 ⟨⟨hofile, hslot⟩, hpipes, hr⟩
  cases r with
  | none => exact Ensures.of_pure ⟨⟨hofile, hslot⟩, hr⟩
  | some f0 =>
    obtain ⟨h0, htype0, -, href0, -⟩ := hr
    refine (filealloc_spec h0).bind ?_
    rintro r s1 ⟨⟨hofile', hslot'⟩, hpipes', hr⟩
    have hquiet : Quiet s s1 := ⟨hofile'.trans hofile, hslot'.trans hslot⟩
    cases r with
    | none =>
      refine (fileclose_spec hr (by simp)).bind ?_
      rintro _ s2 ⟨⟨hofile2, hslot2⟩, h2, -⟩
      refine Ensures.of_pure ⟨⟨hofile2.trans hquiet.1, hslot2.trans hquiet.2⟩, ?_⟩
      rwa [drop_bump] at h2
    | some f1 =>
      obtain ⟨h1, htype1, hfree1, href1, hkeep⟩ := hr
      cases page with
      | none =>
        refine (fileclose_spec h1 (f := f0) (by rw [bump_apply, bump_self]; omega)).bind ?_
        rintro _ s2 ⟨⟨hofile2, hslot2⟩, h2, -⟩
        rw [bump_comm, drop_bump] at h2
        refine (fileclose_spec h2 (by simp)).bind ?_
        rintro _ s3 ⟨⟨hofile3, hslot3⟩, h3, -⟩
        rw [drop_bump] at h3
        exact Ensures.of_pure ⟨⟨hofile3.trans (hofile2.trans hquiet.1),
          hslot3.trans (hslot2.trans hquiet.2)⟩, h3⟩
      | some pa =>
        have hne : f0 ≠ f1 := by
          rintro rfl
          omega
        have hpa : s1.pipes pa = none := by
          rw [hpipes', hpipes]
          simpa using hpage
        refine Ensures.modify_bind (Ensures.of_pure ⟨hquiet, ?_⟩)
        refine h1.makePipe hne ⟨?_, ?_⟩ ⟨htype1, by omega⟩ hpa
        · rw [hkeep f0 hne]
          exact htype0
        · rw [hkeep f0 hne]
          omega

/-! ## System calls -/

/-- A call that keeps the slots of the processes. -/
def Keeps (s : Files) (_ : PUnit) (s' : Files) : Prop := s'.slot = s.slot ∧ Counts s' 0

theorem fdalloc_spec {x' : ℕ → ℕ} (h : Counts s x) (hlive : s.slot p = .live)
    (hx : x = bump x' f) :
    Ensures (fdalloc p f) (fun r s' => s'.slot = s.slot ∧ s'.file = s.file ∧ match r with
      | none => s'.ofile = s.ofile ∧ Counts s' x
      | some fd => s.ofile p fd = none ∧ s'.ofile p fd = some f ∧ Counts s' x' ∧
          ∀ fd' ≠ fd, s'.ofile p fd' = s.ofile p fd') s := by
  unfold fdalloc
  cases hfind : (List.range nofile).find? fun fd => s.ofile p fd = none with
  | none => exact ⟨none, s, by simp only [hfind], rfl, rfl, rfl, h⟩
  | some fd =>
    have hnone : s.ofile p fd = none := by simpa using List.find?_some hfind
    have hlt : fd < nofile := List.mem_range.mp (List.mem_of_find?_eq_some hfind)
    refine ⟨some fd, s.setFd p fd (some f), by simp only [hfind], rfl, rfl, hnone, ?_, ?_, ?_⟩
    · simp [setFd]
    · have hstore := h.store hlive hlt hnone (g := f) (by simp [hx])
      rwa [hx, drop_bump] at hstore
    · intro fd' hne
      simp [setFd, hne]

/-- The local references to the two files of a new pipe are closed again. -/
theorem fileclose_both {f0 f1 : ℕ} (h : Counts s (bump (bump 0 f0) f1)) :
    Ensures (do fileclose f0; fileclose f1) (Keeps s) s := by
  rw [bump_comm] at h
  refine (fileclose_spec h (by simp)).bind ?_
  rintro _ s1 ⟨⟨-, hslot1⟩, h1, -⟩
  rw [drop_bump] at h1
  refine (fileclose_spec h1 (by simp)).mono ?_
  rintro _ s2 ⟨⟨-, hslot2⟩, h2, -⟩
  rw [drop_bump] at h2
  exact ⟨hslot2.trans hslot1, h2⟩

theorem argfd_spec {fd : ℤ} :
    Ensures (argfd p fd)
      (fun r s' => s' = s ∧ ∀ f, r = some f → s.ofile p fd.toNat = some f) s := by
  refine ⟨_, s, rfl, rfl, fun f hf => ?_⟩
  split at hf
  · cases hf
  · exact hf

theorem Counts.pos (h : Counts s x) (hfd : s.ofile p fd = some f) : 0 < (s.file f).ref := by
  have hcleared := (h.clear hfd).refs f
  rw [bump_self] at hcleared
  change (s.file f).ref = _ at hcleared
  omega

theorem sysClose_spec {fd : ℤ} (h : Counts s 0) : Ensures (sysClose p fd) (Keeps s) s := by
  unfold sysClose
  refine argfd_spec.bind ?_
  rintro r s' ⟨rfl, hr⟩
  cases r with
  | none => exact Ensures.of_pure ⟨rfl, h⟩
  | some f =>
    refine Ensures.modify_bind ((fileclose_spec (h.clear (hr f rfl)) (by simp)).mono ?_)
    rintro _ s2 ⟨⟨-, hslot⟩, h2, -⟩
    rw [drop_bump] at h2
    exact ⟨hslot, h2⟩

/-- `fdalloc` stores the file before `filedup` counts it; the other order comes to the same. -/
theorem sysDup_spec {fd : ℤ} (h : Counts s 0) (hlive : s.slot p = .live) :
    Ensures (sysDup p fd) (Keeps s) s := by
  unfold sysDup
  refine argfd_spec.bind ?_
  rintro r s' ⟨rfl, hr⟩
  cases r with
  | none => exact Ensures.of_pure ⟨rfl, h⟩
  | some f =>
    have hpos := h.pos (hr f rfl)
    obtain ⟨_, s1, hdup, ⟨hofile, hslot⟩, h1⟩ := filedup_spec h hpos
    obtain rfl : s'.setFile f { s'.file f with ref := (s'.file f).ref + 1 } = s1 := by
      simpa [filedup, Nat.not_lt.mpr hpos] using hdup
    unfold fdalloc
    cases hfind : (List.range nofile).find? fun fd => s'.ofile p fd = none with
    | none =>
      refine Ensures.bind_of_run (a := none) (t := s') (by simp only [hfind]) ?_
      exact Ensures.of_pure ⟨rfl, h⟩
    | some fd' =>
      have hnone : s'.ofile p fd' = none := by simpa using List.find?_some hfind
      have hlt : fd' < nofile := List.mem_range.mp (List.mem_of_find?_eq_some hfind)
      refine Ensures.bind_of_run (a := some fd') (t := s'.setFd p fd' (some f))
        (by simp only [hfind]) ?_
      have hstore := h1.store (g := f) hlive hlt hnone (by simp)
      rw [drop_bump] at hstore
      refine Ensures.of_run (a := ()) (if_neg (Nat.not_lt.mpr hpos)) ⟨rfl, ?_⟩
      exact hstore

theorem endOf_openFile {g : File} {omode : ℕ} {i : Found} : endOf (openFile g omode i) = none := by
  unfold openFile endOf
  split <;> simp

theorem sysOpen_spec {omode : ℕ} {found : Option Found} (h : Counts s 0)
    (hlive : s.slot p = .live) : Ensures (sysOpen p omode found) (Keeps s) s := by
  unfold sysOpen
  cases found with
  | none => exact Ensures.of_pure ⟨rfl, h⟩
  | some i =>
    dsimp only
    split
    case isFalse => exact Ensures.of_pure ⟨rfl, h⟩
    case isTrue =>
      refine (filealloc_spec h).bind ?_
      rintro r s1 ⟨⟨hofile, hslot⟩, -, hr⟩
      cases r with
      | none => exact Ensures.of_pure ⟨hslot, hr⟩
      | some f =>
        obtain ⟨h1, htype, -, href, -⟩ := hr
        refine (fdalloc_spec h1 (hslot ▸ hlive) rfl).bind ?_
        rintro r s2 ⟨hslot2, hfile2, hr⟩
        cases r with
        | none =>
          refine (fileclose_spec hr.2 (by simp)).mono ?_
          rintro _ s3 ⟨⟨-, hslot3⟩, h3, -⟩
          rw [drop_bump] at h3
          exact ⟨hslot3.trans (hslot2.trans hslot), h3⟩
        | some fd =>
          obtain ⟨-, -, h2, -⟩ := hr
          have hsame : s2.file f = s1.file f := congrFun hfile2 f
          have hgref : (openFile (s2.file f) omode i).ref = (s2.file f).ref := by
            unfold openFile
            split <;> rfl
          refine Ensures.of_modify ⟨hslot2.trans hslot, ?_⟩
          refine h2.setFile ⟨rfl, rfl⟩ rfl (h2.lt f (by rw [hsame]; omega)) ?_ (fun _ _ => rfl)
            (fun hzero => ?_) ?_
          · rw [hgref]
            exact h2.refs f
          · rw [hgref, hsame, href] at hzero
            cases hzero
          · refine h2.piped.setFile ?_ fun hne => absurd endOf_openFile hne
            rw [endOf_openFile, hsame, endOf_none htype]

theorem sysPipe_spec {page : Option ℕ} {copied : Bool} (h : Counts s 0)
    (hlive : s.slot p = .live) (hpage : (page.bind s.pipes).isNone = true) :
    Ensures (sysPipe p page copied) (Keeps s) s := by
  unfold sysPipe
  refine (pipealloc_spec h hpage).bind ?_
  rintro r s1 ⟨⟨hofile1, hslot1⟩, hr⟩
  cases r with
  | none => exact Ensures.of_pure ⟨hslot1, hr⟩
  | some fs =>
    obtain ⟨rf, wf⟩ := fs
    have hlive1 : s1.slot p = .live := hslot1 ▸ hlive
    refine (fdalloc_spec hr hlive1 (bump_comm 0 rf wf)).bind ?_
    rintro r s2 ⟨hslot2, -, hr2⟩
    have hslot : s2.slot = s.slot := hslot2.trans hslot1
    cases r with
    | none =>
      refine (fileclose_both hr2.2).mono ?_
      rintro _ s3 ⟨hslot3, h3⟩
      exact ⟨hslot3.trans hslot, h3⟩
    | some fd0 =>
      obtain ⟨-, hfd0, h2, -⟩ := hr2
      refine (fdalloc_spec h2 (hslot2 ▸ hlive1) rfl).bind ?_
      rintro r s3 ⟨hslot3, -, hr3⟩
      cases r with
      | none =>
        obtain ⟨hofile3, h3⟩ := hr3
        have hcleared := h3.clear (p := p) (hofile3 ▸ hfd0)
        rw [bump_comm] at hcleared
        refine Ensures.modify_bind ((fileclose_both hcleared).mono ?_)
        rintro _ s4 ⟨hslot4, h4⟩
        exact ⟨hslot4.trans (hslot3.trans hslot), h4⟩
      | some fd1 =>
        obtain ⟨hfree, hfd1, h3, hother⟩ := hr3
        dsimp only
        split
        case isTrue => exact Ensures.of_pure ⟨hslot3.trans hslot, h3⟩
        case isFalse =>
          have hne : fd0 ≠ fd1 := by
            rintro rfl
            rw [hfree] at hfd0
            cases hfd0
          have hcleared := h3.clear ((hother fd0 hne).trans hfd0)
          have hfd1' : (s3.setFd p fd0 none).ofile p fd1 = some wf := by
            simpa [setFd, hne.symm] using hfd1
          refine Ensures.modify_bind ((fileclose_both (hcleared.clear hfd1')).mono ?_)
          rintro _ s4 ⟨hslot4, h4⟩
          exact ⟨hslot4.trans (hslot3.trans hslot), h4⟩

/-- Between two rounds of the loop in `fork` the child has the descriptors of the first. -/
structure Forking (s : Files) (p np k : ℕ) : Prop where
  counts : Counts s 0
  parent : s.slot p = .live
  child : s.slot np = .live
  rest : ∀ fd, k ≤ fd → s.ofile np fd = none

theorem forkRound_spec {np k : ℕ} (h : Forking s p np k) (hk : k < nofile) :
    Ensures (forkRound p np k) (fun _ s' => Forking s' p np (k + 1)) s := by
  unfold forkRound
  refine Ensures.look_bind ?_
  cases hfd : s.ofile p k with
  | none => exact Ensures.of_pure ⟨h.counts, h.parent, h.child, fun fd hlt => h.rest fd (by omega)⟩
  | some f =>
    refine (filedup_spec h.counts (h.counts.pos hfd)).bind ?_
    rintro _ s1 ⟨⟨hofile, hslot⟩, h1⟩
    have hchild : s1.slot np = .live := hslot ▸ h.child
    have hstore := h1.store (g := f) hchild hk (by rw [hofile]; exact h.rest k le_rfl) (by simp)
    rw [drop_bump] at hstore
    refine Ensures.of_modify ⟨hstore, hslot ▸ h.parent, hchild, fun fd hlt => ?_⟩
    have hrest := h.rest fd (by omega)
    simpa [setFd, show fd ≠ k by omega, hofile] using hrest

theorem fork_spec {np : ℕ} {ok : Bool} (h : Counts s 0) (hlive : s.slot p = .live)
    (hnp : np < nproc) (hunused : s.slot np = .unused) :
    Ensures (fork p np ok) (fun _ s' => Counts s' 0) s := by
  unfold fork
  split
  case isFalse => exact Ensures.of_pure h
  case isTrue =>
    have hnone : ∀ fd, s.ofile np fd = none := by
      intro fd
      by_contra hsome
      obtain ⟨f, hf⟩ := Option.ne_none_iff_exists'.mp hsome
      rw [(h.fds np fd f hf).1] at hunused
      cases hunused
    refine Ensures.modify_bind ((Ensures.forM_range (I := fun k s' => Forking s' p np k) ?_ ?_).mono
      fun _ s' hs' => hs'.counts)
    · have hslot : ∀ q, (s.setSlot np .live).slot q = if q = np then .live else s.slot q :=
        fun q => Function.update_apply _ _ _ _
      refine ⟨⟨h.refs, h.lt, h.idle, fun q hq => ?_, fun q fd g hq => ?_, h.piped.congr
        (fun _ => rfl) (fun _ _ _ => rfl) rfl rfl rfl⟩, ?_, ?_, fun fd _ => hnone fd⟩
      · rw [hslot] at hq
        by_cases heq : q = np
        · exact heq ▸ hnp
        · exact h.procs q (by rwa [if_neg heq] at hq)
      · obtain ⟨hq, hfd⟩ := h.fds q fd g hq
        rw [hslot]
        exact ⟨by simp [hq], hfd⟩
      · rw [hslot]
        simp [hlive]
      · rw [hslot, if_pos rfl]
    · intro k hk s' hs'
      exact forkRound_spec hs' hk

theorem pipeclose_setFd {pa : ℕ} {w : Bool} {o : Option ℕ} :
    (pipeclose pa w >>= fun _ => modify fun t : Files => t.setFd p fd o) s =
      pipeclose pa w (s.setFd p fd o) := by
  have hpipes : (s.setFd p fd o).pipes pa = s.pipes pa := rfl
  simp only [bind_run, pipeclose, hpipes]
  cases s.pipes pa with
  | none => rfl
  | some e =>
    dsimp only
    split <;> rfl

/-- `exit` closes a file before it clears the descriptor; the other order comes to the same. -/
theorem fileclose_setFd {o : Option ℕ} :
    (fileclose f >>= fun _ => modify fun t : Files => t.setFd p fd o) s =
      fileclose f (s.setFd p fd o) := by
  unfold fileclose
  have hfile : (s.setFd p fd o).file f = s.file f := rfl
  simp only [bind_run, look_run, ok_bind, hfile]
  split
  · rfl
  · split
    · rfl
    · simp only [bind_run, modify_run, ok_bind]
      split
      · exact pipeclose_setFd
      · rfl

/-- Between two rounds of the loop in `exit` the first descriptors are closed. -/
theorem exitRound_spec {k : ℕ} (h : Counts s 0) (hclosed : ∀ fd < k, s.ofile p fd = none) :
    Ensures (exitRound p k) (fun _ s' => Counts s' 0 ∧ ∀ fd < k + 1, s'.ofile p fd = none) s := by
  unfold exitRound
  refine Ensures.look_bind ?_
  cases hfd : s.ofile p k with
  | none =>
    refine Ensures.of_pure ⟨h, fun fd hlt => ?_⟩
    rcases Nat.lt_succ_iff_lt_or_eq.mp hlt with hlt | rfl
    · exact hclosed fd hlt
    · exact hfd
  | some f =>
    obtain ⟨_, s1, hrun, ⟨hofile, -⟩, h1, -⟩ := fileclose_spec (f := f) (h.clear hfd) (by simp)
    rw [drop_bump] at h1
    refine ⟨(), s1, fileclose_setFd.trans hrun, h1, fun fd hlt => ?_⟩
    rw [hofile]
    rcases Nat.lt_succ_iff_lt_or_eq.mp hlt with hlt | rfl
    · simpa [setFd, hlt.ne] using hclosed fd hlt
    · simp [setFd]

theorem exit_spec (h : Counts s 0) (hp : p < nproc) (hinit : p ≠ 0) :
    Ensures (exit p) (fun _ s' => Counts s' 0) s := by
  unfold exit
  rw [if_neg hinit]
  refine (Ensures.forM_range
    (I := fun k s' => Counts s' 0 ∧ ∀ fd < k, s'.ofile p fd = none) ⟨h, nofun⟩ ?_).bind ?_
  · rintro k - s' ⟨hs', hclosed⟩
    exact exitRound_spec hs' hclosed
  · rintro _ s' ⟨hs', hclosed⟩
    refine Ensures.of_modify ⟨hs'.refs, hs'.lt, hs'.idle, fun q hq => ?_, fun q fd g hq => ?_,
      hs'.piped.congr (fun _ => rfl) (fun _ _ _ => rfl) rfl rfl rfl⟩
    · by_cases heq : q = p
      · exact heq ▸ hp
      · exact hs'.procs q (by simpa [setSlot, heq] using hq)
    · obtain ⟨hlive, hfd⟩ := hs'.fds q fd g hq
      refine ⟨?_, hfd⟩
      have hne : q ≠ p := by
        rintro rfl
        have hnone := hclosed fd hfd
        change s'.ofile q fd = some g at hq
        rw [hnone] at hq
        cases hq
      simpa [setSlot, hne] using hlive

/-- `wait` frees the slot of a zombie, which has no descriptors. -/
theorem Counts.reap (h : Counts s 0) (hp : s.slot p = .zombie) :
    Counts (s.setSlot p .unused) 0 := by
  refine ⟨h.refs, h.lt, h.idle, fun q hq => ?_, fun q fd g hq => ?_, h.piped.congr
    (fun _ => rfl) (fun _ _ _ => rfl) rfl rfl rfl⟩
  · by_cases heq : q = p
    · exact h.procs q (by simp [heq, hp])
    · exact h.procs q (by simpa [setSlot, heq] using hq)
  · obtain ⟨hlive, hfd⟩ := h.fds q fd g hq
    refine ⟨?_, hfd⟩
    have hne : q ≠ p := by
      rintro rfl
      rw [hp] at hlive
      cases hlive
    simpa [setSlot, hne] using hlive

/-! ## Sequences of calls -/

theorem endOf_eq_some {g : File} {pa : ℕ} {w : Bool} :
    endOf g = some (pa, w) ↔ 0 < g.ref ∧ g.type = .pipe ∧ g.pipe = pa ∧ g.writable = w := by
  simp [endOf, and_assoc]

namespace Piped

variable {pa : ℕ} {e : Ends}

theorem isOpen_iff (h : s.Piped) (he : s.pipes pa = some e) (w : Bool) :
    Ends.isOpen e w = true ↔ ∃ f, endOf (s.file f) = some (pa, w) := by
  constructor
  · exact h.held pa e w he
  · rintro ⟨f, hf⟩
    obtain ⟨-, e', he', hopen⟩ := h.ends f pa w hf
    rw [he] at he'
    cases he'
    exact hopen

/-- The readable files of a pipe are those of its read end. -/
theorem readable_iff (h : s.Piped) (f pa : ℕ) :
    endOf (s.file f) = some (pa, false) ↔ 0 < (s.file f).ref ∧ (s.file f).type = .pipe ∧
      (s.file f).pipe = pa ∧ (s.file f).readable = true := by
  have hread : endOf (s.file f) = some (pa, (s.file f).writable) →
      (s.file f).readable = !(s.file f).writable := fun hf => (h.ends f pa _ hf).1
  rw [endOf_eq_some] at hread ⊢
  refine and_congr_right fun hpos => and_congr_right fun htype => and_congr_right fun hpa => ?_
  rw [hread ⟨hpos, htype, hpa, rfl⟩]
  cases (s.file f).writable <;> simp

theorem isSome_iff (h : s.Piped) (pa : ℕ) : (s.pipes pa).isSome = true ↔
    ∃ f, 0 < (s.file f).ref ∧ (s.file f).type = .pipe ∧ (s.file f).pipe = pa := by
  constructor
  · intro hsome
    obtain ⟨e, he⟩ := Option.isSome_iff_exists.mp hsome
    obtain ⟨w, hopen⟩ := h.opened pa e he
    obtain ⟨f, hf⟩ := h.held pa e w he hopen
    obtain ⟨hpos, htype, hpa, -⟩ := endOf_eq_some.mp hf
    exact ⟨f, hpos, htype, hpa⟩
  · rintro ⟨f, hpos, htype, hpa⟩
    obtain ⟨-, e, he, -⟩ := h.ends f pa _ (endOf_eq_some.mpr ⟨hpos, htype, hpa, rfl⟩)
    rw [he]
    rfl

end Piped

/-- What a call may end with. -/
def Sound : Files ⊕ FilePanic → Prop
  | .inl s => Counts s 0
  | .inr e => e = .initExiting

theorem run_spec {c : FileCall} (h : Counts s 0) (hcaller : c.caller < nproc)
    (henabled : c.enabled s = true) (hinit : c ≠ .exit 0) :
    Ensures c.run (fun _ s' => Counts s' 0) s := by
  cases c with
  | «open» p omode found =>
    exact (sysOpen_spec h (of_decide_eq_true henabled)).mono fun _ _ h' => h'.2
  | pipe p page copied =>
    have hpre : s.slot p = .live ∧ (page.bind s.pipes).isNone = true := by
      simpa [FileCall.enabled] using henabled
    exact (sysPipe_spec h hpre.1 hpre.2).mono fun _ _ h' => h'.2
  | dup p fd => exact (sysDup_spec h (of_decide_eq_true henabled)).mono fun _ _ h' => h'.2
  | close p fd => exact (sysClose_spec h).mono fun _ _ h' => h'.2
  | fork p np ok =>
    have hpre : s.slot p = .live ∧ np < nproc ∧ s.slot np = .unused := by
      simpa [FileCall.enabled] using henabled
    exact fork_spec h hpre.1 hpre.2.1 hpre.2.2
  | exit p =>
    refine exit_spec h hcaller ?_
    rintro rfl
    exact hinit rfl
  | wait q => exact Ensures.of_modify (h.reap (by simpa [FileCall.enabled] using henabled))

theorem step_sound {s s' : Files ⊕ FilePanic} {c : FileCall} (h : Sound s)
    (hstep : step s c = some s') : Sound s' := by
  cases s with
  | inr e => cases hstep
  | inl s =>
    obtain ⟨⟨hcaller, henabled⟩, hrun⟩ := Option.ite_none_right_eq_some.mp hstep
    by_cases hinit : c = .exit 0
    · subst hinit
      cases hrun
      rfl
    · obtain ⟨_, s1, hs1, h1⟩ := run_spec h hcaller henabled hinit
      rw [hs1] at hrun
      cases hrun
      exact h1

theorem slotsIn_none (D : Finset (ℕ × ℕ)) (f : ℕ) : slotsIn D (fun _ _ => none) f = 0 :=
  Finset.sum_eq_zero fun _ _ => rfl

theorem slots_none (f : ℕ) : slots (fun _ _ => none) f = 0 := slotsIn_none _ f

theorem boot_counts : Counts boot 0 where
  refs f := by
    have hnone := slots_none f
    change 0 = slots (fun _ _ => none) f + 0
    omega
  lt f hpos := absurd hpos (by simp [boot])
  idle _ _ := rfl
  procs p hp := by
    by_cases heq : p = 0
    · rw [heq]
      decide
    · simp [boot, heq] at hp
  fds := nofun
  piped := by
    refine ⟨fun f pa w hf => ?_, fun f g y hf => ?_, nofun, nofun, fun _ => rfl⟩
    · cases hf
    · cases hf

/-- Every file counts its descriptors, a file without any has no type, and a pipe has its page
while one of its ends is open: the page is freed once more exactly when both are closed. No
call panics, unless the first process exits. -/
theorem open_file_counts_exact {t : Files ⊕ FilePanic} (h : Reach step (.inl boot) t) :
    match t with
    | .inr e => e = .initExiting
    | .inl s =>
      (∀ f, (s.file f).ref = slots s.ofile f) ∧
      (∀ f, (s.file f).ref = 0 → (s.file f).type = .none) ∧
      (∀ pa e, s.pipes pa = some e →
        (e.readopen = true ↔ ∃ f, 0 < (s.file f).ref ∧ (s.file f).type = .pipe ∧
          (s.file f).pipe = pa ∧ (s.file f).readable = true) ∧
        (e.writeopen = true ↔ ∃ f, 0 < (s.file f).ref ∧ (s.file f).type = .pipe ∧
          (s.file f).pipe = pa ∧ (s.file f).writable = true)) ∧
      (∀ pa, (s.pipes pa).isSome = true ↔
        ∃ f, 0 < (s.file f).ref ∧ (s.file f).type = .pipe ∧ (s.file f).pipe = pa) ∧
      ∀ pa, s.kallocs pa = s.kfrees pa + if (s.pipes pa).isSome then 1 else 0 := by
  have hsound := ReachOf.invariant Sound (fun _ _ _ _ => step_sound)
    (show Sound (.inl boot) from boot_counts) h
  cases t with
  | inr e => exact hsound
  | inl s =>
    have hcounts : Counts s 0 := hsound
    refine ⟨fun f => by simpa using hcounts.refs f, hcounts.idle, fun pa e he => ⟨?_, ?_⟩,
      fun pa => ?_, hcounts.piped.pages⟩
    · exact (hcounts.piped.isOpen_iff he false).trans (exists_congr fun f =>
        hcounts.piped.readable_iff f pa)
    · exact (hcounts.piped.isOpen_iff he true).trans (exists_congr fun f => endOf_eq_some)
    · exact hcounts.piped.isSome_iff pa

/-- A pipe is opened on page 7 and shared with a child, and the parent closes its read end. -/
def sharedPipe : List FileCall := [.pipe 0 (some 7) true, .fork 0 1 true, .close 0 0]

theorem open_file_counts_exact_of_sharedPipe :
    ∃ s, Reach step (.inl boot) (.inl s) ∧ (s.file 0).ref = 1 ∧ (s.file 1).ref = 2 ∧
      slots s.ofile 1 = 2 ∧ s.pipes 7 = some ⟨true, true⟩ := by
  have hrun : ((runAll step (.inl boot) sharedPipe).bind Sum.getLeft?).any (fun s =>
      (s.file 0).ref = 1 ∧ (s.file 1).ref = 2 ∧ s.pipes 7 = some ⟨true, true⟩) = true := by
    decide +kernel
  obtain ⟨s, hs, hprop⟩ := (Option.any_eq_true _ _).mp hrun
  obtain ⟨t, ht, hst⟩ := Option.bind_eq_some_iff.mp hs
  obtain rfl := Sum.getLeft?_eq_some_iff.mp hst
  obtain ⟨h0, h1, hpipe⟩ := of_decide_eq_true hprop
  have hreach := reach_of_runAll ht
  have hrefs := (open_file_counts_exact hreach).1 1
  exact ⟨s, hreach, h0, h1, hrefs.symm.trans h1, hpipe⟩

end XV6AndConcurrency.FileSystem.Files
