import XV6AndConcurrency.Foundations.Circles
import XV6AndConcurrency.Foundations.Transitions
import XV6AndConcurrency.Scheduling.Tasks

/-!
# The buffer cache

`binit`, `bget`, `brelse`, `bpin` and `bunpin`, each as its section under `bcache.lock`. A
pointer to a buffer is its index, and `head` is the node behind the last one. How often a
buffer has been got and pinned is the history of the calls: it is kept beside the cache, and
no section reads or changes it.
-/

namespace XV6AndConcurrency.FileSystem

open Foundations Scheduling

/-- `NBUF`. -/
def nbuf : ℕ := 30

/-- `&bcache.head`. -/
def head : ℕ := nbuf

/-- `bcache` without its lock and without the data of the buffers. -/
structure Bcache where
  links : Links ℕ
  dev : ℕ → ℕ := fun _ => 0
  blockno : ℕ → ℕ := fun _ => 0
  valid : ℕ → Bool := fun _ => false
  refcnt : ℕ → ℕ := fun _ => 0

/-- The list that `binit` builds, whatever the links are before. -/
def linkAll (t : Links ℕ) : Links ℕ :=
  (List.range nbuf).foldl (fun t b => t.pushFront head b) ((t.setPrev head head).setNext head head)

def binit (t : Links ℕ) : Bcache := { links := linkAll t }

/-- Subtracting one from a `uint`. -/
def decUint (x : ℕ) : ℕ := (x + 4294967295) % 4294967296

namespace Bcache

section

variable (s : Bcache)

/-- How `bget` ends: it found the block, it recycled a buffer, it panicked, or a walk along
the list did not come to an end. -/
inductive Bget
  | found (b : ℕ) (s : Bcache)
  | recycled (b : ℕ) (s : Bcache)
  | noBuffers
  | lost

/-- The buffer caches the block. -/
def caches (dev blockno b : ℕ) : Bool := s.dev b = dev ∧ s.blockno b = blockno

def unused (b : ℕ) : Bool := s.refcnt b = 0

/-- The section of `bget` for a block that is cached. -/
def hit (b : ℕ) : Bcache :=
  { s with refcnt := Function.update s.refcnt b (incUint (s.refcnt b)) }

/-- The section of `bget` for a block that is not cached. -/
def recycle (dev blockno b : ℕ) : Bcache :=
  { s with dev := Function.update s.dev b dev
           blockno := Function.update s.blockno b blockno
           valid := Function.update s.valid b false
           refcnt := Function.update s.refcnt b 1 }

/-- `bget` up to its `acquiresleep`. -/
def bget (dev blockno : ℕ) : Bget :=
  match Links.search s.links.next head (s.caches dev blockno) (nbuf + 1) (s.links.next head) with
  | none => .lost
  | some (some b) => .found b (s.hit b)
  | some none =>
    match Links.search s.links.prev head s.unused (nbuf + 1) (s.links.prev head) with
    | none => .lost
    | some (some b) => .recycled b (s.recycle dev blockno b)
    | some none => .noBuffers

/-- The section of `brelse`. -/
def brelse (b : ℕ) : Bcache :=
  let refcnt := decUint (s.refcnt b)
  { s with refcnt := Function.update s.refcnt b refcnt
           links := if refcnt = 0 then (s.links.unlink b).pushFront head b else s.links }

def bpin (b : ℕ) : Bcache :=
  { s with refcnt := Function.update s.refcnt b (incUint (s.refcnt b)) }

def bunpin (b : ℕ) : Bcache :=
  { s with refcnt := Function.update s.refcnt b (decUint (s.refcnt b)) }

end

end Bcache

/-- The buffer cache and its references: how often each buffer has been got and not released,
and how often it has been pinned and not unpinned. -/
structure BcacheUse where
  cache : Bcache
  holders : ℕ → ℕ := fun _ => 0
  pins : ℕ → ℕ := fun _ => 0

namespace BcacheUse

inductive Call
  | bget (dev blockno : ℕ)
  | brelse (b : ℕ)
  | bpin (b : ℕ)
  | bunpin (b : ℕ)

section

variable (s : BcacheUse)

/-- The references to a buffer that are outstanding. -/
def outstanding (b : ℕ) : ℕ := s.holders b + s.pins b

def got (b : ℕ) (c : Bcache) : BcacheUse :=
  { s with cache := c, holders := Function.update s.holders b (s.holders b + 1) }

/-- A call; a buffer is released and unpinned only by who has got and pinned it. -/
def step : Call → Option BcacheUse
  | .bget dev blockno =>
    match s.cache.bget dev blockno with
    | .found b c => some (s.got b c)
    | .recycled b c => some (s.got b c)
    | .noBuffers | .lost => none
  | .brelse b =>
    if b < nbuf ∧ 0 < s.holders b then
      some { s with cache := s.cache.brelse b
                    holders := Function.update s.holders b (s.holders b - 1) }
    else none
  | .bpin b =>
    if b < nbuf then
      some { s with cache := s.cache.bpin b, pins := Function.update s.pins b (s.pins b + 1) }
    else none
  | .bunpin b =>
    if b < nbuf ∧ 0 < s.pins b then
      some { s with cache := s.cache.bunpin b, pins := Function.update s.pins b (s.pins b - 1) }
    else none

/-- The calls are for devices other than 0. -/
def OnDevice : Call → Prop
  | .bget dev _ => dev ≠ 0
  | _ => True

/-- There are not as many references as a `uint` can count: a process has got at most a few
buffers at a time, and the log pins no more of them than it has blocks. -/
def Room : Prop := ∀ b < nbuf, s.outstanding b + 1 < 4294967296

/-- What the callers keep to. -/
def Callers (m : Call) : Prop := OnDevice m ∧ s.Room

end

end BcacheUse

/-! ## The order of the buffers -/

namespace Bcache

/-- The order of the buffers, the most recently used one first. -/
structure Order (s : Bcache) (l : List ℕ) : Prop where
  circle : s.links.Circle head l
  perm : l.Perm (List.range nbuf)

variable {s : Bcache} {l : List ℕ} {b : ℕ}

theorem Order.mem (h : s.Order l) : b ∈ l ↔ b < nbuf := by
  rw [h.perm.mem_iff, List.mem_range]

theorem Order.length (h : s.Order l) : l.length = nbuf := by
  rw [h.perm.length_eq, List.length_range]

theorem Order.search_next (h : s.Order l) (P : ℕ → Bool) :
    Links.search s.links.next head P (nbuf + 1) (s.links.next head) = some (l.find? P) :=
  h.circle.seg.search (List.nodup_cons.mp h.circle.nodup).1 (by rw [h.length]; omega)

theorem Order.search_prev (h : s.Order l) (P : ℕ → Bool) :
    Links.search s.links.prev head P (nbuf + 1) (s.links.prev head) =
      some (l.reverse.find? P) := by
  refine h.circle.seg.reverse.search ?_ ?_
  · rw [List.mem_reverse]
    exact (List.nodup_cons.mp h.circle.nodup).1
  · rw [List.length_reverse, h.length]
    omega

theorem caches_iff {dev blockno : ℕ} :
    s.caches dev blockno b = true ↔ s.dev b = dev ∧ s.blockno b = blockno := decide_eq_true_iff

theorem unused_iff : s.unused b = true ↔ s.refcnt b = 0 := decide_eq_true_iff

/-- What `bget` does, with the order of the buffers. -/
theorem Order.bget_cases (h : s.Order l) (dev blockno : ℕ) :
    (∃ b, s.bget dev blockno = .found b (s.hit b) ∧ b < nbuf ∧ s.dev b = dev ∧
      s.blockno b = blockno) ∨
    (∃ b l₁ l₂, s.bget dev blockno = .recycled b (s.recycle dev blockno b) ∧
      l = l₁ ++ b :: l₂ ∧ s.refcnt b = 0 ∧ (∀ x ∈ l₂, s.refcnt x ≠ 0) ∧
      ∀ x < nbuf, ¬ (s.dev x = dev ∧ s.blockno x = blockno)) ∨
    s.bget dev blockno = .noBuffers := by
  unfold bget
  rw [h.search_next, h.search_prev]
  cases hfind : l.find? (s.caches dev blockno) with
  | some b =>
    obtain ⟨hdev, hblock⟩ := caches_iff.mp (List.find?_some hfind)
    exact Or.inl ⟨b, rfl, h.mem.mp (List.mem_of_find?_eq_some hfind), hdev, hblock⟩
  | none =>
    have hnone : ∀ x < nbuf, ¬ (s.dev x = dev ∧ s.blockno x = blockno) := fun x hx hcached =>
      List.find?_eq_none.mp hfind x (h.mem.mpr hx) (caches_iff.mpr hcached)
    cases hlru : l.reverse.find? s.unused with
    | none => exact Or.inr (Or.inr rfl)
    | some b =>
      obtain ⟨hunused, l₂, l₁, hsplit, hbusy⟩ := List.find?_eq_some_iff_append.mp hlru
      refine Or.inr (Or.inl ⟨b, l₁.reverse, l₂.reverse, rfl, ?_, unused_iff.mp hunused, ?_, hnone⟩)
      · rw [← List.reverse_reverse l, hsplit]
        simp
      · intro x hx hzero
        have hbusy' := hbusy x (List.mem_reverse.mp hx)
        rw [unused_iff.mpr hzero] at hbusy'
        cases hbusy'

/-- A buffer that is not used any more goes to the front of the list. -/
theorem Order.front (h : s.Order l) (hb : b < nbuf) :
    ((s.links.unlink b).pushFront head b).Circle head (b :: l.erase b) ∧
      (b :: l.erase b).Perm (List.range nbuf) := by
  have hmem : b ∈ l := h.mem.mpr hb
  obtain ⟨l₁, l₂, hnot, hsplit, herase⟩ := List.exists_erase_eq hmem
  have hcircle := h.circle
  have hnodup := hcircle.nodup
  rw [hsplit] at hcircle hnodup
  refine ⟨?_, (List.perm_cons_erase hmem).symm.trans h.perm⟩
  rw [herase]
  refine hcircle.unlink.pushFront ?_
  have hmiddle : (b :: (head :: (l₁ ++ l₂))).Nodup := by
    refine (List.Perm.nodup_iff ?_).mp hnodup
    exact (List.Perm.cons _ List.perm_middle).trans (List.Perm.swap _ _ _)
  exact (List.nodup_cons.mp hmiddle).1

/-- The loop of `binit` links in one buffer after the other. -/
theorem circle_foldl {t : Links ℕ} {l bs : List ℕ} (ht : t.Circle head l)
    (hnodup : (bs ++ (head :: l)).Nodup) :
    (bs.foldl (fun t b => t.pushFront head b) t).Circle head (bs.reverse ++ l) := by
  induction bs generalizing t l with
  | nil => exact ht
  | cons b bs ih =>
    rw [List.foldl_cons, List.reverse_cons, List.append_assoc]
    rw [List.cons_append] at hnodup
    obtain ⟨hb, hrest⟩ := List.nodup_cons.mp hnodup
    refine ih (ht.pushFront fun hmem => hb (List.mem_append_right _ hmem)) ?_
    refine (List.Perm.nodup_iff ?_).mp hnodup
    refine List.perm_middle.symm.trans ?_
    exact List.Perm.append_left _ (List.Perm.swap _ _ _)

theorem order_binit (t : Links ℕ) : ∃ l, (binit t).Order l := by
  have hcircle : ((t.setPrev head head).setNext head head).Circle head [] := by
    refine ⟨⟨?_, ?_⟩, List.nodup_singleton _⟩ <;>
      simp only [Links.setNext, Links.setPrev, Function.update_self]
  refine ⟨_, circle_foldl hcircle ?_, ?_⟩
  · decide
  · rw [List.append_nil]
    exact List.reverse_perm _

end Bcache

/-! ## The invariant -/

theorem incUint_of_lt {x : ℕ} (h : x + 1 < 4294967296) : incUint x = x + 1 := Nat.mod_eq_of_lt h

theorem decUint_of_pos {x : ℕ} (hpos : 0 < x) (h : x < 4294967296) : decUint x = x - 1 := by
  unfold decUint
  omega

namespace BcacheUse

open Bcache

structure Sound (s : BcacheUse) : Prop where
  order : ∃ l, s.cache.Order l
  unique : ∀ i < nbuf, ∀ j < nbuf, s.cache.dev i ≠ 0 → s.cache.dev i = s.cache.dev j →
    s.cache.blockno i = s.cache.blockno j → i = j
  fresh : ∀ i, s.cache.dev i = 0 → s.cache.blockno i = 0
  refcnt : ∀ b, s.cache.refcnt b = s.outstanding b
  bounded : ∀ b, s.outstanding b < 4294967296

variable {s s' : BcacheUse} {b : ℕ}

/-- A call that counts one reference more or less, in the cache and in the history. -/
theorem Sound.count (hs : s.Sound) {t : Links ℕ} {n h k : ℕ}
    (horder : ∃ l, t.Circle head l ∧ l.Perm (List.range nbuf)) (hn : n = h + k)
    (hlt : n < 4294967296) :
    Sound { s with cache := { s.cache with links := t
                                           refcnt := Function.update s.cache.refcnt b n }
                   holders := Function.update s.holders b h
                   pins := Function.update s.pins b k } where
  order := by
    obtain ⟨l, hcircle, hperm⟩ := horder
    exact ⟨l, hcircle, hperm⟩
  unique := hs.unique
  fresh := hs.fresh
  refcnt := by
    intro x
    have hx := hs.refcnt x
    simp only [outstanding, Function.update_apply] at hx ⊢
    split
    · exact hn
    · exact hx
  bounded := by
    intro x
    have hx := hs.bounded x
    simp only [outstanding, Function.update_apply] at hx ⊢
    split
    · omega
    · exact hx

theorem Sound.circle (hs : s.Sound) :
    ∃ l, s.cache.links.Circle head l ∧ l.Perm (List.range nbuf) := by
  obtain ⟨l, hl⟩ := hs.order
  exact ⟨l, hl.circle, hl.perm⟩

theorem Sound.incUint_refcnt (hs : s.Sound) (hb : b < nbuf) (hroom : s.Room) :
    incUint (s.cache.refcnt b) = s.outstanding b + 1 := by
  rw [hs.refcnt b]
  exact incUint_of_lt (hroom b hb)

theorem Sound.decUint_refcnt (hs : s.Sound) (hpos : 0 < s.outstanding b) :
    decUint (s.cache.refcnt b) = s.outstanding b - 1 := by
  rw [hs.refcnt b]
  exact decUint_of_pos hpos (hs.bounded b)

theorem Sound.hit (hs : s.Sound) (hb : b < nbuf) (hroom : s.Room) :
    (s.got b (s.cache.hit b)).Sound := by
  have hinc := hs.incUint_refcnt hb hroom
  have hlt := hroom b hb
  have hcount := hs.count (b := b) (n := incUint (s.cache.refcnt b)) (h := s.holders b + 1)
    (k := s.pins b) hs.circle ?_ ?_
  · rwa [Function.update_eq_self] at hcount
  all_goals
    rw [hinc]
    unfold outstanding at *
    omega

theorem Sound.bpin (hs : s.Sound) (hb : b < nbuf) (hroom : s.Room) :
    Sound { s with cache := s.cache.bpin b
                   pins := Function.update s.pins b (s.pins b + 1) } := by
  have hinc := hs.incUint_refcnt hb hroom
  have hlt := hroom b hb
  have hcount := hs.count (b := b) (n := incUint (s.cache.refcnt b)) (h := s.holders b)
    (k := s.pins b + 1) hs.circle ?_ ?_
  · rwa [Function.update_eq_self] at hcount
  all_goals
    rw [hinc]
    unfold outstanding at *
    omega

theorem Sound.bunpin (hs : s.Sound) (hpin : 0 < s.pins b) :
    Sound { s with cache := s.cache.bunpin b
                   pins := Function.update s.pins b (s.pins b - 1) } := by
  have hdec := hs.decUint_refcnt (b := b) (by unfold outstanding; omega)
  have hlt := hs.bounded b
  have hcount := hs.count (b := b) (n := decUint (s.cache.refcnt b)) (h := s.holders b)
    (k := s.pins b - 1) hs.circle ?_ ?_
  · rwa [Function.update_eq_self] at hcount
  all_goals
    rw [hdec]
    unfold outstanding at *
    omega

theorem Sound.brelse (hs : s.Sound) (hb : b < nbuf) (hhold : 0 < s.holders b) :
    Sound { s with cache := s.cache.brelse b
                   holders := Function.update s.holders b (s.holders b - 1) } := by
  have hdec := hs.decUint_refcnt (b := b) (by unfold outstanding; omega)
  have hlt := hs.bounded b
  have hcount := hs.count (b := b) (n := decUint (s.cache.refcnt b)) (h := s.holders b - 1)
    (k := s.pins b)
    (t := if decUint (s.cache.refcnt b) = 0 then
      (s.cache.links.unlink b).pushFront head b else s.cache.links)
    ?_ ?_ ?_
  · rwa [Function.update_eq_self] at hcount
  · split
    · obtain ⟨l, hl⟩ := hs.order
      exact ⟨_, hl.front hb⟩
    · exact hs.circle
  all_goals
    rw [hdec]
    unfold outstanding at *
    omega

theorem Sound.recycle (hs : s.Sound) {dev blockno : ℕ} (hdev : dev ≠ 0)
    (hzero : s.cache.refcnt b = 0)
    (hnone : ∀ x < nbuf, ¬ (s.cache.dev x = dev ∧ s.cache.blockno x = blockno)) :
    (s.got b (s.cache.recycle dev blockno b)).Sound where
  order := by
    obtain ⟨l, hl⟩ := hs.order
    exact ⟨l, hl.circle, hl.perm⟩
  unique := by
    have hunique := hs.unique
    simp only [got, Bcache.recycle, Function.update_apply]
    grind
  fresh := by
    have hfresh := hs.fresh
    simp only [got, Bcache.recycle, Function.update_apply]
    grind
  refcnt := by
    intro x
    have hx := hs.refcnt x
    simp only [outstanding, got, Bcache.recycle, Function.update_apply] at hx ⊢
    split
    · subst_vars
      omega
    · exact hx
  bounded := by
    intro x
    have hx := hs.bounded x
    have hb := hs.refcnt b
    simp only [outstanding, got, Function.update_apply] at hx hb ⊢
    split
    · subst_vars
      omega
    · exact hx

theorem Sound.step (hs : s.Sound) {m : Call} (hok : s.Callers m) (h : s.step m = some s') :
    s'.Sound := by
  obtain ⟨hdev, hroom⟩ := hok
  cases m with
  | bget dev blockno =>
    obtain ⟨l, hl⟩ := hs.order
    simp only [BcacheUse.step] at h
    obtain ⟨b, heq, hb, -⟩ | ⟨b, l₁, l₂, heq, -, hzero, -, hnone⟩ | heq :=
      hl.bget_cases dev blockno
    · rw [heq] at h
      obtain rfl := Option.some.inj h
      exact hs.hit hb hroom
    · rw [heq] at h
      obtain rfl := Option.some.inj h
      exact hs.recycle hdev hzero hnone
    · rw [heq] at h
      cases h
  | brelse b =>
    obtain ⟨⟨hb, hhold⟩, h⟩ := Option.ite_none_right_eq_some.mp h
    obtain rfl := Option.some.inj h
    exact hs.brelse hb hhold
  | bpin b =>
    obtain ⟨hb, h⟩ := Option.ite_none_right_eq_some.mp h
    obtain rfl := Option.some.inj h
    exact hs.bpin hb hroom
  | bunpin b =>
    obtain ⟨⟨-, hpin⟩, h⟩ := Option.ite_none_right_eq_some.mp h
    obtain rfl := Option.some.inj h
    exact hs.bunpin hpin

theorem sound_binit (t : Links ℕ) : Sound { cache := binit t } where
  order := order_binit t
  unique := fun _ _ _ _ hdev => absurd rfl hdev
  fresh := fun _ _ => rfl
  refcnt := fun _ => rfl
  bounded := fun _ => by norm_num [outstanding]

/-- In every sequence of calls on devices other than 0, from `binit` on: the list through
`head` is a circle with every buffer once, and no two buffers hold the same block (those
that `bget` has not yet used hold none, their device is 0); `refcnt` counts the holders and
pins; `bget` finds the end of its walks, and it recycles the buffer that is the nearest to
`head.prev` among those with `refcnt` 0; a `brelse` that drops `refcnt` to 0 moves its
buffer to the front; and no call changes what a buffer with a reference holds. -/
theorem bcache_invariant (t : Links ℕ) (s : BcacheUse)
    (h : ReachOf step Callers { cache := binit t } s) :
    ∃ l, s.cache.links.Circle head l ∧ l.Perm (List.range nbuf) ∧
      (∀ i < nbuf, ∀ j < nbuf, s.cache.dev i = s.cache.dev j →
        s.cache.blockno i = s.cache.blockno j →
        i = j ∨ (s.cache.dev i = 0 ∧ s.cache.blockno i = 0)) ∧
      (∀ b, s.cache.refcnt b = s.holders b + s.pins b) ∧
      (∀ dev blockno, s.cache.bget dev blockno ≠ .lost) ∧
      (∀ dev blockno b c, s.cache.bget dev blockno = .recycled b c →
        ∃ l₁ l₂, l = l₁ ++ b :: l₂ ∧ s.cache.refcnt b = 0 ∧ ∀ x ∈ l₂, 0 < s.cache.refcnt x) ∧
      (∀ b s', s.step (.brelse b) = some s' → s'.cache.refcnt b = 0 →
        s'.cache.links.Circle head (b :: l.erase b)) ∧
      ∀ m s' b, s.step m = some s' → 0 < s.cache.refcnt b →
        s'.cache.dev b = s.cache.dev b ∧ s'.cache.blockno b = s.cache.blockno b := by
  have hs : s.Sound :=
    ReachOf.invariant Sound (fun _ _ _ hok hs h => hs.step hok h) (sound_binit t) h
  obtain ⟨l, hl⟩ := hs.order
  refine ⟨l, hl.circle, hl.perm, fun i hi j hj hdev hblock => ?_, hs.refcnt,
    fun dev blockno hlost => ?_, fun dev blockno b c hrec => ?_, fun b s' hstep hzero => ?_,
    fun m s' b hstep hpos => ?_⟩
  · by_cases hzero : s.cache.dev i = 0
    · exact Or.inr ⟨hzero, hs.fresh i hzero⟩
    · exact Or.inl (hs.unique i hi j hj hzero hdev hblock)
  · obtain ⟨b, heq, -⟩ | ⟨b, l₁, l₂, heq, -⟩ | heq := hl.bget_cases dev blockno <;>
      rw [heq] at hlost <;> cases hlost
  · obtain ⟨b', heq, -⟩ | ⟨b', l₁, l₂, heq, hsplit, hzero, hbusy, -⟩ | heq :=
      hl.bget_cases dev blockno
    · rw [heq] at hrec
      cases hrec
    · rw [heq] at hrec
      cases hrec
      exact ⟨l₁, l₂, hsplit, hzero, fun x hx => Nat.pos_of_ne_zero (hbusy x hx)⟩
    · rw [heq] at hrec
      cases hrec
  · obtain ⟨⟨hb, -⟩, hstep⟩ := Option.ite_none_right_eq_some.mp hstep
    obtain rfl := Option.some.inj hstep
    have hdrop : decUint (s.cache.refcnt b) = 0 := by
      simpa only [Bcache.brelse, Function.update_self] using hzero
    simp only [Bcache.brelse, if_pos hdrop]
    exact (hl.front hb).1
  · cases m with
    | bget dev blockno =>
      simp only [BcacheUse.step] at hstep
      obtain ⟨b', heq, -⟩ | ⟨b', l₁, l₂, heq, -, hzero, -⟩ | heq := hl.bget_cases dev blockno
      · rw [heq] at hstep
        obtain rfl := Option.some.inj hstep
        exact ⟨rfl, rfl⟩
      · rw [heq] at hstep
        obtain rfl := Option.some.inj hstep
        have hne : b ≠ b' := by
          rintro rfl
          omega
        exact ⟨Function.update_of_ne hne _ _, Function.update_of_ne hne _ _⟩
      · rw [heq] at hstep
        cases hstep
    | brelse b' | bpin b' | bunpin b' =>
      obtain ⟨-, hstep⟩ := Option.ite_none_right_eq_some.mp hstep
      obtain rfl := Option.some.inj hstep
      exact ⟨rfl, rfl⟩

/-- Block 1 of device 1 is got and released, then block 2 is got and pinned, block 1 is found
in the cache, and block 2 is unpinned and released. -/
def someCalls : List Call :=
  [.bget 1 1, .brelse 0, .bget 1 2, .bpin 1, .bget 1 1, .bunpin 1, .brelse 1, .bpin 0]

/-- Links of a memory that is all zero. -/
def zeroLinks : Links ℕ := ⟨fun _ => 0, fun _ => 0⟩

instance : DecidablePred OnDevice
  | .bget dev _ => inferInstanceAs (Decidable (dev ≠ 0))
  | .brelse _ | .bpin _ | .bunpin _ => isTrue trivial

instance (s : BcacheUse) : Decidable s.Room :=
  inferInstanceAs (Decidable (∀ b < nbuf, s.outstanding b + 1 < 4294967296))

instance (s : BcacheUse) (m : Call) : Decidable (s.Callers m) :=
  inferInstanceAs (Decidable (OnDevice m ∧ s.Room))

theorem bcache_invariant_of_someCalls :
    ∃ s, ReachOf step Callers { cache := binit zeroLinks } s ∧
    (s.cache.refcnt 0 = 2 ∧ s.cache.refcnt 1 = 0 ∧ s.cache.links.next head = 1) ∧
    ∃ l, s.cache.links.Circle head l ∧ l.Perm (List.range nbuf) ∧
      (∀ i < nbuf, ∀ j < nbuf, s.cache.dev i = s.cache.dev j →
        s.cache.blockno i = s.cache.blockno j →
        i = j ∨ (s.cache.dev i = 0 ∧ s.cache.blockno i = 0)) ∧
      (∀ b, s.cache.refcnt b = s.holders b + s.pins b) ∧
      (∀ dev blockno, s.cache.bget dev blockno ≠ .lost) ∧
      (∀ dev blockno b c, s.cache.bget dev blockno = .recycled b c →
        ∃ l₁ l₂, l = l₁ ++ b :: l₂ ∧ s.cache.refcnt b = 0 ∧ ∀ x ∈ l₂, 0 < s.cache.refcnt x) ∧
      (∀ b s', s.step (.brelse b) = some s' → s'.cache.refcnt b = 0 →
        s'.cache.links.Circle head (b :: l.erase b)) ∧
      ∀ m s' b, s.step m = some s' → 0 < s.cache.refcnt b →
        s'.cache.dev b = s.cache.dev b ∧ s'.cache.blockno b = s.cache.blockno b := by
  have hrun : (runAll (fun s a => if Callers s a then step s a else none)
      { cache := binit zeroLinks } someCalls).any
      (fun s => s.cache.refcnt 0 = 2 ∧ s.cache.refcnt 1 = 0 ∧ s.cache.links.next head = 1) =
        true := by
    decide +kernel
  obtain ⟨s, hs, hend⟩ := (Option.any_eq_true _ _).mp hrun
  have hreach : ReachOf step Callers { cache := binit zeroLinks } s := reachOf_of_runAll hs
  exact ⟨s, hreach, of_decide_eq_true hend, bcache_invariant zeroLinks s hreach⟩

end BcacheUse

end XV6AndConcurrency.FileSystem
