import XV6AndConcurrency.Devices.VirtioDisk

/-!
# Requests and completions

Every descriptor is free or in the chain of one call, every head on its way through the
rings belongs to a call that still waits, and a call goes on only when the device has
served its request.
-/

namespace XV6AndConcurrency.Devices.Disk

open Foundations Scheduling Synchronization

variable {d d' : Disk}

/-! ## Allocation -/

theorem freeDesc_ok {i : ℕ} (hi : i < num) (hfree : d.free i = false) :
    d.freeDesc i =
      .ok { d with desc := Function.update d.desc i {},
                   free := Function.update d.free i true } := by
  unfold freeDesc
  rw [if_neg (not_le.mpr hi), if_neg (by simp [hfree])]

/-- Descriptors that were free and now are not. -/
structure Took (d : Disk) (is : List ℕ) (d' : Disk) : Prop where
  eq : d' = { d with free := fun i => if i ∈ is then false else d.free i }
  nodup : is.Nodup
  was : ∀ i ∈ is, i < num ∧ d.free i = true

/-- Descriptors that are cleared. -/
def clear (d : Disk) (is : List ℕ) : Disk :=
  { d with desc := fun i => if i ∈ is then {} else d.desc i }

theorem took_nil (d : Disk) : Took d [] d := ⟨by simp, List.nodup_nil, by simp⟩

theorem Took.alloc {is : List ℕ} {i : ℕ} {d'' : Disk} (h : Took d is d')
    (hi : d'.allocDesc = some (i, d'')) : Took d (is ++ [i]) d'' := by
  obtain ⟨rfl, hnodup, hwas⟩ := h
  obtain ⟨j, hj, heq⟩ := Option.map_eq_some_iff.mp hi
  cases heq
  have hlt : i < num := List.mem_range.mp (List.mem_of_find?_eq_some hj)
  have hfree := List.find?_some hj
  simp only [Bool.if_false_left, Bool.and_eq_true, Bool.not_eq_true', decide_eq_false_iff_not]
    at hfree
  refine ⟨?_, ?_, ?_⟩
  · congr 1
    funext j
    rw [Function.update_apply]
    grind
  · exact List.nodup_append.mpr ⟨hnodup, List.nodup_singleton i, by grind⟩
  · grind

theorem foldlM_freeDesc (is : List ℕ) (hnodup : is.Nodup)
    (his : ∀ i ∈ is, i < num ∧ d.free i = false) :
    is.foldlM freeDesc d =
      .ok { d.clear is with free := fun i => if i ∈ is then true else d.free i } := by
  induction is generalizing d with
  | nil => simp [clear, pure, Except.pure]
  | cons i is ih =>
    obtain ⟨hlt, hfree⟩ := his i (by simp)
    rw [List.foldlM_cons, freeDesc_ok hlt hfree]
    change is.foldlM freeDesc _ = _
    obtain ⟨hnot, hnodup⟩ := List.nodup_cons.mp hnodup
    rw [ih hnodup]
    · simp only [clear, Except.ok.injEq, Disk.mk.injEq, true_and, and_true]
      refine ⟨funext fun j => ?_, funext fun j => ?_⟩ <;> grind [Function.update_apply]
    · intro j hj
      obtain ⟨hlt', hfree'⟩ := his j (by simp [hj])
      have hne : j ≠ i := fun heq => hnot (heq ▸ hj)
      exact ⟨hlt', (Function.update_of_ne hne _ _).trans hfree'⟩

/-- Giving everything back leaves the free descriptors as they were. -/
theorem Took.undo {is : List ℕ} (h : Took d is d') :
    d'.undo is = .failed is.length (d.clear is) := by
  obtain ⟨rfl, hnodup, hwas⟩ := h
  unfold Disk.undo
  rw [foldlM_freeDesc is hnodup fun i hi => ⟨(hwas i hi).1, if_pos hi⟩]
  simp only [clear]
  congr 1
  congr 1
  funext i
  by_cases hi : i ∈ is
  · rw [if_pos hi, (hwas i hi).2]
  · rw [if_neg hi, if_neg hi]

/-- `alloc3_desc` takes three free descriptors, or fails and clears some free ones. -/
theorem alloc3Desc_cases (d : Disk) :
    (∃ i0 i1 i2 d', d.alloc3Desc = .got i0 i1 i2 d' ∧ Took d [i0, i1, i2] d') ∨
      ∃ is, d.alloc3Desc = .failed is.length (d.clear is) ∧
        ∀ i ∈ is, i < num ∧ d.free i = true := by
  unfold alloc3Desc
  cases h0 : d.allocDesc with
  | none => exact Or.inr ⟨[], (took_nil d).undo, by simp⟩
  | some x0 =>
    have t0 := (took_nil d).alloc h0
    cases h1 : x0.2.allocDesc with
    | none =>
      refine Or.inr ⟨[x0.1], ?_, t0.was⟩
      simp only [h1]
      exact t0.undo
    | some x1 =>
      have t1 := t0.alloc h1
      cases h2 : x1.2.allocDesc with
      | none =>
        refine Or.inr ⟨[x0.1, x1.1], ?_, t1.was⟩
        simp only [h1, h2]
        exact t1.undo
      | some x2 =>
        refine Or.inl ⟨x0.1, x1.1, x2.1, x2.2, ?_, t1.alloc h2⟩
        simp only [h1, h2]

/-! ## Chains

What follows is about the codes of the calls; whether one has the lock matters only while
it publishes its request. -/

/-- The codes of all calls. -/
def codes (v : ℕ → View Code) (p : ℕ) : Code := code (v p)

theorem codes_update (v : ℕ → View Code) (p : ℕ) (y : View Code) :
    codes (Function.update v p y) = Function.update (codes v) p (code y) := by
  funext q
  unfold codes
  rw [Function.update_apply, Function.update_apply]
  split <;> rfl

/-- Every buffer and every descriptor is used by one call at most, and the descriptors
that no call uses are free. -/
structure Chains (c : ℕ → Code) (free : ℕ → Bool) : Prop where
  procs : ∀ q b, (c q).buf = some b → q < nproc
  bufs : ∀ p q b, (c p).buf = some b → (c q).buf = some b → p = q
  nodup : ∀ p, (c p).chain.Nodup
  lt : ∀ p, ∀ i ∈ (c p).chain, i < num
  disjoint : ∀ p q i, i ∈ (c p).chain → i ∈ (c q).chain → p = q
  free : ∀ i < num, free i = false ↔ ∃ p, i ∈ (c p).chain

variable {c : ℕ → Code} {v : ℕ → View Code} {p : ℕ} {k' : Code}

/-- A call takes free descriptors or gives some of its own back. -/
theorem Chains.move {free free' : ℕ → Bool} (h : Chains c free)
    (hbuf : ∀ b, k'.buf = some b → (c p).buf = some b) (hnodup : k'.chain.Nodup)
    (hchain : ∀ i ∈ k'.chain, i ∈ (c p).chain ∨ (i < num ∧ free i = true))
    (hfree : ∀ i < num, free' i =
      if i ∈ k'.chain then false else if i ∈ (c p).chain then true else free i) :
    Chains (Function.update c p k') free' := by
  obtain ⟨procs, bufs, nodup, lt, disjoint, free⟩ := h
  constructor
  case free =>
    intro i hi
    rw [hfree i hi]
    have hfree := free i hi
    constructor
    · intro h
      by_cases hk : i ∈ k'.chain
      · exact ⟨p, by rwa [Function.update_self]⟩
      · rw [if_neg hk] at h
        split at h
        · cases h
        case isFalse hp =>
          obtain ⟨q, hq⟩ := hfree.mp h
          refine ⟨q, ?_⟩
          rwa [Function.update_of_ne]
          rintro rfl
          exact hp hq
    · rintro ⟨q, hq⟩
      by_cases hqp : q = p
      · subst hqp
        rw [Function.update_self] at hq
        rw [if_pos hq]
      · rw [Function.update_of_ne hqp] at hq
        have hnot : i ∉ (c p).chain := fun hp => hqp (disjoint q p i hq hp)
        rw [if_neg hnot, hfree.mpr ⟨q, hq⟩, ite_self]
  case disjoint =>
    have := fun q i hi hlt => (free i hlt).mpr ⟨q, hi⟩
    grind [Function.update_apply]
  all_goals grind [Function.update_apply]

/-- A call goes on with the descriptors it has. -/
theorem Chains.same {free : ℕ → Bool} (h : Chains c free)
    (hbuf : ∀ b, k'.buf = some b → (c p).buf = some b) (hchain : k'.chain = (c p).chain) :
    Chains (Function.update c p k') free := by
  refine h.move hbuf (hchain ▸ h.nodup p) (fun i hi => Or.inl (hchain ▸ hi)) fun i hi => ?_
  rw [hchain]
  split
  case isTrue hmem => exact (h.free i hi).mpr ⟨p, hmem⟩
  case isFalse => rfl

/-! ## Requests -/

/-- The descriptor of a call at an index of its chain. -/
def descAt (r : Op) (j : ℕ) : Desc :=
  if j = r.i0 then { addr := .ops r.i0, len := 16, flags := fNext, next := r.i1 }
  else if j = r.i1 then
    { addr := .data r.b, len := 1024, flags := (if r.write then 0 else fWrite) ||| fNext,
      next := r.i2 }
  else { addr := .status r.i0, len := 1, flags := fWrite, next := 0 }

/-- The device has served the request of the call. -/
def Served (d : Disk) (r : Op) : Prop := (r.header, r.b) ∈ d.served

/-- What a call relies on. -/
def Holds (d : Disk) : Code → Prop
  | .publish r => (∀ j ∈ [r.i0, r.i1, r.i2], d.desc j = descAt r j) ∧ d.ops r.i0 = r.header ∧
      (d.info r.i0).b = some r.b ∧ d.bufDisk r.b = true ∧ d.avail.ring (d.avail.idx % num) = r.i0
  | .wait r => (∀ j ∈ [r.i0, r.i1, r.i2], d.desc j = descAt r j) ∧ d.ops r.i0 = r.header ∧
      (d.info r.i0).b = some r.b ∧ (d.bufDisk r.b = false → d.Served r)
  | .freeChain r i => (i ∈ [r.i0, r.i1, r.i2] ∧ [r.i0, r.i1, r.i2].Nodup) ∧
      (∀ j ∈ [r.i0, r.i1, r.i2].dropWhile (· ≠ i), d.desc j = descAt r j) ∧ d.Served r
  | .done r => d.Served r
  | _ => True

/-- A step that leaves alone what a call relies on. -/
structure Frame (d d' : Disk) (k : Code) : Prop where
  desc : ∀ j ∈ k.chain, d'.desc j = d.desc j
  ops : ∀ j ∈ k.chain, d'.ops j = d.ops j
  info : ∀ j ∈ k.chain, (d'.info j).b = (d.info j).b
  buf : ∀ b, k.buf = some b → d'.bufDisk b = d.bufDisk b
  ring : ∀ r, k = .publish r →
    d'.avail.ring (d'.avail.idx % num) = d.avail.ring (d.avail.idx % num)
  served : ∀ x ∈ d.served, x ∈ d'.served

theorem Holds.frame {k : Code} (hk : Holds d k) (h : Frame d d' k) : Holds d' k := by
  obtain ⟨desc, ops, info, buf, ring, served⟩ := h
  cases k with
  | publish r =>
    have hring := ring r rfl
    simp only [Holds, Code.chain, Code.buf] at *
    grind
  | wait r =>
    simp only [Holds, Code.chain, Code.buf, Served] at *
    grind
  | freeChain r i =>
    simp only [Holds, Code.chain, Code.buf, Served] at *
    grind
  | done r => exact served _ hk
  | _ => trivial

/-! ## Heads on their way -/

/-- The entries of the used ring from here on are not yet acknowledged. -/
def ackIdx (d : Disk) : ℕ := (d.usedIdx + if d.acking then 1 else 0) % 65536

def availHeads (d : Disk) : List ℕ := window 65536 num d.avail.ring d.lastAvail d.avail.idx

def usedHeads (d : Disk) : List ℕ := window 65536 num d.used.ring d.ackIdx d.used.idx

/-- The heads that the driver has published and not yet acknowledged. -/
def heads (d : Disk) : List ℕ := d.availHeads ++ d.inflight ++ d.usedHeads

structure Queue (d : Disk) (c : ℕ → Code) : Prop where
  availIdx : d.avail.idx < 65536
  lastAvail : d.lastAvail < 65536
  usedIdx : d.used.idx < 65536
  nodup : d.heads.Nodup
  owner : ∀ h ∈ d.heads, ∃ p r, c p = .wait r ∧ r.i0 = h ∧ d.bufDisk r.b = true
  used : ∀ h ∈ d.usedHeads, ∀ p r, c p = .wait r → r.i0 = h →
    d.Served r ∧ (d.info h).status = 0

/-- A step that moves no heads. -/
theorem Queue.frame {c' : ℕ → Code} (h : Queue d c) (havail : d'.avail.idx = d.avail.idx)
    (hlast : d'.lastAvail = d.lastAvail) (hused : d'.used.idx = d.used.idx)
    (hheads : d'.heads = d.heads) (husedHeads : d'.usedHeads = d.usedHeads)
    (hwait : ∀ q r, c q = .wait r → d.bufDisk r.b = true → c' q = .wait r ∧ d'.bufDisk r.b = true)
    (hback : ∀ q r, c' q = .wait r → c q = .wait r)
    (hstatus : ∀ i ∈ d.usedHeads, (d'.info i).status = (d.info i).status)
    (hserved : ∀ x ∈ d.served, x ∈ d'.served) : Queue d' c' where
  availIdx := havail ▸ h.availIdx
  lastAvail := hlast ▸ h.lastAvail
  usedIdx := hused ▸ h.usedIdx
  nodup := hheads ▸ h.nodup
  owner := by
    intro i hi
    rw [hheads] at hi
    obtain ⟨p, r, hp, hr, hbuf⟩ := h.owner i hi
    exact ⟨p, r, (hwait p r hp hbuf).1, hr, (hwait p r hp hbuf).2⟩
  used := by
    intro i hi p r hp hr
    rw [husedHeads] at hi
    obtain ⟨hdone, hzero⟩ := h.used i hi p r (hback p r hp) hr
    exact ⟨hserved _ hdone, (hstatus i hi).trans hzero⟩

/-- A call goes on that does not wait for the device any more, and will not. -/
theorem Queue.leave (h : Queue d c) (hp : ∀ r, c p = .wait r → d.bufDisk r.b = false)
    (hk : ∀ r, k' ≠ .wait r) (havail : d'.avail.idx = d.avail.idx)
    (hlast : d'.lastAvail = d.lastAvail) (hused : d'.used.idx = d.used.idx)
    (hheads : d'.heads = d.heads) (husedHeads : d'.usedHeads = d.usedHeads)
    (hbuf : ∀ q r, q ≠ p → c q = .wait r → d'.bufDisk r.b = d.bufDisk r.b)
    (hstatus : ∀ i ∈ d.usedHeads, (d'.info i).status = (d.info i).status)
    (hserved : ∀ x ∈ d.served, x ∈ d'.served) : Queue d' (Function.update c p k') := by
  refine h.frame havail hlast hused hheads husedHeads (fun q r hq hdisk => ?_) (fun q r hq => ?_)
    hstatus hserved
  · have hne : q ≠ p := by
      rintro rfl
      rw [hp r hq] at hdisk
      cases hdisk
    rw [Function.update_of_ne hne]
    exact ⟨hq, (hbuf q r hne hq).trans hdisk⟩
  · rw [Function.update_apply] at hq
    split at hq
    · exact absurd hq (hk r)
    · exact hq

/-- Where a call goes on with the lock that it had to wait for. -/
def resumes : Code → Bool
  | .alloc _ | .wait _ | .intr => true
  | _ => false

/-- What holds in every run. -/
structure Good (d : Disk) (v : ℕ → View Code) : Prop where
  panic : d.panic = none
  chains : Chains (codes v) d.free
  holds : ∀ p, d.Holds (codes v p)
  queue : Queue d (codes v)
  waiting : ∀ p k, v p = .waiting k → resumes k = true
  acking : d.acking = true ↔ ∃ p, v p = .active .intrNext
  seen : d.usedIdx < 65536

/-! ## Sections -/

section

variable {y : View Code} {r r' : Op}

/-- Who publishes a request has the lock. -/
theorem Good.publishing (h : Good d v) (hp : codes v p = .publish r) :
    v p = .active (.publish r) := by
  unfold codes at hp
  cases hv : v p with rw [hv] at hp
  | out k => cases hp
  | waiting k =>
    cases hp
    exact absurd (h.waiting p _ hv) nofun
  | active k =>
    cases hp
    rfl

/-- A section of `p` that is no part of the handler. -/
theorem Good.move (h : Good d v) (hpanic : d'.panic = none)
    (hchains : Chains (Function.update (codes v) p (code y)) d'.free)
    (hself : d'.Holds (code y)) (hframe : ∀ q, q ≠ p → Frame d d' (codes v q))
    (hqueue : Queue d' (Function.update (codes v) p (code y)))
    (hwaiting : ∀ k, y = .waiting k → resumes k = true)
    (hack : d'.acking = d.acking) (hseen : d'.usedIdx = d.usedIdx)
    (hp : v p ≠ .active .intrNext) (hy : y ≠ .active .intrNext) :
    Good d' (Function.update v p y) where
  seen := hseen ▸ h.seen
  panic := hpanic
  chains := by rwa [codes_update]
  holds := by
    intro q
    rw [codes_update, Function.update_apply]
    split
    · exact hself
    case isFalse hq => exact (h.holds q).frame (hframe q hq)
  queue := by rwa [codes_update]
  waiting := by
    intro q k hq
    rw [Function.update_apply] at hq
    split at hq
    · exact hwaiting k hq
    · exact h.waiting q k hq
  acking := by
    rw [hack, h.acking]
    constructor
    · rintro ⟨q, hq⟩
      refine ⟨q, ?_⟩
      rwa [Function.update_of_ne]
      rintro rfl
      exact hp hq
    · rintro ⟨q, hq⟩
      refine ⟨q, ?_⟩
      rw [Function.update_apply] at hq
      split at hq
      · exact absurd hq hy
      · exact hq

theorem frame_refl (d : Disk) (k : Code) : Frame d d k :=
  ⟨fun _ _ => rfl, fun _ _ => rfl, fun _ _ => rfl, fun _ _ => rfl, fun _ _ => rfl, fun _ => id⟩

/-- Nothing but the code of a call changes, and it is not waiting for the device. -/
theorem Good.go_on (h : Good d v) (hbuf : ∀ b, (code y).buf = some b → (codes v p).buf = some b)
    (hchain : (code y).chain = (codes v p).chain) (hself : d.Holds (code y))
    (hwait : ∀ r, code y = .wait r ↔ codes v p = .wait r)
    (hwaiting : ∀ k, y = .waiting k → resumes k = true)
    (hp : v p ≠ .active .intrNext) (hy : y ≠ .active .intrNext) :
    Good d (Function.update v p y) := by
  refine h.move h.panic (h.chains.same hbuf hchain) hself (fun q _ => frame_refl d _) ?_ hwaiting
    rfl rfl hp hy
  refine h.queue.frame rfl rfl rfl rfl rfl ?_ ?_ (fun _ _ => rfl) fun _ => id
  · grind [Function.update_apply]
  · grind [Function.update_apply]

theorem Good.alloc (h : Good d v) (hp : v p = .active (.alloc r)) {x : Next Disk Code}
    (hact : d.act (.alloc r) = some x) : Good (x.data d) (Function.update v p x.view) := by
  have hcode : codes v p = .alloc r := by rw [codes, hp]; rfl
  have hnowait : ∀ r', codes v p = .wait r' → d.bufDisk r'.b = false := by
    rw [hcode]
    nofun
  simp only [Disk.act] at hact
  obtain ⟨i0, i1, i2, d', heq, htook⟩ | ⟨is, heq, hfree⟩ := d.alloc3Desc_cases
  · rw [heq] at hact
    cases hact
    obtain ⟨rfl, hnodup, hwas⟩ := htook
    refine h.move h.panic ?_ trivial (fun q _ => ?_) ?_ nofun rfl rfl (by simp [hp]) nofun
    · refine h.chains.move ?_ hnodup (fun i hi => Or.inr (hwas i hi)) fun i hi => ?_
      · rw [hcode]
        exact fun b => id
      · rw [hcode]
        simp only [Code.chain, code, List.not_mem_nil, if_false]
        rfl
    · exact ⟨fun _ _ => rfl, fun _ _ => rfl, fun _ _ => rfl, fun _ _ => rfl, fun _ _ => rfl,
        fun _ => id⟩
    · exact h.queue.leave hnowait nofun rfl rfl rfl rfl rfl (fun _ _ _ _ => rfl) (fun _ _ => rfl)
        fun _ => id
  · rw [heq] at hact
    cases hact
    refine h.move h.panic ?_ trivial (fun q _ => ?_) ?_ nofun rfl rfl (by simp [hp]) nofun
    · refine h.chains.same ?_ ?_
      · rw [hcode]
        exact fun b => id
      · rw [hcode]
        rfl
    · -- only free descriptors are cleared
      refine ⟨fun j hj => ?_, fun _ _ => rfl, fun _ _ => rfl, fun _ _ => rfl, fun _ _ => rfl,
        fun _ => id⟩
      refine if_neg fun hmem => ?_
      obtain ⟨hlt, hfree⟩ := hfree j hmem
      rw [(h.chains.free j hlt).mpr ⟨q, hj⟩] at hfree
      cases hfree
    · exact h.queue.leave hnowait nofun rfl rfl rfl rfl rfl (fun _ _ _ _ => rfl) (fun _ _ => rfl)
        fun _ => id

/-- Fewer heads are on their way than the rings have slots, while some call has a head that
is not. -/
theorem Good.heads_length (h : Good d v) {i : ℕ} (hi : i < num) (hnot : i ∉ d.heads) :
    d.heads.length < num := by
  have hnodup : (i :: d.heads).Nodup := List.nodup_cons.mpr ⟨hnot, h.queue.nodup⟩
  have hsub : i :: d.heads ⊆ List.range num := by
    intro j hj
    rw [List.mem_range]
    obtain rfl | hj := List.mem_cons.mp hj
    · exact hi
    · obtain ⟨q, r, hq, rfl, -⟩ := h.queue.owner j hj
      exact h.chains.lt q r.i0 (by rw [hq]; simp [Code.chain])
  have hle := (hnodup.subperm hsub).length_le
  rw [List.length_range] at hle
  exact hle

/-- A head on its way belongs to a call that waits. -/
theorem Good.not_mem_heads (h : Good d v) {i : ℕ} (hi : i ∈ (codes v p).chain)
    (hp : ∀ r, codes v p = .wait r → d.bufDisk r.b = false) : i ∉ d.heads := by
  intro hmem
  obtain ⟨q, r, hq, rfl, hbuf⟩ := h.queue.owner i hmem
  obtain rfl : q = p := h.chains.disjoint q p r.i0 (by rw [hq]; simp [Code.chain]) hi
  rw [hp r hq] at hbuf
  cases hbuf

theorem usedHeads_sub (d : Disk) : ∀ i ∈ d.usedHeads, i ∈ d.heads := by
  intro i hi
  simp [heads, hi]

theorem span_avail_le (d : Disk) : span 65536 d.lastAvail d.avail.idx ≤ d.heads.length := by
  have hlen : d.availHeads.length = span 65536 d.lastAvail d.avail.idx := window_length _
  simp only [heads, List.length_append]
  omega

theorem Good.format (h : Good d v) (hp : v p = .active (.format r))
    (honly : ∀ q k', v q = .active k' → q = p) (hr : r' = { r with serial := d.serial }) :
    Good (d.format r') (Function.update v p (.active (.publish r'))) := by
  have hcode : codes v p = .format r := by rw [codes, hp]; rfl
  have hidx : r'.i0 = r.i0 ∧ r'.i1 = r.i1 ∧ r'.i2 = r.i2 ∧ r'.b = r.b := by simp [hr]
  obtain ⟨h0, h1, h2, hb⟩ := hidx
  have hchain : (codes v p).chain = [r'.i0, r'.i1, r'.i2] := by
    rw [hcode, h0, h1, h2]
    rfl
  have hnodup : [r'.i0, r'.i1, r'.i2].Nodup := hchain ▸ h.chains.nodup p
  have hlt : r'.i0 < num := h.chains.lt p _ (by simp [hchain])
  have hnot : r'.i0 ∉ d.heads := h.not_mem_heads (p := p) (by simp [hchain]) (by rw [hcode]; nofun)
  have hroom : span 65536 d.lastAvail d.avail.idx < num :=
    (span_avail_le d).trans_lt (h.heads_length hlt hnot)
  have havail : (d.format r').availHeads = d.availHeads :=
    window_update (by decide) h.queue.lastAvail h.queue.availIdx hroom d.avail.ring r'.i0
  refine h.move h.panic ?_ ?_ (fun q hq => ?_) ?_ nofun rfl rfl (by simp [hp]) nofun
  · refine h.chains.same ?_ hchain.symm
    simp only [hcode, code, Code.buf, hb]
    exact fun b => id
  · refine ⟨?_, Function.update_self _ _ _, by simp [Disk.format], by simp [Disk.format],
      Function.update_self _ _ _⟩
    simp only [Disk.format, descAt]
    grind [Function.update_apply]
  · -- the other calls have other descriptors and another buffer
    have hne : ∀ j ∈ (codes v q).chain, j ∉ [r'.i0, r'.i1, r'.i2] := fun j hj hmem =>
      hq (h.chains.disjoint q p j hj (hchain ▸ hmem))
    have hbuf : ∀ b, (codes v q).buf = some b → b ≠ r'.b := by
      rintro b hqb rfl
      exact hq (h.chains.bufs q p _ hqb (by rw [hcode, hb]; rfl))
    refine ⟨fun j hj => ?_, fun j hj => ?_, fun j hj => ?_, fun b hqb => ?_, fun r'' hpub => ?_,
      fun _ => id⟩
    · have := hne j hj
      simp only [Disk.format]
      grind [Function.update_apply]
    · have := hne j hj
      simp only [Disk.format]
      grind [Function.update_apply]
    · have := hne j hj
      simp only [Disk.format]
      grind [Function.update_apply]
    · exact Function.update_of_ne (hbuf b hqb) _ _
    · exact absurd (honly q _ (h.publishing hpub)) hq
  · refine h.queue.leave (by rw [hcode]; nofun) nofun rfl rfl rfl ?_ rfl ?_ ?_ fun _ => id
    · simp only [heads, havail]
      rfl
    · intro q r'' hq hwait
      refine Function.update_of_ne ?_ _ _
      intro heq
      refine hq (h.chains.bufs q p r''.b (by rw [hwait]; rfl) ?_)
      rw [hcode, heq, hb]
      rfl
    · intro i hi
      have hne : i ≠ r'.i0 := fun heq => hnot (heq ▸ usedHeads_sub d i hi)
      simp only [Disk.format, Function.update_of_ne hne]

theorem Good.publish (h : Good d v) (hp : v p = .active (.publish r))
    (honly : ∀ q k', v q = .active k' → q = p) :
    Good d.publish (Function.update v p (.active (.wait r))) := by
  have hcode : codes v p = .publish r := by rw [codes, hp]; rfl
  have hchain : (codes v p).chain = [r.i0, r.i1, r.i2] := by rw [hcode]; rfl
  obtain ⟨hdesc, hops, hinfo, hbuf, hring⟩ : d.Holds (.publish r) := hcode ▸ h.holds p
  have hlt : r.i0 < num := h.chains.lt p _ (by simp [hchain])
  have hnot : r.i0 ∉ d.heads := h.not_mem_heads (p := p) (by simp [hchain]) (by rw [hcode]; nofun)
  have hroom : span 65536 d.lastAvail d.avail.idx + 1 < 65536 := by
    have hle := (span_avail_le d).trans_lt (h.heads_length hlt hnot)
    simp only [num] at hle
    omega
  have havail : d.publish.availHeads = d.availHeads ++ [r.i0] := by
    rw [← hring]
    exact window_succ h.queue.lastAvail h.queue.availIdx hroom d.avail.ring
  have hperm : d.publish.heads.Perm (r.i0 :: d.heads) := by
    have heads : d.publish.heads = d.availHeads ++ r.i0 :: (d.inflight ++ d.usedHeads) := by
      unfold Disk.heads
      rw [havail]
      simp only [List.append_assoc, List.singleton_append]
      rfl
    rw [heads, Disk.heads, List.append_assoc]
    exact List.perm_middle
  refine h.move h.panic ?_ ⟨hdesc, hops, hinfo, ?_⟩ (fun q hq => ?_) ?_ nofun rfl rfl (by simp [hp])
    nofun
  · refine h.chains.same ?_ hchain.symm
    rw [hcode]
    exact fun b => id
  · intro hfalse
    change d.bufDisk r.b = false at hfalse
    rw [hbuf] at hfalse
    cases hfalse
  · exact ⟨fun _ _ => rfl, fun _ _ => rfl, fun _ _ => rfl, fun _ _ => rfl,
      fun r'' hpub => absurd (honly q _ (h.publishing hpub)) hq, fun _ => id⟩
  · have hkeep : ∀ q r', codes v q = .wait r' →
        Function.update (codes v) p (.wait r) q = .wait r' := by
      intro q r' hq
      rwa [Function.update_of_ne]
      rintro rfl
      rw [hcode] at hq
      cases hq
    constructor
    · exact Nat.mod_lt _ (by norm_num)
    · exact h.queue.lastAvail
    · exact h.queue.usedIdx
    · exact hperm.nodup_iff.mpr (List.nodup_cons.mpr ⟨hnot, h.queue.nodup⟩)
    · intro i hi
      obtain rfl | hi := List.mem_cons.mp (hperm.mem_iff.mp hi)
      · exact ⟨p, r, Function.update_self _ _ _, rfl, hbuf⟩
      · obtain ⟨q, r', hq, hr', hdisk⟩ := h.queue.owner i hi
        exact ⟨q, r', hkeep q r' hq, hr', hdisk⟩
    · intro i hi q r' hq hr'
      change i ∈ d.usedHeads at hi
      rw [Function.update_apply] at hq
      split at hq
      · cases hq
        exact absurd (hr' ▸ usedHeads_sub d i hi) hnot
      · exact h.queue.used i hi q r' hq hr'

/-- The loop over `b->disk` ends. -/
theorem Good.wait (h : Good d v) (hp : v p = .active (.wait r)) (hdisk : d.bufDisk r.b = false) :
    Good (d.forget r.i0) (Function.update v p (.active (.freeChain r r.i0))) := by
  have hcode : codes v p = .wait r := by rw [codes, hp]; rfl
  have hchain : (codes v p).chain = [r.i0, r.i1, r.i2] := by rw [hcode]; rfl
  have hnodup : [r.i0, r.i1, r.i2].Nodup := hchain ▸ h.chains.nodup p
  have hdrop : [r.i0, r.i1, r.i2].dropWhile (· ≠ r.i0) = [r.i0, r.i1, r.i2] := by simp
  obtain ⟨hdesc, hops, hinfo, hserved⟩ : d.Holds (.wait r) := hcode ▸ h.holds p
  have hnowait : ∀ r', codes v p = .wait r' → d.bufDisk r'.b = false := by
    rw [hcode]
    rintro r' ⟨⟩
    exact hdisk
  have hself : (d.forget r.i0).Holds (.freeChain r r.i0) := by
    refine ⟨⟨by simp, hnodup⟩, ?_, hserved hdisk⟩
    rw [hdrop]
    exact hdesc
  refine h.move h.panic ?_ hself (fun q hq => ?_) ?_ nofun rfl rfl (by simp [hp]) nofun
  · refine h.chains.same ?_ (hdrop.trans hchain.symm)
    rw [hcode]
    exact fun b => id
  · refine ⟨fun _ _ => rfl, fun _ _ => rfl, fun j hj => ?_, fun _ _ => rfl, fun _ _ => rfl,
      fun _ => id⟩
    have hne : j ≠ r.i0 := by
      rintro rfl
      exact hq (h.chains.disjoint q p _ hj (by simp [hchain]))
    simp only [forget, Function.update_of_ne hne]
  · refine h.queue.leave hnowait nofun rfl rfl rfl rfl rfl (fun _ _ _ _ => rfl) (fun i _ => ?_)
      fun _ => id
    simp only [forget, Function.update_apply]
    split
    case isTrue heq => rw [heq]
    case isFalse => rfl

/-- The rest of a chain behind a descriptor. -/
theorem freeChain_next {i : ℕ} {k : Code} (h : d.Holds (.freeChain r i))
    (hk : k = if (d.desc i).flags &&& fNext ≠ 0 then .freeChain r (d.desc i).next else .done r) :
    (Code.freeChain r i).chain = i :: k.chain ∧ k.buf = some r.b ∧
      (k = .done r ∨ ∃ j ∈ [r.i0, r.i1, r.i2], k = .freeChain r j) := by
  obtain ⟨⟨hi, hnodup⟩, hdesc, -⟩ := h
  obtain ⟨h01, h02, h12⟩ : r.i0 ≠ r.i1 ∧ r.i0 ≠ r.i2 ∧ r.i1 ≠ r.i2 := by
    simp only [List.nodup_cons, List.mem_cons] at hnodup
    grind
  have hflags : ((if r.write then 0 else fWrite) ||| fNext) &&& fNext ≠ 0 := by
    cases r.write <;> decide
  have hhead : i ∈ [r.i0, r.i1, r.i2].dropWhile (· ≠ i) := by
    simp only [List.mem_cons, List.not_mem_nil, or_false] at hi
    obtain rfl | rfl | rfl := hi <;> simp [h01, h02, h12]
  rw [hdesc i hhead] at hk
  simp only [List.mem_cons, List.not_mem_nil, or_false] at hi
  obtain rfl | rfl | rfl := hi
  · simp [hk, descAt, Code.chain, Code.buf, fNext, h01]
  · simp [hk, descAt, Code.chain, Code.buf, hflags, h01.symm, h01, h02, h12]
  · simp [hk, descAt, Code.chain, Code.buf, fNext, fWrite, h02, h12, h02.symm, h12.symm]

/-- A round of `free_chain`; its descriptor is not free. -/
theorem Good.freeChain {i : ℕ} (h : Good d v) (hp : v p = .active (.freeChain r i))
    {x : Next Disk Code} (hact : d.act (.freeChain r i) = some x) :
    Good (x.data d) (Function.update v p x.view) := by
  have hcode : codes v p = .freeChain r i := by rw [codes, hp]; rfl
  have hholds : d.Holds (.freeChain r i) := hcode ▸ h.holds p
  generalize hkdef : (if (d.desc i).flags &&& fNext ≠ 0 then Code.freeChain r (d.desc i).next
    else Code.done r) = k
  obtain ⟨hchain, hbuf, hk⟩ := freeChain_next hholds hkdef.symm
  have hmem : i ∈ (codes v p).chain := by
    rw [hcode, hchain]
    exact List.mem_cons_self
  have hlt := h.chains.lt p i hmem
  have hfree := (h.chains.free i hlt).mpr ⟨p, hmem⟩
  simp only [Disk.act, freeDesc_ok hlt hfree, hkdef] at hact
  cases hact
  obtain ⟨hnot, hnodup⟩ : i ∉ k.chain ∧ k.chain.Nodup := by
    refine List.nodup_cons.mp ?_
    rw [← hchain, ← hcode]
    exact h.chains.nodup p
  obtain ⟨⟨hi, hidx⟩, hdesc, hserved⟩ := hholds
  refine h.move h.panic ?_ ?_ (fun q hq => ?_) ?_ nofun rfl rfl (by simp [hp]) ?_
  · refine h.chains.move ?_ hnodup (fun j hj => Or.inl ?_) fun j hj => ?_
    · simp only [Next.view, code, hbuf, hcode]
      exact fun b => id
    · rw [hcode, hchain]
      exact List.mem_cons_of_mem _ hj
    · have hused := (h.chains.free j hj).mpr
      simp only [Next.view, Next.data, code]
      rw [hcode, hchain, Function.update_apply]
      grind
  · have hrest : ∀ j ∈ k.chain, Function.update d.desc i {} j = descAt r j := by
      intro j hj
      have hne : j ≠ i := by
        rintro rfl
        exact hnot hj
      rw [Function.update_of_ne hne]
      refine hdesc j ?_
      change j ∈ (Code.freeChain r i).chain
      rw [hchain]
      exact List.mem_cons_of_mem _ hj
    obtain rfl | ⟨j, hj, rfl⟩ := hk
    · exact hserved
    · exact ⟨⟨hj, hidx⟩, hrest, hserved⟩
  · refine ⟨fun j hj => Function.update_of_ne ?_ _ _, fun _ _ => rfl, fun _ _ => rfl,
      fun _ _ => rfl, fun _ _ => rfl, fun _ => id⟩
    rintro rfl
    exact hq (h.chains.disjoint q p j hj hmem)
  · refine h.queue.leave (by rw [hcode]; nofun) ?_ rfl rfl rfl rfl rfl (fun _ _ _ _ => rfl)
      (fun _ _ => rfl) fun _ => id
    obtain rfl | ⟨j, -, rfl⟩ := hk <;> nofun
  · obtain rfl | ⟨j, -, rfl⟩ := hk <;> nofun

/-! ### The handler -/

theorem Good.not_acking (h : Good d v) {k : Code} (hp : v p = .active k) (hk : k ≠ .intrNext)
    (honly : ∀ q k', v q = .active k' → q = p) : d.acking = false := by
  cases hack : d.acking with
  | false => rfl
  | true =>
    obtain ⟨q, hq⟩ := h.acking.mp hack
    obtain rfl := honly q _ hq
    rw [hp] at hq
    cases hq
    exact absurd rfl hk

theorem ackIdx_of_not_acking (h : Good d v) (hack : d.acking = false) : d.ackIdx = d.usedIdx := by
  simp only [ackIdx, hack]
  exact Nat.mod_eq_of_lt h.seen

/-- The next completion that the handler finds: the device has served its request, and the
buffer is the one of the call that waits. -/
theorem Good.completion (h : Good d v) (hack : d.acking = false) (hne : d.usedIdx ≠ d.used.idx) :
    ∃ q r, codes v q = .wait r ∧ d.used.ring (d.usedIdx % num) = r.i0 ∧ d.Served r ∧
      (d.info r.i0).status = 0 ∧ (d.info r.i0).b = some r.b ∧
      d.usedHeads = r.i0 :: window 65536 num d.used.ring ((d.usedIdx + 1) % 65536) d.used.idx := by
  have hpop : d.usedHeads = d.used.ring (d.usedIdx % num) ::
      window 65536 num d.used.ring ((d.usedIdx + 1) % 65536) d.used.idx := by
    rw [usedHeads, ackIdx_of_not_acking h hack]
    exact window_pop h.seen h.queue.usedIdx hne _
  have hmem : d.used.ring (d.usedIdx % num) ∈ d.usedHeads := by
    rw [hpop]
    exact List.mem_cons_self
  obtain ⟨q, r, hq, hr, -⟩ := h.queue.owner _ (usedHeads_sub d _ hmem)
  obtain ⟨hserved, hstatus⟩ := h.queue.used _ hmem q r hq hr
  obtain ⟨-, -, hinfo, -⟩ : d.Holds (.wait r) := hq ▸ h.holds q
  exact ⟨q, r, hq, hr.symm, hserved, hr ▸ hstatus, hinfo, hr ▸ hpop⟩

theorem Good.acknowledge {q : ℕ} (h : Good d v) (hp : v p = .active .intr)
    (honly : ∀ q k', v q = .active k' → q = p) (hq : codes v q = .wait r) (hserved : d.Served r)
    (hused : d.usedHeads =
      r.i0 :: window 65536 num d.used.ring ((d.usedIdx + 1) % 65536) d.used.idx) :
    Good { d with bufDisk := Function.update d.bufDisk r.b false, acking := true }
      (Function.update v p (.active .intrNext)) := by
  have hcode : codes v p = .intr := by rw [codes, hp]; rfl
  set d' : Disk := { d with bufDisk := Function.update d.bufDisk r.b false, acking := true }
  have hused' : d.usedHeads = r.i0 :: d'.usedHeads := by
    rw [hused, Disk.usedHeads, ackIdx]
    simp only [d', if_true]
  -- the call of the buffer is `q`
  have hbuf : ∀ q' r', codes v q' = .wait r' → r'.b = r.b → r' = r := by
    intro q' r' hq' hb
    obtain rfl : q' = q := h.chains.bufs q' q r.b (by rw [hq', ← hb]; rfl) (by rw [hq]; rfl)
    rw [hq] at hq'
    cases hq'
    rfl
  have hsub : d'.heads.Sublist d.heads := by
    rw [heads, heads, hused']
    exact (List.Sublist.refl _).append (List.sublist_cons_self _ _)
  have hnot : r.i0 ∉ d'.heads := by
    have hnodup := h.queue.nodup
    rw [heads, hused'] at hnodup
    have hperm : ((d.availHeads ++ d.inflight) ++ r.i0 :: d'.usedHeads).Perm
        (r.i0 :: ((d.availHeads ++ d.inflight) ++ d'.usedHeads)) := List.perm_middle
    exact (List.nodup_cons.mp (hperm.nodup_iff.mp hnodup)).1
  constructor
  · exact h.panic
  · rw [codes_update]
    refine h.chains.same ?_ ?_ <;> rw [hcode]
    · exact fun b => id
    · rfl
  · intro q'
    rw [codes_update, Function.update_apply]
    split
    · trivial
    case isFalse hne =>
      have hq' := h.holds q'
      cases hk : codes v q' with rw [hk] at hq'
      | publish r' => exact absurd (honly q' _ (h.publishing hk)) hne
      | wait r' =>
        obtain ⟨hdesc, hops, hinfo, hdone⟩ := hq'
        refine ⟨hdesc, hops, hinfo, fun hfalse => ?_⟩
        by_cases hb : r'.b = r.b
        · rw [hbuf q' r' hk hb]
          exact hserved
        · exact hdone ((Function.update_of_ne hb _ _).symm.trans hfalse)
      | _ => exact hq'
  · rw [codes_update]
    have hkeep : ∀ q' r', codes v q' = .wait r' →
        Function.update (codes v) p (code (.active .intrNext)) q' = .wait r' := by
      intro q' r' hq'
      rwa [Function.update_of_ne]
      rintro rfl
      rw [hcode] at hq'
      cases hq'
    refine ⟨h.queue.availIdx, h.queue.lastAvail, h.queue.usedIdx, h.queue.nodup.sublist hsub,
      ?_, ?_⟩
    · intro i hi
      obtain ⟨q', r', hq', hr', hdisk⟩ := h.queue.owner i (hsub.subset hi)
      refine ⟨q', r', hkeep q' r' hq', hr', ?_⟩
      have hb : r'.b ≠ r.b := by
        intro hb
        rw [hbuf q' r' hq' hb] at hr'
        exact hnot (hr' ▸ hi)
      exact (Function.update_of_ne hb _ _).trans hdisk
    · intro i hi q' r' hq' hr'
      rw [Function.update_apply] at hq'
      split at hq'
      · cases hq'
      · refine h.queue.used i ?_ q' r' hq' hr'
        rw [hused']
        exact List.mem_cons_of_mem _ hi
  · intro q' k hq'
    rw [Function.update_apply] at hq'
    split at hq'
    · cases hq'
    · exact h.waiting q' k hq'
  · exact ⟨fun _ => ⟨p, Function.update_self _ _ _⟩, fun _ => rfl⟩
  · exact h.seen

theorem Good.intrNext (h : Good d v) (hp : v p = .active .intrNext)
    (honly : ∀ q k', v q = .active k' → q = p) :
    Good { d with usedIdx := (d.usedIdx + 1) % 65536, acking := false }
      (Function.update v p (.active .intr)) := by
  have hcode : codes v p = .intrNext := by rw [codes, hp]; rfl
  have hack : d.acking = true := h.acking.mpr ⟨p, hp⟩
  set d' : Disk := { d with usedIdx := (d.usedIdx + 1) % 65536, acking := false }
  have hused : d'.usedHeads = d.usedHeads := by
    simp [usedHeads, ackIdx, d', hack]
  constructor
  · exact h.panic
  · rw [codes_update]
    refine h.chains.same ?_ ?_ <;> rw [hcode]
    · exact fun b => id
    · rfl
  · intro q
    rw [codes_update, Function.update_apply]
    split
    · trivial
    · exact (h.holds q).frame ⟨fun _ _ => rfl, fun _ _ => rfl, fun _ _ => rfl, fun _ _ => rfl,
        fun _ _ => rfl, fun _ => id⟩
  · rw [codes_update]
    refine h.queue.leave (by rw [hcode]; nofun) nofun rfl rfl rfl ?_ hused (fun _ _ _ _ => rfl)
      (fun _ _ => rfl) fun _ => id
    simp only [heads, hused]
    rfl
  · intro q k hq
    rw [Function.update_apply] at hq
    split at hq
    · cases hq
    · exact h.waiting q k hq
  · refine ⟨nofun, ?_⟩
    rintro ⟨q, hq⟩
    rw [Function.update_apply] at hq
    split at hq
    · cases hq
    case isFalse hne => exact absurd (honly q _ hq) hne
  · exact Nat.mod_lt _ (by norm_num)

/-- No section panics, and each keeps what holds. -/
theorem Good.act (h : Good d v) {k : Code} {x : Next Disk Code} (hp : v p = .active k)
    (honly : ∀ q k', v q = .active k' → q = p) (hact : d.act k = some x) :
    Good (x.data d) (Function.update v p x.view) := by
  have hcode : codes v p = k := by rw [codes, hp]; rfl
  cases k with
  | idle | returned r | panicked => cases hact
  | alloc r => exact h.alloc hp hact
  | allocFailed r m =>
    cases m with
    | zero =>
      cases hact
      exact h.go_on (by rw [hcode]; exact fun _ => id) (by rw [hcode]; rfl) trivial
        (by rw [hcode]; exact fun _ => ⟨nofun, nofun⟩) (by rintro k ⟨⟩; rfl) (by simp [hp]) nofun
    | succ m =>
      cases hact
      exact h.go_on (by rw [hcode]; exact fun _ => id) (by rw [hcode]; rfl) trivial
        (by rw [hcode]; exact fun _ => ⟨nofun, nofun⟩) nofun (by simp [hp]) nofun
  | format r =>
    cases hact
    exact h.format hp honly rfl
  | publish r =>
    cases hact
    exact h.publish hp honly
  | wait r =>
    simp only [Disk.act] at hact
    split at hact
    · cases hact
      exact h.go_on (by rw [hcode]; exact fun _ => id) (by rw [hcode]; rfl) (hcode ▸ h.holds p)
        (by rw [hcode]; exact fun _ => Iff.rfl) (by rintro k ⟨⟩; rfl) (by simp [hp]) nofun
    case isFalse hdisk =>
      cases hact
      exact h.wait hp (by simpa using hdisk)
  | freeChain r i => exact h.freeChain hp hact
  | done r =>
    cases hact
    exact h.go_on nofun (by rw [hcode]; rfl) trivial
      (by rw [hcode]; exact fun _ => ⟨nofun, nofun⟩) nofun (by simp [hp]) nofun
  | intr =>
    simp only [Disk.act] at hact
    split at hact
    case isTrue hne =>
      obtain ⟨q, r, hq, hid, hserved, hstatus, hinfo, hused⟩ :=
        h.completion (h.not_acking hp nofun honly) hne
      rw [hid, if_neg (not_not.mpr hstatus)] at hact
      simp only [hinfo] at hact
      cases hact
      exact h.acknowledge hp honly hq hserved hused
    case isFalse =>
      cases hact
      exact h.go_on nofun (by rw [hcode]; rfl) trivial
        (by rw [hcode]; exact fun _ => ⟨nofun, nofun⟩) nofun (by simp [hp]) nofun
  | intrNext =>
    cases hact
    exact h.intrNext hp honly

/-! ### The device -/

/-- A move of the device that no call notices. -/
theorem Good.device (h : Good d v) (hpanic : d'.panic = d.panic) (hfree : d'.free = d.free)
    (hframe : ∀ q, Frame d d' (codes v q)) (hqueue : Queue d' (codes v))
    (hack : d'.acking = d.acking) (hseen : d'.usedIdx = d.usedIdx) : Good d' v where
  panic := hpanic.trans h.panic
  chains := hfree ▸ h.chains
  holds := fun q => (h.holds q).frame (hframe q)
  queue := hqueue
  waiting := h.waiting
  acking := hack ▸ h.acking
  seen := hseen ▸ h.seen

theorem Good.fetch (h : Good d v) (hne : d.lastAvail ≠ d.avail.idx) : Good d.fetch v := by
  have hpop : d.availHeads = d.avail.ring (d.lastAvail % num) :: d.fetch.availHeads :=
    window_pop h.queue.lastAvail h.queue.availIdx hne _
  have hperm : d.fetch.heads.Perm d.heads := by
    rw [heads, heads, hpop]
    refine List.Perm.append_right _ ?_
    have hin : d.fetch.inflight = d.inflight ++ [d.avail.ring (d.lastAvail % num)] := rfl
    rw [hin, ← List.append_assoc]
    exact List.perm_append_singleton _ _
  refine h.device rfl rfl (fun q => ?_) ?_ rfl rfl
  · exact ⟨fun _ _ => rfl, fun _ _ => rfl, fun _ _ => rfl, fun _ _ => rfl, fun _ _ => rfl,
      fun _ => id⟩
  · exact ⟨h.queue.availIdx, Nat.mod_lt _ (by norm_num), h.queue.usedIdx,
      hperm.nodup_iff.mpr h.queue.nodup, fun i hi => h.queue.owner i (hperm.mem_iff.mp hi),
      h.queue.used⟩

/-- The chain of a head that the device has fetched is the request of a call that waits. -/
theorem Good.request (h : Good d v) {i : ℕ} (hi : i ∈ d.inflight) :
    ∃ q r, codes v q = .wait r ∧ r.i0 = i ∧ d.request i = some ((r.header, r.b), i) := by
  obtain ⟨q, r, hq, rfl, -⟩ := h.queue.owner i (by simp [heads, hi])
  have hnodup := h.chains.nodup q
  obtain ⟨hdesc, hops, -, -⟩ : d.Holds (.wait r) := hq ▸ h.holds q
  rw [hq] at hnodup
  obtain ⟨h01, h02, h12⟩ : r.i0 ≠ r.i1 ∧ r.i0 ≠ r.i2 ∧ r.i1 ≠ r.i2 := by
    simp only [Code.chain, List.nodup_cons, List.mem_cons] at hnodup
    grind
  refine ⟨q, r, hq, rfl, ?_⟩
  have h0 : d.desc r.i0 = descAt r r.i0 := hdesc _ (by simp)
  have h1 : d.desc r.i1 = descAt r r.i1 := hdesc _ (by simp)
  have h2 : d.desc r.i2 = descAt r r.i2 := hdesc _ (by simp)
  simp [Disk.request, h0, h1, h2, descAt, h01.symm, h02.symm, h12.symm, hops]

theorem Good.complete (h : Good d v) {i q : ℕ} (hi : i ∈ d.inflight) (hq : codes v q = .wait r)
    (hr : r.i0 = i) : Good (d.complete i (r.header, r.b) i) v := by
  have hnodup := h.queue.nodup
  have hlen : span 65536 d.ackIdx d.used.idx < num := by
    have hle : d.heads.length ≤ num := by
      have hsub : d.heads ⊆ List.range num := by
        intro j hj
        rw [List.mem_range]
        obtain ⟨q, r, hq, rfl, -⟩ := h.queue.owner j hj
        exact h.chains.lt q r.i0 (by rw [hq]; simp [Code.chain])
      exact (hnodup.subperm hsub).length_le.trans_eq List.length_range
    have hused : d.usedHeads.length = span 65536 d.ackIdx d.used.idx := window_length _
    have hpos : 0 < d.inflight.length := List.length_pos_of_mem hi
    simp only [heads, List.length_append] at hle
    omega
  have hack : d.ackIdx < 65536 := Nat.mod_lt _ (by norm_num)
  have hroom : span 65536 d.ackIdx d.used.idx + 1 < 65536 := by
    simp only [num] at hlen
    omega
  have hused : (d.complete i (r.header, r.b) i).usedHeads = d.usedHeads ++ [i] :=
    window_push (by decide) hack h.queue.usedIdx hlen hroom d.used.ring i
  have hperm : (d.complete i (r.header, r.b) i).heads.Perm d.heads := by
    rw [heads, hused, heads, ← List.append_assoc]
    refine (List.perm_append_singleton _ _).trans ?_
    rw [← List.cons_append]
    refine List.Perm.append_right _ ?_
    refine List.perm_middle.symm.trans ?_
    exact List.Perm.append_left _ (List.perm_cons_erase hi).symm
  refine h.device rfl rfl (fun q' => ?_) ?_ rfl rfl
  · refine ⟨fun _ _ => rfl, fun _ _ => rfl, fun j _ => ?_, fun _ _ => rfl, fun _ _ => rfl,
      fun x hx => List.mem_append_left _ hx⟩
    simp only [Disk.complete, Function.update_apply]
    split
    case isTrue heq => rw [heq]
    case isFalse => rfl
  · refine ⟨h.queue.availIdx, h.queue.lastAvail, Nat.mod_lt _ (by norm_num),
      hperm.nodup_iff.mpr hnodup, fun j hj => h.queue.owner j (hperm.mem_iff.mp hj), ?_⟩
    intro j hj q' r' hq' hr'
    by_cases hji : j = i
    · -- the call is the one that waits for this request
      obtain rfl : q' = q := by
        refine h.chains.disjoint q' q i ?_ ?_
        · rw [hq', ← hji, ← hr']
          simp [Code.chain]
        · rw [hq, ← hr]
          simp [Code.chain]
      rw [hq] at hq'
      cases hq'
      refine ⟨List.mem_append_right _ (by simp), ?_⟩
      rw [hji]
      simp only [Disk.complete, Function.update_self]
    · have hmem : j ∈ d.usedHeads := by
        rw [hused] at hj
        simpa [hji] using hj
      obtain ⟨hserved, hstatus⟩ := h.queue.used j hmem q' r' hq' hr'
      refine ⟨List.mem_append_left _ hserved, ?_⟩
      simp only [Disk.complete, Function.update_of_ne hji]
      exact hstatus

theorem Good.env (h : Good d v) {e : Event} (he : d.device e = some d') : Good d' v := by
  cases e with
  | none => cases he
  | fetch =>
    obtain ⟨hne, he⟩ := Option.ite_none_right_eq_some.mp he
    cases he
    exact h.fetch hne
  | complete i =>
    obtain ⟨hi, he⟩ := Option.ite_none_right_eq_some.mp he
    obtain ⟨q, r, hq, hr, hreq⟩ := h.request hi
    rw [hreq] at he
    cases he
    exact h.complete hi hq hr

/-! ## Runs -/

theorem Good.call (h : Good d v) {k : Code} (hp : v p = .out k) (hmay : mayCall v p k' = true) :
    Good d (Function.update v p (.waiting k')) := by
  have hcode : codes v p = .idle := by rw [codes, hp]; rfl
  have hchains : Chains (Function.update (codes v) p k') d.free := by
    obtain ⟨procs, bufs, nodup, lt, disjoint, free⟩ := h.chains
    cases k' with
    | alloc r =>
      obtain ⟨hlt, hnone⟩ := of_decide_eq_true hmay
      have hnew : ∀ q, (codes v q).buf ≠ some r.b := fun q hq => hnone q (procs q r.b hq) hq
      have hnil : (codes v p).chain = [] := by rw [hcode]; rfl
      refine ⟨?_, ?_, ?_, ?_, ?_, fun i hi => (free i hi).trans ⟨?_, ?_⟩⟩
      · grind [Function.update_apply, Code.buf]
      · grind [Function.update_apply, Code.buf]
      · grind [Function.update_apply, Code.chain]
      · grind [Function.update_apply, Code.chain]
      · grind [Function.update_apply, Code.chain]
      · rintro ⟨q, hq⟩
        refine ⟨q, ?_⟩
        rwa [Function.update_of_ne]
        rintro rfl
        rw [hnil] at hq
        cases hq
      · rintro ⟨q, hq⟩
        rw [Function.update_apply] at hq
        split at hq
        · cases hq
        · exact ⟨q, hq⟩
    | intr =>
      exact h.chains.same nofun (by rw [hcode]; rfl)
    | _ => cases hmay
  refine h.move h.panic hchains ?_ (fun q _ => frame_refl d _) ?_ ?_ rfl rfl (by simp [hp]) nofun
  · cases k' with
    | alloc r | intr => trivial
    | _ => cases hmay
  · refine h.queue.leave (by rw [hcode]; nofun) ?_ rfl rfl rfl rfl rfl (fun _ _ _ _ => rfl)
      (fun _ _ => rfl) fun _ => id
    rintro r ⟨⟩
    cases hmay
  · rintro k ⟨⟩
    cases k' with
    | alloc r | intr => rfl
    | _ => cases hmay

theorem Good.acquire (h : Good d v) {k : Code} (hp : v p = .waiting k) :
    Good d (Function.update v p (.active k)) := by
  have hcode : codes v p = k := by rw [codes, hp]; rfl
  refine h.go_on (by rw [hcode]; exact fun _ => id) (by rw [hcode]; rfl) (hcode ▸ h.holds p)
    (by rw [hcode]; exact fun _ => Iff.rfl) nofun (by simp [hp]) ?_
  rintro ⟨⟩
  exact absurd (h.waiting p _ hp) nofun

theorem Good.section {v' : ℕ → View Code} (h : Good d v)
    (hs : Monitor.Section client d v d' v') : Good d' v' := by
  cases hs with
  | same => exact h
  | call p k k' hp hmay => exact h.call hp hmay
  | acquire p k hp _ => exact h.acquire hp
  | act p t e k x hp honly hact => exact h.act hp honly hact
  | env e d' he => exact h.env he

theorem good_init : Good {} fun _ => .out .idle := by
  have hheads : ({} : Disk).heads = [] := rfl
  refine ⟨rfl, ⟨nofun, nofun, fun _ => List.nodup_nil, nofun, nofun, fun i hi => ?_⟩,
    fun _ => trivial, ⟨by norm_num, by norm_num, by norm_num, ?_, ?_, ?_⟩, nofun, ⟨nofun, nofun⟩,
    by norm_num⟩
  · simp [hi, codes, code, Code.chain]
  · rw [hheads]
    exact List.nodup_nil
  · rw [hheads]
    nofun
  · intro i hi
    exact absurd (usedHeads_sub _ i hi) (by rw [hheads]; nofun)

/-! ### Serial numbers -/

/-- The serial number of a published request. -/
def serialOf : Code → Option ℕ
  | .publish r | .wait r => some r.serial
  | _ => none

/-- The numbers of all requests so far are below the next one. -/
structure Numbered (d : Disk) (v : ℕ → View Code) : Prop where
  served : ∀ x ∈ d.served, x.1.serial < d.serial
  published : ∀ p n, serialOf (codes v p) = some n → n < d.serial

/-- Only `format` uses a number, and no section adds to what the device has served. -/
theorem act_serial {k : Code} {x : Next Disk Code} (hact : d.act k = some x) :
    (x.data d).served = d.served ∧ d.serial ≤ (x.data d).serial ∧
      ∀ n, serialOf (code x.view) = some n → serialOf k = some n ∨ n < (x.data d).serial := by
  cases k with simp only [Disk.act] at hact
  | idle | returned r | panicked => cases hact
  | alloc r =>
    obtain ⟨i0, i1, i2, d', heq, htook⟩ | ⟨is, heq, -⟩ := d.alloc3Desc_cases
    · rw [heq] at hact
      cases hact
      obtain ⟨rfl, -, -⟩ := htook
      exact ⟨rfl, le_rfl, nofun⟩
    · rw [heq] at hact
      cases hact
      exact ⟨rfl, le_rfl, nofun⟩
  | allocFailed r m => cases m <;> cases hact <;> exact ⟨rfl, le_rfl, nofun⟩
  | format r =>
    cases hact
    refine ⟨rfl, Nat.le_succ _, ?_⟩
    rintro n ⟨⟩
    exact Or.inr (Nat.lt_succ_self _)
  | publish r =>
    cases hact
    exact ⟨rfl, le_rfl, fun n hn => Or.inl hn⟩
  | wait r =>
    split at hact
    · cases hact
      exact ⟨rfl, le_rfl, fun n hn => Or.inl hn⟩
    · cases hact
      exact ⟨rfl, le_rfl, nofun⟩
  | freeChain r i =>
    simp only [freeDesc] at hact
    split_ifs at hact <;> cases hact <;> exact ⟨rfl, le_rfl, nofun⟩
  | done r | intrNext =>
    cases hact
    exact ⟨rfl, le_rfl, nofun⟩
  | intr =>
    split_ifs at hact
    · cases hact
      exact ⟨rfl, le_rfl, nofun⟩
    · split at hact <;> cases hact <;> exact ⟨rfl, le_rfl, nofun⟩
    · cases hact
      exact ⟨rfl, le_rfl, nofun⟩

theorem Numbered.section {v' : ℕ → View Code} (hn : Numbered d v) (h : Good d v)
    (hs : Monitor.Section client d v d' v') : Numbered d' v' := by
  cases hs with
  | same => exact hn
  | call p k k' hp hmay =>
    refine ⟨hn.served, fun q n hq => ?_⟩
    rw [codes_update, Function.update_apply] at hq
    split at hq
    · change mayCall v p k' = true at hmay
      cases k' <;> first | cases hmay | cases hq
    · exact hn.published q n hq
  | acquire p k hp _ =>
    refine ⟨hn.served, fun q n hq => hn.published q n ?_⟩
    rw [codes_update, Function.update_apply] at hq
    split at hq
    case isTrue heq =>
      rw [heq, codes, hp]
      exact hq
    case isFalse => exact hq
  | act p t e k x hp honly hact =>
    obtain ⟨hserved, hle, hserial⟩ := act_serial hact
    refine ⟨fun y hy => (hn.served y (hserved ▸ hy)).trans_le hle, fun q n hq => ?_⟩
    rw [codes_update, Function.update_apply] at hq
    split at hq
    · obtain hk | hlt := hserial n hq
      · refine (hn.published p n ?_).trans_le hle
        rw [codes, hp]
        exact hk
      · exact hlt
    · exact (hn.published q n hq).trans_le hle
  | env e d' he =>
    cases e with
    | none => cases he
    | fetch =>
      obtain ⟨-, he⟩ := Option.ite_none_right_eq_some.mp he
      cases he
      exact ⟨hn.served, hn.published⟩
    | complete i =>
      obtain ⟨hi, he⟩ := Option.ite_none_right_eq_some.mp he
      obtain ⟨q, r, hq, -, hreq⟩ := h.request hi
      rw [hreq] at he
      cases he
      refine ⟨fun x hx => ?_, hn.published⟩
      obtain hx | hx := List.mem_append.mp hx
      · exact hn.served x hx
      · rw [List.mem_singleton.mp hx]
        exact hn.published q r.serial (by rw [hq]; rfl)

theorem good_of_reach {T : Table} {s : Monitor Disk Code}
    (h : Reach (Monitor.step client) (Monitor.init {} T .idle) s) :
    s.Locked ∧ Good s.data s.view ∧ Numbered s.data s.view :=
  Monitor.section_invariant (fun d v => Good d v ∧ Numbered d v)
    (fun _ _ _ _ hd hs => ⟨hd.1.section hs, hd.2.section hd.1 hs⟩) ⟨good_init, nofun, nofun⟩ h

theorem done_of_returns {s s' : Monitor Disk Code} {e : Event}
    (h : s.run client p e = some s') (hret : s'.place p = .out (.returned r)) :
    s.place p = .inside (.done r) := by
  obtain ⟨k, d, hplace, hact⟩ := Monitor.run_returns h hret
  change s.data.act k = _ at hact
  cases k with simp only [Disk.act] at hact
  | done r' =>
    cases hact
    exact hplace
  | allocFailed r' m => cases m <;> cases hact
  | alloc r' =>
    split at hact <;> cases hact
  | wait r' => split at hact <;> cases hact
  | freeChain r' i => split at hact <;> cases hact
  | intr =>
    split_ifs at hact
    · cases hact
    · split at hact <;> cases hact
    · cases hact
  | _ => cases hact

/-- In every run of the driver and the device: a descriptor is free or in the chain of
exactly one call, and a chain has three of them unless the call is giving them back; a call
returns only when the device has served the request it has made for its buffer, under a
number no request had before; `alloc3_desc` changes nothing in the free descriptors when it
fails; and neither `free_desc` nor the handler panics. -/
theorem virtio_requests_complete (T : Table) (s : Monitor Disk Code)
    (h : Reach (Monitor.step client) (Monitor.init {} T .idle) s) :
    (∀ i < num, (s.data.free i = true ∧ ∀ p, i ∉ (code (s.view p)).chain) ∨
      (s.data.free i = false ∧ ∃! p, i ∈ (code (s.view p)).chain)) ∧
    (s.lk = none → ∀ p, (code (s.view p)).chain = [] ∨
      (code (s.view p)).chain.Nodup ∧ (code (s.view p)).chain.length = 3) ∧
    (∀ p e s' r, Monitor.step client s (.run p e) = some s' →
      s'.place p = .out (.returned r) → (r.header, r.b) ∈ s.data.served) ∧
    (∀ x ∈ s.data.served, x.1.serial < s.data.serial) ∧
    (∀ m d', s.data.alloc3Desc = .failed m d' → d'.free = s.data.free) ∧
    s.data.panic = none := by
  obtain ⟨hlocked, hgood, hnumbered⟩ := good_of_reach h
  refine ⟨fun i hi => ?_, fun hlk p => ?_, fun p e s' r hstep hret => ?_, hnumbered.served,
    fun m d' heq => ?_, hgood.panic⟩
  · have hfree := hgood.chains.free i hi
    cases hcase : s.data.free i with
    | true =>
      refine Or.inl ⟨rfl, fun p hp => ?_⟩
      rw [hfree.mpr ⟨p, hp⟩] at hcase
      cases hcase
    | false =>
      obtain ⟨p, hp⟩ := hfree.mp hcase
      exact Or.inr ⟨rfl, p, hp, fun q hq => hgood.chains.disjoint q p i hq hp⟩
  · have hnodup := hgood.chains.nodup p
    unfold codes at hnodup
    cases hv : s.view p with
    | out k => exact Or.inl rfl
    | active k => exact absurd hv (hlocked.not_active hlk)
    | waiting k =>
      have hk := hgood.waiting p k hv
      rw [hv] at hnodup
      cases k with
      | alloc r | intr => exact Or.inl rfl
      | wait r => exact Or.inr ⟨hnodup, rfl⟩
      | _ => cases hk
  · obtain ⟨-, hrun⟩ := Option.ite_none_right_eq_some.mp hstep
    have hplace := done_of_returns hrun hret
    have hholds := hgood.holds p
    rw [codes, Monitor.view, hplace] at hholds
    exact hholds
  · obtain ⟨i0, i1, i2, d'', hgot, -⟩ | ⟨is, hfailed, -⟩ := s.data.alloc3Desc_cases
    · rw [hgot] at heq
      cases heq
    · rw [hfailed] at heq
      cases heq
      rfl

/-- Process 0 reads block 3 into buffer 5. The device serves the request, and the handler on
another hart sees the completion. -/
def oneRead : List (Move Code Event) :=
  .call 0 (.alloc { b := 5, blockno := 3, write := false }) ::
    List.replicate 9 (.run 0 .none) ++ [.env .fetch, .env (.complete 0)] ++
    .call nproc .intr :: List.replicate 2 (.run nproc .none)

theorem virtio_requests_complete_of_oneRead :
    ∃ s, Reach (Monitor.step client) (Monitor.init {} Monitor.twoRunning .idle) s ∧
      s.data.served.length = 1 ∧
      (∀ i < num, (s.data.free i = true ∧ ∀ p, i ∉ (code (s.view p)).chain) ∨
        (s.data.free i = false ∧ ∃! p, i ∈ (code (s.view p)).chain)) ∧
      (s.lk = none → ∀ p, (code (s.view p)).chain = [] ∨
        (code (s.view p)).chain.Nodup ∧ (code (s.view p)).chain.length = 3) ∧
      (∀ p e s' r, Monitor.step client s (.run p e) = some s' →
        s'.place p = .out (.returned r) → (r.header, r.b) ∈ s.data.served) ∧
      (∀ x ∈ s.data.served, x.1.serial < s.data.serial) ∧
      (∀ m d', s.data.alloc3Desc = .failed m d' → d'.free = s.data.free) ∧
      s.data.panic = none := by
  have hrun : (runAll (Monitor.step client) (Monitor.init {} Monitor.twoRunning .idle)
      oneRead).any (fun s => s.data.served.length = 1) = true := by
    decide +kernel
  obtain ⟨s, hs, hend⟩ := (Option.any_eq_true _ _).mp hrun
  have hreach := reach_of_runAll hs
  exact ⟨s, hreach, of_decide_eq_true hend, virtio_requests_complete _ s hreach⟩

end

end XV6AndConcurrency.Devices.Disk
