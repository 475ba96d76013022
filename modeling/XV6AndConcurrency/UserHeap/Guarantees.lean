import XV6AndConcurrency.UserHeap.HeapRuns

/-!
# What programs may rely on

Every request ends, with a block or with no room for one; whatever a program does with its
own bytes, the blocks stay apart and none is lost; the free list is determined by the bytes
that are free. Requests whose size does not fit the `int` of `sbrk` are the exception: the
kernel kills the process, or they are answered with memory that does not exist.
-/

namespace XV6AndConcurrency.UserHeap

open Foundations

variable {s s' : Process} {base fuel k nu ap p prev : ℕ} {h h' : Heap} {L L' : List ℕ}
  {r : Outcome} {shared : Bool}

/-! ## Fuel -/

theorem free_mono (hfree : free fuel h ap = some h') : free (fuel + k) h ap = some h' := by
  obtain ⟨p, hp, rfl⟩ := Option.map_eq_some_iff.mp hfree
  exact Option.map_eq_some_iff.mpr ⟨p, walk_mono hp, rfl⟩

theorem morecore_mono (hmore : morecore shared fuel h nu = some r) :
    morecore shared (fuel + k) h nu = some r := by
  unfold morecore at hmore ⊢
  dsimp only at hmore ⊢
  split at hmore
  · exact hmore
  case h_2 h1 p1 _ =>
    by_cases hmapped : h1.limit shared < p1 + 12
    · rwa [if_pos hmapped] at hmore ⊢
    · rw [if_neg hmapped] at hmore ⊢
      obtain ⟨h', hfree, rfl⟩ := Option.map_eq_some_iff.mp hmore
      exact Option.map_eq_some_iff.mpr ⟨h', free_mono hfree, rfl⟩

theorem mallocLoop_mono (hloop : mallocLoop shared fuel h nu prev p = some r) :
    mallocLoop shared (fuel + k) h nu prev p = some r := by
  induction fuel generalizing h prev p with
  | zero => cases hloop
  | succ fuel ih =>
    rw [Nat.add_right_comm]
    unfold mallocLoop at hloop ⊢
    split_ifs at hloop ⊢ with hfit hround
    · exact hloop
    · cases hmore : morecore shared fuel h nu with
      | none =>
        rw [hmore] at hloop
        cases hloop
      | some m =>
        rw [morecore_mono hmore]
        rw [hmore] at hloop
        cases m with
        | killed => exact hloop
        | returned h' p' =>
          cases p' with
          | zero => exact hloop
          | succ p' => exact ih hloop
    · exact ih hloop

/-! ## The first call -/

theorem Inv.begin (hinv : Inv base s) (hpos : 0 < base) :
    ∃ L, Valid base { s with heap := start base s.heap } L := by
  rcases hinv.blocks with hfresh | ⟨L, hv⟩
  · refine ⟨[], ⟨?_, ?_, ?_, List.pairwise_singleton _ _, ?_⟩, ?_, ?_, ?_, fun y => ?_, ?_⟩
    all_goals simp [start, hfresh.freep, hfresh.live, hfresh.granted, Trail]
  · have hfreep : s.heap.freep ≠ 0 := (hpos.trans_le (hv.free.base_le hv.free.freep)).ne'
    rw [start, if_neg hfreep]
    exact ⟨L, hv⟩

theorem start_sz : (start base h).sz = h.sz := by
  unfold start
  split_ifs <;> rfl

theorem start_room : (start base h).room = h.room := by
  unfold start
  split_ifs <;> rfl

theorem start_other {x : ℕ} (hx : x ≠ base) :
    (start base h).ptr x = h.ptr x ∧ (start base h).size x = h.size x := by
  unfold start
  split_ifs
  · exact ⟨Function.update_of_ne hx _ _, Function.update_of_ne hx _ _⟩
  · exact ⟨rfl, rfl⟩

theorem start_stop (hv : Valid base { s with heap := start base s.heap } L) {b : ℕ}
    (hb : b ∈ s.live) : (start base s.heap).stop b = s.heap.stop b := by
  have hle := hv.base_le hb
  rw [Heap.stop, Heap.stop, (start_other (by omega)).2]

theorem start_writable (hv : Valid base { s with heap := start base s.heap } L) {y : ℕ}
    (hw : Writable base s y) : Writable base { s with heap := start base s.heap } y := by
  rcases hw with ⟨b, hb, hby, hlt⟩ | hw
  · exact .inl ⟨b, hb, hby, (start_stop hv hb).symm ▸ hlt⟩
  · exact .inr hw

/-! ## One request -/

/-- The allocator has the byte `y` and no live block does. -/
def FreeByte (s : Process) (y : ℕ) : Prop := y ∈ s.granted ∧ ∀ b ∈ s.live, ¬s.heap.Holds b y

theorem Valid.covered_iff (hv : Valid base s L) {y : ℕ} :
    Covered s.heap.stop L y ↔ FreeByte s y := by
  constructor
  · exact fun hy => ⟨(hv.cover y).mpr (.inl hy), fun b hb hby => hv.clear b hb y hby hy⟩
  · rintro ⟨hy, hno⟩
    refine ((hv.cover y).mp hy).resolve_right ?_
    rintro ⟨b, hb, hby⟩
    exact hno b hb hby

theorem start_freeByte (hv : Valid base { s with heap := start base s.heap } L) {y : ℕ} :
    FreeByte { s with heap := start base s.heap } y ↔ FreeByte s y := by
  refine and_congr_right fun _ => forall₂_congr fun b hb => not_congr ?_
  rw [Heap.Holds, Heap.Holds, start_stop hv hb]

/-- The answer to a request for `nu` units. -/
structure Answer (base nu : ℕ) (s : Process) (h' : Heap) (p : ℕ) : Prop where
  /-- A null pointer: no run of free bytes is long enough, and the kernel has less than
  the allocator asks it for. -/
  null : p = 0 → s.heap.room < chunk nu ∧
    ¬∃ q, ∀ y, q ≤ y → y < q + 16 * nu → FreeByte s y
  size : p ≠ 0 → h'.size (p - 16) = nu
  /-- The bytes of a block were free, or are new in the process. -/
  bytes : p ≠ 0 → ∀ y, h'.Holds (p - 16) y → s.heap.sz ≤ y ∧ y < h'.sz ∨ FreeByte s y
  /-- No header that was written lies on a byte of the program. -/
  frame : ∀ x, h'.ptr x ≠ s.heap.ptr x ∨ h'.size x ≠ s.heap.size x →
    ∀ y, x ≤ y → y < x + 16 → y < s.heap.sz → ¬Writable base s y

/-- A list without a block of `nu` units has no run of that length. -/
theorem FreeList.no_run (hf : FreeList base h L) (hnu : 0 < nu)
    (hnone : ∀ a ∈ L, h.size a < nu) :
    ¬∃ q, ∀ y, q ≤ y → y < q + 16 * nu → Covered h.stop L y := by
  rintro ⟨q, hq⟩
  obtain ⟨a, ha, hle, hstop⟩ := hf.separated.exists_covering (s := q) (e := q + 16 * nu)
    (by omega) hq
  have := hnone a ha
  unfold Heap.stop at hstop
  omega

theorem malloc_valid (hinv : Inv base s) (hpos : 0 < base) (n : UInt32)
    (hn : 16 * nunits n < 2147483648) :
    ∃ k, ∀ fuel ≥ k, ∃ h' p, malloc shared base fuel s.heap n = some (.returned h' p) ∧
      Answer base (nunits n) s h' p ∧
      Inv base ⟨h', if p = 0 then s.live else insert (p - 16) s.live,
        s.granted ∪ {y | s.heap.sz ≤ y ∧ y < h'.sz}⟩ := by
  obtain ⟨L, hv⟩ := hinv.begin hpos
  have hsz : (start base s.heap).sz = s.heap.sz := start_sz
  have hroom : (start base s.heap).room = s.heap.room := start_room
  have hbase := hinv.base_lt
  have hmem := hinv.memory
  have hnu := nunits_pos n
  have hphys : physical = 134217728 := rfl
  have hfree : FreeList base (start base s.heap) L := hv.free
  refine ⟨2 * L.length + 3, fun fuel hfuel => ?_⟩
  rcases mallocLoop_spec fuel hfree hpos (fun a ha => hv.stop_le ha)
    (by omega) (by omega) hnu (by omega) (by omega) with ⟨hnone, hlt, hloop⟩ |
    ⟨h1, L1, hg, hnone, P, prev, x, Q, A, heq, hfit, -, -, hloop⟩
  · have hv' := hv.grow (by simpa [hsz] using hbase) (.refl hv.free)
    refine ⟨start base s.heap, 0, hloop, ⟨fun _ => ⟨hroom ▸ hlt, ?_⟩, fun h => absurd rfl h,
      fun h => absurd rfl h, fun x hx y hxy hlt _ hw => ?_⟩, ?_, ?_, .inr ⟨L, ?_⟩⟩
    · have hno := hv.free.no_run hnu hnone
      rintro ⟨q, hq⟩
      exact hno ⟨q, fun y h1 h2 => hv.covered_iff.mpr ((start_freeByte hv).mpr (hq y h1 h2))⟩
    · have hxb : x = base := by
        by_contra hne
        have := start_other (h := s.heap) hne
        exact hx.elim (fun h => h this.1) fun h => h this.2
      exact hv.not_writable (.inr (.inr ⟨hxb ▸ hxy, hxb ▸ hlt⟩)) (start_writable hv hw)
    · show base + 16 ≤ (start base s.heap).sz
      omega
    · show (start base s.heap).sz + (start base s.heap).room ≤ physical
      omega
    · simpa only [hsz, if_true] using hv'
  · have hv1 := hv.grow (by simpa [hsz] using hbase) hg
    have hx := hg.free.mem_of_fit heq hnu hfit
    have htotal := hg.total
    obtain ⟨h2, L2, q, htake, ht⟩ := take_spec hg.free heq hnu hfit
      ((hv1.stop_le hx).trans_lt (show h1.sz < _ by omega))
    have hv2 := hv1.take ht hnu
    have h2sz := ht.same.sz
    have h2room := ht.same.room
    have hle := hg.le
    refine ⟨h2, q + 16, hloop.trans (congrArg some htake), ⟨fun h => absurd h (by omega),
      fun _ => ht.size, fun _ y hy => ?_, fun z hz y hzy hlt hysz hw => ?_⟩, ?_, ?_,
      .inr ⟨L2, ?_⟩⟩
    · rcases (hg.cover y).mp ((ht.cover y).mpr (.inr hy)) with hy | hy
      · exact .inl (by omega)
      · exact .inr ((start_freeByte hv).mp (hv.covered_iff.mp hy))
    · have hold : ∀ y, Covered h1.stop L1 y → y < s.heap.sz →
          Covered (start base s.heap).stop L y := fun y hy hlt =>
        ((hg.cover y).mp hy).resolve_left fun h => absurd hlt (not_lt.mpr (hsz ▸ h.1))
      refine hv.not_writable ?_ (start_writable hv hw)
      by_cases hzq : z = q
      · subst hzq
        refine .inl (hold y ((ht.cover y).mpr (.inr ⟨hzy, ?_⟩)) hysz)
        rw [Heap.stop, ht.size]
        omega
      by_cases hzb : z = base
      · exact .inr (.inr ⟨hzb ▸ hzy, hzb ▸ hlt⟩)
      by_cases hzL : z ∈ L
      · exact .inl (hv.covered_header hzL hzy hlt)
      have hzsz : z ≠ (start base s.heap).sz := by omega
      have hz1 : z ∉ (start base s.heap).sz :: base :: L := by simp [hzsz, hzb, hzL]
      have hz2 : z ∉ q :: base :: L1 := by
        rw [List.mem_cons, List.mem_cons]
        rintro (h | h | h)
        · exact hzq h
        · exact hzb h
        · exact hz1 ((List.mem_cons.mp (hg.subset h)).elim (fun h => absurd h hzsz)
            fun h => absurd h hzL)
      have hother := start_other (h := s.heap) hzb
      refine absurd hz (not_or.mpr ⟨not_not.mpr ?_, not_not.mpr ?_⟩)
      · rw [ht.same.ptr z hz2, hg.ptr z hz1, hother.1]
      · rw [ht.same.size z hz2, hg.size z hz1, hother.2]
    · show base + 16 ≤ h2.sz
      omega
    · show h2.sz + h2.room ≤ physical
      omega
    · rw [if_neg (by omega), Nat.add_sub_cancel, h2sz, ← hsz]
      exact hv2

theorem free_valid (hinv : Inv base s) {b : ℕ} (hb : b ∈ s.live) :
    ∃ k, ∀ fuel ≥ k, ∃ h', free fuel s.heap (b + 16) = some h' ∧
      (∀ x, h'.ptr x ≠ s.heap.ptr x ∨ h'.size x ≠ s.heap.size x →
        ∀ y, x ≤ y → y < x + 16 → ¬Writable base s y) ∧
      Inv base ⟨h', s.live.erase b, s.granted⟩ := by
  rcases hinv.blocks with hfresh | ⟨L, hv⟩
  · simp [hfresh.live] at hb
  · refine ⟨L.length + 1, fun fuel hfuel => ?_⟩
    obtain ⟨h', L', hfree, hv', hsame⟩ := hv.release hinv.memory hb hfuel
    refine ⟨h', hfree, fun x hx y hxy hlt => hv.not_writable ?_, ?_, ?_, .inr ⟨L', hv'⟩⟩
    · by_cases hmem : x ∈ b :: base :: L
      · rcases List.mem_cons.mp hmem with rfl | hmem
        · exact .inr (.inl ⟨x, hb, hxy, hlt⟩)
        · rcases List.mem_cons.mp hmem with rfl | hmem
          · exact .inr (.inr ⟨hxy, hlt⟩)
          · exact .inl (hv.covered_header hmem hxy hlt)
      · exact absurd hx (not_or.mpr
          ⟨not_not.mpr (hsame.ptr x hmem), not_not.mpr (hsame.size x hmem)⟩)
    · exact hsame.sz.symm ▸ hinv.base_lt
    · show h'.sz + h'.room ≤ physical
      rw [hsame.sz, hsame.room]
      exact hinv.memory

/-! ## Runs -/

theorem Inv.step (hinv : Inv base s) (hpos : 0 < base) (hstep : Step base s s') :
    Inv base s' := by
  cases hstep with
  | malloc hn hmalloc =>
    obtain ⟨k, hk⟩ := malloc_valid hinv hpos _ hn
    obtain ⟨h', p, hmalloc', -, hinv'⟩ := hk _ (Nat.le_add_left k _)
    cases (mallocLoop_mono hmalloc).symm.trans hmalloc'
    exact hinv'
  | free hb hfree =>
    obtain ⟨k, hk⟩ := free_valid hinv hb
    obtain ⟨h', hfree', -, hinv'⟩ := hk _ (Nat.le_add_left k _)
    cases (free_mono hfree).symm.trans hfree'
    exact hinv'
  | write hfreep hsz hroom hwrite =>
    refine ⟨hsz.symm ▸ hinv.base_lt, ?_, ?_⟩
    · show _ + _ ≤ physical
      rw [hsz, hroom]
      exact hinv.memory
    · rcases hinv.blocks with hfresh | ⟨L, hv⟩
      · exact .inl ⟨hfreep.trans hfresh.freep, hfresh.live, hfresh.granted⟩
      · exact .inr ⟨L, hv.write hfreep hsz hwrite⟩
  | kernel hsz hmem =>
    refine ⟨hinv.base_lt.trans hsz, hmem, ?_⟩
    rcases hinv.blocks with hfresh | ⟨L, hv⟩
    · exact .inl ⟨hfresh.freep, hfresh.live, hfresh.granted⟩
    · refine .inr ⟨L, hv.free.congr (fun _ _ => rfl) (fun _ _ => rfl) hv.free.freep, hv.pos,
        hv.apart, hv.clear, hv.cover, fun y hy => ?_⟩
      exact ⟨(hv.inside y hy).1, (hv.inside y hy).2.trans_le hsz⟩

/-- A process before its first request, and the runs from there. -/
structure Runs (base : ℕ) (s : Process) : Prop where
  base_pos : 0 < base
  run : ∃ s₀, Fresh s₀ ∧ base + 16 ≤ s₀.heap.sz ∧ s₀.heap.sz + s₀.heap.room ≤ physical ∧
    Relation.ReflTransGen (Step base) s₀ s

theorem Runs.inv (hrun : Runs base s) : Inv base s := by
  obtain ⟨s₀, hfresh, hbase, hmem, hrun'⟩ := hrun.run
  induction hrun' with
  | refl => exact ⟨hbase, hmem, .inl hfresh⟩
  | tail hbefore hstep ih =>
    exact Inv.step (ih ⟨hrun.base_pos, s₀, hfresh, hbase, hmem, hbefore⟩) hrun.base_pos hstep

/-- Each byte that the allocator got is in exactly one block, of the free list or of the
program, and the list is in order with a gap behind each block. -/
def Divided (base : ℕ) (s : Process) : Prop :=
  ∃ L : List ℕ, (s.heap.freep = 0 ∧ L = [] ∨ FreeList base s.heap L) ∧
    (∀ b ∈ s.live, b ∉ L) ∧
    (∀ y, y ∈ s.granted ↔ ∃ b, (b ∈ L ∨ b ∈ s.live) ∧ s.heap.Holds b y) ∧
    (∀ y a b, a ∈ L ∨ a ∈ s.live → b ∈ L ∨ b ∈ s.live → s.heap.Holds a y →
      s.heap.Holds b y → a = b) ∧
    ∀ y ∈ s.granted, base + 16 ≤ y ∧ y < s.heap.sz

/-- Whatever the program does, its heap stays divided into blocks. -/
theorem blocks_divide_memory (hrun : Runs base s) : Divided base s := by
  rcases hrun.inv.blocks with hfresh | ⟨L, hv⟩
  · refine ⟨[], .inl ⟨hfresh.freep, rfl⟩, ?_⟩
    simp [hfresh.live, hfresh.granted]
  · refine ⟨L, .inr hv.free, fun b hb hmem => ?_, fun y => ?_, fun y a b ha hb hay hby => ?_,
      hv.inside⟩
    · exact hv.not_mem hb (by simp [hmem])
    · rw [hv.cover, Covered]
      simp only [or_and_right, exists_or]
      rfl
    · rcases ha with ha | ha
      · rcases hb with hb | hb
        · exact hv.free.eq_of_holds ha hb hay hby
        · exact absurd ⟨a, ha, hay⟩ (hv.clear b hb y hby)
      · rcases hb with hb | hb
        · exact absurd ⟨b, hb, hby⟩ (hv.clear a ha y hay)
        · exact hv.apart a ha b hb y hay hby

theorem Runs.uses {us : List Use} (hrun : Runs base s)
    (hus : runAll (Process.use base fuel) s us = some s') : Runs base s' := by
  obtain ⟨s₀, hfresh, hbase, hmem, hbefore⟩ := hrun.run
  refine ⟨hrun.base_pos, s₀, hfresh, hbase, hmem, ?_⟩
  induction us generalizing s with
  | nil =>
    cases hus
    exact hbefore
  | cons u us ih =>
    obtain ⟨t, hu, hrest⟩ := Option.bind_eq_some_iff.mp hus
    have hstep := hbefore.tail (step_of_use hu)
    exact ih ⟨hrun.base_pos, s₀, hfresh, hbase, hmem, hstep⟩ hrest hstep

/-- A process of `sz` bytes, with room for one more chunk. -/
def idle (sz : ℕ) : Process := ⟨⟨fun _ => 0, fun _ => 0, 0, sz, 65536⟩, ∅, ∅⟩

theorem idle_runs (sz : ℕ) (hbase : 32 ≤ sz) (hmem : sz ≤ 134152192) : Runs 16 (idle sz) := by
  refine ⟨by decide, idle sz, ⟨rfl, rfl, rfl⟩, hbase, ?_, .refl⟩
  change sz + 65536 ≤ 134217728
  omega

/-- Three blocks from one chunk. -/
def threeBlocks : List Use := [.malloc 100, .malloc 200, .malloc 300]

/-- The block in the middle is given back: there are two free blocks, on either side of a live
one. -/
theorem threeBlocks_free : ∃ s, Runs 16 s ∧ s.live = {68960, 69504} ∧
    s.heap.ptr 16 = 4096 ∧ s.heap.ptr 4096 = 69280 ∧ s.heap.ptr 69280 = 16 := by
  have heval : (runAll (Process.use 16 20) (idle 4096) (threeBlocks ++ [.free 69280])).any
      (fun s => s.live = {68960, 69504} ∧ s.heap.ptr 16 = 4096 ∧ s.heap.ptr 4096 = 69280 ∧
        s.heap.ptr 69280 = 16) = true := by
    decide +kernel
  obtain ⟨s, hs, hend⟩ := (Option.any_eq_true _ _).mp heval
  exact ⟨s, (idle_runs 4096 (by decide) (by decide)).uses hs, of_decide_eq_true hend⟩

theorem blocks_divide_memory_three : ∃ s : Process, s.live = {68960, 69504} ∧ Divided 16 s := by
  obtain ⟨s, hrun, hlive, -⟩ := threeBlocks_free
  exact ⟨s, hlive, blocks_divide_memory hrun⟩

/-- In every state that a program reaches, requests and releases come to an end, and write
no byte of the program; a request fails only where no run of free bytes is long enough. -/
theorem requests_are_answered (hrun : Runs base s) :
    (∀ n, 16 * nunits n < 2147483648 → ∃ k, ∀ fuel ≥ k, ∃ h' p,
      malloc shared base fuel s.heap n = some (.returned h' p) ∧ Answer base (nunits n) s h' p) ∧
    ∀ b ∈ s.live, ∃ k, ∀ fuel ≥ k, ∃ h', free fuel s.heap (b + 16) = some h' ∧
      ∀ x, h'.ptr x ≠ s.heap.ptr x ∨ h'.size x ≠ s.heap.size x →
        ∀ y, x ≤ y → y < x + 16 → ¬Writable base s y := by
  constructor
  · intro n hn
    obtain ⟨k, hk⟩ := malloc_valid hrun.inv hrun.base_pos n hn
    refine ⟨k, fun fuel hfuel => ?_⟩
    obtain ⟨h', p, hmalloc, hanswer, -⟩ := hk fuel hfuel
    exact ⟨h', p, hmalloc, hanswer⟩
  · intro b hb
    obtain ⟨k, hk⟩ := free_valid hrun.inv hb
    refine ⟨k, fun fuel hfuel => ?_⟩
    obtain ⟨h', hfree, hframe, -⟩ := hk fuel hfuel
    exact ⟨h', hfree, hframe⟩

/-- With two live blocks and two free ones, a request and a release. -/
theorem requests_are_answered_three : ∃ s, Runs 16 s ∧ s.live = {68960, 69504} ∧
    (s.heap.ptr 16 = 4096 ∧ s.heap.ptr 4096 = 69280 ∧ s.heap.ptr 69280 = 16) ∧
    (∃ k, ∀ fuel ≥ k, ∃ h' p, malloc false 16 fuel s.heap 100 = some (.returned h' p) ∧
      Answer 16 (nunits 100) s h' p) ∧
    ∃ k, ∀ fuel ≥ k, ∃ h', free fuel s.heap 69520 = some h' ∧
      ∀ x, h'.ptr x ≠ s.heap.ptr x ∨ h'.size x ≠ s.heap.size x →
        ∀ y, x ≤ y → y < x + 16 → ¬Writable 16 s y := by
  obtain ⟨s, hrun, hlive, hlist⟩ := threeBlocks_free
  obtain ⟨hmalloc, hfree⟩ := requests_are_answered hrun
  exact ⟨s, hrun, hlive, hlist, hmalloc 100 (by decide), hfree 69504 (by simp [hlive])⟩

theorem Runs.covered_iff (hrun : Runs base s) (hf : FreeList base s.heap L) (y : ℕ) :
    Covered s.heap.stop L y ↔ FreeByte s y := by
  rcases hrun.inv.blocks with hfresh | ⟨L', hv⟩
  · have := hf.base_le hf.freep
    rw [hfresh.freep] at this
    exact absurd hrun.base_pos (not_lt.mpr this)
  · obtain rfl : L = L' := hf.ring.unique hv.free.ring (List.nodup_cons.mp hf.nodup).1
      (List.nodup_cons.mp hv.free.nodup).1
    exact hv.covered_iff

/-- Two programs that have the same bytes free have the same free list, in whatever order
they called `malloc` and `free`. -/
theorem free_list_is_determined (hrun : Runs base s) (hrun' : Runs base s')
    (hf : FreeList base s.heap L) (hf' : FreeList base s'.heap L')
    (heq : ∀ y, FreeByte s y ↔ FreeByte s' y) :
    L = L' ∧ ∀ a ∈ L, s.heap.size a = s'.heap.size a := by
  obtain ⟨rfl, hstop⟩ := hf.separated.unique hf'.separated fun y => by
    rw [hrun.covered_iff hf, heq, hrun'.covered_iff hf']
  refine ⟨rfl, fun a ha => ?_⟩
  have h := hstop a ha
  unfold Heap.stop at h
  omega

/-- What a release does to the free bytes and to the other blocks. -/
theorem use_free {b : ℕ} (hrun : Runs base s) (hu : s.use base fuel (.free b) = some s') :
    s'.live = s.live.erase b ∧ (∃ L, FreeList base s'.heap L) ∧
      (∀ y, FreeByte s' y ↔ FreeByte s y ∨ s.heap.Holds b y) ∧
      ∀ c ∈ s'.live, ∀ y, s'.heap.Holds c y ↔ s.heap.Holds c y := by
  obtain ⟨hb, hu⟩ := Option.ite_none_right_eq_some.mp hu
  obtain ⟨h', hfree, rfl⟩ := Option.map_eq_some_iff.mp hu
  rcases hrun.inv.blocks with hfresh | ⟨L, hv⟩
  · simp [hfresh.live] at hb
  obtain ⟨h'', L', hfree', hv', hsame⟩ :=
    hv.release hrun.inv.memory hb (Nat.lt_of_lt_of_le (Nat.lt_succ_self _) (Nat.le_add_left _ fuel))
  obtain rfl : h' = h'' := Option.some.inj ((free_mono hfree).symm.trans hfree')
  have hholds : ∀ c ∈ s.live.erase b, ∀ y, h'.Holds c y ↔ s.heap.Holds c y := fun c hc y => by
    obtain ⟨hne, hc⟩ := Finset.mem_erase.mp hc
    have hsize := hsame.size c fun hmem => (List.mem_cons.mp hmem).elim hne fun hmem =>
      hv.not_mem hc (List.mem_cons_of_mem _ hmem)
    rw [Heap.Holds, Heap.Holds, Heap.stop, Heap.stop, hsize]
  refine ⟨rfl, ⟨L', hv'.free⟩, fun y => ⟨?_, ?_⟩, hholds⟩
  · rintro ⟨hy, hno⟩
    by_cases hby : s.heap.Holds b y
    · exact .inr hby
    · refine .inl ⟨hy, fun c hc hcy => ?_⟩
      have hne : c ≠ b := fun heq => hby (heq ▸ hcy)
      have hmem := Finset.mem_erase.mpr ⟨hne, hc⟩
      exact hno c hmem ((hholds c hmem y).mpr hcy)
  · rintro (⟨hy, hno⟩ | hby)
    · exact ⟨hy, fun c hc hcy => hno c (Finset.mem_of_mem_erase hc) ((hholds c hc y).mp hcy)⟩
    · refine ⟨hv.mem_granted hb hby, fun c hc hcy => ?_⟩
      obtain ⟨hne, hc'⟩ := Finset.mem_erase.mp hc
      exact hne (hv.apart c hc' b hb y ((hholds c hc y).mp hcy) hby)

/-- After two releases the blocks are free, whichever came first. -/
theorem uses_free_free {b c : ℕ} (hrun : Runs base s)
    (hus : runAll (Process.use base fuel) s [.free b, .free c] = some s') :
    (∃ L, FreeList base s'.heap L) ∧
      ∀ y, FreeByte s' y ↔ FreeByte s y ∨ s.heap.Holds b y ∨ s.heap.Holds c y := by
  obtain ⟨t, hb, hrest⟩ := Option.bind_eq_some_iff.mp hus
  obtain ⟨t', hc, hrest⟩ := Option.bind_eq_some_iff.mp hrest
  obtain rfl := Option.some.inj hrest
  obtain ⟨hlive, -, hbytes, hholds⟩ := use_free hrun hb
  have hfirst : runAll (Process.use base fuel) s [.free b] = some t :=
    Option.bind_eq_some_iff.mpr ⟨t, hb, rfl⟩
  have hrun' : Runs base t := hrun.uses hfirst
  obtain ⟨-, hlist, hbytes', -⟩ := use_free hrun' hc
  have hct := (Option.ite_none_right_eq_some.mp hc).1
  refine ⟨hlist, fun y => ?_⟩
  rw [hbytes', hbytes, hholds c hct, or_assoc]

/-- Two blocks are given back in one order and in the other. -/
theorem free_list_is_determined_three : ∃ s s₁ s₂ L₁ L₂, Runs 16 s ∧
    s.live = {68960, 69280, 69504} ∧
    runAll (Process.use 16 20) s [.free 69504, .free 69280] = some s₁ ∧
    runAll (Process.use 16 20) s [.free 69280, .free 69504] = some s₂ ∧
    FreeList 16 s₁.heap L₁ ∧ FreeList 16 s₂.heap L₂ ∧
    L₁ = L₂ ∧ ∀ a ∈ L₁, s₁.heap.size a = s₂.heap.size a := by
  have heval : (runAll (Process.use 16 20) (idle 4096) threeBlocks).any (fun s =>
      s.live = {68960, 69280, 69504} ∧
        (runAll (Process.use 16 20) s [.free 69504, .free 69280]).isSome ∧
          (runAll (Process.use 16 20) s [.free 69280, .free 69504]).isSome) = true := by
    decide +kernel
  obtain ⟨s, hs, hend⟩ := (Option.any_eq_true _ _).mp heval
  obtain ⟨hlive, hsome₁, hsome₂⟩ := of_decide_eq_true hend
  obtain ⟨s₁, h₁⟩ := Option.isSome_iff_exists.mp hsome₁
  obtain ⟨s₂, h₂⟩ := Option.isSome_iff_exists.mp hsome₂
  have hrun := (idle_runs 4096 (by decide) (by decide)).uses hs
  obtain ⟨⟨L₁, hf₁⟩, hbytes₁⟩ := uses_free_free hrun h₁
  obtain ⟨⟨L₂, hf₂⟩, hbytes₂⟩ := uses_free_free hrun h₂
  refine ⟨s, s₁, s₂, L₁, L₂, hrun, hlive, h₁, h₂, hf₁, hf₂, ?_⟩
  refine free_list_is_determined (hrun.uses h₁) (hrun.uses h₂) hf₁ hf₂ fun y => ?_
  rw [hbytes₁, hbytes₂, or_comm (a := s.heap.Holds 69504 y)]

/-! ## Requests beyond the range of an `int` -/

theorem sbrk_cases (h : Heap) (n : ℤ) : sbrk h n = (h, none) ∧ 0 < n ∧ h.room < n.toNat ∨
    ∃ h', sbrk h n = (h', some h.sz) ∧ h'.ptr = h.ptr ∧ h'.size = h.size ∧
      h'.freep = h.freep ∧ h'.sz ≤ h.sz + n.toNat ∧ (0 < n → h'.sz = h.sz + n.toNat) := by
  unfold sbrk
  split_ifs with hpos hroom hneg
  · exact .inr ⟨_, rfl, rfl, rfl, rfl, le_rfl, fun _ => rfl⟩
  · exact .inl ⟨rfl, hpos, not_le.mp hroom⟩
  · exact .inr ⟨_, rfl, rfl, rfl, rfl, (Nat.sub_le _ _).trans (Nat.le_add_right _ _),
      fun h => absurd h hpos⟩
  · exact .inr ⟨_, rfl, rfl, rfl, rfl, Nat.le_add_right _ _, fun h => absurd h hpos⟩

theorem sbrk_start (n : ℤ) : (sbrk (start base h) n).1.sz = (sbrk h n).1.sz := by
  unfold sbrk
  rw [start_sz, start_room]
  split_ifs
  · rfl
  · exact start_sz
  · rfl
  · exact start_sz

theorem nunits_le (n : UInt32) : nunits n ≤ 268435457 := by
  have := n.toNat_lt
  unfold nunits
  omega

/-- The size of the request as `sbrk` sees it. -/
theorem wrap32_request (hn : 2147483648 ≤ 16 * nu) (hle : nu ≤ 268435457) :
    wrap32 (nu * 16 : ℕ) ≤ 0 ∨ nu = 268435457 ∧ wrap32 (nu * 16 : ℕ) = 16 := by
  have h := wrap32_eq (nu * 16 : ℕ)
  rw [Nat.cast_mul, Nat.cast_ofNat] at h ⊢
  omega

/-- Where the size wraps around in the argument of `sbrk`, a request gets no memory: the
process is killed as `morecore` writes the header, if it has no page at its old end any more;
else `malloc` returns a block that ends behind all pages of the process. Only the largest
sizes, which ask the kernel for one header, may get a null pointer. -/
theorem huge_requests_get_no_memory (shared : Bool) (hrun : Runs base s) (n : UInt32)
    (hn : 2147483648 ≤ 16 * nunits n) :
    ∃ k, ∀ fuel ≥ k,
      malloc shared base fuel s.heap n = some .killed ∧ nunits n ≠ 268435457 ∧
        (sbrk s.heap (wrap32 (nunits n * 16 : ℕ))).1.limit shared < s.heap.sz + 12 ∨
      ∃ h' p, malloc shared base fuel s.heap n = some (.returned h' p) ∧
        (p = 0 ∧ nunits n = 268435457 ∧ s.heap.room < 16 ∨
          p ≠ 0 ∧ s.heap.sz + 12 ≤ (sbrk s.heap (wrap32 (nunits n * 16 : ℕ))).1.limit shared ∧
            h'.size (p - 16) = nunits n ∧ h'.limit false < h'.stop (p - 16)) := by
  have hinv := hrun.inv
  have hpos := hrun.base_pos
  obtain ⟨L, hv⟩ := hinv.begin hpos
  have hsz : (start base s.heap).sz = s.heap.sz := start_sz
  have hroom : (start base s.heap).room = s.heap.room := start_room
  have hbase := hinv.base_lt
  have hmem := hinv.memory
  have hle := nunits_le n
  have hphys : physical = 134217728 := rfl
  have hf : FreeList base (start base s.heap) L := hv.free
  have hbound : ∀ a ∈ L, (start base s.heap).stop a ≤ (start base s.heap).sz := fun a ha =>
    hv.stop_le ha
  refine ⟨2 * L.length + 3, fun fuel hfuel => ?_⟩
  generalize hnu : nunits n = nu at *
  obtain ⟨k, rfl⟩ : ∃ k, fuel = k + 1 + L.length := ⟨fuel - L.length - 1, by omega⟩
  have hnone : ∀ a ∈ L, (start base s.heap).size a < nu := fun a ha => by
    have := hbound a ha
    unfold Heap.stop at this
    omega
  have hlarge : ¬nu < 4096 := by omega
  have hwrap := wrap32_request hn hle
  have hend := @sbrk_start base s.heap (wrap32 (nu * 16 : ℕ))
  rw [malloc, hnu, hf.no_fit (by omega) hnone, morecore, if_neg hlarge, Heap.limit, ← hend]
  rcases sbrk_cases (start base s.heap) (wrap32 (nu * 16 : ℕ)) with
    ⟨hsbrk, hwpos, hwroom⟩ | ⟨h1, hsbrk, hptr, hsize, hfreep, hsz1, hgrown⟩
  · obtain ⟨hnu', hwrap⟩ := hwrap.resolve_left (not_le.mpr hwpos)
    rw [hwrap, hroom] at hwroom
    refine .inr ⟨start base s.heap, 0, ?_, .inl ⟨rfl, hnu', hwroom⟩⟩
    rw [hsbrk]
    rfl
  have htoNat : (wrap32 (nu * 16 : ℕ)).toNat ≤ 16 := by
    rcases hwrap with h | ⟨-, h⟩
    · rw [Int.toNat_of_nonpos h]
      exact Nat.zero_le _
    · rw [h]
      exact le_rfl
  rw [hsbrk]
  dsimp only
  by_cases hmapped : h1.limit shared < (start base s.heap).sz + 12
  · rw [if_pos hmapped]
    refine .inl ⟨rfl, fun hnu' => ?_, hsz ▸ hmapped⟩
    -- a process that has grown has the page
    have hwrap' : wrap32 (nu * 16 : ℕ) = 16 := by
      rw [wrap32_eq, hnu']
      norm_num
    have hgrown' := hgrown (by omega)
    rw [hwrap'] at hgrown'
    unfold Heap.limit at hmapped
    cases shared <;> simp only [Bool.false_eq_true, if_false, if_true] at hmapped <;> omega
  · obtain ⟨h2, L2, hfree, hf2, hsub, -, -, h2sz, -, hcov⟩ := free_chunk k h1 (m := nu)
      hf hbound (by omega) hptr hsize hfreep (by omega) (by omega) (by omega)
    have hfreep2 : h2.freep ≠ 0 := (hpos.trans_le (hf2.base_le hf2.freep)).ne'
    obtain ⟨P, prev, x, Q, A, heq, hx, -, -, hloop⟩ := hf2.fit_run shared k (by omega : 0 < nu)
      hsub (fun y h1 h2 => (hcov y).mpr (.inl ⟨h1, h2⟩)) (by omega)
    have hxL := hf2.mem_of_fit heq (by omega) hx
    have hxbound : h2.stop x < 68719476736 := by
      have hxpos := lt_stop (hf2.pos x hxL)
      rcases (hcov (h2.stop x - 1)).mp ⟨x, hxL, by omega, by omega⟩ with h | ⟨c, hc, -, hlt⟩
      · omega
      · have := hbound c hc
        omega
    obtain ⟨h3, L3, q, htake, ht⟩ := take_spec hf2 heq (by omega) hx hxbound
    refine .inr ⟨h3, q + 16, ?_, .inr ⟨by omega, hsz ▸ not_lt.mp hmapped, ht.size, ?_⟩⟩
    · rw [if_neg hmapped, hfree, Option.map_some]
      obtain ⟨m, hm⟩ := Nat.exists_eq_succ_of_ne_zero hfreep2
      rw [hm] at hloop ⊢
      exact hloop.trans (congrArg some htake)
    · rw [Nat.add_sub_cancel, Heap.stop, Heap.limit, if_neg Bool.false_ne_true, ht.size,
        ht.same.sz, h2sz]
      omega

/-- With its last page full or shared, the process is killed; with room in it, it gets a block. -/
theorem huge_requests_get_no_memory_idle :
    (∃ k, ∀ fuel ≥ k, malloc false 16 fuel (idle 4096).heap 2147483648 = some .killed) ∧
    (∃ k, ∀ fuel ≥ k, malloc true 16 fuel (idle 5000).heap 2147483648 = some .killed) ∧
    ∃ k, ∀ fuel ≥ k, ∃ h' p,
      malloc false 16 fuel (idle 5000).heap 2147483648 = some (.returned h' p) ∧
        p ≠ 0 ∧ h'.size (p - 16) = nunits 2147483648 ∧ h'.limit false < h'.stop (p - 16) := by
  have hnu : nunits 2147483648 = 134217729 := by decide
  have hw : wrap32 (nunits 2147483648 * 16 : ℕ) = -2147483632 := by
    rw [wrap32_eq, hnu]
    norm_num
  have hfull := idle_runs 4096 (by decide) (by decide)
  have hspace := idle_runs 5000 (by decide) (by decide)
  obtain ⟨k, hk⟩ := huge_requests_get_no_memory false hfull 2147483648 (by decide)
  obtain ⟨k', hk'⟩ := huge_requests_get_no_memory true hspace 2147483648 (by decide)
  obtain ⟨k'', hk''⟩ := huge_requests_get_no_memory false hspace 2147483648 (by decide)
  rw [hw] at hk hk' hk''
  refine ⟨⟨k, fun fuel hfuel => ?_⟩, ⟨k', fun fuel hfuel => ?_⟩, k'', fun fuel hfuel => ?_⟩
  · rcases hk fuel hfuel with ⟨hkilled, -⟩ | ⟨h', p, -, ⟨-, hlast, -⟩ | ⟨-, hlimit, -⟩⟩
    · exact hkilled
    · rw [hnu] at hlast
      omega
    · exact absurd hlimit (by decide)
  · rcases hk' fuel hfuel with ⟨hkilled, -⟩ | ⟨h', p, -, ⟨-, hlast, -⟩ | ⟨-, hlimit, -⟩⟩
    · exact hkilled
    · rw [hnu] at hlast
      omega
    · exact absurd hlimit (by decide)
  · rcases hk'' fuel hfuel with ⟨-, -, hlimit⟩ | ⟨h', p, hmalloc, ⟨-, hlast, -⟩ | ⟨hp, -, h⟩⟩
    · exact absurd hlimit (by decide)
    · rw [hnu] at hlast
      omega
    · exact ⟨h', p, hmalloc, hp, h⟩

end XV6AndConcurrency.UserHeap
