import XV6AndConcurrency.FileSystem.Log
import XV6AndConcurrency.Foundations.PointSums

/-!
# Reserved log space

Operations that pass at most `MAXOPBLOCKS` different blocks to `log_write` never
collect more than `LOGSIZE` blocks in a transaction. The log on disk has room for one
block less, its first block being the header.
-/

namespace XV6AndConcurrency.FileSystem

open Foundations

namespace LogSys

section

variable (s : LogSys)

/-- An operation passes at most `MAXOPBLOCKS` different blocks to `log_write`. -/
def WithinOp : LogAct → Prop
  | .write p b _ => b ∈ (s.ops p).getD [] ∨ ((s.ops p).getD []).length < maxOpBlocks
  | _ => True

instance : DecidablePred s.WithinOp
  | .write _ _ _ => inferInstanceAs (Decidable (_ ∨ _))
  | .beginOp _ | .endOp _ | .fetch _ | .evict _ | .advance | .crash => isTrue trivial

/-- The number of different blocks in the calls of `log_write` since the last commit. -/
def transactionBlocks : ℕ := (s.hist.group.map Prod.fst).dedup.length

/-- How many blocks the operation of `p` has used of its reservation. -/
def used (p : ℕ) : ℕ := ((s.ops p).getD []).length

end

/-- The transaction has the blocks of its operations, each within its reservation. -/
structure Reserved (s : LogSys) (A : Finset ℕ) : Prop extends Counted s A where
  opened : s.phase.recovering = true → s.hist.group = []
  nodup : s.phase.recovering = false → s.log.lh.Nodup
  logged : s.phase.recovering = false → ∀ b, b ∈ s.log.lh ↔ b ∈ s.hist.group.map Prod.fst
  uses : ∀ p bs, s.ops p = some bs → bs.length ≤ maxOpBlocks ∧ ∀ b ∈ bs, b ∈ s.log.lh
  room : s.phase.recovering = false →
    s.log.lh.length + maxOpBlocks * A.card ≤ logSize + ∑ p ∈ A, s.used p

variable {g : Geometry} {s s' : LogSys} {A : Finset ℕ} {p : ℕ}

namespace Reserved

theorem length_eq (h : Reserved s A) (hrec : s.phase.recovering = false) :
    s.log.lh.length = s.transactionBlocks := by
  apply List.Perm.length_eq
  rw [List.perm_ext_iff_of_nodup (h.nodup hrec) (List.nodup_dedup _)]
  intro b
  rw [h.logged hrec, List.mem_dedup]

/-- The reservations of `begin_op` keep a transaction within `LOGSIZE`. -/
theorem length_le (h : Reserved s A) (hrec : s.phase.recovering = false) :
    s.log.lh.length ≤ logSize := by
  have hroom := h.room hrec
  have hused : ∑ p ∈ A, s.used p ≤ maxOpBlocks * A.card := by
    rw [mul_comm]
    apply Finset.sum_le_card_nsmul
    intro p hp
    obtain ⟨bs, hbs⟩ := Option.ne_none_iff_exists'.mp ((h.active p).mp hp)
    simpa [used, hbs] using (h.uses p bs hbs).1
  omega

/-! ## Steps -/

/-- A step that leaves the operations and the log alone. -/
theorem congr (h : Reserved s A) (hops : s'.ops = s.ops) (hlog : s'.log = s.log)
    (hrec : s'.phase.recovering = s.phase.recovering) (hrun : s'.phase ≠ .run → s.phase ≠ .run)
    (hgroup : s'.hist.group = s.hist.group) : Reserved s' A := by
  refine ⟨h.toCounted.congr (by simp [hops]) (by rw [hlog]) (by rw [hlog]) hrec hrun,
    ?_, ?_, ?_, ?_, ?_⟩
  · simpa only [hrec, hgroup] using h.opened
  · simpa only [hrec, hlog] using h.nodup
  · simpa only [hrec, hlog, hgroup] using h.logged
  · simpa only [hops, hlog] using h.uses
  · simpa only [used, hrec, hops, hlog] using h.room

/-- No operation is under way. -/
theorem of_empty (h : Counted s ∅) (hopened : s.phase.recovering = true → s.hist.group = [])
    (hlogged : s.phase.recovering = false → s.log.lh.Nodup ∧ s.log.lh.length ≤ logSize ∧
      ∀ b, b ∈ s.log.lh ↔ b ∈ s.hist.group.map Prod.fst) : Reserved s ∅ := by
  refine ⟨h, hopened, fun hrec => (hlogged hrec).1, fun hrec => (hlogged hrec).2.2,
    fun p bs hp => ?_, fun hrec => ?_⟩
  · simp [h.ops_eq_none] at hp
  · simpa using (hlogged hrec).2.1

theorem beginOp (h : Reserved s A) (hrec : s.phase.recovering = false)
    (hs : s.beginOp p = some s') : Reserved s' (insert p A) := by
  obtain ⟨hp, hcounted⟩ := h.toCounted.beginOp hrec hs
  unfold LogSys.beginOp at hs
  split_ifs at hs with hidle
  obtain ⟨l, hl, rfl⟩ := Option.map_eq_some_iff.mp hs
  unfold Log.beginOp at hl
  split_ifs at hl with hcommit hfull
  cases hl
  refine ⟨hcounted, h.opened, h.nodup, h.logged, fun q bs hq => ?_, fun _ => ?_⟩
  · dsimp only at hq
    by_cases hqp : q = p
    · rw [hqp, Function.update_self] at hq
      cases hq
      simp
    · rw [Function.update_of_ne hqp] at hq
      exact h.uses q bs hq
  · dsimp only
    rw [Finset.card_insert_of_notMem hp]
    have hguard : (s.log.lh.length : ℤ) + (A.card + 1) * maxOpBlocks ≤ logSize := by
      rw [← h.outstanding]
      omega
    have hfit : s.log.lh.length + (A.card + 1) * maxOpBlocks ≤ logSize := by
      exact_mod_cast hguard
    rw [mul_comm]
    omega

/-- One operation uses another block of its reservation, or one that it used before. -/
theorem write (h : Reserved s A) {b : ℕ} {data : Block} {bs : List ℕ} {l : Log}
    (hp : s.ops p = some bs) (hl : s.log.logWrite g b = .ok l)
    (hwithin : b ∉ bs → bs.length < maxOpBlocks) (hops : s'.ops =
      Function.update s.ops p (some (if b ∈ bs then bs else bs ++ [b]))) (hlog : s'.log = l)
    (hphase : s'.phase = s.phase)
    (hhist : s'.hist = { s.hist with group := s.hist.group ++ [(b, data)] }) : Reserved s' A := by
  have hrec := h.not_recovering hp
  obtain ⟨-, -, rfl⟩ := Log.logWrite_ok hl
  have hnone (q : ℕ) : s'.ops q = none ↔ s.ops q = none := by
    rw [hops]
    by_cases hq : q = p
    · subst hq
      simp [hp]
    · rw [Function.update_of_ne hq]
  have hlh : s'.log.lh = if b ∈ s.log.lh then s.log.lh else s.log.lh ++ [b] := by rw [hlog]
  have hsub {k : ℕ} (hk : k ∈ s.log.lh) : k ∈ s'.log.lh := by
    rw [hlh]
    split_ifs
    · exact hk
    · exact List.mem_append_left _ hk
  have hself : b ∈ s'.log.lh := by
    rw [hlh]
    split_ifs with hb
    · exact hb
    · simp
  refine ⟨h.toCounted.congr hnone (by rw [hlog]) (by rw [hlog]) (by rw [hphase])
    (by rw [hphase]; exact id), by rw [hphase, hrec]; simp, fun _ => ?_, fun _ k => ?_,
    fun q cs hq => ?_, fun _ => ?_⟩
  · rw [hlh]
    split_ifs with hb
    · exact h.nodup hrec
    · exact (List.nodup_append_comm.mp (by simpa using ⟨hb, h.nodup hrec⟩))
  · rw [hlh, hhist]
    have hlogged := h.logged hrec k
    split_ifs with hb
    · rw [hlogged, List.map_append, List.mem_append]
      constructor
      · exact Or.inl
      · rintro (hk | hk)
        · exact hk
        · simp only [List.map_cons, List.map_nil, List.mem_singleton] at hk
          rw [hk]
          exact (h.logged hrec b).mp hb
    · simp only [List.mem_append, List.map_append, hlogged, List.map_cons, List.map_nil]
  · rw [hops] at hq
    by_cases hqp : q = p
    · rw [hqp, Function.update_self] at hq
      cases hq
      obtain ⟨hlen, hbs⟩ := h.uses p bs hp
      split_ifs with hb
      · exact ⟨hlen, fun k hk => hsub (hbs k hk)⟩
      · refine ⟨by simpa using hwithin hb, fun k hk => ?_⟩
        obtain hk | hk := List.mem_append.mp hk
        · exact hsub (hbs k hk)
        · rw [List.mem_singleton.mp hk]
          exact hself
    · rw [Function.update_of_ne hqp] at hq
      obtain ⟨hlen, hcs⟩ := h.uses q cs hq
      exact ⟨hlen, fun k hk => hsub (hcs k hk)⟩
  · have hroom := h.room hrec
    have hlen : s'.log.lh.length ≤ s.log.lh.length + if b ∈ bs then 0 else 1 := by
      rw [hlh]
      split_ifs with hb hbs hbs
      · simp
      · simp
      · exact absurd ((h.uses p bs hp).2 b hbs) hb
      · simp
    have hself : s'.used p = s.used p + if b ∈ bs then 0 else 1 := by
      unfold used
      rw [hops, Function.update_self, hp]
      split_ifs <;> simp
    have hsum : ∑ q ∈ A, s'.used q + s.used p = ∑ q ∈ A, s.used q + s'.used p := by
      refine sum_add_point (h.mem hp) fun q _ hq => ?_
      unfold used
      rw [hops, Function.update_of_ne hq]
    omega

/-- The operation of `p` ends; its reservation is at least what it used. -/
theorem endOp (h : Reserved s A) (hs : s.endOp p = some s') : Reserved s' (A.erase p) := by
  have hcounted := h.toCounted.endOp_step hs
  obtain ⟨bs, hp, hops, -, hlh, -, -, -, -, hcase⟩ := endOp_cases h.toCounted hs
  have hrun := h.phase_eq_run hp
  have hrec := h.not_recovering hp
  have hrec' : s'.phase.recovering = false := by
    obtain ⟨-, -, -, hphase, -⟩ | ⟨-, -, hphase, -⟩ | ⟨-, hphase, -⟩ := hcase
    · rw [hphase]; rfl
    · rw [hphase]; rfl
    · rw [hphase, hrun]; rfl
  have hgroup : s'.hist.group = s.hist.group := by
    obtain ⟨-, -, -, -, hhist⟩ | ⟨-, -, -, hhist⟩ | ⟨-, -, hhist⟩ := hcase
    · rw [hhist]
    · rw [hhist]
    · rw [hhist]
  refine ⟨hcounted, by simp [hrec'], fun _ => ?_, fun _ k => ?_, fun q cs hq => ?_, fun _ => ?_⟩
  · rw [hlh]
    exact h.nodup hrec
  · rw [hlh, hgroup]
    exact h.logged hrec k
  · rw [hops] at hq
    by_cases hqp : q = p
    · rw [hqp, Function.update_self] at hq
      cases hq
    · rw [Function.update_of_ne hqp] at hq
      rw [hlh]
      exact h.uses q cs hq
  · have hroom := h.room hrec
    have hlen : s.used p ≤ maxOpBlocks := by
      simpa [used, hp] using (h.uses p bs hp).1
    have hcard : (A.erase p).card + 1 = A.card := Finset.card_erase_add_one (h.mem hp)
    have hsum : s.used p + ∑ q ∈ A.erase p, s.used q = ∑ q ∈ A, s.used q :=
      Finset.add_sum_erase A s.used (h.mem hp)
    have hsame : ∑ q ∈ A.erase p, s'.used q = ∑ q ∈ A.erase p, s.used q := by
      refine Finset.sum_congr rfl fun q hq => ?_
      unfold used
      rw [hops, Function.update_of_ne (Finset.ne_of_mem_erase hq)]
    rw [hlh, hsame]
    rw [← hcard, mul_add, mul_one] at hroom
    omega

/-- A commit or a recovery goes on; no operation is under way then. -/
theorem advance (h : Reserved s A) (hs : s.advance g = some s') : Reserved s' A := by
  have hcounted := h.toCounted.advance hs
  have hrun : s.phase ≠ .run := by
    intro hrun
    simp [LogSys.advance, hrun] at hs
  obtain rfl := h.empty hrun
  unfold LogSys.advance at hs
  cases hphase : s.phase with
  | run => exact absurd hphase hrun
  | writeLog tail =>
    simp only [hphase, Option.some.injEq] at hs
    subst hs
    unfold writeLogRound
    split <;> exact h.congr rfl rfl (by rw [hphase]; rfl) (fun _ => hrun) rfl
  | writeHead =>
    simp only [hphase, Option.some.injEq] at hs
    subst hs
    exact h.congr rfl rfl (by rw [hphase]; rfl) (fun _ => hrun) rfl
  | installTrans tail =>
    simp only [hphase, Option.some.injEq] at hs
    subst hs
    unfold installRound
    split <;> exact h.congr rfl rfl (by rw [hphase]; rfl) (fun _ => hrun) rfl
  | clearHead =>
    simp only [hphase, Option.some.injEq] at hs
    subst hs
    exact of_empty hcounted (by simp [Phase.recovering]) fun _ => by simp [LogSys.clearHead]
  | finish =>
    simp only [hphase, Option.some.injEq] at hs
    subst hs
    have hrec : s.phase.recovering = false := by rw [hphase]; rfl
    exact of_empty hcounted (by simp [Phase.recovering])
      fun _ => ⟨h.nodup hrec, h.length_le hrec, h.logged hrec⟩
  | readHead =>
    simp only [hphase, Option.some.injEq] at hs
    subst hs
    have hgroup := h.opened (by rw [hphase]; rfl)
    exact of_empty hcounted (fun _ => hgroup) (by simp [Phase.recovering])
  | reinstall tail =>
    simp only [hphase, Option.some.injEq] at hs
    subst hs
    unfold reinstallRound
    split <;> exact h.congr rfl rfl (by rw [hphase]; rfl) (fun _ => hrun) rfl
  | reclear =>
    simp only [hphase, Option.some.injEq] at hs
    subst hs
    have hgroup := h.opened (by rw [hphase]; rfl)
    refine of_empty hcounted (by simp [Phase.recovering]) fun _ => ?_
    simp only [LogSys.clearHead, bwrite, modify, hgroup]
    simp

theorem boot (disk : ℕ → Block) (hist : History) (hgroup : hist.group = []) :
    Reserved { disk := disk, hist := hist } ∅ :=
  of_empty (Counted.of_empty (fun _ => rfl) rfl fun _ => Or.inl rfl) (fun _ => hgroup)
    (by simp [Phase.recovering])

/-- Every step within the operations' limits keeps the books. -/
theorem step (h : Reserved s A) {a : LogAct} (hok : s.WithinOp a) (hs : s.step g a = some s') :
    ∃ A', Reserved s' A' := by
  cases a with
  | crash =>
    cases hs
    exact ⟨∅, boot _ _ rfl⟩
  | beginOp p =>
    dsimp only [LogSys.step] at hs
    split_ifs at hs with hrun
    exact ⟨insert p A, h.beginOp hrun.2 hs⟩
  | write p b data =>
    dsimp only [LogSys.step] at hs
    split_ifs at hs with hrun
    obtain ⟨bs, hp, rfl⟩ := Option.map_eq_some_iff.mp hs
    refine ⟨A, ?_⟩
    cases hl : s.log.logWrite g b with
    | error e => exact h.congr rfl rfl rfl id rfl
    | ok l =>
      refine h.write hp hl (fun hb => ?_) rfl rfl rfl rfl
      simpa [WithinOp, hp, hb] using hok
  | endOp p =>
    dsimp only [LogSys.step] at hs
    split_ifs at hs with hrun
    exact ⟨A.erase p, h.endOp hs⟩
  | fetch b =>
    dsimp only [LogSys.step] at hs
    split_ifs at hs with hrun
    cases hs
    exact ⟨A, h.congr rfl rfl rfl id rfl⟩
  | evict b =>
    dsimp only [LogSys.step] at hs
    split_ifs at hs with hrun
    cases hs
    exact ⟨A, h.congr rfl rfl rfl id rfl⟩
  | advance =>
    dsimp only [LogSys.step] at hs
    split_ifs at hs with hrun
    exact ⟨A, h.advance hs⟩

end Reserved

/-- In every run of operations that keep to their limits. -/
theorem reserved_of_reach {ok : LogSys → LogAct → Prop} (hok : ∀ s a, ok s a → s.WithinOp a)
    {disk : ℕ → Block} (h : ReachOf (LogSys.step g) ok (boot disk) s) : ∃ A, Reserved s A :=
  ReachOf.invariant (fun s => ∃ A, Reserved s A)
    (fun s a _ ha hs hstep => hs.elim fun _ hA => hA.step (hok s a ha) hstep)
    ⟨∅, Reserved.boot disk {} rfl⟩ h

/-- There is room in the log on disk for one more block. -/
def RoomLeft (s : LogSys) : LogAct → Prop
  | .write _ _ _ => s.transactionBlocks < mkfsLog.size - 1
  | _ => True

instance : DecidablePred s.RoomLeft
  | .write _ _ _ => inferInstanceAs (Decidable (_ < _))
  | .beginOp _ | .endOp _ | .fetch _ | .evict _ | .advance | .crash => isTrue trivial

/-- With operations under way, `log_write` can only fail for lack of room. -/
theorem write_panic_iff (h : Reserved s A) (hpanic : s.panic = none) {b : ℕ} {data : Block}
    (hs : s.write mkfsLog p b data = some s') :
    s'.panic = none ↔ s.transactionBlocks < mkfsLog.size - 1 := by
  obtain ⟨bs, hp, rfl⟩ := Option.map_eq_some_iff.mp hs
  have hlen := h.length_eq (h.not_recovering hp)
  have hout := h.outstanding_pos hp
  by_cases hroom : s.transactionBlocks < mkfsLog.size - 1
  · have hok : s.log.logWrite mkfsLog b =
        .ok { s.log with lh := if b ∈ s.log.lh then s.log.lh else s.log.lh ++ [b] } := by
      unfold Log.logWrite
      rw [if_neg (by unfold mkfsLog logSize maxOpBlocks at *; dsimp only at *; omega),
        if_neg (by omega)]
    simp only [hok, hroom, iff_true]
    exact hpanic
  · have herror : s.log.logWrite mkfsLog b = .error .tooBig := by
      unfold Log.logWrite
      rw [if_pos (by unfold mkfsLog logSize maxOpBlocks at *; dsimp only at *; omega)]
    simp [herror, hroom]

theorem endOp_panic (h : Reserved s A) (hpanic : s.panic = none) (hs : s.endOp p = some s') :
    s'.panic = none := by
  obtain ⟨-, -, -, -, -, -, -, -, hsame, -⟩ := endOp_cases h.toCounted hs
  rw [hsame, hpanic]

theorem advance_panic (hs : s.advance g = some s') : s'.panic = s.panic := by
  unfold LogSys.advance at hs
  cases hphase : s.phase with
  | run => simp [hphase] at hs
  | writeLog tail =>
    simp only [hphase, Option.some.injEq] at hs
    subst hs
    unfold writeLogRound
    split <;> rfl
  | installTrans tail =>
    simp only [hphase, Option.some.injEq] at hs
    subst hs
    unfold installRound
    split <;> rfl
  | reinstall tail =>
    simp only [hphase, Option.some.injEq] at hs
    subst hs
    unfold reinstallRound
    split <;> rfl
  | writeHead => simp only [hphase, Option.some.injEq] at hs; subst hs; rfl
  | clearHead => simp only [hphase, Option.some.injEq] at hs; subst hs; rfl
  | finish => simp only [hphase, Option.some.injEq] at hs; subst hs; rfl
  | readHead => simp only [hphase, Option.some.injEq] at hs; subst hs; rfl
  | reclear => simp only [hphase, Option.some.injEq] at hs; subst hs; rfl

/-- A step panics exactly if it is a `log_write` that finds no room. -/
theorem step_panic_iff (h : Reserved s A) (hpanic : s.panic = none) {a : LogAct}
    (hs : s.step mkfsLog a = some s') : s'.panic = none ↔ s.RoomLeft a := by
  cases a with
  | crash =>
    cases hs
    simp [RoomLeft, LogSys.crash]
  | beginOp p =>
    dsimp only [LogSys.step] at hs
    split_ifs at hs with hrun
    unfold LogSys.beginOp at hs
    split_ifs at hs
    obtain ⟨l, -, rfl⟩ := Option.map_eq_some_iff.mp hs
    simpa [RoomLeft] using hpanic
  | write p b data =>
    dsimp only [LogSys.step] at hs
    split_ifs at hs with hrun
    exact write_panic_iff h hpanic hs
  | endOp p =>
    dsimp only [LogSys.step] at hs
    split_ifs at hs
    simpa [RoomLeft] using endOp_panic h hpanic hs
  | fetch b =>
    dsimp only [LogSys.step] at hs
    split_ifs at hs
    cases hs
    simpa [RoomLeft, modify] using hpanic
  | evict b =>
    dsimp only [LogSys.step] at hs
    split_ifs at hs
    cases hs
    simpa [RoomLeft] using hpanic
  | advance =>
    dsimp only [LogSys.step] at hs
    split_ifs at hs
    simpa [RoomLeft, advance_panic hs] using hpanic

/-- On the disk that `mkfs` lays out, for operations that keep to `MAXOPBLOCKS`: a run
whose transactions find room for every block they log never panics; in any run, a step
panics exactly if it is a `log_write` in a transaction that already has `LOGSIZE - 1`
different blocks; and no transaction ever has more than `LOGSIZE`. -/
theorem log_panics_iff (disk : ℕ → Block) (s : LogSys) :
    (ReachOf (LogSys.step mkfsLog) (fun s a => s.WithinOp a ∧ s.RoomLeft a) (boot disk) s →
      s.panic = none) ∧
    (ReachOf (LogSys.step mkfsLog) WithinOp (boot disk) s →
      (s.phase.recovering = false → s.transactionBlocks ≤ logSize) ∧
      ∀ a s', s.panic = none → s.step mkfsLog a = some s' →
        (s'.panic = none ↔ s.RoomLeft a)) := by
  refine ⟨fun h => ?_, fun h => ?_⟩
  · have hinv := ReachOf.invariant (fun s => s.panic = none ∧ ∃ A, Reserved s A)
      (fun s a s' hok hs hstep => ?_) ⟨rfl, ∅, Reserved.boot disk {} rfl⟩ h
    · exact hinv.1
    · obtain ⟨hpanic, A, hA⟩ := hs
      exact ⟨(step_panic_iff hA hpanic hstep).mpr hok.2, hA.step hok.1 hstep⟩
  · obtain ⟨A, hA⟩ := reserved_of_reach (fun _ _ hok => hok) h
    refine ⟨fun hrec => ?_, fun a s' hpanic hstep => step_panic_iff hA hpanic hstep⟩
    rw [← hA.length_eq hrec]
    exact hA.length_le hrec

/-- Three operations that log ten blocks each, after a recovery with nothing to do. -/
def threeFullOps : List LogAct :=
  [.advance, .advance, .advance, .beginOp 0, .beginOp 1, .beginOp 2] ++
  (List.range 30).map fun k => .write (k / 10) (100 + k) fun _ => 0

/-- All but the last of the thirty blocks fit. -/
theorem log_panics_iff_of_three_ops : ∃ s : LogSys, s.transactionBlocks = 29 ∧ s.panic = none := by
  have hcheck : (runAll
      (fun s a => if WithinOp s a ∧ RoomLeft s a then LogSys.step mkfsLog s a else none)
      (boot fun _ _ => 0) (threeFullOps.take 35)).any
        (fun s => s.transactionBlocks = 29) = true := by
    decide +kernel
  obtain ⟨s, hs, hblocks⟩ := (Option.any_eq_true _ _).mp hcheck
  exact ⟨s, of_decide_eq_true hblocks,
    (log_panics_iff (fun _ _ => 0) s).1 (reachOf_of_runAll hs)⟩

/-- The last of the thirty blocks panics although every operation keeps to its limit. -/
theorem log_panics_with_three_ops : ¬ ∀ s, ReachOf (LogSys.step mkfsLog) WithinOp
    (boot fun _ _ => 0) s → s.panic = none := by
  intro hclaim
  have hcheck : (runAll (fun s a => if WithinOp s a then LogSys.step mkfsLog s a else none)
      (boot fun _ _ => 0) threeFullOps).any (fun s => s.panic = some .tooBig) = true := by
    decide +kernel
  obtain ⟨s, hs, hpanic⟩ := (Option.any_eq_true _ _).mp hcheck
  have hnone := hclaim s (reachOf_of_runAll hs)
  rw [of_decide_eq_true hpanic] at hnone
  cases hnone

end LogSys

end XV6AndConcurrency.FileSystem
