import XV6AndConcurrency.FileSystem.Log

/-!
# Crashes and recovery

At every disk write the disk holds enough to recover the contents after all groups whose
header was written: either the header is empty and every home block is in place, or
the log has what the home blocks it names lack.
-/

namespace XV6AndConcurrency.FileSystem

open Foundations

/-- The blocks outside of the log. -/
def Home (g : Geometry) (b : ℕ) : Prop := b < g.start ∨ g.start + g.size ≤ b

instance (g : Geometry) : DecidablePred (Home g) := fun _ => inferInstanceAs (Decidable (_ ∨ _))

/-- The file system logs home blocks only. -/
def HomeWrites (g : Geometry) (_ : LogSys) : LogAct → Prop
  | .write _ b _ => Home g b
  | _ => True

instance (g : Geometry) (s : LogSys) : DecidablePred (HomeWrites g s)
  | .write _ b _ => inferInstanceAs (Decidable (Home g b))
  | .beginOp _ | .endOp _ | .fetch _ | .evict _ | .advance | .crash => isTrue trivial

/-- `install_trans` on a disk, from the log block `tail` on. -/
def install (g : Geometry) (d : ℕ → Block) (tail : ℕ) : List ℕ → ℕ → Block
  | [] => d
  | b :: bs => install g (Function.update d b (d (g.start + tail + 1))) (tail + 1) bs

/-- `recover_from_log` as a function of the disk. -/
def recover (g : Geometry) (d : ℕ → Block) : ℕ → Block :=
  let d := install g d 0 (readHead (d g.start))
  Function.update d g.start (writeHead [] (d g.start))

/-- The contents that the disk `d` stands for are `H`. -/
structure Recoverable (g : Geometry) (H d : ℕ → Block) : Prop where
  home : ∀ b ∈ readHead (d g.start), Home g b
  fits : (readHead (d g.start)).length < g.size
  logged : ∀ k b, (readHead (d g.start))[k]? = some b → d (g.start + k + 1) = H b
  rest : ∀ b, Home g b → b ∉ readHead (d g.start) → d b = H b

variable {g : Geometry} {H d : ℕ → Block}

theorem Home.ne_log {b k : ℕ} (h : Home g b) (hk : k < g.size) : b ≠ g.start + k := by
  unfold Home at h
  omega

theorem install_of_not_mem {bs : List ℕ} {tail b : ℕ} (h : b ∉ bs) :
    install g d tail bs b = d b := by
  induction bs generalizing d tail with
  | nil => rfl
  | cons c bs ih =>
    rw [List.mem_cons, not_or] at h
    rw [install, ih h.2, Function.update_of_ne h.1]

theorem install_of_mem {bs : List ℕ} {tail b : ℕ} (hhome : ∀ c ∈ bs, Home g c)
    (hfits : tail + bs.length < g.size)
    (hlogged : ∀ k c, bs[k]? = some c → d (g.start + (tail + k) + 1) = H c) (h : b ∈ bs) :
    install g d tail bs b = H b := by
  induction bs generalizing d tail with
  | nil => simp at h
  | cons c bs ih =>
    have hlen : tail + 1 + bs.length < g.size := by
      rw [List.length_cons] at hfits
      omega
    have hc : d (g.start + tail + 1) = H c := by simpa using hlogged 0 c rfl
    rw [install]
    by_cases hb : b ∈ bs
    · refine ih (fun e he => hhome e (List.mem_cons_of_mem c he)) hlen (fun k e he => ?_) hb
      have hk : k < bs.length := by
        by_contra hk
        rw [List.getElem?_eq_none (by omega)] at he
        cases he
      have hne : g.start + (tail + 1 + k) + 1 ≠ c := by
        have := (hhome c List.mem_cons_self).ne_log (k := tail + 1 + k + 1) (by omega)
        omega
      rw [Function.update_of_ne hne, show g.start + (tail + 1 + k) + 1 =
        g.start + (tail + (k + 1)) + 1 by omega]
      exact hlogged (k + 1) e (by simpa using he)
    · obtain rfl : b = c := by simpa [hb] using h
      rw [install_of_not_mem hb, Function.update_self, hc]

namespace Recoverable

theorem head_not_home (h : Recoverable g H d) : ¬ Home g g.start := by
  have := h.fits
  unfold Home
  omega

/-- With an empty header the home blocks are what counts. -/
theorem of_empty (hhead : readHead (d g.start) = []) (hsize : 0 < g.size)
    (hplace : ∀ b, Home g b → d b = H b) : Recoverable g H d where
  home := by simp [hhead]
  fits := by simpa [hhead] using hsize
  logged := by simp [hhead]
  rest b hb _ := hplace b hb

theorem size_pos (h : Recoverable g H d) : 0 < g.size := Nat.zero_lt_of_lt h.fits

theorem install_home (h : Recoverable g H d) {b : ℕ} (hb : Home g b) :
    install g d 0 (readHead (d g.start)) b = H b := by
  by_cases hmem : b ∈ readHead (d g.start)
  · refine install_of_mem h.home (by simpa using h.fits) (fun k c hk => ?_) hmem
    simpa using h.logged k c hk
  · rw [install_of_not_mem hmem, h.rest b hb hmem]

/-- Recovery puts every home block in place. -/
theorem recover_home (h : Recoverable g H d) {b : ℕ} (hb : Home g b) : recover g d b = H b := by
  have hne : b ≠ g.start := fun hbs => h.head_not_home (hbs ▸ hb)
  unfold recover
  rw [Function.update_of_ne hne, h.install_home hb]

theorem readHead_cleared (hb : Block) : readHead (writeHead [] hb) = [] :=
  readHead_writeHead hb (by simp) (by simp)

/-- Clearing the header twice is clearing it once. -/
theorem writeHead_cleared (hb : Block) : writeHead [] (writeHead [] hb) = writeHead [] hb := by
  funext o
  simp only [writeHead, Block.setWords, Block.setWord]
  split_ifs <;> rfl

theorem recover_of_empty {d : ℕ → Block} (h : readHead (d g.start) = []) :
    recover g d = Function.update d g.start (writeHead [] (d g.start)) := by
  unfold recover
  rw [h]
  rfl

theorem recover_recover (d : ℕ → Block) : recover g (recover g d) = recover g d := by
  have hhead : recover g d g.start =
      writeHead [] (install g d 0 (readHead (d g.start)) g.start) := Function.update_self _ _ _
  have hempty : readHead (recover g d g.start) = [] := by rw [hhead, readHead_cleared]
  rw [recover_of_empty hempty, hhead, writeHead_cleared, ← hhead, Function.update_eq_self]

end Recoverable

namespace LogSys

/-! ## The invariant of a run -/

section

variable (g : Geometry) (H : ℕ → Block) (s : LogSys)

/-- A transaction is being collected: the log on disk is empty, and the buffers of the
blocks in `lh` hold what the transaction wrote. -/
structure Collects : Prop where
  header : readHead (s.disk g.start) = []
  home : ∀ b ∈ s.log.lh, Home g b ∧ b < 4294967296
  small : s.log.lh.length < g.size ∧ s.log.lh.length ≤ logSize
  pins : ∀ b, s.pinned b = true → b ∈ s.log.lh
  data : ∀ b ∈ s.log.lh, s.bread b = overlay H s.hist.group b
  keys : ∀ b ∈ s.hist.group.map Prod.fst, b ∈ s.log.lh

/-- The first `n` blocks of the transaction are in the log. -/
def LoggedTo (n : ℕ) : Prop := ∀ k b, k < n → s.log.lh[k]? = some b →
  s.disk (g.start + k + 1) = overlay H s.hist.group b

/-- The first `n` blocks of the log are at home. -/
def InstalledTo (n : ℕ) : Prop := ∀ k b, k < n → s.log.lh[k]? = some b → s.disk b = H b

def Unpinned : Prop := ∀ b, s.pinned b = false

def InPlace : Prop := ∀ b, Home g b → s.disk b = H b

/-- What holds at each point of a commit and of a recovery. -/
def Stage : Phase → Prop
  | .run | .finish => s.Collects g H
  | .writeLog tail => s.Collects g H ∧ s.LoggedTo g H tail ∧
      (s.hist.committed ++ [s.hist.group]).Sublist s.hist.issued
  | .writeHead => s.Collects g H ∧ s.LoggedTo g H s.log.lh.length ∧
      (s.hist.committed ++ [s.hist.group]).Sublist s.hist.issued
  | .installTrans tail => readHead (s.disk g.start) = s.log.lh ∧ s.InstalledTo H tail ∧
      (∀ b, s.pinned b = true → ∃ k, tail ≤ k ∧ s.log.lh[k]? = some b) ∧
      (s.hist.returned ++ [s.hist.group]).Sublist s.hist.committed
  | .clearHead => s.Unpinned ∧ s.InPlace g H ∧
      (s.hist.returned ++ [s.hist.group]).Sublist s.hist.committed
  | .readHead => s.Unpinned ∧ s.hist.group = []
  | .reinstall tail => s.Unpinned ∧ s.hist.group = [] ∧
      readHead (s.disk g.start) = s.log.lh ∧ s.InstalledTo H tail
  | .reclear => s.Unpinned ∧ s.hist.group = [] ∧ s.InPlace g H

end

/-- The contents after all groups that were committed on the disk `d`. -/
def contents (d : ℕ → Block) (s : LogSys) : ℕ → Block := overlay d s.hist.committed.flatten

structure Durable (g : Geometry) (d : ℕ → Block) (s : LogSys) : Prop where
  disk : Recoverable g (contents d s) s.disk
  coherent : ∀ b, s.pinned b = false → s.bread b = s.disk b
  returned : s.hist.returned.Sublist s.hist.committed
  committed : s.hist.committed.Sublist s.hist.issued
  stage : s.Stage g (contents d s) s.phase
  counted : ∃ A, Counted s A

variable {s s' : LogSys} {A : Finset ℕ} {p b : ℕ}

/-! ## Reading buffers -/

theorem bread_modify (data : Block) (c : ℕ) :
    (s.modify b data).bread c = if c = b then data else s.bread c := by
  unfold bread modify
  dsimp only
  by_cases hc : c = b
  · subst hc
    simp
  · simp [hc]

theorem bread_bwrite (data : Block) (c : ℕ) :
    (s.bwrite b data).bread c = if c = b then data else s.bread c := by
  unfold bread bwrite modify
  dsimp only
  by_cases hc : c = b
  · subst hc
    simp
  · simp [hc]

theorem disk_bwrite (data : Block) (c : ℕ) :
    (s.bwrite b data).disk c = if c = b then data else s.disk c := by
  unfold bwrite
  exact Function.update_apply s.disk b data c

/-- A buffer that is written to disk is the same as its block. -/
theorem coherent_bwrite (h : ∀ c, s.pinned c = false → s.bread c = s.disk c) (data : Block) {c : ℕ}
    (hc : c = b ∨ s.pinned c = false) : (s.bwrite b data).bread c = (s.bwrite b data).disk c := by
  rw [bread_bwrite, disk_bwrite]
  split_ifs with hcb
  · rfl
  · exact h c (hc.resolve_left hcb)

theorem Collects.congr (h : Collects g H s) (hdisk : s'.disk = s.disk)
    (hbread : ∀ c, s'.bread c = s.bread c) (hpinned : s'.pinned = s.pinned)
    (hlh : s'.log.lh = s.log.lh) (hgroup : s'.hist.group = s.hist.group) : Collects g H s' where
  header := by rw [hdisk]; exact h.header
  home := by rw [hlh]; exact h.home
  small := by rw [hlh]; exact h.small
  pins := by rw [hpinned, hlh]; exact h.pins
  data := by simpa only [hbread, hlh, hgroup] using h.data
  keys := by rw [hlh, hgroup]; exact h.keys

/-- A step that changes nothing that counts. -/
theorem Durable.congr {d : ℕ → Block} (h : Durable g d s) (hdisk : s'.disk = s.disk)
    (hbread : ∀ c, s'.bread c = s.bread c) (hpinned : s'.pinned = s.pinned)
    (hlh : s'.log.lh = s.log.lh) (hphase : s'.phase = s.phase) (hhist : s'.hist = s.hist)
    (hcounted : Counted s' A) : Durable g d s' := by
  have hcontents : contents d s' = contents d s := by
    unfold contents
    rw [hhist]
  have hcollects (hs : Collects g (contents d s) s) : Collects g (contents d s) s' :=
    hs.congr hdisk hbread hpinned hlh (by rw [hhist])
  have hlogged {n : ℕ} (hs : LoggedTo g (contents d s) s n) : LoggedTo g (contents d s) s' n := by
    unfold LoggedTo
    rw [hdisk, hlh, hhist]
    exact hs
  refine ⟨by rw [hcontents, hdisk]; exact h.disk, fun c hc => ?_, by rw [hhist]; exact h.returned,
    by rw [hhist]; exact h.committed, ?_, A, hcounted⟩
  · rw [hpinned] at hc
    rw [hbread, hdisk, h.coherent c hc]
  · have hstage := h.stage
    rw [hcontents, hphase]
    cases hp : s.phase with
    | run => rw [hp] at hstage; exact hcollects hstage
    | finish => rw [hp] at hstage; exact hcollects hstage
    | writeLog tail =>
      rw [hp] at hstage
      exact ⟨hcollects hstage.1, hlogged hstage.2.1, by rw [hhist]; exact hstage.2.2⟩
    | writeHead =>
      rw [hp] at hstage
      exact ⟨hcollects hstage.1, by rw [hlh]; exact hlogged hstage.2.1,
        by rw [hhist]; exact hstage.2.2⟩
    | installTrans tail =>
      rw [hp] at hstage
      simpa only [Stage, InstalledTo, hdisk, hlh, hpinned, hhist] using hstage
    | clearHead =>
      rw [hp] at hstage
      simpa only [Stage, Unpinned, InPlace, hdisk, hpinned, hhist] using hstage
    | readHead =>
      rw [hp] at hstage
      simpa only [Stage, Unpinned, hpinned, hhist] using hstage
    | reinstall tail =>
      rw [hp] at hstage
      simpa only [Stage, Unpinned, InstalledTo, hdisk, hlh, hpinned, hhist] using hstage
    | reclear =>
      rw [hp] at hstage
      simpa only [Stage, Unpinned, InPlace, hdisk, hpinned, hhist] using hstage

/-! ## Collecting a transaction -/

theorem Collects.inPlace (h : Collects g H s) (hd : Recoverable g H s.disk) : InPlace g H s := by
  intro b hb
  exact hd.rest b hb (by simp [h.header])

/-- `log_write` adds a block to the transaction. -/
theorem Collects.write (h : Collects g H s) {data : Block} {l : Log} (hb : Home g b)
    (hlt : b < 4294967296) (hl : s.log.logWrite g b = .ok l) (hdisk : s'.disk = s.disk)
    (hbread : ∀ c, s'.bread c = if c = b then data else s.bread c)
    (hpinned : s'.pinned = Function.update s.pinned b true) (hlog : s'.log = l)
    (hgroup : s'.hist.group = s.hist.group ++ [(b, data)]) : Collects g H s' := by
  obtain ⟨hsize, hfits, rfl⟩ := Log.logWrite_ok hl
  have hlh : s'.log.lh = if b ∈ s.log.lh then s.log.lh else s.log.lh ++ [b] := by rw [hlog]
  have hmem (c : ℕ) : c ∈ s'.log.lh ↔ c ∈ s.log.lh ∨ c = b := by
    rw [hlh]
    split_ifs with hin
    · exact ⟨Or.inl, fun hc => hc.elim id fun hcb => hcb ▸ hin⟩
    · rw [List.mem_append, List.mem_singleton]
  refine ⟨by rw [hdisk]; exact h.header, fun c hc => ?_, ?_, fun c hc => ?_, fun c hc => ?_,
    fun c hc => ?_⟩
  · obtain hold | rfl := (hmem c).mp hc
    · exact h.home c hold
    · exact ⟨hb, hlt⟩
  · rw [hlh]
    split_ifs
    · exact h.small
    · rw [List.length_append, List.length_singleton]
      omega
  · rw [hmem]
    rw [hpinned] at hc
    by_cases hcb : c = b
    · exact Or.inr hcb
    · rw [Function.update_of_ne hcb] at hc
      exact Or.inl (h.pins c hc)
  · rw [hbread, hgroup, overlay_snoc]
    split_ifs with hcb
    · rw [hcb, Function.update_self]
    · rw [Function.update_of_ne hcb]
      exact h.data c (((hmem c).mp hc).resolve_right hcb)
  · rw [hgroup, List.map_append, List.mem_append] at hc
    rw [hmem]
    obtain hold | hnew := hc
    · exact Or.inl (h.keys c hold)
    · exact Or.inr (by simpa using hnew)

theorem Durable.write {d : ℕ → Block} (h : Durable g d s) {data : Block} (hb : Home g b)
    (hlt : b < 4294967296) (hs : s.write g p b data = some s') : Durable g d s' := by
  obtain ⟨bs, hp, rfl⟩ := Option.map_eq_some_iff.mp hs
  obtain ⟨A, hA⟩ := h.counted
  cases hl : s.log.logWrite g b with
  | error e =>
    exact h.congr rfl (fun _ => rfl) rfl rfl rfl rfl
      (hA.congr (fun _ => Iff.rfl) rfl rfl rfl id)
  | ok l =>
    have hrun := hA.phase_eq_run hp
    have hstage := h.stage
    rw [hrun] at hstage
    refine ⟨h.disk, fun c hc => ?_, h.returned, h.committed, ?_, A, ?_⟩
    · dsimp only at hc
      by_cases hcb : c = b
      · rw [hcb, Function.update_self] at hc
        cases hc
      · rw [Function.update_of_ne hcb] at hc
        have hbread := bread_modify (s := s) (b := b) data c
        rw [if_neg hcb] at hbread
        exact hbread.trans (h.coherent c hc)
    · change Stage _ _ _ s.phase
      rw [hrun]
      exact Collects.write hstage hb hlt hl rfl (bread_modify data) rfl rfl rfl
    · obtain ⟨-, -, rfl⟩ := Log.logWrite_ok hl
      refine hA.congr (fun q => ?_) rfl rfl rfl id
      dsimp only
      by_cases hq : q = p
      · subst hq
        simp [hp]
      · rw [Function.update_of_ne hq]

theorem Durable.endOp {d : ℕ → Block} (h : Durable g d s) (hs : s.endOp p = some s') :
    Durable g d s' := by
  obtain ⟨A, hA⟩ := h.counted
  have hcounted := hA.endOp_step hs
  obtain ⟨bs, hp, -, -, hlh, hdisk, hcache, hpinned, -, hcase⟩ := endOp_cases hA hs
  have hrun := hA.phase_eq_run hp
  have hstage := h.stage
  rw [hrun] at hstage
  have hbread (c : ℕ) : s'.bread c = s.bread c := by
    unfold bread
    rw [hcache, hdisk]
  have hcommitted : s'.hist.committed = s.hist.committed ∧ s'.hist.group = s.hist.group ∧
      s'.hist.returned = s.hist.returned ∧ s.hist.issued.Sublist s'.hist.issued := by
    obtain ⟨-, -, -, -, hhist⟩ | ⟨-, -, -, hhist⟩ | ⟨-, -, hhist⟩ := hcase
    · rw [hhist]
      exact ⟨rfl, rfl, rfl, List.sublist_append_left _ _⟩
    · rw [hhist]
      exact ⟨rfl, rfl, rfl, List.Sublist.refl _⟩
    · rw [hhist]
      exact ⟨rfl, rfl, rfl, List.Sublist.refl _⟩
  obtain ⟨hsame, hgroup, hret, hissued⟩ := hcommitted
  have hcontents : contents d s' = contents d s := by
    unfold contents
    rw [hsame]
  have hcollects : Collects g (contents d s) s' :=
    Collects.congr hstage hdisk hbread hpinned hlh hgroup
  refine ⟨by rw [hcontents, hdisk]; exact h.disk, fun c hc => ?_,
    by rw [hret, hsame]; exact h.returned, by rw [hsame]; exact h.committed.trans hissued, ?_,
    A.erase p, hcounted⟩
  · rw [hpinned] at hc
    rw [hbread, hdisk, h.coherent c hc]
  · rw [hcontents]
    obtain ⟨-, -, -, hphase, hhist⟩ | ⟨-, -, hphase, -⟩ | ⟨-, hphase, -⟩ := hcase
    · rw [hphase]
      refine ⟨hcollects, fun k b hk => absurd hk (Nat.not_lt_zero k), ?_⟩
      rw [hhist]
      exact h.committed.append (List.Sublist.refl _)
    · rw [hphase]
      exact hcollects
    · rw [hphase, hrun]
      exact hcollects

/-! ## Committing -/

/-- The log blocks that the transaction uses are no home blocks. -/
theorem Collects.log_ne (h : Collects g H s) {k c : ℕ} (hk : k < s.log.lh.length)
    (hc : Home g c) : c ≠ g.start + k + 1 := by
  have hne := hc.ne_log (k := k + 1) (by have := h.small.1; omega)
  omega

theorem writeLogRound_durable {d : ℕ → Block} {tail : ℕ} (h : Durable g d s)
    (hphase : s.phase = .writeLog tail) (hcounted : Counted (s.writeLogRound g tail) A) :
    Durable g d (s.writeLogRound g tail) := by
  have hstage := h.stage
  rw [hphase] at hstage
  obtain ⟨hcollects, hlogged, hissued⟩ := hstage
  have hplace := hcollects.inPlace h.disk
  revert hcounted
  unfold writeLogRound
  cases hb : s.log.lh[tail]? with
  | none =>
    intro hcounted
    refine ⟨h.disk, h.coherent, h.returned, h.committed,
      ⟨hcollects.congr rfl (fun _ => rfl) rfl rfl rfl, fun k b _ hkb => ?_, hissued⟩, A, hcounted⟩
    change s.log.lh[k]? = some b at hkb
    refine hlogged k b ?_ hkb
    have hk := (List.getElem?_eq_some_iff.mp hkb).1
    have htail := List.getElem?_eq_none_iff.mp hb
    omega
  | some b =>
    intro hcounted
    have hlt : tail < s.log.lh.length := (List.getElem?_eq_some_iff.mp hb).1
    have hmem : b ∈ s.log.lh := List.mem_of_getElem? hb
    have hhead : (s.bwrite (g.start + tail + 1) (s.bread b)).disk g.start = s.disk g.start := by
      rw [disk_bwrite, if_neg (by omega)]
    have hhome {c : ℕ} (hc : Home g c) :
        (s.bwrite (g.start + tail + 1) (s.bread b)).disk c = s.disk c := by
      rw [disk_bwrite, if_neg (hcollects.log_ne hlt hc)]
    refine ⟨Recoverable.of_empty ?_ h.disk.size_pos fun c hc => ?_, fun c hc => ?_, h.returned,
      h.committed, ⟨⟨?_, hcollects.home, hcollects.small, hcollects.pins, fun c hc => ?_,
        hcollects.keys⟩, fun k c hk hkc => ?_, hissued⟩, A, hcounted⟩
    · exact (congrArg readHead hhead).trans hcollects.header
    · exact (hhome hc).trans (hplace c hc)
    · exact coherent_bwrite h.coherent _ (Or.inr hc)
    · exact (congrArg readHead hhead).trans hcollects.header
    · have hread := bread_bwrite (s := s) (b := g.start + tail + 1) (s.bread b) c
      rw [if_neg (hcollects.log_ne hlt (hcollects.home c hc).1)] at hread
      exact hread.trans (hcollects.data c hc)
    · change (s.bwrite (g.start + tail + 1) (s.bread b)).disk _ = _
      rw [disk_bwrite]
      change s.log.lh[k]? = some c at hkc
      by_cases hkt : k = tail
      · subst hkt
        rw [hb] at hkc
        cases hkc
        rw [if_pos rfl, hcollects.data b hmem]
        rfl
      · rw [if_neg (by omega)]
        exact hlogged k c (by omega) hkc

theorem contents_commitHead (d : ℕ → Block) :
    contents d (s.commitHead g) = overlay (contents d s) s.hist.group := by
  unfold contents commitHead
  dsimp only
  rw [List.flatten_append, overlay_append]
  simp

/-- The write that commits. -/
theorem commitHead_durable {d : ℕ → Block} (h : Durable g d s) (hphase : s.phase = .writeHead)
    (hcounted : Counted (s.commitHead g) A) : Durable g d (s.commitHead g) := by
  have hstage := h.stage
  rw [hphase] at hstage
  obtain ⟨hcollects, hlogged, hissued⟩ := hstage
  have hdisk (c : ℕ) : (s.commitHead g).disk c =
      if c = g.start then writeHead s.log.lh (s.bread g.start) else s.disk c := disk_bwrite _ c
  have hhead : readHead ((s.commitHead g).disk g.start) = s.log.lh := by
    rw [hdisk, if_pos rfl]
    refine readHead_writeHead _ ?_ fun b hb => (hcollects.home b hb).2
    have hsmall := hcollects.small.2
    unfold logSize maxOpBlocks at hsmall
    omega
  refine ⟨?_, fun c hc => ?_, h.returned.trans (List.sublist_append_left _ _), hissued,
    ⟨hhead, fun k b hk => absurd hk (Nat.not_lt_zero k), fun b hb => ?_, ?_⟩, A, hcounted⟩
  · rw [contents_commitHead]
    refine ⟨?_, ?_, fun k b hkb => ?_, fun b hb hnot => ?_⟩
    · rw [hhead]
      exact fun b hb => (hcollects.home b hb).1
    · rw [hhead]
      exact hcollects.small.1
    · rw [hhead] at hkb
      rw [hdisk, if_neg (by omega)]
      exact hlogged k b (List.getElem?_eq_some_iff.mp hkb).1 hkb
    · rw [hhead] at hnot
      have hne : b ≠ g.start := fun hbs => h.disk.head_not_home (hbs ▸ hb)
      rw [hdisk, if_neg hne, hcollects.inPlace h.disk b hb,
        overlay_of_not_mem fun hkey => hnot (hcollects.keys b hkey)]
  · exact coherent_bwrite h.coherent _ (Or.inr hc)
  · obtain ⟨k, hk, hkb⟩ := List.mem_iff_getElem.mp (hcollects.pins b hb)
    exact ⟨k, Nat.zero_le k, List.getElem?_eq_some_iff.mpr ⟨hk, hkb⟩⟩
  · exact h.returned.append (List.Sublist.refl _)

/-! ## Installing -/

/-- Copying one block of the log to its home. -/
theorem copyHome_disk (hd : Recoverable g H s.disk) (hhead : readHead (s.disk g.start) = s.log.lh)
    (hread : ∀ k, k < g.size → s.bread (g.start + k) = s.disk (g.start + k)) {tail b : ℕ}
    (hb : s.log.lh[tail]? = some b) (c : ℕ) :
    (s.copyHome g tail b).disk c = if c = b then H b else s.disk c := by
  have hlt : tail < s.log.lh.length := (List.getElem?_eq_some_iff.mp hb).1
  have hfits := hd.fits
  rw [hhead] at hfits
  have hlog := hd.logged tail b (by rw [hhead]; exact hb)
  have hdata : s.bread (g.start + tail + 1) = H b := by
    rw [show g.start + tail + 1 = g.start + (tail + 1) by omega, hread (tail + 1) (by omega),
      ← hlog]
    rfl
  unfold copyHome
  rw [disk_bwrite, hdata]

theorem copyHome_recoverable (hd : Recoverable g H s.disk)
    (hhead : readHead (s.disk g.start) = s.log.lh)
    (hread : ∀ k, k < g.size → s.bread (g.start + k) = s.disk (g.start + k)) {tail b : ℕ}
    (hb : s.log.lh[tail]? = some b) : Recoverable g H (s.copyHome g tail b).disk ∧
      readHead ((s.copyHome g tail b).disk g.start) = s.log.lh := by
  have hdisk := copyHome_disk hd hhead hread hb
  have hhome : Home g b := hd.home b (by rw [hhead]; exact List.mem_of_getElem? hb)
  have hfits := hd.fits
  have hstart : (s.copyHome g tail b).disk g.start = s.disk g.start := by
    have hne : g.start ≠ b := by
      rintro rfl
      exact hd.head_not_home hhome
    rw [hdisk, if_neg hne]
  refine ⟨⟨?_, ?_, fun k c hkc => ?_, fun c hc hnot => ?_⟩, by rw [hstart, hhead]⟩
  · rw [hstart]
    exact hd.home
  · rw [hstart]
    exact hfits
  · rw [hstart] at hkc
    have hk := (List.getElem?_eq_some_iff.mp hkc).1
    have hne := hhome.ne_log (k := k + 1) (by omega)
    rw [hdisk, if_neg (by omega)]
    exact hd.logged k c hkc
  · rw [hstart] at hnot
    rw [hdisk]
    split_ifs with hcb
    · rw [hcb]
    · exact hd.rest c hc hnot

theorem copyHome_installed (hd : Recoverable g H s.disk)
    (hhead : readHead (s.disk g.start) = s.log.lh)
    (hread : ∀ k, k < g.size → s.bread (g.start + k) = s.disk (g.start + k)) {tail b : ℕ}
    (hb : s.log.lh[tail]? = some b) (hinst : s.InstalledTo H tail) (k c : ℕ) (hk : k < tail + 1)
    (hkc : s.log.lh[k]? = some c) : (s.copyHome g tail b).disk c = H c := by
  rw [copyHome_disk hd hhead hread hb]
  split_ifs with hcb
  · rw [hcb]
  · refine hinst k c ?_ hkc
    have hne : k ≠ tail := by
      rintro rfl
      rw [hb] at hkc
      exact hcb (Option.some.inj hkc).symm
    omega

/-- When every block of the log is installed, all blocks are in place. -/
theorem inPlace_of_installed (hd : Recoverable g H s.disk)
    (hhead : readHead (s.disk g.start) = s.log.lh) {tail : ℕ} (htail : s.log.lh[tail]? = none)
    (hinst : s.InstalledTo H tail) : s.InPlace g H := by
  intro c hc
  by_cases hmem : c ∈ s.log.lh
  · obtain ⟨k, hk, hkc⟩ := List.mem_iff_getElem.mp hmem
    have hlen := List.getElem?_eq_none_iff.mp htail
    exact hinst k c (by omega) (List.getElem?_eq_some_iff.mpr ⟨hk, hkc⟩)
  · exact hd.rest c hc (by rw [hhead]; exact hmem)

theorem installRound_durable {d : ℕ → Block} {tail : ℕ} (h : Durable g d s)
    (hphase : s.phase = .installTrans tail) (hcounted : Counted (s.installRound g tail) A) :
    Durable g d (s.installRound g tail) := by
  have hstage := h.stage
  rw [hphase] at hstage
  obtain ⟨hhead, hinst, hpins, hret⟩ := hstage
  have hlh {b : ℕ} (hb : b ∈ s.log.lh) : Home g b := h.disk.home b (by rw [hhead]; exact hb)
  have hread (k : ℕ) (hk : k < g.size) : s.bread (g.start + k) = s.disk (g.start + k) := by
    refine h.coherent _ ?_
    by_contra hpin
    obtain ⟨j, -, hj⟩ := hpins _ (by simpa using hpin)
    exact (hlh (List.mem_of_getElem? hj)).ne_log hk rfl
  revert hcounted
  unfold installRound
  cases hb : s.log.lh[tail]? with
  | none =>
    intro hcounted
    refine ⟨h.disk, h.coherent, h.returned, h.committed, ⟨fun c => ?_, ?_, hret⟩, A, hcounted⟩
    · by_contra hpin
      obtain ⟨k, hk, hkc⟩ := hpins c (by simpa using hpin)
      have hlen := List.getElem?_eq_none_iff.mp hb
      have hlt := (List.getElem?_eq_some_iff.mp hkc).1
      omega
    · exact inPlace_of_installed h.disk hhead hb hinst
  | some b =>
    intro hcounted
    obtain ⟨hrec, hhead'⟩ := copyHome_recoverable h.disk hhead hread hb
    refine ⟨hrec, fun c hc => ?_, h.returned, h.committed, ⟨hhead', fun k c hk hkc => ?_,
      fun c hc => ?_, hret⟩, A, hcounted⟩
    · refine coherent_bwrite h.coherent _ ?_
      by_cases hcb : c = b
      · exact Or.inl hcb
      · right
        exact (Function.update_of_ne hcb _ _).symm.trans hc
    · exact copyHome_installed h.disk hhead hread hb hinst k c hk hkc
    · change Function.update s.pinned b false c = true at hc
      by_cases hcb : c = b
      · rw [hcb, Function.update_self] at hc
        cases hc
      · rw [Function.update_of_ne hcb] at hc
        obtain ⟨k, hk, hkc⟩ := hpins c hc
        have hne : k ≠ tail := by
          rintro rfl
          rw [hb] at hkc
          exact hcb (Option.some.inj hkc).symm
        exact ⟨k, by omega, hkc⟩

theorem reinstallRound_durable {d : ℕ → Block} {tail : ℕ} (h : Durable g d s)
    (hphase : s.phase = .reinstall tail) (hcounted : Counted (s.reinstallRound g tail) A) :
    Durable g d (s.reinstallRound g tail) := by
  have hstage := h.stage
  rw [hphase] at hstage
  obtain ⟨hunpinned, hgroup, hhead, hinst⟩ := hstage
  have hread (k : ℕ) (_ : k < g.size) : s.bread (g.start + k) = s.disk (g.start + k) :=
    h.coherent _ (hunpinned _)
  revert hcounted
  unfold reinstallRound
  cases hb : s.log.lh[tail]? with
  | none =>
    intro hcounted
    exact ⟨h.disk, h.coherent, h.returned, h.committed,
      ⟨hunpinned, hgroup, inPlace_of_installed h.disk hhead hb hinst⟩, A, hcounted⟩
  | some b =>
    intro hcounted
    obtain ⟨hrec, hhead'⟩ := copyHome_recoverable h.disk hhead hread hb
    exact ⟨hrec, fun c _ => coherent_bwrite h.coherent _ (Or.inr (hunpinned c)), h.returned,
      h.committed, ⟨hunpinned, hgroup, hhead',
        copyHome_installed h.disk hhead hread hb hinst⟩, A, hcounted⟩

/-! ## Clearing the header -/

theorem clearHead_disk (c : ℕ) : (s.clearHead g).disk c =
    if c = g.start then writeHead [] (s.bread g.start) else s.disk c := disk_bwrite _ c

theorem clearHead_recoverable (hd : Recoverable g H s.disk) (hplace : s.InPlace g H) :
    Recoverable g H (s.clearHead g).disk := by
  refine Recoverable.of_empty ?_ hd.size_pos fun c hc => ?_
  · rw [clearHead_disk, if_pos rfl, Recoverable.readHead_cleared]
  · have hne : c ≠ g.start := fun hcs => hd.head_not_home (hcs ▸ hc)
    rw [clearHead_disk, if_neg hne]
    exact hplace c hc

/-- With an empty log a new transaction starts. -/
theorem clearHead_collects (hd : Recoverable g H s.disk) (hunpinned : s.Unpinned)
    (hdisk : s'.disk = (s.clearHead g).disk) (hlh : s'.log.lh = [])
    (hpinned : s'.pinned = s.pinned) (hgroup : s'.hist.group = []) : Collects g H s' where
  header := by rw [hdisk, clearHead_disk, if_pos rfl, Recoverable.readHead_cleared]
  home := by simp [hlh]
  small := by simpa [hlh] using hd.size_pos
  pins b hb := by
    rw [hpinned, hunpinned b] at hb
    cases hb
  data := by simp [hlh]
  keys := by simp [hgroup]

/-- Every step of a commit or a recovery keeps the contents recoverable. -/
theorem Durable.advance {d : ℕ → Block} (h : Durable g d s) (hs : s.advance g = some s') :
    Durable g d s' := by
  obtain ⟨A, hA⟩ := h.counted
  have hcounted := hA.advance hs
  have hstage := h.stage
  unfold LogSys.advance at hs
  cases hphase : s.phase with
  | run => simp [hphase] at hs
  | writeLog tail =>
    simp only [hphase, Option.some.injEq] at hs
    subst hs
    exact writeLogRound_durable h hphase hcounted
  | writeHead =>
    simp only [hphase, Option.some.injEq] at hs
    subst hs
    exact commitHead_durable h hphase hcounted
  | installTrans tail =>
    simp only [hphase, Option.some.injEq] at hs
    subst hs
    exact installRound_durable h hphase hcounted
  | clearHead =>
    simp only [hphase, Option.some.injEq] at hs
    subst hs
    rw [hphase] at hstage
    obtain ⟨hunpinned, hplace, hret⟩ := hstage
    exact ⟨clearHead_recoverable h.disk hplace,
      fun c _ => coherent_bwrite h.coherent _ (Or.inr (hunpinned c)), hret, h.committed,
      clearHead_collects h.disk hunpinned rfl rfl rfl rfl, A, hcounted⟩
  | finish =>
    simp only [hphase, Option.some.injEq] at hs
    subst hs
    rw [hphase] at hstage
    exact ⟨h.disk, h.coherent, h.returned, h.committed,
      Collects.congr hstage rfl (fun _ => rfl) rfl rfl rfl, A, hcounted⟩
  | readHead =>
    simp only [hphase, Option.some.injEq] at hs
    subst hs
    rw [hphase] at hstage
    have hread := h.coherent g.start (hstage.1 g.start)
    exact ⟨h.disk, h.coherent, h.returned, h.committed, ⟨hstage.1, hstage.2, by rw [hread],
      fun k b hk => absurd hk (Nat.not_lt_zero k)⟩, A, hcounted⟩
  | reinstall tail =>
    simp only [hphase, Option.some.injEq] at hs
    subst hs
    exact reinstallRound_durable h hphase hcounted
  | reclear =>
    simp only [hphase, Option.some.injEq] at hs
    subst hs
    rw [hphase] at hstage
    obtain ⟨hunpinned, hgroup, hplace⟩ := hstage
    exact ⟨clearHead_recoverable h.disk hplace,
      fun c _ => coherent_bwrite h.coherent _ (Or.inr (hunpinned c)), h.returned, h.committed,
      clearHead_collects h.disk hunpinned rfl rfl rfl hgroup, A, hcounted⟩

/-! ## Whole runs -/

/-- Nothing on the disk is lost when the machine is switched off. -/
theorem Durable.crash {d : ℕ → Block} (h : Durable g d s) : Durable g d s.crash :=
  ⟨h.disk, fun _ _ => rfl, h.returned, h.committed, ⟨fun _ => rfl, rfl⟩, ∅,
    Counted.of_empty (fun _ => rfl) rfl fun _ => Or.inl rfl⟩

theorem Durable.step {d : ℕ → Block} (h : Durable g d s) {a : LogAct} (hok : HomeWrites g s a)
    (hs : s.step g a = some s') : Durable g d s' := by
  cases a with
  | crash =>
    cases hs
    exact h.crash
  | beginOp p =>
    dsimp only [LogSys.step] at hs
    split_ifs at hs with hrun
    obtain ⟨A, hA⟩ := h.counted
    have hcounted := (hA.beginOp hrun.2 hs).2
    unfold LogSys.beginOp at hs
    split_ifs at hs
    obtain ⟨l, hl, rfl⟩ := Option.map_eq_some_iff.mp hs
    unfold Log.beginOp at hl
    split_ifs at hl
    cases hl
    exact h.congr rfl (fun _ => rfl) rfl rfl rfl rfl hcounted
  | write p b data =>
    dsimp only [LogSys.step] at hs
    split_ifs at hs with hrun
    exact h.write hok hrun.2 hs
  | endOp p =>
    dsimp only [LogSys.step] at hs
    split_ifs at hs with hrun
    exact h.endOp hs
  | fetch b =>
    dsimp only [LogSys.step] at hs
    split_ifs at hs with hrun
    cases hs
    obtain ⟨A, hA⟩ := h.counted
    refine h.congr rfl (fun c => ?_) rfl rfl rfl rfl (hA.congr (fun _ => Iff.rfl) rfl rfl rfl id)
    rw [bread_modify]
    split_ifs with hcb
    · rw [hcb]
    · rfl
  | evict b =>
    dsimp only [LogSys.step] at hs
    split_ifs at hs with hrun
    cases hs
    obtain ⟨A, hA⟩ := h.counted
    refine h.congr rfl (fun c => ?_) rfl rfl rfl rfl (hA.congr (fun _ => Iff.rfl) rfl rfl rfl id)
    have hclean := h.coherent b hrun.2
    unfold bread at hclean ⊢
    dsimp only
    by_cases hcb : c = b
    · rw [hcb, Function.update_self, hclean]
      rfl
    · rw [Function.update_of_ne hcb]
  | advance =>
    dsimp only [LogSys.step] at hs
    split_ifs at hs with hrun
    exact h.advance hs

theorem durable_of_reach {disk : ℕ → Block} (hhead : readHead (disk g.start) = [])
    (hsize : 0 < g.size) (h : ReachOf (LogSys.step g) (HomeWrites g) (boot disk) s) :
    Durable g disk s := by
  refine ReachOf.invariant (Durable g disk) (fun _ _ _ hok hs hstep => hs.step hok hstep) ?_ h
  exact ⟨Recoverable.of_empty hhead hsize fun _ _ => rfl, fun _ _ => rfl, List.Sublist.refl _,
    List.Sublist.refl _, ⟨fun _ => rfl, rfl⟩, ∅,
    Counted.of_empty (fun _ => rfl) rfl fun _ => Or.inl rfl⟩

section Rerun

variable {ok : LogSys → LogAct → Prop} (hok : ∀ s, ok s .advance)
include hok

/-- The rounds of `install_trans` and the clearing of the header, run to their end. -/
theorem reinstall_runs {n tail : ℕ} (hn : s.log.lh.length ≤ tail + n)
    (hphase : s.phase = .reinstall tail) (hpanic : s.panic = none)
    (hclean : ∀ c, s.bread c = s.disk c) :
    ∃ s', ReachOf (LogSys.step g) ok s s' ∧ s'.phase = .run ∧ s'.disk =
      Function.update (install g s.disk tail (s.log.lh.drop tail)) g.start
        (writeHead [] (install g s.disk tail (s.log.lh.drop tail) g.start)) := by
  induction n generalizing s tail with
  | zero =>
    have hnone : s.log.lh[tail]? = none := List.getElem?_eq_none (by omega)
    have hdrop : s.log.lh.drop tail = [] := List.drop_eq_nil_of_le (by omega)
    have hfirst : s.step g .advance = some { s with phase := .reclear } := by
      simp [LogSys.step, hpanic, LogSys.advance, hphase, reinstallRound, hnone]
    have hsecond : LogSys.step g { s with phase := .reclear } .advance =
        some { LogSys.clearHead g { s with phase := .reclear } with phase := .run } := by
      simp [LogSys.step, hpanic, LogSys.advance]
    refine ⟨_, (ReachOf.single (hok _) hfirst).trans (ReachOf.single (hok _) hsecond), rfl, ?_⟩
    rw [hdrop]
    change Function.update s.disk g.start (writeHead [] (s.bread g.start)) = _
    rw [hclean]
    rfl
  | succ n ih =>
    cases hb : s.log.lh[tail]? with
    | none =>
      have hlen := List.getElem?_eq_none_iff.mp hb
      exact ih (by omega) hphase hpanic hclean
    | some b =>
      obtain ⟨hlt, hget⟩ := List.getElem?_eq_some_iff.mp hb
      have hdrop : s.log.lh.drop tail = b :: s.log.lh.drop (tail + 1) := by
        rw [List.drop_eq_getElem_cons hlt, hget]
      have hfirst : s.step g .advance =
          some { s.copyHome g tail b with phase := .reinstall (tail + 1) } := by
        simp [LogSys.step, hpanic, LogSys.advance, hphase, reinstallRound, hb]
      have hclean' (c : ℕ) : (s.copyHome g tail b).bread c = (s.copyHome g tail b).disk c := by
        unfold copyHome
        rw [bread_bwrite, disk_bwrite, hclean c]
      have hlen : (s.copyHome g tail b).log.lh.length ≤ tail + 1 + n := by
        change s.log.lh.length ≤ _
        omega
      obtain ⟨s', hreach, hrun, hdisk⟩ := ih
        (s := { s.copyHome g tail b with phase := .reinstall (tail + 1) }) hlen rfl hpanic hclean'
      refine ⟨s', (ReachOf.single (hok _) hfirst).trans hreach, hrun, ?_⟩
      rw [hdisk, hdrop, install]
      have hcopy : (s.copyHome g tail b).disk =
          Function.update s.disk b (s.disk (g.start + tail + 1)) := by
        unfold copyHome bwrite
        dsimp only
        rw [hclean]
      change Function.update (install g (s.copyHome g tail b).disk (tail + 1) _) _ _ = _
      rw [hcopy]
      rfl

/-- A recovery that is not interrupted computes `recover`. -/
theorem crash_runs (s : LogSys) : ∃ s', ReachOf (LogSys.step g) ok s.crash s' ∧
    s'.phase = .run ∧ s'.disk = recover g s.disk := by
  let r : LogSys := { s.crash with
    log := { s.crash.log with lh := readHead (s.disk g.start) }, phase := .reinstall 0 }
  have hfirst : s.crash.step g .advance = some r := rfl
  have hlen : r.log.lh.length ≤ 0 + (readHead (s.disk g.start)).length := by
    rw [Nat.zero_add]
  obtain ⟨s', hreach, hrun, hdisk⟩ := reinstall_runs (g := g) hok hlen rfl rfl fun _ => rfl
  exact ⟨s', (ReachOf.single (hok _) hfirst).trans hreach, hrun, hdisk⟩

end Rerun

/-- In every run, whenever the machine is switched off: a recovery that comes to its end
leaves each home block with its contents after all groups that were committed; these are
among those issued and include all whose commit returned. Recovering twice changes
nothing. -/
theorem log_crash_atomic (g : Geometry) (disk : ℕ → Block)
    (hhead : readHead (disk g.start) = []) (hsize : 0 < g.size) (s : LogSys)
    (h : ReachOf (LogSys.step g) (HomeWrites g) (boot disk) s) :
    (∀ b, Home g b → recover g s.disk b = overlay disk s.hist.committed.flatten b) ∧
    s.hist.returned.Sublist s.hist.committed ∧ s.hist.committed.Sublist s.hist.issued ∧
    (∃ s', ReachOf (LogSys.step g) (HomeWrites g) s.crash s' ∧ s'.phase = .run ∧
      s'.disk = recover g s.disk) ∧
    recover g (recover g s.disk) = recover g s.disk := by
  have hdurable := durable_of_reach hhead hsize h
  exact ⟨fun b hb => hdurable.disk.recover_home hb, hdurable.returned, hdurable.committed,
    crash_runs (fun _ => trivial) s, Recoverable.recover_recover s.disk⟩

/-- One block is logged and the machine is switched off right after the header is written. -/
def crashAfterHead : List LogAct :=
  [.advance, .advance, .advance, .beginOp 0, .write 0 50 (fun _ => 7), .endOp 0, .advance,
    .advance, .advance, .crash]

theorem log_crash_atomic_after_head : ∃ s : LogSys, s.disk 50 0 = 0 ∧ s.hist.returned = [] ∧
    recover mkfsLog s.disk 50 0 = 7 := by
  have hcheck : (runAll
      (fun s a => if HomeWrites mkfsLog s a then LogSys.step mkfsLog s a else none)
      (boot fun _ _ => 0) crashAfterHead).any (fun s => s.disk 50 0 = 0 ∧
        s.hist.returned.length = 0 ∧
        overlay (fun _ _ => (0 : Byte)) s.hist.committed.flatten 50 0 = 7) = true := by
    decide +kernel
  obtain ⟨s, hs, hcheck⟩ := (Option.any_eq_true _ _).mp hcheck
  obtain ⟨hdisk, hret, hcontents⟩ := of_decide_eq_true hcheck
  have hrecover := (log_crash_atomic mkfsLog (fun _ _ => 0) (by decide +kernel) (by decide) s
    (reachOf_of_runAll hs)).1 50 (by decide)
  exact ⟨s, hdisk, List.eq_nil_of_length_eq_zero hret, by rw [hrecover, hcontents]⟩

end LogSys

end XV6AndConcurrency.FileSystem
