import XV6AndConcurrency.Foundations.Transitions
import XV6AndConcurrency.UserHeap.Malloc

/-!
# Programs that use the allocator

A program calls `malloc` and `free` in any order, writes to the bytes that are its own and
may grow by calls of `sbrk` beside the allocator's. Every byte that the allocator got from
the kernel is, at every moment, in exactly one block, free or live.
-/

namespace XV6AndConcurrency.UserHeap

open Foundations

/-- A process with the headers of the blocks it holds, and the bytes that `morecore` got. -/
structure Process where
  heap : Heap
  live : Finset ℕ
  granted : Set ℕ

/-- The byte `y` belongs to the block at `b`. -/
def Heap.Holds (h : Heap) (b y : ℕ) : Prop := b ≤ y ∧ y < h.stop b

/-- The bytes that are the program's: inside its blocks, behind the headers, and outside of
everything the allocator has. -/
def Writable (base : ℕ) (s : Process) (y : ℕ) : Prop :=
  (∃ b ∈ s.live, b + 16 ≤ y ∧ y < s.heap.stop b) ∨
    y ∉ s.granted ∧ ¬(base ≤ y ∧ y < base + 16)

/-- The memory of the machine, `PHYSTOP - KERNBASE`. -/
def physical : ℕ := 134217728

inductive Step (base : ℕ) : Process → Process → Prop
  /-- A request that `sbrk` can be asked for in an `int`. -/
  | malloc {s : Process} {shared : Bool} {fuel : ℕ} {n : UInt32} {h' : Heap} {p : ℕ}
      (hn : 16 * nunits n < 2147483648)
      (h : malloc shared base fuel s.heap n = some (.returned h' p)) :
      Step base s ⟨h', if p = 0 then s.live else insert (p - 16) s.live,
        s.granted ∪ {y | s.heap.sz ≤ y ∧ y < h'.sz}⟩
  | free {s : Process} {fuel b : ℕ} {h' : Heap} (hb : b ∈ s.live)
      (h : free fuel s.heap (b + 16) = some h') :
      Step base s ⟨h', s.live.erase b, s.granted⟩
  /-- Headers change only where one of their bytes is the program's. -/
  | write {s : Process} {h' : Heap} (hfreep : h'.freep = s.heap.freep) (hsz : h'.sz = s.heap.sz)
      (hroom : h'.room = s.heap.room)
      (h : ∀ x, h'.ptr x = s.heap.ptr x ∧ h'.size x = s.heap.size x ∨
        ∃ y, x ≤ y ∧ y < x + 16 ∧ Writable base s y) :
      Step base s { s with heap := h' }
  /-- The program grows by a call of its own, or memory is used and freed elsewhere. -/
  | kernel {s : Process} {sz room : ℕ} (hsz : s.heap.sz ≤ sz) (h : sz + room ≤ physical) :
      Step base s { s with heap := { s.heap with sz := sz, room := room } }

/-- A call of the allocator. -/
inductive Use
  | malloc (n : UInt32)
  | free (b : ℕ)

/-- A call as it is carried out. -/
def Process.use (base fuel : ℕ) (s : Process) : Use → Option Process
  | .malloc n =>
    if 16 * nunits n < 2147483648 then
      match malloc false base fuel s.heap n with
      | some (.returned h' p) =>
        some ⟨h', if p = 0 then s.live else insert (p - 16) s.live,
          s.granted ∪ {y | s.heap.sz ≤ y ∧ y < h'.sz}⟩
      | some .killed | none => none
    else none
  | .free b =>
    if b ∈ s.live then
      (free fuel s.heap (b + 16)).map fun h' => ⟨h', s.live.erase b, s.granted⟩
    else none

variable {s s' : Process} {base fuel nu : ℕ} {h h' : Heap} {L L' : List ℕ} {a b q x y : ℕ}

theorem step_of_use {u : Use} (hu : s.use base fuel u = some s') : Step base s s' := by
  cases u with
  | malloc n =>
    obtain ⟨hn, hu⟩ := Option.ite_none_right_eq_some.mp hu
    split at hu
    case h_1 h' p hmalloc =>
      cases hu
      exact .malloc hn hmalloc
    all_goals cases hu
  | free b =>
    obtain ⟨hb, hu⟩ := Option.ite_none_right_eq_some.mp hu
    obtain ⟨h', hfree, rfl⟩ := Option.map_eq_some_iff.mp hu
    exact .free hb hfree

/-- The blocks of a process and its free list. -/
structure Valid (base : ℕ) (s : Process) (L : List ℕ) : Prop where
  free : FreeList base s.heap L
  pos : ∀ b ∈ s.live, 0 < s.heap.size b
  apart : ∀ a ∈ s.live, ∀ b ∈ s.live, ∀ y, s.heap.Holds a y → s.heap.Holds b y → a = b
  clear : ∀ b ∈ s.live, ∀ y, s.heap.Holds b y → ¬Covered s.heap.stop L y
  cover : ∀ y, y ∈ s.granted ↔ Covered s.heap.stop L y ∨ ∃ b ∈ s.live, s.heap.Holds b y
  inside : ∀ y ∈ s.granted, base + 16 ≤ y ∧ y < s.heap.sz

/-- A process that has not called the allocator. -/
structure Fresh (s : Process) : Prop where
  freep : s.heap.freep = 0
  live : s.live = ∅
  granted : s.granted = ∅

structure Inv (base : ℕ) (s : Process) : Prop where
  base_lt : base + 16 ≤ s.heap.sz
  memory : s.heap.sz + s.heap.room ≤ physical
  blocks : Fresh s ∨ ∃ L, Valid base s L

theorem holds_self (hpos : 0 < h.size b) : h.Holds b b := ⟨le_rfl, lt_stop hpos⟩

/-- Two blocks without a common byte. -/
theorem stop_le_or (ha : 0 < h.size a) (hb : 0 < h.size b)
    (hno : ∀ y, h.Holds a y → ¬h.Holds b y) : h.stop a ≤ b ∨ h.stop b ≤ a := by
  by_contra hboth
  rw [not_or, not_le, not_le] at hboth
  have h1 := lt_stop ha
  have h2 := lt_stop hb
  exact hno (max a b) ⟨le_max_left a b, by omega⟩ ⟨le_max_right a b, by omega⟩

theorem FreeList.eq_of_holds (hf : FreeList base h L) (ha : a ∈ L) (hb : b ∈ L)
    (hay : h.Holds a y) (hby : h.Holds b y) : a = b := by
  have ha' := List.mem_cons_of_mem base ha
  have hb' := List.mem_cons_of_mem base hb
  rcases lt_trichotomy a b with hlt | heq | hlt
  · exact absurd ((hay.2.trans (hf.stop_lt_of_lt ha' hb' hlt)).trans_le hby.1) (lt_irrefl _)
  · exact heq
  · exact absurd ((hby.2.trans (hf.stop_lt_of_lt hb' ha' hlt)).trans_le hay.1) (lt_irrefl _)

namespace Valid

theorem mem_granted (hv : Valid base s L) (hb : b ∈ s.live) (hy : s.heap.Holds b y) :
    y ∈ s.granted := (hv.cover y).mpr (.inr ⟨b, hb, hy⟩)

theorem stop_le (hv : Valid base s L) (ha : a ∈ L) : s.heap.stop a ≤ s.heap.sz := by
  have hlt := lt_stop (hv.free.pos a ha)
  have hmem := (hv.cover (s.heap.stop a - 1)).mpr (.inl ⟨a, ha, by omega, by omega⟩)
  have := (hv.inside _ hmem).2
  omega

theorem live_stop_le (hv : Valid base s L) (hb : b ∈ s.live) : s.heap.stop b ≤ s.heap.sz := by
  have hlt := lt_stop (hv.pos b hb)
  have hmem := hv.mem_granted hb (y := s.heap.stop b - 1) ⟨by omega, by omega⟩
  have := (hv.inside _ hmem).2
  omega

theorem base_le (hv : Valid base s L) (hb : b ∈ s.live) : base + 16 ≤ b :=
  (hv.inside b (hv.mem_granted hb (holds_self (hv.pos b hb)))).1

/-- A live block is not in the list, and not at the end of the process. -/
theorem not_mem (hv : Valid base s L) (hb : b ∈ s.live) : b ∉ s.heap.sz :: base :: L := by
  have hlt := lt_stop (hv.pos b hb)
  intro hmem
  rcases List.mem_cons.mp hmem with rfl | hmem
  · exact absurd hlt (not_lt.mpr (hv.live_stop_le hb))
  · rcases List.mem_cons.mp hmem with rfl | hmem
    · have := hv.base_le hb
      omega
    · exact hv.clear b hb b (holds_self (hv.pos b hb)) ⟨b, hmem, le_rfl, hlt⟩

/-- The list and the live blocks hold their bytes as before, and the new ones are added. -/
theorem grow (hv : Valid base s L) (hbase : base + 16 ≤ s.heap.sz)
    (hg : Grown base s.heap L h' L') :
    Valid base ⟨h', s.live, s.granted ∪ {y | s.heap.sz ≤ y ∧ y < h'.sz}⟩ L' := by
  have hsize : ∀ b ∈ s.live, h'.size b = s.heap.size b := fun b hb => hg.size b (hv.not_mem hb)
  have hstop : ∀ b ∈ s.live, h'.stop b = s.heap.stop b := fun b hb => by
    rw [Heap.stop, Heap.stop, hsize b hb]
  have hholds : ∀ b ∈ s.live, ∀ y, h'.Holds b y ↔ s.heap.Holds b y := fun b hb y => by
    rw [Heap.Holds, Heap.Holds, hstop b hb]
  refine ⟨hg.free, fun b hb => (hsize b hb).symm ▸ hv.pos b hb, fun a ha b hb y hay hby => ?_,
    fun b hb y hby hcov => ?_, fun y => ?_, fun y hy => ?_⟩
  · exact hv.apart a ha b hb y ((hholds a ha y).mp hay) ((hholds b hb y).mp hby)
  · have hby' := (hholds b hb y).mp hby
    rcases (hg.cover y).mp hcov with ⟨hle, -⟩ | hcov
    · exact absurd (hv.inside y (hv.mem_granted hb hby')).2 (not_lt.mpr hle)
    · exact hv.clear b hb y hby' hcov
  · have hex : (∃ b ∈ s.live, h'.Holds b y) ↔ ∃ b ∈ s.live, s.heap.Holds b y :=
      exists_congr fun b => and_congr_right fun hb => hholds b hb y
    show y ∈ s.granted ∨ s.heap.sz ≤ y ∧ y < h'.sz ↔ _
    rw [hv.cover, hg.cover, hex, or_right_comm, or_comm (a := Covered _ _ _)]
  · rcases hy with hy | hy
    · have := hv.inside y hy
      exact ⟨this.1, this.2.trans_le hg.le⟩
    · exact ⟨hbase.trans hy.1, hy.2⟩

/-- A block leaves the list and becomes live. -/
theorem take (hv : Valid base s L) (ht : Taken base nu s.heap L h' L' q) (hnu : 0 < nu) :
    Valid base ⟨h', insert q s.live, s.granted⟩ L' := by
  have hqstop : q < h'.stop q := lt_stop (ht.size.symm ▸ hnu)
  have hqcov : ∀ y, h'.Holds q y → Covered s.heap.stop L y := fun y hy =>
    (ht.cover y).mpr (.inr hy)
  have hne : ∀ b ∈ s.live, b ≠ q := by
    rintro b hb rfl
    exact hv.clear b hb b (holds_self (hv.pos b hb)) (hqcov b ⟨le_rfl, hqstop⟩)
  have hsize : ∀ b ∈ s.live, h'.size b = s.heap.size b := fun b hb =>
    ht.same.size b fun hmem => (List.mem_cons.mp hmem).elim (hne b hb) fun hmem =>
      hv.not_mem hb (List.mem_cons_of_mem _ hmem)
  have hholds : ∀ b ∈ s.live, ∀ y, h'.Holds b y ↔ s.heap.Holds b y := fun b hb y => by
    rw [Heap.Holds, Heap.Holds, Heap.stop, Heap.stop, hsize b hb]
  have hno : ∀ b ∈ s.live, ∀ y, h'.Holds b y → ¬Covered s.heap.stop L y := fun b hb y hby =>
    hv.clear b hb y ((hholds b hb y).mp hby)
  refine ⟨ht.free, fun b hb => ?_, fun a ha b hb y hay hby => ?_, fun b hb y hby hcov => ?_,
    fun y => ?_, fun y hy => ?_⟩
  · rcases Finset.mem_insert.mp hb with rfl | hb
    · exact ht.size.symm ▸ hnu
    · exact (hsize b hb).symm ▸ hv.pos b hb
  · rcases Finset.mem_insert.mp ha with haq | ha'
    · rcases Finset.mem_insert.mp hb with hbq | hb'
      · exact haq.trans hbq.symm
      · exact absurd (hqcov y (haq ▸ hay)) (hno b hb' y hby)
    · rcases Finset.mem_insert.mp hb with hbq | hb'
      · exact absurd (hqcov y (hbq ▸ hby)) (hno a ha' y hay)
      · exact hv.apart a ha' b hb' y ((hholds a ha' y).mp hay) ((hholds b hb' y).mp hby)
  · rcases Finset.mem_insert.mp hb with rfl | hb
    · obtain ⟨a, ha, hle, hlt⟩ := hcov
      rcases ht.clear a ha with h | h
      · exact absurd (hlt.trans_le h) (not_lt.mpr hby.1)
      · exact absurd (hby.2.trans_le h) (not_lt.mpr hle)
    · exact hno b hb y hby ((ht.cover y).mpr (.inl hcov))
  · have hex : (∃ b ∈ s.live, h'.Holds b y) ↔ ∃ b ∈ s.live, s.heap.Holds b y :=
      exists_congr fun b => and_congr_right fun hb => hholds b hb y
    show y ∈ s.granted ↔ _ ∨ ∃ b ∈ insert q s.live, h'.Holds b y
    rw [hv.cover, ht.cover, Finset.exists_mem_insert, hex, or_assoc]
    rfl
  · rw [show (⟨h', insert q s.live, s.granted⟩ : Process).heap.sz = s.heap.sz from ht.same.sz]
    exact hv.inside y hy

theorem release (hv : Valid base s L) (hmem : s.heap.sz + s.heap.room ≤ physical)
    (hb : b ∈ s.live) (hfuel : L.length < fuel) :
    ∃ h' L', UserHeap.free fuel s.heap (b + 16) = some h' ∧
      Valid base ⟨h', s.live.erase b, s.granted⟩ L' ∧ SameBut (b :: base :: L) s.heap h' := by
  have hbase := hv.base_le hb
  obtain ⟨h', L', hfree, hf', -, hsame, hcov⟩ := free_spec hv.free (by omega) (hv.pos b hb)
    (fun a ha => stop_le_or (hv.free.pos a ha) (hv.pos b hb) fun y hay hby =>
      hv.clear b hb y hby ⟨a, ha, hay⟩)
    (fun a ha => by
      have hle : s.heap.stop a ≤ s.heap.sz := by
        rcases List.mem_cons.mp ha with rfl | ha
        · exact hv.live_stop_le hb
        · exact hv.stop_le ha
      unfold physical at hmem
      omega) hfuel
  have hsize : ∀ c ∈ s.live.erase b, h'.size c = s.heap.size c := fun c hc => by
    obtain ⟨hne, hc⟩ := Finset.mem_erase.mp hc
    exact hsame.size c fun hmem => (List.mem_cons.mp hmem).elim hne fun hmem =>
      hv.not_mem hc (List.mem_cons_of_mem _ hmem)
  have hholds : ∀ c ∈ s.live.erase b, ∀ y, h'.Holds c y ↔ s.heap.Holds c y := fun c hc y => by
    rw [Heap.Holds, Heap.Holds, Heap.stop, Heap.stop, hsize c hc]
  refine ⟨h', L', hfree, ⟨hf', fun c hc => ?_, fun a ha c hc y hay hcy => ?_,
    fun c hc y hcy hy => ?_, fun y => ?_, fun y hy => ?_⟩, hsame⟩
  · exact (hsize c hc).symm ▸ hv.pos c (Finset.mem_of_mem_erase hc)
  · exact hv.apart a (Finset.mem_of_mem_erase ha) c (Finset.mem_of_mem_erase hc) y
      ((hholds a ha y).mp hay) ((hholds c hc y).mp hcy)
  · obtain ⟨hne, hc'⟩ := Finset.mem_erase.mp hc
    have hcy' := (hholds c hc y).mp hcy
    rcases (hcov y).mp hy with hby | hy
    · exact hne (hv.apart c hc' b hb y hcy' hby)
    · exact hv.clear c hc' y hcy' hy
  · have hex : (∃ c ∈ s.live.erase b, h'.Holds c y) ↔
        ∃ c ∈ s.live.erase b, s.heap.Holds c y :=
      exists_congr fun c => and_congr_right fun hc => hholds c hc y
    show y ∈ s.granted ↔ _ ∨ ∃ c ∈ s.live.erase b, h'.Holds c y
    rw [hv.cover, hcov, hex, ← Finset.insert_erase hb, Finset.exists_mem_insert,
      Finset.erase_insert_eq_erase, Finset.erase_idem, or_left_comm, or_assoc]
    rfl
  · rw [show (⟨h', s.live.erase b, s.granted⟩ : Process).heap.sz = s.heap.sz from hsame.sz]
    exact hv.inside y hy

/-- Free blocks and headers are not the program's. -/
theorem not_writable (hv : Valid base s L) (hy : Covered s.heap.stop L y ∨
    (∃ b ∈ s.live, b ≤ y ∧ y < b + 16) ∨ base ≤ y ∧ y < base + 16) : ¬Writable base s y := by
  rintro (⟨c, hc, hcy, hlt⟩ | ⟨hno, hbase⟩)
  · have hholds : s.heap.Holds c y := ⟨by omega, hlt⟩
    rcases hy with hy | ⟨b, hb, hby, hlt'⟩ | ⟨-, hlt'⟩
    · exact hv.clear c hc y hholds hy
    · have hpos := hv.pos b hb
      have hbholds : s.heap.Holds b y := ⟨hby, by unfold Heap.stop; omega⟩
      obtain rfl := hv.apart b hb c hc y hbholds hholds
      omega
    · have := (hv.inside y (hv.mem_granted hc hholds)).1
      omega
  · rcases hy with hy | ⟨b, hb, hby, hlt⟩ | hy
    · exact hno ((hv.cover y).mpr (.inl hy))
    · have hpos := hv.pos b hb
      exact hno (hv.mem_granted hb ⟨hby, by unfold Heap.stop; omega⟩)
    · exact hbase hy

/-- The first bytes of a free block. -/
theorem covered_header (hv : Valid base s L) (ha : a ∈ L) (hay : a ≤ y) (hy : y < a + 16) :
    Covered s.heap.stop L y := by
  have hpos := hv.free.pos a ha
  exact ⟨a, ha, hay, by unfold Heap.stop; omega⟩

/-- What the program writes leaves the headers alone. -/
theorem write (hv : Valid base s L) (hfreep : h'.freep = s.heap.freep) (hsz : h'.sz = s.heap.sz)
    (h : ∀ x, h'.ptr x = s.heap.ptr x ∧ h'.size x = s.heap.size x ∨
      ∃ y, x ≤ y ∧ y < x + 16 ∧ Writable base s y) :
    Valid base { s with heap := h' } L := by
  have hsame : ∀ x, x ∈ base :: L ∨ x ∈ s.live →
      h'.ptr x = s.heap.ptr x ∧ h'.size x = s.heap.size x := by
    intro x hx
    refine (h x).resolve_right ?_
    rintro ⟨y, hxy, hlt, hw⟩
    refine hv.not_writable ?_ hw
    rcases hx with hx | hx
    · rcases List.mem_cons.mp hx with rfl | hx
      · exact .inr (.inr ⟨hxy, hlt⟩)
      · exact .inl (hv.covered_header hx hxy hlt)
    · exact .inr (.inl ⟨x, hx, hxy, hlt⟩)
  have hstop : ∀ x, x ∈ base :: L ∨ x ∈ s.live → h'.stop x = s.heap.stop x := fun x hx => by
    rw [Heap.stop, Heap.stop, (hsame x hx).2]
  have hholds : ∀ b ∈ s.live, ∀ y, h'.Holds b y ↔ s.heap.Holds b y := fun b hb y => by
    rw [Heap.Holds, Heap.Holds, hstop b (.inr hb)]
  have hcov : ∀ y, Covered h'.stop L y ↔ Covered s.heap.stop L y := fun y =>
    covered_congr fun a ha => hstop a (.inl (List.mem_cons_of_mem base ha))
  refine ⟨hv.free.congr (fun x hx => (hsame x (.inl hx)).1) (fun x hx => (hsame x (.inl hx)).2)
    (hfreep ▸ hv.free.freep), fun b hb => (hsame b (.inr hb)).2.symm ▸ hv.pos b hb,
    fun a ha b hb y hay hby => ?_, fun b hb y hby => ?_, fun y => ?_, fun y hy => ?_⟩
  · exact hv.apart a ha b hb y ((hholds a ha y).mp hay) ((hholds b hb y).mp hby)
  · exact fun hy => hv.clear b hb y ((hholds b hb y).mp hby) ((hcov y).mp hy)
  · show y ∈ s.granted ↔ Covered h'.stop L y ∨ ∃ b ∈ s.live, h'.Holds b y
    rw [hv.cover, hcov, exists_congr fun b => and_congr_right fun hb => hholds b hb y]
  · exact ⟨(hv.inside y hy).1, hsz.symm ▸ (hv.inside y hy).2⟩

end Valid

end XV6AndConcurrency.UserHeap
