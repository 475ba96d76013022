import XV6AndConcurrency.UserHeap.FreeLists

/-!
# The search of `malloc`

`malloc` goes once around the circle, from behind `freep`, for a block that is large
enough, and asks the kernel for more when it comes back without one. What the kernel gives
is put into the list by `free`, so the second round cannot fail.
-/

namespace XV6AndConcurrency.UserHeap

open Foundations

variable {h h' : Heap} {base p prev x y nu fuel : ℕ} {L P Q A : List ℕ} {shared : Bool}

namespace FreeList

/-- Only the headers in the list matter. -/
theorem congr (hf : FreeList base h L) (hptr : ∀ x ∈ base :: L, h'.ptr x = h.ptr x)
    (hsize : ∀ x ∈ base :: L, h'.size x = h.size x) (hfreep : h'.freep ∈ base :: L) :
    FreeList base h' L where
  ring := hf.ring.congr hptr
  empty := (hsize base List.mem_cons_self).trans hf.empty
  pos a ha := (hsize a (List.mem_cons_of_mem base ha)).symm ▸ hf.pos a ha
  gap := hf.gap.imp_of_mem fun ha _ hab => by
    rw [Heap.stop, hsize _ ha]
    exact hab
  freep := hfreep

/-- A block behind another one in the circle. -/
theorem consecutive (hf : FreeList base h L) (hprev : prev ∈ base :: L) (hx : h.ptr prev = x)
    (hne : x ≠ base) : ∃ P Q, base :: L = P ++ prev :: x :: Q := by
  obtain ⟨P, Q, heq⟩ := List.append_of_mem hprev
  have htrail := (hf.ring.splice heq).1
  cases Q with
  | nil => exact absurd (hx.symm.trans htrail) hne
  | cons c Q =>
    obtain rfl : c = x := htrail.1.symm.trans hx
    exact ⟨P, Q, heq⟩

end FreeList

/-! ## Taking a block -/

/-- What `take` leaves: a live block of `nu` units, cut from the end of a free one. -/
structure Taken (base nu : ℕ) (h : Heap) (L : List ℕ) (h' : Heap) (L' : List ℕ) (q : ℕ) :
    Prop where
  free : FreeList base h' L'
  subset : L' ⊆ L
  same : SameBut (q :: base :: L) h h'
  size : h'.size q = nu
  clear : ∀ a ∈ L', h'.stop a ≤ q ∨ h'.stop q ≤ a
  cover : ∀ y, Covered h.stop L y ↔ Covered h'.stop L' y ∨ q ≤ y ∧ y < h'.stop q

/-- The whole block leaves the list. -/
theorem take_whole (hf : FreeList base h L) (heq : base :: L = P ++ prev :: x :: Q) :
    ∃ L', Taken base (h.size x) h L { h.setPtr prev (h.ptr x) with freep := prev } L' x := by
  have heq' : base :: L = (P ++ [prev]) ++ x :: Q := by simp [heq]
  have hgap := hf.gap_right heq
  have hprevQ : ∀ c ∈ Q, c ≠ prev := fun c hc =>
    (hf.lt_of_mem_right heq (List.mem_cons_of_mem x hc)).ne'
  obtain ⟨L', hL', hf'⟩ := hf.retail (M := Q)
    { h.setPtr prev (h.ptr x) with freep := prev } heq
    (fun y hy => Function.update_of_ne (hf.lt_of_mem_left heq hy).ne _ _) (fun _ _ => rfl)
    ((hf.ring.splice heq').1.enter (Function.update_self _ _ _) fun y hy =>
      Function.update_of_ne (hprevQ y hy) _ _)
    (hgap.sublist (List.Sublist.cons_cons prev (List.sublist_cons_self x Q)))
    (fun c hc => hf.pos c (hf.mem_of_mem_right heq' hc)) le_rfl (fun hb => hb ▸ hf.empty) rfl
  have hL'' : base :: L' = (P ++ [prev]) ++ Q := by simp [hL']
  have hsplit : ∀ a ∈ L', a ∈ P ++ [prev] ∨ a ∈ Q := fun a ha =>
    List.mem_append.mp (hL'' ▸ List.mem_cons_of_mem base ha)
  refine ⟨L', hf', fun a ha => ?_, ⟨fun y hy => ?_, fun _ _ => rfl, rfl, rfl⟩, rfl,
    fun a ha => ?_, fun y => ?_⟩
  · rcases hsplit a ha with ha' | ha'
    · have hmem : a ∈ base :: L := heq' ▸ List.mem_append_left (x :: Q) ha'
      exact (List.mem_cons.mp hmem).resolve_left (hf'.base_lt ha).ne'
    · exact hf.mem_of_mem_right heq' ha'
  · refine Function.update_of_ne ?_ _ _
    rintro rfl
    simp [heq] at hy
  · exact (hsplit a ha).imp (fun h => (hf.stop_lt_of_mem_left heq' h).le) fun h =>
      (hf.stop_lt_of_mem_right heq' h).le
  · rw [← hf.covered_base, ← hf'.covered_base, heq', hL'', covered_append (l := P ++ [prev]),
      covered_append (l := P ++ [prev]), covered_cons (a := x), or_assoc,
      or_comm (a := x ≤ y ∧ y < h.stop x)]
    rfl

/-- The block keeps its front. -/
theorem take_end {q : ℕ} (hf : FreeList base h L) (hxL : x ∈ L) (hxq : x < q) (hnu : 0 < nu)
    (hq : q + 16 * nu = h.stop x) (hother : ∀ a, a ≠ x → a ≠ q → h'.size a = h.size a)
    (hxstop : h'.stop x = q) (hqsize : h'.size q = nu) (hptr : h'.ptr = h.ptr)
    (hfreep : h'.freep ∈ base :: L) (hsz : h'.sz = h.sz) (hroom : h'.room = h.room) :
    Taken base nu h L h' L q := by
  have hmem : x ∈ base :: L := List.mem_cons_of_mem base hxL
  have hqstop : h'.stop q = h.stop x := by rw [Heap.stop, hqsize, hq]
  -- no block begins inside another one
  have hne : ∀ a ∈ base :: L, a ≠ q := by
    rintro a ha rfl
    have hlt := hf.stop_lt_of_lt hmem ha hxq
    omega
  have hstop : ∀ a ∈ base :: L, a ≠ x → h'.stop a = h.stop a := fun a ha hax => by
    rw [Heap.stop, Heap.stop, hother a hax (hne a ha)]
  have hle : ∀ a ∈ base :: L, h'.stop a ≤ h.stop a := by
    intro a ha
    by_cases hax : a = x
    · subst hax
      omega
    · exact (hstop a ha hax).le
  have hf' : FreeList base h' L := by
    refine ⟨hptr ▸ hf.ring, ?_, fun a ha => ?_, ?_, hfreep⟩
    · rw [hother base (hf.base_lt hxL).ne (hne base List.mem_cons_self), hf.empty]
    · by_cases hax : a = x
      · subst hax
        unfold Heap.stop at hxstop
        omega
      · rw [hother a hax (hne a (List.mem_cons_of_mem base ha))]
        exact hf.pos a ha
    · exact hf.gap.imp_of_mem fun ha _ hab => (hle _ ha).trans_lt hab
  refine ⟨hf', List.Subset.refl _, ⟨fun _ _ => by rw [hptr], fun y hy => ?_, hsz, hroom⟩, hqsize,
    fun a ha => ?_, fun y => ?_⟩
  · rw [List.mem_cons, not_or] at hy
    exact hother y (fun hyx => hy.2 (hyx ▸ hmem)) hy.1
  · have ha' := List.mem_cons_of_mem base ha
    rcases lt_trichotomy a x with hax | rfl | hxa
    · have hlt := hf.stop_lt_of_lt ha' hmem hax
      have := hle a ha'
      exact .inl (by omega)
    · exact .inl hxstop.le
    · exact .inr (hqstop ▸ (hf.stop_lt_of_lt hmem ha' hxa).le)
  · rw [hqstop]
    constructor
    · rintro ⟨a, ha, hle, hlt⟩
      by_cases hax : a = x
      · subst hax
        by_cases hyq : y < q
        · exact .inl ⟨a, ha, hle, hxstop ▸ hyq⟩
        · exact .inr ⟨not_lt.mp hyq, hlt⟩
      · exact .inl ⟨a, ha, hle, (hstop a (List.mem_cons_of_mem base ha) hax).symm ▸ hlt⟩
    · rintro (⟨a, ha, hay, hlt⟩ | ⟨hqy, hlt⟩)
      · exact ⟨a, ha, hay, hlt.trans_le (hle a (List.mem_cons_of_mem base ha))⟩
      · exact ⟨x, hxL, hxq.le.trans hqy, hlt⟩

theorem take_spec (hf : FreeList base h L) (heq : base :: L = P ++ prev :: x :: Q)
    (hnu : 0 < nu) (hfit : nu ≤ h.size x) (hbound : h.stop x < 68719476736) :
    ∃ h' L' q, take h nu prev x = .returned h' (q + 16) ∧ Taken base nu h L h' L' q := by
  have hxL := hf.mem_of_fit heq hnu hfit
  by_cases hexact : h.size x = nu
  · subst hexact
    obtain ⟨L', hL'⟩ := take_whole hf heq
    exact ⟨_, L', x, if_pos rfl, hL'⟩
  · have hsize : h.size x < 4294967296 := by
      unfold Heap.stop at hbound
      omega
    have hq : (h.setSize x (h.size x - nu)).stop x = x + 16 * (h.size x - nu) :=
      Heap.setSize_stop_self (by omega)
    refine ⟨_, L, _, if_neg hexact, take_end hf hxL ?_ hnu ?_ (fun a hax haq => ?_) ?_ ?_ rfl ?_
      rfl rfl⟩
    · omega
    · rw [hq, Heap.stop]
      omega
    · exact (Function.update_of_ne haq _ _).trans (Function.update_of_ne hax _ _)
    · exact Heap.setSize_stop_of_ne (h := h.setSize x (h.size x - nu)) (by omega)
    · exact (Function.update_self _ _ _).trans (Nat.mod_eq_of_lt (by omega))
    · show prev ∈ base :: L
      simp [heq]

/-! ## The scan -/

/-- The scan passes blocks that are too small, up to a block behind them. -/
theorem mallocLoop_pass (shared : Bool) (fuel : ℕ) (hA : Trail h.ptr prev A x)
    (hsmall : ∀ a ∈ A, h.size a < nu ∧ a ≠ h.freep) :
    ∃ last ∈ prev :: A, h.ptr last = x ∧
      mallocLoop shared (fuel + A.length) h nu prev (h.ptr prev) =
        mallocLoop shared fuel h nu last x := by
  induction A generalizing prev with
  | nil =>
    have hx : h.ptr prev = x := hA
    exact ⟨prev, List.mem_cons_self, hx, by rw [hx, List.length_nil, Nat.add_zero]⟩
  | cons a A ih =>
    obtain ⟨rfl, hA⟩ := hA
    obtain ⟨hlt, hne⟩ := hsmall (h.ptr prev) List.mem_cons_self
    obtain ⟨last, hlast, hptr, hloop⟩ := ih hA fun b hb => hsmall b (List.mem_cons_of_mem _ hb)
    refine ⟨last, List.mem_cons_of_mem prev hlast, hptr, ?_⟩
    rw [List.length_cons, ← Nat.add_assoc, mallocLoop, if_neg (not_le.mpr hlt), if_neg hne, hloop]

namespace FreeList

/-- The circle as the scan meets it, `freep` last. -/
theorem round (hf : FreeList base h L) : ∃ l, Trail h.ptr h.freep l h.freep ∧
    (h.freep :: l).Perm (base :: L) ∧ (∀ a ∈ l, a ≠ h.freep) ∧ l.length = L.length := by
  obtain ⟨l, hl, hperm⟩ := hf.ring.rotate hf.freep
  refine ⟨l, hl, hperm, ?_, Nat.succ.inj hperm.length_eq⟩
  rintro a ha rfl
  exact (List.nodup_cons.mp (hperm.nodup_iff.mpr hf.nodup)).1 ha

/-- A block that fits is found within a round: the first one behind `freep`. -/
theorem fit (shared : Bool) (fuel : ℕ) (hf : FreeList base h L) (hnu : 0 < nu)
    (hfit : ∃ a ∈ L, nu ≤ h.size a) (hfuel : L.length < fuel) :
    ∃ P prev x Q A, base :: L = P ++ prev :: x :: Q ∧ nu ≤ h.size x ∧
      Trail h.ptr h.freep A x ∧ (∀ a ∈ A, h.size a < nu) ∧
      mallocLoop shared fuel h nu h.freep (h.ptr h.freep) = some (take h nu prev x) := by
  obtain ⟨l, hl, hperm, hne, hlen⟩ := hf.round
  have hfound : ∀ (A : List ℕ) (x : ℕ), Trail h.ptr h.freep A x → A ⊆ l →
      (∀ a ∈ A, h.size a < nu) → nu ≤ h.size x → A.length < fuel →
      ∃ P prev x Q A, base :: L = P ++ prev :: x :: Q ∧ nu ≤ h.size x ∧
        Trail h.ptr h.freep A x ∧ (∀ a ∈ A, h.size a < nu) ∧
        mallocLoop shared fuel h nu h.freep (h.ptr h.freep) = some (take h nu prev x) := by
    intro A x hA hsub hsmall hx hlt
    obtain ⟨k, rfl⟩ : ∃ k, fuel = k + 1 + A.length := ⟨fuel - A.length - 1, by omega⟩
    obtain ⟨last, hlast, hptr, hloop⟩ :=
      mallocLoop_pass shared (k + 1) hA fun a ha => ⟨hsmall a ha, hne a (hsub ha)⟩
    have hmem : last ∈ base :: L := by
      apply hperm.subset
      rcases List.mem_cons.mp hlast with rfl | hlast
      · exact List.mem_cons_self
      · exact List.mem_cons_of_mem _ (hsub hlast)
    obtain ⟨P, Q, heq⟩ := hf.consecutive hmem hptr (hf.ne_base hnu hx)
    refine ⟨P, last, x, Q, A, heq, hx, hA, hsmall, ?_⟩
    rw [hloop, mallocLoop, if_pos hx]
  cases hfind : l.find? fun a => decide (nu ≤ h.size a) with
  | none =>
    -- only `freep` itself is left
    have hsmall : ∀ a ∈ l, h.size a < nu := by
      intro a ha
      have hno := List.find?_eq_none.mp hfind a ha
      rw [decide_eq_true_eq] at hno
      exact not_le.mp hno
    obtain ⟨a, ha, hle⟩ := hfit
    rcases List.mem_cons.mp (hperm.symm.subset (List.mem_cons_of_mem base ha)) with rfl | ha
    · exact hfound l h.freep hl (List.Subset.refl l) hsmall hle (hlen.trans_lt hfuel)
    · exact absurd hle (not_le.mpr (hsmall a ha))
  | some x =>
    obtain ⟨hx, A, B, rfl, hA⟩ := List.find?_eq_some_iff_append.mp hfind
    rw [List.length_append, List.length_cons] at hlen
    refine hfound A x (trail_append.mp hl).1 (List.subset_append_left A _) (fun a ha => ?_)
      (of_decide_eq_true hx) (by omega)
    have hno := hA a ha
    rw [Bool.not_eq_true', decide_eq_false_iff_not] at hno
    exact not_le.mp hno

/-- Without one, `malloc` comes back to `freep` and asks for more memory. -/
theorem no_fit (hf : FreeList base h L) (hnu : 0 < nu) (hnone : ∀ a ∈ L, h.size a < nu) :
    mallocLoop shared (fuel + 1 + L.length) h nu h.freep (h.ptr h.freep) =
      match morecore shared fuel h nu with
      | none => none
      | some .killed => some .killed
      | some (.returned h' 0) => some (.returned h' 0)
      | some (.returned h' p') => mallocLoop shared fuel h' nu p' (h'.ptr p') := by
  obtain ⟨l, hl, hperm, hne, hlen⟩ := hf.round
  have hsmall : ∀ a ∈ base :: L, h.size a < nu := by
    intro a ha
    rcases List.mem_cons.mp ha with rfl | ha
    · rw [hf.empty]
      exact hnu
    · exact hnone a ha
  obtain ⟨last, -, -, hloop⟩ := mallocLoop_pass shared (fuel + 1) hl fun a ha =>
    ⟨hsmall a (hperm.subset (List.mem_cons_of_mem _ ha)), hne a ha⟩
  rw [← hlen, hloop, mallocLoop, if_neg (not_le.mpr (hsmall _ hf.freep))]
  exact if_pos rfl

/-- Free bytes for the request next to each other, after one more block has come in. -/
theorem fit_run {b : ℕ} {L' : List ℕ} (shared : Bool) (fuel : ℕ) (hf : FreeList base h L')
    (hnu : 0 < nu) (hsub : L' ⊆ b :: L)
    (hcov : ∀ y, b ≤ y → y < b + 16 * nu → Covered h.stop L' y) (hfuel : L.length + 1 < fuel) :
    ∃ P prev x Q A, base :: L' = P ++ prev :: x :: Q ∧ nu ≤ h.size x ∧
      Trail h.ptr h.freep A x ∧ (∀ a ∈ A, h.size a < nu) ∧
      mallocLoop shared fuel h nu h.freep (h.ptr h.freep) = some (take h nu prev x) := by
  obtain ⟨a, ha, hle, hstop⟩ := hf.separated.exists_covering (s := b) (e := b + 16 * nu)
    (by omega) hcov
  have hlen : L'.length ≤ L.length + 1 := by
    simpa using ((List.nodup_cons.mp hf.nodup).2.subperm hsub).length_le
  unfold Heap.stop at hstop
  exact hf.fit shared fuel hnu ⟨a, ha, by omega⟩ (by omega)

end FreeList

/-! ## More memory -/

/-- The list after the process has grown: it covers the new memory too. -/
structure Grown (base : ℕ) (h : Heap) (L : List ℕ) (h' : Heap) (L' : List ℕ) : Prop where
  free : FreeList base h' L'
  subset : L' ⊆ h.sz :: L
  ptr : ∀ x ∉ h.sz :: base :: L, h'.ptr x = h.ptr x
  size : ∀ x ∉ h.sz :: base :: L, h'.size x = h.size x
  le : h.sz ≤ h'.sz
  total : h'.sz + h'.room = h.sz + h.room
  cover : ∀ y, Covered h'.stop L' y ↔ h.sz ≤ y ∧ y < h'.sz ∨ Covered h.stop L y

theorem Grown.refl (hf : FreeList base h L) : Grown base h L h L where
  free := hf
  subset := List.subset_cons_self _ _
  ptr _ _ := rfl
  size _ _ := rfl
  le := le_rfl
  total := rfl
  cover _ := (or_iff_right fun hy => absurd hy.2 (not_lt.mpr hy.1)).symm

/-- The block that `morecore` asks for, in bytes. -/
def chunk (nu : ℕ) : ℕ := 16 * max nu 4096

theorem morecore_eq (hnu : nu < 134217728) :
    morecore shared fuel h nu = if chunk nu ≤ h.room then
      (free fuel ({ h with sz := h.sz + chunk nu, room := h.room - chunk nu }.setSize h.sz
        (max nu 4096)) (h.sz + 16)).map fun h => .returned h h.freep
    else some (.returned h 0) := by
  have hmax : (if nu < 4096 then 4096 else nu) = max nu 4096 := by
    split_ifs <;> omega
  have hwrap : wrap32 ((max nu 4096 * 16 : ℕ) : ℤ) = (chunk nu : ℕ) := by
    rw [chunk, mul_comm, wrap32_of_range]
    · omega
    · omega
  have hpos : (0 : ℤ) < (chunk nu : ℕ) := by
    unfold chunk
    omega
  unfold morecore
  dsimp only
  rw [hmax, hwrap, sbrk, if_pos hpos, Int.toNat_natCast]
  split_ifs with hroom
  · -- the header lies in the new memory
    have hmapped : ¬({ h with sz := h.sz + chunk nu, room := h.room - chunk nu } : Heap).limit
        shared < h.sz + 12 := by
      unfold Heap.limit chunk
      cases shared <;> simp only [Bool.false_eq_true, if_false, if_true] <;> omega
    dsimp only
    rw [if_neg hmapped]
  · rfl

/-- `free` puts memory behind the process into the list, whatever the kernel did. -/
theorem free_chunk (fuel : ℕ) (h1 : Heap) {m : ℕ} (hf : FreeList base h L)
    (hbound : ∀ a ∈ L, h.stop a ≤ h.sz) (hbase : base < h.sz) (hptr : h1.ptr = h.ptr)
    (hsize : h1.size = h.size) (hfreep : h1.freep = h.freep) (hm : 0 < m)
    (hend : h.sz + 16 * m < 68719476736) (hfuel : L.length < fuel) :
    ∃ h' L', free fuel (h1.setSize h.sz m) (h.sz + 16) = some h' ∧ FreeList base h' L' ∧
      L' ⊆ h.sz :: L ∧ (∀ x ∉ h.sz :: base :: L, h'.ptr x = h.ptr x) ∧
      (∀ x ∉ h.sz :: base :: L, h'.size x = h.size x) ∧ h'.sz = h1.sz ∧ h'.room = h1.room ∧
      ∀ y, Covered h'.stop L' y ↔ h.sz ≤ y ∧ y < h.sz + 16 * m ∨ Covered h.stop L y := by
  have hnot : ∀ a ∈ base :: L, a ≠ h.sz := by
    rintro a ha rfl
    rcases List.mem_cons.mp ha with heq | ha
    · omega
    · exact absurd (lt_stop (hf.pos _ ha)) (not_lt.mpr (hbound _ ha))
  have hother : ∀ a, a ≠ h.sz → (h1.setSize h.sz m).size a = h.size a := fun a ha => by
    rw [Heap.setSize_size, Function.update_of_ne ha, hsize]
  have hstop : ∀ a ∈ L, (h1.setSize h.sz m).stop a = h.stop a := fun a ha => by
    rw [Heap.stop, Heap.stop, hother a (hnot a (List.mem_cons_of_mem base ha))]
  have hsz : (h1.setSize h.sz m).stop h.sz = h.sz + 16 * m := Heap.setSize_stop_self (by omega)
  have hf1 : FreeList base (h1.setSize h.sz m) L :=
    hf.congr (fun _ _ => by rw [Heap.setSize_ptr, hptr]) (fun a ha => hother a (hnot a ha))
      (by rw [Heap.setSize_freep, hfreep]; exact hf.freep)
  have hpos : 0 < (h1.setSize h.sz m).size h.sz := by
    unfold Heap.stop at hsz
    omega
  obtain ⟨h', L', hfree, hf', hsub, hsame, hcov⟩ := free_spec hf1 hbase hpos
    (fun a ha => .inl ((hstop a ha).trans_le (hbound a ha)))
    (fun a ha => by
      rcases List.mem_cons.mp ha with rfl | ha
      · omega
      · have := hbound a ha
        rw [hstop a ha]
        omega) hfuel
  refine ⟨h', L', hfree, hf', hsub, fun x hx => ?_, fun x hx => ?_, hsame.sz, hsame.room,
    fun y => ?_⟩
  · rw [hsame.ptr x hx, Heap.setSize_ptr, hptr]
  · exact (hsame.size x hx).trans (hother x fun h => hx (h ▸ List.mem_cons_self))
  · rw [hcov, hsz, covered_congr hstop]

theorem morecore_spec (fuel : ℕ) (hf : FreeList base h L) (hbound : ∀ a ∈ L, h.stop a ≤ h.sz)
    (hbase : base < h.sz) (hmem : h.sz + h.room < 68719476736) (hnu : nu < 134217728)
    (hfuel : L.length < fuel) (hroom : chunk nu ≤ h.room) :
    ∃ h' L', morecore shared fuel h nu = some (.returned h' h'.freep) ∧ Grown base h L h' L' ∧
      h'.sz = h.sz + chunk nu := by
  obtain ⟨h', L', hfree, hf', hsub, hptr, hsize, hsz, hr, hcov⟩ := free_chunk fuel
    { h with sz := h.sz + chunk nu, room := h.room - chunk nu } (m := max nu 4096) hf hbound
    hbase rfl rfl rfl (by omega) (show h.sz + chunk nu < _ by omega) hfuel
  rw [morecore_eq hnu, if_pos hroom, hfree, Option.map_some]
  refine ⟨h', L', rfl, ⟨hf', hsub, hptr, hsize, ?_, ?_, fun y => ?_⟩, hsz⟩
  · rw [hsz]
    exact Nat.le_add_right _ _
  · rw [hsz, hr]
    show h.sz + chunk nu + (h.room - chunk nu) = _
    omega
  · rw [hcov, hsz]
    rfl

/-! ## `malloc` -/

theorem nunits_pos (n : UInt32) : 0 < nunits n := Nat.succ_pos _

/-- The request is met from the list, or from the list after it has grown, or it fails with
no block large enough and no memory left. -/
theorem mallocLoop_spec (fuel : ℕ) (hf : FreeList base h L) (hpos : 0 < base)
    (hbound : ∀ a ∈ L, h.stop a ≤ h.sz) (hbase : base < h.sz)
    (hmem : h.sz + h.room < 68719476736) (hnu : 0 < nu) (hnu' : nu < 134217728)
    (hfuel : 2 * L.length + 2 < fuel) :
    (∀ a ∈ L, h.size a < nu) ∧ h.room < chunk nu ∧
      mallocLoop shared fuel h nu h.freep (h.ptr h.freep) = some (.returned h 0) ∨
    ∃ h' L', Grown base h L h' L' ∧ (h' ≠ h → ∀ a ∈ L, h.size a < nu) ∧
      ∃ P prev x Q A, base :: L' = P ++ prev :: x :: Q ∧ nu ≤ h'.size x ∧
        Trail h'.ptr h'.freep A x ∧ (∀ a ∈ A, h'.size a < nu) ∧
        mallocLoop shared fuel h nu h.freep (h.ptr h.freep) = some (take h' nu prev x) := by
  by_cases hfit : ∃ a ∈ L, nu ≤ h.size a
  · right
    exact ⟨h, L, .refl hf, fun hne => absurd rfl hne, hf.fit shared fuel hnu hfit (by omega)⟩
  · have hnone : ∀ a ∈ L, h.size a < nu := fun a ha =>
      not_le.mp fun hle => hfit ⟨a, ha, hle⟩
    obtain ⟨k, rfl⟩ : ∃ k, fuel = k + 1 + L.length := ⟨fuel - L.length - 1, by omega⟩
    rw [hf.no_fit hnu hnone]
    by_cases hroom : chunk nu ≤ h.room
    · right
      obtain ⟨h', L', hmore, hgrown, hsz⟩ :=
        morecore_spec k hf hbound hbase hmem hnu' (by omega) hroom
      have hfreep : h'.freep ≠ 0 := (hpos.trans_le (hgrown.free.base_le hgrown.free.freep)).ne'
      have hchunk : 16 * nu ≤ chunk nu := by
        unfold chunk
        omega
      refine ⟨h', L', hgrown, fun _ => hnone, ?_⟩
      obtain ⟨P, prev, x, Q, A, heq, hx, hA, hsmall, hloop⟩ := hgrown.free.fit_run shared k hnu
        hgrown.subset (fun y h1 h2 => (hgrown.cover y).mpr (.inl ⟨h1, by omega⟩)) (by omega)
      refine ⟨P, prev, x, Q, A, heq, hx, hA, hsmall, ?_⟩
      rw [hmore]
      obtain ⟨m, hm⟩ := Nat.exists_eq_succ_of_ne_zero hfreep
      rw [← hloop]
      simp only [hm]
    · left
      refine ⟨hnone, not_le.mp hroom, ?_⟩
      rw [morecore_eq hnu', if_neg hroom]
      rfl

end XV6AndConcurrency.UserHeap
