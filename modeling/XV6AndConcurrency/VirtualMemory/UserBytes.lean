import XV6AndConcurrency.VirtualMemory.Isolation

/-!
# What copyout delivers

`copyout` as the process itself sees it. The bytes arrive one after the other up to the
first page that is not open to the user; those in front of it stay written when the call
returns -1. Which pages are open never changes on the way.
-/

namespace XV6AndConcurrency.VirtualMemory

open Foundations

variable {L : Layout} {k k' : Kernel} {roots : Finset ℕ} {held : ℕ → ℕ}
  {r a n off sz va dstva fuel : ℕ} {T : Finset ℕ} {bs src : List Byte} {killed : Bool}

instance (k : Kernel) (r v : ℕ) : Decidable (Open k r v) :=
  inferInstanceAs (Decidable (_ ∧ _ ∧ _))

/-! ## Writing into a partial memory -/

/-- The bytes `bs` at the addresses from `a` on, and what was there elsewhere. -/
def overlay (f : ℕ → Option Byte) (a : ℕ) (bs : List Byte) : ℕ → Option Byte := fun va =>
  if a ≤ va ∧ va < a + bs.length then bs[va - a]? else f va

@[simp] theorem overlay_nil (f : ℕ → Option Byte) (a : ℕ) : overlay f a [] = f := by
  funext va
  exact if_neg (by simp)

theorem overlay_append (f : ℕ → Option Byte) (a : ℕ) (bs bs' : List Byte) :
    overlay (overlay f a bs) (a + bs.length) bs' = overlay f a (bs ++ bs') := by
  funext va
  simp only [overlay, List.length_append]
  rcases lt_or_ge va (a + bs.length) with hlt | hge
  · rw [if_neg (by omega)]
    by_cases hle : a ≤ va
    · rw [if_pos ⟨hle, hlt⟩, if_pos ⟨hle, by omega⟩, List.getElem?_append_left (by omega)]
    · rw [if_neg fun h => hle h.1, if_neg fun h => hle h.1]
  · by_cases hlt' : va < a + bs.length + bs'.length
    · rw [if_pos ⟨hge, hlt'⟩, if_pos ⟨by omega, by omega⟩, List.getElem?_append_right (by omega),
        Nat.sub_sub]
    · rw [if_neg fun h => hlt' h.2, if_neg (by omega), if_neg (by omega)]

@[simp] theorem overlay_singleton (f : ℕ → Option Byte) (a : ℕ) (b : Byte) :
    overlay f a [b] a = some b := by
  simp [overlay]

theorem overlay_of_not_mem (f : ℕ → Option Byte) (h : va < a ∨ a + bs.length ≤ va) :
    overlay f a bs va = f va := if_neg (by omega)

/-! ## How many bytes get through -/

/-- Of `n` bytes from `va` on, those in front of the first one on a page that is not open. -/
def delivered (k : Kernel) (r : ℕ) : ℕ → ℕ → ℕ
  | _, 0 => 0
  | va, n + 1 => if Open k r (va / 4096) then delivered k r (va + 1) n + 1 else 0

/-- Everything gets through when every page on the way is open. -/
theorem delivered_eq_iff : delivered k r va n = n ↔ ∀ i < n, Open k r ((va + i) / 4096) := by
  induction n generalizing va with
  | zero => simp [delivered]
  | succ n ih =>
    unfold delivered
    constructor
    · intro h i hi
      split_ifs at h with hopen
      cases i with
      | zero => exact hopen
      | succ i =>
        have hnext := (@ih (va + 1)).mp (by omega) i (by omega)
        rwa [show va + 1 + i = va + (i + 1) by omega] at hnext
    · intro h
      have hopen : Open k r (va / 4096) := h 0 (by omega)
      rw [if_pos hopen, ih.mpr]
      intro i hi
      rw [show va + 1 + i = va + (i + 1) by omega]
      exact h (i + 1) (by omega)

theorem delivered_eq_zero_iff (hn : 0 < n) : delivered k r va n = 0 ↔ ¬ Open k r (va / 4096) := by
  obtain ⟨n, rfl⟩ := Nat.exists_eq_succ_of_ne_zero hn.ne'
  unfold delivered
  split_ifs with hopen <;> simp [hopen]

theorem delivered_congr (h : ∀ v, Open k' r v ↔ Open k r v) (va n : ℕ) :
    delivered k' r va n = delivered k r va n := by
  induction n generalizing va with
  | zero => rfl
  | succ n ih =>
    unfold delivered
    rw [ih]
    simp only [h]

/-- On an open page the count goes on to the next one. -/
theorem delivered_page {m : ℕ} (hopen : Open k r (va / 4096)) (hm : va % 4096 + m ≤ 4096) :
    delivered k r va (m + n) = m + delivered k r (va + m) n := by
  induction m generalizing va with
  | zero => simp
  | succ m ih =>
    have hstep : delivered k r va (m + 1 + n) = delivered k r (va + 1) (m + n) + 1 := by
      rw [show m + 1 + n = m + n + 1 by omega]
      exact if_pos hopen
    rw [hstep]
    cases m with
    | zero => simp; omega
    | succ m =>
      have hsame : (va + 1) / 4096 = va / 4096 := by omega
      rw [ih (by rwa [hsame]) (by omega), show va + 1 + (m + 1) = va + (m + 1 + 1) by omega]
      omega

/-! ## One page -/

/-- A round of the loop puts its bytes into the memory that the process sees. -/
theorem PageBytes.userLoad (hd : PageDone L k k' roots held r a off bs)
    (hp : PageBytes k k' r a off bs) (hr : r ∈ roots) (hs : Shape k.mem r n T)
    (hopen : Open k r a) (hfit : off + bs.length ≤ 4096) :
    userLoad k' r = overlay (userLoad k r) (a * 4096 + off) bs := by
  funext va
  have hacc : va < maxva → SameAccess (leaf k.mem r (va / 4096)) (leaf k'.mem r (va / 4096)) :=
    fun hva => hd.wrote.access hr hr (lt_vpnLimit_of_lt_maxva hva)
  by_cases hva : va < maxva
  · have hv := (hacc hva).valid
    have hrd := (hacc hva).readable
    have hu := (hacc hva).user
    have hvl := lt_vpnLimit_of_lt_maxva hva
    by_cases hpage : va / 4096 = a
    · have hval := (hs.valid a (hpage ▸ hvl)).mpr (.inl (hopen.lt hs))
      have hread := hs.readable a (hpage ▸ hvl) hval
      simp only [VirtualMemory.userLoad, translate, hva, if_true, hv, hrd, hu, overlay]
      rw [hpage, hp.here, hval, hread, hopen.2.2]
      simp only [Bool.and_self, if_true, Memory.putBytes, true_and]
      by_cases hin : a * 4096 + off ≤ va ∧ va < a * 4096 + off + bs.length
      · rw [if_pos hin, if_pos (by omega), show va - (a * 4096 + off) = va % 4096 - off by omega,
          List.getElem?_eq_getElem (by omega), Option.getD_some]
      · rw [if_neg hin]
        split_ifs with hle
        · rw [List.getElem?_eq_none (by omega), Option.getD_none]
        · rfl
    · rw [overlay_of_not_mem _ (by omega)]
      simp only [VirtualMemory.userLoad, translate, hva, if_true, hv, hrd, hu]
      split_ifs with hc
      · simp only [Bool.and_eq_true] at hc
        have hlt := (hs.lt_of_user hvl hc.1.1 hc.1.2).trans_le hs.le
        rw [hd.later _ hlt hpage, hp.there _ hlt hpage _ ⟨hc.1.1, rfl⟩]
      · rfl
  · have hno : ∀ k : Kernel, VirtualMemory.userLoad k r va = none := by
      intro k
      simp [VirtualMemory.userLoad, translate, hva]
    have hmax := hopen.1
    rw [maxva_eq] at hmax hva
    rw [overlay_of_not_mem _ (by omega), hno, hno]

/-! ## The whole call -/

/-- One of the `len` bytes from `dstva` on lies on the page `v`. -/
def InRange (dstva len v : ℕ) : Prop := 0 < len ∧ dstva / 4096 ≤ v ∧ v * 4096 < dstva + len

/-- The loop delivers the bytes in front of the first page that is not open. -/
theorem copyoutLoop_delivers (h : Coherent L k roots held) (hr : r ∈ roots)
    (hs : Shape k.mem r n T) (hsz : ∀ v, InRange dstva src.length v → Open k r v → v * 4096 < sz)
    (hfuel : src.length ≤ fuel) :
    Ensures (copyoutLoop L r sz fuel dstva src killed) (fun res k' =>
      (res.1 = true ↔ delivered k r dstva src.length = src.length) ∧
      (∀ v, Open k' r v ↔ Open k r v) ∧
      userLoad k' r = overlay (userLoad k r) dstva
        (src.take (delivered k r dstva src.length))) k := by
  induction fuel generalizing k dstva src killed with
  | zero =>
    obtain rfl := List.eq_nil_of_length_eq_zero (Nat.le_zero.mp hfuel)
    exact .of_run copyoutLoop_nil (by simp [delivered])
  | succ fuel ih =>
    by_cases hsrc : src = []
    · subst hsrc
      exact .of_run copyoutLoop_nil (by simp [delivered])
    have hpos := List.length_pos_of_ne_nil hsrc
    by_cases ho : Open k r (dstva / 4096)
    · obtain ⟨k2, kd, hd, hp, hrun⟩ := copyoutLoop_page h hr hs
        (hsz _ ⟨hpos, le_rfl, by omega⟩ ho) ho (src.take (4096 - dstva % 4096))
      have hlt : dstva % 4096 < 4096 := Nat.mod_lt _ (by decide)
      have hview := hp.userLoad hd hr hs ho (by rw [List.length_take]; omega)
      rw [Nat.div_add_mod' dstva 4096] at hview
      have hopen2 : ∀ v, Open k2 r v ↔ Open k r v := by
        intro v
        by_cases hv : v * 4096 < maxva
        · have hacc := hd.wrote.access hr hr
            (@lt_vpnLimit_of_lt_maxva (v * 4096) hv)
          rw [Nat.mul_div_cancel v (by decide)] at hacc
          unfold Open
          rw [hacc.valid, hacc.user]
        · simp [Open, hv]
      have hdrop : (src.drop (4096 - dstva % 4096)).length =
          src.length - (4096 - dstva % 4096) := List.length_drop
      obtain ⟨res, k3, hrun3, hres, hopen3, hview3⟩ :=
        @ih k2 ((dstva / 4096 + 1) * 4096) (src.drop (4096 - dstva % 4096)) (killed || kd)
          hd.coherent (hs.wrote hd.wrote hr)
          (fun v hv ho2 => hsz v (by unfold InRange at hv ⊢; omega) ((hopen2 v).mp ho2))
          (by rw [hdrop]; omega)
      refine ⟨res, k3, (hrun fuel src killed hsrc rfl).trans hrun3, ?_⟩
      rw [delivered_congr hopen2, hdrop] at hres hview3
      rw [hview] at hview3
      -- either the bytes end on this page, or the next round goes on at the next one
      rcases le_or_gt src.length (4096 - dstva % 4096) with hshort | hlong
      · have hall := delivered_page (n := 0) ho (by omega : dstva % 4096 + src.length ≤ 4096)
        have hrest : src.drop (4096 - dstva % 4096) = [] := List.drop_eq_nil_of_le hshort
        rw [Nat.sub_eq_zero_of_le hshort] at hres
        rw [hrest, List.take_nil, overlay_nil, List.take_of_length_le hshort] at hview3
        rw [show delivered k r dstva src.length = src.length from hall]
        exact ⟨by simpa [delivered] using hres, fun v => (hopen3 v).trans (hopen2 v), by
          rw [hview3, List.take_length]⟩
      · have hnext : dstva + (4096 - dstva % 4096) = (dstva / 4096 + 1) * 4096 := by omega
        have hsplit := delivered_page (m := 4096 - dstva % 4096)
          (n := src.length - (4096 - dstva % 4096)) ho (by omega)
        rw [Nat.add_sub_cancel' hlong.le, hnext] at hsplit
        have htake : (src.take (4096 - dstva % 4096)).length = 4096 - dstva % 4096 := by
          rw [List.length_take]
          omega
        rw [hsplit]
        refine ⟨by rw [hres]; omega, fun v => (hopen3 v).trans (hopen2 v), ?_⟩
        have happend := overlay_append (userLoad k r) dstva (src.take (4096 - dstva % 4096))
        rw [htake, hnext] at happend
        rw [hview3, happend, List.take_add]
    · have hzero := (delivered_eq_zero_iff hpos).mpr ho
      refine .of_run (copyoutLoop_closed hsrc ho) ?_
      rw [hzero]
      simp
      omega

/-- `copyout` succeeds exactly if every byte goes to an open page, and delivers what
precedes the first one that does not. -/
theorem copyout_delivers (h : Coherent L k roots held) (hr : r ∈ roots) (hs : Shape k.mem r n T)
    (hsz : ∀ x < n, x * 4096 < sz) : Ensures (copyout L r sz dstva src) (fun res k' =>
    (Coherent L k' roots held ∧ Shape k'.mem r n T ∧ Wrote k k' roots held r) ∧
      (res.1 = true ↔ delivered k r dstva src.length = src.length) ∧
      (∀ v, Open k' r v ↔ Open k r v) ∧
      userLoad k' r = overlay (userLoad k r) dstva
        (src.take (delivered k r dstva src.length))) k :=
  (copyout_spec h hr hs).and
    (copyoutLoop_delivers h hr hs (fun v _ ho => hsz v (ho.lt hs)) le_rfl)

end XV6AndConcurrency.VirtualMemory
