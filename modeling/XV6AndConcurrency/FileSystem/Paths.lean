import XV6AndConcurrency.FileSystem.Directories
import XV6AndConcurrency.Foundations.Runs
import Mathlib.Data.List.GetD

/-!
# Paths

`skipelem` and `namex`. A path is the string that is left of it. What `namex` does to inodes
goes through the functions of the file system, which may do anything to its state, and other
processes with them.
-/

namespace XV6AndConcurrency.FileSystem

open Foundations

/-- The character `/`. -/
def slash : Byte := 47

def isSlash (c : Byte) : Bool := c == slash

/-- The bytes from the pointer `name` on, after `memmove(name, s, n)`. -/
def putName (name : ℤ → Byte) (s : List Byte) (n : ℕ) : ℤ → Byte :=
  fun i => if 0 ≤ i ∧ i < n then s.getD i.toNat 0 else name i

/-- `skipelem`: the returned pointer and the buffer `name`; `none` for the pointer 0. -/
def skipelem (path : List Byte) (name : ℤ → Byte) : Option (List Byte × (ℤ → Byte)) :=
  let s := path.dropWhile isSlash
  if s = [] then none
  else
    let path := s.dropWhile fun c => !isSlash c
    let len := wrap32 (s.length - path.length)
    let name :=
      if dirsiz ≤ len then putName name s dirsiz
      else Function.update (putName name s (len % 4294967296).toNat) len 0
    some (path.dropWhile isSlash, name)

/-- The elements of a path. -/
def elements (path : List Byte) : List (List Byte) := runs isSlash path

theorem skipelem_length_lt {path rest : List Byte} {name name' : ℤ → Byte}
    (h : skipelem path name = some (rest, name')) : rest.length < path.length := by
  unfold skipelem at h
  dsimp only at h
  split_ifs at h with hnil <;>
  · obtain ⟨rfl, -⟩ := Prod.mk.inj (Option.some.inj h)
    have hlt := length_rest_lt (List.dropWhile_idempotent (p := isSlash) (l := path)) hnil
    have hle := (List.dropWhile_sublist isSlash (l := path)).length_le
    have hle' := (List.dropWhile_sublist isSlash
      (l := (path.dropWhile isSlash).dropWhile fun c => !isSlash c)).length_le
    exact (hle'.trans_lt hlt).trans_le hle

/-- What repeated calls of `skipelem` return, until it returns 0. -/
def skipelems (path : List Byte) (name : ℤ → Byte) : List (List Byte × (ℤ → Byte)) :=
  match _ : skipelem path name with
  | none => []
  | some r => r :: skipelems r.1 r.2
termination_by path.length
decreasing_by exact skipelem_length_lt (by assumption)

/-! ## namex -/

/-- A string in a buffer, from its first byte on. -/
def readName (name : ℤ → Byte) : ℕ → Byte := fun i => name i

/-- The functions on inodes that `namex` calls, with any effects. -/
structure InodeCalls (m : Type → Type) (ι : Type) where
  /-- `iget(ROOTDEV, ROOTINO)`. -/
  root : m ι
  /-- `idup(myproc()->cwd)`. -/
  cwd : m ι
  ilock : ι → m Unit
  /-- `ip->type == T_DIR`. -/
  isDir : ι → m Bool
  dirlookup : ι → (ℕ → Byte) → m (Option ι)
  iunlock : ι → m Unit
  iunlockput : ι → m Unit
  iput : ι → m Unit
  /-- Names are compared by `namecmp`. -/
  dirlookup_congr : ∀ (ip : ι) {s t : ℕ → Byte}, nameKey s = nameKey t →
    dirlookup ip s = dirlookup ip t

variable {m : Type → Type} [Monad m] {ι : Type} (calls : InodeCalls m ι)

/-- The loop of `namex`, and what follows it. -/
def namexLoop (nameiparent : Bool) (path : List Byte) (name : ℤ → Byte) (ip : ι) :
    m (Option ι × (ℤ → Byte)) :=
  match _ : skipelem path name with
  | none =>
    if nameiparent then do
      calls.iput ip
      pure (none, name)
    else pure (some ip, name)
  | some r => do
    calls.ilock ip
    if ¬ (← calls.isDir ip) then
      calls.iunlockput ip
      pure (none, r.2)
    else if nameiparent ∧ r.1 = [] then
      -- stop one level early
      calls.iunlock ip
      pure (some ip, r.2)
    else
      match ← calls.dirlookup ip (readName r.2) with
      | none =>
        calls.iunlockput ip
        pure (none, r.2)
      | some next =>
        calls.iunlockput ip
        namexLoop nameiparent r.1 r.2 next
termination_by path.length
decreasing_by exact skipelem_length_lt (by assumption)

/-- The inode at which a path starts. -/
def start (path : List Byte) : m ι :=
  if path.head? = some slash then calls.root else calls.cwd

/-- `namex`: the returned inode and the buffer `name`. -/
def namex (path : List Byte) (nameiparent : Bool) (name : ℤ → Byte) :
    m (Option ι × (ℤ → Byte)) := do
  let ip ← start calls path
  namexLoop calls nameiparent path name ip

/-! ## What they do -/

/-- The buffer `name` with an element: cut off at `DIRSIZ`, and with a NUL if it is
shorter. -/
def setName (name : ℤ → Byte) (e : List Byte) : ℤ → Byte :=
  fun i => if 0 ≤ i ∧ i < dirsiz ∧ i ≤ e.length then e.getD i.toNat 0 else name i

/-- Going down a list of names. -/
def resolve : List (List Byte) → ι → m (Option ι)
  | [], ip => pure (some ip)
  | e :: es, ip => do
    calls.ilock ip
    if ← calls.isDir ip then
      match ← calls.dirlookup ip fun i => e.getD i 0 with
      | none =>
        calls.iunlockput ip
        pure none
      | some next =>
        calls.iunlockput ip
        resolve es next
    else
      calls.iunlockput ip
      pure none

/-- The directory that all names but the last lead to, and the last. -/
def resolveParent (names : List (List Byte)) (ip : ι) : m (Option (ι × List Byte)) :=
  match names.getLast? with
  | none => do
    calls.iput ip
    pure none
  | some last => do
    match ← resolve calls names.dropLast ip with
    | none => pure none
    | some dp =>
      calls.ilock dp
      if ← calls.isDir dp then
        calls.iunlock dp
        pure (some (dp, last))
      else
        calls.iunlockput dp
        pure none

/-! ## One element -/

variable {path e : List Byte} {es : List (List Byte)} {name : ℤ → Byte}

theorem skipelem_eq_none (h : elements path = []) : skipelem path name = none := by
  unfold skipelem
  rw [if_pos (runs_eq_nil.mp h)]

/-- The two ways to store an element agree on what they store. -/
theorem store_eq (name : ℤ → Byte) (e r : List Byte) (he : e.length < 2147483648) :
    (if (dirsiz : ℤ) ≤ e.length then putName name (e ++ r) dirsiz
      else Function.update (putName name (e ++ r) ((e.length : ℤ) % 4294967296).toNat) e.length 0) =
    setName name e := by
  have hcount : ((e.length : ℤ) % 4294967296).toNat = e.length := by omega
  rw [hcount]
  funext i
  unfold setName
  split_ifs with hlong hin hin
  · unfold putName
    rw [if_pos ⟨hin.1, hin.2.1⟩, List.getD_append _ _ _ _ (by omega)]
  · unfold putName
    rw [if_neg (by omega)]
  · by_cases hend : i = e.length
    · subst hend
      rw [Function.update_self, Int.toNat_natCast, List.getD_eq_default _ _ le_rfl]
    · unfold putName
      rw [Function.update_of_ne hend, if_pos (by omega), List.getD_append _ _ _ _ (by omega)]
  · have hend : i ≠ e.length := by omega
    unfold putName
    rw [Function.update_of_ne hend, if_neg (by omega)]

theorem skipelem_eq_some (name : ℤ → Byte) (hlen : path.length < 2147483648)
    (h : elements path = e :: es) :
    ∃ rest, skipelem path name = some (rest, setName name e) ∧ elements rest = es ∧
      (rest = [] ↔ es = []) ∧ rest.length ≤ path.length := by
  have hhead : (path.dropWhile isSlash).dropWhile isSlash = path.dropWhile isSlash :=
    List.dropWhile_idempotent ..
  have hne : path.dropWhile isSlash ≠ [] := by
    intro hnil
    rw [elements, runs_eq_nil.mpr hnil] at h
    exact absurd h (List.cons_ne_nil _ _).symm
  have hle := (List.dropWhile_sublist isSlash (l := path)).length_le
  unfold skipelem
  dsimp only
  rw [if_neg hne]
  unfold elements at h ⊢
  rw [← runs_dropWhile, runs_eq_cons hhead hne] at h
  obtain ⟨rfl, rfl⟩ := List.cons.inj h
  set s := path.dropWhile isSlash with hs
  have hsplit := List.takeWhile_append_dropWhile (p := fun c => !isSlash c) (l := s)
  have hlens := congrArg List.length hsplit
  rw [List.length_append] at hlens
  have hrest : (s.dropWhile fun c => !isSlash c).length < s.length := length_rest_lt hhead hne
  have hle' := (List.dropWhile_sublist isSlash
    (l := s.dropWhile fun c => !isSlash c)).length_le
  have hwrap : wrap32 (s.length - (s.dropWhile fun c => !isSlash c).length) =
      (s.takeWhile fun c => !isSlash c).length := by
    rw [wrap32_of_range] <;> omega
  refine ⟨(s.dropWhile fun c => !isSlash c).dropWhile isSlash, ?_, runs_dropWhile .., ?_, by omega⟩
  · rw [hwrap]
    refine congrArg some (Prod.ext rfl ?_)
    dsimp only
    have hstore := store_eq name (s.takeWhile fun c => !isSlash c)
      (s.dropWhile fun c => !isSlash c) (by omega)
    rwa [hsplit] at hstore
  · rw [← runs_eq_nil]

/-- Reading a stored element back. -/
theorem nameKey_setName (he : ∀ c ∈ e, c ≠ 0) :
    nameKey (readName (setName name e)) = e.take dirsiz := by
  apply cstr_eq_take he
  intro i hi hle
  unfold readName setName
  rw [if_pos (by omega), Int.toNat_natCast]

theorem nameKey_take (he : ∀ c ∈ e, c ≠ 0) :
    nameKey (fun i => (e.take dirsiz).getD i 0) = e.take dirsiz := by
  have h := cstr_eq_take (n := dirsiz) (e := e.take dirsiz)
    (fun c hc => he c (List.mem_of_mem_take hc)) (fun _ _ _ => rfl)
  rwa [List.take_take, min_self] at h

/-! ## All elements -/

theorem skipelems_of_none (h : skipelem path name = none) : skipelems path name = [] := by
  rw [skipelems]
  split
  · rfl
  · rename_i hsome
    exact absurd (h.symm.trans hsome) (by simp)

theorem skipelems_of_some {r : List Byte × (ℤ → Byte)} (h : skipelem path name = some r) :
    skipelems path name = r :: skipelems r.1 r.2 := by
  rw [skipelems]
  split
  · rename_i hnone
    exact absurd (h.symm.trans hnone) (by simp)
  · rename_i r' hsome
    obtain rfl := Option.some.inj (hsome.symm.trans h)
    rfl

/-- The buffers that repeated calls of `skipelem` leave, byte by byte. -/
theorem skipelems_buffers (hlen : path.length < 2147483648) :
    (skipelems path name).map Prod.snd = ((elements path).scanl setName name).tail := by
  induction hes : elements path generalizing path name with
  | nil => rw [skipelems_of_none (skipelem_eq_none hes)]; rfl
  | cons e es ih =>
    obtain ⟨rest, hskip, hrest, -, hle⟩ := skipelem_eq_some name hlen hes
    rw [skipelems_of_some hskip, List.map_cons, ih (by omega) hrest]
    cases es <;> simp

/-- The returned pointer designates an empty string with the last element only. -/
theorem skipelems_last (hlen : path.length < 2147483648) {i : ℕ} {r : List Byte × (ℤ → Byte)}
    (hr : (skipelems path name)[i]? = some r) : r.1 = [] ↔ i + 1 = (elements path).length := by
  induction hes : elements path generalizing path name i with
  | nil =>
    rw [skipelems_of_none (skipelem_eq_none hes)] at hr
    exact absurd hr (by simp)
  | cons e es ih =>
    obtain ⟨rest, hskip, hrest, hlast, hle⟩ := skipelem_eq_some name hlen hes
    rw [skipelems_of_some hskip] at hr
    cases i with
    | zero =>
      obtain rfl := Option.some.inj hr
      rw [hlast, List.length_cons, ← List.length_eq_zero_iff]
      omega
    | succ i =>
      rw [ih (by omega) (by simpa using hr) hrest, List.length_cons]
      omega

theorem skipelems_names (hlen : path.length < 2147483648)
    (helem : ∀ e ∈ elements path, ∀ c ∈ e, c ≠ 0) :
    (skipelems path name).map (fun r => nameKey (readName r.2)) =
      (elements path).map (List.take dirsiz) := by
  induction hes : elements path generalizing path name with
  | nil => rw [skipelems_of_none (skipelem_eq_none hes)]; rfl
  | cons e es ih =>
    obtain ⟨rest, hskip, hrest, -, hle⟩ := skipelem_eq_some name hlen hes
    rw [hes] at helem
    rw [skipelems_of_some hskip, List.map_cons, List.map_cons,
      nameKey_setName (helem e List.mem_cons_self), ih (by omega) ?_ hrest]
    rw [hrest]
    exact fun e' he' => helem e' (List.mem_cons_of_mem _ he')

/-! ## Resolving -/

variable {calls} {nameiparent : Bool} {ip : ι}

theorem namexLoop_of_none (h : skipelem path name = none) :
    namexLoop calls nameiparent path name ip =
      if nameiparent then do
        calls.iput ip
        pure (none, name)
      else pure (some ip, name) := by
  rw [namexLoop]
  split
  · rfl
  · rename_i hsome
    exact absurd (h.symm.trans hsome) (by simp)

theorem namexLoop_of_some {r : List Byte × (ℤ → Byte)} (h : skipelem path name = some r) :
    namexLoop calls nameiparent path name ip = (do
      calls.ilock ip
      if ¬ (← calls.isDir ip) then
        calls.iunlockput ip
        pure (none, r.2)
      else if nameiparent ∧ r.1 = [] then
        calls.iunlock ip
        pure (some ip, r.2)
      else
        match ← calls.dirlookup ip (readName r.2) with
        | none =>
          calls.iunlockput ip
          pure (none, r.2)
        | some next =>
          calls.iunlockput ip
          namexLoop calls nameiparent r.1 r.2 next) := by
  rw [namexLoop]
  split
  · rename_i hnone
    exact absurd (h.symm.trans hnone) (by simp)
  · rename_i r' hsome
    obtain rfl := Option.some.inj (hsome.symm.trans h)
    rfl

variable [LawfulMonad m]

/-- Without stopping early, all elements are resolved. -/
theorem namexLoop_false (hlen : path.length < 2147483648)
    (helem : ∀ e ∈ elements path, ∀ c ∈ e, c ≠ 0) :
    Prod.fst <$> namexLoop calls false path name ip =
      resolve calls ((elements path).map (List.take dirsiz)) ip := by
  induction hes : elements path generalizing path name ip with
  | nil =>
    rw [namexLoop_of_none (skipelem_eq_none hes)]
    simp [resolve]
  | cons e es ih =>
    obtain ⟨rest, hskip, hrest, -, hle⟩ := skipelem_eq_some name hlen hes
    rw [hes] at helem
    have hchars := helem e List.mem_cons_self
    rw [namexLoop_of_some hskip, List.map_cons, resolve, map_bind]
    refine bind_congr fun _ => ?_
    rw [map_bind]
    refine bind_congr fun d => ?_
    cases d with
    | false => simp
    | true =>
      rw [calls.dirlookup_congr ip ((nameKey_setName hchars).trans (nameKey_take hchars).symm)]
      simp only [not_true_eq_false, if_false, Bool.false_eq_true, false_and, if_true, map_bind]
      refine bind_congr fun next => ?_
      cases next with
      | none => simp
      | some next =>
        rw [map_bind]
        refine bind_congr fun _ => ?_
        rw [ih (by omega) ?_ hrest]
        rw [hrest]
        exact fun e' he' => helem e' (List.mem_cons_of_mem _ he')

theorem resolveParent_cons_cons (a b : List Byte) (l : List (List Byte)) (ip : ι) :
    resolveParent calls (a :: b :: l) ip = (do
      calls.ilock ip
      if ← calls.isDir ip then
        match ← calls.dirlookup ip fun i => a.getD i 0 with
        | none =>
          calls.iunlockput ip
          pure none
        | some next =>
          calls.iunlockput ip
          resolveParent calls (b :: l) next
      else
        calls.iunlockput ip
        pure none) := by
  obtain ⟨last, hlast⟩ : ∃ last, (b :: l).getLast? = some last :=
    ⟨_, List.getLast?_eq_some_getLast (List.cons_ne_nil _ _)⟩
  simp only [resolveParent, List.getLast?_cons_cons, hlast, List.dropLast_cons_cons, resolve,
    bind_assoc]
  refine bind_congr fun _ => bind_congr fun d => ?_
  cases d with
  | false => simp
  | true =>
    simp only [if_true, bind_assoc]
    refine bind_congr fun next => ?_
    cases next <;> simp

/-- The result of `nameiparent`: the inode, and the name as it can be read. -/
def parentResult (r : Option ι × (ℤ → Byte)) : Option (ι × List Byte) :=
  r.1.map fun ip => (ip, nameKey (readName r.2))

/-- Stopping early, all elements but the last are resolved. -/
theorem namexLoop_true (hlen : path.length < 2147483648)
    (helem : ∀ e ∈ elements path, ∀ c ∈ e, c ≠ 0) :
    parentResult <$> namexLoop calls true path name ip =
      resolveParent calls ((elements path).map (List.take dirsiz)) ip := by
  induction hes : elements path generalizing path name ip with
  | nil =>
    rw [namexLoop_of_none (skipelem_eq_none hes)]
    simp [resolveParent, parentResult]
  | cons e es ih =>
    obtain ⟨rest, hskip, hrest, hlast, hle⟩ := skipelem_eq_some name hlen hes
    rw [hes] at helem
    have hchars := helem e List.mem_cons_self
    rw [namexLoop_of_some hskip, List.map_cons]
    cases es with
    | nil =>
      have hdrop : [e.take dirsiz].dropLast = [] := rfl
      simp only [resolveParent, List.map_nil, List.getLast?_singleton, hdrop, resolve, pure_bind,
        map_bind]
      refine bind_congr fun _ => bind_congr fun d => ?_
      cases d with
      | false => simp [parentResult]
      | true => simp [parentResult, hlast, nameKey_setName hchars]
    | cons e' es =>
      have hmore : rest ≠ [] := fun hnil => List.cons_ne_nil _ _ (hlast.mp hnil)
      rw [List.map_cons, resolveParent_cons_cons, map_bind]
      refine bind_congr fun _ => ?_
      rw [map_bind]
      refine bind_congr fun d => ?_
      cases d with
      | false => simp [parentResult]
      | true =>
        rw [calls.dirlookup_congr ip ((nameKey_setName hchars).trans (nameKey_take hchars).symm)]
        simp only [not_true_eq_false, if_false, hmore, and_false, if_true, map_bind]
        refine bind_congr fun next => ?_
        cases next with
        | none => simp [parentResult]
        | some next =>
          rw [map_bind]
          refine bind_congr fun _ => ?_
          rw [ih (by omega) ?_ hrest, List.map_cons]
          rw [hrest]
          exact fun e'' he' => helem e'' (List.mem_cons_of_mem _ he')

/-- Repeated calls of `skipelem` give the elements of a path, cut off at `DIRSIZ`; `namex` with
`nameiparent` resolves all of them but the last, and leaves the last in `name`. -/
theorem paths_split_into_elements (calls : InodeCalls m ι) (path : List Byte) (name : ℤ → Byte)
    (hpath : ∀ c ∈ path, c ≠ 0) (hlen : path.length < 2147483648) :
    (skipelems path name).map Prod.snd = ((elements path).scanl setName name).tail ∧
    (skipelems path name).map (fun r => nameKey (readName r.2)) =
      (elements path).map (List.take dirsiz) ∧
    (∀ i r, (skipelems path name)[i]? = some r → (r.1 = [] ↔ i + 1 = (elements path).length)) ∧
    parentResult <$> namex calls path true name = (do
      let ip ← start calls path
      resolveParent calls ((elements path).map (List.take dirsiz)) ip) := by
  have helem : ∀ e ∈ elements path, ∀ c ∈ e, c ≠ 0 :=
    fun e he c hc => hpath c ((mem_runs he).2 c hc).2
  refine ⟨skipelems_buffers hlen, skipelems_names hlen helem, fun i r => skipelems_last hlen, ?_⟩
  unfold namex
  rw [map_bind]
  exact bind_congr fun ip => namexLoop_true hlen helem

/-- `namei` resolves all elements. -/
theorem namei_resolves (calls : InodeCalls m ι) (path : List Byte) (name : ℤ → Byte)
    (hpath : ∀ c ∈ path, c ≠ 0) (hlen : path.length < 2147483648) :
    Prod.fst <$> namex calls path false name = (do
      let ip ← start calls path
      resolve calls ((elements path).map (List.take dirsiz)) ip) := by
  unfold namex
  rw [map_bind]
  refine bind_congr fun ip => namexLoop_false hlen ?_
  exact fun e he c hc => hpath c ((mem_runs he).2 c hc).2

/-! ## On the disk -/

/-- `dirlookup` looks at its name through `namecmp` only. -/
theorem dirlookup_congr {sb : Superblock} {search : Fs → Option ℕ} {s t : ℕ → Byte}
    (h : nameKey s = nameKey t) (dp : Dinode) :
    dirlookup sb search dp s = dirlookup sb search dp t := by
  have hcmp : ∀ q, namecmp s q = 0 ↔ namecmp t q = 0 := by
    intro q
    rw [namecmp, namecmp, strncmp_eq_zero, strncmp_eq_zero]
    change nameKey s = _ ↔ nameKey t = _
    rw [h]
  have hloop : ∀ fuel dp off,
      dirlookupLoop sb search s fuel dp off = dirlookupLoop sb search t fuel dp off := by
    intro fuel
    induction fuel with
    | zero => exact fun _ _ => rfl
    | succ fuel ih =>
      intro dp off
      simp only [dirlookupLoop, hcmp, ih]
  unfold dirlookup
  rw [hloop]

/-- The functions on inodes, for a process in the directory `cwd`, with `ref` references to
each inode. -/
def fsCalls (sb : Superblock) (search : Fs → Option ℕ) (cwd : ℕ) (ref : ℕ → ℕ) :
    InodeCalls FsM ℕ where
  root := pure rootino
  cwd := pure cwd
  ilock inum := do
    let _ ← ilock sb inum
    pure ()
  isDir inum := look fun s => (dinode sb s.cache inum).type = tDir
  dirlookup inum name := do
    let dp ← look fun s => dinode sb s.cache inum
    let r ← dirlookup sb search dp name
    pure (r.2.map Prod.fst)
  iunlock _ := pure ()
  iunlockput inum := do
    let ip ← look fun s => dinode sb s.cache inum
    iput sb (ref inum) inum ip
  iput inum := do
    let ip ← look fun s => dinode sb s.cache inum
    iput sb (ref inum) inum ip
  dirlookup_congr inum _ _ h := by
    refine bind_congr fun dp => ?_
    rw [dirlookup_congr h]

/-- The name ".". -/
def fileDot : ℕ → Byte := fun i => if i = 0 then 46 else 0

/-- A path with repeated slashes: "." twice, and a name of 20 bytes. -/
def longPath : List Byte :=
  [slash, slash, 46, slash, slash, slash, 46, slash] ++ List.replicate 20 98 ++ [slash, slash]

/-- `nameiparent` of a path, in the root directory with an entry ".". -/
def parentInDot (path : List Byte) : FsM (Option (ℕ × List Byte)) := do
  let dp ← ilock smallVolume 1
  let _ ← dirlink smallVolume (firstFree smallVolume) 1 dp fileDot 1
  parentResult <$> namex (fsCalls smallVolume (firstFree smallVolume) 1 fun _ => 2) path true
    fun _ => 0

/-- A path of three elements, the last one too long: its parent is the root directory. -/
theorem smallFs_paths_split_into_elements :
    (skipelems longPath fun _ => 0).map (fun r => nameKey (readName r.2)) =
        [[46], [46], List.replicate 14 98] ∧
      (∀ i r, (skipelems longPath fun _ => 0)[i]? = some r → (r.1 = [] ↔ i + 1 = 3)) ∧
      (parentInDot longPath (smallFs tDir)).toOption.map Prod.fst =
        some (some (1, List.replicate 14 98)) := by
  have helem : elements longPath = [[46], [46], List.replicate 20 98] := by decide +kernel
  obtain ⟨-, hnames, hends, hparent⟩ := paths_split_into_elements
    (fsCalls smallVolume (firstFree smallVolume) 1 fun _ => 2) longPath (fun _ => 0) (by decide)
    (by decide)
  rw [helem] at hnames hends hparent
  refine ⟨hnames, hends, ?_⟩
  unfold parentInDot
  rw [hparent]
  decide +kernel

end XV6AndConcurrency.FileSystem
