import XV6AndConcurrency.Shell.Tokens
import XV6AndConcurrency.Shell.Trees

/-!
# What the parser returns is derivable

By induction on the length of the rest of the line: each function returns the tree of a
derivation of the tokens up to the new cursor, or a syntax error.
-/

namespace XV6AndConcurrency.Shell

variable {line s s' : List Char} {t : Token} {ts : List Token} {tree : Cmd (List Char)}

/-- The result is a tree for the tokens that were consumed, or a syntax error. -/
def Explains (line : List Char) (ts : List Token) (G : List Token → Cmd (List Char) → Prop) :
    Except Panic (Parsed s) → Prop
  | .ok p => ∃ us vs tree, ts = us ++ vs ∧ G us tree ∧ Cursor line p.rest vs ∧
      p.cmd.Matches (Slice.Of line) tree
  | .error e => e ≠ .parseblock

section Rules

variable {G G' : List Token → Cmd (List Char) → Prop}

/-- A function that returns without a token. -/
theorem Explains.pure {p : Parsed s} (hc : Cursor line p.rest ts)
    (hm : p.cmd.Matches (Slice.Of line) tree) (hG : G [] tree) :
    Explains line ts G (Except.ok p : Except Panic (Parsed s)) :=
  ⟨[], ts, tree, rfl, hG, hc, hm⟩

/-- After some tokens were taken. -/
theorem Explains.tokens {r : Except Panic (Parsed s)} (us : List Token)
    (h : Explains line ts (fun vs => G (us ++ vs)) r) : Explains line (us ++ ts) G r := by
  cases r with
  | error e => exact h
  | ok p =>
    obtain ⟨vs, vs', tree, rfl, hG, hc, hm⟩ := h
    exact ⟨us ++ vs, vs', tree, (List.append_assoc ..).symm, hG, hc, hm⟩

theorem Explains.token {r : Except Panic (Parsed s)}
    (h : Explains line ts (fun us => G (t :: us)) r) : Explains line (t :: ts) G r :=
  .tokens [t] h

/-- One function after another. -/
theorem Explains.bind {r : Except Panic (Parsed s)} {f : Parsed s → Except Panic (Parsed s')}
    (h : Explains line ts G r)
    (hf : ∀ p us vs tree, G us tree → Cursor line p.rest vs →
      p.cmd.Matches (Slice.Of line) tree →
      Explains line vs (fun us' tree' => G' (us ++ us') tree') (f p)) :
    Explains line ts G' (r >>= f) := by
  cases r with
  | error e => exact h
  | ok p =>
    obtain ⟨us, vs, tree, rfl, hG, hc, hm⟩ := h
    have hsecond := hf p us vs tree hG hc hm
    change Explains line (us ++ vs) G' (f p)
    cases hr : f p with
    | error e =>
      rw [hr] at hsecond
      exact hsecond
    | ok p' =>
      rw [hr] at hsecond
      obtain ⟨us', vs', tree', rfl, hG', hc', hm'⟩ := hsecond
      exact ⟨us ++ us', vs', tree', (List.append_assoc ..).symm, hG', hc', hm'⟩

theorem Explains.imp {r : Except Panic (Parsed s)} (h : Explains line ts G r)
    (himp : ∀ us tree, G us tree → G' us tree) : Explains line ts G' r := by
  cases r with
  | error e => exact h
  | ok p =>
    obtain ⟨us, vs, tree, hts, hG, hc, hm⟩ := h
    exact ⟨us, vs, tree, hts, himp _ _ hG, hc, hm⟩

/-- Returned by the caller. -/
theorem Explains.weaken {r : Except Panic (Parsed s')} (h : Explains line ts G r)
    (hle : s'.length ≤ s.length) :
    Explains line ts G (r >>= fun p => (Pure.pure (p.weaken hle) : Except Panic (Parsed s))) := by
  cases r with
  | error e => exact h
  | ok p => exact h

end Rules

variable {cmd : Cmd Slice}

theorem Redirs.cons {w : List Char} {rs : List (Redir (List Char))} (h : Redirs ts rs)
    (ht : t = .lt ∨ t = .gt ∨ t = .append) :
    Redirs (t :: .word w :: ts) (redirOf t.ret w :: rs) := by
  obtain rfl | rfl | rfl := ht
  · exact .lt h
  · exact .gt h
  · exact .append h

theorem matches_redirOf {x : Slice} {w : List Char} (h : cmd.Matches (Slice.Of line) tree)
    (hx : x.Of line w) (c : Char) :
    Cmd.Matches (Slice.Of line) (.redir cmd (redirOf c x)) (.redir tree (redirOf c w)) := by
  unfold redirOf
  split_ifs <;> exact .redir h hx

theorem parseredirs_explains (hc : Cursor line s ts) (hm : cmd.Matches (Slice.Of line) tree) :
    Explains line ts (fun us tree' => ∃ rs, Redirs us rs ∧ tree' = tree.redirs rs)
      (parseredirs cmd s) := by
  fun_induction parseredirs cmd s generalizing ts tree
  case case1 cmd s h op file hret hlt ih =>
    obtain ⟨t, us, rfl, ht⟩ := hc.peek_redir.mp h
    have hret' : op.ret = t.ret := (hc.peek _).ret
    have hop : Cursor line op.rest us := (hc.peek _).next
    obtain ⟨w, us, rfl⟩ := hop.exists_word hret
    have hrest := ih hop.next (matches_redirOf hm hop.word op.ret)
    refine .token (.token (.weaken (hrest.imp ?_) _))
    rintro vs tree' ⟨rs, hrs, rfl⟩
    exact ⟨redirOf op.ret w :: rs, hret' ▸ hrs.cons ht, rfl⟩
  case case2 => exact Panic.noConfusion
  case case3 cmd s h => exact .pure (hc.peek ['<', '>']) hm ⟨[], .nil, rfl⟩

/-- The words and redirections of a command after the first `ws` and `rs`. -/
def Continues (ws : List (List Char)) (rs : List (Redir (List Char))) (us : List Token)
    (tree : Cmd (List Char)) : Prop :=
  ∃ ws' rs', Args us ws' rs' ∧ (ws ++ ws').length < MAXARGS ∧
    tree = (Cmd.exec (ws ++ ws')).redirs (rs ++ rs')

variable {ws : List (List Char)} {rs : List (Redir (List Char))}

theorem continues_nil (h : ws.length < MAXARGS) :
    Continues ws rs [] ((Cmd.exec ws).redirs rs) := by
  refine ⟨[], [], .nil, ?_, ?_⟩
  · rwa [List.append_nil]
  · rw [List.append_nil, List.append_nil]

theorem Continues.cons {w : List Char} {rs' : List (Redir (List Char))} {us vs : List Token}
    (h : Continues (ws ++ [w]) (rs ++ rs') vs tree) (hr : Redirs us rs') :
    Continues ws rs (.word w :: (us ++ vs)) tree := by
  obtain ⟨ws'', rs'', hargs, hlength, rfl⟩ := h
  refine ⟨w :: ws'', rs' ++ rs'', .cons hr hargs, ?_, ?_⟩
  · rwa [List.append_assoc] at hlength
  · rw [List.append_assoc, List.append_assoc]
    rfl

theorem parseargs_explains {argc : ℕ} (hc : Cursor line s ts)
    (hm : cmd.Matches (Slice.Of line) ((Cmd.exec ws).redirs rs)) (hargc : ws.length = argc)
    (hlt : argc < MAXARGS) : Explains line ts (Continues ws rs) (parseargs argc cmd s) := by
  fun_induction parseargs argc cmd s generalizing ts ws rs
  case case1 argc cmd s h =>
    exact .pure (hc.peek ['|', ')', '&', ';']) hm (continues_nil (hargc ▸ hlt))
  case case2 argc cmd s h tok hle hret =>
    obtain rfl := (hc.peek _).eq_nil hret
    exact .pure (hc.peek ['|', ')', '&', ';']).end.2 hm (continues_nil (hargc ▸ hlt))
  case case3 => exact Panic.noConfusion
  case case4 => exact Panic.noConfusion
  case case5 argc cmd s h tok hle hret hword hmax hlt' ih =>
    obtain ⟨w, us, rfl⟩ := (hc.peek _).exists_word (not_not.mp hword)
    have htok : Cursor line tok.rest us := (hc.peek _).next
    have harg := hm.addArg (hc.peek ['|', ')', '&', ';']).word
    rw [Cmd.addArg_redirs] at harg
    refine .token (.bind (parseredirs_explains htok harg) ?_)
    rintro p us' vs tree ⟨rs', hrs, rfl⟩ hp hpm
    rw [← Cmd.redirs_append] at hpm
    have hlength : (ws ++ [w]).length = argc + 1 := by
      rw [List.length_append, hargc]
      rfl
    have hrest := ih p hp hpm hlength (Nat.lt_of_not_le hmax)
    exact .weaken (hrest.imp fun vs' tree' hcont => hcont.cons hrs) _

/-- One `back` for every `&`. -/
theorem parsebacks_explains (hc : Cursor line s ts) (hm : cmd.Matches (Slice.Of line) tree) :
    ∃ n vs, ts = List.replicate n .amp ++ vs ∧ Cursor line (parsebacks cmd s).rest vs ∧
      (parsebacks cmd s).cmd.Matches (Slice.Of line) (tree.backs n) := by
  fun_induction parsebacks cmd s generalizing ts tree
  case case1 cmd s h hlt ih =>
    obtain ⟨us, rfl⟩ := (hc.peek_symbol rfl).mp h
    obtain ⟨n, vs, rfl, hrest, hmatch⟩ := ih (hc.peek _).next (.back hm)
    exact ⟨n + 1, vs, rfl, hrest, hmatch⟩
  case case2 cmd s h => exact ⟨0, ts, rfl, hc.peek ['&'], hm⟩

/-- The trees of `parseblock`. -/
def Block (ts : List Token) (tree : Cmd (List Char)) : Prop :=
  ∃ us vs c rs, ts = .lparen :: (us ++ .rparen :: vs) ∧ Derives .line us c ∧ Redirs vs rs ∧
    tree = c.redirs rs

/-- `parseline` is right on every shorter line. -/
def ExplainsBelow (line s : List Char) : Prop :=
  ∀ s' ts, s'.length < s.length → Cursor line s' ts →
    Explains line ts (Derives .line) (parseline s')

theorem parseblock_explains (ih : ExplainsBelow line s) (hc : Cursor line s ts)
    (h : (peek s ['(']).2 = true) : Explains line ts (Derives .exec) (parseblock s) := by
  obtain ⟨us, rfl⟩ := (hc.peek_symbol rfl).mp h
  rw [parseblock, dif_pos h]
  refine .token (.bind (ih _ us (length_gettoken_peek_lt h) (hc.peek _).next) ?_)
  intro p ts' vs c hline hp hpm
  split
  case isTrue h' =>
    obtain ⟨vs, rfl⟩ := (hp.peek_symbol rfl).mp h'
    refine .token (.weaken ((parseredirs_explains (hp.peek _).next hpm).imp ?_) _)
    rintro ws tree ⟨rs, hrs, rfl⟩
    exact .block hline hrs
  case isFalse => exact Panic.noConfusion

theorem parseexec_explains (ih : ExplainsBelow line s) (hc : Cursor line s ts) :
    Explains line ts (Derives .exec) (parseexec s) := by
  rw [parseexec]
  split
  case isTrue h =>
    have ih' : ExplainsBelow line (peek s ['(']).1 := fun s' ts' hlt hc' =>
      ih s' ts' (hlt.trans_le (length_peek_le s _)) hc'
    have hpeek : (peek (peek s ['(']).1 ['(']).2 = true := by rwa [peek_peek]
    exact .weaken (parseblock_explains ih' (hc.peek _) hpeek) _
  case isFalse h =>
    refine .bind (parseredirs_explains (hc.peek _) (.exec .nil)) ?_
    rintro p us vs tree ⟨rs, hrs, rfl⟩ hp hpm
    have hargs := parseargs_explains hp hpm rfl (by decide)
    refine .weaken (hargs.imp ?_) _
    rintro us' tree' ⟨ws', rs', hargs', hlength, rfl⟩
    exact .exec hrs hargs' hlength

theorem parsepipe_explains (ih : ExplainsBelow line s) (hc : Cursor line s ts) :
    Explains line ts (Derives .pipe) (parsepipe s) := by
  induction hn : s.length using Nat.strong_induction_on generalizing s ts with
  | _ n ihn =>
    subst hn
    rw [parsepipe]
    refine .bind (parseexec_explains ih hc) ?_
    intro p us vs tree hexec hp hpm
    split
    case isTrue h =>
      obtain ⟨vs, rfl⟩ := (hp.peek_symbol rfl).mp h
      have hlt : (gettoken (peek p.rest ['|']).1).rest.length < s.length :=
        (length_gettoken_peek_lt h).trans_le p.le
      have hright := ihn _ hlt (fun s' ts' hlt' => ih s' ts' (hlt'.trans hlt)) (hp.peek _).next rfl
      refine .token (.bind hright ?_)
      intro q us' vs' tree' hpipe hq hqm
      refine .pure hq (.pipe hpm hqm) ?_
      rw [List.append_nil]
      exact .pipe hexec hpipe
    case isFalse h =>
      refine .pure (hp.peek ['|']) hpm ?_
      rw [List.append_nil]
      exact .single hexec

theorem parseline_explains (hc : Cursor line s ts) :
    Explains line ts (Derives .line) (parseline s) := by
  induction hn : s.length using Nat.strong_induction_on generalizing s ts with
  | _ n ihn =>
    subst hn
    have ih : ExplainsBelow line s := fun s' ts' hlt hc' => ihn _ hlt hc' rfl
    rw [parseline]
    refine .bind (parsepipe_explains ih hc) ?_
    intro p us vs tree hpipe hp hpm
    obtain ⟨k, vs, rfl, hb, hbm⟩ := parsebacks_explains hp hpm
    apply Explains.tokens
    dsimp only
    split
    case isTrue h =>
      obtain ⟨vs, rfl⟩ := (hb.peek_symbol rfl).mp h
      have hlt := (length_gettoken_peek_lt h).trans_le ((parsebacks p.cmd p.rest).le.trans p.le)
      refine .token (.bind (ih _ _ hlt (hb.peek _).next) ?_)
      intro q us' vs' tree' hline hq hqm
      refine .pure hq (.list hbm hqm) ?_
      rw [List.append_nil]
      exact .seq k hpipe hline
    case isFalse h =>
      refine .pure (hb.peek [';']) hbm ?_
      rw [List.append_nil]
      exact .line k hpipe

end XV6AndConcurrency.Shell
