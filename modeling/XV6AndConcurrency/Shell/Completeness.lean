import XV6AndConcurrency.Shell.Soundness

/-!
# What is derivable is parsed

By induction on the derivation, before any tokens that can follow the nonterminal.
-/

namespace XV6AndConcurrency.Shell

variable {line s s' : List Char} {t : Token} {ts us vs vs' : List Token}
variable {cmd : Cmd Slice} {tree tree' : Cmd (List Char)}

/-- The result is the tree, with the cursor before the tokens `vs`. -/
def Returns (line : List Char) (vs : List Token) (tree : Cmd (List Char))
    (r : Except Panic (Parsed s)) : Prop :=
  ∃ p, r = .ok p ∧ Cursor line p.rest vs ∧ p.cmd.Matches (Slice.Of line) tree

theorem Returns.pure {p : Parsed s} (hc : Cursor line p.rest vs)
    (hm : p.cmd.Matches (Slice.Of line) tree) :
    Returns line vs tree (Except.ok p : Except Panic (Parsed s)) := ⟨p, rfl, hc, hm⟩

theorem Returns.bind {r : Except Panic (Parsed s)} {f : Parsed s → Except Panic (Parsed s')}
    (h : Returns line vs tree r)
    (hf : ∀ p, Cursor line p.rest vs → p.cmd.Matches (Slice.Of line) tree →
      Returns line vs' tree' (f p)) :
    Returns line vs' tree' (r >>= f) := by
  obtain ⟨p, rfl, hc, hm⟩ := h
  exact hf p hc hm

theorem Returns.weaken {r : Except Panic (Parsed s')} (h : Returns line vs tree r)
    (hle : s'.length ≤ s.length) :
    Returns line vs tree (r >>= fun p => (Pure.pure (p.weaken hle) : Except Panic (Parsed s))) :=
  h.bind fun p hc hm => .pure (p := p.weaken hle) hc hm

/-- The first token, if there is one. -/
def Begins (P : Token → Prop) (ts : List Token) : Prop := ∀ t ∈ ts.head?, P t

theorem Begins.append {P : Token → Prop} (h : Begins P ts) (h' : Begins P us) :
    Begins P (ts ++ us) := by
  intro t ht
  cases ts with
  | nil => exact h' t ht
  | cons t' ts => exact h t ht

theorem Begins.imp {P Q : Token → Prop} (h : Begins P ts) (himp : ∀ t, P t → Q t) : Begins Q ts :=
  fun t ht => himp t (h t ht)

theorem begins_cons {P : Token → Prop} (h : P t) : Begins P (t :: ts) := by
  intro t' ht
  cases ht
  exact h

/-- The beginning of a redirection. -/
def Token.IsRedir (t : Token) : Prop := t = .lt ∨ t = .gt ∨ t = .append

/-- What can follow a nonterminal. -/
def Nonterminal.Follow : Nonterminal → Token → Prop
  | .line, t => t = .rparen
  | .pipe, t => t = .rparen ∨ t = .amp ∨ t = .semi
  | .exec, t => t = .rparen ∨ t = .amp ∨ t = .semi ∨ t = .bar

theorem Redirs.begins {rs : List (Redir (List Char))} (h : Redirs ts rs) :
    Begins Token.IsRedir ts := by
  cases h with
  | nil => exact nofun
  | lt => exact begins_cons (.inl rfl)
  | gt => exact begins_cons (.inr (.inl rfl))
  | append => exact begins_cons (.inr (.inr rfl))

theorem Args.begins {ws : List (List Char)} {rs : List (Redir (List Char))} (h : Args ts ws rs) :
    Begins (fun t => ∃ w, t = .word w) ts := by
  cases h with
  | nil => exact nofun
  | cons hr h => exact begins_cons ⟨_, rfl⟩

/-- `peek` for the end of the arguments. -/
theorem Cursor.peek_args (h : Cursor line s ts) :
    (Shell.peek s ['|', ')', '&', ';']).2 = true ↔
      ∃ t us, ts = t :: us ∧ Nonterminal.exec.Follow t := by
  rw [h.peek_eq (by simp [symbols])]
  constructor
  · intro hany
    cases ts with
    | nil => cases hany
    | cons t us =>
      refine ⟨t, us, rfl, ?_⟩
      cases t <;> simp_all [Token.first, Nonterminal.Follow]
  · rintro ⟨t, us, rfl, rfl | rfl | rfl | rfl⟩ <;> rfl

/-- Neither a word nor a redirection can follow the arguments. -/
theorem Nonterminal.Follow.not_redir (h : Nonterminal.exec.Follow t) : ¬t.IsRedir := by
  obtain rfl | rfl | rfl | rfl := h <;> rintro (h | h | h) <;> cases h

theorem Args.begins_not_redir {ws : List (List Char)} {rs : List (Redir (List Char))}
    (h : Args ts ws rs) (hvs : Begins Nonterminal.exec.Follow vs) :
    Begins (fun t => ¬t.IsRedir) (ts ++ vs) := by
  refine (h.begins.imp ?_).append (hvs.imp fun t ht => ht.not_redir)
  rintro t ⟨w, rfl⟩ (h | h | h) <;> cases h

/-! ## The loops -/

theorem parseredirs_token {w : List Char}
    (hc : Cursor line s (t :: .word w :: ts)) (ht : t.IsRedir)
    (hm : cmd.Matches (Slice.Of line) tree)
    (hrest : ∀ cmd' s', Cursor line s' ts →
      Cmd.Matches (Slice.Of line) cmd' (.redir tree (redirOf t.ret w)) →
      Returns line vs tree' (parseredirs cmd' s')) :
    Returns line vs tree' (parseredirs cmd s) := by
  have h : (peek s ['<', '>']).2 = true := hc.peek_redir.mpr ⟨t, _, rfl, ht⟩
  have hop := hc.peek ['<', '>']
  have hfile := hop.next
  have hword : (gettoken (gettoken (peek s ['<', '>']).1).rest).ret = 'a' := hfile.ret
  rw [parseredirs, dif_pos h]
  dsimp only
  rw [if_pos hword, hop.ret]
  exact .weaken (hrest _ _ hfile.next (matches_redirOf hm hfile.word _)) _

theorem parseredirs_returns {rs : List (Redir (List Char))} (h : Redirs us rs)
    (hc : Cursor line s (us ++ vs)) (hm : cmd.Matches (Slice.Of line) tree)
    (hvs : Begins (fun t => ¬t.IsRedir) vs) :
    Returns line vs (tree.redirs rs) (parseredirs cmd s) := by
  induction h generalizing s cmd tree with
  | nil =>
    have hpeek : ¬(peek s ['<', '>']).2 = true := by
      intro hpeek
      obtain ⟨t, ts, rfl, ht⟩ := hc.peek_redir.mp hpeek
      exact hvs t rfl ht
    rw [parseredirs, dif_neg hpeek]
    exact .pure (hc.peek ['<', '>']) hm
  | lt h ih => exact parseredirs_token hc (.inl rfl) hm fun _ _ hc' hm' => ih hc' hm'
  | gt h ih => exact parseredirs_token hc (.inr (.inl rfl)) hm fun _ _ hc' hm' => ih hc' hm'
  | append h ih => exact parseredirs_token hc (.inr (.inr rfl)) hm fun _ _ hc' hm' => ih hc' hm'

theorem parsebacks_returns {n : ℕ} (hc : Cursor line s (List.replicate n .amp ++ vs))
    (hm : cmd.Matches (Slice.Of line) tree) (hvs : Begins (· ≠ .amp) vs) :
    Cursor line (parsebacks cmd s).rest vs ∧
      (parsebacks cmd s).cmd.Matches (Slice.Of line) (tree.backs n) := by
  induction n generalizing s cmd tree with
  | zero =>
    have hpeek : ¬(peek s ['&']).2 = true := by
      intro hpeek
      obtain ⟨ts, rfl⟩ := (hc.peek_symbol rfl).mp hpeek
      exact hvs _ rfl rfl
    rw [parsebacks, dif_neg hpeek]
    exact ⟨hc.peek ['&'], hm⟩
  | succ n ih =>
    have hpeek : (peek s ['&']).2 = true := (hc.peek_symbol rfl).mpr ⟨_, rfl⟩
    rw [parsebacks, dif_pos hpeek]
    exact ih (hc.peek ['&']).next (.back hm)

theorem parseargs_returns {ws ws' : List (List Char)} {rs rs' : List (Redir (List Char))}
    {argc : ℕ} (h : Args us ws' rs') (hc : Cursor line s (us ++ vs))
    (hm : cmd.Matches (Slice.Of line) ((Cmd.exec ws).redirs rs)) (hargc : ws.length = argc)
    (hlt : (ws ++ ws').length < MAXARGS) (hvs : Begins (Nonterminal.exec.Follow) vs) :
    Returns line vs ((Cmd.exec (ws ++ ws')).redirs (rs ++ rs')) (parseargs argc cmd s) := by
  induction h generalizing s cmd ws rs argc with
  | nil =>
    rw [List.append_nil, List.append_nil, parseargs]
    cases vs with
    | cons t vs =>
      rw [if_pos (hc.peek_args.mpr ⟨t, vs, rfl, hvs t rfl⟩)]
      exact .pure (hc.peek ['|', ')', '&', ';']) hm
    | nil =>
      have hpeek : ¬(peek s ['|', ')', '&', ';']).2 = true := by
        intro hpeek
        obtain ⟨t, us, hts, -⟩ := hc.peek_args.mp hpeek
        cases hts
      obtain ⟨hret, hend⟩ := (hc.peek ['|', ')', '&', ';']).end
      rw [if_neg hpeek]
      dsimp only
      rw [dif_pos hret]
      exact .pure hend hm
  | @cons w ts us ws' rs' rs'' hr h ih =>
    rw [List.cons_append, List.append_assoc] at hc
    have hpeek : ¬(peek s ['|', ')', '&', ';']).2 = true := by
      intro hpeek
      obtain ⟨t, us, hts, ht⟩ := hc.peek_args.mp hpeek
      cases hts
      obtain ht | ht | ht | ht := ht <;> cases ht
    have htok := hc.peek ['|', ')', '&', ';']
    have hret : (gettoken (peek s ['|', ')', '&', ';']).1).ret = 'a' := htok.ret
    have hlength : (ws ++ [w]).length = argc + 1 := by
      rw [List.length_append, hargc]
      rfl
    have hmax : ¬MAXARGS ≤ argc + 1 := by
      rw [List.length_append, List.length_cons, hargc] at hlt
      omega
    rw [List.append_cons] at hlt
    rw [parseargs, if_neg hpeek]
    dsimp only
    rw [dif_neg (by rw [hret]; decide), if_neg (not_not.mpr hret), if_neg hmax]
    have harg := hm.addArg htok.word
    rw [Cmd.addArg_redirs] at harg
    refine .bind (parseredirs_returns hr htok.next harg (h.begins_not_redir hvs)) ?_
    intro p hp hpm
    rw [← Cmd.redirs_append] at hpm
    have hrest := ih hp hpm hlength hlt
    rw [← List.append_cons, List.append_assoc] at hrest
    exact .weaken hrest _

/-! ## The nonterminals -/

/-- The function of a nonterminal. -/
def Nonterminal.parse : Nonterminal → (s : List Char) → Except Panic (Parsed s)
  | .line => parseline
  | .pipe => parsepipe
  | .exec => parseexec

/-- The nonterminal is parsed in every line before what can follow it. -/
def Parses (line : List Char) (nt : Nonterminal) (ts : List Token) (tree : Cmd (List Char)) :
    Prop :=
  ∀ s vs, Cursor line s (ts ++ vs) → Begins nt.Follow vs → Returns line vs tree (nt.parse s)

theorem parseblock_returns {c : Cmd (List Char)} {rs : List (Redir (List Char))}
    (h : Parses line .line ts c) (hr : Redirs us rs) :
    Parses line .exec (.lparen :: (ts ++ .rparen :: us)) (c.redirs rs) := by
  intro s vs hc hvs
  rw [List.cons_append, List.append_assoc] at hc
  have hpeek : (peek s ['(']).2 = true := (hc.peek_symbol rfl).mpr ⟨_, rfl⟩
  have hbody := h _ _ (hc.peek ['(']).next (begins_cons rfl)
  change Returns line vs _ (parseexec s)
  rw [parseexec, if_pos hpeek, parseblock]
  refine .weaken ?_ _
  rw [dif_pos (by rwa [peek_peek])]
  rw [← peek_peek s ['('] ['(']] at hbody
  refine .bind hbody ?_
  intro p hp hpm
  rw [if_pos ((hp.peek_symbol rfl).mpr ⟨_, rfl⟩)]
  refine .weaken (parseredirs_returns hr (hp.peek [')']).next hpm ?_) _
  exact hvs.imp fun t ht => ht.not_redir

theorem parseexec_returns {ws : List (List Char)} {rs rs' : List (Redir (List Char))}
    (hr : Redirs ts rs) (ha : Args us ws rs') (hlen : ws.length < MAXARGS) :
    Parses line .exec (ts ++ us) ((Cmd.exec ws).redirs (rs ++ rs')) := by
  intro s vs hc hvs
  have hpeek : ¬(peek s ['(']).2 = true := by
    intro hpeek
    obtain ⟨ts', hts⟩ := (hc.peek_symbol rfl).mp hpeek
    have hbegins : Begins (· ≠ .lparen) (ts ++ us ++ vs) := by
      refine ((hr.begins.imp ?_).append (ha.begins.imp ?_)).append (hvs.imp ?_)
      · rintro t (rfl | rfl | rfl) <;> exact nofun
      · rintro t ⟨w, rfl⟩
        exact nofun
      · rintro t (rfl | rfl | rfl | rfl) <;> exact nofun
    rw [hts] at hbegins
    exact hbegins .lparen rfl rfl
  have hredirs := hc.peek ['(']
  rw [List.append_assoc] at hredirs
  change Returns line vs _ (parseexec s)
  rw [parseexec, if_neg hpeek]
  refine .bind (parseredirs_returns hr hredirs (.exec .nil) (ha.begins_not_redir hvs)) ?_
  intro p hp hpm
  exact .weaken (parseargs_returns ha hp hpm rfl hlen hvs) _

theorem parsepipe_returns {c : Cmd (List Char)} (h : Parses line .exec ts c) :
    Parses line .pipe ts c := by
  intro s vs hc hvs
  change Returns line vs _ (parsepipe s)
  rw [parsepipe]
  refine .bind (h s vs hc (hvs.imp ?_)) ?_
  · rintro t (rfl | rfl | rfl)
    · exact .inl rfl
    · exact .inr (.inl rfl)
    · exact .inr (.inr (.inl rfl))
  · intro p hp hpm
    have hpeek : ¬(peek p.rest ['|']).2 = true := by
      intro hpeek
      obtain ⟨ts', rfl⟩ := (hp.peek_symbol rfl).mp hpeek
      obtain h | h | h := hvs .bar rfl <;> cases h
    rw [dif_neg hpeek]
    exact .pure (hp.peek ['|']) hpm

theorem parsepipe_bar_returns {c d : Cmd (List Char)} (h : Parses line .exec ts c)
    (h' : Parses line .pipe us d) : Parses line .pipe (ts ++ .bar :: us) (.pipe c d) := by
  intro s vs hc hvs
  rw [List.append_assoc] at hc
  change Returns line vs _ (parsepipe s)
  rw [parsepipe]
  refine .bind (h s _ hc (begins_cons (.inr (.inr (.inr rfl))))) ?_
  intro p hp hpm
  rw [dif_pos ((hp.peek_symbol rfl).mpr ⟨_, rfl⟩)]
  refine .bind (h' _ vs (hp.peek ['|']).next hvs) ?_
  intro q hq hqm
  exact .pure hq (.pipe hpm hqm)

theorem begins_replicate {P : Token → Prop} (h : P t) (n : ℕ) : Begins P (List.replicate n t) := by
  cases n with
  | zero => exact nofun
  | succ n => exact begins_cons h

theorem parseline_returns {c : Cmd (List Char)} (n : ℕ) (h : Parses line .pipe ts c) :
    Parses line .line (ts ++ List.replicate n .amp) (c.backs n) := by
  intro s vs hc hvs
  rw [List.append_assoc] at hc
  change Returns line vs _ (parseline s)
  rw [parseline]
  have hbegins := (begins_replicate (P := Nonterminal.pipe.Follow) (.inr (.inl rfl)) n).append
    (hvs.imp fun t ht => .inl ht)
  refine .bind (h s _ hc hbegins) ?_
  intro p hp hpm
  obtain ⟨hb, hbm⟩ := parsebacks_returns hp hpm (hvs.imp (by rintro t rfl ht; cases ht))
  have hpeek : ¬(peek (parsebacks p.cmd p.rest).rest [';']).2 = true := by
    intro hpeek
    obtain ⟨ts', rfl⟩ := (hb.peek_symbol rfl).mp hpeek
    cases hvs .semi rfl
  dsimp only
  rw [dif_neg hpeek]
  exact .pure (hb.peek [';']) hbm

theorem parseline_semi_returns {c d : Cmd (List Char)} (n : ℕ) (h : Parses line .pipe ts c)
    (h' : Parses line .line us d) :
    Parses line .line (ts ++ (List.replicate n .amp ++ .semi :: us)) (.list (c.backs n) d) := by
  intro s vs hc hvs
  rw [List.append_assoc, List.append_assoc] at hc
  change Returns line vs _ (parseline s)
  rw [parseline]
  have hbegins := (begins_replicate (P := Nonterminal.pipe.Follow) (.inr (.inl rfl)) n).append
    (begins_cons (.inr (.inr rfl)) : Begins Nonterminal.pipe.Follow (.semi :: (us ++ vs)))
  refine .bind (h s _ hc hbegins) ?_
  intro p hp hpm
  obtain ⟨hb, hbm⟩ := parsebacks_returns hp hpm (begins_cons fun ht => by cases ht)
  dsimp only
  rw [dif_pos ((hb.peek_symbol rfl).mpr ⟨_, rfl⟩)]
  refine .bind (h' _ vs (hb.peek [';']).next hvs) ?_
  intro q hq hqm
  exact .pure hq (.list hbm hqm)

theorem Derives.parses {nt : Nonterminal} (h : Derives nt ts tree) : Parses line nt ts tree := by
  induction h with
  | line n h ih => exact parseline_returns n ih
  | seq n h h' ih ih' => exact parseline_semi_returns n ih ih'
  | single h ih => exact parsepipe_returns ih
  | pipe h h' ih ih' => exact parsepipe_bar_returns ih ih'
  | block h hr ih => exact parseblock_returns ih hr
  | exec hr ha hlen => exact parseexec_returns hr ha hlen

end XV6AndConcurrency.Shell
