import XV6AndConcurrency.Shell.Lexer

/-!
# The parser of the shell

`parsecmd` and the functions it is made of. Each returns with a cursor that is not before
the one it was given; that is why the recursion ends.
-/

namespace XV6AndConcurrency.Shell

/-- The redirection of a `redircmd`; `α` is the type of words. -/
structure Redir (α : Type*) where
  file : α
  mode : ℕ
  fd : ℕ
  deriving DecidableEq

/-- `struct cmd`. -/
inductive Cmd (α : Type*)
  | exec (argv : List α)
  | redir (cmd : Cmd α) (r : Redir α)
  | pipe (left right : Cmd α)
  | list (left right : Cmd α)
  | back (cmd : Cmd α)
  deriving DecidableEq

/-- A word of the line, by the pointers to its beginning and its end. -/
structure Slice where
  q : List Char
  eq : List Char
  deriving DecidableEq

/-- How the parser gives up. -/
inductive Panic
  | leftovers (s : List Char)
  | missingFile
  | missingParen
  | notWord
  | tooManyArgs
  | parseblock
  deriving DecidableEq

/-- A tree and the cursor behind it. -/
structure Parsed (s : List Char) where
  cmd : Cmd Slice
  rest : List Char
  le : rest.length ≤ s.length

/-- The same, for a function that was called further on in the line. -/
def Parsed.weaken {s s' : List Char} (p : Parsed s') (h : s'.length ≤ s.length) : Parsed s :=
  ⟨p.cmd, p.rest, p.le.trans h⟩

def MAXARGS : ℕ := 10

/-- `cmd->argv[argc] = q` on the `execcmd` at the bottom of the redirections. -/
def Cmd.addArg {α : Type*} : Cmd α → α → Cmd α
  | .exec argv, w => .exec (argv ++ [w])
  | .redir cmd r, w => .redir (cmd.addArg w) r
  | cmd, _ => cmd

/-- The redirection of an operator. -/
def redirOf {α : Type*} (tok : Char) (w : α) : Redir α :=
  if tok = '<' then ⟨w, 0x000, 0⟩
  else if tok = '>' then ⟨w, 0x001 + 0x200 + 0x400, 1⟩
  else ⟨w, 0x001 + 0x200, 1⟩

def parseredirs (cmd : Cmd Slice) (s : List Char) : Except Panic (Parsed s) :=
  if h : (peek s ['<', '>']).2 = true then
    let op := gettoken (peek s ['<', '>']).1
    let file := gettoken op.rest
    if file.ret = 'a' then
      have hlt : file.rest.length < s.length :=
        (length_gettoken_le op.rest).trans_lt (length_gettoken_peek_lt h)
      return (← parseredirs (.redir cmd (redirOf op.ret ⟨file.q, file.eq⟩)) file.rest).weaken hlt.le
    else throw .missingFile
  else return ⟨cmd, (peek s ['<', '>']).1, length_peek_le s _⟩
termination_by s.length

/-- The loop of `parseexec`. -/
def parseargs (argc : ℕ) (ret : Cmd Slice) (s : List Char) : Except Panic (Parsed s) :=
  if (peek s ['|', ')', '&', ';']).2 = true then
    return ⟨ret, (peek s ['|', ')', '&', ';']).1, length_peek_le s _⟩
  else
    let tok := gettoken (peek s ['|', ')', '&', ';']).1
    have hle : tok.rest.length ≤ s.length := (length_gettoken_le _).trans (length_peek_le s _)
    if h : tok.ret = '\x00' then return ⟨ret, tok.rest, hle⟩
    else if tok.ret ≠ 'a' then throw .notWord
    else if MAXARGS ≤ argc + 1 then throw .tooManyArgs
    else do
      have hlt : tok.rest.length < s.length :=
        (length_gettoken_lt h).trans_le (length_peek_le s _)
      let p ← parseredirs (ret.addArg ⟨tok.q, tok.eq⟩) tok.rest
      have hp : p.rest.length < s.length := p.le.trans_lt hlt
      return (← parseargs (argc + 1) p.cmd p.rest).weaken hp.le
termination_by s.length

/-- The loop of `parseline`. -/
def parsebacks (cmd : Cmd Slice) (s : List Char) : Parsed s :=
  if h : (peek s ['&']).2 = true then
    have hlt : (gettoken (peek s ['&']).1).rest.length < s.length := length_gettoken_peek_lt h
    (parsebacks (.back cmd) (gettoken (peek s ['&']).1).rest).weaken hlt.le
  else ⟨cmd, (peek s ['&']).1, length_peek_le s _⟩
termination_by s.length

mutual

def parseline (s : List Char) : Except Panic (Parsed s) := do
  let p ← parsepipe s
  let b := parsebacks p.cmd p.rest
  have hb : b.rest.length ≤ s.length := b.le.trans p.le
  if h : (peek b.rest [';']).2 = true then
    have hlt : (gettoken (peek b.rest [';']).1).rest.length < s.length :=
      (length_gettoken_peek_lt h).trans_le hb
    let right ← parseline (gettoken (peek b.rest [';']).1).rest
    return ⟨.list b.cmd right.cmd, right.rest, right.le.trans hlt.le⟩
  else return ⟨b.cmd, (peek b.rest [';']).1, (length_peek_le _ _).trans hb⟩
termination_by (s.length, 3)

def parsepipe (s : List Char) : Except Panic (Parsed s) := do
  let p ← parseexec s
  if h : (peek p.rest ['|']).2 = true then
    have hlt : (gettoken (peek p.rest ['|']).1).rest.length < s.length :=
      (length_gettoken_peek_lt h).trans_le p.le
    let right ← parsepipe (gettoken (peek p.rest ['|']).1).rest
    return ⟨.pipe p.cmd right.cmd, right.rest, right.le.trans hlt.le⟩
  else return ⟨p.cmd, (peek p.rest ['|']).1, (length_peek_le _ _).trans p.le⟩
termination_by (s.length, 2)

def parseexec (s : List Char) : Except Panic (Parsed s) :=
  if (peek s ['(']).2 = true then do
    return (← parseblock (peek s ['(']).1).weaken (length_peek_le s _)
  else do
    let p ← parseredirs (.exec []) (peek s ['(']).1
    return (← parseargs 0 p.cmd p.rest).weaken (p.le.trans (length_peek_le s _))
termination_by (s.length, 1)
decreasing_by
  have := length_peek_le s ['(']
  obtain hlt | heq := Nat.lt_or_eq_of_le this
  · exact Prod.Lex.left _ _ hlt
  · rw [heq]
    exact Prod.Lex.right _ Nat.one_pos

def parseblock (s : List Char) : Except Panic (Parsed s) :=
  if h : (peek s ['(']).2 = true then do
    have hlt : (gettoken (peek s ['(']).1).rest.length < s.length := length_gettoken_peek_lt h
    let p ← parseline (gettoken (peek s ['(']).1).rest
    if (peek p.rest [')']).2 = true then
      have hle : (gettoken (peek p.rest [')']).1).rest.length ≤ s.length :=
        (length_gettoken_le _).trans ((length_peek_le _ _).trans (p.le.trans hlt.le))
      return (← parseredirs p.cmd (gettoken (peek p.rest [')']).1).rest).weaken hle
    else throw .missingParen
  else throw .parseblock
termination_by (s.length, 0)

end

/-- `nulterminate`: the words end with a NUL from now on. `n` is the length of the line. -/
def nulterminate (n : ℕ) : Cmd Slice → List Char → List Char
  | .exec argv, mem => argv.foldl (fun mem w => mem.set (n - w.eq.length) '\x00') mem
  | .redir cmd r, mem => (nulterminate n cmd mem).set (n - r.file.eq.length) '\x00'
  | .pipe left right, mem | .list left right, mem =>
    nulterminate n right (nulterminate n left mem)
  | .back cmd, mem => nulterminate n cmd mem

/-- The string at a place in the memory. -/
def cstring (mem : List Char) : List Char := mem.takeWhile (· ≠ '\x00')

/-- `parsecmd` on a line in the memory: the tree, and the line with its NULs. -/
def parsecmd (mem : List Char) : Except Panic (Cmd Slice × List Char) := do
  let s := cstring mem
  let p ← parseline s
  if (peek p.rest []).1 ≠ [] then throw (.leftovers (peek p.rest []).1)
  else return (p.cmd, nulterminate s.length p.cmd (s ++ ['\x00']))

end XV6AndConcurrency.Shell
