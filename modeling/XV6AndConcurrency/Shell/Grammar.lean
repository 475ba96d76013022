import XV6AndConcurrency.Shell.Parser

/-!
# The grammar of the shell

The tokens of a line, by longest match, and the derivations of a list of tokens with their
trees:

    line   := pipe {'&'} [';' line]
    pipe   := exec ['|' pipe]
    exec   := '(' line ')' redirs | redirs {word redirs}
    redirs := {('<'|'>'|'>>') word}
-/

namespace XV6AndConcurrency.Shell

inductive Token
  | bar
  | lparen
  | rparen
  | semi
  | amp
  | lt
  | gt
  | append
  | word (w : List Char)
  deriving DecidableEq

/-- What `gettoken` returns for the token. -/
def Token.ret : Token → Char
  | .bar => '|'
  | .lparen => '('
  | .rparen => ')'
  | .semi => ';'
  | .amp => '&'
  | .lt => '<'
  | .gt => '>'
  | .append => '+'
  | .word _ => 'a'

/-- The tokens of a single character that begins no other token. -/
def Token.ofSymbol (c : Char) : Option Token :=
  if c = '|' then some .bar
  else if c = '(' then some .lparen
  else if c = ')' then some .rparen
  else if c = ';' then some .semi
  else if c = '&' then some .amp
  else if c = '<' then some .lt
  else none

/-- The tokens of a text; words and `>>` are as long as they can be. -/
inductive Lexes : List Char → List Token → Prop
  | nil : Lexes [] []
  | space {c s ts} (hc : isWhitespace c = true) (h : Lexes s ts) : Lexes (c :: s) ts
  | symbol {c t s ts} (hc : Token.ofSymbol c = some t) (h : Lexes s ts) : Lexes (c :: s) (t :: ts)
  | gt {s ts} (hs : s.head? ≠ some '>') (h : Lexes s ts) : Lexes ('>' :: s) (.gt :: ts)
  | append {s ts} (h : Lexes s ts) : Lexes ('>' :: '>' :: s) (.append :: ts)
  | word {w s ts} (hw : w ≠ []) (hall : ∀ c ∈ w, isWord c = true)
      (hend : ∀ c ∈ s.head?, isWord c = false) (h : Lexes s ts) : Lexes (w ++ s) (.word w :: ts)

/-- The later redirections are outside. -/
def Cmd.redirs {α : Type*} (cmd : Cmd α) (rs : List (Redir α)) : Cmd α := rs.foldl .redir cmd

/-- One `back` for every `&`. -/
def Cmd.backs {α : Type*} (cmd : Cmd α) : ℕ → Cmd α
  | 0 => cmd
  | n + 1 => Cmd.backs (.back cmd) n

/-- `redirs`. -/
inductive Redirs : List Token → List (Redir (List Char)) → Prop
  | nil : Redirs [] []
  | lt {w ts rs} (h : Redirs ts rs) : Redirs (.lt :: .word w :: ts) (⟨w, 0x000, 0⟩ :: rs)
  | gt {w ts rs} (h : Redirs ts rs) :
    Redirs (.gt :: .word w :: ts) (⟨w, 0x001 + 0x200 + 0x400, 1⟩ :: rs)
  | append {w ts rs} (h : Redirs ts rs) :
    Redirs (.append :: .word w :: ts) (⟨w, 0x001 + 0x200, 1⟩ :: rs)

/-- `{word redirs}`, with the words and all the redirections in order. -/
inductive Args : List Token → List (List Char) → List (Redir (List Char)) → Prop
  | nil : Args [] [] []
  | cons {w ts us ws rs rs'} (hr : Redirs ts rs) (h : Args us ws rs') :
    Args (.word w :: (ts ++ us)) (w :: ws) (rs ++ rs')

inductive Nonterminal
  | line
  | pipe
  | exec

/-- The tokens that a nonterminal derives, and the tree of the derivation. -/
inductive Derives : Nonterminal → List Token → Cmd (List Char) → Prop
  | line {ts c} (n : ℕ) (h : Derives .pipe ts c) :
    Derives .line (ts ++ List.replicate n .amp) (c.backs n)
  | seq {ts us c d} (n : ℕ) (h : Derives .pipe ts c) (h' : Derives .line us d) :
    Derives .line (ts ++ (List.replicate n .amp ++ .semi :: us)) (.list (c.backs n) d)
  | single {ts c} (h : Derives .exec ts c) : Derives .pipe ts c
  | pipe {ts us c d} (h : Derives .exec ts c) (h' : Derives .pipe us d) :
    Derives .pipe (ts ++ .bar :: us) (.pipe c d)
  | block {ts us c rs} (h : Derives .line ts c) (hr : Redirs us rs) :
    Derives .exec (.lparen :: (ts ++ .rparen :: us)) (c.redirs rs)
  | exec {ts us ws rs rs'} (hr : Redirs ts rs) (ha : Args us ws rs') (hlen : ws.length < MAXARGS) :
    Derives .exec (ts ++ us) ((Cmd.exec ws).redirs (rs ++ rs'))

/-- The command line is derivable, with the tree. -/
def LineDerives (s : List Char) (tree : Cmd (List Char)) : Prop :=
  ∃ ts, Lexes s ts ∧ Derives .line ts tree

end XV6AndConcurrency.Shell
