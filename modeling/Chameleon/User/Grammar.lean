import Mathlib.Logic.Function.Iterate
import Chameleon.User.Shell

/-! The tokens of a line, and the grammar of the shell over them. -/

namespace Chameleon.Shell

inductive Op
  | lt
  | gt
  | gtgt
  deriving DecidableEq

inductive Token
  | redir (op : Op)
  | bar
  | amp
  | semi
  | lpar
  | rpar
  | word (w : List UInt8)
  deriving DecidableEq

/-- The token of a symbol other than `>`. -/
def Token.ofSymbol (c : UInt8) : Option Token :=
  if c = Char.toUInt8 '<' then some (.redir .lt)
  else if c = Char.toUInt8 '|' then some .bar
  else if c = Char.toUInt8 '&' then some .amp
  else if c = Char.toUInt8 ';' then some .semi
  else if c = Char.toUInt8 '(' then some .lpar
  else if c = Char.toUInt8 ')' then some .rpar
  else none

/-- A byte before the tokens of what follows it, where it begins or extends a word. -/
def Token.extend (c : UInt8) : List Token → List Token
  | .word w :: ts => .word (c :: w) :: ts
  | ts => .word [c] :: ts

/-- A line cut at whitespace and at symbols, with `>>` as one token. -/
def tokens : List UInt8 → List Token
  | [] => []
  | c :: cs =>
    if isSpace c then tokens cs
    else if c = Char.toUInt8 '>' then
      match cs with
      | [] => [.redir .gt]
      | d :: ds =>
        if d = Char.toUInt8 '>' then .redir .gtgt :: tokens ds else .redir .gt :: tokens (d :: ds)
    else match Token.ofSymbol c with
      | some t => t :: tokens cs
      | none =>
        match cs with
        | [] => [.word [c]]
        | d :: ds =>
          if isWord d then Token.extend c (tokens (d :: ds)) else .word [c] :: tokens (d :: ds)

example : tokens (chars ['l', 's', ' ', '-', 'l', '>', '>', 'x', '|', '(', 'a', ')', '&']) =
    [.word (chars ['l', 's']), .word (chars ['-', 'l']), .redir .gtgt, .word (chars ['x']), .bar,
      .lpar, .word (chars ['a']), .rpar, .amp] := by decide

/-! ### The grammar -/

def Op.redir {W : Type} : Op × W → Redir W
  | (.lt, file) => ⟨file, O_RDONLY, 0⟩
  | (.gt, file) => ⟨file, O_WRONLY ||| O_CREATE, 1⟩
  | (.gtgt, file) => ⟨file, O_WRONLY ||| O_CREATE, 1⟩

abbrev Word := List UInt8

/-- The tokens of `redir*`. -/
def redirTokens (rs : List (Op × Word)) : List Token :=
  rs.flatMap fun r => [.redir r.1, .word r.2]

/-- The tokens of `(word redir*)*`. -/
def argTokens (args : List (Word × List (Op × Word))) : List Token :=
  args.flatMap fun a => .word a.1 :: redirTokens a.2

inductive Phrase
  | line
  | pipe
  | exec

/-- The derivations of the grammar
`line -> pipe '&'* [';' line]`, `pipe -> exec ['|' pipe]`,
`exec -> '(' line ')' redir* | redir* (word redir*)*`,
with the tree that belongs to each of them. -/
inductive Derives : Phrase → List Token → Cmd Word → Prop
  | last {ts c} (k : Nat) (h : Derives .pipe ts c) :
    Derives .line (ts ++ List.replicate k .amp) (Cmd.back^[k] c)
  | list {ts c us d} (k : Nat) (h : Derives .pipe ts c) (h' : Derives .line us d) :
    Derives .line (ts ++ List.replicate k .amp ++ .semi :: us) (.list (Cmd.back^[k] c) d)
  | one {ts c} (h : Derives .exec ts c) : Derives .pipe ts c
  | pipe {ts c us d} (h : Derives .exec ts c) (h' : Derives .pipe us d) :
    Derives .pipe (ts ++ .bar :: us) (.pipe c d)
  | block {ts c} (rs : List (Op × Word)) (h : Derives .line ts c) :
    Derives .exec (.lpar :: ts ++ .rpar :: redirTokens rs) (wrap c (rs.map Op.redir))
  | exec (rs : List (Op × Word)) (args : List (Word × List (Op × Word)))
      (hmax : args.length < MAXARGS) :
    Derives .exec (redirTokens rs ++ argTokens args)
      (wrap (.exec (args.map Prod.fst)) ((rs ++ args.flatMap Prod.snd).map Op.redir))

end Chameleon.Shell
