import Mathlib.Data.List.Basic

/-! The parser of `sh.c` over the bytes of one line. Pointers into the line are indices; an access
outside the line or outside `argv` is a fault. -/

namespace Chameleon.Shell

def MAXARGS : Nat := 10

inductive Err
  | panic (msg : String)
  | fault
  | fuel
  deriving DecidableEq

/-- The two ends of a word, as `argv[i]` and `eargv[i]` hold them. -/
abbrev Span := Nat × Nat

/-- `struct redircmd` without its command. -/
structure Redir (W : Type) where
  file : W
  mode : Nat
  fd : Nat
  deriving DecidableEq

inductive Cmd (W : Type)
  | exec (argv : List W)
  | redir (cmd : Cmd W) (r : Redir W)
  | pipe (left right : Cmd W)
  | list (left right : Cmd W)
  | back (cmd : Cmd W)
  deriving DecidableEq

def O_RDONLY : Nat := 0x000
def O_WRONLY : Nat := 0x001
def O_CREATE : Nat := 0x200

/-- `" \t\r\n\v"` -/
def whitespace : List UInt8 := [0x20, 0x09, 0x0D, 0x0A, 0x0B]

def chars (l : List Char) : List UInt8 := l.map Char.toUInt8

def symbols : List UInt8 := chars ['<', '|', '>', '&', ';', '(', ')']

def isSpace (c : UInt8) : Bool := whitespace.contains c

def isWord (c : UInt8) : Bool := !whitespace.contains c && !symbols.contains c

/-- `*s`, where `mem` is the line with its NUL. -/
def deref (mem : List UInt8) (i : Nat) : Except Err UInt8 :=
  match mem[i]? with
  | some c => .ok c
  | none => .error .fault

/-- `while(s < es && p(*s)) s++`, where the first argument is `es - s`. -/
def advance (p : UInt8 → Bool) (mem : List UInt8) : Nat → Nat → Except Err Nat
  | 0, i => .ok i
  | k + 1, i => do
    let c ← deref mem i
    if p c then advance p mem k (i + 1) else .ok i

/-- The switch of `gettoken`: the token and its end. -/
def lexeme (mem : List UInt8) (es q : Nat) : Except Err (UInt8 × Nat) := do
  let c ← deref mem q
  if c = 0 then .ok (0, q)
  else if (chars ['|', '(', ')', ';', '&', '<']).contains c then .ok (c, q + 1)
  else if c = Char.toUInt8 '>' then do
    let d ← deref mem (q + 1)
    .ok (if d = Char.toUInt8 '>' then (Char.toUInt8 '+', q + 2) else (c, q + 1))
  else do
    let eq ← advance isWord mem (es - q) q
    .ok (Char.toUInt8 'a', eq)

/-- The token, its ends, and where the next one may begin. -/
def gettoken (mem : List UInt8) (es i : Nat) : Except Err (UInt8 × Span × Nat) := do
  let q ← advance isSpace mem (es - i) i
  let (ret, eq) ← lexeme mem es q
  let j ← advance isSpace mem (es - eq) eq
  .ok (ret, (q, eq), j)

def peek (mem : List UInt8) (es i : Nat) (toks : List UInt8) : Except Err (Bool × Nat) := do
  let j ← advance isSpace mem (es - i) i
  let c ← deref mem j
  .ok (c != 0 && toks.contains c, j)

/-- The switch of `parseredirs`. -/
def redircmd (tok : UInt8) (file : Span) : List (Redir Span) :=
  if tok = Char.toUInt8 '<' then [⟨file, O_RDONLY, 0⟩]
  else if tok = Char.toUInt8 '>' then [⟨file, O_WRONLY ||| O_CREATE, 1⟩]
  else if tok = Char.toUInt8 '+' then [⟨file, O_WRONLY ||| O_CREATE, 1⟩]
  else []

/-- `parseredirs`. The redirections are returned in the order in which they wrap the command,
which `parseexec` goes on to fill. -/
def parseredirs (mem : List UInt8) (es : Nat) :
    Nat → List (Redir Span) → Nat → Except Err (List (Redir Span) × Nat)
  | 0, _, _ => .error .fuel
  | n + 1, rs, i => do
    let (more, i) ← peek mem es i (chars ['<', '>'])
    if more then do
      let (tok, _, i) ← gettoken mem es i
      let (ret, file, i) ← gettoken mem es i
      if ret ≠ Char.toUInt8 'a' then .error (.panic "missing file for redirection")
      else parseredirs mem es n (rs ++ redircmd tok file) i
    else .ok (rs, i)

/-- The command within its redirections. -/
def wrap {W : Type} (cmd : Cmd W) (rs : List (Redir W)) : Cmd W := rs.foldl .redir cmd

/-- `cmd->argv[argc] = …` -/
def store (argc : Nat) : Except Err Unit := if argc < MAXARGS then .ok () else .error .fault

/-- The loop of `parseexec`. -/
def parseargs (mem : List UInt8) (es : Nat) : Nat → List Span → List (Redir Span) → Nat →
    Except Err ((List Span × List (Redir Span)) × Nat)
  | 0, _, _, _ => .error .fuel
  | n + 1, argv, rs, i => do
    let (stop, i) ← peek mem es i (chars ['|', ')', '&', ';'])
    if stop then .ok ((argv, rs), i)
    else do
      let (tok, w, i) ← gettoken mem es i
      if tok = 0 then .ok ((argv, rs), i)
      else if tok ≠ Char.toUInt8 'a' then .error (.panic "syntax")
      else do
        store argv.length
        if MAXARGS ≤ argv.length + 1 then .error (.panic "too many args")
        else do
          let (rs, i) ← parseredirs mem es n rs i
          parseargs mem es n (argv ++ [w]) rs i

/-- The loop of `parseline`. -/
def parsebacks (mem : List UInt8) (es : Nat) :
    Nat → Cmd Span → Nat → Except Err (Cmd Span × Nat)
  | 0, _, _ => .error .fuel
  | n + 1, cmd, i => do
    let (more, i) ← peek mem es i (chars ['&'])
    if more then do
      let (_, _, i) ← gettoken mem es i
      parsebacks mem es n (.back cmd) i
    else .ok (cmd, i)

mutual

def parseline (mem : List UInt8) (es : Nat) : Nat → Nat → Except Err (Cmd Span × Nat)
  | 0, _ => .error .fuel
  | n + 1, i => do
    let (cmd, i) ← parsepipe mem es n i
    let (cmd, i) ← parsebacks mem es n cmd i
    let (more, i) ← peek mem es i (chars [';'])
    if more then do
      let (_, _, i) ← gettoken mem es i
      let (right, i) ← parseline mem es n i
      .ok (.list cmd right, i)
    else .ok (cmd, i)

def parsepipe (mem : List UInt8) (es : Nat) : Nat → Nat → Except Err (Cmd Span × Nat)
  | 0, _ => .error .fuel
  | n + 1, i => do
    let (cmd, i) ← parseexec mem es n i
    let (more, i) ← peek mem es i (chars ['|'])
    if more then do
      let (_, _, i) ← gettoken mem es i
      let (right, i) ← parsepipe mem es n i
      .ok (.pipe cmd right, i)
    else .ok (cmd, i)

def parseexec (mem : List UInt8) (es : Nat) : Nat → Nat → Except Err (Cmd Span × Nat)
  | 0, _ => .error .fuel
  | n + 1, i => do
    let (block, i) ← peek mem es i (chars ['('])
    if block then parseblock mem es n i
    else do
      let (rs, i) ← parseredirs mem es n [] i
      let ((argv, rs), i) ← parseargs mem es n [] rs i
      store argv.length
      .ok (wrap (.exec argv) rs, i)

def parseblock (mem : List UInt8) (es : Nat) : Nat → Nat → Except Err (Cmd Span × Nat)
  | 0, _ => .error .fuel
  | n + 1, i => do
    let (block, i) ← peek mem es i (chars ['('])
    if block then do
      let (_, _, i) ← gettoken mem es i
      let (cmd, i) ← parseline mem es n i
      let (closed, i) ← peek mem es i (chars [')'])
      if closed then do
        let (_, _, i) ← gettoken mem es i
        let (rs, i) ← parseredirs mem es n [] i
        .ok (wrap cmd rs, i)
      else .error (.panic "syntax - missing )")
    else .error (.panic "parseblock")

end

/-- `*p = 0` -/
def terminate (mem : List UInt8) (i : Nat) : Except Err (List UInt8) :=
  if i < mem.length then .ok (mem.set i 0) else .error .fault

def nulterminate : Cmd Span → List UInt8 → Except Err (List UInt8)
  | .exec argv, mem => do
    -- The loop ends at `argv[argc]`, which is 0.
    store argv.length
    argv.foldlM (fun mem w => terminate mem w.2) mem
  | .redir cmd r, mem => do
    let mem ← nulterminate cmd mem
    terminate mem r.file.2
  | .pipe left right, mem => do
    let mem ← nulterminate left mem
    nulterminate right mem
  | .list left right, mem => do
    let mem ← nulterminate left mem
    nulterminate right mem
  | .back cmd, mem => nulterminate cmd mem

/-- `for(n = 0; s[n]; n++)` -/
def strlen (mem : List UInt8) : Nat → Nat → Except Err Nat
  | 0, _ => .error .fuel
  | k + 1, n => do
    let c ← deref mem n
    if c = 0 then .ok n else strlen mem k (n + 1)

/-- The command, and the line in which its words have been terminated. -/
def parsecmd (fuel : Nat) (mem : List UInt8) : Except Err (Cmd Span × List UInt8) := do
  let es ← strlen mem fuel 0
  let (cmd, i) ← parseline mem es fuel 0
  let (_, i) ← peek mem es i []
  if i ≠ es then .error (.panic "syntax")
  else do
    let mem ← nulterminate cmd mem
    .ok (cmd, mem)

end Chameleon.Shell
