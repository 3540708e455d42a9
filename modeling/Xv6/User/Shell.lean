import Xv6.Fs.Entry
import Xv6.Lib.Fallible

/-!
# The parser of the shell

`gettoken`, `peek`, the parse functions and `nulterminate` of `sh.c`. The line is the list of its bytes without the
terminating zero. A pointer into it is a position, so that `es` is the length of the line, and the pointer that `ps` points
to is the state of the parser. A parse function panics with the text of the source. The loops and the recursion have fuel;
that it does not run out is shown where the parser is compared with its grammar.
-/

namespace Xv6.Shell

open Fallible Fs

abbrev MAXARGS : ℕ := 10

abbrev O_RDONLY : BitVec 32 := 0

abbrev O_WRONLY : BitVec 32 := 1

/-- What `gettoken` returns, but for the zero at the end of the line: `append` is its `'+'` and `word` its `'a'`. -/
inductive Kind where
  | bar | lpar | rpar | semi | amp | lt | gt | append | word
  deriving DecidableEq

/-- The two ends of a token, `q` and `eq`. -/
structure Span where
  q : ℕ
  eq : ℕ
  deriving DecidableEq

/-- A token of the line. -/
structure Token where
  kind : Kind
  span : Span
  deriving DecidableEq

/-- The trees that `runcmd` takes. The arguments and files are pairs of pointers: `argv` and `eargv`, `file` and `efile`. -/
inductive Cmd where
  | exec (argv : List Span)
  | redir (cmd : Cmd) (file : Span) (mode : BitVec 32) (fd : ℕ)
  | pipe (left right : Cmd)
  | list (left right : Cmd)
  | back (cmd : Cmd)

/-- How the parser ends without a tree. -/
inductive Stop where
  | panic (message : String)
  | fuel

/-- A function with the pointer `ps` points to as its state. -/
abbrev Parser := Fallible ℕ Stop

/-! ### The tokens -/

def isSpace (c : UInt8) : Bool := ([' ', '\t', '\r', '\n', '\x0b'].map Char.toUInt8).contains c

def isSymbol (c : UInt8) : Bool := (['<', '|', '>', '&', ';', '(', ')'].map Char.toUInt8).contains c

/-- A byte that the loop over a word goes on after. -/
def isWord (c : UInt8) : Bool := !isSpace c && !isSymbol c

variable (line : List UInt8)

def byte (s : ℕ) : UInt8 := line.getD s 0

def skip (p : UInt8 → Bool) (s : ℕ) : ℕ :=
  if s < line.length ∧ p (byte line s) then skip p (s + 1) else s
termination_by line.length - s

/-- The cases of the switch in `gettoken` that only step over the byte. -/
def single (c : UInt8) : Option Kind :=
  if c = '|'.toUInt8 then some .bar
  else if c = '('.toUInt8 then some .lpar
  else if c = ')'.toUInt8 then some .rpar
  else if c = ';'.toUInt8 then some .semi
  else if c = '&'.toUInt8 then some .amp
  else if c = '<'.toUInt8 then some .lt
  else none

/-- The switch in `gettoken`: the token that starts at `s`, and where it ends. -/
def scan (s : ℕ) : Option Kind × ℕ :=
  if byte line s = 0 then (none, s)
  else match single (byte line s) with
    | some k => (some k, s + 1)
    | none =>
      if byte line s = '>'.toUInt8 then
        if byte line (s + 1) = '>'.toUInt8 then (some .append, s + 2) else (some .gt, s + 1)
      else (some .word, skip line isWord s)

/-- `gettoken`, `none` if it returns zero. -/
def gettoken : Parser (Option Token) := do
  modify (skip line isSpace)
  let q ← get
  let (kind, eq) := scan line q
  modify fun _ => skip line isSpace eq
  pure (kind.map (⟨·, q, eq⟩))

def peek (toks : List Char) : Parser Bool := do
  modify (skip line isSpace)
  let s ← get
  pure (byte line s != 0 && (toks.map Char.toUInt8).contains (byte line s))

/-! ### The commands -/

def redirect (cmd : Cmd) (tok : Option Kind) (file : Span) : Cmd :=
  match tok with
  | some .lt => .redir cmd file O_RDONLY 0
  | some .gt => .redir cmd file (O_WRONLY ||| O_CREATE ||| O_TRUNC) 1
  | some .append => .redir cmd file (O_WRONLY ||| O_CREATE) 1
  | _ => cmd

def parseredirs : ℕ → Cmd → Parser Cmd
  | 0, _ => throw .fuel
  | fuel + 1, cmd => do
    if ← peek line ['<', '>'] then
      let tok ← gettoken line
      match ← gettoken line with
      | some ⟨.word, file⟩ => parseredirs fuel (redirect cmd (tok.map Token.kind) file)
      | _ => throw (.panic "missing file for redirection")
    else pure cmd

/-- `cmd->argv[argc] = q` and `cmd->eargv[argc] = eq`, with `cmd` the command that the redirections of `ret` are about. -/
def Cmd.push (arg : Span) : Cmd → Cmd
  | .exec argv => .exec (argv ++ [arg])
  | .redir cmd file mode fd => .redir (cmd.push arg) file mode fd
  | cmd => cmd

def parseargs : ℕ → ℕ → Cmd → Parser Cmd
  | 0, _, _ => throw .fuel
  | fuel + 1, argc, ret => do
    if ← peek line ['|', ')', '&', ';'] then pure ret
    else match ← gettoken line with
      | none => pure ret
      | some ⟨.word, arg⟩ =>
        if MAXARGS ≤ argc + 1 then throw (.panic "too many args")
        else do
          let ret ← parseredirs line fuel (ret.push arg)
          parseargs fuel (argc + 1) ret
      | some _ => throw (.panic "syntax")

def parseback : ℕ → Cmd → Parser Cmd
  | 0, _ => throw .fuel
  | fuel + 1, cmd => do
    if ← peek line ['&'] then
      let _ ← gettoken line
      parseback fuel (.back cmd)
    else pure cmd

mutual

def parseline : ℕ → Parser Cmd
  | 0 => throw .fuel
  | fuel + 1 => do
    let cmd ← parsepipe fuel
    let cmd ← parseback line fuel cmd
    if ← peek line [';'] then
      let _ ← gettoken line
      let right ← parseline fuel
      pure (.list cmd right)
    else pure cmd

def parsepipe : ℕ → Parser Cmd
  | 0 => throw .fuel
  | fuel + 1 => do
    let cmd ← parseexec fuel
    if ← peek line ['|'] then
      let _ ← gettoken line
      let right ← parsepipe fuel
      pure (.pipe cmd right)
    else pure cmd

def parseexec : ℕ → Parser Cmd
  | 0 => throw .fuel
  | fuel + 1 => do
    if ← peek line ['('] then parseblock fuel
    else
      let ret ← parseredirs line fuel (.exec [])
      parseargs line fuel 0 ret

def parseblock : ℕ → Parser Cmd
  | 0 => throw .fuel
  | fuel + 1 => do
    if ← peek line ['('] then
      let _ ← gettoken line
      let cmd ← parseline fuel
      if ← peek line [')'] then
        let _ ← gettoken line
        parseredirs line fuel cmd
      else throw (.panic "syntax - missing )")
    else throw (.panic "parseblock")

end

/-- `nulterminate`, on the buffer with the line. -/
def nulterminate : Cmd → List UInt8 → List UInt8
  | .exec argv, buf => argv.foldl (fun buf arg => buf.set arg.eq 0) buf
  | .redir cmd file _ _, buf => (nulterminate cmd buf).set file.eq 0
  | .pipe left right, buf => nulterminate right (nulterminate left buf)
  | .list left right, buf => nulterminate right (nulterminate left buf)
  | .back cmd, buf => nulterminate cmd buf

/-- `parsecmd` up to the call of `nulterminate`. -/
def parseall (fuel : ℕ) : Parser Cmd := do
  let cmd ← parseline line fuel
  let _ ← peek line []
  let s ← get
  if s ≠ line.length then throw (.panic "syntax")
  else pure cmd

/-- `parsecmd`: the tree, and the buffer it points into. -/
def parsecmd (fuel : ℕ) : Except Stop (Cmd × List UInt8) := do
  let (cmd, _) ← parseall line fuel 0
  pure (cmd, nulterminate cmd (line ++ [0]))

end Xv6.Shell
