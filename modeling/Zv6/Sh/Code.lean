/-
  The shell's parser (`sh.c`, from `gettoken` to `nulterminate`), function by function.

  A pointer into the line is what is left of the line from there on: `*s` is its first byte, NUL
  at the end of the line (`es`), and `s < es` says that something is left. The cursor `*ps` is
  the state of the code. A word is a pair of pointers, to its first byte and behind its last.
  `panic` prints its message and ends the shell; the leftovers that `parsecmd` prints first are
  what the cursor points to then. `malloc` is taken to succeed.

  The parsing functions call each other without a bound the text shows, so they take a depth;
  `parsecmd` starts with one that is never used up. The loops consume at least a byte a round
  and run on what is left of the line.
-/
import Zv6.Lib.Text
import Zv6.Lib.Wp

namespace Zv6.Sh

open Lib
open Lib.Text (deref)

/-- A pointer into the line. -/
abbrev Ptr := List UInt8

/-- Parsing code. The state is the cursor. -/
abbrev P (α : Type) := Exec Empty Ptr α

/-- The pointers `q` and `eq` of a word. -/
abbrev Span := Ptr × Ptr

/-- `struct cmd` and its variants, over a type of words. -/
inductive Cmd (ω : Type) where
  | exec (argv : List ω)
  | redir (cmd : Cmd ω) (file : ω) (mode fd : Nat)
  | pipe (left right : Cmd ω)
  | list (left right : Cmd ω)
  | back (cmd : Cmd ω)
  deriving DecidableEq, Repr

/-! ## Tokens -/

/-- `" \t\r\n\v"` -/
def whitespace : List UInt8 := [32, 9, 13, 10, 11]

/-- `"<|>&;()"` -/
def symbols : List UInt8 := [60, 124, 62, 38, 59, 40, 41]

/-- `while(s < es && strchr(whitespace, *s)) s++` -/
def skip : Ptr → Ptr
  | [] => []
  | c :: s => if c ∈ whitespace then skip s else c :: s

/-- `while(s < es && !strchr(whitespace, *s) && !strchr(symbols, *s)) s++` -/
def run : Ptr → Ptr
  | [] => []
  | c :: s => if c ∉ whitespace ∧ c ∉ symbols then run s else c :: s

/-- The switch of `gettoken`: the token's code and the pointer behind the token. A word has the
    code `a`, `>>` has the code `+`. -/
def switch (s : Ptr) : UInt8 × Ptr :=
  if deref s = 0 then (0, s)
  else if deref s ∈ [124, 40, 41, 59, 38, 60] then (deref s, s.tail)
  else if deref s = 62 then
    if deref s.tail = 62 then (43, s.tail.tail) else (62, s.tail)
  else (97, run s)

/-- The code of the next token, and its `q` and `eq`. -/
def gettoken : P (UInt8 × Span) := fun s =>
  .ok ((switch (skip s)).1, skip s, (switch (skip s)).2) (skip (switch (skip s)).2)

/-- Does one of `toks` come next? -/
def peek (toks : List UInt8) : P Bool := fun s =>
  .ok (decide (deref (skip s) ≠ 0 ∧ deref (skip s) ∈ toks)) (skip s)

/-! ## Commands -/

/-- `redircmd` as the switch of `parseredirs` calls it: O_RDONLY is 0, O_WRONLY|O_CREATE is
    0x201. -/
def redirect (tok : UInt8) (cmd : Cmd Span) (file : Span) : Cmd Span :=
  if tok = 60 then .redir cmd file 0 0
  else if tok = 62 then .redir cmd file 0x201 1
  else if tok = 43 then .redir cmd file 0x201 1
  else cmd

/-- The loop of `parseredirs`. -/
def redirLoop : (fuel : Nat) → Cmd Span → P (Cmd Span)
  | 0, _ => fun s => .loops s
  | fuel + 1, cmd => do
    if ← peek [60, 62] then
      let (tok, _) ← gettoken
      let (tok', file) ← gettoken
      if tok' ≠ 97 then Exec.panic "missing file for redirection"
      else redirLoop fuel (redirect tok cmd file)
    else pure cmd

def parseredirs (cmd : Cmd Span) : P (Cmd Span) := fun s => redirLoop (s.length + 1) cmd s

/-- `cmd->argv[argc] = q` for the EXEC node that `cmd` points to, inside the redirections around
    it. -/
def Cmd.push {ω : Type} : Cmd ω → ω → Cmd ω
  | .exec argv, w => .exec (argv ++ [w])
  | .redir cmd file mode fd, w => .redir (cmd.push w) file mode fd
  | cmd, _ => cmd

/-- The loop of `parseexec`. MAXARGS is 10. -/
def argLoop : (fuel argc : Nat) → Cmd Span → P (Cmd Span)
  | 0, _, _ => fun s => .loops s
  | fuel + 1, argc, ret => do
    if ← peek [124, 41, 38, 59] then pure ret
    else
      let (tok, w) ← gettoken
      if tok = 0 then pure ret
      else if tok ≠ 97 then Exec.panic "syntax"
      else if 10 ≤ argc + 1 then Exec.panic "too many args"
      else
        let ret ← parseredirs (ret.push w)
        argLoop fuel (argc + 1) ret

/-- `parseexec` of a command that is no block. -/
def parsewords : P (Cmd Span) := do
  let ret ← parseredirs (.exec [])
  fun s => argLoop (s.length + 1) 0 ret s

/-- The loop of `parseline`. -/
def backLoop : (fuel : Nat) → Cmd Span → P (Cmd Span)
  | 0, _ => fun s => .loops s
  | fuel + 1, cmd => do
    if ← peek [38] then
      let _ ← gettoken
      backLoop fuel (.back cmd)
    else pure cmd

def parsebacks (cmd : Cmd Span) : P (Cmd Span) := fun s => backLoop (s.length + 1) cmd s

mutual

def parseline : (depth : Nat) → P (Cmd Span)
  | 0 => fun s => .loops s
  | depth + 1 => do
    let cmd ← parsepipe depth
    let cmd ← parsebacks cmd
    if ← peek [59] then
      let _ ← gettoken
      let rest ← parseline depth
      pure (.list cmd rest)
    else pure cmd

def parsepipe : (depth : Nat) → P (Cmd Span)
  | 0 => fun s => .loops s
  | depth + 1 => do
    let cmd ← parseexec depth
    if ← peek [124] then
      let _ ← gettoken
      let rest ← parsepipe depth
      pure (.pipe cmd rest)
    else pure cmd

def parseblock : (depth : Nat) → P (Cmd Span)
  | 0 => fun s => .loops s
  | depth + 1 => do
    if ← peek [40] then
      let _ ← gettoken
      let cmd ← parseline depth
      if ← peek [41] then
        let _ ← gettoken
        parseredirs cmd
      else Exec.panic "syntax - missing )"
    else Exec.panic "parseblock"

def parseexec : (depth : Nat) → P (Cmd Span)
  | 0 => fun s => .loops s
  | depth + 1 => do
    if ← peek [40] then parseblock depth
    else parsewords

end

/-! ## The buffer -/

/-- Where in the line a pointer points. -/
def offset (line p : Ptr) : Nat := line.length - p.length

/-- NUL-terminate all the counted strings of `cmd` in the buffer. -/
def nulterminate (line : Ptr) : Cmd Span → List UInt8 → List UInt8
  | .exec argv, buf => argv.foldl (fun b w => b.set (offset line w.2) 0) buf
  | .redir cmd file _ _, buf => (nulterminate line cmd buf).set (offset line file.2) 0
  | .pipe left right, buf => nulterminate line right (nulterminate line left buf)
  | .list left right, buf => nulterminate line right (nulterminate line left buf)
  | .back cmd, buf => nulterminate line cmd buf

/-- Parse a line: the command and the buffer its words point into. -/
def parsecmd (line : List UInt8) : Res Empty Ptr (Cmd Span × List UInt8) :=
  (do
    let cmd ← parseline (4 * line.length + 4)
    let _ ← peek []
    let s ← Exec.gets id
    if s ≠ [] then Exec.panic "syntax"
    else pure (cmd, nulterminate line cmd (line ++ [0])) : P _) line

end Zv6.Sh
