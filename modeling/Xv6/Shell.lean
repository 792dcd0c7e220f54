import Mathlib.Data.List.Basic
import Xv6.Words

/-!
# The parser of the shell

`gettoken`, `peek` and the recursive descent of `sh.c`. A pointer into the line is the part of the
line from it to the end, and a word is the pair of pointers to its first character and past its last
one. Memory does not run out. A loop and a call take one unit of fuel each.
-/
namespace Xv6.Shell

open Words

def maxArgs : Nat := 10

/-- `strchr(whitespace, c)`, for " \t\r\n\v". -/
def isSpace (c : Byte) : Bool := [0x20, 0x09, 0x0d, 0x0a, 0x0b].contains c

/-- `strchr(symbols, c)`, for "<|>&;()". -/
def isSymbol (c : Byte) : Bool := [0x3c, 0x7c, 0x3e, 0x26, 0x3b, 0x28, 0x29].contains c

/-- What `gettoken` returns: a symbol, `+` for `>>`, `a` for a word, or 0 at the end. -/
inductive Kind where
  | eof | bar | lpar | rpar | semi | amp | lt | gt | gtgt | word
  deriving DecidableEq, Repr

structure Span where
  q : List Byte
  eq : List Byte
  deriving DecidableEq, Repr

/-- `while(s < es && strchr(whitespace, *s)) s++`. -/
def skip (s : List Byte) : List Byte := s.dropWhile isSpace

def symbol (c : Byte) : Option Kind :=
  if c = 0x7c then some .bar else if c = 0x28 then some .lpar else if c = 0x29 then some .rpar
  else if c = 0x3b then some .semi else if c = 0x26 then some .amp else if c = 0x3c then some .lt else none

/-- The kind of the token at `s`, which is not a space, and the pointer past it. -/
def token : List Byte → Kind × List Byte
  | [] => (.eof, [])
  | c :: s =>
    match symbol c with
    | some k => (k, s)
    | none =>
      if c = 0x3e then
        match s with
        | 0x3e :: s => (.gtgt, s)
        | s => (.gt, s)
      else (.word, (c :: s).dropWhile (fun c => !isSpace c && !isSymbol c))

/-- The kind of the next token, the pointers to it, and `*ps` afterwards. -/
def gettoken (s : List Byte) : Kind × Span × List Byte :=
  let q := skip s
  let (ret, eq) := token q
  (ret, ⟨q, eq⟩, skip eq)

/-- Whether the next character is one of `toks`, and `*ps` afterwards. -/
def peek (s toks : List Byte) : Bool × List Byte :=
  let s := skip s
  (match s with
    | [] => false
    | c :: _ => toks.contains c, s)

inductive Mode where
  | rdonly
  | wronlyCreate
  deriving DecidableEq, Repr

structure Redir (α : Type) where
  file : α
  mode : Mode
  fd : Nat
  deriving DecidableEq, Repr

/-- A command with the words as `α`. -/
inductive Cmd (α : Type) where
  | exec (argv : List α)
  | redir (cmd : Cmd α) (r : Redir α)
  | pipe (left right : Cmd α)
  | list (left right : Cmd α)
  | back (cmd : Cmd α)
  deriving DecidableEq, Repr

/-- The redirections around a command, the last of them outermost. -/
def Cmd.redirs {α : Type} (cmd : Cmd α) (rs : List (Redir α)) : Cmd α := rs.foldl .redir cmd

/-- Why the parser gives up. `argvIndex` is a store past the end of `argv`. -/
inductive Err where
  | leftovers
  | missingFile
  | parseblock
  | missingParen
  | syntaxError
  | tooManyArgs
  | argvIndex
  | fuel
  deriving DecidableEq, Repr

def parseredirs : Nat → List (Redir Span) → List Byte → Except Err (List (Redir Span) × List Byte)
  | 0, _, _ => .error .fuel
  | n + 1, rs, s =>
    match peek s [0x3c, 0x3e] with
    | (false, s) => .ok (rs, s)
    | (true, s) =>
      let (tok, _, s) := gettoken s
      match gettoken s with
      | (.word, file, s) =>
        match tok with
        | .lt => parseredirs n (rs ++ [⟨file, .rdonly, 0⟩]) s
        | .gt => parseredirs n (rs ++ [⟨file, .wronlyCreate, 1⟩]) s
        | .gtgt => parseredirs n (rs ++ [⟨file, .wronlyCreate, 1⟩]) s
        | _ => parseredirs n rs s
      | _ => .error .missingFile

/-- The loop over the words of a simple command, with `argv` and the redirections so far. -/
def parseargs : Nat → List Span → List (Redir Span) → List Byte →
    Except Err (Cmd Span × List Byte)
  | 0, _, _, _ => .error .fuel
  | n + 1, argv, rs, s =>
    let done (s : List Byte) : Except Err (Cmd Span × List Byte) :=
      if argv.length < maxArgs then .ok ((Cmd.exec argv).redirs rs, s) else .error .argvIndex
    match peek s [0x7c, 0x29, 0x26, 0x3b] with
    | (true, s) => done s
    | (false, s) =>
      match gettoken s with
      | (.eof, _, s) => done s
      | (.word, w, s) =>
        if ¬ argv.length < maxArgs then .error .argvIndex
        else if maxArgs ≤ argv.length + 1 then .error .tooManyArgs
        else do
          let (rs, s) ← parseredirs n rs s
          parseargs n (argv ++ [w]) rs s
      | _ => .error .syntaxError

def parsebacks : Nat → Cmd Span → List Byte → Except Err (Cmd Span × List Byte)
  | 0, _, _ => .error .fuel
  | n + 1, cmd, s =>
    match peek s [0x26] with
    | (false, s) => .ok (cmd, s)
    | (true, s) =>
      let (_, _, s) := gettoken s
      parsebacks n (.back cmd) s

mutual

def parseline : Nat → List Byte → Except Err (Cmd Span × List Byte)
  | 0, _ => .error .fuel
  | n + 1, s => do
    let (cmd, s) ← parsepipe n s
    let (cmd, s) ← parsebacks n cmd s
    match peek s [0x3b] with
    | (false, s) => return (cmd, s)
    | (true, s) =>
      let (_, _, s) := gettoken s
      let (right, s) ← parseline n s
      return (.list cmd right, s)

def parsepipe : Nat → List Byte → Except Err (Cmd Span × List Byte)
  | 0, _ => .error .fuel
  | n + 1, s => do
    let (cmd, s) ← parseexec n s
    match peek s [0x7c] with
    | (false, s) => return (cmd, s)
    | (true, s) =>
      let (_, _, s) := gettoken s
      let (right, s) ← parsepipe n s
      return (.pipe cmd right, s)

def parseexec : Nat → List Byte → Except Err (Cmd Span × List Byte)
  | 0, _ => .error .fuel
  | n + 1, s =>
    match peek s [0x28] with
    | (true, s) => parseblock n s
    | (false, s) => do
      let (rs, s) ← parseredirs n [] s
      parseargs n [] rs s

def parseblock : Nat → List Byte → Except Err (Cmd Span × List Byte)
  | 0, _ => .error .fuel
  | n + 1, s =>
    match peek s [0x28] with
    | (false, _) => .error .parseblock
    | (true, s) => do
      let (_, _, s) := gettoken s
      let (cmd, s) ← parseline n s
      match peek s [0x29] with
      | (false, _) => .error .missingParen
      | (true, s) =>
        let (_, _, s) := gettoken s
        let (rs, s) ← parseredirs n [] s
        return (cmd.redirs rs, s)

end

/-- The ends of the words in a tree, in the order in which `nulterminate` comes to them. -/
def Cmd.ends : Cmd Span → List (List Byte)
  | .exec argv => argv.map Span.eq
  | .redir cmd r => cmd.ends ++ [r.file.eq]
  | .pipe left right => left.ends ++ right.ends
  | .list left right => left.ends ++ right.ends
  | .back cmd => cmd.ends

/-- `*p = 0`, in the buffer that holds a line of `len` characters. -/
def putNul (len : Nat) (buf : List Byte) (p : List Byte) : List Byte := buf.set (len - p.length) 0

def nulterminate (len : Nat) (buf : List Byte) (cmd : Cmd Span) : List Byte := cmd.ends.foldl (putNul len) buf

/-- The tree, and the buffer at `s` with the words ended by NULs. The line is what stands before the
first NUL. -/
def parsecmd (buf : List Byte) : Except Err (Cmd Span × List Byte) := do
  let line := buf.takeWhile (· ≠ 0)
  let (cmd, s) ← parseline (4 * line.length + 4) line
  match peek s [] with
  | (_, []) => return (cmd, nulterminate line.length buf cmd)
  | (_, _ :: _) => .error .leftovers

end Xv6.Shell
