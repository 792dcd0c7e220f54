import Xv6.Interleaving
import Xv6.RingBuffer
import Xv6.Words

/-!
# The console's line discipline

`consoleintr` and `consoleread` of `console.c`. The handler takes one character in a step; a read
runs under `input.lock` from where it takes the lock, or wakes up in `sleep`, to where it returns or
goes to sleep again. ^Z and ^P do not touch the buffer.

Beside the machine stand a line editor without indices, and a log of what the reads take out, each
byte with the number of the read that took it.
-/
namespace Xv6.Console

open Words Interleaving RingBuffer Function

def inputBuf : Nat := 128

def newline : Byte := 0x0a
def ctrlD : Byte := 0x04

structure Input where
  buf : Nat → Byte
  r : BitVec 32
  w : BitVec 32
  e : BitVec 32

/-- The loop for ^U; the fuel is the number of characters it can erase. -/
def killLine : Nat → Input → Input
  | 0, i => i
  | n + 1, i =>
    if i.e ≠ i.w ∧ i.buf (slot inputBuf (i.e - 1)) ≠ newline then killLine n { i with e := i.e - 1 } else i

def typed (i : Input) (c : Byte) : Input × Bool :=
  if c ≠ 0 ∧ (i.e - i.r).toNat < inputBuf then
    let c := if c = 0x0d then newline else c
    let i := { i with buf := update i.buf (slot inputBuf i.e) c, e := i.e + 1 }
    if c = newline ∨ c = ctrlD ∨ i.e = i.r + BitVec.ofNat 32 inputBuf then
      ({ i with w := i.e }, true) else (i, false)
  else (i, false)

/-- One character; the flag says that `wakeup(&input.r)` is called. -/
def consoleintr (i : Input) (c : Byte) : Input × Bool :=
  if c = 0x1a ∨ c = 0x10 then (i, false)
  else if c = 0x15 then (killLine (count i.w i.e) i, false)
  else if c = 0x08 ∨ c = 0x7f then (if i.e ≠ i.w then { i with e := i.e - 1 } else i, false)
  else typed i c

/-- How a section of `consoleread` ends. A ^D is taken by `eof` and put back by `held`. -/
inductive Ending where
  | full
  | newline
  | eof
  | held
  | asleep
  | failed
  deriving DecidableEq, Repr

/-- The loop of `consoleread(ip, off, dst, target)` with `n` bytes to go and `got` in `dst`. -/
def readLoop (killed : Bool) (target : Nat) : Nat → Input → List Byte → Input × List Byte × Ending
  | 0, i, got => (i, got, .full)
  | n + 1, i, got =>
    if i.r = i.w then (i, got, if killed then .failed else .asleep)
    else
      let c := i.buf (slot inputBuf i.r)
      let i := { i with r := i.r + 1 }
      if c = ctrlD then
        if n + 1 < target then ({ i with r := i.r - 1 }, got, .held) else (i, got, .eof)
      else if c = newline then (i, got ++ [c], .newline)
      else readLoop killed target n i (got ++ [c])

structure Editor where
  committed : List Byte
  line : List Byte

def Editor.append (ed : Editor) (unread : Nat) (c : Byte) : Editor :=
  if c ≠ 0 ∧ unread + ed.line.length < inputBuf then
    let c := if c = 0x0d then newline else c
    let line := ed.line ++ [c]
    if c = newline ∨ c = ctrlD ∨ unread + line.length = inputBuf then ⟨ed.committed ++ line, []⟩
    else { ed with line := line }
  else ed

/-- A character typed while `unread` committed bytes are not read yet. -/
def Editor.type (ed : Editor) (unread : Nat) (c : Byte) : Editor :=
  if c = 0x1a ∨ c = 0x10 then ed
  else if c = 0x15 then { ed with line := [] }
  else if c = 0x08 ∨ c = 0x7f then { ed with line := ed.line.dropLast }
  else ed.append unread c

/-- A process in a read has the number of the read, the size it asked for and what it got so far. -/
inductive Pc where
  | user
  | reading (id target : Nat) (got : List Byte) (asleep : Bool)
  deriving DecidableEq, Repr

/-- A read that returned; `pos` is how many bytes had been taken until then. -/
structure Result where
  id : Nat
  target : Nat
  bytes : List Byte
  ending : Ending
  pos : Nat
  deriving DecidableEq, Repr

structure State where
  input : Input
  procs : Nat → Pc
  killed : Nat → Bool
  calls : Nat
  editor : Editor
  log : List (Nat × Byte)
  results : List Result

def Pc.wake : Pc → Pc
  | .user => .user
  | .reading id target got _ => .reading id target got false

inductive Act where
  | intr (c : Byte)
  | call (p : Nat) (n : Int)
  | run (p : Nat)
  | kill (p : Nat)

def takenBy (id : Nat) (got got' : List Byte) (ending : Ending) : List (Nat × Byte) :=
  (got'.drop got.length ++ if ending = .eof then [ctrlD] else []).map (fun b => (id, b))

def consoleread (s : State) (p id target : Nat) (got : List Byte) : State :=
  let (input, got', ending) := readLoop (s.killed p) target (target - got.length) s.input got
  let log := s.log ++ takenBy id got got' ending
  match ending with
  | .asleep => { s with input := input, log := log, procs := update s.procs p (.reading id target got' true) }
  | .failed => { s with input := input, log := log, procs := update s.procs p .user }
  | ending =>
    { s with input := input, log := log, procs := update s.procs p .user,
             results := s.results ++ [⟨id, target, got', ending, log.length⟩] }

def next (s : State) : Act → Option State
  | .intr c =>
    let (input, woken) := consoleintr s.input c
    some { s with input := input, procs := if woken then fun p => (s.procs p).wake else s.procs,
                  editor := s.editor.type (s.editor.committed.length - s.log.length) c }
  | .call p n =>
    match s.procs p with
    | .user => some { s with procs := update s.procs p (.reading s.calls n.toNat [] false), calls := s.calls + 1 }
    | _ => none
  | .run p =>
    match s.procs p with
    | .reading id target got false => some (consoleread s p id target got)
    | _ => none
  | .kill p => some { s with killed := update s.killed p true, procs := update s.procs p (s.procs p).wake }

def init : State := ⟨⟨fun _ => 0, 0, 0, 0⟩, fun _ => .user, fun _ => false, 0, ⟨[], []⟩, [], []⟩

def system : System State Act where
  init := fun s => s = init
  step := fun s a s' => next s a = some s'

def Spared (_ : State) : Act → Prop
  | .kill _ => False
  | _ => True

end Xv6.Console
