import Xv6.Interleaving
import Xv6.LinkedQueue
import Xv6.RedoLog

/-!
# The IDE driver

`ide.c` with any number of processes in `iderw`. A section of `idelock` is one step: `iderw` from
where it takes the lock, or wakes up in `sleep`, to where it returns or goes to sleep again, and the
whole of `ideintr`. The device works on one command in a step of its own and then raises one
interrupt; it reports no errors. Between calls the holder of a buffer does with it what it likes.

On the side stand the buffers appended, started and finished, and for a process in `iderw` the
buffer and its block as they were when it called.
-/
namespace Xv6.Ide

open BlockStore Interleaving LinkedQueue RedoLog Function

def fssize : Nat := 1000

structure Buf where
  valid : Bool
  dirty : Bool
  dev : BitVec 32
  blockno : BlockNo
  lock : Option Nat
  data : Block

/-- `(b->flags & (B_VALID|B_DIRTY)) == B_VALID`. -/
def Buf.ready (b : Buf) : Bool := b.valid && !b.dirty

abbrev Address := Nat × Nat

/-- What `idestart` writes to the registers `0x1f3` to `0x1f6` and, for a write, to the data port.
-/
structure Command where
  low : BitVec 8
  mid : BitVec 8
  high : BitVec 8
  head : BitVec 8
  data : Option Block

/-- How the device reads its registers. -/
def Command.address (c : Command) : Address :=
  (c.head.toNat / 16 % 2, c.low.toNat + 256 * (c.mid.toNat + 256 * (c.high.toNat + 256 * (c.head.toNat % 16))))

inductive Device where
  | idle
  | busy (c : Command)
  | done (c : Command) (data : Block)

inductive Pc where
  | user
  | waiting (b : Nat) (asleep : Bool) (orig : Buf) (before : Block)

structure State where
  bufs : Nat → Buf
  queue : Queue Nat
  device : Device
  disk : Address → Block
  procs : Nat → Pc
  appended : List Nat
  started : List Nat
  finished : List Nat

/-- `BSIZE / SECTOR_SIZE` is 1. -/
def command (b : Buf) : Command :=
  let sector := b.blockno
  { low := (sector &&& 0xff).setWidth 8
    mid := ((sector >>> 8) &&& 0xff).setWidth 8
    high := ((sector >>> 16) &&& 0xff).setWidth 8
    head := (0xe0 ||| ((b.dev &&& 1) <<< 4) ||| ((sector >>> 24) &&& 0x0f)).setWidth 8
    data := if b.dirty then some b.data else none }

def idestart (s : State) (b : Nat) : Option State :=
  if fssize ≤ (s.bufs b).blockno.toNat then none
  else some { s with device := .busy (command (s.bufs b)), started := s.started ++ [b] }

def Pc.wakeup (b : Nat) : Pc → Pc
  | .user => .user
  | .waiting b' asleep orig before => .waiting b' (asleep && b' != b) orig before

/-- What `ideintr` makes of the buffer at the head, with `data` at the data port. -/
def Buf.finish (b : Buf) (data : Block) : Buf :=
  { b with data := if b.dirty then b.data else data, valid := true, dirty := false }

def ideintr (s : State) (data : Block) : Option State :=
  let s := { s with device := .idle }
  match s.queue.head with
  | none => some s
  | some b =>
    let s := { s with
      queue := { s.queue with head := s.queue.next b }
      bufs := update s.bufs b ((s.bufs b).finish data)
      procs := fun p => (s.procs p).wakeup b
      finished := s.finished ++ [b] }
    match s.queue.head with
    | none => some s
    | some b' => idestart s b'

def rest (s : State) (p b : Nat) (orig : Buf) (before : Block) : State :=
  { s with procs := update s.procs p (if (s.bufs b).ready then .user else .waiting b true orig before) }

def Buf.address (b : Buf) : Address := (b.dev.toNat % 2, b.blockno.toNat)

/-- The first section of `iderw(b)`; `nbuf` is how many buffers there are. -/
def iderw (nbuf : Nat) (havedisk1 : Bool) (s : State) (p b : Nat) : Option State :=
  let buf := s.bufs b
  if buf.lock = none then none
  else if buf.ready then none
  else if buf.dev ≠ 0 ∧ havedisk1 = false then none
  else do
    let queue ← s.queue.append (nbuf + 1) b
    let s := { s with queue := queue, appended := s.appended ++ [b] }
    let s ← if s.queue.head = some b then idestart s b else some s
    some (rest s p b buf (s.disk buf.address))

def complete (s : State) (c : Command) : State :=
  let disk := match c.data with
    | some d => put s.disk c.address d
    | none => s.disk
  { s with disk := disk, device := .done c (disk c.address) }

inductive Act where
  | lock (p b : Nat)
  | unlock (p b : Nat)
  | change (p b : Nat) (buf : Buf)
  | call (p b : Nat)
  | run (p : Nat)
  | kill (p : Nat)
  | device
  | intr

def next (nbuf : Nat) (havedisk1 : Bool) (s : State) : Act → Option State
  | .lock p b =>
    if (s.bufs b).lock = none then
      some { s with bufs := update s.bufs b { s.bufs b with lock := some p } } else none
  | .unlock p b =>
    match s.procs p with
    | .user => if (s.bufs b).lock = some p then
        some { s with bufs := update s.bufs b { s.bufs b with lock := none } } else none
    | _ => none
  | .change p b buf =>
    match s.procs p with
    | .user => if (s.bufs b).lock = some p then
        some { s with bufs := update s.bufs b { buf with lock := some p } } else none
    | _ => none
  | .call p b =>
    match s.procs p with
    | .user => iderw nbuf havedisk1 s p b
    | _ => none
  | .run p =>
    match s.procs p with
    | .waiting b false orig before => some (rest s p b orig before)
    | _ => none
  | .kill p =>
    match s.procs p with
    | .waiting b _ orig before => some { s with procs := update s.procs p (.waiting b false orig before) }
    | _ => none
  | .device =>
    match s.device with
    | .busy c => some (complete s c)
    | _ => none
  | .intr =>
    match s.device with
    | .done _ data => ideintr s data
    | _ => none

structure Booted (s : State) : Prop where
  queue : s.queue.head = none
  device : s.device = .idle
  procs : ∀ p, s.procs p = .user
  lock : ∀ b, (s.bufs b).lock = none
  history : s.appended = [] ∧ s.started = [] ∧ s.finished = []

def system (nbuf : Nat) (havedisk1 : Bool) : System State Act where
  init := Booted
  step := fun s a s' => next nbuf havedisk1 s a = some s'

/-- A call is for a buffer that the caller has locked, and for a block of the disk that no other
call is for. -/
def Proper (nbuf : Nat) (s : State) : Act → Prop
  | .call p b => b < nbuf ∧ (s.bufs b).lock = some p ∧ (s.bufs b).blockno.toNat < fssize ∧
      ∀ q b' asleep orig before, s.procs q = .waiting b' asleep orig before → (s.bufs b').address ≠
        (s.bufs b).address
  | _ => True

end Xv6.Ide
