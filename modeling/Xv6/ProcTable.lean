import Mathlib.Data.List.Basic
import Mathlib.Logic.Function.Basic
import Xv6.Interleaving

/-!
# The process table

`proc.c` and `sleeplock.c`, run by any number of processors and processes. A processor executes its
scheduler or the kernel thread of a process; a thread goes from one place of the code to the next in
steps between which others may run. `ptable.lock` belongs to the processor that holds it, since it
is released by another thread across `swtch`; what stands between its `acquire` and its `release` is
cut where the half-switched states lie. The other spin locks belong to the process that holds them.

A thread outside of these functions is in `kernel`, where it may call any of them and take and
release spin locks. What happened so far is kept in a log on the side, and so is who stands between
`acquiresleep` and `releasesleep`.
-/
namespace Xv6.ProcTable

open Interleaving

inductive ProcState where
  | unused
  | embryo
  | sleeping
  | runnable
  | running
  | zombie
  deriving DecidableEq, Repr

/-- What a process sleeps on: a process, in `wait`, a sleep lock, or something else. -/
inductive Chan where
  | proc (p : Nat)
  | sleepLock (l : Nat)
  | other (n : Nat)
  deriving DecidableEq, Repr

/-- A spin lock: the one inside a sleep lock, or another one that is not `ptable.lock`. -/
inductive Spin where
  | sleepLock (l : Nat)
  | other (n : Nat)
  deriving DecidableEq, Repr

inductive Nap where
  | wait
  | acquiresleep (l : Nat)
  | code (chan lk : Nat)
  deriving DecidableEq, Repr

def Nap.chan (p : Nat) : Nap → Chan
  | .wait => .proc p
  | .acquiresleep l => .sleepLock l
  | .code chan _ => .other chan

/-- The lock passed to `sleep`, none for `ptable.lock`. -/
def Nap.lock : Nap → Option Spin
  | .wait => none
  | .acquiresleep l => some (.sleepLock l)
  | .code _ lk => some (.other lk)

inductive Wake where
  | releasesleep (l : Nat)
  | code (chan : Chan)
  deriving DecidableEq, Repr

def Wake.chan : Wake → Chan
  | .releasesleep l => .sleepLock l
  | .code chan => chan

inductive Pc where
  | dead
  | kernel
  | allocScan
  | allocRel (np : Option Nat)
  | allocStack (np : Nat)
  | forkCopy (np : Nat)
  | forkParent (np : Nat)
  | forkRun (np : Nat)
  | exitBody
  | exitSched
  | waitScan
  | waitRel (r : BitVec 32)
  | killScan (pid : BitVec 32)
  | killRel (r : BitVec 32)
  | yieldSet
  | yieldSched
  | yieldRel
  | forkret
  | napAcq (n : Nap)
  | napDrop (n : Nap)
  | napSet (n : Nap)
  | napSched (n : Nap)
  | napWoken (n : Nap)
  | napRel (n : Nap)
  | napTake (n : Nap)
  | wakeAcq (w : Wake)
  | wakeScan (w : Wake)
  | wakeRel (w : Wake)
  | lockTest (l : Nat)
  | lockRel (l : Nat)
  | unlockSet (l : Nat)
  | unlockRel (l : Nat)
  deriving DecidableEq, Repr

/-- The thread runs with `ptable.lock` held, by its processor. -/
def Pc.holds : Pc → Bool
  | .allocScan | .allocRel _ | .exitBody | .exitSched | .waitScan | .waitRel _ | .killScan _ | .killRel _ => true
  | .yieldSet | .yieldSched | .yieldRel | .forkret => true
  | .napDrop _ | .napSet _ | .napSched _ | .napWoken _ | .napRel _ | .wakeScan _ | .wakeRel _ => true
  | _ => false

/-- The state of a process whose thread a processor executes. -/
def Pc.ownState : Pc → ProcState
  | .yieldSched => .runnable
  | .napSched _ => .sleeping
  | .exitSched => .zombie
  | _ => .running

/-- Where the thread goes on when it comes back from `swtch`. -/
def Pc.afterSwtch : Pc → Option Pc
  | .yieldSched => some .yieldRel
  | .napSched n => some (.napWoken n)
  | .exitSched => some .dead
  | _ => none

/-- `acquire(&ptable.lock)` on the way. -/
def Pc.afterAcquire : Pc → Option Pc
  | .napAcq n => some (.napDrop n)
  | .wakeAcq w => some (.wakeScan w)
  | _ => none

def Pc.afterRelease : Pc → Option Pc
  | .allocRel none => some .kernel
  | .allocRel (some np) => some (.allocStack np)
  | .waitRel _ | .killRel _ | .yieldRel | .forkret => some .kernel
  | .napRel n => some (.napTake n)
  | .wakeRel (.code _) => some .kernel
  | .wakeRel (.releasesleep l) => some (.unlockRel l)
  | _ => none

/-- Where `sleep` returns to, once it holds its lock again. -/
def Nap.back : Nap → Pc
  | .wait => .waitScan
  | .acquiresleep l => .lockTest l
  | .code _ _ => .kernel

/-- The functions that begin with `acquire(&ptable.lock)`. -/
inductive Call where
  | fork
  | exit
  | wait
  | kill (pid : BitVec 32)
  | yield
  | wakeup (chan : Chan)
  deriving DecidableEq, Repr

def Call.enter : Call → Pc
  | .fork => .allocScan
  | .exit => .exitBody
  | .wait => .waitScan
  | .kill pid => .killScan pid
  | .yield => .yieldSet
  | .wakeup chan => .wakeScan (.code chan)

/-- `struct proc`: of the kernel stack and the saved context, whether they are there. -/
structure Proc where
  state : ProcState
  pid : BitVec 32
  parent : Option Nat
  chan : Option Chan
  killed : Bool
  kstack : Bool
  saved : Bool
  pc : Pc
  deriving DecidableEq, Repr

/-- What a processor executes: its scheduler, which has come as far as slot `i`, or a thread. -/
inductive On where
  | idle
  | scan (i : Nat)
  | picked (i : Nat)
  | enter (i : Nat)
  | thread (p : Nat)
  | back (i : Nat)
  deriving DecidableEq, Repr

structure Cpu where
  proc : Option Nat
  on : On
  deriving DecidableEq, Repr

inductive Event where
  | alloc (p : Nat) (pid : BitVec 32)
  | failed (p : Nat) (pid : BitVec 32)
  | kill (pid : BitVec 32)
  | exited (p : Nat) (pid : BitVec 32)
  | reaped (p q : Nat) (pid : BitVec 32)
  deriving DecidableEq, Repr

/-- What a call leaves in the log when it begins. -/
def Call.events : Call → List Event
  | .kill pid => [.kill pid]
  | _ => []

structure State where
  procs : Nat → Proc
  cpus : Nat → Cpu
  ptable : Option Nat
  spins : Spin → Option Nat
  locked : Nat → Bool
  inside : Nat → Nat → Bool
  nextpid : BitVec 32
  log : List Event

def initproc : Nat := 0

def State.setProc (s : State) (p : Nat) (x : Proc) : State := { s with procs := Function.update s.procs p x }

def State.setPc (s : State) (p : Nat) (pc : Pc) : State := s.setProc p { s.procs p with pc := pc }

def State.setCpu (s : State) (c : Nat) (x : Cpu) : State := { s with cpus := Function.update s.cpus c x }

def State.setSpin (s : State) (lk : Spin) (o : Option Nat) : State :=
    { s with spins := Function.update s.spins lk o }

def State.note (s : State) (e : Event) : State := { s with log := e :: s.log }

def Proc.wake (x : Proc) (chan : Chan) : Proc :=
  if x.state = .sleeping ∧ x.chan = some chan then { x with state := .runnable } else x

def wakeup1 (s : State) (chan : Chan) : State := { s with procs := fun p => (s.procs p).wake chan }

/-- `wakeup1` on a pointer to a process, which may be 0. -/
def wakeupParent (s : State) : Option Nat → State
  | some q => wakeup1 s (.proc q)
  | none => s

/-- The loop of `exit` over the children: all go to `initproc`, which is woken if one has exited. -/
def reparent (s : State) (p : Nat) (n : Nat) : State :=
  let s' := { s with procs := fun q =>
    if (s.procs q).parent = some p then { s.procs q with parent := some initproc } else s.procs q }
  if (List.range n).any (fun q => (s.procs q).parent = some p && (s.procs q).state = .zombie)
  then wakeup1 s' (.proc initproc) else s'

def exitBody (s : State) (p : Nat) (n : Nat) : State :=
  let s := reparent (wakeupParent s (s.procs p).parent) p n
  (s.setProc p { s.procs p with state := .zombie, pc := .exitSched }).note (.exited p (s.procs p).pid)

/-- `wait` frees the child `q`. -/
def Proc.reap (x : Proc) : Proc :=
  { x with pid := 0, parent := none, killed := false, kstack := false, state := .unused }

def Proc.kill (x : Proc) : Proc :=
  { x with killed := true, state := if x.state = .sleeping then .runnable else x.state }

/-- `fork` without memory for the child: the slot is `UNUSED` again, its other fields are left. -/
def giveUp (s : State) (p np : Nat) : State :=
  ((s.setProc np { s.procs np with kstack := false, state := .unused }).setPc p .kernel).note
    (.failed np (s.procs np).pid)

def slot (n : Nat) (P : Nat → Bool) : Option Nat := (List.range n).find? P

inductive Act where
  | sched (c : Nat)
  | call (c : Nat) (f : Call)
  | acquire (c lk : Nat)
  | release (c lk : Nat)
  | sleep (c chan lk : Nat)
  | acquiresleep (c l : Nat)
  | releasesleep (c l : Nat)
  | go (c : Nat)
  | fail (c : Nat)
  | intr (chan : Chan)
  deriving DecidableEq, Repr

inductive Step (n : Nat) : State → Act → State → Prop
  | schedAcquire {s : State} {c : Nat} (hon : (s.cpus c).on = .idle) (hfree : s.ptable = none) :
      Step n s (.sched c) ({ s with ptable := some c }.setCpu c ⟨none, .scan 0⟩)
  | schedSkip {s : State} {c i : Nat} (hon : (s.cpus c).on = .scan i) (hi : i < n)
      (hst : (s.procs i).state ≠ .runnable) : Step n s (.sched c) (s.setCpu c ⟨none, .scan (i + 1)⟩)
  | schedPick {s : State} {c i : Nat} (hon : (s.cpus c).on = .scan i) (hi : i < n)
      (hst : (s.procs i).state = .runnable) : Step n s (.sched c) (s.setCpu c ⟨some i, .picked i⟩)
  | schedRun {s : State} {c i : Nat} (hon : (s.cpus c).on = .picked i) :
      Step n s (.sched c) ((s.setProc i { s.procs i with state := .running }).setCpu c ⟨some i, .enter i⟩)
  | schedEnter {s : State} {c i : Nat} (hon : (s.cpus c).on = .enter i) :
      Step n s (.sched c) ((s.setProc i { s.procs i with saved := false }).setCpu c ⟨some i, .thread i⟩)
  | schedBack {s : State} {c i : Nat} (hon : (s.cpus c).on = .back i) :
      Step n s (.sched c) (s.setCpu c ⟨none, .scan (i + 1)⟩)
  | schedRelease {s : State} {c i : Nat} (hon : (s.cpus c).on = .scan i) (hi : n ≤ i) :
      Step n s (.sched c) ({ s with ptable := none }.setCpu c ⟨none, .idle⟩)
  | call {s : State} {c p : Nat} {f : Call} (hon : (s.cpus c).on = .thread p) (hpc : (s.procs p).pc = .kernel)
      (hfree : s.ptable = none) (hinit : f = .exit → p ≠ initproc) :
      Step n s (.call c f) ({ s with ptable := some c, log := f.events ++ s.log }.setPc p f.enter)
  | lock {s : State} {c p : Nat} {pc : Pc} (hon : (s.cpus c).on = .thread p)
      (hpc : (s.procs p).pc.afterAcquire = some pc) (hfree : s.ptable = none) :
      Step n s (.go c) ({ s with ptable := some c }.setPc p pc)
  | unlock {s : State} {c p : Nat} {pc : Pc} (hon : (s.cpus c).on = .thread p)
      (hpc : (s.procs p).pc.afterRelease = some pc) : Step n s (.go c) ({ s with ptable := none }.setPc p pc)
  | swtch {s : State} {c p : Nat} {pc : Pc} (hon : (s.cpus c).on = .thread p)
      (hpc : (s.procs p).pc.afterSwtch = some pc) (hlocks : ∀ lk, s.spins lk ≠ some p) :
      Step n s (.go c) ((s.setProc p { s.procs p with pc := pc, saved := true }).setCpu c ⟨some p, .back p⟩)
  | allocFound {s : State} {c p np : Nat} (hon : (s.cpus c).on = .thread p) (hpc : (s.procs p).pc = .allocScan)
      (hfound : slot n (fun q => (s.procs q).state = .unused) = some np) :
      Step n s (.go c) ((({ s with nextpid := s.nextpid + 1 }.setProc np
        { s.procs np with state := .embryo, pid := s.nextpid }).setPc p (.allocRel (some np))).note
          (.alloc np s.nextpid))
  | allocNone {s : State} {c p : Nat} (hon : (s.cpus c).on = .thread p) (hpc : (s.procs p).pc = .allocScan)
      (hfull : slot n (fun q => (s.procs q).state = .unused) = none) :
        Step n s (.go c) (s.setPc p (.allocRel none))
  | allocStack {s : State} {c p np : Nat} (hon : (s.cpus c).on = .thread p)
      (hpc : (s.procs p).pc = .allocStack np) :
      Step n s (.go c) ((s.setProc np { s.procs np with
        kstack := true, saved := true, pc := .forkret }).setPc p (.forkCopy np))
  | stackFail {s : State} {c p np : Nat} (hon : (s.cpus c).on = .thread p)
      (hpc : (s.procs p).pc = .allocStack np) :
      Step n s (.fail c) (giveUp s p np)
  | forkCopy {s : State} {c p np : Nat} (hon : (s.cpus c).on = .thread p) (hpc : (s.procs p).pc = .forkCopy np) :
      Step n s (.go c) (s.setPc p (.forkParent np))
  | copyFail {s : State} {c p np : Nat} (hon : (s.cpus c).on = .thread p) (hpc : (s.procs p).pc = .forkCopy np) :
      Step n s (.fail c) (giveUp s p np)
  | forkParent {s : State} {c p np : Nat} (hon : (s.cpus c).on = .thread p)
      (hpc : (s.procs p).pc = .forkParent np) :
      Step n s (.go c) ((s.setProc np { s.procs np with parent := some p }).setPc p (.forkRun np))
  | forkRun {s : State} {c p np : Nat} (hon : (s.cpus c).on = .thread p) (hpc : (s.procs p).pc = .forkRun np) :
      Step n s (.go c) ((s.setProc np { s.procs np with state := .runnable }).setPc p .kernel)
  | exitBody {s : State} {c p : Nat} (hon : (s.cpus c).on = .thread p) (hpc : (s.procs p).pc = .exitBody) :
      Step n s (.go c) (exitBody s p n)
  | waitReap {s : State} {c p q : Nat} (hon : (s.cpus c).on = .thread p) (hpc : (s.procs p).pc = .waitScan)
      (hfound : slot n (fun q => (s.procs q).parent = some p && (s.procs q).state = .zombie) = some q) :
      Step n s (.go c) (((s.setProc q (s.procs q).reap).setPc p (.waitRel (s.procs q).pid)).note
        (.reaped p q (s.procs q).pid))
  | waitNone {s : State} {c p : Nat} (hon : (s.cpus c).on = .thread p) (hpc : (s.procs p).pc = .waitScan)
      (hnone : slot n (fun q => (s.procs q).parent = some p && (s.procs q).state = .zombie) = none)
      (hkids : slot n (fun q => (s.procs q).parent = some p) = none ∨ (s.procs p).killed = true) :
      Step n s (.go c) (s.setPc p (.waitRel (-1)))
  | waitSleep {s : State} {c p : Nat} (hon : (s.cpus c).on = .thread p) (hpc : (s.procs p).pc = .waitScan)
      (hnone : slot n (fun q => (s.procs q).parent = some p && (s.procs q).state = .zombie) = none)
      (hkids : slot n (fun q => (s.procs q).parent = some p) ≠ none) (hkilled : (s.procs p).killed = false) :
      Step n s (.go c) (s.setPc p (.napSet .wait))
  | killFound {s : State} {c p q : Nat} {pid : BitVec 32} (hon : (s.cpus c).on = .thread p)
      (hpc : (s.procs p).pc = .killScan pid) (hfound : slot n (fun q => (s.procs q).pid = pid) = some q) :
      Step n s (.go c) ((s.setProc q (s.procs q).kill).setPc p (.killRel 0))
  | killNone {s : State} {c p : Nat} {pid : BitVec 32} (hon : (s.cpus c).on = .thread p)
      (hpc : (s.procs p).pc = .killScan pid) (hnone : slot n (fun q => (s.procs q).pid = pid) = none) :
      Step n s (.go c) (s.setPc p (.killRel (-1)))
  | yieldSet {s : State} {c p : Nat} (hon : (s.cpus c).on = .thread p) (hpc : (s.procs p).pc = .yieldSet) :
      Step n s (.go c) (s.setProc p { s.procs p with state := .runnable, pc := .yieldSched })
  | napDrop {s : State} {c p : Nat} {nap : Nap} {lk : Spin} (hon : (s.cpus c).on = .thread p)
      (hpc : (s.procs p).pc = .napDrop nap) (hlk : nap.lock = some lk) :
      Step n s (.go c) ((s.setSpin lk none).setPc p (.napSet nap))
  | napSet {s : State} {c p : Nat} {nap : Nap} (hon : (s.cpus c).on = .thread p)
      (hpc : (s.procs p).pc = .napSet nap) :
      Step n s (.go c)
        (s.setProc p { s.procs p with chan := some (nap.chan p), state := .sleeping, pc := .napSched nap })
  | napWoken {s : State} {c p : Nat} {nap : Nap} (hon : (s.cpus c).on = .thread p)
      (hpc : (s.procs p).pc = .napWoken nap) :
      Step n s (.go c) (s.setProc p { s.procs p with
        chan := none, pc := if nap = .wait then nap.back else .napRel nap })
  | napTake {s : State} {c p : Nat} {nap : Nap} {lk : Spin} (hon : (s.cpus c).on = .thread p)
      (hpc : (s.procs p).pc = .napTake nap) (hlk : nap.lock = some lk) (hfree : s.spins lk = none) :
      Step n s (.go c) ((s.setSpin lk (some p)).setPc p nap.back)
  | wakeScan {s : State} {c p : Nat} {w : Wake} (hon : (s.cpus c).on = .thread p)
      (hpc : (s.procs p).pc = .wakeScan w) :
      Step n s (.go c) ((wakeup1 s w.chan).setPc p (.wakeRel w))
  | intr {s : State} {chan : Chan} (hfree : s.ptable = none) : Step n s (.intr chan) (wakeup1 s chan)
  | acquire {s : State} {c p lk : Nat} (hon : (s.cpus c).on = .thread p) (hpc : (s.procs p).pc = .kernel)
      (hfree : s.spins (.other lk) = none) : Step n s (.acquire c lk) (s.setSpin (.other lk) (some p))
  | release {s : State} {c p lk : Nat} (hon : (s.cpus c).on = .thread p) (hpc : (s.procs p).pc = .kernel)
      (hheld : s.spins (.other lk) = some p) : Step n s (.release c lk) (s.setSpin (.other lk) none)
  | sleep {s : State} {c p chan lk : Nat} (hon : (s.cpus c).on = .thread p) (hpc : (s.procs p).pc = .kernel)
      (hheld : s.spins (.other lk) = some p) : Step n s (.sleep c chan lk) (s.setPc p (.napAcq (.code chan lk)))
  | acquiresleep {s : State} {c p l : Nat} (hon : (s.cpus c).on = .thread p) (hpc : (s.procs p).pc = .kernel)
      (hfree : s.spins (.sleepLock l) = none) :
      Step n s (.acquiresleep c l) ((s.setSpin (.sleepLock l) (some p)).setPc p (.lockTest l))
  | lockBusy {s : State} {c p l : Nat} (hon : (s.cpus c).on = .thread p) (hpc : (s.procs p).pc = .lockTest l)
      (hlocked : s.locked l = true) : Step n s (.go c) (s.setPc p (.napAcq (.acquiresleep l)))
  | lockTake {s : State} {c p l : Nat} (hon : (s.cpus c).on = .thread p) (hpc : (s.procs p).pc = .lockTest l)
      (hlocked : s.locked l = false) :
      Step n s (.go c) ({ s with locked := Function.update s.locked l true }.setPc p (.lockRel l))
  | lockRel {s : State} {c p l : Nat} (hon : (s.cpus c).on = .thread p) (hpc : (s.procs p).pc = .lockRel l) :
      Step n s (.go c) ({ s with
        inside := Function.update s.inside p (Function.update (s.inside p) l true) }.setSpin
        (.sleepLock l) none |>.setPc p .kernel)
  | releasesleep {s : State} {c p l : Nat} (hon : (s.cpus c).on = .thread p) (hpc : (s.procs p).pc = .kernel)
      (hinside : s.inside p l = true) (hfree : s.spins (.sleepLock l) = none) :
      Step n s (.releasesleep c l)
        ({ s with inside := Function.update s.inside p (Function.update (s.inside p) l false) }.setSpin
          (.sleepLock l) (some p) |>.setPc p (.unlockSet l))
  | unlockSet {s : State} {c p l : Nat} (hon : (s.cpus c).on = .thread p) (hpc : (s.procs p).pc = .unlockSet l) :
      Step n s (.go c) ({ s with locked := Function.update s.locked l false }.setPc p (.wakeAcq (.releasesleep l)))
  | unlockRel {s : State} {c p l : Nat} (hon : (s.cpus c).on = .thread p) (hpc : (s.procs p).pc = .unlockRel l) :
      Step n s (.go c) ((s.setSpin (.sleepLock l) none).setPc p .kernel)

def freeSlot : Proc := ⟨.unused, 0, none, none, false, false, false, .dead⟩

/-- The table after `userinit`, no processor having started its scheduler. -/
def initial : State where
  procs := Function.update (fun _ => freeSlot) initproc ⟨.runnable, 1, none, none, false, true, true, .forkret⟩
  cpus := fun _ => ⟨none, .idle⟩
  ptable := none
  spins := fun _ => none
  locked := fun _ => false
  inside := fun _ _ => false
  nextpid := 2
  log := []

def kernel (n : Nat) : System State Act where
  init s := s = initial
  step := Step n

end Xv6.ProcTable
