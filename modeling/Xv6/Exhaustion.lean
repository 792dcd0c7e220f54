import Xv6.NewFiles
import Xv6.NullPage

/-!
# Running out of memory

Every system call that allocates, and the page fault of `copyonwrite`, which copies to a page that
it does not look at. A call that runs out of memory reports failure wherever each page used
unchecked has a frame and the size that it does not get is below `2 ^ 47`.
-/
namespace Xv6.Exhaustion

open Words Mmu Memory Kalloc Vm UserPages Exec ExecLoad ExecFrames Kernel KernelInv KernelStep
open PageWalk Boot Interleaving FailStop OutOfMemory KernelHalf NullPage

variable {pgdir v : Word} {x : State × Option Word}
  {m : Machine} {s : State} {sys : Sys} {d : Pgdir}

/-- What a panic of `file.c` does to the machine; a pipe that is gone is a wild pointer. -/
def filePanic {α : Type} : Except OpenFiles.Panic α → Except Trap α
  | .ok a => .ok a
  | .error .fileclose => .error (.panic "fileclose")
  | .error .filedup => .error (.panic "filedup")
  | .error .initExiting => .error (.panic "init exiting")
  | .error .wild => .error (.pageFault 0)

/-- `pipealloc` with the page it takes; `page` is what the pipe's fields and its lock are set to. -/
def pipealloc (m : Machine) (s : State) (fs : OpenFiles.Files) (page : Page) :
    Except Trap (State × OpenFiles.Files × Int) :=
  match OpenFiles.filealloc fs with
  | none => .ok (s, fs, -1)
  | some (fs, f0) =>
    match OpenFiles.filealloc fs with
    | none => do
      let fs ← filePanic (OpenFiles.fileclose fs f0)
      .ok (s, fs, -1)
    | some (fs, f1) => do
      let (s, p) ← kalloc m s
      if p = 0 then
        let fs ← filePanic (OpenFiles.fileclose fs f0)
        let fs ← filePanic (OpenFiles.fileclose fs f1)
        .ok (s, fs, -1)
      else
        access m p
        .ok ({ s with mem := setPage s.mem (ptrFrame p) page }, OpenFiles.newPipe fs (ptrFrame p) f0 f1, 0)

/-- The system calls that allocate, and the page fault. `exec` is made by the task `k` up to its
memory and its table, and finds `file` at the path; `pipe` finds the table `files`. -/
inductive Call where
  | fork (stack : Page)
  | exec (k : Task) (path : List Byte) (file : Option (List Byte)) (argv : List (List Byte))
  | sbrk (n : Word)
  | pipe (files : OpenFiles.Files) (page : Page)
  | fault (v : Word)

def taskOf (sys : Sys) (d : Pgdir) (k : Task) : Task :=
  { k with vm := sys.vm, kpdpt := kva sys.kpdpt, proc := { k.proc with pgdir := kva d.root, sz := d.sz } }

/-- The call by a process with the table `d`; it returns whether failure is reported, which is by -1
from a system call and by 0 from `copyonwrite`, where `trap` kills the process. -/
def perform (m : Machine) (sys : Sys) (d : Pgdir) : Call → Except Trap Bool
  | .fork stack => do
    let x ← Fork.fork m sys d stack
    return x.2 = none
  | .exec k path file argv => do
    let x ← exec m (taskOf sys d k) path file argv
    return x.2 = -1
  | .sbrk n => do
    let x ← Kernel.growproc m sys.vm (kva d.root) d.sz n
    return x.2.2 = -1
  | .pipe files page => do
    let x ← pipealloc m sys.vm files page
    return x.2.2 = -1
  | .fault v => do
    let x ← copyonwrite m sys.vm (kva d.root) v
    return x.2 = 0

/-- The call asks for memory below `2 ^ 47`, or for so much that it is refused at once. For `exec`
these are the segments up to the one for which the frames are too few. -/
def Low (sys : Sys) (d : Pgdir) : Call → Prop
  | .exec _ _ file _ => ∀ c, file = some c → EachSegmentOf c sys.vm.freelist.length LowSegment
  | .sbrk n => 0 < n.toInt → pages (d.sz + n) ≤ 2 ^ 35 ∨ kernBase.toNat ≤ (d.sz + n).toNat
  | _ => True

variable {call : Call}

end Xv6.Exhaustion
