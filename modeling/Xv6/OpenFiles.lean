import Mathlib.Data.Fintype.Prod
import Mathlib.Data.List.FinRange
import Xv6.Pointers
import Xv6.ProcTable

/-!
# Open files

`file.c`, `pipe.c` as far as it opens and closes, and the system calls that make and drop
descriptors, each run as a whole. What a call finds on its way is its argument, such as the inode
that `namei` or `create` returned to `sys_open`. The rest of the kernel takes pages from the free
list and puts them back.

Every use of a file structure for an inode, and every pipe, has a serial number; a log on the side
says when one began and when `iput` and `krelease` were called for it.
-/
namespace Xv6.OpenFiles

open Xv6.Interleaving Xv6.Pointers
open Xv6.ProcTable (ProcState)
open Function

def nproc : Nat := 64
def nofile : Nat := 16
def nfile : Nat := 100

inductive FileType where
  | none
  | pipe
  | inode
  deriving DecidableEq, Repr

/-- `struct file`; `serial` is the number of its present use. -/
structure File where
  type : FileType
  ref : Nat
  readable : Bool
  writable : Bool
  pipe : Nat
  ip : Nat
  off : Nat
  serial : Nat

/-- `struct pipe` as far as opening and closing goes. -/
structure Pipe where
  readopen : Bool
  writeopen : Bool
  serial : Nat

/-- What a use of an inode or a pipe is known by: its serial number, and the inode or the page. -/
abbrev Use := Nat × Nat

inductive Event where
  | opened (x : Use)
  | iput (x : Use)
  | piped (x : Use)
  | krelease (x : Use)
  deriving DecidableEq, Repr

def Event.serial : Event → Nat
  | .opened x => x.1
  | .iput x => x.1
  | .piped x => x.1
  | .krelease x => x.1

inductive Panic where
  | filedup
  | fileclose
  | wild
  | initExiting
  deriving DecidableEq, Repr

/-- `ftable`, the pages that hold a pipe, the free pages and the log, its last event first. -/
structure Files where
  ftable : Fin nfile → File
  pipes : Nat → Option Pipe
  free : List Nat
  log : List Event

def Files.setFile (fs : Files) (f : Fin nfile) (v : File) : Files := { fs with ftable := update fs.ftable f v }

section
variable (fs : Files) (f : Fin nfile) (v : File)
@[simp] theorem Files.setFile_ftable : (fs.setFile f v).ftable = update fs.ftable f v := rfl
@[simp] theorem Files.setFile_pipes : (fs.setFile f v).pipes = fs.pipes := rfl
@[simp] theorem Files.setFile_free : (fs.setFile f v).free = fs.free := rfl
@[simp] theorem Files.setFile_log : (fs.setFile f v).log = fs.log := rfl
end

def filealloc (fs : Files) : Option (Files × Fin nfile) :=
  match (List.finRange nfile).find? (fun f => (fs.ftable f).ref = 0) with
  | some f => some (fs.setFile f { fs.ftable f with ref := 1 }, f)
  | none => none

def filedup (fs : Files) (f : Fin nfile) : Except Panic Files :=
  if (fs.ftable f).ref < 1 then .error .filedup
  else .ok (fs.setFile f { fs.ftable f with ref := (fs.ftable f).ref + 1 })

def kalloc (fs : Files) : Option (Files × Nat) :=
  match fs.free with
  | [] => none
  | page :: free => some ({ fs with free := free }, page)

def krelease (fs : Files) (page serial : Nat) : Files :=
  { fs with pipes := update fs.pipes page none, free := page :: fs.free, log := .krelease (serial, page) :: fs.log }

def Pipe.close (p : Pipe) (writable : Bool) : Pipe :=
  if writable then { p with writeopen := false } else { p with readopen := false }

/-- `pipeclose`; a page that holds no pipe is none of its business. -/
def pipeclose (fs : Files) (page : Nat) (writable : Bool) : Except Panic Files :=
  match fs.pipes page with
  | none => .error .wild
  | some p =>
    let p := p.close writable
    if p.readopen = false ∧ p.writeopen = false then .ok (krelease fs page p.serial)
    else .ok { fs with pipes := update fs.pipes page (some p) }

def fileclose (fs : Files) (f : Fin nfile) : Except Panic Files :=
  let ff := fs.ftable f
  if ff.ref < 1 then .error .fileclose
  else if 0 < ff.ref - 1 then .ok (fs.setFile f { ff with ref := ff.ref - 1 })
  else
    let fs := fs.setFile f { ff with ref := 0, type := .none }
    match ff.type with
    | .pipe => pipeclose fs ff.pipe ff.writable
    | .inode => .ok { fs with log := .iput (ff.serial, ff.ip) :: fs.log }
    | .none => .ok fs

def pipeFile (v : File) (page serial : Nat) (writable : Bool) : File :=
  { v with type := .pipe, readable := !writable, writable := writable, pipe := page, serial := serial }

def newPipe (fs : Files) (page : Nat) (f0 f1 : Fin nfile) : Files :=
  let serial := fs.log.length
  let fs := { fs with pipes := update fs.pipes page (some ⟨true, true, serial⟩),
                      log := .piped (serial, page) :: fs.log }
  let fs := fs.setFile f0 (pipeFile (fs.ftable f0) page serial false)
  fs.setFile f1 (pipeFile (fs.ftable f1) page serial true)

/-- `pipealloc`; at its `bad` label no page is allocated. -/
def pipealloc (fs : Files) : Except Panic (Files × Option (Fin nfile × Fin nfile)) :=
  match filealloc fs with
  | none => .ok (fs, none)
  | some (fs, f0) =>
    match filealloc fs with
    | none => do
      let fs ← fileclose fs f0
      .ok (fs, none)
    | some (fs, f1) =>
      match kalloc fs with
      | none => do
        let fs ← fileclose fs f0
        let fs ← fileclose fs f1
        .ok (fs, none)
      | some (fs, page) => .ok (newPipe fs page f0 f1, some (f0, f1))

structure State where
  files : Files
  ofile : Fin nproc × Fin nofile → Option (Fin nfile)
  state : Fin nproc → ProcState
  nextpid : Nat

def State.setSlot (s : State) (p : Fin nproc) (fd : Fin nofile) (v : Option (Fin nfile)) : State :=
  { s with ofile := update s.ofile (p, fd) v }

def State.setState (s : State) (p : Fin nproc) (st : ProcState) : State :=
  { s with state := update s.state p st }

def argfd (s : State) (p : Fin nproc) (fd : Int) : Option (Fin nofile × Fin nfile) :=
  if h : 0 ≤ fd ∧ fd < nofile then
    (s.ofile (p, ⟨fd.toNat, by omega⟩)).map (fun f => (⟨fd.toNat, by omega⟩, f))
  else none

def fdalloc (s : State) (p : Fin nproc) (f : Fin nfile) : Option (State × Fin nofile) :=
  match (List.finRange nofile).find? (fun fd => s.ofile (p, fd) = none) with
  | some fd => some (s.setSlot p fd (some f), fd)
  | none => none

def sysDup (s : State) (p : Fin nproc) (fd : Int) : Except Panic (State × Int) :=
  match argfd s p fd with
  | none => .ok (s, -1)
  | some (_, f) =>
    match fdalloc s p f with
    | none => .ok (s, -1)
    | some (s, fd) => do
      let files ← filedup s.files f
      .ok ({ s with files := files }, fd)

def sysClose (s : State) (p : Fin nproc) (fd : Int) : Except Panic (State × Int) :=
  match argfd s p fd with
  | none => .ok (s, -1)
  | some (fd, f) => do
    let s := s.setSlot p fd none
    let files ← fileclose s.files f
    .ok ({ s with files := files }, 0)

def oRdonly : Nat := 0x000
def oWronly : Nat := 0x001
def oRdwr : Nat := 0x002
def oCreate : Nat := 0x200

structure Found where
  ip : Nat
  dir : Bool

def inodeFile (v : File) (ip omode serial : Nat) : File :=
  { v with type := .inode, ip := ip, off := 0, readable := omode &&& oWronly = 0,
           writable := omode &&& oWronly ≠ 0 ∨ omode &&& oRdwr ≠ 0, serial := serial }

def setInode (fs : Files) (f : Fin nfile) (ip omode : Nat) : Files :=
  { fs.setFile f (inodeFile (fs.ftable f) ip omode fs.log.length) with
    log := .opened (fs.log.length, ip) :: fs.log }

def sysOpen (s : State) (p : Fin nproc) (omode : Nat) (found : Option Found) : Except Panic (State × Int) :=
  match found with
  | none => .ok (s, -1)
  | some ip =>
    if omode &&& oCreate = 0 ∧ ip.dir = true ∧ omode ≠ oRdonly then .ok (s, -1)
    else
      match filealloc s.files with
      | none => .ok (s, -1)
      | some (files, f) =>
        match fdalloc { s with files := files } p f with
        | none => do
          let files ← fileclose files f
          .ok ({ s with files := files }, -1)
        | some (s, fd) => .ok ({ s with files := setInode s.files f ip.ip omode }, fd)

def sysPipe (s : State) (p : Fin nproc) : Except Panic (State × Int) := do
  match ← pipealloc s.files with
  | (files, none) => .ok ({ s with files := files }, -1)
  | (files, some (rf, wf)) =>
    match fdalloc { s with files := files } p rf with
    | none => do
      let files ← fileclose files rf
      let files ← fileclose files wf
      .ok ({ s with files := files }, -1)
    | some (s, fd0) =>
      match fdalloc s p wf with
      | none => do
        let s := s.setSlot p fd0 none
        let files ← fileclose s.files rf
        let files ← fileclose files wf
        .ok ({ s with files := files }, -1)
      | some (s, _) => .ok (s, 0)

def forkLoop (p np : Fin nproc) : List (Fin nofile) → State → Except Panic State
  | [], s => .ok s
  | i :: rest, s =>
    match s.ofile (p, i) with
    | none => forkLoop p np rest s
    | some f => do
      let files ← filedup s.files f
      forkLoop p np rest (State.setSlot { s with files := files } np i (some f))

/-- `fork`; `stack` and `copied` tell whether `allocproc` and `copyuvm` got their memory. -/
def fork (s : State) (p : Fin nproc) (stack copied : Bool) : Except Panic (State × Int) :=
  match (List.finRange nproc).find? (fun q => s.state q = .unused) with
  | none => .ok (s, -1)
  | some np =>
    let pid := s.nextpid
    let s := { s.setState np .embryo with nextpid := s.nextpid + 1 }
    if stack = true ∧ copied = true then do
      let s ← forkLoop p np (List.finRange nofile) s
      .ok (s.setState np .runnable, pid)
    else .ok (s.setState np .unused, -1)

def exitLoop (p : Fin nproc) : List (Fin nofile) → State → Except Panic State
  | [], s => .ok s
  | fd :: rest, s =>
    match s.ofile (p, fd) with
    | none => exitLoop p rest s
    | some f => do
      let files ← fileclose s.files f
      exitLoop p rest (State.setSlot { s with files := files } p fd none)

/-- The slot of `initproc`, the first one `allocproc` found. -/
def initproc : Fin nproc := ⟨0, by decide⟩

def exit (s : State) (p : Fin nproc) : Except Panic (State × Int) :=
  if p = initproc then .error .initExiting
  else do
    let s ← exitLoop p (List.finRange nofile) s
    .ok (s.setState p .zombie, 0)

inductive Call where
  | open (omode : Nat) (found : Option Found)
  | dup (fd : Int)
  | pipe
  | close (fd : Int)
  | fork (stack copied : Bool)
  | exec (result : Int)
  | exit

/-- A system call of process `p`; `exec` leaves the descriptors alone. -/
def syscall (s : State) (p : Fin nproc) : Call → Except Panic (State × Int)
  | .open omode found => sysOpen s p omode found
  | .dup fd => sysDup s p fd
  | .pipe => sysPipe s p
  | .close fd => sysClose s p fd
  | .fork stack copied => fork s p stack copied
  | .exec result => .ok (s, result)
  | .exit => exit s p

inductive Act where
  | call (p : Fin nproc) (c : Call)
  | reap (p : Fin nproc)
  | switch (p : Fin nproc) (st : ProcState)
  | memory (free : List Nat)

/-- The states between which `scheduler`, `sleep`, `yield` and `wakeup` move a process. -/
def scheduled : List ProcState := [.sleeping, .runnable, .running]

inductive Step : State → Act → State → Prop
  | call {s s' : State} {p : Fin nproc} {c : Call} {r : Int} (hrun : s.state p = .running)
      (hcall : syscall s p c = .ok (s', r)) : Step s (.call p c) s'
  | reap {s : State} {p : Fin nproc} (hzombie : s.state p = .zombie) : Step s (.reap p) (s.setState p .unused)
  | switch {s : State} {p : Fin nproc} {st : ProcState} (hold : s.state p ∈ scheduled) (hnew : st ∈ scheduled) :
      Step s (.switch p st) (s.setState p st)
  | memory {s : State} {free : List Nat} (hnodup : free.Nodup) (hfree : ∀ page ∈ free, s.files.pipes page = none) :
      Step s (.memory free) { s with files := { s.files with free := free } }

structure Booted (s : State) : Prop where
  files : ∀ f, (s.files.ftable f).ref = 0 ∧ (s.files.ftable f).type = .none
  pipes : ∀ page, s.files.pipes page = none
  free : s.files.free.Nodup
  log : s.files.log = []
  ofile : ∀ x, s.ofile x = none

def system : System State Act where
  init := Booted
  step := Step

end Xv6.OpenFiles
