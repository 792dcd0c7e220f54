import Xv6.Bytes
import Xv6.Kernel

/-!
# `exec`

`exec` reads a file as an ELF program, builds a page table for it, pushes the arguments and commits.
A C `int` or `uint` is a 32-bit word, so the places where the code cuts a 64-bit field down are
explicit, and so is the overflow of the `int` that `strlen` returns. The kernel addresses that
`readi` stores to on behalf of `loaduvm` are recorded next to the memory.
-/
namespace Xv6.Exec

open Words Bytes Mmu Memory Vm Kernel

def maxArg : Nat := 32

/-- `readi` of a file with contents `c`; `none` is the return value -1. -/
def readi (c : List Byte) (off n : BitVec 32) : Option (List Byte) :=
  let size := BitVec.ofNat 32 c.length
  if size.toNat < off.toNat ∨ (off + n).toNat < off.toNat then none
  else some ((c.drop off.toNat).take (if size.toNat < (off + n).toNat then size - off else n).toNat)

def readExact (c : List Byte) (off n : BitVec 32) : Option (List Byte) :=
  (readi c off n).filter (fun b => b.length = n.toNat)

def field (b : List Byte) (o n : Nat) : Nat := getLE (fun i => b.getD i 0) o n

structure Elfhdr where
  magic : Nat
  entry : Word
  phoff : Word
  phnum : Nat

def elfMagic : Nat := 0x464C457F

def elfhdr (b : List Byte) : Elfhdr where
  magic := field b 0 4
  entry := BitVec.ofNat 64 (field b 24 8)
  phoff := BitVec.ofNat 64 (field b 32 8)
  phnum := field b 56 2

structure Proghdr where
  type : Nat
  off : Word
  vaddr : Word
  filesz : Word
  memsz : Word

def elfProgLoad : Nat := 1

def proghdr (b : List Byte) : Proghdr where
  type := field b 0 4
  off := BitVec.ofNat 64 (field b 8 8)
  vaddr := BitVec.ofNat 64 (field b 16 8)
  filesz := BitVec.ofNat 64 (field b 32 8)
  memsz := BitVec.ofNat 64 (field b 40 8)

structure Image where
  vm : State
  written : List Word

def chunk (sz i : BitVec 32) : BitVec 32 := if (sz - i).toNat < pgSize then sz - i else 0x1000

/-- The loop of `loaduvm`, for the number of pages that it visits. The address in the entry is used
without a look at `PTE_P`. -/
def loadLoop (m : Machine) (pgdir addr : Word) (c : List Byte) (offset sz : BitVec 32) :
    Nat → Image → BitVec 32 → Except Trap (Image × Int)
  | 0, x, _ => .ok (x, 0)
  | k + 1, x, i => do
    match ← walkpgdir m x.vm pgdir (addr + i.setWidth 64) false with
    | (_, none) => .error (.panic "loaduvm: address should exist")
    | (vm, some pte) =>
      let e ← read m vm pte
      let dst := p2v (pteAddr e)
      match readi c (offset + i) (chunk sz i) with
      | none => return (⟨vm, x.written⟩, -1)
      | some bs =>
        let vm ← memmove m vm dst bs
        let x := ⟨vm, if bs = [] then x.written else dst :: x.written⟩
        if bs.length = (chunk sz i).toNat then loadLoop m pgdir addr c offset sz k x (i + 0x1000)
        else return (x, -1)

/-- A segment of more than 2^32 - `PGSIZE` bytes, for which the `uint` of the loop would wrap, does
not fit into memory. -/
def loaduvm (m : Machine) (x : Image) (pgdir addr : Word) (c : List Byte) (offset sz : BitVec 32) :
    Except Trap (Image × Int) :=
  if addr.toNat % pgSize ≠ 0 then .error (.panic "loaduvm: addr must be page aligned")
  else loadLoop m pgdir addr c offset sz ((sz.toNat + (pgSize - 1)) / pgSize) x 0

/-- The loop over the program headers, for the number that is left. `none` stands for `goto bad`. -/
def loadSegments (m : Machine) (pgdir : Word) (c : List Byte) :
    Nat → Image → BitVec 32 → Word → Except Trap (Image × Option Word)
  | 0, x, _, sz => .ok (x, some sz)
  | n + 1, x, off, sz =>
    match readExact c off 56 with
    | none => .ok (x, none)
    | some b =>
      let ph := proghdr b
      if ph.type ≠ elfProgLoad then loadSegments m pgdir c n x (off + 56) sz
      else if ph.memsz.toNat < ph.filesz.toNat then .ok (x, none)
      else if (ph.vaddr + ph.memsz).toNat < ph.vaddr.toNat then .ok (x, none)
      else do
        let (vm, sz) ← allocuvm m x.vm pgdir sz (ph.vaddr + ph.memsz)
        if sz = 0 then return (⟨vm, x.written⟩, none)
        else if ph.vaddr.toNat % pgSize ≠ 0 then return (⟨vm, x.written⟩, none)
        else
          let (x, r) ← loaduvm m ⟨vm, x.written⟩ pgdir ph.vaddr c (ph.off.setWidth 32) (ph.filesz.setWidth 32)
          if r < 0 then return (x, none)
          else loadSegments m pgdir c n x (off + 56) sz

/-- What the first half of `exec` leaves: the image, `pgdir` and, unless it went to `bad`, the size
and the entry point. -/
structure Loaded where
  image : Image
  pgdir : Word
  program : Option (Word × Word)

def loadProgram (m : Machine) (kpdpt : Word) (vm : State) (c : List Byte) : Except Trap Loaded :=
  match readExact c 0 64 with
  | none => .ok ⟨⟨vm, []⟩, 0, none⟩
  | some b =>
    let elf := elfhdr b
    if elf.magic ≠ elfMagic then .ok ⟨⟨vm, []⟩, 0, none⟩
    else do
      let (vm, pgdir) ← setupkvm m kpdpt vm
      if pgdir = 0 then return ⟨⟨vm, []⟩, 0, none⟩
      else
        let (x, sz) ← loadSegments m pgdir c elf.phnum ⟨vm, []⟩ (elf.phoff.setWidth 32) 0x1000
        return ⟨x, pgdir, sz.map (fun sz => (sz, elf.entry))⟩

def strlenSucc (a : List Byte) : Except Trap Word :=
  if a.length + 1 < 2 ^ 31 then .ok (BitVec.ofNat 64 (a.length + 1)) else .error .overflow

/-- The loop over the arguments: the pointers pushed so far are `ptrs`. -/
def pushArgs (m : Machine) (pgdir : Word) :
    List (List Byte) → State → Word → List Word → Except Trap (State × Option (Word × List Word))
  | [], s, sp, ptrs => .ok (s, some (sp, ptrs))
  | a :: argv, s, sp, ptrs =>
    if maxArg ≤ ptrs.length then .ok (s, none)
    else do
      let n ← strlenSucc a
      let sp := (sp - n) &&& ~~~7
      let (s, r) ← copyout m s pgdir sp (a ++ [0])
      if r < 0 then return (s, none)
      else pushArgs m pgdir argv s sp (ptrs ++ [sp])

def wordBytes (w : Word) : List Byte := (List.range 8).map (byteOf w)

def argvPtr (sp : Word) (ptrs : List Word) : Word := sp - (BitVec.ofNat 64 ptrs.length + 1) * 8

/-- The first `3+argc+1` words of `ustack`. -/
def ustack (sp : Word) (ptrs : List Word) : List Word :=
  [0xffffffff, BitVec.ofNat 64 ptrs.length, argvPtr sp ptrs] ++ ptrs ++ [0]

def ustackPtr (sp : Word) (ptrs : List Word) : Word := sp - (3 + BitVec.ofNat 64 ptrs.length + 1) * 8

inductive Reg where
  | rax | rbx | rcx | rdx | rbp | rsi | rdi | r8 | r9 | r10 | r11 | r12 | r13 | r14 | r15
  | trapno | err | rip | cs | rflags | rsp | ss
  deriving DecidableEq, Repr

structure Proc where
  pgdir : Word
  sz : Word
  name : List Byte
  tf : Reg → Word

/-- The kernel as `exec` sees it: memory, the current process, how often it has called `begin_op`
and `end_op`, and the references to the file's inode and the lock on it that it has. -/
structure Task where
  vm : State
  kpdpt : Word
  proc : Proc
  begun : Nat
  ended : Nat
  refs : Nat
  locked : Bool

def Task.beginOp (k : Task) : Task := { k with begun := k.begun + 1 }

def Task.endOp (k : Task) : Task := { k with ended := k.ended + 1 }

def Task.namei (k : Task) : Task := { k with refs := k.refs + 1 }

def Task.ilock (k : Task) : Task := { k with locked := true }

def Task.iunlockput (k : Task) : Task := { k with locked := false, refs := k.refs - 1 }

def Task.setReg (k : Task) (r : Reg) (w : Word) : Task :=
  { k with proc := { k.proc with tf := Function.update k.proc.tf r w } }

def bad (m : Machine) (k : Task) (pgdir : Word) (ip : Bool) : Except Trap (Task × Int) := do
  let vm ← if pgdir = 0 then pure k.vm else freevm m k.vm pgdir
  let k := { k with vm := vm }
  return (if ip then k.iunlockput.endOp else k, -1)

def lastPart (path : List Byte) : List Byte := (path.reverse.takeWhile (· ≠ 0x2f)).reverse

def safestrcpy (old t : List Byte) : List Byte := t.take 15 ++ [0] ++ old.drop ((t.take 15).length + 1)

def enterProgram (m : Machine) (k : Task) (path : List Byte) (argv : List (List Byte)) (pgdir sz entry : Word) :
    Except Trap (Task × Int) := do
  let oldpgdir := k.proc.pgdir
  let (vm, sz) ← execStack m k.vm ⟨ptrFrame pgdir, sz, false⟩
  if sz = 0 then bad m { k with vm := vm } pgdir false
  else
    match ← pushArgs m pgdir argv vm sz [] with
    | (vm, none) => bad m { k with vm := vm } pgdir false
    | (vm, some (sp, ptrs)) =>
      let k := { k with vm := vm }
      let k := (k.setReg .rdi (BitVec.ofNat 64 ptrs.length)).setReg .rsi (argvPtr sp ptrs)
      let (vm, r) ← copyout m k.vm pgdir (ustackPtr sp ptrs) ((ustack sp ptrs).flatMap wordBytes)
      let k := { k with vm := vm }
      if r < 0 then bad m k pgdir false
      else
        let k := { k with proc := { k.proc with
          name := safestrcpy k.proc.name (lastPart path), pgdir := pgdir, sz := sz } }
        let k := ((k.setReg .rip entry).setReg .rcx entry).setReg .rsp (ustackPtr sp ptrs)
        let vm ← freevm m k.vm oldpgdir
        return ({ k with vm := vm }, 0)

/-- `file` is what `namei` finds at the path. -/
def exec (m : Machine) (k : Task) (path : List Byte) (file : Option (List Byte)) (argv : List (List Byte)) :
    Except Trap (Task × Int) := do
  let k := k.beginOp
  match file with
  | none => return (k.endOp, -1)
  | some c =>
    let k := k.namei.ilock
    let l ← loadProgram m k.kpdpt k.vm c
    let k := { k with vm := l.image.vm }
    match l.program with
    | none => bad m k l.pgdir true
    | some (sz, entry) => enterProgram m k.iunlockput.endOp path argv l.pgdir sz entry

end Xv6.Exec
