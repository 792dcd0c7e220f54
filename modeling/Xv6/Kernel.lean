import Xv6.Interleaving
import Xv6.PageWalk
import Xv6.SizeBound

/-!
# The virtual-memory side of the running kernel

What the kernel does to frames and page tables, one call at a time. A page table is `live` when a
process runs on it and under construction before that; `fork` makes a live one with `copyuvm`,
`exec` builds one step by step and commits to it, and `freevm` ends either kind. Frames of the
kernel, of kernel stacks and of pipes are listed. A process that has no page left makes no system
call.

A run starts from what `main` does before the first process.
-/
namespace Xv6.Kernel

open Words Mmu Memory Kalloc Vm PageNumber PageWalk Dedup Interleaving

/-- A page table with the size of its user part. -/
structure Pgdir where
  root : Nat
  sz : Word
  live : Bool
  deriving DecidableEq, Repr

structure Sys where
  vm : State
  kpdpt : Nat
  kernel : List Nat
  owners : List Nat
  pgdirs : List Pgdir

inductive Act where
  | kalloc
  | krelease (f : Nat)
  | scratch (f : Nat) (page : Page)
  | setupkvm
  | inituvm (d : Pgdir) (init : List Byte)
  | allocuvm (d : Pgdir) (newsz : Word)
  | stack (d : Pgdir)
  | store (d : Pgdir) (n : Nat) (page : Page)
  | commit (d : Pgdir)
  | deallocuvm (d : Pgdir) (newsz : Word)
  | copyuvm (d : Pgdir)
  | dedup (d : Pgdir)
  | copyonwrite (d : Pgdir) (v : Word)
  | freevm (d : Pgdir)

def Sys.update (s : Sys) (vm : State) (d d' : Pgdir) : Sys :=
  { s with vm := vm, pgdirs := d' :: s.pgdirs.erase d }

/-- The end of `exec`'s work on a new table: two pages after the program, the first of them not
for the user. -/
@[irreducible] def execStack (m : Machine) (vm : State) (d : Pgdir) : Except Trap (State × Word) := do
  let (vm, sz) ← allocuvm m vm (kva d.root) (pgRoundUp d.sz) (pgRoundUp d.sz + 0x2000)
  if sz = 0 then return (vm, 0)
  else
    let vm ← clearpteu m vm (kva d.root) (sz - 0x2000)
    return (vm, sz)

/-- `growproc(n)` of a process of size `sz`, with the size it leaves in `proc->sz` and its result.
-/
def growproc (m : Machine) (vm : State) (pgdir sz n : Word) : Except Trap (State × Word × Int) :=
  if 0 < n.toInt then do
    let (vm, new) ← allocuvm m vm pgdir sz (sz + n)
    if new = 0 then return (vm, sz, -1) else return (vm, new, 0)
  else if n.toInt < 0 then do
    let (vm, new) ← deallocuvm m vm pgdir sz (sz + n)
    if new = 0 then return (vm, sz, -1) else return (vm, new, 0)
  else return (vm, sz, 0)

/-- One call. A size of 0 returned by `allocuvm` or `deallocuvm` is a failure that leaves the
size of the table as it was. -/
def run (m : Machine) (s : Sys) : Act → Except Trap Sys
  | .kalloc => do
    let (vm, v) ← kalloc m s.vm
    return { s with vm := vm, owners := if v = 0 then s.owners else ptrFrame v :: s.owners }
  | .krelease f => do
    let vm ← krelease m s.vm (kva f)
    return { s with vm := vm, owners := s.owners.erase f }
  | .scratch f page => .ok { s with vm := { s.vm with mem := setPage s.vm.mem f page } }
  | .setupkvm => do
    let (vm, v) ← setupkvm m (kva s.kpdpt) s.vm
    return { s with vm := vm, pgdirs := ⟨ptrFrame v, 0x1000, false⟩ :: s.pgdirs }
  | .inituvm d init => do
    let vm ← inituvm m s.vm (kva d.root) init
    return s.update vm d { d with sz := 0x2000, live := true }
  | .allocuvm d newsz => do
    let (vm, sz) ← allocuvm m s.vm (kva d.root) d.sz newsz
    return s.update vm d (if sz = 0 then d else { d with sz := sz })
  | .stack d => do
    let (vm, sz) ← execStack m s.vm d
    return s.update vm d (if sz = 0 then d else { d with sz := sz })
  | .store d n page =>
    .ok { s with vm := { s.vm with mem := setPage s.vm.mem (frameOf (entry s.vm.mem d.root n)) page } }
  | .commit d => .ok (s.update s.vm d { d with live := true })
  | .deallocuvm d newsz => do
    let (vm, sz) ← deallocuvm m s.vm (kva d.root) d.sz newsz
    return s.update vm d (if sz = 0 then d else { d with sz := sz })
  | .copyuvm d => do
    let (vm, v) ← copyuvm m (kva s.kpdpt) s.vm (kva d.root) (d.sz.setWidth 32)
    if v = 0 then return { s with vm := vm }
    else return { s with vm := vm, pgdirs := ⟨ptrFrame v, d.sz, true⟩ :: s.pgdirs }
  | .dedup d => do
    let vm ← dedup m s.vm (kva d.root) 0 d.sz
    return { s with vm := vm }
  | .copyonwrite d v => do
    let (vm, _) ← copyonwrite m s.vm (kva d.root) v
    return { s with vm := vm }
  | .freevm d => do
    let vm ← freevm m s.vm (kva d.root)
    return { s with vm := vm, pgdirs := s.pgdirs.erase d }

def Alive (mem : Mem) (d : Pgdir) : Prop := ∃ n, n < 2 ^ 35 ∧ UserPage mem d.root n

def WriteFault (mem : Mem) (r : Nat) (v : Word) : Prop :=
  canonical v = true ∧ ∀ pg, hwWalk mem r v = some pg → ¬ (pg.user = true ∧ pg.writable = true)

def Allowed (s : Sys) : Act → Prop
  | .kalloc | .setupkvm => True
  | .krelease f => f ∈ s.owners
  | .scratch f _ => (f ∈ s.kernel ++ s.owners ∧ f ≠ s.kpdpt) ∨ ¬ Managed f
  | .inituvm d _ => d ∈ s.pgdirs ∧ d.live = false ∧ d.sz = 0x1000
  | .allocuvm d _ => d ∈ s.pgdirs ∧ (d.live = true → Alive s.vm.mem d)
  | .stack d | .commit d => d ∈ s.pgdirs ∧ d.live = false
  | .store d n _ => d ∈ s.pgdirs ∧ n < 2 ^ 35 ∧ has (entry s.vm.mem d.root n) pteP = true
  | .deallocuvm d _ | .copyuvm d | .dedup d => d ∈ s.pgdirs ∧ d.live = true ∧ Alive s.vm.mem d
  | .copyonwrite d v => d ∈ s.pgdirs ∧ d.live = true ∧ WriteFault s.vm.mem d.root v
  | .freevm d => d ∈ s.pgdirs

/-- `P2V(4*1024*1024)`, where `kinit1` stops and `kinit2` goes on. -/
def firstEnd : Word := p2v 0x400000

/-- Allocations before `kinit2`, of the frames `own`, and stores to those frames. -/
inductive Early (m : Machine) : State → List Nat → State → List Nat → Prop
  | done {s : State} {own : List Nat} : Early m s own s own
  | take {s s₁ s' : State} {own own' : List Nat} {v : Word} (hrun : kalloc m s = .ok (s₁, v))
      (hrest : Early m s₁ (ptrFrame v :: own) s' own') : Early m s own s' own'
  | fill {s s' : State} {own own' : List Nat} {f : Nat} {page : Page} (hf : f ∈ own)
      (hrest : Early m { s with mem := setPage s.mem f page } own s' own') : Early m s own s' own'

/-- What `main` has set up when it calls `userinit`. -/
structure Booted (m : Machine) (s : Sys) : Prop where
  boot : ∃ s₀ s₁ s₂ s₃ v w own, kinit1 m s₀ kernelEnd firstEnd = .ok s₁ ∧ kvmalloc m s₁ = .ok (s₂, v, w) ∧
    Early m s₂ [] s₃ own ∧ kinit2 m s₃ firstEnd (p2v (BitVec.ofNat 64 physTop)) = .ok s.vm ∧
    s.kernel = own ++ [ptrFrame v, ptrFrame w] ∧ s.kpdpt = ptrFrame w
  owners : s.owners = []
  pgdirs : s.pgdirs = []

def system (m : Machine) : System Sys Act where
  init := Booted m
  step s a s' := Allowed s a ∧ run m s a = .ok s'

end Xv6.Kernel
