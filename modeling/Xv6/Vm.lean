import Xv6.Kalloc

/-!
# Page tables and user memory

The functions of `vm.c` as they compute, on explicit state. `walkpgdir` is three times the same
step, `nextTable`; the four nested loops of `freevm` are one recursion on the level; and a loop over
pages is a recursion on the number of pages it visits. `kpdpt` is the static variable of that name.
-/
namespace Xv6.Vm

open Words Mmu Memory Kalloc

def setupkvm (m : Machine) (kpdpt : Word) (s : State) : Except Trap (State × Word) := do
  let (s, pml4) ← kalloc m s
  let s ← memset m s pml4 0
  let s ← write m s (entryPtr pml4 256) (v2p kpdpt ||| pteP ||| pteW)
  return (s, pml4)

def kvmalloc (m : Machine) (s : State) : Except Trap (State × Word × Word) := do
  let (s, kpml4) ← kalloc m s
  let s ← memset m s kpml4 0
  let (s, kpdpt) ← kalloc m s
  let s ← memset m s kpdpt 0
  let s ← write m s (entryPtr kpml4 (pmx kernBase)) (v2p kpdpt ||| pteP ||| pteW)
  let s ← write m s (entryPtr kpdpt 0) (0 ||| ptePS ||| pteP ||| pteW)
  let s ← write m s (entryPtr kpdpt 3) (0xC0000000 ||| ptePS ||| pteP ||| pteW ||| ptePWT ||| ptePCD)
  return (s, kpml4, kpdpt)

/-- One level of `walkpgdir`: the table an entry points to, made if `alloc` asks for it. -/
def nextTable (m : Machine) (s : State) (entry : Word) (alloc : Bool) : Except Trap (State × Option Word) := do
  let e ← read m s entry
  if has e pteP then return (s, some (p2v (pteAddr e)))
  else if alloc = false then return (s, none)
  else
    let (s, table) ← kalloc m s
    if table = 0 then return (s, none)
    else
      let s ← memset m s table 0
      let s ← write m s entry (v2p table ||| pteP ||| pteW ||| pteU)
      return (s, some table)

def walkpgdir (m : Machine) (s : State) (pml4 va : Word) (alloc : Bool) : Except Trap (State × Option Word) := do
  match ← nextTable m s (entryPtr pml4 (pmx va)) alloc with
  | (s, none) => return (s, none)
  | (s, some pdp) =>
    match ← nextTable m s (entryPtr pdp (pdpx va)) alloc with
    | (s, none) => return (s, none)
    | (s, some pd) =>
      match ← nextTable m s (entryPtr pd (pdx va)) alloc with
      | (s, none) => return (s, none)
      | (s, some pgtab) => return (s, some (entryPtr pgtab (ptx va)))

def mapPage (m : Machine) (s : State) (pgdir perm a pa : Word) : Except Trap (State × Int) := do
  match ← walkpgdir m s pgdir a true with
  | (s, none) => return (s, -1)
  | (s, some pte) =>
    let e ← read m s pte
    if has e pteP then .error (.panic "remap")
    else
      let s ← write m s pte (pa ||| perm ||| pteP)
      return (s, 0)

def mapLoop (m : Machine) (pgdir perm : Word) : Nat → State → Word → Word → Except Trap (State × Int)
  | 0, s, _, _ => .ok (s, 0)
  | n + 1, s, a, pa => do
    let (s, r) ← mapPage m s pgdir perm a pa
    if r < 0 then return (s, -1)
    else mapLoop m pgdir perm n s (a + 0x1000) (pa + 0x1000)

@[irreducible] def mappages (m : Machine) (s : State) (pgdir va size pa perm : Word) : Except Trap (State × Int) :=
  let a := pgRoundDown va
  let last := pgRoundDown (va + size - 1)
  mapLoop m pgdir perm ((last - a).toNat / pgSize + 1) s a pa

def inituvm (m : Machine) (s : State) (pgdir : Word) (init : List Byte) : Except Trap State := do
  if pgSize ≤ init.length then .error (.panic "inituvm: more than a page")
  else
    let (s, mem) ← kalloc m s
    let s ← memset m s mem 0
    let (s, _) ← mappages m s pgdir 0x1000 0x1000 (v2p mem) (pteW ||| pteU)
    memmove m s mem init

/-- The number of values `a`, `a + PGSIZE`, … that a loop `for(; a < e; a += PGSIZE)` visits. -/
def pageCount (a e : Word) : Nat := (e.toNat - a.toNat + (pgSize - 1)) / pgSize

def deallocLoop (m : Machine) (pgdir : Word) : Nat → State → Word → Except Trap State
  | 0, s, _ => .ok s
  | n + 1, s, a => do
    match ← walkpgdir m s pgdir a false with
    | (s, none) => deallocLoop m pgdir n s (a + 0x1000)
    | (s, some pte) =>
      let e ← read m s pte
      if has e pteP then
        if pteAddr e = 0 then .error (.panic "dallocuvm")
        else
          let s ← krelease m s (p2v (pteAddr e))
          let s ← write m s pte 0
          deallocLoop m pgdir n s (a + 0x1000)
      else deallocLoop m pgdir n s (a + 0x1000)

def deallocuvm (m : Machine) (s : State) (pgdir oldsz newsz : Word) : Except Trap (State × Word) := do
  if oldsz.toNat ≤ newsz.toNat then return (s, oldsz)
  else
    let a := pgRoundUp newsz
    let s ← deallocLoop m pgdir (pageCount a oldsz) s a
    return (s, newsz)

def allocLoop (m : Machine) (pgdir oldsz newsz : Word) : Nat → State → Word → Except Trap (State × Word)
  | 0, s, _ => .ok (s, newsz)
  | n + 1, s, a => do
    let (s, mem) ← kalloc m s
    if mem = 0 then
      let (s, _) ← deallocuvm m s pgdir newsz oldsz
      return (s, 0)
    else
      let s ← memset m s mem 0
      let (s, r) ← mappages m s pgdir a 0x1000 (v2p mem) (pteW ||| pteU)
      if r < 0 then
        let (s, _) ← deallocuvm m s pgdir newsz oldsz
        let s ← krelease m s mem
        return (s, 0)
      else allocLoop m pgdir oldsz newsz n s (a + 0x1000)

def allocuvm (m : Machine) (s : State) (pgdir oldsz newsz : Word) : Except Trap (State × Word) :=
  if kernBase.toNat ≤ newsz.toNat then .ok (s, 0)
  else if newsz.toNat < oldsz.toNat then .ok (s, oldsz)
  else
    let a := pgRoundUp oldsz
    allocLoop m pgdir oldsz newsz (pageCount a newsz) s a

/-- The first `n` entries of a table with `d` levels of entries from it down. -/
def freeTable (m : Machine) : Nat → Nat → State → Word → Except Trap State
  | 0, _, s, _ => .ok s
  | d + 1, n, s, t => (List.range n).foldlM (fun s i => do
      let e ← read m s (entryPtr t i)
      if has e pteP then
        let s ← freeTable m d npdEntries s (p2v (pteAddr e))
        krelease m s (p2v (pteAddr e))
      else return s) s

@[irreducible] def freevm (m : Machine) (s : State) (pml4 : Word) : Except Trap State := do
  if pml4 = 0 then .error (.panic "freevm: no pgdir")
  else
    let s ← freeTable m 4 (npdEntries / 2) s pml4
    krelease m s pml4

def clearpteu (m : Machine) (s : State) (pgdir uva : Word) : Except Trap State := do
  match ← walkpgdir m s pgdir uva false with
  | (_, none) => .error (.panic "clearpteu")
  | (s, some pte) =>
    let e ← read m s pte
    write m s pte (e &&& ~~~pteU)

/-- The loop of `copyuvm` and what follows it, the label `bad` included. -/
def copyLoop (m : Machine) (pgdir d : Word) : Nat → State → Word → Except Trap (State × Word)
  | 0, s, _ => .ok (s, d)
  | n + 1, s, i => do
    match ← walkpgdir m s pgdir i false with
    | (_, none) => .error (.panic "copyuvm: pte should exist")
    | (s, some pte) =>
      let e ← read m s pte
      if has e pteP = false then .error (.panic "copyuvm: page not present")
      else
        let (s, mem) ← kalloc m s
        if mem = 0 then
          let s ← freevm m s d
          return (s, 0)
        else
          let s ← memmovePage m s mem (p2v (pteAddr e))
          let (s, r) ← mappages m s d i 0x1000 (v2p mem) (pteFlags e)
          if r < 0 then
            let s ← freevm m s d
            return (s, 0)
          else copyLoop m pgdir d n s (i + 0x1000)

def copyuvm (m : Machine) (kpdpt : Word) (s : State) (pgdir : Word) (sz : BitVec 32) :
    Except Trap (State × Word) := do
  let (s, d) ← setupkvm m kpdpt s
  if d = 0 then return (s, 0)
  else copyLoop m pgdir d (pageCount 0x1000 (sz.setWidth 64)) s 0x1000

/-- The code reads `*pte` without testing for the null pointer. -/
def uva2ka (m : Machine) (s : State) (pgdir uva : Word) : Except Trap Word := do
  match ← walkpgdir m s pgdir uva false with
  | (_, none) => .error .nullDeref
  | (s, some pte) =>
    let e ← read m s pte
    if has e pteP = false then return 0
    else if has e pteU = false then return 0
    else return p2v (pteAddr e)

/-- The loop of `copyout`; every turn copies at least one byte. -/
def copyoutLoop (m : Machine) (pgdir : Word) : Nat → State → Word → List Byte → Except Trap (State × Int)
  | 0, s, _, _ => .ok (s, 0)
  | fuel + 1, s, va, buf => do
    if buf = [] then return (s, 0)
    else
      let va0 := pgRoundDown va
      let pa0 ← uva2ka m s pgdir va0
      if pa0 = 0 then return (s, -1)
      else
        let n := min (pgSize - (va - va0).toNat) buf.length
        let s ← memmove m s (pa0 + (va - va0)) (buf.take n)
        copyoutLoop m pgdir fuel s (va0 + 0x1000) (buf.drop n)

def copyout (m : Machine) (s : State) (pgdir va : Word) (p : List Byte) : Except Trap (State × Int) :=
  copyoutLoop m pgdir p.length s va p

/-- The rest of `dedup`'s loop body once two neighbours are found equal. -/
def mergePages (m : Machine) (s : State) (pgdir addr kernelOff kernelVa : Word) : Except Trap State := do
  let (s, pte1) ← walkpgdir m s pgdir (addr - 0x1000) false
  let (s, pte2) ← walkpgdir m s pgdir addr false
  match pte1 with
  | none => .error .nullDeref
  | some pte1 =>
    let e1 ← read m s pte1
    let s ← write m s pte1 (e1 ||| pteCOW)
    let s ← match pte2 with
      | none => pure s
      | some pte2 => do
        let e1 ← read m s pte1
        let s ← write m s pte2 (e1 ||| pteP ||| pteU ||| pteCOW)
        let e2 ← read m s pte2
        write m s pte2 (e2 &&& ~~~pteW)
    let s ← krelease m s kernelVa
    let e1 ← read m s pte1
    let s ← if has e1 pteW then write m s pte1 (e1 &&& ~~~pteW) else pure s
    kretain s kernelOff

def dedupPage (m : Machine) (pgdir addr2 : Word) (s : State) (addr : Word) : Except Trap State := do
  let kernelVa ← uva2ka m s pgdir addr
  if kernelVa = 0 then return s
  else
    let s ← updateChecksum m s (v2p kernelVa)
    if addr2.toNat < addr.toNat then
      let kernelOff ← uva2ka m s pgdir (addr - 0x1000)
      if kernelOff = 0 then return s
      else
        let same ← framesAreIdentical m s (v2p kernelOff) (v2p kernelVa)
        if same then mergePages m s pgdir addr kernelOff kernelVa
        else return s
    else return s

def dedupLoop (m : Machine) (pgdir addr2 : Word) : Nat → State → Word → Except Trap State
  | 0, s, _ => .ok s
  | n + 1, s, addr => do
    let s ← dedupPage m pgdir addr2 s addr
    dedupLoop m pgdir addr2 n s (addr + 0x1000)

def dedup (m : Machine) (s : State) (pgdir vstart vend : Word) : Except Trap State :=
  let addr := pgRoundDown vstart
  let addr2 := pgRoundDown vstart + 0x1000
  dedupLoop m pgdir addr2 (pageCount addr (pgRoundUp vend)) s addr

def copyonwrite (m : Machine) (s : State) (pgdir v : Word) : Except Trap (State × Int) := do
  let round := pgRoundDown v
  let kernelVa ← uva2ka m s pgdir round
  if kernelVa = 0 then return (s, 1)
  else
    match ← walkpgdir m s pgdir round false with
    | (_, none) => .error .nullDeref
    | (s, some pte) =>
      let e ← read m s pte
      let s ← if has e pteCOW then do
          let (s, tmpMem) ← kalloc m s
          let s ← memmovePage m s tmpMem kernelVa
          write m s pte (v2p tmpMem ||| pteP ||| pteU ||| pteW)
        else pure s
      let s ← krelease m s kernelVa
      return (s, 1)

end Xv6.Vm
