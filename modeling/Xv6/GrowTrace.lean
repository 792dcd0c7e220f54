import Xv6.AllocUvm
import Xv6.Trace

/-!
# What growing touches

`allocuvm` and `deallocuvm` with the events that matter outside of the range they were asked for:
the page-map index that a walk follows, the entry that is read or written, and the frames that are
taken and released. The page numbers in the events are those modulo `2 ^ 36`.
-/
namespace Xv6.GrowTrace

open Words Mmu Memory Kalloc Vm Trace

inductive Event where
  | follow (i : Nat)
  | pte (n : Nat)
  | take (f : Nat)
  | release (f : Nat)
  deriving DecidableEq, Repr

abbrev Run := Traced Trap Event

def pageOf (va : Word) : Nat := va.toNat / 4096 % 2 ^ 36

def kallocT (m : Machine) (s : State) : Run (State × Word) := do
  let (s, p) ← quiet (kalloc m s)
  if p = 0 then return (s, p)
  else
    emit (.take (ptrFrame p))
    return (s, p)

def kreleaseT (m : Machine) (s : State) (v : Word) : Run State := do
  emit (.release (ptrFrame v))
  quiet (krelease m s v)

def nextTableT (m : Machine) (s : State) (entry : Word) (alloc : Bool) : Run (State × Option Word) := do
  let e ← quiet (read m s entry)
  if has e pteP then return (s, some (p2v (pteAddr e)))
  else if alloc = false then return (s, none)
  else
    let (s, table) ← kallocT m s
    if table = 0 then return (s, none)
    else
      let s ← quiet (memset m s table 0)
      let s ← quiet (write m s entry (v2p table ||| pteP ||| pteW ||| pteU))
      return (s, some table)

def walkpgdirT (m : Machine) (s : State) (pml4 va : Word) (alloc : Bool) : Run (State × Option Word) := do
  match ← nextTableT m s (entryPtr pml4 (pmx va)) alloc with
  | (s, none) => return (s, none)
  | (s, some pdp) =>
    emit (.follow (pmx va))
    match ← nextTableT m s (entryPtr pdp (pdpx va)) alloc with
    | (s, none) => return (s, none)
    | (s, some pd) =>
      match ← nextTableT m s (entryPtr pd (pdx va)) alloc with
      | (s, none) => return (s, none)
      | (s, some pgtab) => return (s, some (entryPtr pgtab (ptx va)))

def mapPageT (m : Machine) (s : State) (pgdir perm a pa : Word) : Run (State × Int) := do
  match ← walkpgdirT m s pgdir a true with
  | (s, none) => return (s, -1)
  | (s, some pte) =>
    emit (.pte (pageOf a))
    let e ← quiet (read m s pte)
    if has e pteP then quiet (.error (.panic "remap"))
    else
      let s ← quiet (write m s pte (pa ||| perm ||| pteP))
      return (s, 0)

def mapLoopT (m : Machine) (pgdir perm : Word) : Nat → State → Word → Word → Run (State × Int)
  | 0, s, _, _ => return (s, 0)
  | n + 1, s, a, pa => do
    let (s, r) ← mapPageT m s pgdir perm a pa
    if r < 0 then return (s, -1)
    else mapLoopT m pgdir perm n s (a + 0x1000) (pa + 0x1000)

@[irreducible] def mappagesT (m : Machine) (s : State) (pgdir va size pa perm : Word) : Run (State × Int) :=
  let a := pgRoundDown va
  let last := pgRoundDown (va + size - 1)
  mapLoopT m pgdir perm ((last - a).toNat / pgSize + 1) s a pa

def deallocLoopT (m : Machine) (pgdir : Word) : Nat → State → Word → Run State
  | 0, s, _ => return s
  | n + 1, s, a => do
    match ← walkpgdirT m s pgdir a false with
    | (s, none) => deallocLoopT m pgdir n s (a + 0x1000)
    | (s, some pte) =>
      emit (.pte (pageOf a))
      let e ← quiet (read m s pte)
      if has e pteP then
        if pteAddr e = 0 then quiet (.error (.panic "dallocuvm"))
        else
          let s ← kreleaseT m s (p2v (pteAddr e))
          let s ← quiet (write m s pte 0)
          deallocLoopT m pgdir n s (a + 0x1000)
      else deallocLoopT m pgdir n s (a + 0x1000)

def deallocuvmT (m : Machine) (s : State) (pgdir oldsz newsz : Word) : Run (State × Word) := do
  if oldsz.toNat ≤ newsz.toNat then return (s, oldsz)
  else
    let a := pgRoundUp newsz
    let s ← deallocLoopT m pgdir (pageCount a oldsz) s a
    return (s, newsz)

def allocLoopT (m : Machine) (pgdir oldsz newsz : Word) : Nat → State → Word → Run (State × Word)
  | 0, s, _ => return (s, newsz)
  | n + 1, s, a => do
    let (s, mem) ← kallocT m s
    if mem = 0 then
      let (s, _) ← deallocuvmT m s pgdir newsz oldsz
      return (s, 0)
    else
      let s ← quiet (memset m s mem 0)
      let (s, r) ← mappagesT m s pgdir a 0x1000 (v2p mem) (pteW ||| pteU)
      if r < 0 then
        let (s, _) ← deallocuvmT m s pgdir newsz oldsz
        let s ← kreleaseT m s mem
        return (s, 0)
      else allocLoopT m pgdir oldsz newsz n s (a + 0x1000)

def allocuvmT (m : Machine) (s : State) (pgdir oldsz newsz : Word) : Run (State × Word) :=
  if kernBase.toNat ≤ newsz.toNat then return (s, 0)
  else if newsz.toNat < oldsz.toNat then return (s, oldsz)
  else
    let a := pgRoundUp oldsz
    allocLoopT m pgdir oldsz newsz (pageCount a newsz) s a

variable {m : Machine} {s s' : State} {a va : Word}

@[simp] theorem kallocT_result (m : Machine) (s : State) : (kallocT m s).result = kalloc m s := by
  rw [kallocT, result_bind, result_quiet]
  cases kalloc m s with
  | error e => rfl
  | ok x =>
    show (if x.2 = 0 then (return (x.1, x.2) : Run _) else _).result = _
    split <;> rfl

@[simp] theorem kreleaseT_result (m : Machine) (s : State) (v : Word) : (kreleaseT m s v).result =
    krelease m s v := rfl

@[simp] theorem nextTableT_result (m : Machine) (s : State) (entry : Word) (alloc : Bool) :
    (nextTableT m s entry alloc).result = nextTable m s entry alloc := by
  rw [nextTableT, nextTable, result_bind, result_quiet]
  refine bind_congr fun e => ?_
  split
  · rfl
  split
  · rfl
  rw [result_bind, kallocT_result]
  refine bind_congr fun x => ?_
  obtain ⟨s₁, table⟩ := x
  dsimp only
  split
  · rfl
  · simp only [result_bind, result_quiet, result_pure]
    rfl

@[simp] theorem walkpgdirT_result (m : Machine) (s : State) (pml4 va : Word) (alloc : Bool) :
    (walkpgdirT m s pml4 va alloc).result = walkpgdir m s pml4 va alloc := by
  rw [walkpgdirT, walkpgdir, result_bind, nextTableT_result]
  refine bind_congr fun x => ?_
  obtain ⟨s₁, _ | pdp⟩ := x
  · rfl
  dsimp only
  rw [result_bind, result_emit, ok_bind, result_bind, nextTableT_result]
  refine bind_congr fun x => ?_
  obtain ⟨s₂, _ | pd⟩ := x
  · rfl
  dsimp only
  rw [result_bind, nextTableT_result]
  refine bind_congr fun x => ?_
  obtain ⟨s₃, _ | pgtab⟩ := x <;> rfl

@[simp] theorem mapPageT_result (m : Machine) (s : State) (pgdir perm a pa : Word) :
    (mapPageT m s pgdir perm a pa).result = mapPage m s pgdir perm a pa := by
  rw [mapPageT, mapPage, result_bind, walkpgdirT_result]
  refine bind_congr fun x => ?_
  obtain ⟨s₁, _ | pte⟩ := x
  · rfl
  dsimp only
  rw [result_bind, result_emit, ok_bind, result_bind, result_quiet]
  refine bind_congr fun e => ?_
  split
  · rfl
  · rw [result_bind, result_quiet]
    rfl

@[simp] theorem mapLoopT_result (m : Machine) (pgdir perm : Word) (n : Nat) (s : State) (a pa : Word) :
    (mapLoopT m pgdir perm n s a pa).result = mapLoop m pgdir perm n s a pa := by
  induction n generalizing s a pa with
  | zero => rfl
  | succ n ih =>
    rw [mapLoopT, mapLoop, result_bind, mapPageT_result]
    refine bind_congr fun x => ?_
    obtain ⟨s₁, v⟩ := x
    dsimp only
    split
    · rfl
    · exact ih s₁ _ _

@[simp] theorem mappagesT_result (m : Machine) (s : State) (pgdir va size pa perm : Word) :
    (mappagesT m s pgdir va size pa perm).result = mappages m s pgdir va size pa perm := by
  rw [mappagesT, mappages]
  exact mapLoopT_result ..

@[simp] theorem deallocLoopT_result (m : Machine) (pgdir : Word) (n : Nat) (s : State) (a : Word) :
    (deallocLoopT m pgdir n s a).result = deallocLoop m pgdir n s a := by
  induction n generalizing s a with
  | zero => rfl
  | succ n ih =>
    rw [deallocLoopT, deallocLoop, result_bind, walkpgdirT_result]
    refine bind_congr fun x => ?_
    obtain ⟨s₁, _ | pte⟩ := x
    · exact ih s₁ _
    dsimp only
    rw [result_bind, result_emit, ok_bind, result_bind, result_quiet]
    refine bind_congr fun e => ?_
    split
    · split
      · rfl
      · rw [result_bind, kreleaseT_result]
        refine bind_congr fun s₂ => ?_
        rw [result_bind, result_quiet]
        exact bind_congr fun s₃ => ih s₃ _
    · exact ih s₁ _

@[simp] theorem deallocuvmT_result (m : Machine) (s : State) (pgdir oldsz newsz : Word) :
    (deallocuvmT m s pgdir oldsz newsz).result = deallocuvm m s pgdir oldsz newsz := by
  rw [deallocuvmT, deallocuvm]
  split
  · rfl
  · simp only [result_bind, deallocLoopT_result, result_pure]
    rfl

@[simp] theorem allocLoopT_result (m : Machine) (pgdir oldsz newsz : Word) (n : Nat) (s : State) (a : Word) :
    (allocLoopT m pgdir oldsz newsz n s a).result = allocLoop m pgdir oldsz newsz n s a := by
  induction n generalizing s a with
  | zero => rfl
  | succ n ih =>
    rw [allocLoopT, allocLoop, result_bind, kallocT_result]
    refine bind_congr fun x => ?_
    obtain ⟨s₁, p⟩ := x
    dsimp only
    split
    · rw [result_bind, deallocuvmT_result]
      rfl
    · rw [result_bind, result_quiet]
      refine bind_congr fun s₂ => ?_
      rw [result_bind, mappagesT_result]
      refine bind_congr fun x => ?_
      obtain ⟨s₃, v⟩ := x
      dsimp only
      split
      · rw [result_bind, deallocuvmT_result]
        refine bind_congr fun x => ?_
        obtain ⟨s₄, w⟩ := x
        dsimp only
        rw [result_bind, kreleaseT_result]
        rfl
      · exact ih s₃ _

/-- `allocuvmT` is `allocuvm` with its events listed. -/
theorem allocuvmT_result (m : Machine) (s : State) (pgdir oldsz newsz : Word) :
    (allocuvmT m s pgdir oldsz newsz).result = allocuvm m s pgdir oldsz newsz := by
  rw [allocuvmT, allocuvm]
  split
  · rfl
  split
  · rfl
  · exact allocLoopT_result ..

/-- The loop over `j + k` pages is the one over `j` and then the one over `k`. -/
theorem deallocLoopT_add (m : Machine) (pgdir : Word) (j k : Nat) (s : State) (a : Word) :
    deallocLoopT m pgdir (j + k) s a = (do
      let s ← deallocLoopT m pgdir j s a
      deallocLoopT m pgdir k s (a + BitVec.ofNat 64 (j * 4096))) := by
  induction j generalizing s a with
  | zero =>
    rw [Nat.zero_add, deallocLoopT, pure_bind]
    simp
  | succ j ih =>
    have hnext : a + BitVec.ofNat 64 ((j + 1) * 4096) = a + 0x1000 + BitVec.ofNat 64 (j * 4096) := by
      rw [Nat.add_mul, Nat.add_comm (j * 4096), BitVec.ofNat_add, ← BitVec.add_assoc]
      rfl
    rw [Nat.add_right_comm, deallocLoopT, deallocLoopT, bind_assoc, hnext]
    refine bind_congr fun x => ?_
    obtain ⟨s₁, _ | pte⟩ := x
    · exact ih s₁ _
    dsimp only
    rw [bind_assoc]
    refine bind_congr fun _ => ?_
    rw [bind_assoc]
    refine bind_congr fun e => ?_
    split
    · split
      · rfl
      · rw [bind_assoc]
        refine bind_congr fun s₂ => ?_
        rw [bind_assoc]
        exact bind_congr fun s₃ => ih s₃ _
    · exact ih s₁ _

end Xv6.GrowTrace
