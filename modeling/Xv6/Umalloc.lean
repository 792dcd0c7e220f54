import Mathlib.Logic.Function.Basic
import Xv6.CircularList
import Xv6.Interleaving
import Xv6.RangeLayout

/-!
# The allocator of user programs

`umalloc.c`. Every block begins with a header: the size of the block in headers and, while the block
is free, the address of the next free block. Free blocks are in a circular list with a block `base`
of size 0. What a program stores in its blocks may be anything, so the memory is taken as headers,
one at each address where the allocator can come to look for one.
-/
namespace Xv6.Umalloc

open CircularList Interleaving RangeLayout Function

structure Header where
  ptr : Nat
  size : Nat

/-- The process that the allocator is part of: the variable `base` in the data segment, and what
`sbrk` answers, given the number of calls before, the memory it gave, and the number of bytes. -/
structure Env where
  base : Nat
  dataEnd : Nat
  sbrk : Nat → List Range → Nat → Option Nat
  base_pos : 0 < base
  base_below : base + 16 ≤ dataEnd
  aligned : ∀ k got n p, sbrk k got n = some p → p % 16 = 0
  above : ∀ k got n p, sbrk k got n = some p → dataEnd ≤ p
  fresh : ∀ k got n p, sbrk k got n = some p → ∀ g ∈ got, g.limit ≤ p

structure Heap where
  mem : Nat → Header
  freep : Nat
  got : List Range
  calls : Nat

def setPtr (mem : Nat → Header) (a q : Nat) : Nat → Header := update mem a { mem a with ptr := q }

def setSize (mem : Nat → Header) (a n : Nat) : Nat → Header := update mem a { mem a with size := n }

def Stops (mem : Nat → Header) (bp p : Nat) : Prop :=
  (p < bp ∧ bp < (mem p).ptr) ∨ ((mem p).ptr ≤ p ∧ (p < bp ∨ bp < (mem p).ptr))

instance (mem : Nat → Header) (bp p : Nat) : Decidable (Stops mem bp p) := by
  unfold Stops
  infer_instance

/-- The assignments of `free` to the upper end of the block. -/
def joinUpper (mem : Nat → Header) (bp p : Nat) : Nat → Header :=
  if bp + 16 * (mem bp).size = (mem p).ptr then
    let mem := setSize mem bp (((mem bp).size + (mem (mem p).ptr).size) % 2 ^ 32)
    setPtr mem bp (mem (mem p).ptr).ptr
  else setPtr mem bp (mem p).ptr

def joinLower (mem : Nat → Header) (bp p : Nat) : Nat → Header :=
  if p + 16 * (mem p).size = bp then
    let mem := setSize mem p (((mem p).size + (mem bp).size) % 2 ^ 32)
    setPtr mem p (mem bp).ptr
  else setPtr mem p bp

/-- `none` stands for a loop that has not ended after `fuel` turns. -/
def free (fuel : Nat) (h : Heap) (ap : Nat) : Option Heap := do
  let bp := ap - 16
  let p ← seek (fun p => (h.mem p).ptr) (Stops h.mem bp) fuel h.freep
  return { h with mem := joinLower (joinUpper h.mem bp p) bp p, freep := p }

/-- The heap and `freep`, or 0. -/
def morecore (env : Env) (fuel : Nat) (h : Heap) (nu : Nat) : Option (Heap × Nat) :=
  let nu := if nu < 4096 then 4096 else nu
  match env.sbrk h.calls h.got (nu * 16) with
  | none => some ({ h with calls := h.calls + 1 }, 0)
  | some hp => do
    let h ← free fuel ⟨setSize h.mem hp nu, h.freep, ⟨hp, nu * 16⟩ :: h.got, h.calls + 1⟩ (hp + 16)
    return (h, h.freep)

def nunits (nbytes : BitVec 32) : Nat := ((nbytes.toNat + 16 - 1) / 16 + 1) % 2 ^ 32

/-- The block `p` after `prevp` is large enough: take it, or its end. -/
def take (h : Heap) (nunits prevp p : Nat) : Heap × Nat :=
  if (h.mem p).size = nunits then ({ h with mem := setPtr h.mem prevp (h.mem p).ptr, freep := prevp }, p + 16)
  else
    let mem := setSize h.mem p ((h.mem p).size - nunits)
    let p := p + 16 * (mem p).size
    ({ h with mem := setSize mem p nunits, freep := prevp }, p + 16)

def mallocLoop (env : Env) (nunits : Nat) : Nat → Heap → Nat → Nat → Option (Heap × Nat)
  | 0, _, _, _ => none
  | fuel + 1, h, prevp, p =>
    if nunits ≤ (h.mem p).size then some (take h nunits prevp p)
    else if p = h.freep then do
      let (h, p) ← morecore env fuel h nunits
      if p = 0 then return (h, 0) else mallocLoop env nunits fuel h p (h.mem p).ptr
    else mallocLoop env nunits fuel h p (h.mem p).ptr

def start (env : Env) (h : Heap) : Heap :=
  if h.freep = 0 then { h with mem := update h.mem env.base ⟨env.base, 0⟩, freep := env.base } else h

def malloc (env : Env) (fuel : Nat) (h : Heap) (nbytes : BitVec 32) : Option (Heap × Nat) :=
  let h := start env h
  mallocLoop env (nunits nbytes) fuel h h.freep (h.mem h.freep).ptr

/-- `sbrk` gives fewer than 2³² headers in all. -/
def Env.Few (env : Env) : Prop := ∀ k got n p, env.sbrk k got n = some p → total got + n < 16 * 2 ^ 32

structure World where
  heap : Heap
  live : List (Nat × Nat)

inductive Op
  | malloc (nbytes : BitVec 32)
  | free (ap : Nat)
  | store (a : Nat) (v : Header)

/-- A program frees what it has got, once, and stores to its blocks only. -/
inductive Step (env : Env) : World → Op → World → Prop
  | malloc {w : World} {fuel : Nat} {nbytes : BitVec 32} {h : Heap} {ap : Nat}
      (hrun : malloc env fuel w.heap nbytes = some (h, ap)) :
    Step env w (.malloc nbytes) ⟨h, if ap = 0 then w.live else (ap, nbytes.toNat) :: w.live⟩
  | free {w : World} {fuel : Nat} {ap n : Nat} {h : Heap} (hlive : (ap, n) ∈ w.live)
      (hrun : free fuel w.heap ap = some h) :
    Step env w (.free ap) ⟨h, w.live.erase (ap, n)⟩
  | store {w : World} {ap n i : Nat} {v : Header} (hlive : (ap, n) ∈ w.live) (hi : 16 * i < n) :
    Step env w (.store (ap + 16 * i) v) ⟨{ w.heap with mem := update w.heap.mem (ap + 16 * i) v }, w.live⟩

/-- The program begins without a free list. -/
def allocator (env : Env) : System World Op where
  init w := w.heap.freep = 0 ∧ w.heap.got = [] ∧ w.live = []
  step := Step env

variable {mem : Nat → Header} {a b q n : Nat}

@[simp] theorem setPtr_same : setPtr mem a q a = ⟨q, (mem a).size⟩ := update_self ..

@[simp] theorem setSize_same : setSize mem a n a = ⟨(mem a).ptr, n⟩ := update_self ..

theorem setPtr_other (h : b ≠ a) : setPtr mem a q b = mem b := update_of_ne h ..

theorem setSize_other (h : b ≠ a) : setSize mem a n b = mem b := update_of_ne h ..

@[simp] theorem setPtr_size : (setPtr mem a q b).size = (mem b).size := by
  rw [setPtr, update_apply]
  split
  · rename_i h
    rw [h]
  · rfl

@[simp] theorem setSize_ptr : (setSize mem a n b).ptr = (mem b).ptr := by
  rw [setSize, update_apply]
  split
  · rename_i h
    rw [h]
  · rfl

theorem nunits_eq (nbytes : BitVec 32) : nunits nbytes = (nbytes.toNat + 15) / 16 + 1 := by
  have := nbytes.isLt
  rw [nunits]
  omega

variable {env : Env} {h h' : Heap} {k k' prev : Nat} {x : Heap × Nat}

theorem free_mono (hrun : free k h a = some h') (hk : k ≤ k') : free k' h a = some h' := by
  rw [free] at hrun ⊢
  obtain ⟨p, hseek, hrest⟩ := Option.bind_eq_some_iff.mp hrun
  rw [seek_mono hseek hk]
  exact hrest

theorem morecore_mono (hrun : morecore env k h n = some x) (hk : k ≤ k') : morecore env k' h n = some x := by
  rw [morecore] at hrun ⊢
  split
  · rename_i hs
    rw [hs] at hrun
    exact hrun
  · rename_i hp hs
    rw [hs] at hrun
    obtain ⟨h₁, hfree, hrest⟩ := Option.bind_eq_some_iff.mp hrun
    rw [free_mono hfree hk]
    exact hrest

theorem mallocLoop_mono (hrun : mallocLoop env n k h prev a = some x) (hk : k ≤ k') :
    mallocLoop env n k' h prev a = some x := by
  induction k generalizing h prev a k' with
  | zero => cases hrun
  | succ k ih =>
    obtain ⟨k', rfl⟩ : ∃ j, k' = j + 1 := ⟨k' - 1, by omega⟩
    rw [mallocLoop] at hrun ⊢
    split at hrun
    · rw [if_pos ‹_›]
      exact hrun
    rw [if_neg ‹_›]
    split at hrun
    · rw [if_pos ‹_›]
      obtain ⟨⟨h₁, p⟩, hmore, hrest⟩ := Option.bind_eq_some_iff.mp hrun
      rw [morecore_mono hmore (by omega)]
      simp only [Option.bind_eq_bind, Option.bind_some] at hrest ⊢
      split at hrest
      · rw [if_pos ‹_›]
        exact hrest
      · rw [if_neg ‹_›]
        exact ih hrest (by omega)
    · rw [if_neg ‹_›]
      exact ih hrun (by omega)

theorem free_got (hrun : free k h a = some h') : h'.got = h.got := by
  rw [free] at hrun
  obtain ⟨p, -, hrest⟩ := Option.bind_eq_some_iff.mp hrun
  cases hrest
  rfl

/-- What every answer of `sbrk` keeps, `malloc` keeps. -/
theorem mallocLoop_got {P : List Range → Prop}
    (hP : ∀ k got n p, 0 < n → P got → env.sbrk k got n = some p → P (⟨p, n⟩ :: got))
    (hh : P h.got) (hrun : mallocLoop env n k h prev a = some x) : P x.1.got := by
  induction k generalizing h prev a with
  | zero => cases hrun
  | succ k ih =>
    rw [mallocLoop] at hrun
    split at hrun
    · cases hrun
      rw [take]
      split <;> exact hh
    split at hrun
    · obtain ⟨⟨h₁, p⟩, hmore, hrest⟩ := Option.bind_eq_some_iff.mp hrun
      have hgot : P h₁.got := by
        rw [morecore] at hmore
        split at hmore
        · cases hmore
          exact hh
        · rename_i hs
          obtain ⟨h₂, hfree, hrest⟩ := Option.bind_eq_some_iff.mp hmore
          cases hrest
          rw [free_got hfree]
          exact hP _ _ _ _ (by split <;> omega) hh hs
      dsimp only at hrest
      split at hrest
      · cases hrest
        exact hgot
      · exact ih hgot hrest
    · exact ih hh hrun

end Xv6.Umalloc
