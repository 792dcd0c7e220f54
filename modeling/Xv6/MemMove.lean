import Xv6.CopyLoop
import Xv6.Words

/-!
# `memmove`

The kernel's `memmove` copies downwards where the target starts inside the source, and the user
library's always upwards. Memory is a byte for each of the `2 ^ 64` addresses; the lengths are a
`uint` and an `int`.
-/
namespace Xv6.MemMove

open Words CopyLoop

def stringMemmove (mem : Word → Byte) (dst src : Word) (n : BitVec 32) : Word → Byte :=
  if src.toNat < dst.toNat ∧ dst.toNat < (src + n.setWidth 64).toNat then
    copyDown mem (dst + n.setWidth 64) (src + n.setWidth 64) n.toNat
  else copyUp mem dst src n.toNat

def ulibMemmove (mem : Word → Byte) (dst src : Word) (n : BitVec 32) : Word → Byte :=
  copyUp mem dst src n.toInt.toNat

def byteAt (mem : Word → Byte) (p : Word) (i : Nat) : Byte := mem (p + BitVec.ofNat 64 i)

/-- The `n` bytes at `dst` are those that were at `src`, and the others are what they were. -/
structure Moved (mem mem' : Word → Byte) (dst src : Word) (n : Nat) : Prop where
  copied : ∀ i < n, byteAt mem' dst i = byteAt mem src i
  others : ∀ a, (∀ i < n, a ≠ dst + BitVec.ofNat 64 i) → mem' a = mem a

variable {mem mem' : Word → Byte} {dst src : Word} {n k : Nat}

theorem addr_eq (p : Word) (i : Nat) : p + BitVec.ofNat 64 i = BitVec.ofNat 64 (p.toNat + i) := by
  rw [BitVec.ofNat_add, BitVec.ofNat_toNat, BitVec.setWidth_eq]

/-- A memory known at every address is a copy of the first `n` bytes exactly when the bytes are
right. -/
theorem moved_iff (src : Word) (hdst : dst.toNat + n ≤ 2 ^ 64) (hk : k ≤ n) (from' : Nat → Byte)
    (h : ∀ x < 2 ^ 64, mem' (BitVec.ofNat 64 x) =
      if dst.toNat ≤ x ∧ x < dst.toNat + k then from' (x - dst.toNat) else mem (BitVec.ofNat 64 x)) :
    Moved mem mem' dst src n ↔ (∀ i < k, from' i = byteAt mem src i) ∧
      ∀ i, k ≤ i → i < n → byteAt mem dst i = byteAt mem src i := by
  have hbyte (i : Nat) (hi : i < n) : byteAt mem' dst i = if i < k then from' i else byteAt mem dst i := by
    rw [byteAt, addr_eq, h _ (by omega), Nat.add_sub_cancel_left, byteAt, addr_eq]
    by_cases hik : i < k
    · rw [if_pos (by omega), if_pos hik]
    · rw [if_neg (by omega), if_neg hik]
  constructor
  · intro hm
    refine ⟨fun i hi => ?_, fun i hi hn => ?_⟩
    · rw [← hm.copied i (by omega), hbyte i (by omega), if_pos hi]
    · rw [← hm.copied i hn, hbyte i hn, if_neg (by omega)]
  · rintro ⟨hfirst, hrest⟩
    refine ⟨fun i hi => ?_, fun a ha => ?_⟩
    · rw [hbyte i hi]
      split
      · exact hfirst i ‹_›
      · exact hrest i (by omega) hi
    · have hx := h a.toNat a.isLt
      rw [BitVec.ofNat_toNat, BitVec.setWidth_eq] at hx
      rw [hx, if_neg]
      rintro ⟨hlo, hhi⟩
      refine ha (a.toNat - dst.toNat) (by omega) ?_
      rw [addr_eq, Nat.add_sub_cancel' hlo, BitVec.ofNat_toNat, BitVec.setWidth_eq]

theorem ofNat_toNat_eq (p : Word) : BitVec.ofNat 64 p.toNat = p := by
  rw [BitVec.ofNat_toNat, BitVec.setWidth_eq]

theorem stringMemmove_apply (n : BitVec 32) (hdst : dst.toNat + n.toNat ≤ 2 ^ 64)
    (hsrc : src.toNat + n.toNat ≤ 2 ^ 64)
    {x : Nat} (hx : x < 2 ^ 64) : stringMemmove mem dst src n (BitVec.ofNat 64 x) =
      if dst.toNat ≤ x ∧ x < dst.toNat + n.toNat then byteAt mem src (x - dst.toNat) else mem
      (BitVec.ofNat 64 x) := by
  have hlen : n.setWidth 64 = BitVec.ofNat 64 n.toNat := by rw [BitVec.ofNat_toNat]
  have he := numbered_bitVec 64
  rw [stringMemmove, hlen, byteAt, addr_eq, addr_eq, addr_eq]
  by_cases hover : src.toNat < dst.toNat ∧ dst.toNat < (BitVec.ofNat 64 (src.toNat + n.toNat)).toNat
  · rw [if_pos hover, he.copyDown mem (by omega) hdst hx]
  · rw [if_neg hover]
    have hup := he.copyUp mem hdst hsrc hx
    rw [ofNat_toNat_eq, ofNat_toNat_eq] at hup
    rw [hup]
    split
    · rename_i hin
      by_cases hlt : src.toNat < dst.toNat
      · have hend : (BitVec.ofNat 64 (src.toNat + n.toNat)).toNat = src.toNat + n.toNat := by
          rw [BitVec.toNat_ofNat]
          exact Nat.mod_eq_of_lt (by omega)
        rw [hend] at hover
        rw [origin, if_pos hlt, Nat.mod_eq_of_lt (by omega)]
      · rw [origin_of_le (by omega)]
    · rfl

theorem ulibMemmove_apply (n : BitVec 32) (hdst : dst.toNat + n.toNat ≤ 2 ^ 64)
    (hsrc : src.toNat + n.toNat ≤ 2 ^ 64)
    {x : Nat} (hx : x < 2 ^ 64) : ulibMemmove mem dst src n (BitVec.ofNat 64 x) =
      if dst.toNat ≤ x ∧ x < dst.toNat + n.toInt.toNat then mem
      (BitVec.ofNat 64 (origin dst.toNat src.toNat (x - dst.toNat)))
      else mem (BitVec.ofNat 64 x) := by
  have hcount : n.toInt.toNat ≤ n.toNat := by
    rw [BitVec.toInt_eq_toNat_cond]
    split <;> omega
  have hup := (numbered_bitVec 64).copyUp mem (n := n.toInt.toNat) (d := dst.toNat) (s := src.toNat)
    (by omega) (by omega) hx
  rw [ofNat_toNat_eq, ofNat_toNat_eq] at hup
  exact hup

/-- The number of bytes that the user library's `memmove` copies when it is called with the length
`n`. -/
def ulibCount (n : Nat) : Nat := (BitVec.ofNat 32 n).toInt.toNat

theorem ulibCount_le (n : Nat) : ulibCount n ≤ n % 2 ^ 32 := by
  rw [ulibCount, BitVec.toInt_eq_toNat_cond, BitVec.toNat_ofNat]
  split <;> omega

theorem ulibCount_of_lt (h : n < 2 ^ 31) : ulibCount n = n := by
  rw [ulibCount, BitVec.toInt_eq_toNat_cond, BitVec.toNat_ofNat]
  split <;> omega

/-- Where the target starts inside the source, the source repeats itself with the distance as its
period. -/
def Repeats (mem : Word → Byte) (dst src : Word) (k : Nat) : Prop :=
  src.toNat < dst.toNat → dst.toNat < src.toNat + k →
    ∀ i < k, byteAt mem src i = byteAt mem src (i % (dst.toNat - src.toNat))

/-- Both functions move the block exactly when the source repeats itself as far as it overlaps with
a target above it, and the bytes that the length as an `int` leaves out are there already. -/
theorem memmoves_move_iff (mem : Word → Byte) (dst src : Word) (n : Nat) (hdst : dst.toNat + n ≤ 2 ^ 64)
    (hsrc : src.toNat + n ≤ 2 ^ 64) :
    (Moved mem (stringMemmove mem dst src (BitVec.ofNat 32 n)) dst src n ∧
      Moved mem (ulibMemmove mem dst src (BitVec.ofNat 32 n)) dst src n) ↔
    Repeats mem dst src (ulibCount n) ∧ ∀ i, ulibCount n ≤ i → i < n → byteAt mem dst i = byteAt mem src i := by
  have hn : (BitVec.ofNat 32 n).toNat = n % 2 ^ 32 := BitVec.toNat_ofNat n 32
  have hmod := Nat.mod_le n (2 ^ 32)
  have hcount := ulibCount_le n
  have hkernel := moved_iff src hdst hmod (byteAt mem src) (fun x hx => by
    rw [← hn]
    exact stringMemmove_apply (BitVec.ofNat 32 n) (by omega) (by omega) hx)
  have huser := moved_iff src hdst (hcount.trans hmod)
    (fun i => mem (BitVec.ofNat 64 (origin dst.toNat src.toNat i)))
    (fun x hx => ulibMemmove_apply (BitVec.ofNat 32 n) (by omega) (by omega) hx)
  rw [hkernel, huser]
  have hrepeat : (∀ i < ulibCount n, mem (BitVec.ofNat 64 (origin dst.toNat src.toNat i)) = byteAt mem src i) ↔
      Repeats mem dst src (ulibCount n) := by
    constructor
    · intro h hlt _ i hi
      rw [← h i hi, origin, if_pos hlt, byteAt, addr_eq]
    · intro h i hi
      rw [origin]
      split
      · rename_i hlt
        by_cases hin : dst.toNat < src.toNat + ulibCount n
        · rw [h hlt hin i hi, byteAt, addr_eq]
        · rw [Nat.mod_eq_of_lt (by omega), byteAt, addr_eq]
      · rw [byteAt, addr_eq]
  constructor
  · rintro ⟨-, hover, hrest⟩
    exact ⟨hrepeat.mp hover, hrest⟩
  · rintro ⟨hover, hrest⟩
    exact ⟨⟨fun _ _ => rfl, fun i hi hin => hrest i (by omega) hin⟩, hrepeat.mpr hover, hrest⟩

/-- A block of 16 bytes moves down by 8. -/
theorem memmoves_move_down : Moved (fun a => a.setWidth 8)
    (stringMemmove (fun a => a.setWidth 8) 0x1000 0x1008 16) 0x1000 0x1008 16 ∧
    Moved (fun a => a.setWidth 8) (ulibMemmove (fun a => a.setWidth 8) 0x1000 0x1008 16) 0x1000 0x1008 16 := by
  have hcount : ulibCount 16 = 16 := ulibCount_of_lt (by decide)
  refine (memmoves_move_iff (fun a => a.setWidth 8) 0x1000 0x1008 16 (by decide) (by decide)).mpr
    ⟨?_, fun i hi hin => ?_⟩
  · intro hlt
    exact absurd hlt (by decide)
  · omega

/-- The user library's `memmove` by one byte up copies the first byte twice. -/
theorem ulibMemmove_repeats : ∃ (mem : Word → Byte) (dst src : Word) (n : Nat),
    dst.toNat + n ≤ 2 ^ 64 ∧ src.toNat + n ≤ 2 ^ 64 ∧
    Moved mem (stringMemmove mem dst src (BitVec.ofNat 32 n)) dst src n ∧
    ¬ Moved mem (ulibMemmove mem dst src (BitVec.ofNat 32 n)) dst src n := by
  refine ⟨fun a => a.setWidth 8, 1, 0, 2, by decide, by decide, ?_, fun hm => ?_⟩
  · refine (moved_iff _ (by decide) (Nat.le_refl 2) _ fun x hx =>
      stringMemmove_apply 2 (by decide) (by decide) hx).mpr ⟨?_, ?_⟩
    · exact fun _ _ => rfl
    · intro i hi hin
      omega
  · have hbyte := hm.copied 1 (by decide)
    revert hbyte
    decide

end Xv6.MemMove
