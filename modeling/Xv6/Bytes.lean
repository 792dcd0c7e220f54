import Xv6.Words

/-!
# Little-endian fields of a byte buffer

A buffer is a total function from offsets to bytes. `getLE b o n` reads the `n`
bytes at offset `o` as a number, least significant byte first, and `putLE` stores
one there. A field read back is the value stored modulo its width, and a field that
does not overlap a store is unchanged.
-/
namespace Xv6.Bytes

open Words

abbrev Buffer := Nat → Byte

def getLE (b : Buffer) (o : Nat) : Nat → Nat
  | 0 => 0
  | n + 1 => (b o).toNat + 256 * getLE b (o + 1) n

def putLE (b : Buffer) (o n v : Nat) : Buffer :=
  fun i => if o ≤ i ∧ i < o + n then BitVec.ofNat 8 (v / 256 ^ (i - o)) else b i

/-- A field depends only on its own bytes. -/
theorem getLE_congr {b c : Buffer} {o n : Nat} (h : ∀ i, o ≤ i → i < o + n → b i = c i) :
    getLE b o n = getLE c o n := by
  induction n generalizing o with
  | zero => rfl
  | succ n ih =>
    simp only [getLE]
    rw [h o (by omega) (by omega), ih (by intro i h₁ h₂; exact h i (by omega) (by omega))]

theorem getLE_putLE_other {b : Buffer} {o n v p m : Nat} (h : p + m ≤ o ∨ o + n ≤ p) :
    getLE (putLE b o n v) p m = getLE b p m := by
  apply getLE_congr
  intro i h₁ h₂
  simp only [putLE]
  rw [if_neg (by omega)]

theorem getLE_putLE_same (b : Buffer) (o n v : Nat) : getLE (putLE b o n v) o n = v % 256 ^ n := by
  induction n generalizing o v with
  | zero => simp [getLE, Nat.mod_one]
  | succ n ih =>
    have hhead : putLE b o (n + 1) v o = BitVec.ofNat 8 v := by simp [putLE]
    have htail : getLE (putLE b o (n + 1) v) (o + 1) n = getLE (putLE b (o + 1) n (v / 256)) (o + 1) n := by
      apply getLE_congr
      intro i h₁ h₂
      have hi : i - o = i - (o + 1) + 1 := by omega
      simp only [putLE]
      rw [if_pos (by omega), if_pos (by omega), hi, Nat.pow_succ', Nat.div_div_eq_div_mul]
    simp only [getLE]
    rw [hhead, htail, ih, BitVec.toNat_ofNat, show (256 : Nat) ^ (n + 1) = 256 * 256 ^ n from Nat.pow_succ',
      Nat.mod_mul]

end Xv6.Bytes
