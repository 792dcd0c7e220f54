import Mathlib.Data.BitVec
import Mathlib.Logic.Function.Basic
import Mathlib.Tactic.Linarith

/-!
# Copying a block of memory byte by byte

The two directions of a copying loop. Upwards, where the target starts inside the source, the block
repeats with the distance between the two as its period. Downwards, with the source below the
target, every byte is read before it is written.
-/
namespace Xv6.CopyLoop

open Function

variable {α β : Type} [DecidableEq α] [Add α] [Sub α] [One α]

def copyUp (mem : α → β) (d s : α) : Nat → α → β
  | 0 => mem
  | n + 1 => copyUp (update mem d (mem s)) (d + 1) (s + 1) n

def copyDown (mem : α → β) (d s : α) : Nat → α → β
  | 0 => mem
  | n + 1 => copyDown (update mem (d - 1) (mem (s - 1))) (d - 1) (s - 1) n

/-- The addresses below `N` are numbered by `e`. -/
structure Numbered (e : Nat → α) (N : Nat) : Prop where
  inj : ∀ a b, a < N → b < N → e a = e b → a = b
  succ : ∀ a, e (a + 1) = e a + 1
  pred : ∀ a, e (a + 1) - 1 = e a

/-- The byte that ends up at place `i` of the target of a loop upwards. -/
def origin (d s i : Nat) : Nat := if s < d then s + i % (d - s) else s + i

theorem origin_zero (d s : Nat) : origin d s 0 = s := by
  simp [origin]

theorem origin_of_le {d s : Nat} (h : d ≤ s) (i : Nat) : origin d s i = s + i := if_neg (by omega)

/-- The first place is left out, which was the only one that read the byte `s`. -/
theorem origin_succ (d s i : Nat) : origin (d + 1) (s + 1) i =
    if origin d s (i + 1) = s then d else origin d s (i + 1) := by
  unfold origin
  by_cases h : s < d
  · have hd : d + 1 - (s + 1) = d - s := by omega
    simp only [h, Nat.add_lt_add_iff_right, ↓reduceIte, hd]
    have hpos : 0 < d - s := by omega
    have hlt := Nat.mod_lt i hpos
    rcases Nat.lt_or_ge (i % (d - s) + 1) (d - s) with hle | hge
    · have hmod : (i + 1) % (d - s) = i % (d - s) + 1 := by
        rw [Nat.add_mod, Nat.mod_eq_of_lt (show 1 < d - s by omega), Nat.mod_eq_of_lt hle]
      rw [hmod, if_neg (by omega)]
      omega
    · have hmod : (i + 1) % (d - s) = 0 := by
        rw [← Nat.mod_add_mod, show i % (d - s) + 1 = d - s by omega, Nat.mod_self]
      rw [hmod, if_pos (by omega)]
      omega
  · simp only [h, Nat.add_lt_add_iff_right, ↓reduceIte]
    rw [if_neg (by omega)]
    omega

theorem origin_ne (d s i : Nat) : origin d s (i + 1) ≠ d := by
  unfold origin
  split
  · have := Nat.mod_lt (i + 1) (show 0 < d - s by omega)
    omega
  · omega

section

variable {e : Nat → α} {N n d s x : Nat} (he : Numbered e N)
include he

theorem Numbered.update (mem : α → β) (b : β) {a : Nat} (ha : a < N) (hx : x < N) :
    update mem (e a) b (e x) = if x = a then b else mem (e x) := by
  by_cases h : x = a
  · rw [if_pos h, h, update_self]
  · rw [if_neg h, update_of_ne fun heq => h (he.inj _ _ hx ha heq)]

/-- What a loop upwards leaves at the address `x`. -/
theorem Numbered.copyUp (mem : α → β) (hd : d + n ≤ N) (hs : s + n ≤ N) (hx : x < N) :
    copyUp mem (e d) (e s) n (e x) = if d ≤ x ∧ x < d + n then mem (e (origin d s (x - d))) else mem (e x) := by
  induction n generalizing mem d s with
  | zero => rw [if_neg (by omega), CopyLoop.copyUp]
  | succ n ih =>
    rw [CopyLoop.copyUp, ← he.succ, ← he.succ, ih _ (by omega) (by omega)]
    rcases Nat.lt_trichotomy x d with hlt | rfl | hgt
    · rw [if_neg (by omega), if_neg (by omega), he.update _ _ (by omega) hx, if_neg (by omega)]
    · rw [if_neg (by omega), if_pos (by omega), he.update _ _ (by omega) hx, if_pos rfl, Nat.sub_self, origin_zero]
    · by_cases hin : x < d + (n + 1)
      · obtain ⟨i, rfl⟩ := Nat.exists_eq_add_of_lt hgt
        have hi : d + i + 1 - (d + 1) = i := by omega
        have hi' : d + i + 1 - d = i + 1 := by omega
        have hread : origin (d + 1) (s + 1) i < N := by
          unfold origin
          split
          · have := Nat.mod_lt i (show 0 < d + 1 - (s + 1) by omega)
            omega
          · omega
        rw [if_pos (by omega), if_pos (by omega), hi, hi', he.update _ _ (by omega) hread]
        rw [origin_succ] at hread ⊢
        split
        · rename_i hfirst
          rw [if_pos rfl, hfirst]
        · rw [if_neg (origin_ne _ _ _)]
      · rw [if_neg (by omega), if_neg (by omega), he.update _ _ (by omega) hx, if_neg (by omega)]

/-- What a loop downwards leaves at the address `x`, the source lying below the target. -/
theorem Numbered.copyDown (mem : α → β) (hsd : s ≤ d) (hd : d + n ≤ N) (hx : x < N) :
    copyDown mem (e (d + n)) (e (s + n)) n (e x) = if d ≤ x ∧ x < d + n then mem
    (e (s + (x - d))) else mem (e x) := by
  induction n generalizing mem with
  | zero => rw [if_neg (by omega), CopyLoop.copyDown]
  | succ n ih =>
    have hdn : e (d + (n + 1)) - 1 = e (d + n) := he.pred _
    have hsn : e (s + (n + 1)) - 1 = e (s + n) := he.pred _
    rw [CopyLoop.copyDown, hdn, hsn, ih _ (by omega), he.update _ _ (by omega) hx]
    by_cases hin : d ≤ x ∧ x < d + n
    · rw [if_pos hin, if_pos (by omega), he.update _ _ (by omega) (by omega), if_neg (by omega)]
    · rw [if_neg hin]
      by_cases hlast : x = d + n
      · rw [if_pos hlast, if_pos (by omega), hlast, Nat.add_sub_cancel_left]
      · rw [if_neg hlast, if_neg (by omega)]

end

theorem numbered_nat (N : Nat) : Numbered (fun a : Nat => a) N :=
    ⟨fun _ _ _ _ h => h, fun _ => rfl, fun a => Nat.add_sub_cancel a 1⟩

theorem numbered_bitVec (w : Nat) : Numbered (BitVec.ofNat w) (2 ^ w) := by
  refine ⟨fun a b ha hb h => ?_, fun a => BitVec.ofNat_add a 1, fun a => ?_⟩
  · have hnat := congrArg BitVec.toNat h
    rwa [BitVec.toNat_ofNat, BitVec.toNat_ofNat, Nat.mod_eq_of_lt ha, Nat.mod_eq_of_lt hb] at hnat
  · rw [BitVec.ofNat_add]
    exact BitVec.add_sub_cancel _ _

end Xv6.CopyLoop
