import Mathlib.Data.List.Range
import Mathlib.Data.Int.ModEq
import Mathlib.Logic.Function.Basic

/-!
# Ring buffers with wrapping counters

A ring of `N` slots is indexed by 32-bit counters modulo `N`. If `N` divides `2 ^ 32`, the
slots of at most `N` consecutive counter values are different, also where the counter wraps,
so the window between two counters behaves as a queue.
-/
namespace Xv6.RingBuffer

open Function

variable {α : Type} {N n k : Nat} {data : Nat → α} {r w : BitVec 32} {b : α}

def slot (N : Nat) (r : BitVec 32) : Nat := r.toNat % N

/-- The `n` elements from counter value `r` on. -/
def window (N : Nat) (data : Nat → α) (r : BitVec 32) (n : Nat) : List α :=
  (List.range n).map (fun i => data (slot N (r + BitVec.ofNat 32 i)))

@[simp] theorem window_length : (window N data r n).length = n := by simp [window]

@[simp] theorem window_zero : window N data r 0 = [] := rfl

theorem window_snoc : window N data r (n + 1) = window N data r n ++ [data (slot N (r + BitVec.ofNat 32 n))] := by
  simp [window, List.range_succ]

theorem window_cons : window N data r (n + 1) = data (slot N r) :: window N data (r + 1) n := by
  simp only [window, List.range_succ_eq_map, List.map_cons, List.map_map]
  congr 1
  · simp
  · apply List.map_congr_left
    intro i _
    have hadd : BitVec.ofNat 32 (i + 1) = 1 + BitVec.ofNat 32 i := by
      rw [Nat.add_comm, BitVec.ofNat_add]
      rfl
    simp only [comp_apply, Nat.succ_eq_add_one, hadd, BitVec.add_assoc]

theorem window_append : window N data r (k + n) = window N data r k ++
    window N data (r + BitVec.ofNat 32 k) n := by
  simp only [window, List.range_add, List.map_append, List.map_map]
  congr 1
  apply List.map_congr_left
  intro i _
  simp only [comp_apply, BitVec.ofNat_add, BitVec.add_assoc]

theorem slot_add (hN : N ∣ 2 ^ 32) : slot N (r + BitVec.ofNat 32 n) = (r.toNat + n) % N := by
  rw [slot, BitVec.toNat_add, BitVec.toNat_ofNat, Nat.mod_mod_of_dvd _ hN, Nat.add_mod, Nat.mod_mod_of_dvd _ hN,
    ← Nat.add_mod]

theorem slot_ne (hN : N ∣ 2 ^ 32) (hk : k < n) (hn : n < k + N) :
    slot N (r + BitVec.ofNat 32 k) ≠ slot N (r + BitVec.ofNat 32 n) := by
  rw [slot_add hN, slot_add hN]
  intro he
  have hd := (Nat.modEq_iff_dvd' (by omega : r.toNat + k ≤ r.toNat + n)).mp he
  have hle := Nat.le_of_dvd (by omega) hd
  omega

/-- A store behind the window does not reach it while there is room. -/
theorem window_store (hN : N ∣ 2 ^ 32) (hn : n < N) :
    window N (update data (slot N (r + BitVec.ofNat 32 n)) b) r n = window N data r n := by
  apply List.map_congr_left
  intro i hi
  rw [List.mem_range] at hi
  exact update_of_ne (slot_ne hN hi (by omega)) b data

theorem window_push (hN : N ∣ 2 ^ 32) (hn : n < N) :
    window N (update data (slot N (r + BitVec.ofNat 32 n)) b) r (n + 1) = window N data r n ++ [b] := by
  rw [window_snoc, window_store hN hn, update_self]

def count (r w : BitVec 32) : Nat := (w - r).toNat

theorem counter_eq : w = r + BitVec.ofNat 32 (count r w) := by
  rw [count, BitVec.ofNat_toNat, BitVec.setWidth_eq, BitVec.add_comm, BitVec.sub_add_cancel]

theorem count_eq_zero : count r w = 0 ↔ r = w := by
  constructor
  · intro h
    rw [counter_eq (r := r) (w := w), h]
    simp
  · rintro rfl
    simp [count]

theorem count_eq (hn : n < 2 ^ 32) : count r w = n ↔ w = r + BitVec.ofNat 32 n := by
  constructor
  · rintro rfl
    exact counter_eq
  · rintro rfl
    rw [count, BitVec.add_comm, BitVec.add_sub_cancel, BitVec.toNat_ofNat, Nat.mod_eq_of_lt hn]

theorem count_push (hn : count r w + 1 < 2 ^ 32) : count r (w + 1) = count r w + 1 := by
  rw [count_eq hn, BitVec.ofNat_add, ← BitVec.add_assoc, ← counter_eq]
  rfl

theorem count_pop (h : r ≠ w) : count (r + 1) w + 1 = count r w := by
  have hpos : 0 < count r w := Nat.pos_of_ne_zero (fun h0 => h (count_eq_zero.mp h0))
  have hlt : count r w < 2 ^ 32 := (w - r).isLt
  have hcount : count (r + 1) w = count r w - 1 := by
    rw [count_eq (by omega)]
    conv_lhs => rw [counter_eq (r := r) (w := w)]
    rw [BitVec.add_assoc]
    congr 1
    rw [show count r w = 1 + (count r w - 1) by omega, BitVec.ofNat_add, Nat.add_sub_cancel_left]
    rfl
  omega

end Xv6.RingBuffer
