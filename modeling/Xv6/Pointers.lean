import Mathlib.Algebra.BigOperators.Group.Finset.Piecewise

/-!
# Tables of pointers

A finite table whose slots are empty or point to something. How many slots point to `x` changes by
one at most when one slot is written.
-/
namespace Xv6.Pointers

open Function

variable {ι κ : Type} [Fintype ι] [DecidableEq ι] [DecidableEq κ] {t : ι → Option κ} {x : κ}

def pointers (t : ι → Option κ) (x : κ) : Nat := (Finset.univ.filter (fun i => t i = some x)).card

omit [DecidableEq ι] in
theorem pointers_eq_sum : pointers t x = ∑ i, if t i = some x then 1 else 0 := Finset.card_filter _ _

theorem pointers_update (t : ι → Option κ) (i : ι) (v : Option κ) (x : κ) :
    pointers (update t i v) x + (if t i = some x then 1 else 0) =
      pointers t x + (if v = some x then 1 else 0) := by
  have hrest : ∑ j ∈ Finset.univ.erase i, (if update t i v j = some x then 1 else 0) =
      ∑ j ∈ Finset.univ.erase i, if t j = some x then 1 else 0 := by
    refine Finset.sum_congr rfl fun j hj => ?_
    rw [update_of_ne (Finset.ne_of_mem_erase hj)]
  rw [pointers_eq_sum, pointers_eq_sum, ← Finset.add_sum_erase _ _ (Finset.mem_univ i),
    ← Finset.add_sum_erase Finset.univ (fun j => if t j = some x then 1 else 0) (Finset.mem_univ i), hrest,
    update_self]
  omega

omit [DecidableEq ι] in
theorem pointers_pos_iff : 0 < pointers t x ↔ ∃ i, t i = some x := by
  rw [pointers, Finset.card_pos]
  constructor
  · rintro ⟨i, hi⟩
    exact ⟨i, (Finset.mem_filter.mp hi).2⟩
  · rintro ⟨i, hi⟩
    exact ⟨i, Finset.mem_filter.mpr ⟨Finset.mem_univ i, hi⟩⟩

omit [DecidableEq ι] in
@[simp] theorem pointers_empty : pointers (fun _ : ι => none) x = 0 := by simp [pointers]

end Xv6.Pointers
