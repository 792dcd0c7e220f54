import Mathlib.Logic.Function.Basic
import Mathlib.Data.List.Nodup

/-!
# Allocations

Owners hold objects of a pool, each object at most one owner, and a mark on every object says
whether it is in use: it is reserved or some owner has it. Taking an unmarked object and giving one
back keep this.
-/
namespace Xv6.Allocation

open Function

variable {κ α : Type} [DecidableEq κ] [DecidableEq α] {managed reserved : α → Prop} {owns owns' : κ → Option α}
  {used : α → Bool} {x : κ} {b : α}

structure Allocated (managed reserved : α → Prop) (owns : κ → Option α) (used : α → Bool) : Prop where
  inj : ∀ x y b, owns x = some b → owns y = some b → x = y
  inside : ∀ x b, owns x = some b → managed b ∧ ¬ reserved b
  used_iff : ∀ b, managed b → (used b = true ↔ reserved b ∨ ∃ x, owns x = some b)

omit [DecidableEq α] in
/-- A new entry for `x` that is `b` just if the old one was leaves it whether `b` has an owner. -/
theorem owned_update {o : Option α} (h : o = some b ↔ owns x = some b) :
    (∃ y, owns y = some b) ↔ ∃ y, update owns x o y = some b := by
  refine exists_congr fun y => ?_
  by_cases hyx : y = x
  · rw [hyx, update_self, h]
  · rw [update_of_ne hyx]

omit [DecidableEq κ] [DecidableEq α] in
theorem Allocated.not_reserved (h : Allocated managed reserved owns used) (hb : managed b)
    (hfree : used b = false) :
    ¬ reserved b := by
  intro hres
  rw [(h.used_iff b hb).mpr (.inl hres)] at hfree
  cases hfree

omit [DecidableEq κ] [DecidableEq α] in
theorem Allocated.not_owned (h : Allocated managed reserved owns used) (hb : managed b)
    (hfree : used b = false) (x : κ) :
    owns x ≠ some b := by
  intro hx
  rw [(h.used_iff b hb).mpr (.inr ⟨x, hx⟩)] at hfree
  cases hfree

omit [DecidableEq κ] [DecidableEq α] in
theorem Allocated.ne_of_ne (h : Allocated managed reserved owns used) {y : κ} {c : α} (hx : owns x = some b)
    (hy : owns y = some c) (hne : x ≠ y) : b ≠ c := by
  rintro rfl
  exact hne (h.inj x y b hx hy)

section

variable (h : Allocated managed reserved owns used)
include h

theorem Allocated.alloc (hb : managed b) (hfree : used b = false)
    (hx : owns x = none) : Allocated managed reserved (update owns x (some b)) (update used b true) := by
  have hnot := h.not_owned hb hfree
  constructor
  case inj =>
    intro y z c hy hz
    rw [update_apply] at hy hz
    split at hy <;> split at hz
    case isTrue.isTrue hyx hzx => rw [hyx, hzx]
    case isTrue.isFalse =>
      cases hy
      exact absurd hz (hnot z)
    case isFalse.isTrue =>
      cases hz
      exact absurd hy (hnot y)
    case isFalse.isFalse => exact h.inj y z c hy hz
  case inside =>
    intro y c hy
    rw [update_apply] at hy
    split at hy
    · cases hy
      exact ⟨hb, h.not_reserved hb hfree⟩
    · exact h.inside y c hy
  case used_iff =>
    intro c hc
    by_cases hcb : c = b
    · subst hcb
      rw [update_self]
      exact ⟨fun _ => .inr ⟨x, update_self ..⟩, fun _ => rfl⟩
    · rw [update_of_ne hcb, h.used_iff c hc, owned_update]
      simp [hx, Ne.symm hcb]

theorem Allocated.free (hx : owns x = some b) :
    Allocated managed reserved (update owns x none) (update used b false) := by
  obtain ⟨hb, hres⟩ := h.inside x b hx
  constructor
  case inj =>
    intro y z c hy hz
    rw [update_apply] at hy hz
    split at hy
    · cases hy
    · split at hz
      · cases hz
      · exact h.inj y z c hy hz
  case inside =>
    intro y c hy
    rw [update_apply] at hy
    split at hy
    · cases hy
    · exact h.inside y c hy
  case used_iff =>
    intro c hc
    by_cases hcb : c = b
    · subst hcb
      rw [update_self]
      constructor
      · intro hfalse
        cases hfalse
      · rintro (hc | ⟨y, hy⟩)
        · exact absurd hc hres
        · rw [update_apply] at hy
          split at hy
          · cases hy
          · exact absurd (h.inj y x c hy hx) ‹_›
    · rw [update_of_ne hcb, h.used_iff c hc, owned_update]
      simp [hx, Ne.symm hcb]

/-- Several owners give back what they have. -/
theorem Allocated.freeAll (f : κ → α) (xs : List κ) (hnodup : xs.Nodup)
    (hxs : ∀ x ∈ xs, owns x = some (f x)) : Allocated managed reserved (fun x => if x ∈ xs then none else owns x)
      (fun b => if b ∈ xs.map f then false else used b) := by
  induction xs generalizing owns used with
  | nil => simpa using h
  | cons x xs ih =>
    have hx : x ∉ xs := (List.nodup_cons.mp hnodup).1
    have hrest (y : κ) (hy : y ∈ xs) : update owns x none y = some (f y) := by
      rw [update_of_ne (by rintro rfl; exact hx hy)]
      exact hxs y (List.mem_cons_of_mem x hy)
    have hall := ih (h.free (hxs x List.mem_cons_self)) (List.nodup_cons.mp hnodup).2 hrest
    convert hall using 1
    · funext y
      by_cases hy : y = x <;> simp [hy, hx]
    · funext b
      by_cases hb : b = f x <;> simp [hb]

end

end Xv6.Allocation
