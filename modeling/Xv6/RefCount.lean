import Mathlib.Data.List.Nodup
import Mathlib.Logic.Function.Basic

/-!
# Reference-counted pools

A pool hands out objects from a free list and counts the references to each. `held` lists the
references; a pool is well counted when the free list has every managed object that nothing refers
to, once, and the counter of every other object is its number of references.
-/
namespace Xv6.RefCount

open Function

variable {α : Type} [DecidableEq α]

structure Counted (managed : α → Prop) (free : List α) (refs : α → Int) (held : List α) : Prop where
  nodup : free.Nodup
  mem_free : ∀ a, a ∈ free ↔ managed a ∧ a ∉ held
  managed_held : ∀ a ∈ held, managed a
  count : ∀ a ∈ held, refs a = held.count a

variable {managed : α → Prop} {free : List α} {refs : α → Int} {held held' : List α} {a : α}

section

variable (h : Counted managed free refs held)
include h

theorem Counted.perm (hp : held.Perm held') :
    Counted managed free refs held' := by
  refine ⟨h.nodup, ?_, ?_, ?_⟩
  · intro b
    rw [h.mem_free, hp.mem_iff]
  · intro b hb
    exact h.managed_held b (hp.mem_iff.mpr hb)
  · intro b hb
    rw [h.count b (hp.mem_iff.mpr hb), hp.count_eq]

theorem Counted.not_mem_held (ha : a ∈ free) : a ∉ held :=
  ((h.mem_free a).mp ha).2

theorem Counted.not_mem_free (ha : a ∈ held) : a ∉ free :=
  fun hf => h.not_mem_held hf ha

theorem Counted.one_le (ha : a ∈ held) : 1 ≤ refs a := by
  have hpos := List.count_pos_iff.mpr ha
  rw [h.count a ha]
  omega

end

theorem Counted.alloc (h : Counted managed (a :: free) refs held) :
    Counted managed free (update refs a 1) (a :: held) := by
  have hnot : a ∉ held := h.not_mem_held (by simp)
  have hman : managed a := ((h.mem_free a).mp (by simp)).1
  have hfree : a ∉ free := (List.nodup_cons.mp h.nodup).1
  refine ⟨(List.nodup_cons.mp h.nodup).2, ?_, ?_, ?_⟩
  · intro b
    have hb := h.mem_free b
    by_cases he : b = a
    · subst he
      simp [hfree]
    · simp only [List.mem_cons, he, false_or] at hb ⊢
      exact hb
  · intro b hb
    rcases List.mem_cons.mp hb with rfl | hb
    · exact hman
    · exact h.managed_held b hb
  · intro b hb
    by_cases he : b = a
    · subst he
      simp [List.count_eq_zero.mpr hnot]
    · have hb : b ∈ held := (List.mem_cons.mp hb).resolve_left he
      rw [update_of_ne he, h.count b hb, List.count_cons_of_ne (Ne.symm he)]

theorem Counted.retain (h : Counted managed free refs held) (ha : a ∈ held) :
    Counted managed free (update refs a (refs a + 1)) (a :: held) := by
  refine ⟨h.nodup, ?_, ?_, ?_⟩
  · intro b
    rw [h.mem_free]
    by_cases he : b = a
    · subst he
      simp [ha]
    · simp [he]
  · intro b hb
    rcases List.mem_cons.mp hb with rfl | hb
    · exact h.managed_held b ha
    · exact h.managed_held b hb
  · intro b hb
    by_cases he : b = a
    · subst he
      simp [h.count b ha]
    · have hb : b ∈ held := (List.mem_cons.mp hb).resolve_left he
      rw [update_of_ne he, h.count b hb, List.count_cons_of_ne (Ne.symm he)]

section

variable (h : Counted managed free refs (a :: held))
include h

theorem Counted.count_cons : refs a = held.count a + 1 := by
  rw [h.count a (by simp), List.count_cons_self]
  simp

/-- Dropping one of several references. -/
theorem Counted.release_shared (ha : a ∈ held) :
    Counted managed free (update refs a (refs a - 1)) held := by
  refine ⟨h.nodup, ?_, fun b hb => h.managed_held b (by simp [hb]), ?_⟩
  · intro b
    rw [h.mem_free]
    by_cases he : b = a
    · subst he
      simp [ha]
    · simp [he]
  · intro b hb
    by_cases he : b = a
    · subst he
      rw [update_self, h.count_cons]
      omega
    · rw [update_of_ne he, h.count b (by simp [hb]), List.count_cons_of_ne (Ne.symm he)]

/-- Dropping the last reference puts the object on the free list. -/
theorem Counted.release_last (ha : a ∉ held) :
    Counted managed (a :: free) (update refs a (refs a - 1)) held := by
  have hnot : a ∉ free := h.not_mem_free (by simp)
  refine ⟨List.nodup_cons.mpr ⟨hnot, h.nodup⟩, ?_, fun b hb => h.managed_held b (by simp [hb]), ?_⟩
  · intro b
    by_cases he : b = a
    · subst he
      simp [ha, h.managed_held b (by simp)]
    · simp [he, h.mem_free b]
  · intro b hb
    have he : b ≠ a := by
      rintro rfl
      exact ha hb
    rw [update_of_ne he, h.count b (by simp [hb]), List.count_cons_of_ne (Ne.symm he)]

/-- The counter tells whether the reference that goes is the last one. -/
theorem Counted.release_zero_iff :
    refs a - 1 = 0 ↔ a ∉ held := by
  rw [h.count_cons, ← List.count_eq_zero]
  omega

end

/-- The pool takes over an object it did not manage. -/
theorem Counted.extend (h : Counted managed free refs held) (ha : ¬ managed a) :
    Counted (fun b => managed b ∨ b = a) (a :: free) refs held := by
  have hfree : a ∉ free := fun hmem => ha ((h.mem_free a).mp hmem).1
  have hheld : a ∉ held := fun hmem => ha (h.managed_held a hmem)
  refine ⟨List.nodup_cons.mpr ⟨hfree, h.nodup⟩, ?_, fun b hb => .inl (h.managed_held b hb), h.count⟩
  intro b
  rw [List.mem_cons, h.mem_free]
  by_cases he : b = a
  · subst he
    simp [hheld]
  · simp [he]

end Xv6.RefCount
