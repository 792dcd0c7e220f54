import Mathlib.Data.List.Nodup
import Mathlib.Logic.Function.Basic

/-!
# Circular doubly linked lists

A ring has a head and goes through its elements by `next` and back by `prev`. `Path l a xs b` says
that the links lead from `a` through `xs` to `b`, both ways; a ring is such a path from the head to
itself that visits no one twice.
-/
namespace Xv6.LinkedRing

open Function

variable {α : Type} [DecidableEq α]

structure Links (α : Type) where
  next : α → α
  prev : α → α

def Links.setNext (l : Links α) (a b : α) : Links α := { l with next := update l.next a b }

def Links.setPrev (l : Links α) (a b : α) : Links α := { l with prev := update l.prev a b }

def Links.swap (l : Links α) : Links α := ⟨l.prev, l.next⟩

variable {l l' : Links α} {h a b c : α} {xs ys : List α} {p : α → Bool} {n : Nat}

@[simp, grind =] theorem setNext_next : (l.setNext a b).next c = if c = a then b else l.next c := update_apply ..

@[simp, grind =] theorem setNext_prev : (l.setNext a b).prev c = l.prev c := rfl

@[simp, grind =] theorem setPrev_prev : (l.setPrev a b).prev c = if c = a then b else l.prev c := update_apply ..

@[simp, grind =] theorem setPrev_next : (l.setPrev a b).next c = l.next c := rfl

def Path (l : Links α) : α → List α → α → Prop
  | a, [], b => l.next a = b ∧ l.prev b = a
  | a, x :: xs, b => (l.next a = x ∧ l.prev x = a) ∧ Path l x xs b

omit [DecidableEq α] in
theorem path_append {x : α} : Path l a (xs ++ x :: ys) b ↔ Path l a xs x ∧ Path l x ys b := by
  induction xs generalizing a with
  | nil => exact Iff.rfl
  | cons y xs ih =>
    simp only [List.cons_append, Path, ih]
    exact and_assoc.symm

omit [DecidableEq α] in
/-- A path does not notice changes to links that it does not use. -/
theorem Path.congr (hpath : Path l a xs b) (hnext : ∀ x ∈ a :: xs, l'.next x = l.next x)
    (hprev : ∀ x ∈ xs ++ [b], l'.prev x = l.prev x) : Path l' a xs b := by
  induction xs generalizing a with
  | nil =>
    rw [Path, hnext a (by simp), hprev b (by simp)]
    exact hpath
  | cons x xs ih =>
    obtain ⟨hlink, hrest⟩ := hpath
    refine ⟨?_, ih hrest (fun y hy => hnext y (List.mem_cons_of_mem a hy)) ?_⟩
    · rw [hnext a (by simp), hprev x (by simp)]
      exact hlink
    · intro y hy
      exact hprev y (List.mem_cons_of_mem x hy)

omit [DecidableEq α] in
theorem Path.swap (hpath : Path l a xs b) : Path l.swap b xs.reverse a := by
  induction xs generalizing a with
  | nil => exact ⟨hpath.2, hpath.1⟩
  | cons x xs ih =>
    obtain ⟨hlink, hrest⟩ := hpath
    rw [List.reverse_cons, path_append]
    exact ⟨ih hrest, hlink.2, hlink.1⟩

structure Ring (l : Links α) (h : α) (xs : List α) : Prop where
  path : Path l h xs h
  nodup : (h :: xs).Nodup

omit [DecidableEq α] in
theorem Ring.swap (r : Ring l h xs) : Ring l.swap h xs.reverse := by
  refine ⟨r.path.swap, ?_⟩
  have hn := r.nodup
  rw [List.nodup_cons] at hn ⊢
  exact ⟨by rw [List.mem_reverse]; exact hn.1, List.nodup_reverse.mpr hn.2⟩

/-- `b->next->prev = b->prev; b->prev->next = b->next`. -/
def unlink (l : Links α) (b : α) : Links α :=
  let l := l.setPrev (l.next b) (l.prev b)
  l.setNext (l.prev b) (l.next b)

/-- `b->next = h->next; b->prev = h; h->next->prev = b; h->next = b`. -/
def pushFront (l : Links α) (h b : α) : Links α :=
  let l := l.setNext b (l.next h)
  let l := l.setPrev b h
  let l := l.setPrev (l.next h) b
  l.setNext h b

theorem Ring.pushFront (r : Ring l h xs) (hb : b ∉ h :: xs) : Ring (pushFront l h b) h (b :: xs) := by
  have hn := r.nodup
  rw [List.mem_cons, not_or] at hb
  rw [List.nodup_cons] at hn
  refine ⟨?_, ?_⟩
  · cases xs with
    | nil =>
      have hpath := r.path
      simp only [Path, LinkedRing.pushFront] at hpath ⊢
      grind
    | cons x xs =>
      obtain ⟨hlink, hrest⟩ := r.path
      rw [List.nodup_cons] at hn
      refine ⟨?_, ?_, ?_⟩
      · simp only [LinkedRing.pushFront]
        grind
      · simp only [LinkedRing.pushFront]
        grind
      · apply hrest.congr
        · intro y hy
          simp only [LinkedRing.pushFront]
          grind
        · intro y hy
          simp only [LinkedRing.pushFront]
          grind
  · rw [List.nodup_cons, List.nodup_cons]
    simp only [List.mem_cons, not_or]
    exact ⟨⟨Ne.symm hb.1, hn.1⟩, hb.2, hn.2⟩

/-- What comes before the element and what comes after it, each of which may be the head, are
linked; the rest is as it was. -/
theorem Ring.unlink (r : Ring l h (xs ++ b :: ys)) : Ring (unlink l b) h (xs ++ ys) := by
  obtain ⟨hxs, hys⟩ := path_append.mp r.path
  have hn := r.nodup
  refine ⟨?_, hn.sublist (by simp)⟩
  rcases List.eq_nil_or_concat xs with rfl | ⟨xs, a, rfl⟩
  · cases ys with
    | nil =>
      simp only [List.append_nil, Path] at hxs hys ⊢
      simp only [LinkedRing.unlink]
      grind
    | cons c ys =>
      simp only [List.nil_append, Path] at hxs hys hn ⊢
      simp only [List.nodup_cons] at hn
      refine ⟨?_, hys.2.congr ?_ ?_⟩ <;> simp only [LinkedRing.unlink] <;> grind
  · simp only [List.concat_eq_append, List.nodup_cons, List.mem_append, List.nodup_append] at hn
    cases ys with
    | nil =>
      simp only [List.concat_eq_append, List.append_nil, path_append, Path] at hxs hys ⊢
      refine ⟨hxs.1.congr ?_ ?_, ?_⟩ <;> simp only [LinkedRing.unlink] <;> grind
    | cons c ys =>
      simp only [List.concat_eq_append, List.append_assoc, List.cons_append, List.nil_append, path_append, Path]
        at hxs hys ⊢
      refine ⟨hxs.1.congr ?_ ?_, ?_, hys.2.congr ?_ ?_⟩ <;> simp only [LinkedRing.unlink] <;> grind

/-- The loop that follows `step` from `a` to the head and stops at the first element that
passes the test. -/
def scan (step : α → α) (h : α) (p : α → Bool) : Nat → α → Option α
  | 0, _ => none
  | n + 1, a => if a = h then none else if p a then some a else scan step h p n (step a)

theorem scan_path (hpath : Path l a xs h) (hh : h ∉ xs) (hn : xs.length < n) :
    scan l.next h p n (l.next a) = xs.find? p := by
  induction xs generalizing a n with
  | nil =>
    obtain ⟨n, rfl⟩ : ∃ m, n = m + 1 := ⟨n - 1, by simp at hn; omega⟩
    simp [scan, hpath.1]
  | cons x xs ih =>
    obtain ⟨n, rfl⟩ : ∃ m, n = m + 1 := ⟨n - 1, by simp at hn; omega⟩
    obtain ⟨hlink, hrest⟩ := hpath
    rw [List.mem_cons, not_or] at hh
    rw [scan, hlink.1, if_neg (Ne.symm hh.1), List.find?_cons]
    cases hp : p x with
    | true => rfl
    | false =>
      simp only [Bool.false_eq_true, ↓reduceIte]
      exact ih hrest hh.2 (by simpa using hn)

/-- A scan by `next` searches the elements in their order. -/
theorem Ring.scan_next (r : Ring l h xs) (hn : xs.length < n) :
    scan l.next h p n (l.next h) = xs.find? p :=
  scan_path r.path (List.nodup_cons.mp r.nodup).1 hn

/-- A scan by `prev` searches them from the back. -/
theorem Ring.scan_prev (r : Ring l h xs) (hn : xs.length < n) :
    scan l.prev h p n (l.prev h) = xs.reverse.find? p :=
  r.swap.scan_next (by rwa [List.length_reverse])

end Xv6.LinkedRing
