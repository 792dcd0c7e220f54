import Mathlib.Data.List.Nodup

/-!
# Circular lists

A circular list has one link in every element; the last element leads to the first. `Path next a xs
b` says that the links lead from `a` through `xs` to `b`. A search that goes round the circle finds
the one element that it looks for, wherever it starts.
-/
namespace Xv6.CircularList

variable {α : Type} {next next' : α → α} {stop : α → Prop} [DecidablePred stop] {a b c p : α}
  {xs ys L : List α} {k n : Nat}

def Path (next : α → α) : α → List α → α → Prop
  | a, [], b => next a = b
  | a, x :: xs, b => next a = x ∧ Path next x xs b

theorem path_append : Path next a (xs ++ p :: ys) b ↔ Path next a xs p ∧ Path next p ys b := by
  induction xs generalizing a with
  | nil => exact Iff.rfl
  | cons x xs ih =>
    rw [List.cons_append, Path, Path, ih]
    exact and_assoc.symm

/-- A path depends on the links of the elements before its end. -/
theorem Path.congr (h : Path next a xs b) (ha : next' c = next a) (hsame : ∀ x ∈ xs, next' x = next x) :
    Path next' c xs b := by
  induction xs generalizing a c with
  | nil => exact ha.trans h
  | cons x xs ih =>
    rw [List.forall_mem_cons] at hsame
    exact ⟨ha.trans h.1, ih h.2 hsame.1 hsame.2⟩

/-- The links lead through the elements of the list and from the last one back to the first. -/
def Circle (next : α → α) : List α → Prop
  | [] => False
  | a :: xs => Path next a xs a

theorem circle_rotate : Circle next (xs ++ a :: ys) → Path next a (ys ++ xs) a := by
  cases xs with
  | nil =>
    intro h
    rwa [List.append_nil]
  | cons x xs =>
    intro h
    exact path_append.mpr (path_append.mp h).symm

/-- The circle from any of its elements on. -/
theorem Circle.from_mem (h : Circle next L) (ha : a ∈ L) : ∃ xs, Path next a xs a ∧ (a :: xs).Perm L := by
  obtain ⟨us, vs, rfl⟩ := List.append_of_mem ha
  exact ⟨vs ++ us, circle_rotate h, (List.Perm.cons a List.perm_append_comm).trans List.perm_middle.symm⟩

theorem Circle.congr (h : Circle next L) (hsame : ∀ x ∈ L, next' x = next x) : Circle next' L := by
  cases L with
  | nil => exact h
  | cons x xs =>
    rw [List.forall_mem_cons] at hsame
    exact Path.congr h hsame.1 hsame.2

theorem Circle.next_eq (h : Circle next (xs ++ a :: b :: ys)) : next a = b := (circle_rotate h).1

theorem Circle.next_last (h : Circle next (xs ++ [a])) : (xs ++ [a]).head? = some (next a) := by
  cases xs with
  | nil => exact congrArg some (Eq.symm h)
  | cons x xs => exact congrArg some (Eq.symm (path_append.mp h).2)

theorem Circle.insert (h : Circle next (xs ++ p :: ys)) (hp : next' p = b) (hb : next' b = next p)
    (hxs : ∀ x ∈ xs, next' x = next x) (hys : ∀ y ∈ ys, next' y = next y) : Circle next' (xs ++ p :: b :: ys) := by
  cases xs with
  | nil => exact ⟨hp, Path.congr h hb hys⟩
  | cons x xs =>
    rw [List.forall_mem_cons] at hxs
    obtain ⟨hto, hfrom⟩ := path_append.mp h
    exact path_append.mpr ⟨hto.congr hxs.1 hxs.2, hp, hfrom.congr hb hys⟩

theorem Circle.remove (h : Circle next (xs ++ p :: b :: ys)) (hp : next' p = next b)
    (hxs : ∀ x ∈ xs, next' x = next x) (hys : ∀ y ∈ ys, next' y = next y) : Circle next' (xs ++ p :: ys) := by
  cases xs with
  | nil => exact Path.congr h.2 hp hys
  | cons x xs =>
    rw [List.forall_mem_cons] at hxs
    obtain ⟨hto, hfrom⟩ := path_append.mp h
    exact path_append.mpr ⟨hto.congr hxs.1 hxs.2, hfrom.2.congr hp hys⟩

/-- Follow the links from `a` until an element stops the search, for at most `k` elements. -/
def seek (next : α → α) (stop : α → Prop) [DecidablePred stop] : Nat → α → Option α
  | 0, _ => none
  | k + 1, a => if stop a then some a else seek next stop k (next a)

theorem seek_mono (h : seek next stop k a = some p) (hk : k ≤ n) : seek next stop n a = some p := by
  induction k generalizing a n with
  | zero => cases h
  | succ k ih =>
    cases n with
    | zero => omega
    | succ n =>
      rw [seek] at h ⊢
      split at h
      · rw [if_pos ‹_›]
        exact h
      · rw [if_neg ‹_›]
        exact ih h (Nat.le_of_succ_le_succ hk)

theorem seek_path (h : Path next a xs p) (hno : ∀ x ∈ a :: xs, ¬ stop x) (hp : stop p) :
    seek next stop (xs.length + 2) a = some p := by
  induction xs generalizing a with
  | nil =>
    rw [List.forall_mem_singleton] at hno
    rw [List.length_nil, seek, if_neg hno, seek, show next a = p from h, if_pos hp]
  | cons x xs ih =>
    rw [List.forall_mem_cons] at hno
    rw [List.length_cons, seek, if_neg hno.1, h.1]
    exact ih h.2 hno.2

/-- Where only one element stops it, a search finds it after at most one round. -/
theorem Circle.seek (h : Circle next L) (ha : a ∈ L) (hp : p ∈ L) (hstop : stop p) (hone : ∀ x ∈ L, stop x → x = p)
    (hn : L.length ≤ n) : seek next stop n a = some p := by
  obtain ⟨xs, hpath, hperm⟩ := h.from_mem ha
  have hlen := hperm.length_eq
  rw [List.length_cons] at hlen
  rcases List.mem_cons.mp (hperm.mem_iff.mpr hp) with rfl | hmem
  · refine seek_mono (k := 1) ?_ (by omega)
    rw [CircularList.seek, if_pos hstop]
  by_cases hself : stop a
  · obtain rfl := hone a ha hself
    refine seek_mono (k := 1) ?_ (by omega)
    rw [CircularList.seek, if_pos hself]
  obtain ⟨us, vs, rfl, hnot⟩ := List.eq_append_cons_of_mem hmem
  rw [List.length_append, List.length_cons] at hlen
  refine seek_mono (seek_path (path_append.mp hpath).1 ?_ hstop) (by omega)
  rw [List.forall_mem_cons]
  refine ⟨hself, fun x hx hs => hnot ?_⟩
  rwa [← hone x (hperm.mem_iff.mp (by simp [hx])) hs]

end Xv6.CircularList
