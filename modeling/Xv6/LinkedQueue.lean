import Mathlib.Data.List.Induction
import Mathlib.Data.List.Nodup
import Mathlib.Logic.Function.Basic

/-!
# Singly linked queues

A queue is a head pointer and a link in every element. An element is appended by a walk over
pointers to pointers, from the head pointer to the first one that is null, and taken off at the
front. `Chain q xs` says that the links lead from the head through `xs` to null.
-/
namespace Xv6.LinkedQueue

open Function

variable {α : Type}

structure Queue (α : Type) where
  head : Option α
  next : α → Option α

/-- The pointer at `pp`: the head, or the link of an element. -/
def Queue.get (q : Queue α) : Option α → Option α
  | none => q.head
  | some a => q.next a

def Leads (next : α → Option α) : Option α → List α → Prop
  | p, [] => p = none
  | p, x :: xs => p = some x ∧ Leads next (next x) xs

def Chain (q : Queue α) (xs : List α) : Prop := Leads q.next q.head xs

variable {q : Queue α} {next next' : α → Option α} {p pp : Option α} {a b : α} {xs ys : List α} {n : Nat}

/-- Links of other elements do not matter. -/
theorem Leads.congr (h : Leads next p xs) (hnext : ∀ x ∈ xs, next' x = next x) : Leads next' p xs := by
  induction xs generalizing p with
  | nil => exact h
  | cons x xs ih =>
    refine ⟨h.1, ?_⟩
    rw [hnext x (by simp)]
    exact ih h.2 (fun y hy => hnext y (by simp [hy]))

theorem Chain.head_eq (h : Chain q xs) : q.head = xs.head? := by
  cases xs with
  | nil => exact h
  | cons x xs => exact h.1

theorem Chain.pop (h : Chain q (a :: xs)) : Chain { q with head := q.next a } xs := h.2

/-- The walk to the null pointer, with a bound on its steps. -/
def Queue.walk (q : Queue α) : Nat → Option α → Option (Option α)
  | 0, _ => none
  | n + 1, pp =>
    match q.get pp with
    | none => some pp
    | some x => q.walk n (some x)

/-- The walk ends at the link of the last element. -/
theorem walk_eq (q : Queue α) (n : Nat) (pp : Option α) (h : Leads q.next (q.get pp) xs) (hn : xs.length < n) :
    q.walk n pp = some ((xs.getLast?.map some).getD pp) := by
  induction xs generalizing pp n with
  | nil =>
    obtain ⟨m, rfl⟩ : ∃ m, n = m + 1 := ⟨n - 1, by omega⟩
    simp only [Leads] at h
    simp only [Queue.walk, h, List.getLast?_nil, Option.map_none, Option.getD_none]
  | cons x xs ih =>
    obtain ⟨m, rfl⟩ : ∃ m, n = m + 1 := ⟨n - 1, by omega⟩
    have hrest := ih m (some x) h.2 (by simpa using hn)
    rw [Queue.walk, h.1]
    simp only [hrest]
    cases xs with
    | nil => rfl
    | cons y ys => simp [List.getLast?_cons]

variable [DecidableEq α]

def Queue.set (q : Queue α) (pp : Option α) (v : Option α) : Queue α :=
  match pp with
  | none => { q with head := v }
  | some a => { q with next := update q.next a v }

/-- Append `b`: its link is cleared, then the null pointer at the end is set to it. -/
def Queue.append (q : Queue α) (n : Nat) (b : α) : Option (Queue α) :=
  let q := q.set (some b) none
  (q.walk n none).map (fun pp => q.set pp (some b))

/-- Setting the pointer at the end makes `b` the last element. -/
theorem Leads.snoc (h : Leads next p xs) (hne : xs ≠ []) (hnodup : xs.Nodup) (hb : next b = none) (hmem : b ∉ xs) :
    Leads (update next (xs.getLast hne) (some b)) p (xs ++ [b]) := by
  induction xs generalizing p with
  | nil => exact absurd rfl hne
  | cons x xs ih =>
    refine ⟨h.1, ?_⟩
    rw [List.nodup_cons] at hnodup
    rw [List.mem_cons, not_or] at hmem
    cases xs with
    | nil =>
      simp only [List.getLast_singleton, update_self]
      exact ⟨rfl, by rw [update_of_ne hmem.1]; exact hb⟩
    | cons y ys =>
      have hx : x ≠ (y :: ys).getLast (by simp) := by
        rintro rfl
        exact hnodup.1 (List.getLast_mem _)
      rw [List.getLast_cons (by simp), update_of_ne hx]
      exact ih h.2 (by simp) hnodup.2 hmem.2

theorem Chain.append (h : Chain q xs) (hnodup : xs.Nodup) (hb : b ∉ xs) (hn : xs.length < n) :
    ∃ q', q.append n b = some q' ∧ Chain q' (xs ++ [b]) := by
  have hclear : Leads (update q.next b none) q.head xs :=
    h.congr (fun x hx => update_of_ne (ne_of_mem_of_not_mem hx hb) _ _)
  have hwalk := walk_eq (q.set (some b) none) n none hclear hn
  rw [Queue.append, hwalk]
  refine ⟨_, rfl, ?_⟩
  cases xs using List.reverseRecOn with
  | nil => exact ⟨rfl, update_self _ _ _⟩
  | append_singleton front last =>
    have hsnoc := hclear.snoc (by simp) hnodup (update_self b none q.next) hb
    simpa [Chain, Queue.set] using hsnoc

end Xv6.LinkedQueue
