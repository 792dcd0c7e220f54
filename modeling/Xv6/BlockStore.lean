import Mathlib.Data.List.Basic

/-!
# Sequences of atomic block writes

A store is a function from addresses to contents, and a write replaces the contents
of one address. A crash keeps a prefix of a sequence of writes, so what matters is
how a prefix, the rest, and a repeated replay of one sequence compose.
-/
namespace Xv6.BlockStore

variable {α β : Type} [DecidableEq α]

def put (d : α → β) (a : α) (v : β) : α → β := fun x => if x = a then v else d x

@[simp] theorem put_same (d : α → β) (a : α) (v : β) : put d a v a = v := by simp [put]

@[simp] theorem put_other (d : α → β) {a x : α} (v : β) (h : x ≠ a) : put d a v x = d x := by
  simp [put, h]

def writes (d : α → β) : List (α × β) → α → β
  | [] => d
  | w :: ws => writes (put d w.1 w.2) ws

@[simp] theorem writes_nil (d : α → β) : writes d [] = d := rfl

@[simp] theorem writes_cons (d : α → β) (w : α × β) (ws : List (α × β)) :
    writes d (w :: ws) = writes (put d w.1 w.2) ws := rfl

theorem writes_append (d : α → β) (ws vs : List (α × β)) :
    writes d (ws ++ vs) = writes (writes d ws) vs := by
  induction ws generalizing d with
  | nil => rfl
  | cons w ws ih => exact ih (put d w.1 w.2)

theorem writes_frame {d : α → β} {ws : List (α × β)} {x : α} (h : x ∉ ws.map Prod.fst) :
    writes d ws x = d x := by
  induction ws generalizing d with
  | nil => rfl
  | cons w ws ih =>
    simp only [List.map_cons, List.mem_cons, not_or] at h
    rw [writes_cons, ih h.2, put_other d w.2 h.1]

/-- What a written address holds does not depend on the store written over. -/
theorem writes_congr {d e : α → β} {ws : List (α × β)} {x : α}
    (h : x ∉ ws.map Prod.fst → d x = e x) : writes d ws x = writes e ws x := by
  induction ws generalizing d e with
  | nil => exact h (by simp)
  | cons w ws ih =>
    rw [writes_cons, writes_cons]
    apply ih
    intro hx
    by_cases hw : x = w.1
    · subst hw; simp
    · rw [put_other d w.2 hw, put_other e w.2 hw]
      exact h (by simp [hw, hx])

/-- Replaying a sequence over a store that already has part of it gives the same store. -/
theorem writes_replay (d : α → β) (ws vs : List (α × β)) (hsub : vs.map Prod.fst ⊆ ws.map Prod.fst) :
    writes (writes d vs) ws = writes d ws := by
  funext x
  apply writes_congr
  intro hx
  exact writes_frame (fun h => hx (hsub h))

/-- Writing `f a` at every address of a list leaves `f` on the list and the old store off it. -/
theorem writes_map {d : α → β} {as : List α} {f : α → β} (x : α) :
    writes d (as.map (fun a => (a, f a))) x = if x ∈ as then f x else d x := by
  induction as generalizing d with
  | nil => simp
  | cons a as ih =>
    rw [List.map_cons, writes_cons, ih]
    by_cases hx : x ∈ as
    · simp [hx]
    · by_cases ha : x = a
      · subst ha; simp
      · simp [hx, ha]

end Xv6.BlockStore
