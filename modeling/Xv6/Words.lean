import Mathlib.Data.List.Basic
import Mathlib.Tactic.Linarith

/-!
# Machine words and the ways a kernel path can stop

Addresses, page-table entries and registers are 64-bit words. A kernel function that can stop the
machine returns in `Except Trap`: a `panic` with the source's own message, an access through the
null pointer, a missing page or an index past `frameinfo`, a signed overflow, which C leaves
undefined, or, on a machine made to stop there, an allocation from an empty free list.
-/
namespace Xv6.Words

abbrev Word := BitVec 64
abbrev Byte := BitVec 8

inductive Trap where
  | panic (msg : String)
  | nullDeref
  | pageFault (va : Word)
  | frameinfoIndex (i : Nat)
  | outOfMemory
  | overflow
  deriving DecidableEq, Repr

/-- A bind that succeeds is a first part that succeeds and a rest that does. -/
theorem bind_eq_ok {α β ε : Type} {x : Except ε α} {f : α → Except ε β} {b : β} :
    (x >>= f) = .ok b ↔ ∃ a, x = .ok a ∧ f a = .ok b := by
  cases x with
  | error e | ok a => simp [bind, Except.bind]

theorem bind_eq_error {α β ε : Type} {x : Except ε α} {f : α → Except ε β} {e : ε} :
    (x >>= f) = .error e ↔ x = .error e ∨ ∃ a, x = .ok a ∧ f a = .error e := by
  cases x with
  | error e' | ok a => simp [bind, Except.bind]

@[simp] theorem ok_bind {α β ε : Type} (a : α) (f : α → Except ε β) :
    ((Except.ok a : Except ε α) >>= f) = f a := rfl

@[simp] theorem error_bind {α β ε : Type} (e : ε) (f : α → Except ε β) :
    ((Except.error e : Except ε α) >>= f) = .error e := rfl

end Xv6.Words
