/-!
# Runs of interleaved steps

A system is a set of first states and a labelled step relation; the label says who acts and
how, so that any interleaving of any number of processes is a run. `Reach ok` are the states
of the runs all of whose steps meet a condition on the state before the step and the label.
An invariant is proved once for the first states and once for a step.
-/
namespace Xv6.Interleaving

structure System (σ α : Type) where
  init : σ → Prop
  step : σ → α → σ → Prop

variable {σ α : Type} {S : System σ α} {ok ok' : σ → α → Prop} {s s' : σ} {a : α}

inductive Reach (S : System σ α) (ok : σ → α → Prop) : σ → Prop
  | init {s : σ} (h : S.init s) : Reach S ok s
  | step {s s' : σ} {a : α} (h : Reach S ok s) (hok : ok s a) (hs : S.step s a s') : Reach S ok s'

def Reachable (S : System σ α) : σ → Prop := Reach S (fun _ _ => True)

theorem Reach.invariant {I : σ → Prop} (h : Reach S ok s) (hinit : ∀ s, S.init s → I s)
    (hstep : ∀ s a s', I s → ok s a → S.step s a s' → I s') : I s := by
  induction h with
  | init h => exact hinit _ h
  | step _ hok hs ih => exact hstep _ _ _ ih hok hs

theorem Reach.mono (h : Reach S ok s) (hle : ∀ s a, ok s a → ok' s a) : Reach S ok' s := by
  induction h with
  | init h => exact .init h
  | step _ hok hs ih => exact .step ih (hle _ _ hok) hs

theorem Reachable.invariant {I : σ → Prop} (h : Reachable S s) (hinit : ∀ s, S.init s → I s)
    (hstep : ∀ s a s', I s → S.step s a s' → I s') : I s :=
  Reach.invariant h hinit (fun s a s' hI _ hs => hstep s a s' hI hs)

theorem Reachable.next (h : Reachable S s) (hs : S.step s a s') : Reachable S s' := Reach.step h trivial hs

end Xv6.Interleaving
