/-!
# Outcomes of fallible computations

`Ends x E Q` says how a computation in `Except` may end: with a value in `Q`, or with an
error in `E`. The rules are those of a Hoare logic with an exceptional postcondition.
-/
namespace Xv6.Outcome

variable {ε α β : Type}

def Ends (x : Except ε α) (E : ε → Prop) (Q : α → Prop) : Prop :=
  match x with
  | .ok a => Q a
  | .error e => E e

@[simp] theorem ends_ok {a : α} {E : ε → Prop} {Q : α → Prop} : Ends (.ok a) E Q ↔ Q a := Iff.rfl

@[simp] theorem ends_pure {a : α} {E : ε → Prop} {Q : α → Prop} :
    Ends (pure a : Except ε α) E Q ↔ Q a := Iff.rfl

@[simp] theorem ends_error {e : ε} {E : ε → Prop} {Q : α → Prop} :
    Ends (.error e : Except ε α) E Q ↔ E e := Iff.rfl

theorem Ends.bind {x : Except ε α} {f : α → Except ε β} {E : ε → Prop} {P : α → Prop} {Q : β → Prop}
    (hx : Ends x E P) (hf : ∀ a, P a → Ends (f a) E Q) : Ends (x >>= f) E Q := by
  cases x with
  | error e => exact hx
  | ok a => exact hf a hx

theorem Ends.mono {x : Except ε α} {E E' : ε → Prop} {Q Q' : α → Prop} (hx : Ends x E Q)
    (hE : ∀ e, E e → E' e) (hQ : ∀ a, Q a → Q' a) : Ends x E' Q' := by
  cases x with
  | error e => exact hE e hx
  | ok a => exact hQ a hx

theorem Ends.seq {x : Except ε α} {f : α → Except ε β} {E E' : ε → Prop} {P : α → Prop} {Q : β → Prop}
    (hx : Ends x E P) (hE : ∀ e, E e → E' e) (hf : ∀ a, P a → Ends (f a) E' Q) :
    Ends (x >>= f) E' Q :=
  (hx.mono hE fun _ ha => ha).bind hf

theorem Ends.imp {x : Except ε α} {E : ε → Prop} {Q Q' : α → Prop} (hx : Ends x E Q)
    (hQ : ∀ a, Q a → Q' a) : Ends x E Q' :=
  hx.mono (fun _ he => he) hQ

theorem Ends.of_ok {x : Except ε α} {E : ε → Prop} {Q : α → Prop} {a : α} (hx : Ends x E Q)
    (ha : x = .ok a) : Q a := by
  subst ha
  exact hx

theorem Ends.of_error {x : Except ε α} {E : ε → Prop} {Q : α → Prop} {e : ε} (hx : Ends x E Q)
    (he : x = .error e) : E e := by
  subst he
  exact hx

/-- A computation without a possible error returns. -/
theorem Ends.returns {x : Except ε α} {E : ε → Prop} {Q : α → Prop} (hx : Ends x E Q)
    (hE : ∀ e, ¬ E e) : ∃ a, x = .ok a ∧ Q a := by
  cases x with
  | error e => exact absurd hx (hE e)
  | ok a => exact ⟨a, rfl, hx⟩

theorem Ends.of_returns {x : Except ε α} {E : ε → Prop} {Q : α → Prop} (h : ∃ a, x = .ok a ∧ Q a) :
    Ends x E Q := by
  obtain ⟨a, rfl, ha⟩ := h
  exact ha

end Xv6.Outcome
