/-!
# Failing and stopping

One program in two environments: where a resource runs out, the first run stops with the error `e`,
and the second goes on with a value that says so. A `Plain` part does not use the resource; one that
`Falls` into `P` runs alike in both, or the first has stopped and the second returned a value in
`P`.
-/
namespace Xv6.FailStop

variable {μ ε α β : Type} {u v : μ} {e : ε} {f : μ → Except ε α} {g : α → μ → Except ε β}
  {P : α → Prop} {Q : β → Prop}

def Plain (u v : μ) (e : ε) (f : μ → Except ε α) : Prop := f u = f v ∧ f u ≠ .error e

def Falls (u v : μ) (e : ε) (P : α → Prop) (f : μ → Except ε α) : Prop :=
  Plain u v e f ∨ (f u = .error e ∧ ∃ a, f v = .ok a ∧ P a)

theorem Plain.bind_ok (hf : Plain u v e f) (hg : ∀ a, f u = .ok a → Plain u v e (g a)) :
    Plain u v e (fun m => f m >>= fun a => g a m) := by
  obtain ⟨heq, hne⟩ := hf
  show (f u >>= fun a => g a u) = (f v >>= fun a => g a v) ∧ (f u >>= fun a => g a u) ≠ .error e
  rw [← heq]
  cases hres : f u with
  | error e' =>
    refine ⟨rfl, fun h => hne ?_⟩
    cases h
    exact hres
  | ok a => exact hg a hres

theorem Plain.bind (hf : Plain u v e f) (hg : ∀ a, Plain u v e (g a)) :
    Plain u v e (fun m => f m >>= fun a => g a m) :=
  hf.bind_ok fun a _ => hg a

theorem Plain.of_ok (hf : Plain u v e f) {a : α} (h : f u = .ok a) : f v = .ok a := hf.1.symm.trans h

theorem Falls.of_ok (hf : Falls u v e P f) {a : α} (h : f u = .ok a) : f v = .ok a := by
  obtain hf | ⟨hu, -⟩ := hf
  · exact hf.of_ok h
  · rw [h] at hu
    cases hu

/-- What the second run returns is known to be its result. -/
theorem Falls.imp {P' : α → Prop} (hf : Falls u v e P f) (h : ∀ a, f v = .ok a → P a → P' a) :
    Falls u v e P' f := by
  obtain hf | ⟨hu, a, hv, ha⟩ := hf
  · exact .inl hf
  · exact .inr ⟨hu, a, hv, h a hv ha⟩

/-- The rest of the program falls where the two runs agree, and returns from every value that `f`
falls into. -/
theorem Falls.bind (hf : Falls u v e P f) (hg : ∀ a, f u = .ok a → Falls u v e Q (g a))
    (hP : ∀ a, P a → ∃ b, g a v = .ok b ∧ Q b) : Falls u v e Q (fun m => f m >>= fun a => g a m) := by
  obtain hf | ⟨hu, a, hv, ha⟩ := hf
  · cases hres : f u with
    | error e' =>
      refine .inl (hf.bind_ok fun a ha => ?_)
      rw [hres] at ha
      cases ha
    | ok a =>
      obtain hg | ⟨hu, hv⟩ := hg a hres
      · refine .inl (hf.bind_ok fun a' ha => ?_)
        obtain rfl := Except.ok.inj (hres.symm.trans ha)
        exact hg
      · refine .inr ⟨?_, ?_⟩
        · show (f u >>= fun a => g a u) = .error e
          rw [hres]
          exact hu
        · show ∃ b, (f v >>= fun a => g a v) = .ok b ∧ Q b
          rw [← hf.1, hres]
          exact hv
  · refine .inr ⟨?_, ?_⟩
    · show (f u >>= fun a => g a u) = .error e
      rw [hu]
      rfl
    · show ∃ b, (f v >>= fun a => g a v) = .ok b ∧ Q b
      rw [hv]
      exact hP a ha

/-- The part before the resource is used. -/
theorem Plain.before (hf : Plain u v e f) (hg : ∀ a, f u = .ok a → Falls u v e Q (g a)) :
    Falls u v e Q (fun m => f m >>= fun a => g a m) :=
  Falls.bind (P := fun _ => False) (.inl hf) hg fun _ h => h.elim

/-- Where the first run stops, the second has returned such a value. -/
theorem Falls.returns (hf : Falls u v e P f) (h : f u = .error e) : ∃ a, f v = .ok a ∧ P a := by
  obtain ⟨-, hne⟩ | ⟨-, hv⟩ := hf
  · exact absurd h hne
  · exact hv

end Xv6.FailStop
