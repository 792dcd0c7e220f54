/-!
# Computations with a trace

A computation in `Except` that also lists the events it causes, in their order; when it fails, the
events up to there remain. `Runs` is the rule for what holds of every event, relative to an
assumption about the events themselves; `Hits` is the one for an event that occurs.
-/
namespace Xv6.Trace

structure Traced (ε ω α : Type) where
  events : List ω
  result : Except ε α

variable {ε ω α β : Type} {x : Traced ε ω α} {f : α → Traced ε ω β} {a : α} {A V B : ω → Prop}
  {P : α → Prop} {Q : β → Prop}

def Traced.bind (x : Traced ε ω α) (f : α → Traced ε ω β) : Traced ε ω β :=
  match x.result with
  | .ok a => ⟨x.events ++ (f a).events, (f a).result⟩
  | .error e => ⟨x.events, .error e⟩

instance : Monad (Traced ε ω) where
  pure a := ⟨[], .ok a⟩
  bind := Traced.bind

def quiet (x : Except ε α) : Traced ε ω α := ⟨[], x⟩

def emit (e : ω) : Traced ε ω Unit := ⟨[e], .ok ()⟩

@[simp] theorem result_pure (a : α) : (pure a : Traced ε ω α).result = .ok a := rfl

@[simp] theorem result_quiet (y : Except ε α) : (quiet y : Traced ε ω α).result = y := rfl

@[simp] theorem result_emit (e : ω) : (emit e : Traced ε ω Unit).result = .ok () := rfl

@[simp] theorem events_pure (a : α) : (pure a : Traced ε ω α).events = [] := rfl

@[simp] theorem events_quiet (y : Except ε α) : (quiet y : Traced ε ω α).events = [] := rfl

@[simp] theorem events_emit (e : ω) : (emit e : Traced ε ω Unit).events = [e] := rfl

@[simp] theorem result_bind (x : Traced ε ω α) (f : α → Traced ε ω β) :
    (x >>= f).result = x.result >>= fun a => (f a).result := by
  show (Traced.bind x f).result = _
  rw [Traced.bind]
  cases x.result <;> rfl

theorem bind_of_ok (h : x.result = .ok a) : (x >>= f).events = x.events ++ (f a).events := by
  show (Traced.bind x f).events = _
  rw [Traced.bind, h]

theorem bind_of_error {e : ε} (h : x.result = .error e) : (x >>= f).events = x.events := by
  show (Traced.bind x f).events = _
  rw [Traced.bind, h]

theorem bind_return (x : Traced ε ω α) : x.bind (fun a => pure a) = x := by
  obtain ⟨events, result⟩ := x
  cases result <;> simp [Traced.bind]

theorem bind_bind {γ : Type} (x : Traced ε ω α) (f : α → Traced ε ω β) (g : β → Traced ε ω γ) :
    (x.bind f).bind g = x.bind fun a => (f a).bind g := by
  obtain ⟨events, result⟩ := x
  cases result with
  | error e => rfl
  | ok a =>
    show Traced.bind ⟨_, (f a).result⟩ g = ⟨events ++ (Traced.bind (f a) g).events, (Traced.bind (f a) g).result⟩
    rw [Traced.bind, Traced.bind]
    cases (f a).result <;> simp

instance : LawfulMonad (Traced ε ω) := LawfulMonad.mk' _ bind_return (fun _ _ => rfl) bind_bind

/-- If its events satisfy `A`, they satisfy `V`, and a result satisfies `Q`. -/
def Runs (x : Traced ε ω α) (A V : ω → Prop) (Q : α → Prop) : Prop :=
  (∀ e ∈ x.events, A e) → (∀ e ∈ x.events, V e) ∧ ∀ a, x.result = .ok a → Q a

theorem Runs.bind (hx : Runs x A V P) (hf : ∀ a, P a → Runs (f a) A V Q) : Runs (x >>= f) A V Q := by
  intro hA
  cases hres : x.result with
  | error e =>
    rw [bind_of_error hres] at hA ⊢
    refine ⟨(hx hA).1, fun b hb => ?_⟩
    rw [result_bind, hres] at hb
    cases hb
  | ok a =>
    rw [bind_of_ok hres] at hA ⊢
    obtain ⟨hV, hP⟩ := hx fun e he => hA e (List.mem_append_left _ he)
    obtain ⟨hV', hQ⟩ := hf a (hP a hres) fun e he => hA e (List.mem_append_right _ he)
    refine ⟨fun e he => ?_, fun b hb => ?_⟩
    · rcases List.mem_append.mp he with he | he
      · exact hV e he
      · exact hV' e he
    · rw [result_bind, hres] at hb
      exact hQ b hb

theorem Runs.imp {P' : α → Prop} (hx : Runs x A V P) (h : ∀ a, P a → P' a) : Runs x A V P' :=
  fun hA => ⟨(hx hA).1, fun a ha => h a ((hx hA).2 a ha)⟩

/-- The result that a rule speaks of is that of the computation. -/
theorem Runs.result (hx : Runs x A V P) : Runs x A V (fun a => x.result = .ok a ∧ P a) :=
  fun hA => ⟨(hx hA).1, fun a ha => ⟨ha, (hx hA).2 a ha⟩⟩

theorem runs_pure (h : P a) : Runs (pure a : Traced ε ω α) A V P := by
  refine fun _ => ⟨by simp, fun b hb => ?_⟩
  cases hb
  exact h

theorem runs_quiet (y : Except ε α) : Runs (quiet y : Traced ε ω α) A V (fun a => y = .ok a) :=
  fun _ => ⟨by simp, fun _ ha => ha⟩

theorem runs_emit {e : ω} {R : Unit → Prop} (h : A e → V e ∧ R ()) : Runs (emit e : Traced ε ω Unit) A V R := by
  intro hA
  obtain ⟨hV, hR⟩ := h (hA e (by simp))
  refine ⟨?_, fun _ _ => hR⟩
  intro e' he
  obtain rfl : e' = e := by simpa using he
  exact hV

def Hits (x : Traced ε ω α) (B : ω → Prop) : Prop := ∃ e ∈ x.events, B e

theorem Hits.left (h : Hits x B) : Hits (x >>= f) B := by
  obtain ⟨e, he, hB⟩ := h
  cases hres : x.result with
  | error e' => exact ⟨e, by rwa [bind_of_error hres], hB⟩
  | ok a => exact ⟨e, by rw [bind_of_ok hres]; exact List.mem_append_left _ he, hB⟩

theorem Hits.right (hres : x.result = .ok a) (h : Hits (f a) B) : Hits (x >>= f) B := by
  obtain ⟨e, he, hB⟩ := h
  exact ⟨e, by rw [bind_of_ok hres]; exact List.mem_append_right _ he, hB⟩

theorem hits_emit {e : ω} (h : B e) : Hits (emit e : Traced ε ω Unit) B := ⟨e, by simp, h⟩

end Xv6.Trace
