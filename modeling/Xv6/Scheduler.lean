import Xv6.ProcTable

/-!
# Who runs what

The invariant of the process table that the scheduler and `swtch` keep. A processor holds
`ptable.lock` exactly where its code says so, and a thread that no processor executes stands at a
place where it can be resumed. Most steps are those of one thread: another process that such a step
changes is on no processor and stays off.
-/
namespace Xv6.Scheduler

open ProcTable Function

variable {pc pc' pc₀ : Pc} {i : Nat} {x y : Proc} {P : Nat → Bool} {chan : Chan}

variable {n c p q : Nat} {s s' : State}

@[simp] theorem setProc_procs (x : Proc) : (s.setProc p x).procs q = if q = p then x else s.procs q := by
  simp [State.setProc, update_apply]

@[simp] theorem setPc_procs (pc : Pc) :
    (s.setPc p pc).procs q = if q = p then { s.procs p with pc := pc } else s.procs q := by
  simp [State.setPc]

@[simp] theorem setCpu_cpus {c' : Nat} (x : Cpu) : (s.setCpu c x).cpus c' = if c' = c then x else s.cpus c' := by
  simp [State.setCpu, update_apply]

@[simp] theorem setProc_cpus (x : Proc) : (s.setProc p x).cpus = s.cpus := rfl
@[simp] theorem setProc_ptable (x : Proc) : (s.setProc p x).ptable = s.ptable := rfl
@[simp] theorem setPc_cpus (pc : Pc) : (s.setPc p pc).cpus = s.cpus := rfl
@[simp] theorem setPc_ptable (pc : Pc) : (s.setPc p pc).ptable = s.ptable := rfl
@[simp] theorem setCpu_procs (x : Cpu) : (s.setCpu c x).procs = s.procs := rfl
@[simp] theorem setCpu_ptable (x : Cpu) : (s.setCpu c x).ptable = s.ptable := rfl
@[simp] theorem setSpin_procs (lk : Spin) (o : Option Nat) : (s.setSpin lk o).procs = s.procs := rfl
@[simp] theorem setSpin_cpus (lk : Spin) (o : Option Nat) : (s.setSpin lk o).cpus = s.cpus := rfl
@[simp] theorem setSpin_ptable (lk : Spin) (o : Option Nat) : (s.setSpin lk o).ptable = s.ptable := rfl
@[simp] theorem note_procs (e : Event) : (s.note e).procs = s.procs := rfl
@[simp] theorem note_cpus (e : Event) : (s.note e).cpus = s.cpus := rfl
@[simp] theorem note_ptable (e : Event) : (s.note e).ptable = s.ptable := rfl

def On.proc : On → Option Nat
  | .idle | .scan _ => none
  | .picked i | .enter i | .thread i | .back i => some i

def Holding (s : State) (c : Nat) : Prop :=
  match (s.cpus c).on with
  | .idle => False
  | .thread p => (s.procs p).pc.holds = true
  | _ => True

/-- The places of a thread that no processor executes. -/
def parks : Pc → Bool
  | .dead | .yieldRel | .forkret | .napWoken _ => true
  | _ => false

/-- The thread is on no processor, and can be resumed if it is to run again. -/
structure Parked (x : Proc) : Prop where
  idle : x.state ≠ .running
  place : parks x.pc = true
  ready : x.state = .runnable ∨ x.state = .sleeping → x.saved = true ∧ x.pc ≠ .dead

structure Base (s : State) : Prop where
  lock : ∀ c, s.ptable = some c ↔ Holding s c
  var : ∀ c, (s.cpus c).proc = On.proc (s.cpus c).on
  thread : ∀ c p, (s.cpus c).on = .thread p → (s.procs p).state = (s.procs p).pc.ownState
  one : ∀ c c' p, (s.cpus c).on = .thread p → (s.cpus c').on = .thread p → c = c'
  picked : ∀ c p, (s.cpus c).on = .picked p → (s.procs p).state = .runnable
  enter : ∀ c p, (s.cpus c).on = .enter p →
    ((s.procs p).state = .running ∧ parks (s.procs p).pc = true ∧ (s.procs p).pc ≠ .dead) ∧
      ∀ c', (s.cpus c').on ≠ .thread p
  off : ∀ p, (∀ c, (s.cpus c).on ≠ .thread p) → (∀ c, (s.cpus c).on ≠ .enter p) → Parked (s.procs p)

def Free (s : State) (p : Nat) : Prop :=
  ∀ c, (s.cpus c).on ≠ .thread p ∧ (s.cpus c).on ≠ .enter p ∧ (s.cpus c).on ≠ .picked p

structure Same (x y : Proc) : Prop where
  state : y.state = x.state
  pc : y.pc = x.pc
  saved : y.saved = x.saved

theorem Same.refl (x : Proc) : Same x x := ⟨rfl, rfl, rfl⟩

theorem Parked.same (h : Parked x) (hs : Same x y) : Parked y := by
  obtain ⟨h₁, h₂, h₃⟩ := h
  obtain ⟨e₁, e₂, e₃⟩ := hs
  exact ⟨by rwa [e₁], by rwa [e₂], by rwa [e₁, e₂, e₃]⟩

theorem ownState_cases (pc : Pc) : pc.ownState = .running ∨ pc.ownState = .runnable ∨ pc.ownState = .sleeping ∨
    pc.ownState = .zombie := by
  cases pc <;> simp [Pc.ownState]

theorem ownState_holds (h : pc.ownState ≠ .running) : pc.holds = true := by
  cases pc <;> first | rfl | exact absurd rfl h

namespace Base

section

variable (h : Base s)
include h

theorem holder (hon : (s.cpus c).on = .thread p) : s.ptable = some c ↔ (s.procs p).pc.holds = true := by
  rw [h.lock, Holding, hon]

/-- A processor that executes a thread with another state than `RUNNING` holds the lock. -/
theorem holder_of_state (hon : (s.cpus c).on = .thread p) (hst : (s.procs p).state ≠ .running) :
    s.ptable = some c := by
  rw [h.thread c p hon] at hst
  exact (h.holder hon).mpr (ownState_holds hst)

theorem holder_enter (hon : (s.cpus c).on = .enter p) : s.ptable = some c :=
  (h.lock c).mpr (by simp [Holding, hon])

theorem holder_picked (hon : (s.cpus c).on = .picked p) : s.ptable = some c :=
  (h.lock c).mpr (by simp [Holding, hon])

/-- A process with one of the two states that no thread ever has. -/
theorem free_of_unborn (hst : (s.procs p).state = .unused ∨ (s.procs p).state = .embryo) : Free s p := by
  intro c
  refine ⟨fun hon => ?_, fun hon => ?_, fun hon => ?_⟩
  · have hown := h.thread c p hon
    rcases ownState_cases (s.procs p).pc with hpc | hpc | hpc | hpc <;> simp_all
  · have := (h.enter c p hon).1.1
    simp_all
  · have := h.picked c p hon
    simp_all

/-- While another thread's processor holds the lock, or nobody does, a process that sleeps or has
exited is off. -/
theorem free_of_lock (hlock : ∀ c, s.ptable = some c → (s.cpus c).on ≠ .thread p)
    (hst : (s.procs p).state = .sleeping ∨ (s.procs p).state = .zombie) : Free s p := by
  intro c
  refine ⟨fun hon => ?_, fun hon => ?_, fun hon => ?_⟩
  · exact hlock c (h.holder_of_state hon (by rcases hst with h' | h' <;> simp [h'])) hon
  · have := (h.enter c p hon).1.1
    simp_all
  · have := h.picked c p hon
    simp_all

theorem parked_of_free (hf : Free s p) : Parked (s.procs p) :=
  h.off p (fun c => (hf c).1) (fun c => (hf c).2.1)

section

variable (hon : (s.cpus c).on = .thread p) (hcpus : s'.cpus = s.cpus)
  (hown : (s'.procs p).state = (s'.procs p).pc.ownState)
  (hothers : ∀ q, q ≠ p → Same (s.procs q) (s'.procs q) ∨ Free s q ∧ Parked (s'.procs q))
include hon hcpus hown hothers

/-- A step of the thread `p` on processor `c`. -/
theorem act
    (hself : s'.ptable = some c ↔ (s'.procs p).pc.holds = true)
    (helse : ∀ c', c' ≠ c → (s'.ptable = some c' ↔ s.ptable = some c')) : Base s' := by
  have hthread : ∀ c' q, q ≠ p → (s.cpus c').on = .thread q → Same (s.procs q) (s'.procs q) := by
    intro c' q hq hon'
    exact (hothers q hq).resolve_right fun hf => (hf.1 c').1 hon'
  refine ⟨fun c' => ?_, fun c' => ?_, fun c' q hon' => ?_, fun c' c'' q h' h'' => ?_, fun c' q hon' => ?_,
    fun c' q hon' => ?_, fun q ht he => ?_⟩
  · by_cases hc : c' = c
    · subst hc
      rw [hself, Holding, hcpus, hon]
    · rw [helse c' hc, h.lock, Holding, Holding, hcpus]
      cases hon' : (s.cpus c').on with
      | thread q =>
        have hq : q ≠ p := fun e => hc (h.one c' c p (e ▸ hon') hon)
        simp only [(hthread c' q hq hon').pc]
      | _ => rfl
  · rw [hcpus]
    exact h.var c'
  · rw [hcpus] at hon'
    by_cases hq : q = p
    · subst hq
      exact hown
    · have hsame := hthread c' q hq hon'
      rw [hsame.state, hsame.pc]
      exact h.thread c' q hon'
  · rw [hcpus] at h' h''
    exact h.one c' c'' q h' h''
  · rw [hcpus] at hon'
    by_cases hq : q = p
    · -- the thread would be on this processor and picked by another one, both with the lock
      subst hq
      have hst := h.picked c' q hon'
      have hc := (h.holder_picked hon').symm.trans (h.holder_of_state hon (by simp [hst]))
      obtain rfl := Option.some.inj hc
      rw [hon] at hon'
      cases hon'
    · rcases hothers q hq with hs | hf
      · rw [hs.state]
        exact h.picked c' q hon'
      · exact absurd hon' (hf.1 c').2.2
  · rw [hcpus] at hon' ⊢
    have hq : q ≠ p := fun e => (h.enter c' q hon').2 c (e ▸ hon)
    rcases hothers q hq with hs | hf
    · rw [hs.state, hs.pc]
      exact h.enter c' q hon'
    · exact absurd hon' (hf.1 c').2.1
  · rw [hcpus] at ht he
    have hq : q ≠ p := fun e => ht c (e ▸ hon)
    rcases hothers q hq with hs | hf
    · exact (h.off q ht he).same hs
    · exact hf.2

/-- A step that leaves the table to the thread's own place. -/
theorem move
    (hpt : s'.ptable = s.ptable) (hholds : (s'.procs p).pc.holds = (s.procs p).pc.holds) : Base s' :=
  h.act hon hcpus hown hothers (by rw [hpt, hholds, h.holder hon]) (fun _ _ => by rw [hpt])

end

theorem running (hon : (s.cpus c).on = .thread p) (hpc : (s.procs p).pc.ownState = .running) :
    (s.procs p).state = .running := (h.thread c p hon).trans hpc

end

end Base

/-- The scheduler goes on to another slot, or stops. -/
theorem Base.turn {x : Cpu} (h : Base s) (hold : ∀ q, (s.cpus c).on ≠ .thread q ∧ (s.cpus c).on ≠ .enter q)
    (hcpus : ∀ c', s'.cpus c' = if c' = c then x else s.cpus c') (hprocs : s'.procs = s.procs)
    (hvar : x.proc = On.proc x.on) (hnew : ∀ q, x.on ≠ .thread q ∧ x.on ≠ .enter q)
    (hpick : ∀ q, x.on = .picked q → (s.procs q).state = .runnable) (hself : s'.ptable = some c ↔ x.on ≠ .idle)
    (helse : ∀ c', c' ≠ c → (s'.ptable = some c' ↔ s.ptable = some c')) : Base s' := by
  have hthread : ∀ c' q, (s'.cpus c').on = .thread q ↔ (s.cpus c').on = .thread q := by
    intro c' q
    rw [hcpus]
    by_cases hc : c' = c
    · subst hc
      simp [hold q, hnew q]
    · rw [if_neg hc]
  have henter : ∀ c' q, (s'.cpus c').on = .enter q ↔ (s.cpus c').on = .enter q := by
    intro c' q
    rw [hcpus]
    by_cases hc : c' = c
    · subst hc
      simp [hold q, hnew q]
    · rw [if_neg hc]
  refine ⟨fun c' => ?_, fun c' => ?_, fun c' q hon => ?_, fun c' c'' q h' h'' => ?_, fun c' q hon => ?_,
    fun c' q hon => ?_, fun q ht he => ?_⟩
  · by_cases hc : c' = c
    · subst hc
      rw [hself, Holding, hcpus, if_pos rfl]
      cases hx : x.on with
      | thread q => exact absurd hx (hnew q).1
      | _ => simp
    · rw [helse c' hc, h.lock, Holding, Holding, hcpus, if_neg hc, hprocs]
  · rw [hcpus]
    split
    · exact hvar
    · exact h.var c'
  · rw [hprocs]
    exact h.thread c' q ((hthread c' q).mp hon)
  · exact h.one c' c'' q ((hthread c' q).mp h') ((hthread c'' q).mp h'')
  · rw [hprocs]
    rw [hcpus] at hon
    split at hon
    · exact hpick q hon
    · exact h.picked c' q hon
  · rw [hprocs]
    have := h.enter c' q ((henter c' q).mp hon)
    exact ⟨this.1, fun c'' hon' => this.2 c'' ((hthread c'' q).mp hon')⟩
  · rw [hprocs]
    exact h.off q (fun c' hon => ht c' ((hthread c' q).mpr hon)) (fun c' hon => he c' ((henter c' q).mpr hon))

/-- With the lock held, the processor goes from one of the scheduler's places for a process to the
next. -/
theorem Base.switch {o : On} (h : Base s) (hpt : s.ptable = some c)
    (hon : On.proc (s.cpus c).on = some i) (hoff : ∀ c', c' ≠ c → (s.cpus c').on ≠ .thread i)
    (ho : o = .enter i ∧ (y.state = .running ∧ parks y.pc = true ∧ y.pc ≠ .dead) ∨
      o = .thread i ∧ y.state = y.pc.ownState ∧ y.pc.holds = true ∨ o = .back i ∧ Parked y) :
    Base ((s.setProc i y).setCpu c ⟨some i, o⟩) := by
  have hno : ∀ c' q, c' ≠ c → (s.cpus c').on ≠ .enter q ∧ (s.cpus c').on ≠ .picked q := by
    intro c' q hc
    refine ⟨fun hon' => hc ?_, fun hon' => hc ?_⟩
    · exact Option.some.inj ((h.holder_enter hon').symm.trans hpt)
    · exact Option.some.inj ((h.holder_picked hon').symm.trans hpt)
  have hself : ∀ q, q ≠ i → (s.cpus c).on ≠ .thread q ∧ (s.cpus c).on ≠ .enter q := by
    intro q hq
    refine ⟨fun e => hq ?_, fun e => hq ?_⟩ <;> simpa [e, On.proc] using hon
  refine ⟨fun c' => ?_, fun c' => ?_, fun c' q hon' => ?_, fun c' c'' q h' h'' => ?_, fun c' q hon' => ?_,
    fun c' q hon' => ?_, fun q ht he => ?_⟩
  · by_cases hc : c' = c
    · subst hc
      rcases ho with ⟨rfl, -⟩ | ⟨rfl, -, hy⟩ | ⟨rfl, -⟩ <;> simp [Holding, hpt]
      exact hy
    · simp only [setCpu_ptable, setProc_ptable, h.lock, Holding, setCpu_cpus, setProc_cpus, hc,
        if_false, setCpu_procs]
      cases hon' : (s.cpus c').on with
      | thread q =>
        have hq : q ≠ i := fun e => hoff c' hc (e ▸ hon')
        simp [hq]
      | _ => rfl
  · by_cases hc : c' = c
    · rcases ho with ⟨rfl, -⟩ | ⟨rfl, -⟩ | ⟨rfl, -⟩ <;> simp [hc, On.proc]
    · simpa [hc] using h.var c'
  · by_cases hc : c' = c
    · rcases ho with ⟨rfl, -⟩ | ⟨rfl, hy, -⟩ | ⟨rfl, -⟩ <;> simp [hc] at hon'
      subst hon'
      simpa using hy
    · have hon' : (s.cpus c').on = .thread q := by simpa [hc] using hon'
      have hq : q ≠ i := fun e => hoff c' hc (e ▸ hon')
      simpa [hq] using h.thread c' q hon'
  · have hown : ∀ d, o = .thread q → d ≠ c → (s.cpus d).on ≠ .thread q := by
      rintro d rfl hd
      rcases ho with ⟨ho, -⟩ | ⟨ho, -⟩ | ⟨ho, -⟩ <;> cases ho
      exact hoff d hd
    by_cases hc : c' = c
    · subst hc
      by_contra hc'
      exact hown c'' (by simpa using h') (Ne.symm hc') (by simpa [Ne.symm hc'] using h'')
    · by_cases hc' : c'' = c
      · subst hc'
        exact absurd (by simpa [hc] using h') (hown c' (by simpa using h'') hc)
      · exact h.one c' c'' q (by simpa [hc] using h') (by simpa [hc'] using h'')
  · by_cases hc : c' = c
    · rcases ho with ⟨rfl, -⟩ | ⟨rfl, -⟩ | ⟨rfl, -⟩ <;> simp [hc] at hon'
    · exact absurd (by simpa [hc] using hon') (hno c' q hc).2
  · by_cases hc : c' = c
    · rcases ho with ⟨rfl, hy⟩ | ⟨rfl, -⟩ | ⟨rfl, -⟩ <;> simp [hc] at hon'
      subst hon'
      refine ⟨by simpa using hy, fun c'' hon'' => ?_⟩
      by_cases hc' : c'' = c
      · simp [hc'] at hon''
      · exact hoff c'' hc' (by simpa [hc'] using hon'')
    · exact absurd (by simpa [hc] using hon') (hno c' q hc).1
  · by_cases hq : q = i
    · subst hq
      rcases ho with ⟨rfl, -⟩ | ⟨rfl, -⟩ | ⟨rfl, hy⟩
      · exact absurd (by simp) (he c)
      · exact absurd (by simp) (ht c)
      · simpa using hy
    · simp only [setCpu_procs, setProc_procs, hq, if_false]
      refine h.off q (fun c' hon' => ?_) (fun c' hon' => ?_)
      · have hc : c' ≠ c := fun e => (hself q hq).1 (e ▸ hon')
        exact ht c' (by simpa [hc] using hon')
      · have hc : c' ≠ c := fun e => (hself q hq).2 (e ▸ hon')
        exact absurd hon' (hno c' q hc).1

theorem wake_same (x : Proc) (chan : Chan) (h : x.state ≠ .sleeping) : x.wake chan = x := by
  simp [Proc.wake, h]

theorem Parked.wake (h : Parked x) (chan : Chan) : Parked (x.wake chan) := by
  unfold Proc.wake
  split
  · rename_i hw
    exact ⟨by simp, h.place, fun _ => h.ready (.inr hw.1)⟩
  · exact h

/-- What `wakeup1` does to another process while nobody else holds the lock. -/
theorem Base.wake_other (h : Base s) (hlock : ∀ c, s.ptable = some c → (s.cpus c).on ≠ .thread q) (chan : Chan) :
    Same (s.procs q) ((s.procs q).wake chan) ∨ Free s q ∧ Parked ((s.procs q).wake chan) := by
  by_cases hst : (s.procs q).state = .sleeping
  · have hf := h.free_of_lock hlock (.inl hst)
    exact .inr ⟨hf, (h.parked_of_free hf).wake chan⟩
  · rw [wake_same _ _ hst]
    exact .inl (Same.refl _)

/-- The thread goes to another place, without changing its state. -/
theorem Base.goto (h : Base s) (hon : (s.cpus c).on = .thread p) (hpc : (s.procs p).pc.ownState = .running)
    (hpc' : pc.ownState = .running) (hcpus : s'.cpus = s.cpus) (hprocs : s'.procs = (s.setPc p pc).procs)
    (hself : s'.ptable = some c ↔ pc.holds = true) (helse : ∀ c',
      c' ≠ c → (s'.ptable = some c' ↔ s.ptable = some c')) :
    Base s' := by
  refine h.act hon hcpus ?_ (fun q hq => .inl ?_) ?_ helse
  · rw [hprocs]
    simpa [hpc'] using h.running hon hpc
  · rw [hprocs]
    simp [hq, Same.refl]
  · rw [hprocs]
    simpa using hself

/-- The same between two places that both hold `ptable.lock` or both do not. -/
theorem Base.local (h : Base s) (hon : (s.cpus c).on = .thread p) (hpc : (s.procs p).pc = pc₀)
    (hprocs : s'.procs = (s.setPc p pc).procs) (hcpus : s'.cpus = s.cpus) (hpt : s'.ptable = s.ptable)
    (hrun₀ : pc₀.ownState = .running) (hrun : pc.ownState = .running)
    (hholds : pc.holds = pc₀.holds) : Base s' := by
  subst hpc
  exact h.goto hon hrun₀ hrun hcpus hprocs (by rw [hpt, hholds, h.holder hon]) (fun _ _ => by rw [hpt])

theorem Base.congr (h : Base s) (hcpus : s'.cpus = s.cpus) (hprocs : s'.procs = s.procs)
    (hpt : s'.ptable = s.ptable) : Base s' := by
  obtain ⟨procs, cpus, ptable, _, _, _, _, _⟩ := s
  obtain ⟨procs', cpus', ptable', _, _, _, _, _⟩ := s'
  subst hcpus hprocs hpt
  exact ⟨h.lock, h.var, h.thread, h.one, h.picked, h.enter, h.off⟩

theorem afterAcquire_running (h : pc.afterAcquire = some pc') :
    pc.ownState = .running ∧ pc'.ownState = .running ∧ pc.holds = false ∧ pc'.holds = true := by
  cases pc <;> cases h <;> exact ⟨rfl, rfl, rfl, rfl⟩

theorem afterRelease_running (h : pc.afterRelease = some pc') :
    pc.ownState = .running ∧ pc'.ownState = .running ∧ pc.holds = true ∧ pc'.holds = false := by
  cases pc with
  | allocRel np => cases np <;> cases h <;> exact ⟨rfl, rfl, rfl, rfl⟩
  | wakeRel w => cases w <;> cases h <;> exact ⟨rfl, rfl, rfl, rfl⟩
  | _ => cases h <;> exact ⟨rfl, rfl, rfl, rfl⟩

theorem enter_running (f : Call) : f.enter.ownState = .running ∧ f.enter.holds = true := by
  cases f <;> exact ⟨rfl, rfl⟩

theorem afterSwtch_parks (h : pc.afterSwtch = some pc') :
    parks pc' = true ∧ pc.holds = true ∧ pc.ownState ≠ .running ∧ (pc' = .dead → pc.ownState = .zombie) := by
  cases pc with
  | exitSched => cases h; exact ⟨rfl, rfl, by rintro ⟨⟩, fun _ => rfl⟩
  | _ => cases h <;> exact ⟨rfl, rfl, by rintro ⟨⟩, by simp⟩

theorem parks_running (h : parks pc = true) (hd : pc ≠ .dead) :
    pc.ownState = .running ∧ pc.holds = true := by
  cases pc <;> first | exact absurd rfl hd | exact ⟨rfl, rfl⟩ | cases h

theorem back_running (nap : Nap) : nap.back.ownState = .running := by
  cases nap <;> rfl

theorem mem_slot (h : slot n P = some i) : P i = true := List.find?_some h

theorem slot_lt (h : slot n P = some i) : i < n :=
  List.mem_range.mp (List.mem_of_find?_eq_some h)

theorem slot_none (h : slot n P = none) (hi : i < n) : P i = false := by
  simpa using List.find?_eq_none.mp h i (List.mem_range.mpr hi)

/-- Beside its own move the thread gives a new entry to a process that is on no processor. -/
theorem Base.local_set {np : Nat} (h : Base s) (hon : (s.cpus c).on = .thread p)
    (hpc : (s.procs p).pc = pc₀) (hprocs : s'.procs = ((s.setProc np y).setPc p pc).procs) (hf : Free s np)
    (hy : Parked y) (hcpus : s'.cpus = s.cpus) (hpt : s'.ptable = s.ptable) (hrun₀ : pc₀.ownState = .running)
    (hrun : pc.ownState = .running) (hholds : pc.holds = pc₀.holds) : Base s' := by
  subst hpc
  have hne : p ≠ np := fun e => (hf c).1 (e ▸ hon)
  refine h.move hon hcpus ?_ (fun q hq => ?_) hpt (by rw [hprocs]; simpa using hholds)
  · rw [hprocs]
    simpa [hrun, hne] using h.running hon hrun₀
  · rw [hprocs]
    by_cases hq' : q = np
    · subst hq'
      exact .inr ⟨hf, by simpa [hq] using hy⟩
    · exact .inl (by simp [hq, hq', Same.refl])

theorem Parked.kill (h : Parked x) : Parked x.kill := by
  unfold Proc.kill
  by_cases hx : x.state = .sleeping
  · exact ⟨by simp [hx], h.place, fun _ => h.ready (.inr hx)⟩
  · exact ⟨by simp [hx, h.idle], h.place, by simpa [hx] using h.ready⟩

/-- The processes that `exit` of `p` wakes: its parent in `wait`, and `initproc` there if it gets a
child to reap. -/
def exitWakes (s : State) (p n q : Nat) : Prop :=
  (s.procs q).state = .sleeping ∧ ((∃ r, (s.procs p).parent = some r ∧ (s.procs q).chan = some (.proc r)) ∨
    (∃ k, k < n ∧ (s.procs k).parent = some p ∧ (s.procs k).state = .zombie) ∧
      (s.procs q).chan = some (.proc initproc))

@[simp] theorem wake_parent (x : Proc) (chan : Chan) : (x.wake chan).parent = x.parent := by
  unfold Proc.wake; split <;> rfl

theorem wake_zombie (x : Proc) (chan : Chan) : (x.wake chan).state = .zombie ↔ x.state = .zombie := by
  unfold Proc.wake
  split
  · rename_i h
    simp [h.1]
  · rfl

theorem wakeupParent_parent (s : State) (r : Option Nat) (k : Nat) :
    ((wakeupParent s r).procs k).parent = (s.procs k).parent := by
  cases r with
  | none => rfl
  | some r => exact wake_parent _ _

theorem wakeupParent_zombie (s : State) (r : Option Nat) (k : Nat) :
    ((wakeupParent s r).procs k).state = .zombie ↔ (s.procs k).state = .zombie := by
  cases r with
  | none => rfl
  | some r => exact wake_zombie _ _

/-- What `exit` of `p` does to another process. -/
theorem exitBody_other (s : State) {p q : Nat} (n : Nat) (hq : q ≠ p) [Decidable (exitWakes s p n q)] :
    (exitBody s p n).procs q = { s.procs q with
      state := if exitWakes s p n q then .runnable else (s.procs q).state
      parent := if (s.procs q).parent = some p then some initproc else (s.procs q).parent } := by
  have hany : ((List.range n).any (fun q => (s.procs q).parent = some p && (s.procs q).state = .zombie) = true) ↔
      ∃ k, k < n ∧ (s.procs k).parent = some p ∧ (s.procs k).state = .zombie := by
    simp
  simp only [exitBody, note_procs, setProc_procs, hq, if_false, reparent, wakeupParent_parent, wakeupParent_zombie]
  rcases hx : s.procs q with ⟨st, pid, par, ch, kd, ks, sv, pc⟩
  by_cases hz : ∃ k, k < n ∧ (s.procs k).parent = some p ∧ (s.procs k).state = .zombie
  · rw [if_pos (hany.mpr hz)]
    cases hr : (s.procs p).parent <;> simp only [wakeupParent, exitWakes, hx, hr, Proc.wake, hz, wakeup1] <;>
      split_ifs <;> simp_all
  · rw [if_neg (fun h => hz (hany.mp h))]
    cases hr : (s.procs p).parent <;> simp only [wakeupParent, exitWakes, hx, hr, Proc.wake, hz, wakeup1] <;>
      split_ifs <;> simp_all

theorem reparent_awake (s : State) (p n : Nat) (h : (s.procs q).state ≠ .sleeping) : (reparent s p n).procs q =
    if (s.procs q).parent = some p then { s.procs q with parent := some initproc } else s.procs q := by
  unfold reparent
  dsimp only
  split
  · refine wake_same _ _ ?_
    dsimp only
    split <;> exact h
  · rfl

/-- And to itself. -/
theorem exitBody_self (s : State) (p n : Nat) (hst : (s.procs p).state = .running) :
    (exitBody s p n).procs p = { s.procs p with
      state := .zombie, pc := .exitSched
      parent := if (s.procs p).parent = some p then some initproc else (s.procs p).parent } := by
  have hwake : (wakeupParent s (s.procs p).parent).procs p = s.procs p := by
    cases (s.procs p).parent with
    | none => rfl
    | some r => exact wake_same _ _ (by simp [hst])
  simp only [exitBody, note_procs, setProc_procs, if_true]
  rw [reparent_awake _ _ _ (by simp [hwake, hst]), hwake]
  split <;> rfl

@[simp] theorem exitBody_cpus (s : State) (p n : Nat) : (exitBody s p n).cpus = s.cpus := by
  simp only [exitBody, note_cpus, setProc_cpus, reparent]
  cases (s.procs p).parent <;> split <;> rfl

@[simp] theorem exitBody_ptable (s : State) (p n : Nat) : (exitBody s p n).ptable = s.ptable := by
  simp only [exitBody, note_ptable, setProc_ptable, reparent]
  cases (s.procs p).parent <;> split <;> rfl

section

variable (h : Base s) (hon : (s.cpus c).on = .thread p)
include h hon

/-- The lock is the thread's, so no other thread has it. -/
theorem Base.lock_self (hholds : (s.procs p).pc.holds = true)
    (hq : q ≠ p) : ∀ c', s.ptable = some c' → (s.cpus c').on ≠ .thread q := by
  intro c' hpt hon'
  obtain rfl := Option.some.inj (((h.holder hon).mpr hholds).symm.trans hpt)
  rw [hon] at hon'
  cases hon'
  exact hq rfl

theorem Base.exits (hpc : (s.procs p).pc = .exitBody) :
    Base (exitBody s p n) := by
  have hrun : (s.procs p).state = .running := h.running hon (by rw [hpc]; rfl)
  have hself := exitBody_self s p n hrun
  refine h.move hon (exitBody_cpus s p n) (by rw [hself]; rfl) (fun q hq => ?_) (exitBody_ptable s p n)
    (by rw [hself, hpc]; rfl)
  classical
  rw [exitBody_other s n hq]
  by_cases hw : exitWakes s p n q
  · have hf := h.free_of_lock (h.lock_self hon (by rw [hpc]; rfl) hq) (.inl hw.1)
    have hpark := h.parked_of_free hf
    exact .inr ⟨hf, by simp [hw], hpark.place, fun _ => hpark.ready (.inr hw.1)⟩
  · exact .inl ⟨by simp [hw], rfl, rfl⟩

/-- The mark of `kill`, which may be the thread's own. -/
theorem Base.kills {pid : BitVec 32}
    (hpc : (s.procs p).pc = .killScan pid) : Base ((s.setProc q (s.procs q).kill).setPc p (.killRel 0)) := by
  have hrun : (s.procs p).state = .running := h.running hon (by rw [hpc]; rfl)
  refine h.move hon rfl ?_ (fun r hr => ?_) rfl (by simp [hpc]; rfl)
  · by_cases hq : p = q
    · subst hq
      simp [Proc.kill, hrun]
      rfl
    · simp [hq, hrun]
      rfl
  · by_cases hq : r = q
    · subst hq
      by_cases hst : (s.procs r).state = .sleeping
      · have hf := h.free_of_lock (h.lock_self hon (by rw [hpc]; rfl) hr) (.inl hst)
        exact .inr ⟨hf, by simpa [hr] using (h.parked_of_free hf).kill⟩
      · exact .inl (by simpa [hr, Proc.kill, hst] using ⟨rfl, rfl, rfl⟩)
    · exact .inl (by simp [hr, hq, Same.refl])

/-- `wakeup1` by a thread that holds the lock. -/
theorem Base.wakes
    (hpc : (s.procs p).pc.ownState = .running) (hholds : (s.procs p).pc.holds = true)
    (hpc' : pc.ownState = .running) (hholds' : pc.holds = true) : Base ((wakeup1 s chan).setPc p pc) := by
  have hrun := h.running hon hpc
  refine h.move hon rfl ?_ (fun q hq => ?_) rfl (by simp [hholds, hholds'])
  · simp [wakeup1, wake_same, hrun, hpc']
  · simpa [wakeup1, hq] using h.wake_other (h.lock_self hon hholds hq) chan

end

theorem Base.intr (h : Base s) (hfree : s.ptable = none) : Base (wakeup1 s chan) := by
  have hoff : ∀ q c, s.ptable = some c → (s.cpus c).on ≠ .thread q := fun q c hc => by simp [hfree] at hc
  have hsame : ∀ c q, (s.cpus c).on = .thread q → (s.procs q).wake chan = s.procs q := by
    intro c q hon
    refine wake_same _ _ fun hst => ?_
    exact hoff q c (h.holder_of_state hon (by simp [hst])) hon
  have hlock := fun c => h.lock c
  refine ⟨fun c => ?_, h.var, fun c q hon => ?_, h.one, fun c q hon => ?_, fun c q hon => ?_, fun q ht he => ?_⟩
  · refine (hlock c).trans ?_
    simp only [Holding, wakeup1]
    cases hon : (s.cpus c).on with
    | thread q => simp only [hsame c q hon]
    | _ => rfl
  · simp only [wakeup1, hsame c q hon]
    exact h.thread c q hon
  · simp [h.holder_picked hon] at hfree
  · simp [h.holder_enter hon] at hfree
  · exact (h.off q ht he).wake chan

theorem Base.swtches (h : Base s) (hon : (s.cpus c).on = .thread p)
    (hpc : (s.procs p).pc.afterSwtch = some pc) :
    Base ((s.setProc p { s.procs p with pc := pc, saved := true }).setCpu c ⟨some p, .back p⟩) := by
  obtain ⟨hparks, hholds, hrun, hdead⟩ := afterSwtch_parks hpc
  have hst := h.thread c p hon
  refine h.switch ((h.holder hon).mpr hholds) (by simp [hon, On.proc]) (fun c' hc hon' =>
    hc (h.one c' c p hon' hon))
    (.inr (.inr ⟨rfl, by simpa [hst] using hrun, hparks, fun hready => ⟨rfl, fun hd => ?_⟩⟩))
  have hz := hdead hd
  simp [hst, hz] at hready

theorem Base.born (h : Base s) (hon : (s.cpus c).on = .thread p) : (s.procs p).state ≠ .embryo := by
  rw [h.thread c p hon]
  rcases ownState_cases (s.procs p).pc with hpc | hpc | hpc | hpc <;> simp [hpc]

end Xv6.Scheduler
