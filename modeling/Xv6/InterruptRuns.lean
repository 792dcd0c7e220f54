import Xv6.Interrupts

/-!
# Interrupts in every run

Every thread that does not run waits with one lock, every processor agrees with the thread it runs,
and a process that has switched away has its `intena` with it. So it gets back the flag that it had
before its outermost `pushcli`; the scheduler gets what the last process left on the processor.
-/
namespace Xv6.Interrupts

open Interleaving Function

variable {κ π : Type} {cpu : Cpu} {st st' : List Frame} {s s' : State κ π} {c c' : κ} {p : π}

structure Waits (st : List Frame) : Prop where
  one : unmatched st = 1
  idle : busy st = false
  shape : Shape st

structure Inv (s : State κ π) : Prop where
  fits : ∀ c, Fits (s.cpu c) (s.stack (s.run c))
  home : ∀ c c', s.run c = .scheduler c' → c' = c
  alone : ∀ c c' p, s.run c = .proc p → s.run c' = .proc p → c = c'
  status : ∀ c p, s.run c = .proc p → s.status p = .running
  scheduler : ∀ c, s.run c ≠ .scheduler c → Waits (s.stack (.scheduler c))
  proc : ∀ p, s.status p ≠ .running → Waits (s.stack (.proc p))
  kept : ∀ c p, s.run c = .proc p → Kept (s.cpu c).intena (s.stack (.proc p))
  saved : ∀ p intena, s.status p = .suspended intena → Kept intena (s.stack (.proc p))
  fresh : ∀ p, s.status p = .fresh → outer (s.stack (.proc p)) = none

/-- The processor runs its scheduler, and `intena` is still what the scheduler's `pushcli` left. -/
def Home (s : State κ π) : Prop := ∀ c, s.run c = .scheduler c → Kept (s.cpu c).intena (s.stack (.scheduler c))

theorem inv_booted (h : Booted s) : Inv s ∧ Home s := by
  have hproc (p : π) : Waits (s.stack (.proc p)) := by
    rw [h.proc p]
    exact ⟨rfl, rfl, rfl⟩
  refine ⟨⟨fun c => ?_, ?_, ?_, ?_, fun c hne => absurd (h.run c) hne, fun p _ => hproc p, ?_, ?_, ?_⟩, ?_⟩
  · rw [h.run, h.scheduler]
    refine ⟨h.cpu c, fun hpos => absurd hpos (by simp [unmatched]), ?_, trivial⟩
    intro b st' heq
    cases heq
  · intro c c' hc
    rw [h.run] at hc
    cases hc
    rfl
  · intro c c' p hc
    rw [h.run] at hc
    cases hc
  · intro c p hc
    rw [h.run] at hc
    cases hc
  · intro c p hc
    rw [h.run] at hc
    cases hc
  · intro p intena hp
    rw [h.status] at hp
    cases hp
  · intro p _
    rw [h.proc]
    rfl
  · intro c _ b hb
    rw [h.scheduler] at hb
    cases hb

/-- Another processor runs another thread. -/
theorem Inv.run_ne (h : Inv s) (hne : c' ≠ c) : s.run c' ≠ s.run c := by
  intro heq
  cases hc : s.run c with
  | scheduler c₁ =>
    have h₁ := h.home c c₁ hc
    have h₂ := h.home c' c₁ (heq.trans hc)
    exact hne (h₂.symm.trans h₁)
  | proc p => exact hne (h.alone c' c p (heq.trans hc) hc)

/-- The processor goes on with a thread that has switched away. -/
theorem Fits.switch (h : Fits cpu st) (hone : unmatched st = 1) (hwaits : Waits st') (status : Status) :
    Fits (status.restore cpu) st' := by
  have hncli := h.ncli
  have hoff := h.off (by omega)
  have hsame : (status.restore cpu).ncli = cpu.ncli ∧ (status.restore cpu).iflag = cpu.iflag := by
    cases status <;> exact ⟨rfl, rfl⟩
  refine ⟨?_, fun _ => hsame.2.trans hoff, fun b st'' heq =>
    absurd heq (not_busy hwaits.idle b st''), hwaits.shape⟩
  rw [hsame.1, hncli, hone, hwaits.one]

/-- All but the processor `c` and the process `p` are as they were, and so are the threads. -/
structure Switched (s s' : State κ π) (c : κ) (p : π) : Prop where
  stack : s'.stack = s.stack
  run : ∀ c', c' ≠ c → s'.run c' = s.run c'
  cpu : ∀ c', c' ≠ c → s'.cpu c' = s.cpu c'
  status : ∀ p', p' ≠ p → s'.status p' = s.status p'

theorem Switched.status_eq {p' : π} {st : Status} (hs : Switched s s' c p) (hst : s'.status p = st)
    (hne : s'.status p' ≠ st) : s'.status p' = s.status p' := by
  refine hs.status p' ?_
  rintro rfl
  exact hne hst

theorem Switched.fits (hs : Switched s s' c p) (h : Inv s)
    (hc : Fits (s'.cpu c) (s.stack (s'.run c))) (c' : κ) :
    Fits (s'.cpu c') (s'.stack (s'.run c')) := by
  rw [hs.stack]
  by_cases heq : c' = c
  · rw [heq]
    exact hc
  · rw [hs.run c' heq, hs.cpu c' heq]
    exact h.fits c'

/-- `sched` leaves the processor to its scheduler. -/
theorem Inv.sched (h : Inv s) (hrun : s.run c = .proc p) (hone : unmatched (s.stack (.proc p)) = 1)
    (hidle : busy (s.stack (.proc p)) = false) (hs : Switched s s' c p) (hrun' : s'.run c = .scheduler c)
    (hcpu' : s'.cpu c = s.cpu c) (hstatus' : s'.status p = .suspended (s.cpu c).intena) : Inv s' := by
  have hfits := h.fits c
  rw [hrun] at hfits
  have hready := h.scheduler c (by rw [hrun]; simp)
  have hother {c' : κ} {p' : π} (hc : s'.run c' = .proc p') : c' ≠ c ∧ s.run c' = .proc p' := by
    have hne : c' ≠ c := by
      rintro rfl
      rw [hrun'] at hc
      cases hc
    exact ⟨hne, hs.run c' hne ▸ hc⟩
  constructor
  case fits =>
    intro c'
    refine hs.fits h ?_ c'
    rw [hrun', hcpu']
    exact hfits.switch hone hready .fresh
  case home =>
    intro c' c'' hc
    by_cases heq : c' = c
    · rw [heq, hrun'] at hc
      cases hc
      exact heq.symm
    · rw [hs.run c' heq] at hc
      exact h.home c' c'' hc
  case alone =>
    intro c' c'' p' hc hc'
    exact h.alone c' c'' p' (hother hc).2 (hother hc').2
  case status =>
    intro c' p' hc
    obtain ⟨hne, hc⟩ := hother hc
    rw [hs.status]
    · exact h.status c' p' hc
    · rintro rfl
      exact hne (h.alone c' c p' hc hrun)
  case scheduler =>
    intro c' hne
    rw [hs.stack]
    by_cases heq : c' = c
    · rw [heq]
      exact hready
    · rw [hs.run c' heq] at hne
      exact h.scheduler c' hne
  case proc =>
    intro p' hne
    rw [hs.stack]
    by_cases heq : p' = p
    · rw [heq]
      exact ⟨hone, hidle, hfits.shape⟩
    · rw [hs.status p' heq] at hne
      exact h.proc p' hne
  case kept =>
    intro c' p' hc
    obtain ⟨hne, hc⟩ := hother hc
    rw [hs.stack, hs.cpu c' hne]
    exact h.kept c' p' hc
  case saved =>
    intro p' intena hp'
    rw [hs.stack]
    by_cases heq : p' = p
    · rw [heq, hstatus'] at hp'
      cases hp'
      rw [heq]
      exact h.kept c p hrun
    · rw [hs.status p' heq] at hp'
      exact h.saved p' intena hp'
  case fresh =>
    intro p' hp'
    rw [hs.status_eq hstatus' (by rw [hp']; simp)] at hp'
    rw [hs.stack]
    exact h.fresh p' hp'

/-- The process that goes on finds its own `intena`. -/
theorem Inv.kept_restore (h : Inv s) (hstatus : s.status p ≠ .running) (cpu : Cpu) :
    Kept ((s.status p).restore cpu).intena (s.stack (.proc p)) := by
  cases hp : s.status p with
  | fresh =>
    intro b hb
    rw [h.fresh p hp] at hb
    cases hb
  | running => exact absurd hp hstatus
  | suspended intena => exact h.saved p intena hp

/-- The scheduler leaves the processor to a process. -/
theorem Inv.dispatch (h : Inv s) (hrun : s.run c = .scheduler c) (hone : unmatched (s.stack (.scheduler c)) = 1)
    (hidle : busy (s.stack (.scheduler c)) = false) (hstatus : s.status p ≠ .running) (hs : Switched s s' c p)
    (hrun' : s'.run c = .proc p) (hcpu' : s'.cpu c = (s.status p).restore (s.cpu c))
    (hstatus' : s'.status p = .running) :
    Inv s' := by
  have hfits := h.fits c
  rw [hrun] at hfits
  have hnot (c' : κ) : s.run c' ≠ .proc p := fun hc => hstatus (h.status c' p hc)
  have hthere {c' : κ} {p' : π} (hc : s'.run c' = .proc p') : (c' = c ∧ p' = p) ∨
    (c' ≠ c ∧ p' ≠ p ∧ s.run c' = .proc p') := by
    by_cases heq : c' = c
    · rw [heq, hrun'] at hc
      cases hc
      exact .inl ⟨heq, rfl⟩
    · rw [hs.run c' heq] at hc
      refine .inr ⟨heq, ?_, hc⟩
      rintro rfl
      exact hnot c' hc
  constructor
  case fits =>
    intro c'
    refine hs.fits h ?_ c'
    rw [hrun', hcpu']
    exact hfits.switch hone (h.proc p hstatus) _
  case home =>
    intro c' c'' hc
    by_cases heq : c' = c
    · rw [heq, hrun'] at hc
      cases hc
    · rw [hs.run c' heq] at hc
      exact h.home c' c'' hc
  case alone =>
    intro c' c'' p' hc hc'
    obtain ⟨rfl, rfl⟩ | ⟨hne, hpne, hc⟩ := hthere hc
    · obtain ⟨rfl, -⟩ | ⟨-, hpne, -⟩ := hthere hc'
      · rfl
      · exact absurd rfl hpne
    · obtain ⟨-, rfl⟩ | ⟨-, -, hc'⟩ := hthere hc'
      · exact absurd rfl hpne
      · exact h.alone c' c'' p' hc hc'
  case status =>
    intro c' p' hc
    obtain ⟨-, rfl⟩ | ⟨-, hpne, hc⟩ := hthere hc
    · exact hstatus'
    · rw [hs.status p' hpne]
      exact h.status c' p' hc
  case scheduler =>
    intro c' hne
    rw [hs.stack]
    by_cases heq : c' = c
    · rw [heq]
      exact ⟨hone, hidle, hfits.shape⟩
    · rw [hs.run c' heq] at hne
      exact h.scheduler c' hne
  case proc =>
    intro p' hne
    rw [hs.stack]
    rw [hs.status_eq hstatus' hne] at hne
    exact h.proc p' hne
  case kept =>
    intro c' p' hc
    rw [hs.stack]
    obtain ⟨rfl, rfl⟩ | ⟨hne, -, hc⟩ := hthere hc
    · rw [hcpu']
      exact h.kept_restore hstatus _
    · rw [hs.cpu c' hne]
      exact h.kept c' p' hc
  case saved =>
    intro p' intena hp'
    rw [hs.status_eq hstatus' (by rw [hp']; simp)] at hp'
    rw [hs.stack]
    exact h.saved p' intena hp'
  case fresh =>
    intro p' hp'
    rw [hs.status_eq hstatus' (by rw [hp']; simp)] at hp'
    rw [hs.stack]
    exact h.fresh p' hp'

/-- The `popcli` that ends the outermost `pushcli` of the thread on `c` turns interrupts on if they
were on before it. -/
def Restores (s : State κ π) (c : κ) : Prop :=
  ∀ b st cpu', s.stack (s.run c) = .held b :: st → unmatched st = 0 → popcli (s.cpu c) = .ok cpu' → cpu'.iflag = b

structure Sound (s : State κ π) : Prop where
  off : ∀ c, 0 < (s.cpu c).ncli → (s.cpu c).iflag = false
  ncli : ∀ c, (s.cpu c).ncli = unmatched (s.stack (s.run c))
  pops : ∀ c, 0 < unmatched (s.stack (s.run c)) → ∃ cpu', popcli (s.cpu c) = .ok cpu'
  process : ∀ c p, s.run c = .proc p → Restores s c

theorem restores_of_kept (hfits : Fits (s.cpu c) (s.stack (s.run c)))
    (hkept : Kept (s.cpu c).intena (s.stack (s.run c))) :
    Restores s c := by
  intro b st cpu' hst hzero hpop
  rw [hst] at hfits hkept
  obtain ⟨cpu₁, hpop₁, -, -, hflag⟩ := hfits.pop rfl hfits.shape.2 hfits.shape.1
  obtain rfl := Except.ok.inj (hpop₁.symm.trans hpop)
  rw [hflag, decide_eq_true hzero, Bool.true_and]
  exact hkept b (by rw [outer, if_pos hzero])

theorem Inv.sound (h : Inv s) : Sound s := by
  refine ⟨fun c hpos => ?_, fun c => (h.fits c).ncli, fun c hpos => ?_, fun c p hrun => ?_⟩
  · have hncli := (h.fits c).ncli
    exact (h.fits c).off (by omega)
  · have hncli := (h.fits c).ncli
    exact ⟨_, popcli_ok (by omega) ((h.fits c).off hpos)⟩
  · refine restores_of_kept (h.fits c) ?_
    rw [hrun]
    exact h.kept c p hrun

section

variable [DecidableEq κ] [DecidableEq π]

/-- A thread that does not run is not changed by what the thread on `c` does. -/
theorem Inv.op (h : Inv s) (hfits : Fits cpu st)
    (hkept : Kept (s.cpu c).intena (s.stack (s.run c)) → Kept cpu.intena st) :
    Inv (s.put c cpu st) ∧ (Home s → Home (s.put c cpu st)) := by
  have hstack (t : Thread κ π) (ht : t ≠ s.run c) : (s.put c cpu st).stack t = s.stack t := update_of_ne ht ..
  have hproc (p : π) (hp : s.status p ≠ .running) : (s.put c cpu st).stack (.proc p) = s.stack (.proc p) :=
    hstack _ fun heq => hp (h.status c p heq.symm)
  have hthere (c' : κ) : (s.put c cpu st).stack (s.run c') = if c' = c then st else s.stack (s.run c') := by
    by_cases hc : c' = c
    · rw [if_pos hc, hc]
      exact update_self ..
    · rw [if_neg hc, hstack _ (h.run_ne hc)]
  have hcpu (c' : κ) : (s.put c cpu st).cpu c' = if c' = c then cpu else s.cpu c' := update_apply ..
  have hmove (c' : κ) (hold : Kept (s.cpu c').intena (s.stack (s.run c'))) :
      Kept ((s.put c cpu st).cpu c').intena ((s.put c cpu st).stack (s.run c')) := by
    rw [hthere, hcpu]
    by_cases hc : c' = c
    · subst hc
      rw [if_pos rfl, if_pos rfl]
      exact hkept hold
    · rw [if_neg hc, if_neg hc]
      exact hold
  refine ⟨⟨fun c' => ?_, h.home, h.alone, h.status, fun c' hne => ?_, fun p hp => ?_, fun c' p hrun => ?_,
    fun p intena hp => ?_, fun p hp => ?_⟩, fun hhome c' hrun => ?_⟩
  · show Fits _ ((s.put c cpu st).stack (s.run c'))
    rw [hthere, hcpu]
    by_cases hc : c' = c
    · rw [if_pos hc, if_pos hc]
      exact hfits
    · rw [if_neg hc, if_neg hc]
      exact h.fits c'
  · rw [hstack _ fun heq => hne ?_]
    · exact h.scheduler c' hne
    · rw [← h.home c c' heq.symm] at heq
      exact heq.symm
  · rw [hproc p hp]
    exact h.proc p hp
  · have hrun' : s.run c' = .proc p := hrun
    have hold := h.kept c' p hrun'
    rw [← hrun'] at hold ⊢
    exact hmove c' hold
  · rw [hproc p (by rw [show s.status p = .suspended intena from hp]; simp)]
    exact h.saved p intena hp
  · rw [hproc p (by rw [show s.status p = .fresh from hp]; simp)]
    exact h.fresh p hp
  · have hrun' : s.run c' = .scheduler c' := hrun
    have hold := hhome c' hrun'
    rw [← hrun'] at hold
    have hnew := hmove c' hold
    rw [hrun'] at hnew
    exact hnew

/-- A process that leaves the processor made its outermost `pushcli` with the interrupt flag with
which the scheduler of the processor made its own. -/
def Agree (s : State κ π) (a : κ × Act π) : Prop :=
  a.2 = .sched → ∀ p, s.run a.1 = .proc p →
    outer (s.stack (.proc p)) = outer (s.stack (.scheduler a.1))

theorem switched_leave (s : State κ π) (c : κ) (p : π) : Switched s (s.leave c p) c p :=
  ⟨rfl, fun _ hne => update_of_ne hne .., fun _ _ => rfl, fun _ hne => update_of_ne hne ..⟩

theorem switched_enter (s : State κ π) (c : κ) (p : π) : Switched s (s.enter c p) c p :=
  ⟨rfl, fun _ hne => update_of_ne hne .., fun _ hne => update_of_ne hne ..,
    fun _ hne => update_of_ne hne ..⟩

theorem inv_step (h : Inv s) {a : Act π} (hstep : exec s c a = some s') :
    Inv s' ∧ (Home s → Agree s (c, a) → Home s') := by
  cases a with
  | op o =>
    rw [exec, Option.map_eq_some_iff] at hstep
    obtain ⟨⟨cpu, st⟩, hrun, rfl⟩ := hstep
    obtain ⟨hfits, hkept⟩ := (h.fits c).perform hrun
    obtain ⟨hinv, hhome⟩ := h.op hfits hkept
    exact ⟨hinv, fun hold _ => hhome hold⟩
  | sched =>
    rw [exec] at hstep
    split at hstep
    · cases hstep
    rename_i p hrun
    split at hstep
    case isFalse => cases hstep
    case isTrue hguard =>
      cases hstep
      have hs := switched_leave s c p
      refine ⟨h.sched hrun hguard.1 hguard.2 hs (update_self ..) rfl
        (update_self ..), fun hold hagree c' hrun' => ?_⟩
      by_cases heq : c' = c
      · -- `intena` is the flag of the process
        intro b hb
        rw [heq] at hb ⊢
        exact h.kept c p hrun b ((hagree rfl p hrun).trans hb)
      · exact hold c' (hs.run c' heq ▸ hrun')
  | dispatch p =>
    rw [exec] at hstep
    split at hstep
    · cases hstep
    rename_i c' hrun
    obtain rfl := h.home c c' hrun
    split at hstep
    case isFalse => cases hstep
    case isTrue hguard =>
      cases hstep
      have hs := switched_enter s c' p
      refine ⟨h.dispatch hrun hguard.1 hguard.2.1 hguard.2.2 hs (update_self ..) (update_self ..)
        (update_self ..), fun hold _ c hrun' => ?_⟩
      by_cases heq : c = c'
      · have hat : (s.enter c' p).run c' = .proc p := update_self ..
        rw [heq, hat] at hrun'
        cases hrun'
      · have hcpu := hs.cpu c heq
        rw [hcpu]
        exact hold c (hs.run c heq ▸ hrun')

theorem reach_inv {ok : State κ π → κ × Act π → Prop} (h : Reach system ok s) : Inv s :=
  h.invariant (fun _ hboot => (inv_booted hboot).1) fun _ _ _ hinv _ hstep => (inv_step hinv hstep).1

theorem reach_home (h : Reach system Agree s) : Inv s ∧ Home s :=
  h.invariant (fun _ hboot => inv_booted hboot) fun _ _ _ hinv hok hstep =>
    ⟨(inv_step hinv.1 hstep).1, (inv_step hinv.1 hstep).2 hinv.2 hok⟩

/-- A thread that has switched away is in its outermost `pushcli`. -/
theorem Waits.outermost (h : Waits st) {b : Bool} (hb : outer st = some b) :
    ∃ st', st = .held b :: st' ∧ unmatched st' = 0 := by
  have hone := h.one
  cases st with
  | nil => cases hone
  | cons f st =>
    cases f with
    | reading b' => cases h.idle
    | held b' =>
      have hzero : unmatched st = 0 := Nat.succ.inj hone
      rw [outer, if_pos hzero] at hb
      cases hb
      exact ⟨st, rfl, hzero⟩
    | given =>
      obtain rfl : st = [] := h.shape
      cases hb
    | irq =>
      have hzero := h.shape.1
      rw [unmatched, hzero] at hone
      cases hone

/-- After a switch the scheduler finds the flag of the process. -/
theorem Inv.restores_sched (h : Inv s) (hstep : exec s c .sched = some s') (hrun : s.run c = .proc p)
    {b b' : Bool} (hproc : outer (s.stack (.proc p)) = some b)
    (hsched : outer (s.stack (.scheduler c)) = some b') : Restores s' c ↔ b = b' := by
  have hinv := (inv_step h hstep).1
  simp only [exec, hrun] at hstep
  split at hstep
  case isFalse => cases hstep
  case isTrue =>
    cases hstep
    have hintena := h.kept c p hrun b hproc
    have hhome : (s.leave c p).run c = .scheduler c := update_self ..
    have hfits : Fits (s.cpu c) (s.stack (.scheduler c)) := hhome ▸ hinv.fits c
    obtain ⟨st, hst, hzero⟩ := (h.scheduler c (by rw [hrun]; simp)).outermost hsched
    constructor
    · intro hrest
      rw [hst] at hfits
      obtain ⟨cpu', hpop, -, -, hflag⟩ := hfits.pop rfl hfits.shape.2 hfits.shape.1
      have hb := hrest b' st cpu' (by rw [hhome]; exact hst) hzero hpop
      rw [hflag, decide_eq_true hzero, Bool.true_and, hintena] at hb
      exact hb
    · rintro rfl
      refine restores_of_kept (hinv.fits c) ?_
      rw [hhome]
      intro b' hb'
      rw [show (s.leave c p).stack (.scheduler c) = s.stack (.scheduler c) from rfl, hsched] at hb'
      cases hb'
      exact hintena

/-- Interrupts are off inside every `pushcli`, whose number is `ncli`, no `popcli` panics and a
process gets back its own flag, in every run; so does a scheduler in a run where the processes that
leave it agree with it, and after a switch of a process that does not it gets the wrong one. -/
theorem interrupt_state : (∀ s : State κ π, Reachable system s → Sound s) ∧
    (∀ s : State κ π, Reach system Agree s → Sound s ∧ ∀ c, Restores s c) ∧
    ∀ (s s' : State κ π) c p b b', Reachable system s → exec s c .sched = some s' →
      s.run c = .proc p → outer (s.stack (.proc p)) = some b →
      outer (s.stack (.scheduler c)) = some b' → (Restores s' c ↔ b = b') := by
  refine ⟨fun s h => (reach_inv h).sound, fun s h => ?_, fun s s' c p b b' h hstep hrun hproc hsched =>
    (reach_inv h).restores_sched hstep hrun hproc hsched⟩
  obtain ⟨hinv, hhome⟩ := reach_home h
  refine ⟨hinv.sound, fun c => ?_⟩
  cases hrun : s.run c with
  | proc p => exact hinv.sound.process c p hrun
  | scheduler c' =>
    obtain rfl := hinv.home c c' hrun
    refine restores_of_kept (hinv.fits c') ?_
    rw [hrun]
    exact hhome c' hrun

/-- A run of steps that meet the condition wherever they come. -/
theorem reach_steps {ok : State κ π → κ × Act π → Prop} (h : Reach system ok s)
    (as : List (κ × Act π)) (hok : ∀ a ∈ as, ∀ s, ok s a)
    (hrun : as.foldlM (fun s a => exec s a.1 a.2) s = some s') : Reach system ok s' := by
  induction as generalizing s with
  | nil =>
    cases hrun
    exact h
  | cons a as ih =>
    obtain ⟨s₁, hstep, hrest⟩ := Option.bind_eq_some_iff.mp hrun
    rw [List.forall_mem_cons] at hok
    exact ih (h.step (hok.1 s) hstep) hok.2 hrest

end

def bootStack {κ π : Type} : Thread κ π → List Frame
  | .scheduler _ => []
  | .proc _ => [.given]

def boot (κ π : Type) : State κ π :=
  ⟨fun _ => ⟨false, 0, false⟩, .scheduler, bootStack, fun _ => .fresh⟩

theorem booted_boot (κ π : Type) : Booted (boot κ π) :=
  ⟨fun _ => rfl, fun _ => rfl, fun _ => rfl, fun _ => rfl, fun _ => rfl⟩

def acquires {κ π : Type} (c : κ) (iflag : Bool) : List (κ × Act π) :=
  [(c, .op (.setIf iflag)), (c, .op .readeflags), (c, .op .cli)]

def first : List (Fin 2 × Act Unit) :=
  acquires 0 true ++ [(0, .dispatch ()), (0, .op .popcli), (0, .op .readeflags), (0, .op .cli)]

/-- The scheduler there releases the lock, and processor 1, with interrupts off, goes on with the
process. -/
def second : List (Fin 2 × Act Unit) :=
  (0, .op .popcli) :: acquires 1 false ++ [(1, .dispatch ())]

/-- A process goes to another processor and turns interrupts on there, as they were. -/
theorem interrupt_state_moved : ∃ s : State (Fin 2) Unit, Reach system Agree s ∧ Sound s ∧
    s.run 1 = .proc () ∧ s.stack (.scheduler 1) = [.held false] ∧
    s.stack (.proc ()) = [.held true] ∧ ∃ cpu, popcli (s.cpu 1) = .ok cpu ∧ cpu.iflag = true := by
  have hfirst : ∀ a ∈ first, a.2 ≠ .sched := by decide
  have hsecond : ∀ a ∈ second, a.2 ≠ .sched := by decide
  obtain ⟨s₁, h₁⟩ : ∃ s, first.foldlM (fun s a => exec s a.1 a.2) (boot (Fin 2) Unit) = some s :=
    ⟨_, rfl⟩
  obtain ⟨s₂, h₂⟩ : ∃ s, exec s₁ 0 .sched = some s := by
    cases h₁
    exact ⟨_, rfl⟩
  obtain ⟨s₃, h₃⟩ : ∃ s, second.foldlM (fun s a => exec s a.1 a.2) s₂ = some s := by
    cases h₁
    cases h₂
    exact ⟨_, rfl⟩
  have hagree : Agree s₁ (0, .sched) := by
    cases h₁
    rintro - ⟨⟩ -
    rfl
  have hreach₁ : Reach system Agree s₁ :=
    reach_steps (.init (booted_boot _ _)) first (fun a ha s hs => absurd hs (hfirst a ha)) h₁
  have hreach₃ : Reach system Agree s₃ :=
    reach_steps (hreach₁.step hagree h₂) second (fun a ha s hs => absurd hs (hsecond a ha)) h₃
  obtain ⟨hsound, hrestores⟩ := interrupt_state.2.1 s₃ hreach₃
  have hrun : s₃.run 1 = .proc () ∧ s₃.stack (.scheduler 1) = [.held false] ∧
      s₃.stack (.proc ()) = [.held true] := by
    cases h₁
    cases h₂
    cases h₃
    exact ⟨rfl, rfl, rfl⟩
  obtain ⟨cpu, hpop⟩ := hsound.pops 1 (by rw [hrun.1, hrun.2.2]; decide)
  refine ⟨s₃, hreach₃, hsound, hrun.1, hrun.2.1, hrun.2.2, cpu, hpop, ?_⟩
  exact hrestores 1 true [] cpu (by rw [hrun.1, hrun.2.2]) rfl hpop

/-- The scheduler runs a process, which sleeps in a system call. -/
def asleep : List (Unit × Act Unit) :=
  acquires () true ++ [((), .dispatch ()), ((), .op .popcli)] ++ acquires () false ++ [((), .sched)]

/-- The scheduler turned interrupts on before its `acquire`, and its `release` leaves them off. -/
theorem scheduler_release_leaves_off : ∃ s : State Unit Unit, Reachable system s ∧
    s.run () = .scheduler () ∧ s.stack (.scheduler ()) = [.held true] ∧
    popcli (s.cpu ()) = .ok ⟨false, 0, false⟩ ∧ ¬ Restores s () := by
  obtain ⟨s, hs⟩ : ∃ s, asleep.foldlM (fun s a => exec s a.1 a.2) (boot Unit Unit) = some s := ⟨_, rfl⟩
  refine ⟨s, reach_steps (.init (booted_boot _ _)) asleep (fun _ _ _ => trivial) hs, ?_⟩
  cases hs
  refine ⟨rfl, rfl, rfl, fun h => ?_⟩
  have hflag := h true [] ⟨false, 0, false⟩ rfl rfl rfl
  cases hflag

end Xv6.Interrupts
