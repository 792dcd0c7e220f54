import Xv6.SleepLockStep

/-!
# No wakeup is lost

`sleep` takes `ptable.lock` before it lets go of the lock of its caller, and `wakeup` looks for
sleepers with `ptable.lock` held. A process that has called `sleep` is therefore found by whoever
comes to `wakeup` after taking that lock, until something has made it `RUNNABLE`.
-/
namespace Xv6.SleepWake

open Interleaving ProcTable Scheduler ForkSlots Parents SleepLock SleepLockStep Function

variable {n c p q l : Nat} {nap : Nap} {b : Bool} {s s' : State} {ok : State → State → Prop}

def cpuOf : Act → Option Nat
  | .sched c | .call c _ | .acquire c _ | .release c _ | .sleep c _ _
  | .acquiresleep c _ | .releasesleep c _ => some c
  | .go c | .fail c => some c
  | .intr _ => none

def Left (x y : Proc) : Prop := y.pc = x.pc ∧ (y.state = x.state ∨ x.state = .sleeping ∧ y.state = .runnable)

theorem Left.refl (x : Proc) : Left x x := ⟨rfl, .inl rfl⟩

theorem Left.wake (x : Proc) (chan : Chan) : Left x (x.wake chan) := by
  unfold Proc.wake
  split
  · rename_i h
    exact ⟨rfl, .inr ⟨h.1, rfl⟩⟩
  · exact Left.refl x

theorem Left.kill (x : Proc) : Left x x.kill := by
  refine ⟨rfl, ?_⟩
  by_cases h : x.state = .sleeping <;> simp [Proc.kill, h]

/-- A step is the thread's own, or it leaves it where it is. -/
theorem other_step {a : Act} (ht : Table s) (hst : (s.procs p).state = .running ∨ (s.procs p).state = .sleeping)
    (hstep : Step n s a s') :
    (∃ c, (s.cpus c).on = .thread p ∧ cpuOf a = some c) ∨ Left (s.procs p) (s'.procs p) := by
  obtain ⟨hbase, hbirths⟩ := ht
  have hset : ∀ {c p' y}, (s.cpus c).on = .thread p' → cpuOf a = some c → s'.procs = (s.setProc p' y).procs →
      (∃ c, (s.cpus c).on = .thread p ∧ cpuOf a = some c) ∨ Left (s.procs p) (s'.procs p) := by
    intro c p' y hon hcpu hprocs
    by_cases e : p = p'
    · exact .inl ⟨c, e ▸ hon, hcpu⟩
    · exact .inr (by simpa [hprocs, e] using Left.refl _)
  have hpair : ∀ {c p' q y pc}, (s.cpus c).on = .thread p' → cpuOf a = some c →
      s'.procs = ((s.setProc q y).setPc p' pc).procs → (p = q → Left (s.procs p) y) →
      (∃ c, (s.cpus c).on = .thread p ∧ cpuOf a = some c) ∨ Left (s.procs p) (s'.procs p) := by
    intro c p' q y pc hon hcpu hprocs hy
    by_cases e : p = p'
    · exact .inl ⟨c, e ▸ hon, hcpu⟩
    · by_cases e' : p = q
      · exact .inr (by simpa [hprocs, e, ← e'] using hy e')
      · exact .inr (by simpa [hprocs, e, e'] using Left.refl _)
  have hborn : ∀ {q}, (s.procs q).state = .unused ∨ (s.procs q).state = .embryo ∨ (s.procs q).state = .zombie ∨
      (s.procs q).state = .runnable → p ≠ q := by
    rintro q hq rfl
    rcases hst with e | e <;> simp [e] at hq
  cases hstep with
  | schedAcquire | schedSkip | schedPick | schedBack | schedRelease | acquire | release => exact .inr (Left.refl _)
  | @schedRun c i hon =>
    have hne := hborn (.inr (.inr (.inr (hbase.picked _ _ hon))))
    exact .inr (by simpa [hne] using Left.refl _)
  | @schedEnter c i hon =>
    by_cases e : p = i
    · subst e
      exact .inr (by simpa using ⟨rfl, .inl rfl⟩)
    · exact .inr (by simpa [e] using Left.refl _)
  | allocFound hon hpc hfound =>
    exact hpair hon rfl rfl fun e => absurd e (hborn (.inl (by simpa using mem_slot hfound)))
  | allocStack hon hpc | stackFail hon hpc | copyFail hon hpc | forkParent hon hpc
  | forkRun hon hpc =>
    exact hpair hon rfl rfl fun e => absurd e (hborn (.inr (.inl (hbirths.embryo_of hpc rfl))))
  | waitReap hon hpc hfound =>
    exact hpair hon rfl rfl fun e => absurd e (hborn (.inr (.inr (.inl (zombie_of_slot hfound).2))))
  | killFound hon hpc => exact hpair hon rfl rfl fun e => e ▸ Left.kill _
  | @exitBody c p' hon hpc =>
    by_cases e : p = p'
    · exact .inl ⟨c, e ▸ hon, rfl⟩
    · classical
      rw [exitBody_other s n e]
      by_cases hw : exitWakes s p' n p
      · exact .inr ⟨rfl, .inr ⟨hw.1, by simp [hw]⟩⟩
      · exact .inr ⟨rfl, .inl (by simp [hw])⟩
  | @wakeScan c p' w hon hpc =>
    by_cases e : p = p'
    · exact .inl ⟨c, e ▸ hon, rfl⟩
    · exact .inr (by simpa [e, wakeup1] using Left.wake _ _)
  | intr => exact .inr (Left.wake _ _)
  | call hon | lock hon | unlock hon | allocNone hon | forkCopy hon | waitNone hon | waitSleep hon | killNone hon
  | napDrop hon | napTake hon | sleep hon | acquiresleep hon | lockBusy hon | lockTake hon | lockRel hon
  | releasesleep hon | unlockSet hon | unlockRel hon | swtch hon | yieldSet hon | napSet hon
  | napWoken hon => exact hset hon rfl rfl

def napNext : Pc → Option Pc
  | .napAcq nap => some (.napDrop nap)
  | .napDrop nap => some (.napSet nap)
  | .napSet nap => some (.napSched nap)
  | .napSched nap => some (.napWoken nap)
  | _ => none

/-- The thread's own step there. -/
theorem own_step {a : Act} {pc : Pc} (hon : (s.cpus c).on = .thread p) (hcpu : cpuOf a = some c)
    (hnext : napNext (s.procs p).pc = some pc) (hstep : Step n s a s') :
    (s'.procs p).pc = pc ∧ (parks pc = true → (s'.procs p).state = (s.procs p).state) := by
  have hp : ∀ {c' p'}, (s.cpus c').on = .thread p' → cpuOf a = some c' → p' = p := by
    intro c' p' hon' hcpu'
    obtain rfl := Option.some.inj (hcpu.symm.trans hcpu')
    simpa [hon] using hon'.symm
  have hno : ∀ {c' p' pc'}, (s.cpus c').on = .thread p' → cpuOf a = some c' → (s.procs p').pc = pc' →
      napNext pc' = none → (s'.procs p).pc = pc ∧ (parks pc = true → (s'.procs p).state = (s.procs p).state) := by
    intro c' p' pc' hon' hcpu' hpc' hnone
    obtain rfl := hp hon' hcpu'
    rw [hpc', hnone] at hnext
    cases hnext
  have hsched : ∀ {c' o}, (s.cpus c').on = o → cpuOf a = some c' → (∀ q, o ≠ .thread q) →
      (s'.procs p).pc = pc ∧ (parks pc = true → (s'.procs p).state = (s.procs p).state) := by
    intro c' o ho hcpu' hq
    obtain rfl := Option.some.inj (hcpu.symm.trans hcpu')
    exact absurd (ho.symm.trans hon) (hq p)
  cases hstep with
  | schedAcquire ho | schedSkip ho | schedPick ho | schedRun ho | schedEnter ho | schedBack ho | schedRelease ho =>
    exact hsched ho rfl (by simp)
  | intr => cases hcpu
  | lock hon' hpc' | unlock hon' hpc' | swtch hon' hpc' =>
    obtain rfl := hp hon' rfl
    cases hq : (s.procs _).pc <;> rw [hq] at hnext hpc' <;> cases hnext <;> cases hpc'
    all_goals simp [parks]
  | napDrop hon' hpc' | napSet hon' hpc' =>
    obtain rfl := hp hon' rfl
    rw [hpc'] at hnext
    cases hnext
    simp [parks]
  | call hon' hpc' | allocFound hon' hpc' | allocNone hon' hpc' | allocStack hon' hpc' | stackFail hon' hpc'
  | forkCopy hon' hpc' | copyFail hon' hpc' | forkParent hon' hpc' | forkRun hon' hpc' | exitBody hon' hpc'
  | waitReap hon' hpc' | waitNone hon' hpc' | waitSleep hon' hpc' | killFound hon' hpc' | killNone hon' hpc'
  | yieldSet hon' hpc' | napWoken hon' hpc' | napTake hon' hpc' | wakeScan hon' hpc' | acquire hon' hpc'
  | release hon' hpc' | sleep hon' hpc' | acquiresleep hon' hpc' | lockBusy hon' hpc' | lockTake hon' hpc'
  | lockRel hon' hpc' | releasesleep hon' hpc' | unlockSet hon' hpc' | unlockRel hon' hpc' =>
    exact hno hon' rfl hpc' rfl

/-- The place at which `sleep` begins: its lock may be `ptable.lock`, which the thread then has. -/
def entry : Nap → Pc
  | .wait => .napSet .wait
  | nap => .napAcq nap

/-- Something has made the sleeping process `RUNNABLE`. -/
def Roused (p : Nat) (s s' : State) : Prop := (s.procs p).state = .sleeping ∧ (s'.procs p).state = .runnable

def Takes (p : Nat) (nap : Nap) (s s' : State) : Prop :=
  match nap.lock with
  | some lk => ∃ q, q ≠ p ∧ s.spins lk ≠ some q ∧ s'.spins lk = some q
  | none => s.ptable = none ∧ s'.ptable ≠ none

/-- The states after process `p` has called `sleep`, as long as the steps are `ok`; the flag says
whether another process has taken the lock since. -/
inductive Watch (n p : Nat) (nap : Nap) (ok : State → State → Prop) : Bool → State → Prop
  | call {s s' : State} {a : Act} (h : Reachable (kernel n) s) (hstep : Step n s a s')
      (hpc : (s.procs p).pc = nap.back) (hpc' : (s'.procs p).pc = entry nap) : Watch n p nap ok false s'
  | step {b : Bool} {s s' : State} {a : Act} (h : Watch n p nap ok b s) (hstep : Step n s a s') (hok : ok s s') :
      Watch n p nap ok b s'
  | take {b : Bool} {s s' : State} {a : Act} (h : Watch n p nap ok b s) (hstep : Step n s a s') (hok : ok s s')
      (htakes : Takes p nap s s') : Watch n p nap ok true s'

theorem Watch.reachable (h : Watch n p nap ok b s) : Reachable (kernel n) s := by
  induction h with
  | call h hstep => exact h.next hstep
  | step _ hstep _ ih | take _ hstep _ _ ih => exact ih.next hstep

/-- Where the process is: it still has the lock, which nobody else can have taken; it has
`ptable.lock`; or it is asleep. -/
inductive Phase (p : Nat) (nap : Nap) (b : Bool) (s : State) : Prop
  | locked (hb : b = false) (hlock : nap.lock ≠ none)
      (hpc : (s.procs p).pc = .napAcq nap ∨ (s.procs p).pc = .napDrop nap)
  | settling (hpc : (s.procs p).pc = .napSet nap ∨ (s.procs p).pc = .napSched nap)
  | asleep (hpc : (s.procs p).pc = .napWoken nap) (hst : (s.procs p).state = .sleeping)

/-- A thread in the first half of `sleep` is executed, and so `RUNNING` or on its way off. -/
theorem executes_nap (hb : Base s) (hpc : napNext (s.procs p).pc ≠ none) :
    (s.procs p).state = .running ∨ (s.procs p).state = .sleeping := by
  have hplace : parks (s.procs p).pc = false := by
    cases hq : (s.procs p).pc <;> rw [hq] at hpc <;> first | rfl | exact absurd rfl hpc
  obtain ⟨c, hon⟩ := executes_of_place hb hplace
  rw [hb.thread c p hon]
  cases hq : (s.procs p).pc <;> rw [hq] at hpc <;> first | exact .inl rfl | exact .inr rfl | exact absurd rfl hpc

/-- One step through the first half of `sleep`. -/
theorem nap_step {a : Act} {pc : Pc} (ht : Table s) (hnext : napNext (s.procs p).pc = some pc)
    (hstep : Step n s a s') :
    (s'.procs p).pc = (s.procs p).pc ∨
    (s'.procs p).pc = pc ∧ (parks pc = true → (s'.procs p).state = (s.procs p).state) := by
  have hst := executes_nap (p := p) ht.base (by simp [hnext])
  rcases other_step ht hst hstep with ⟨c, hon, hcpu⟩ | hleft
  · exact .inr (own_step hon hcpu hnext hstep)
  · exact .inl hleft.1

theorem Phase.next {a : Act} (h : Phase p nap b s) (hs : Sound n s) (hstep : Step n s a s')
    (hok : ¬ Roused p s s') :
    Phase p nap b s' := by
  cases h with
  | locked hb hlock hpc =>
    rcases hpc with hpc | hpc
    · rcases nap_step hs.table (by rw [hpc]; rfl) hstep with e | ⟨e, -⟩
      · exact .locked hb hlock (.inl (e.trans hpc))
      · exact .locked hb hlock (.inr e)
    · rcases nap_step hs.table (by rw [hpc]; rfl) hstep with e | ⟨e, -⟩
      · exact .locked hb hlock (.inr (e.trans hpc))
      · exact .settling (.inl e)
  | settling hpc =>
    rcases hpc with hpc | hpc
    · rcases nap_step hs.table (by rw [hpc]; rfl) hstep with e | ⟨e, -⟩
      · exact .settling (.inl (e.trans hpc))
      · exact .settling (.inr e)
    · rcases nap_step hs.table (by rw [hpc]; rfl) hstep with e | ⟨e, hst⟩
      · exact .settling (.inr (e.trans hpc))
      · obtain ⟨c, hon⟩ := executes_of_place hs.table.base (p := p) (by rw [hpc]; rfl)
        refine .asleep e ((hst rfl).trans ?_)
        rw [hs.table.base.thread c p hon, hpc]
        rfl
  | asleep hpc hst =>
    rcases other_step hs.table (.inr hst) hstep with ⟨c, hon, -⟩ | ⟨hpc', hst'⟩
    · have := hs.table.base.thread c p hon
      rw [hpc, hst] at this
      cases this
    · rcases hst' with e | ⟨-, e⟩
      · exact .asleep (hpc'.trans hpc) (e.trans hst)
      · exact absurd ⟨hst, e⟩ hok

/-- Nobody takes the lock while the process still has it. -/
theorem Phase.take (h : Phase p nap b s') (hs : Sound n s') (htakes : Takes p nap s s') : Phase p nap true s' := by
  cases h with
  | settling hpc => exact .settling hpc
  | asleep hpc hst => exact .asleep hpc hst
  | locked hb hlock hpc =>
    cases hlk : nap.lock with
    | none => exact absurd hlk hlock
    | some lk =>
      rw [Takes, hlk] at htakes
      obtain ⟨q, hq, -, hspin⟩ := htakes
      have hheld : s'.spins lk = some p := hs.locks.spins.held p lk
        (by rcases hpc with e | e <;> rw [e] <;> exact hlk)
      exact absurd (Option.some.inj (hspin.symm.trans hheld)) hq

theorem Watch.phase (h : Watch n p nap (fun s s' => ¬ Roused p s s') b s) : Phase p nap b s := by
  induction h with
  | call h hstep hpc hpc' =>
    cases nap with
    | wait => exact .settling (.inl hpc')
    | acquiresleep l => exact .locked rfl (by rintro ⟨⟩) (.inl hpc')
    | code chan lk => exact .locked rfl (by rintro ⟨⟩) (.inl hpc')
  | step hw hstep hok ih => exact ih.next (sound_reach hw.reachable) hstep hok
  | take hw hstep hok htakes ih =>
    exact (ih.next (sound_reach hw.reachable) hstep hok).take (sound_reach (hw.reachable.next hstep)) htakes

/-- The scan of `wakeup`. -/
theorem wake_go {w : Wake} (hon : (s.cpus c).on = .thread q) (hpc : (s.procs q).pc = .wakeScan w)
    (hstep : Step n s (.go c) s') : s' = (wakeup1 s w.chan).setPc q (.wakeRel w) := by
  have hsame : ∀ {p'}, (s.cpus c).on = .thread p' → p' = q := fun h => by simpa [hon] using h.symm
  cases hstep with
  | wakeScan hon' hpc' =>
    obtain rfl := hsame hon'
    obtain ⟨⟩ := hpc'.symm.trans hpc
    rfl
  | lock hon' hpc' | unlock hon' hpc' | swtch hon' hpc' =>
    rw [hsame hon', hpc] at hpc'
    cases hpc'
  | _ => simp_all

/-- Whoever has `ptable.lock` finds the process asleep on its channel. -/
theorem Watch.asleep (h : Watch n p nap (fun s s' => ¬ Roused p s s') true s) (hon : (s.cpus c).on = .thread q)
    (hholds : (s.procs q).pc.holds = true) (hq : p ≠ q) :
    (s.procs p).state = .sleeping ∧ (s.procs p).chan = some (nap.chan p) := by
  have hs := sound_reach h.reachable
  cases h.phase with
  | locked hb => cases hb
  | settling hpc =>
    obtain ⟨c', hon'⟩ := executes_of_place hs.table.base (p := p) (by rcases hpc with e | e <;> rw [e] <;> rfl)
    have hholds' : (s.procs p).pc.holds = true := by rcases hpc with e | e <;> rw [e] <;> rfl
    exact absurd hon' (hs.table.base.lock_self hon hholds hq c' ((hs.table.base.holder hon').mpr hholds'))
  | asleep hpc hst =>
    obtain ⟨nap', hnap, hchan⟩ := (hs.family.member p).naps hst
    obtain rfl : nap' = nap := by simpa [hpc, eq_comm] using hnap
    exact ⟨hst, hchan⟩

structure SleepSound (n : Nat) : Prop where
  wakeup : ∀ p nap s, Watch n p nap (fun s s' => ¬ Roused p s s') true s →
    ∀ c q w s', Executes s c q → (s.procs q).pc = .wakeScan w → w.chan = nap.chan p → Step n s (.go c) s' →
      ((s.procs p).state = .sleeping ∧ (s.procs p).chan = some w.chan) ∧ (s'.procs p).state = .runnable
  mutex : ∀ s, Reachable (kernel n) s → ∀ l p q, s.inside p l = true → s.inside q l = true → p = q
  free : ∀ s, Reachable (kernel n) s → ∀ l, s.locked l = false → s.spins (.sleepLock l) = none →
    ∀ p, (s.procs p).state = .sleeping → (s.procs p).chan ≠ some (.sleepLock l)

theorem sleep_sound (n : Nat) : SleepSound n := by
  refine ⟨fun p nap s hw c q w s' hon hpc hchan hstep => ?_, fun s hs l p q hp hq =>
    ?_, fun s hs l hl hspin p hst hchan => ?_⟩
  · have hs := sound_reach hw.reachable
    have hne : p ≠ q := by
      rintro rfl
      have hphase := hw.phase
      cases hphase with
      | locked hb => cases hb
      | settling h => rcases h with e | e <;> simp [hpc] at e
      | asleep e => simp [hpc] at e
    obtain ⟨hst, hch⟩ := hw.asleep hon (by rw [hpc]; rfl) hne
    rw [← hchan] at hch
    refine ⟨⟨hst, hch⟩, ?_⟩
    rw [wake_go hon hpc hstep]
    simp [hne, wakeup1, Proc.wake, hst, hch]
  · exact ((sound_reach hs).locks.owners.inside q l hq).2.1 p hp
  · have hsound := sound_reach hs
    obtain ⟨nap, hnap, hch⟩ := (hsound.family.member p).naps hst
    obtain rfl : nap = .acquiresleep l := by
      rw [hchan] at hch
      cases nap <;> simp [Nap.chan] at hch ⊢
      exact hch.symm
    have hdrowsy : Drowsy (s.procs p) l := by
      rcases hnap with e | e <;> exact ⟨by rw [e]; rfl, fun _ => hst⟩
    rcases hsound.locks.drowsy p l hdrowsy with e | ⟨q, hq⟩
    · simp [hl] at e
    · have hheld : s.spins (.sleepLock l) = some q := by
        refine hsound.locks.spins.held q _ ?_
        cases hpc : (s.procs q).pc with
        | wakeAcq w | wakeScan w => cases w <;> simp_all [wakes, spin]
        | _ => simp [hpc, wakes] at hq
      simp [hspin] at hheld

/-- The first process sleeps on channel 5 with the lock, and its child comes to `wakeup` with it. -/
theorem exists_wakeup (ok : State → State → Prop) (hok : ∀ s s', (s'.procs 0).state ≠ .runnable → ok s s') :
    ∃ s, Watch 64 0 (.code 5 7) ok true s ∧ Executes s 0 1 ∧ (s.procs 1).pc = .wakeScan (.code (.other 5)) ∧
      (s.procs 0).state = .sleeping ∧ (s.procs 0).chan = some (.other 5) := by
  have h₀ : Reachable (kernel 64) forked :=
    reach_forked (by decide) (fun _ => trivial) (fun _ => trivial) (fun _ => trivial)
  have h₁ := reach_next (a := .acquire 0 7) h₀ (.acquire (p := 0) rfl rfl rfl)
  have hlocks : ∀ lk, update (update (fun _ => none) (Spin.other 7) (some 0))
      (.other 7) none lk ≠ some 0 := by
    intro lk
    by_cases hlk : lk = .other 7 <;> simp [hlk]
  have w₁ : Watch 64 0 (.code 5 7) ok false _ := .call (a := .sleep 0 5 7) h₁ (.sleep rfl rfl rfl) rfl rfl
  have w₂ := w₁.step (.lock (c := 0) (p := 0) rfl rfl rfl) (hok _ _ (by rintro ⟨⟩))
  have w₃ := w₂.step (.napDrop (c := 0) (p := 0) rfl rfl rfl) (hok _ _ (by rintro ⟨⟩))
  have w₄ := w₃.step (.napSet (c := 0) (p := 0) rfl rfl) (hok _ _ (by simp))
  have w₅ := w₄.step (.swtch (c := 0) (p := 0) rfl rfl hlocks) (hok _ _ (by simp))
  have w₆ := w₅.step (.schedBack (c := 0) (i := 0) rfl) (hok _ _ (by simp))
  have w₇ := w₆.step (.schedPick (c := 0) (i := 1) rfl (by decide) rfl) (hok _ _ (by simp))
  have w₈ := w₇.step (.schedRun (c := 0) (i := 1) rfl) (hok _ _ (by simp))
  have w₉ := w₈.step (.schedEnter (c := 0) (i := 1) rfl) (hok _ _ (by simp))
  have w₁₀ := w₉.step (.unlock (c := 0) (p := 1) rfl rfl) (hok _ _ (by simp))
  have w₁₁ := w₁₀.take (a := .acquire 0 7) (.acquire (p := 1) rfl rfl rfl) (hok _ _ (by simp))
    ⟨1, by simp, by rintro ⟨⟩, rfl⟩
  have w₁₂ := w₁₁.step (.call (c := 0) (p := 1) (f := .wakeup (.other 5)) rfl rfl rfl (by simp))
    (hok _ _ (by simp))
  exact ⟨_, w₁₂, rfl, rfl, rfl, rfl⟩

theorem sleep_sound_wakes : ∃ s s', Watch 64 0 (.code 5 7) (fun s s' => ¬ Roused 0 s s') true s ∧
    Step 64 s (.go 0) s' ∧ (s.procs 0).state = .sleeping ∧ (s'.procs 0).state = .runnable := by
  obtain ⟨s, hw, hon, hpc, hst, -⟩ := exists_wakeup (fun s s' => ¬ Roused 0 s s') fun s s' h hr => h hr.2
  have hstep : Step 64 s (.go 0) _ := .wakeScan hon hpc
  exact ⟨s, _, hw, hstep, hst, ((sleep_sound 64).wakeup 0 (.code 5 7) s hw 0 1 _ _ hon hpc rfl hstep).2⟩

/-- The child calls `wakeup` twice with the lock, and the second finds the sleeper `RUNNABLE`. -/
theorem second_wakeup : ∃ s, Watch 64 0 (.code 5 7) (fun _ _ => True) true s ∧ Executes s 0 1 ∧
    (s.procs 1).pc = .wakeScan (.code (.other 5)) ∧ (s.procs 0).state = .runnable := by
  obtain ⟨s, hw, hon, hpc, hst, hchan⟩ := exists_wakeup (fun _ _ => True) fun _ _ _ => trivial
  have w₁ := hw.step (.wakeScan (c := 0) (p := 1) hon hpc) trivial
  have w₂ := w₁.step (.unlock (c := 0) (p := 1) hon rfl) trivial
  have w₃ := w₂.step (.call (c := 0) (p := 1) (f := .wakeup (.other 5)) hon rfl rfl (by simp)) trivial
  refine ⟨_, w₃, hon, rfl, ?_⟩
  simp [wakeup1, Proc.wake, hst, hchan, Wake.chan]

end Xv6.SleepWake
