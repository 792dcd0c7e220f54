import Xv6.ExitWait
import Xv6.SleepLock

/-!
# Sleep locks in every run

Every step keeps what was said of the sleep locks. The one that matters is the `wakeup` of
`releasesleep`: it runs with both locks held, so that whoever sleeps for the lock is off its
processor, on the right channel, and is woken.
-/
namespace Xv6.SleepLockStep

open Interleaving ProcTable Scheduler ForkSlots Parents ExitWait SleepLock Function

variable {pc pc₀ : Pc} {x y : Proc} {lk : Spin}

variable {n c p q l : Nat} {s s' : State}

theorem still_acquire (h : x.pc.afterAcquire = some pc) : Still x { x with pc := pc } := by
  obtain ⟨st, pid, par, ch, kd, ks, sv, pc₀⟩ := x
  cases pc₀ with
  | napAcq nap => cases nap <;> cases h <;> exact ⟨rfl, rfl, rfl, fun l hd => ⟨hd.1, by rintro ⟨⟩⟩⟩
  | wakeAcq w => cases w <;> cases h <;> exact ⟨rfl, rfl, rfl, fun l hd => ⟨hd.1, by rintro ⟨⟩⟩⟩
  | _ => cases h

theorem still_release (h : x.pc.afterRelease = some pc) : Still x { x with pc := pc } := by
  obtain ⟨st, pid, par, ch, kd, ks, sv, pc₀⟩ := x
  cases pc₀ with
  | allocRel np => cases np <;> cases h <;> exact still_of_plain ⟨rfl, rfl, rfl⟩ ⟨rfl, rfl, rfl⟩ rfl
  | wakeRel w => cases w <;> cases h <;> exact ⟨rfl, rfl, rfl, fun l hd => ⟨hd.1, by rintro ⟨⟩⟩⟩
  | _ => cases h <;> exact still_of_plain ⟨rfl, rfl, rfl⟩ ⟨rfl, rfl, rfl⟩ rfl

theorem still_swtch (h : x.pc.afterSwtch = some pc) :
    Still x { x with pc := pc, saved := true } := by
  obtain ⟨st, pid, par, ch, kd, ks, sv, pc₀⟩ := x
  cases pc₀ with
  | napSched nap => cases nap <;> cases h <;> exact ⟨rfl, rfl, rfl, fun l hd => ⟨hd.1, by rintro ⟨⟩⟩⟩
  | _ => cases h <;> exact still_of_plain ⟨rfl, rfl, rfl⟩ ⟨rfl, rfl, rfl⟩ rfl

theorem plain_enter (f : Call) : Plain f.enter ∧ sleepsFor f.enter = none := by
  cases f <;> exact ⟨⟨rfl, rfl, rfl⟩, rfl⟩

/-- Whoever sleeps for a lock while another thread scans with `ptable.lock` and the spin lock held
is off its processor, on the channel of the lock. -/
theorem drowsy_off (h : Spins s) (hbase : Base s) (hfam : Family n s)
    (hon : (s.cpus c).on = .thread p) (hpc : (s.procs p).pc = .wakeScan (.releasesleep l))
    (hq : q ≠ p) (hd : Drowsy (s.procs q) l) :
    (s.procs q).pc = .napWoken (.acquiresleep l) ∧ (s.procs q).state = .sleeping ∧
    (s.procs q).chan = some (.sleepLock l) := by
  have hscan : ∀ pc, parks pc = false → pc.holds = true → (s.procs q).pc ≠ pc :=
    fun pc => not_at hbase hon (by rw [hpc]; rfl) hq
  have hplace : (s.procs q).pc = .napWoken (.acquiresleep l) := by
    have hfor := hd.1
    cases hq' : (s.procs q).pc with
    | napAcq nap | napDrop nap =>
      cases nap <;> simp [hq', sleepsFor] at hfor
      have hheld := h.held q (.sleepLock l) (by rw [hq', hfor]; rfl)
      exact absurd (Option.some.inj (hheld.symm.trans (h.held p _ (by rw [hpc]; rfl)))) hq
    | napSet nap | napSched nap => exact absurd hq' (hscan _ rfl rfl)
    | napWoken nap =>
      cases nap <;> simp [hq', sleepsFor] at hfor
      rw [hfor]
    | _ => simp [hq', sleepsFor] at hfor
  have hst := hd.2 (by rw [hplace]; rfl)
  obtain ⟨nap, hnap, hchan⟩ := (hfam.member q).naps hst
  obtain rfl : nap = .acquiresleep l := by simpa [hplace, eq_comm] using hnap
  exact ⟨hplace, hst, hchan⟩

/-- `releasesleep` wakes everyone who sleeps for the lock. -/
theorem locks_scan (h : SleepLocks s) (hbase : Base s) (hfam : Family n s)
    (hon : (s.cpus c).on = .thread p) (hpc : (s.procs p).pc = .wakeScan (.releasesleep l))
    (hprocs : s'.procs =
      ((wakeup1 s (.sleepLock l)).setPc p (.wakeRel (.releasesleep l))).procs)
    (hspins : s'.spins = s.spins) (hlocked : s'.locked = s.locked)
    (hinside : s'.inside = s.inside) : SleepLocks s' := by
  have hself := setPc_self hprocs
  have hother : ∀ q, q ≠ p → s'.procs q = (s.procs q).wake (.sleepLock l) :=
    fun q hq => setPc_other hprocs hq
  have hsame : ∀ q, spin (s'.procs q).pc = spin (s.procs q).pc ∧
      owns (s'.procs q).pc = owns (s.procs q).pc := by
    intro q
    by_cases hq : q = p
    · subst hq
      rw [hself, hpc]
      exact ⟨rfl, rfl⟩
    · rw [hother q hq, wake_pc]
      exact ⟨rfl, rfl⟩
  refine ⟨h.spins.same (fun q => (hsame q).1) hspins,
    h.owners.same (fun q k hq => (hsame q).2 ▸ hq) hlocked hinside, fun q k hq => ?_⟩
  have hqp : q ≠ p := by
    rintro rfl
    simp [Drowsy, hself, sleepsFor] at hq
  rw [hother q hqp] at hq
  have hold := (Still.wake _ _).drowsy k hq
  have hk : k ≠ l := by
    rintro rfl
    obtain ⟨hplace, hst, hchan⟩ := drowsy_off h.spins hbase hfam hon hpc hqp hold
    simpa [Proc.wake, hst, hchan] using hq.2 (by rw [wake_pc, hplace]; rfl)
  rw [hlocked]
  refine (h.drowsy q k hold).imp id ?_
  rintro ⟨r, hr⟩
  have hrp : r ≠ p := by
    rintro rfl
    exact hk (by simpa [hpc, wakes, eq_comm] using hr)
  exact ⟨r, by rw [hother r hrp, wake_pc, hr]⟩

theorem setPc_eq (h : (s.procs p).pc = pc) : s.procs = (s.setPc p pc).procs := by
  subst h
  exact (update_eq_self p s.procs).symm

theorem exitBody_locks (s : State) (p n : Nat) : (exitBody s p n).spins = s.spins ∧
    (exitBody s p n).locked = s.locked ∧ (exitBody s p n).inside = s.inside := by
  simp only [exitBody, reparent]
  cases (s.procs p).parent <;> split <;> exact ⟨rfl, rfl, rfl⟩

theorem locks_exit (h : SleepLocks s) (hpc : (s.procs p).pc = .exitBody)
    (hrun : (s.procs p).state = .running) : SleepLocks (exitBody s p n) := by
  obtain ⟨hspins, hlocked, hinside⟩ := exitBody_locks s p n
  classical
  refine h.still (fun q => ?_) hspins hlocked hinside
  by_cases hq : q = p
  · subst hq
    rw [exitBody_self s q n hrun]
    exact still_of_plain (hpc ▸ ⟨rfl, rfl, rfl⟩) ⟨rfl, rfl, rfl⟩ rfl
  · rw [exitBody_other s n hq]
    refine Still.of_pc rfl fun hst => ?_
    by_cases hw : exitWakes s p n q
    · simp [hw] at hst
    · simpa [hw] using hst

/-- Another process changes beside the move of the thread. -/
theorem locks_pair (h : SleepLocks s)
    (hpc : ((s.setProc q y).procs p).pc = pc₀)
    (hprocs : s'.procs = ((s.setProc q y).setPc p pc).procs) (hy : Still (s.procs q) y)
    (hspins : s'.spins = s.spins) (hlocked : s'.locked = s.locked)
    (hinside : s'.inside = s.inside) (hx : Plain pc₀) (hp : Plain pc) (hs : sleepsFor pc = none) :
    SleepLocks s' := by
  have hset : SleepLocks (s.setProc q y) := h.set rfl hy rfl rfl rfl
  exact hset.goto hpc hprocs hspins hlocked hinside hx hp hs

theorem plain_of_parks (h : parks pc = true) : Plain pc := by
  cases pc <;> first | exact ⟨rfl, rfl, rfl⟩ | cases h

theorem plain_woken (nap : Nap) : Plain (if nap = .wait then nap.back else .napRel nap) ∧
    sleepsFor (if nap = .wait then nap.back else .napRel nap) = none := by
  split
  · rename_i e
    subst e
    exact ⟨⟨rfl, rfl, rfl⟩, rfl⟩
  · exact ⟨⟨rfl, rfl, rfl⟩, rfl⟩

/-- The thread of a `fork` and its child. -/
theorem fork_pc {np : Nat} (ht : Table s) (hon : (s.cpus c).on = .thread p)
    (hpc : (s.procs p).pc = pc₀) (hb : builds pc₀ = some np) :
    ((s.setProc np y).procs p).pc = pc₀ := by
  have hne : p ≠ np := fun e => ht.base.born hon (e ▸ ht.births.embryo_of hpc hb)
  simpa [hne] using hpc

theorem locks_kill {pid : BitVec 32} (h : SleepLocks s) (hpc : (s.procs p).pc = .killScan pid) :
    SleepLocks ((s.setProc q (s.procs q).kill).setPc p (.killRel 0)) := by
  have hself : ((s.setProc q (s.procs q).kill).procs p).pc = .killScan pid := by
    by_cases hq : p = q
    · subst hq
      simpa [Proc.kill] using hpc
    · simpa [hq] using hpc
  refine locks_pair h hself rfl (Still.of_pc rfl fun hst => ?_) rfl rfl rfl ⟨rfl, rfl, rfl⟩
    ⟨rfl, rfl, rfl⟩ rfl
  by_contra hno
  simp [Proc.kill, hno] at hst

/-- A thread lets go of the spin lock that goes with its place. -/
theorem locks_drop (h : SleepLocks s) (hpc₀ : (s.procs p).pc = pc₀)
    (hlk : spin pc₀ = some lk) (hpc : spin pc = none ∧ owns pc = none) (hwakes : wakes pc₀ = none)
    (hdrowsy : ∀ l, sleepsFor pc = some l → sleepsFor pc₀ = some l) (hparks : parks pc₀ = false) :
    SleepLocks ((s.setSpin lk none).setPc p pc) := by
  have hheld := h.spins.held p lk (by rw [hpc₀, hlk])
  exact h.pass hpc₀ rfl rfl rfl rfl (fun q hq e => hq (Option.some.inj (e.symm.trans hheld)))
    (fun lk' hne e => hne (Option.some.inj (e.symm.trans hlk))) (.inl hpc.1) (.inl rfl) hpc.2 hwakes hdrowsy
    hparks

/-- `sleep` takes its lock again. -/
theorem locks_napTake {nap : Nap} (h : SleepLocks s)
    (hpc : (s.procs p).pc = .napTake nap) (hlk : nap.lock = some lk) (hfree : s.spins lk = none) :
    SleepLocks ((s.setSpin lk (some p)).setPc p nap.back) := by
  cases nap with
  | wait => cases hlk
  | acquiresleep l =>
    cases hlk
    exact h.pass hpc rfl rfl rfl rfl (fun q _ => by simp [hfree]) (by rintro _ _ ⟨⟩)
      (.inr ⟨rfl, rfl⟩) (.inr ⟨rfl, .inl rfl⟩) rfl rfl (by rintro _ ⟨⟩) rfl
  | code chan k =>
    cases hlk
    exact h.pass hpc rfl rfl rfl rfl (fun q _ => by simp [hfree]) (by rintro _ _ ⟨⟩)
      (.inl rfl) (.inr ⟨rfl, .inr (by simp)⟩) rfl rfl (by rintro _ ⟨⟩) rfl

theorem locks_wakes {w : Wake} (h : SleepLocks s) (hbase : Base s) (hfam : Family n s)
    (hon : (s.cpus c).on = .thread p) (hpc : (s.procs p).pc = .wakeScan w) :
    SleepLocks ((wakeup1 s w.chan).setPc p (.wakeRel w)) := by
  cases w with
  | releasesleep l => exact locks_scan h hbase hfam hon hpc rfl rfl rfl rfl
  | code chan =>
    have hwoken : SleepLocks (wakeup1 s chan) := h.still (fun _ => Still.wake _ _) rfl rfl rfl
    have hpc' : ((wakeup1 s chan).procs p).pc = .wakeScan (.code chan) := by
      simpa [wakeup1] using hpc
    exact hwoken.goto hpc' rfl rfl rfl rfl ⟨rfl, rfl, rfl⟩ ⟨rfl, rfl, rfl⟩ rfl

theorem locks_step {a : Act} (ht : Table s) (hfam : Family n s) (h : SleepLocks s)
    (hstep : Step n s a s') : SleepLocks s' := by
  have hrun : ∀ {c p pc}, (s.cpus c).on = .thread p → (s.procs p).pc = pc →
      pc.ownState = .running → (s.procs p).state = .running := by
    rintro c p _ hon rfl hown
    exact ht.base.running hon hown
  cases hstep with
  | schedAcquire | schedSkip | schedPick | schedBack | schedRelease =>
    exact h.still (fun _ => Still.refl _) rfl rfl rfl
  | schedRun hon => exact h.set rfl (Still.of_pc rfl (by simp)) rfl rfl rfl
  | schedEnter hon => exact h.set rfl (Still.of_pc rfl id) rfl rfl rfl
  | @call c p f hon hpc =>
    exact h.goto hpc rfl rfl rfl rfl ⟨rfl, rfl, rfl⟩ (plain_enter f).1 (plain_enter f).2
  | lock hon hpc => exact h.set rfl (still_acquire hpc) rfl rfl rfl
  | unlock hon hpc => exact h.set rfl (still_release hpc) rfl rfl rfl
  | swtch hon hpc => exact h.set rfl (still_swtch hpc) rfl rfl rfl
  | @allocFound c p np hon hpc hfound =>
    have hst : (s.procs np).state = .unused := by simpa using mem_slot hfound
    have hne : p ≠ np := fun e => by simp [← e, hrun hon hpc rfl] at hst
    exact locks_pair h (by simpa [hne] using hpc) rfl (Still.of_pc rfl (by simp)) rfl rfl rfl
      ⟨rfl, rfl, rfl⟩ ⟨rfl, rfl, rfl⟩ rfl
  | allocStack hon hpc =>
    have hf := ht.base.free_of_unborn (.inr (ht.births.embryo_of hpc rfl))
    exact locks_pair h (fork_pc ht hon hpc rfl) rfl
      (still_of_plain (plain_of_parks (ht.base.parked_of_free hf).place) ⟨rfl, rfl, rfl⟩ rfl)
      rfl rfl rfl ⟨rfl, rfl, rfl⟩ ⟨rfl, rfl, rfl⟩ rfl
  | stackFail hon hpc | copyFail hon hpc | forkRun hon hpc =>
    exact locks_pair h (fork_pc ht hon hpc rfl) rfl (Still.of_pc rfl (by simp)) rfl rfl rfl
      ⟨rfl, rfl, rfl⟩ ⟨rfl, rfl, rfl⟩ rfl
  | forkParent hon hpc =>
    exact locks_pair h (fork_pc ht hon hpc rfl) rfl (Still.of_pc rfl id) rfl rfl rfl
      ⟨rfl, rfl, rfl⟩ ⟨rfl, rfl, rfl⟩ rfl
  | exitBody hon hpc => exact locks_exit h hpc (hrun hon hpc rfl)
  | @waitReap c p q hon hpc hfound =>
    have hq := (zombie_of_slot hfound).2
    have hne : p ≠ q := fun e => by simp [← e, hrun hon hpc rfl] at hq
    exact locks_pair h (by simpa [hne] using hpc) rfl (Still.of_pc rfl (by rintro ⟨⟩)) rfl rfl rfl
      ⟨rfl, rfl, rfl⟩ ⟨rfl, rfl, rfl⟩ rfl
  | killFound hon hpc => exact locks_kill h hpc
  | yieldSet hon hpc =>
    exact h.set rfl (still_of_plain (hpc ▸ ⟨rfl, rfl, rfl⟩) ⟨rfl, rfl, rfl⟩ rfl) rfl rfl rfl
  | @napDrop c p nap lk hon hpc hlk =>
    exact locks_drop h hpc hlk ⟨rfl, rfl⟩ rfl (fun l e => by cases nap <;> exact e) rfl
  | @napSet c p nap hon hpc =>
    refine h.set rfl ⟨by rw [hpc]; rfl, by rw [hpc]; rfl, by rw [hpc]; rfl, fun l hd => ?_⟩ rfl rfl rfl
    rw [Drowsy, hpc]
    cases nap <;> exact ⟨hd.1, by rintro ⟨⟩⟩
  | @napWoken c p nap hon hpc =>
    exact h.set rfl (still_of_plain (hpc ▸ ⟨rfl, rfl, rfl⟩) (plain_woken nap).1 (plain_woken nap).2)
      rfl rfl rfl
  | napTake hon hpc hlk hfree => exact locks_napTake h hpc hlk hfree
  | wakeScan hon hpc => exact locks_wakes h ht.base hfam hon hpc
  | intr => exact h.still (fun _ => Still.wake _ _) rfl rfl rfl
  | acquire hon hpc hfree =>
    exact h.pass hpc (setPc_eq hpc) rfl rfl rfl (fun q _ => by simp [hfree]) (by rintro _ _ ⟨⟩)
      (.inl rfl) (.inr ⟨rfl, .inr (by simp)⟩) rfl rfl (by simp) rfl
  | release hon hpc hheld =>
    exact h.pass hpc (setPc_eq hpc) rfl rfl rfl
      (fun q hq e => hq (Option.some.inj (e.symm.trans hheld))) (by rintro _ _ ⟨⟩) (.inl rfl)
      (.inl rfl) rfl rfl (by simp) rfl
  | @sleep c p chan lk hon hpc hheld =>
    have hspins : s.spins = update s.spins (.other lk) (some p) := by
      rw [← hheld, update_eq_self]
    exact h.pass hpc rfl hspins rfl rfl (fun q hq e => hq (Option.some.inj (e.symm.trans hheld)))
      (by rintro _ _ ⟨⟩) (.inr ⟨rfl, rfl⟩) (.inr ⟨rfl, .inl rfl⟩) rfl rfl (by rintro _ ⟨⟩) rfl
  | acquiresleep hon hpc hfree =>
    exact h.pass hpc rfl rfl rfl rfl (fun q _ => by simp [hfree]) (by rintro _ _ ⟨⟩)
      (.inr ⟨rfl, rfl⟩) (.inr ⟨rfl, .inl rfl⟩) rfl rfl (by rintro _ ⟨⟩) rfl
  | lockBusy hon hpc hl => exact h.busy hpc hl rfl rfl rfl rfl
  | lockTake hon hpc hl => exact h.take hpc hl rfl rfl rfl rfl
  | lockRel hon hpc => exact h.enter hpc rfl rfl rfl rfl
  | releasesleep hon hpc hin hfree => exact h.leave hpc hin hfree rfl rfl rfl rfl
  | unlockSet hon hpc => exact h.unlock hpc rfl rfl rfl rfl
  | unlockRel hon hpc => exact locks_drop h hpc rfl ⟨rfl, rfl⟩ rfl (by rintro _ ⟨⟩) rfl
  | allocNone hon hpc | forkCopy hon hpc | waitNone hon hpc | waitSleep hon hpc | killNone hon hpc =>
    exact h.goto hpc rfl rfl rfl rfl ⟨rfl, rfl, rfl⟩ ⟨rfl, rfl, rfl⟩ rfl

theorem locks_initial : SleepLocks initial := by
  have hplain : ∀ p, Plain (initial.procs p).pc ∧ sleepsFor (initial.procs p).pc = none := by
    intro p
    rcases initial_slot p with e | e <;> rw [e] <;> exact ⟨⟨rfl, rfl, rfl⟩, rfl⟩
  refine ⟨⟨fun p lk hp => ?_, by rintro _ _ ⟨⟩⟩, ⟨by rintro _ _ ⟨⟩, fun p l hp => ?_⟩, fun p l hp => ?_⟩
  · simp [(hplain p).1.1] at hp
  · simp [(hplain p).1.2.1] at hp
  · simp [Drowsy, (hplain p).2] at hp

structure Sound (n : Nat) (s : State) : Prop where
  table : Table s
  family : Family n s
  locks : SleepLocks s

theorem sound_reach (h : Reachable (kernel n) s) : Sound n s := by
  refine Reachable.invariant (I := Sound n) h (fun s hs => ?_) (fun s a s' hI hs => ?_)
  · rw [show s = initial from hs]
    exact ⟨table_initial, family_initial n, locks_initial⟩
  · exact ⟨hI.table.step hs, family_step hI.table hI.family hs, locks_step hI.table hI.family hI.locks hs⟩

end Xv6.SleepLockStep
