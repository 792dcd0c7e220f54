import Xv6.Parents

/-!
# Who is killed

`kill` compares pids without looking at the state of the slot, and `killed` is cleared only when
`wait` frees a slot. A slot that was never used or was reaped has pid 0, and a `fork` that fails
leaves its pid and its `killed` behind.
-/
namespace Xv6.Kill

open Interleaving ProcTable Scheduler ForkSlots Parents

variable {pc pc₀ : Pc} {y x : Proc} {pid : BitVec 32} {a : Act}

variable {n c p q : Nat} {s s' : State}

/-- `kill` was called with the pid after slot `p` was last allocated. -/
def KilledSince (p : Nat) (pid : BitVec 32) : List Event → Prop
  | [] => False
  | .kill pid' :: log => pid' = pid ∨ KilledSince p pid log
  | .alloc q _ :: log => q ≠ p ∧ KilledSince p pid log
  | _ :: log => KilledSince p pid log

/-- No `kill` of pid 0 or of the pid that a failed `fork` has left in its slot, and no failure of a
`fork` after its half-made child was killed. -/
def Careful (s : State) : Act → Prop
  | .call _ (.kill pid) => pid ≠ 0 ∧ ∀ p, (s.procs p).state = .unused → (s.procs p).pid ≠ pid
  | .fail c => ∀ p np, (s.cpus c).on = .thread p → builds (s.procs p).pc = some np →
      ¬ KilledSince np (s.procs np).pid s.log
  | _ => True

/-- What holds of the mark of process `p`. -/
structure Mark (log : List Event) (p : Nat) (x : Proc) : Prop where
  unused : x.state = .unused → x.killed = false
  embryo : x.state = .embryo → x.killed = true → KilledSince p x.pid log

structure Marks (s : State) : Prop where
  mark : ∀ p, Mark s.log p (s.procs p)
  scan : ∀ p pid, (s.procs p).pc = .killScan pid → ∀ q, (s.procs q).pid = pid →
    (s.procs q).state ≠ .unused ∧ ((s.procs q).state = .embryo → KilledSince q pid s.log)

/-- What a step may do to a process without touching the marks. -/
structure Calm (x y : Proc) : Prop where
  unused : y.state = .unused → x.state = .unused ∧ y.pid = x.pid ∧ y.killed = x.killed
  embryo : y.state = .embryo → x.state = .embryo ∧ y.pid = x.pid ∧ y.killed = x.killed
  scan : ∀ pid, y.pc = .killScan pid → x.pc = .killScan pid

theorem Calm.goto (x : Proc) (h : ∀ pid, pc = .killScan pid → x.pc = .killScan pid) :
    Calm x { x with pc := pc } := ⟨fun h => ⟨h, rfl, rfl⟩, fun h => ⟨h, rfl, rfl⟩, h⟩

theorem Calm.refl (x : Proc) : Calm x x := Calm.goto x fun _ => id

/-- A process that has begun to run and is not reaped. -/
theorem Calm.of_born (hu : y.state ≠ .unused) (he : y.state ≠ .embryo)
    (h : ∀ pid, y.pc = .killScan pid → x.pc = .killScan pid) : Calm x y :=
  ⟨fun e => absurd e hu, fun e => absurd e he, h⟩

theorem Calm.wake (x : Proc) (chan : Chan) : Calm x (x.wake chan) := by
  unfold Proc.wake
  split
  · exact Calm.of_born (by simp) (by simp) fun _ h => h
  · exact Calm.refl x

theorem Mark.calm {log log' : List Event} (h : Mark log p x) (hc : Calm x y)
    (hlog : ∀ pid, KilledSince p pid log → KilledSince p pid log') : Mark log' p y where
  unused hy := by
    obtain ⟨hst, -, hk⟩ := hc.unused hy
    exact hk.trans (h.unused hst)
  embryo hy hk := by
    obtain ⟨hst, hpid, hk'⟩ := hc.embryo hy
    exact hpid ▸ hlog _ (h.embryo hst (hk' ▸ hk))

section

variable (h : Marks s)
include h

theorem Marks.calm (hc : ∀ q, Calm (s.procs q) (s'.procs q))
    (hlog : ∀ p pid, KilledSince p pid s.log → KilledSince p pid s'.log) : Marks s' := by
  refine ⟨fun p => (h.mark p).calm (hc p) (hlog p), fun p pid hp q hq => ⟨fun hst => ?_, fun hst => ?_⟩⟩
  · obtain ⟨hst', hpid, -⟩ := (hc q).unused hst
    exact (h.scan p pid ((hc p).scan pid hp) q (hpid ▸ hq)).1 hst'
  · obtain ⟨hst', hpid, -⟩ := (hc q).embryo hst
    exact hlog q pid ((h.scan p pid ((hc p).scan pid hp) q (hpid ▸ hq)).2 hst')

theorem Marks.set (hprocs : s'.procs = (s.setProc p y).procs)
    (hy : Calm (s.procs p) y) (hlog : s'.log = s.log) : Marks s' := by
  refine h.calm (fun q => ?_) fun _ _ => hlog ▸ id
  rw [hprocs, setProc_procs]
  split
  · rename_i e
    exact e ▸ hy
  · exact Calm.refl _

theorem Marks.goto (hprocs : s'.procs = (s.setPc p pc).procs)
    (hlog : s'.log = s.log) (hpc : ∀ pid, pc ≠ .killScan pid) : Marks s' :=
  h.set hprocs (Calm.goto _ fun pid e => absurd e (hpc pid)) hlog

/-- Two entries change. -/
theorem Marks.set_goto
    (hprocs : s'.procs = ((s.setProc q y).setPc p pc).procs) (hlog : s'.log = s.log)
    (hy : Calm (s.procs q) y) (hpc : ∀ pid, pc ≠ .killScan pid) : Marks s' := by
  have hset : Marks (s.setProc q y) := h.set rfl hy rfl
  exact hset.goto hprocs hlog hpc

/-- A thread that holds the lock changes a process; nobody is at the scan of `kill` meanwhile. -/
theorem Marks.locked (hbase : Base s)
    (hon : (s.cpus c).on = .thread p) (hholds : (s.procs p).pc.holds = true)
    (hprocs : s'.procs = ((s.setProc q y).setPc p pc).procs) (hne : q ≠ p)
    (hpc : ∀ pid, pc ≠ .killScan pid) (hy : y.pc = (s.procs q).pc) (hmark : Mark s'.log q y)
    (hlog : ∀ r pid, r ≠ q → KilledSince r pid s.log → KilledSince r pid s'.log) : Marks s' := by
  have hself : s'.procs p = { s.procs p with pc := pc } := by simp [hprocs, Ne.symm hne]
  have hchild : s'.procs q = y := by simp [hprocs, hne]
  have hother : ∀ r, r ≠ p → r ≠ q → s'.procs r = s.procs r := fun r hr hr' => by
    simp [hprocs, hr, hr']
  refine ⟨fun r => ?_, fun r pid hr => ?_⟩
  · by_cases hrq : r = q
    · rwa [hrq, hchild]
    · refine (h.mark r).calm ?_ fun pid => hlog r pid hrq
      by_cases hrp : r = p
      · subst hrp
        exact hself ▸ Calm.goto _ fun pid e => absurd e (hpc pid)
      · exact hother r hrp hrq ▸ Calm.refl _
  · have hrp : r ≠ p := by
      rintro rfl
      exact hpc pid (by simpa [hself] using hr)
    have hno : (s.procs r).pc ≠ .killScan pid := not_at hbase hon hholds hrp rfl rfl
    refine absurd ?_ hno
    by_cases hrq : r = q
    · subst hrq
      rw [← hy, ← hchild, hr]
    · rw [← hother r hrp hrq, hr]

/-- The mark of `kill` on a slot that it was called for. -/
theorem Marks.mark_kill (hpc : (s.procs p).pc = .killScan pid)
    (hq : (s.procs q).pid = pid) : Marks (s.setProc q (s.procs q).kill) := by
  have hst : ∀ st, st ≠ .runnable → (s.procs q).kill.state = st → (s.procs q).state = st := by
    intro st hne hst
    unfold Proc.kill at hst
    dsimp only at hst
    split at hst
    · exact absurd hst.symm hne
    · exact hst
  obtain ⟨hused, hchild⟩ := h.scan p pid hpc q hq
  refine ⟨fun r => ?_, fun r pid' hr k hk => ?_⟩
  · by_cases hrq : r = q
    · subst hrq
      simp only [setProc_procs, if_true]
      refine ⟨fun e => absurd (hst .unused (by simp) e) hused, fun e _ => ?_⟩
      exact hq ▸ hchild (hst .embryo (by simp) e)
    · rw [setProc_procs, if_neg hrq]
      exact h.mark r
  · have hr' : (s.procs r).pc = .killScan pid' := by
      by_cases hrq : r = q
      · subst hrq
        simpa [Proc.kill] using hr
      · simpa [hrq] using hr
    by_cases hkq : k = q
    · subst hkq
      obtain ⟨hu, he⟩ := h.scan r pid' hr' k (by simpa [Proc.kill] using hk)
      simp only [setProc_procs, if_true]
      exact ⟨fun e => hu (hst .unused (by simp) e), fun e => he (hst .embryo (by simp) e)⟩
    · rw [setProc_procs, if_neg hkq] at hk ⊢
      exact h.scan r pid' hr' k hk

/-- `fork` gives up a slot whose process nobody has killed. -/
theorem Marks.abandon {np : Nat} (hst : (s.procs np).state = .embryo) (hne : np ≠ p)
    (hk : ¬ KilledSince np (s.procs np).pid s.log) : Marks (giveUp s p np) := by
  have hself : (giveUp s p np).procs p = { s.procs p with pc := .kernel } := by
    simp [giveUp, Ne.symm hne]
  have hchild : (giveUp s p np).procs np =
      { s.procs np with kstack := false, state := .unused } := by simp [giveUp, hne]
  have hcalm : ∀ q, q ≠ np → Calm (s.procs q) ((giveUp s p np).procs q) := by
    intro q hq
    by_cases hqp : q = p
    · subst hqp
      exact hself ▸ Calm.goto _ (by simp)
    · simpa [giveUp, hqp, hq] using Calm.refl _
  have hlog : ∀ q pid, KilledSince q pid s.log → KilledSince q pid (giveUp s p np).log :=
    fun _ _ => id
  generalize giveUp s p np = s' at *
  refine ⟨fun q => ?_, fun q pid hq r hr => ?_⟩
  · by_cases hqnp : q = np
    · subst hqnp
      refine hchild ▸ ⟨fun _ => ?_, by simp⟩
      by_contra hx
      exact hk ((h.mark q).embryo hst (by simpa using hx))
    · exact (h.mark q).calm (hcalm q hqnp) (hlog q)
  · have hq' : (s.procs q).pc = .killScan pid := by
      by_cases hqnp : q = np
      · subst hqnp
        simpa [hchild] using hq
      · exact (hcalm q hqnp).scan pid hq
    by_cases hrnp : r = np
    · subst hrnp
      obtain rfl : (s.procs r).pid = pid := by simpa [hchild] using hr
      exact absurd ((h.scan q _ hq' r rfl).2 hst) hk
    · refine ⟨fun e => ?_, fun e => ?_⟩
      · obtain ⟨e', hpid, -⟩ := (hcalm r hrnp).unused e
        exact (h.scan q pid hq' r (hpid ▸ hr)).1 e'
      · obtain ⟨e', hpid, -⟩ := (hcalm r hrnp).embryo e
        exact hlog r pid ((h.scan q pid hq' r (hpid ▸ hr)).2 e')

end

theorem afterAcquire_noscan (h : pc₀.afterAcquire = some pc) (pid : BitVec 32) :
    pc ≠ .killScan pid := by
  cases pc₀ <;> cases h <;> simp

theorem afterRelease_noscan (h : pc₀.afterRelease = some pc) (pid : BitVec 32) :
    pc ≠ .killScan pid := by
  rintro rfl
  cases (afterRelease_running h).2.2.2

theorem afterSwtch_noscan (h : pc₀.afterSwtch = some pc) (pid : BitVec 32) :
    pc ≠ .killScan pid := by
  cases pc₀ <;> cases h <;> simp

theorem back_noscan (nap : Nap) (pid : BitVec 32) : nap.back ≠ .killScan pid := by
  cases nap <;> rintro ⟨⟩

/-- `kill` is called. -/
theorem Marks.call (h : Marks s)
    (hfree : ∀ q, (s.procs q).state = .unused → (s.procs q).pid ≠ pid)
    (hprocs : s'.procs = (s.setPc p (.killScan pid)).procs) (hlog : s'.log = .kill pid :: s.log) :
    Marks s' := by
  have hsame : ∀ q, (s'.procs q).state = (s.procs q).state ∧ (s'.procs q).pid = (s.procs q).pid ∧
      (s'.procs q).killed = (s.procs q).killed := by
    intro q
    rw [hprocs, setPc_procs]
    split
    · rename_i e
      simp [e]
    · exact ⟨rfl, rfl, rfl⟩
  refine ⟨fun q => ⟨fun hq => ?_, fun hq hk => ?_⟩, fun q pid' hq r hr => ?_⟩
  · rw [(hsame q).1] at hq
    exact (hsame q).2.2.trans ((h.mark q).unused hq)
  · rw [(hsame q).1] at hq
    rw [(hsame q).2.2] at hk
    rw [(hsame q).2.1, hlog]
    exact .inr ((h.mark q).embryo hq hk)
  · rw [(hsame r).2.1] at hr
    rw [(hsame r).1, hlog]
    by_cases hqp : q = p
    · subst hqp
      obtain rfl : pid = pid' := by simpa [hprocs] using hq
      exact ⟨fun e => hfree r e hr, fun _ => .inl rfl⟩
    · obtain ⟨hu, he⟩ := h.scan q pid' (by simpa [hprocs, hqp] using hq) r hr
      exact ⟨hu, fun e => .inr (he e)⟩

theorem Marks.exit (h : Marks s) (hrun : (s.procs p).state = .running) : Marks (exitBody s p n) := by
  classical
  refine h.calm (fun q => ?_) fun q pid => exitBody_log s p n ▸ id
  by_cases hq : q = p
  · subst hq
    rw [exitBody_self s q n hrun]
    exact Calm.of_born (by simp) (by simp) (by simp)
  · rw [exitBody_other s n hq]
    by_cases hw : exitWakes s p n q
    · exact Calm.of_born (by simp [hw]) (by simp [hw]) fun _ e => e
    · exact ⟨fun e => ⟨by simpa [hw] using e, rfl, rfl⟩, fun e => ⟨by simpa [hw] using e, rfl, rfl⟩,
        fun _ e => e⟩

theorem Marks.step (h : Marks s) (ht : Table s) (hok : Careful s a)
    (hstep : Step n s a s') : Marks s' := by
  cases hstep with
  | schedAcquire | schedSkip | schedPick | schedBack | schedRelease | acquire | release =>
    exact h.calm (fun q => Calm.refl _) fun _ _ => id
  | schedRun => exact h.set rfl (Calm.of_born (by simp) (by simp) fun _ e => e) rfl
  | schedEnter => exact h.set rfl ⟨fun e => ⟨e, rfl, rfl⟩, fun e => ⟨e, rfl, rfl⟩, fun _ e => e⟩ rfl
  | @call c p f hon hpc hfree hinit =>
    cases f with
    | kill pid => exact h.call hok.2 rfl rfl
    | _ => exact h.goto rfl rfl (by rintro _ ⟨⟩)
  | lock hon hpc => exact h.goto rfl rfl (afterAcquire_noscan hpc)
  | unlock hon hpc => exact h.goto rfl rfl (afterRelease_noscan hpc)
  | swtch hon hpc =>
    exact h.set rfl ⟨fun e => ⟨e, rfl, rfl⟩, fun e => ⟨e, rfl, rfl⟩,
      fun pid e => absurd e (afterSwtch_noscan hpc pid)⟩ rfl
  | @allocFound c p np hon hpc hfound =>
    have hst : (s.procs np).state = .unused := by simpa using mem_slot hfound
    have hne : np ≠ p := fun e => by simp [e, ht.base.running hon (by rw [hpc]; rfl)] at hst
    exact h.locked ht.base hon (by rw [hpc]; rfl) rfl hne (by simp) rfl
      ⟨by simp, fun _ hk => by simp [(h.mark np).unused hst] at hk⟩ fun r pid hr hk => ⟨Ne.symm hr, hk⟩
  | allocStack hon hpc =>
    exact h.set_goto rfl rfl ⟨fun e => ⟨e, rfl, rfl⟩, fun e => ⟨e, rfl, rfl⟩, by simp⟩ (by simp)
  | @stackFail c p np hon hpc | @copyFail c p np hon hpc =>
    have hb : builds (s.procs p).pc = some np := by rw [hpc]; rfl
    have hst := ht.births.embryo p np hb
    exact h.abandon hst (fun e => ht.base.born hon (e ▸ hst)) (hok p np hon hb)
  | forkParent hon hpc =>
    exact h.set_goto rfl rfl ⟨fun e => ⟨e, rfl, rfl⟩, fun e => ⟨e, rfl, rfl⟩, fun _ e => e⟩ (by simp)
  | forkRun hon hpc =>
    exact h.set_goto rfl rfl (Calm.of_born (by simp) (by simp) fun _ e => e) (by simp)
  | exitBody hon hpc => exact h.exit (ht.base.running hon (by rw [hpc]; rfl))
  | @waitReap c p q hon hpc hfound =>
    have hq := (zombie_of_slot hfound).2
    have hne : q ≠ p := fun e => by simp [e, ht.base.running hon (by rw [hpc]; rfl)] at hq
    exact h.locked ht.base hon (by rw [hpc]; rfl) rfl hne (by simp) rfl ⟨fun _ => rfl, by rintro ⟨⟩⟩
      fun r pid _ => id
  | killFound hon hpc hfound =>
    exact (h.mark_kill hpc (by simpa using mem_slot hfound)).goto rfl rfl (by simp)
  | yieldSet | napSet => exact h.set rfl (Calm.of_born (by simp) (by simp) (by simp)) rfl
  | @napWoken c p nap hon hpc =>
    refine h.set rfl ⟨fun e => ⟨e, rfl, rfl⟩, fun e => ⟨e, rfl, rfl⟩, fun pid => ?_⟩ rfl
    dsimp only
    split
    · exact fun e => absurd e (back_noscan nap pid)
    · simp
  | napTake => exact h.goto rfl rfl (back_noscan _)
  | @wakeScan c p w hon hpc =>
    have hwoken : Marks (wakeup1 s w.chan) := h.calm (fun q => Calm.wake _ _) fun _ _ => id
    exact hwoken.goto rfl rfl (by simp)
  | intr => exact h.calm (fun q => Calm.wake _ _) fun _ _ => id
  | allocNone | forkCopy | waitNone | waitSleep | killNone | napDrop | sleep | acquiresleep | lockBusy
  | lockTake | lockRel | releasesleep | unlockSet | unlockRel => exact h.goto rfl rfl (by simp)

theorem marks_reach (h : Reach (kernel n) Careful s) : Table s ∧ Marks s := by
  refine Reach.invariant (I := fun s => Table s ∧ Marks s) h (fun s hs => ?_)
    (fun s a s' hI hok hs => ⟨hI.1.step hs, hI.2.step hI.1 hok hs⟩)
  rw [show s = initial from hs]
  have hslot : ∀ p, (initial.procs p).state ≠ .embryo ∧ (initial.procs p).killed = false ∧
      ∀ pid, (initial.procs p).pc ≠ .killScan pid := by
    intro p
    by_cases hp : p = initproc <;> simp [initial, hp, freeSlot]
  exact ⟨table_initial, fun p => ⟨fun _ => (hslot p).2.1, fun hp => absurd hp (hslot p).1⟩,
    fun p pid hp => absurd hp ((hslot p).2.2 pid)⟩

/-- The scan of `kill` ends with the first slot that has the pid, or with none. -/
theorem kill_go (hon : (s.cpus c).on = .thread p)
    (hpc : (s.procs p).pc = .killScan pid) (hstep : Step n s (.go c) s') :
    (∃ q, slot n (fun q => (s.procs q).pid = pid) = some q ∧
      s' = (s.setProc q (s.procs q).kill).setPc p (.killRel 0)) ∨ s' = s.setPc p (.killRel (-1)) := by
  have hsame : ∀ {p'}, (s.cpus c).on = .thread p' → p' = p := fun h => by simpa [hon] using h.symm
  cases hstep with
  | killFound hon' hpc' hfound =>
    obtain rfl := hsame hon'
    obtain ⟨⟩ := hpc'.symm.trans hpc
    exact .inl ⟨_, hfound, rfl⟩
  | killNone hon' hpc' => exact .inr (by rw [hsame hon'])
  | lock hon' hpc' | unlock hon' hpc' | swtch hon' hpc' =>
    rw [hsame hon', hpc] at hpc'
    cases hpc'
  | _ => simp_all

structure KillSound (n : Nat) (s : State) : Prop where
  kill : ∀ c p pid s', Executes s c p → (s.procs p).pc = .killScan pid → Step n s (.go c) s' →
    (s'.procs p).pc = .killRel 0 →
    ∃ q, (s.procs q).state ≠ .unused ∧ (s.procs q).pid = pid ∧ (s'.procs q).killed = true
  fork : ∀ p np, (s.procs p).pc = .forkRun np → (s.procs np).killed = true → KilledSince np (s.procs np).pid s.log

/-- In every careful run. -/
theorem kill_sound (n : Nat) (h : Reach (kernel n) Careful s) : KillSound n s := by
  obtain ⟨ht, hm⟩ := marks_reach h
  refine ⟨fun c p pid s' hon hpc hstep hret => ?_, fun p np hpc hk => ?_⟩
  · rcases kill_go hon hpc hstep with ⟨q, hfound, rfl⟩ | rfl
    · have hpid : (s.procs q).pid = pid := by simpa using mem_slot hfound
      refine ⟨q, (hm.scan p pid hpc q hpid).1, hpid, ?_⟩
      by_cases hq : q = p <;> simp [hq, Proc.kill]
    · simp at hret
  · exact (hm.mark np).embryo (ht.births.embryo_of hpc rfl) hk

theorem careful_next (h : Reach (kernel n) Careful s) (hs : Step n s a s')
    (hok : Careful s a) : Reach (kernel n) Careful s' := h.step hok hs

/-- A careful run in which the first process makes a child, kills it and makes another, up to the
store that publishes it. -/
theorem kill_sound_two : ∃ s, Reach (kernel 64) Careful s ∧ (s.procs initproc).pc = .forkRun 2 ∧
    (s.procs 1).killed = true ∧ (s.procs 2).killed = false ∧ KillSound 64 s := by
  have h₀ : Reach (kernel 64) Careful forked :=
    reach_forked (by decide) (fun _ => trivial) (fun _ => trivial) (fun _ => trivial)
  have hfree : ∀ p, (forked.procs p).state = .unused → (forked.procs p).pid ≠ 2 := by
    intro p hp
    match p with
    | 0 | 1 => cases hp
    | _ + 2 => rintro ⟨⟩
  have h₁ := careful_next h₀ (.call (c := 0) (p := 0) (f := .kill 2) rfl rfl rfl (by simp))
    ⟨by decide, hfree⟩
  have h₂ := careful_next h₁ (.killFound (c := 0) (p := 0) (q := 1) rfl rfl rfl) trivial
  have h₃ := careful_next h₂ (.unlock (c := 0) (p := 0) rfl rfl) trivial
  have h₄ := careful_next h₃ (.call (c := 0) (p := 0) (f := .fork) rfl rfl rfl (by simp)) trivial
  have h₅ := careful_next h₄ (.allocFound (c := 0) (p := 0) rfl rfl rfl) trivial
  have h₆ := careful_next h₅ (.unlock (c := 0) (p := 0) rfl rfl) trivial
  have h₇ := careful_next h₆ (.allocStack (c := 0) (p := 0) rfl rfl) trivial
  have h₈ := careful_next h₇ (.forkCopy (c := 0) (p := 0) rfl rfl) trivial
  have h₉ := careful_next h₈ (.forkParent (c := 0) (p := 0) rfl rfl) trivial
  exact ⟨_, h₉, rfl, rfl, rfl, kill_sound 64 h₉⟩

/-- The first process has a child, calls `kill(0)`, which returns 0, and then `fork`. -/
theorem born_killed : ∃ s, Reachable (kernel 64) s ∧ (s.procs initproc).pc = .forkRun 2 ∧
    (s.procs 2).killed = true ∧ ¬ KilledSince 2 (s.procs 2).pid s.log ∧ ¬ KillSound 64 s := by
  have h₀ : Reachable (kernel 64) forked :=
    reach_forked (by decide) (fun _ => trivial) (fun _ => trivial) (fun _ => trivial)
  have h₁ := reach_next h₀ (.call (c := 0) (p := 0) (f := .kill 0) rfl rfl rfl (by simp))
  have h₂ := reach_next h₁ (.killFound (c := 0) (p := 0) (q := 2) rfl rfl rfl)
  have h₃ := reach_next h₂ (.unlock (c := 0) (p := 0) rfl rfl)
  have h₄ := reach_next h₃ (.call (c := 0) (p := 0) (f := .fork) rfl rfl rfl (by simp))
  have h₅ := reach_next h₄ (.allocFound (c := 0) (p := 0) rfl rfl rfl)
  have h₆ := reach_next h₅ (.unlock (c := 0) (p := 0) rfl rfl)
  have h₇ := reach_next h₆ (.allocStack (c := 0) (p := 0) rfl rfl)
  have h₈ := reach_next h₇ (.forkCopy (c := 0) (p := 0) rfl rfl)
  have h₉ := reach_next h₈ (.forkParent (c := 0) (p := 0) rfl rfl)
  exact ⟨_, h₉, rfl, rfl, fun hk => hk.1 rfl, fun hs => (hs.fork initproc 2 rfl rfl).1 rfl⟩

end Xv6.Kill
