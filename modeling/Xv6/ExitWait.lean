import Xv6.Parents

/-!
# No child is lost

Every step keeps the family of the process table, so that in every run a process that sleeps in
`wait` has no child to reap, nobody is without a parent, and what has exited is reaped once.
-/
namespace Xv6.ExitWait

open Interleaving ProcTable Scheduler ForkSlots Parents

variable {pc₀ pc : Pc} {np : Nat} {pid : BitVec 32} {a : Act}

variable {n c p q : Nat} {s s' : State}

structure Walks (pc₀ pc : Pc) : Prop extends SameChild pc₀ pc where
  stays : stays pc = true

theorem Walks.exit (h : Walks pc₀ pc) : pc ≠ .exitBody := by
  rintro rfl
  cases h.stays

theorem walks_acquire (h : pc₀.afterAcquire = some pc) : Walks pc₀ pc := by
  cases pc₀ <;> cases h <;> exact ⟨⟨rfl, rfl⟩, rfl⟩

theorem walks_release (h : pc₀.afterRelease = some pc) : Walks pc₀ pc := by
  cases pc₀ with
  | allocRel np => cases np <;> cases h <;> exact ⟨⟨rfl, rfl⟩, rfl⟩
  | wakeRel w => cases w <;> cases h <;> exact ⟨⟨rfl, rfl⟩, rfl⟩
  | _ => cases h <;> exact ⟨⟨rfl, rfl⟩, rfl⟩

theorem walks_back {nap : Nap} (hb : builds pc₀ = none) (hl : linked pc₀ = false) :
    Walks pc₀ nap.back := by
  cases nap <;> exact ⟨⟨hb.symm, hl.symm⟩, rfl⟩

section

variable (h : Family n s)
include h

theorem family_walk (hpc : (s.procs p).pc = pc₀)
    (hprocs : s'.procs = (s.setPc p pc).procs) (hst : (s.procs p).state = .running)
    (hlog : s'.log = s.log) (hw : Walks pc₀ pc) : Family n s' := by
  subst hpc
  exact h.set hprocs (Kin.goto hst fun e => absurd e hw.exit) hw.toSameChild
    (fun hd => absurd hd (not_dozes (by simp [hst]) hw.stays)) (SameFate.of_eq hlog)

/-- `swtch` of a thread that has set its state. -/
theorem family_swtch (hpc : (s.procs p).pc.afterSwtch = some pc)
    (hprocs : s'.procs = (s.setProc p { s.procs p with pc := pc, saved := true }).procs)
    (hlog : s'.log = s.log) : Family n s' := by
  have hcases : (s.procs p).pc = .yieldSched ∧ pc = .yieldRel ∨ (s.procs p).pc = .exitSched ∧ pc = .dead ∨
      ∃ nap, (s.procs p).pc = .napSched nap ∧ pc = .napWoken nap := by
    cases hq : (s.procs p).pc <;> rw [hq] at hpc <;> cases hpc <;> simp
  refine h.set hprocs ⟨Iff.rfl, Iff.rfl, Iff.rfl, rfl, rfl, rfl, ?_, fun hs => ?_⟩ ?_ (fun hd => ?_)
    (SameFate.of_eq hlog)
  · rcases hcases with ⟨-, rfl⟩ | ⟨-, rfl⟩ | ⟨nap, -, rfl⟩ <;> rintro ⟨⟩
  · obtain ⟨nap, hnap, hchan⟩ := (h.member p).naps hs
    rcases hcases with ⟨e, rfl⟩ | ⟨e, rfl⟩ | ⟨nap', e, rfl⟩ <;> simp only [e, reduceCtorEq, or_self] at hnap
    exact ⟨nap, .inr (by simpa using hnap), hchan⟩
  · rcases hcases with ⟨e, rfl⟩ | ⟨e, rfl⟩ | ⟨nap, e, rfl⟩ <;> rw [e] <;> exact ⟨rfl, rfl⟩
  · refine h.waits p ?_
    rcases hcases with ⟨-, rfl⟩ | ⟨-, rfl⟩ | ⟨nap, e, rfl⟩ <;> simp only [Dozes, reduceCtorEq,
      false_and, false_or] at hd
    exact .inr (.inl (by simpa [e] using hd.1))

/-- A step of `fork` on the child it has. -/
theorem family_child {y : Proc} (ht : Table s)
    (hpc₀ : (s.procs p).pc = pc₀) (hon : (s.cpus c).on = .thread p)
    (hprocs : s'.procs = ((s.setProc np y).setPc p pc).procs) (hb₀ : builds pc₀ = some np)
    (hown : pc₀.ownState = .running) (hlog : ∀ q, SameFate q s.log s'.log) (hy : Infant p np pc y)
    (hpc : stays pc = true) : Family n s' := by
  subst hpc₀
  have hst := ht.births.embryo p np hb₀
  have hne : np ≠ p := fun e => ht.base.born hon (e ▸ hst)
  have hinit : np ≠ initproc := fun e => h.init.1.2 (e ▸ hst)
  exact h.child hne hprocs hlog (ht.base.running hon hown) (fun hx => hx.2 hst)
    (h.inside hinit (by simp [hst])) (fun q hq hqb => hq (ht.births.one q p np hqb hb₀)) hy hpc

/-- The child of a `fork` that has not come to set its parent. -/
theorem parent_none (hpc : (s.procs p).pc = pc)
    (hb : builds pc = some np) (hl : linked pc = false) : (s.procs np).parent = none := by
  subst hpc
  simpa [hl] using h.embryo p np hb

/-- `allocproc` takes a slot. -/
theorem family_alloc (ht : Table s) (hon : (s.cpus c).on = .thread p)
    (hpc : (s.procs p).pc = .allocScan)
    (hfound : slot n (fun q => (s.procs q).state = .unused) = some np)
    (hprocs : s'.procs = ((s.setProc np { s.procs np with state := .embryo, pid := s.nextpid }).setPc p
      (.allocRel (some np))).procs) (hlog : ∀ q, SameFate q s.log s'.log) : Family n s' := by
  have hst : (s.procs np).state = .unused := by simpa using mem_slot hfound
  have hrun := ht.base.running hon (by rw [hpc]; rfl)
  have hplace := (ht.base.parked_of_free (ht.base.free_of_unborn (.inl hst))).place
  have hpar := (h.member np).unused hst
  refine h.child (fun e => ?_) hprocs hlog hrun (by simp [Begun, hst]) (slot_lt hfound)
    (fun q _ hq => by simpa [hst] using ht.births.embryo q np hq)
    ⟨by simp, hplace, by simp, by simp [Begun], .inl hpar, ?_⟩ rfl
  · simp [e, hrun] at hst
  · rintro k ⟨⟩
    exact ⟨rfl, hpar⟩

/-- `fork` gives the slot up. -/
theorem family_fail (ht : Table s)
    (hpc₀ : (s.procs p).pc = pc₀) (hon : (s.cpus c).on = .thread p) (hb₀ : builds pc₀ = some np)
    (hown : pc₀.ownState = .running) (hl : linked pc₀ = false) : Family n (giveUp s p np) := by
  have hpar := parent_none h hpc₀ hb₀ hl
  have hst := ht.births.embryo_of hpc₀ hb₀
  have hplace := (ht.base.parked_of_free (ht.base.free_of_unborn (.inr hst))).place
  exact family_child h ht hpc₀ hon rfl hb₀ hown (fun _ => ⟨rfl, rfl⟩)
    ⟨by simp, hplace, fun _ => hpar, by simp [Begun], .inl hpar, by rintro _ ⟨⟩⟩ rfl

/-- `kill` marks a process, which may be the thread's own. -/
theorem family_kill (hpc : (s.procs p).pc = .killScan pid)
    (hst : (s.procs p).state = .running) :
    Family n ((s.setProc q (s.procs q).kill).setPc p (.killRel 0)) := by
  have hkilled : Family n (s.setProc q (s.procs q).kill) := by
    refine h.set rfl ?_ ⟨rfl, rfl⟩ (fun hd => h.waits q (hd.of_awake rfl ?_)) (SameFate.of_eq rfl)
    · by_cases hq : (s.procs q).state = .sleeping
      · exact Kin.rouse hq (by simp [Proc.kill, hq]) rfl rfl rfl rfl
      · exact ⟨by simp [Proc.kill, hq], by simp [Proc.kill, hq], by simp [Proc.kill, hq], rfl, rfl, rfl,
          fun h _ => h, by simp [Proc.kill, hq]⟩
    · by_cases hq : (s.procs q).state = .sleeping <;> simp [Proc.kill, hq]
  have hself : ((s.setProc q (s.procs q).kill).procs p).pc = .killScan pid ∧
      ((s.setProc q (s.procs q).kill).procs p).state = .running := by
    by_cases hq : p = q
    · subst hq
      simpa [Proc.kill, hst] using hpc
    · simpa [hq, hst] using hpc
  exact family_walk hkilled hself.1 rfl hself.2 rfl ⟨⟨rfl, rfl⟩, rfl⟩

/-- `wakeup1` by a thread, which it does not wake. -/
theorem family_wakes {w : Wake} (hpc : (s.procs p).pc = .wakeScan w)
    (hst : (s.procs p).state = .running) : Family n ((wakeup1 s w.chan).setPc p (.wakeRel w)) := by
  have hwoken : Family n (wakeup1 s w.chan) := h.wake w.chan
  have hself : (wakeup1 s w.chan).procs p = s.procs p := wake_same _ _ (by simp [hst])
  have hpc' : ((wakeup1 s w.chan).procs p).pc = .wakeScan w := by rw [hself, hpc]
  exact family_walk hwoken hpc' rfl (by rw [hself, hst]) rfl ⟨⟨rfl, rfl⟩, rfl⟩

end

theorem family_step (ht : Table s) (h : Family n s) (hstep : Step n s a s') :
    Family n s' := by
  have hrun : ∀ {c p pc}, (s.cpus c).on = .thread p → (s.procs p).pc = pc → pc.ownState = .running →
      (s.procs p).state = .running := by
    rintro c p _ hon rfl hown
    exact ht.base.running hon hown
  cases hstep with
  | schedAcquire | schedSkip | schedPick | schedBack | schedRelease | acquire | release =>
    exact h.kin (fun q => (h.member q).self) (fun _ => ⟨rfl, rfl⟩) h.waits (SameFate.of_eq rfl)
  | @schedRun c i hon =>
    have hst := ht.base.picked _ _ hon
    exact h.set rfl ⟨by simp [hst], by simp [hst], by simp [hst], rfl, rfl, rfl, fun h _ => h, by simp⟩
      ⟨rfl, rfl⟩ (fun hd => h.waits i (hd.of_awake rfl (.inr (by simp)))) (SameFate.of_eq rfl)
  | @schedEnter c i hon =>
    have hst := (ht.base.enter _ _ hon).1.1
    exact h.set rfl ⟨Iff.rfl, Iff.rfl, Iff.rfl, rfl, rfl, rfl, fun h _ => h, by simp [hst]⟩ ⟨rfl, rfl⟩
      (fun hd => h.waits i (hd.of_awake rfl (.inl rfl))) (SameFate.of_eq rfl)
  | @call c p f hon hpc hfree hinit =>
    have hst := hrun hon hpc rfl
    refine h.set rfl (Kin.goto hst ?_) (hpc ▸ ?_) (fun hd => ?_) fun _ => ?_
    · cases f <;> first | exact fun _ => hinit rfl | rintro ⟨⟩
    · cases f <;> exact ⟨rfl, rfl⟩
    · cases f <;> simp [Dozes, hst, Call.enter] at hd
    · cases f <;> exact ⟨rfl, rfl⟩
  | lock hon hpc =>
    exact family_walk h rfl rfl (hrun hon rfl (afterAcquire_running hpc).1) rfl (walks_acquire hpc)
  | unlock hon hpc =>
    exact family_walk h rfl rfl (hrun hon rfl (afterRelease_running hpc).1) rfl (walks_release hpc)
  | swtch hon hpc => exact family_swtch h hpc rfl rfl
  | allocFound hon hpc hfound => exact family_alloc h ht hon hpc hfound rfl fun _ => ⟨rfl, rfl⟩
  | @allocStack c p np hon hpc =>
    have hst := ht.births.embryo_of hpc rfl
    have hpar := parent_none h hpc rfl rfl
    refine family_child h ht hpc hon rfl rfl rfl (SameFate.of_eq rfl)
      ⟨by simp [hst], rfl, by simp [hst], by simp [Begun, hst], .inl hpar, ?_⟩ rfl
    rintro k ⟨⟩
    exact ⟨rfl, hpar⟩
  | stackFail hon hpc | copyFail hon hpc => exact family_fail h ht hpc hon rfl rfl rfl
  | @forkParent c p np hon hpc =>
    have hst := ht.births.embryo_of hpc rfl
    have hready := ht.births.ready p np (by rw [hpc]; rfl)
    refine family_child h ht hpc hon rfl rfl rfl (SameFate.of_eq rfl)
      ⟨by simp [hst], by simp [hready, parks], by simp [hst], by simp [Begun, hst], .inr rfl, ?_⟩ rfl
    rintro k ⟨⟩
    exact ⟨rfl, rfl⟩
  | @forkRun c p np hon hpc =>
    have hready := ht.births.ready p np (by rw [hpc]; rfl)
    have hpar : (s.procs np).parent = some p := by
      simpa [hpc, linked] using h.embryo p np (by rw [hpc]; rfl)
    exact family_child h ht hpc hon rfl rfl rfl (SameFate.of_eq rfl)
      ⟨by simp, by simp [hready, parks], by simp, fun _ => ⟨hpar, hready.2.2⟩, .inr hpar, by rintro _ ⟨⟩⟩ rfl
  | exitBody hon hpc => exact h.exit ht.base ht.births hon hpc
  | waitReap hon hpc hfound =>
    exact h.reap ht.births hpc (hrun hon hpc rfl) (zombie_of_slot hfound).2 ⟨rfl, rfl⟩ rfl rfl
  | @waitSleep c p hon hpc hnone =>
    refine h.set rfl (Kin.goto (hrun hon hpc rfl) (by simp)) (hpc ▸ ⟨rfl, rfl⟩) (fun _ k hk hz => ?_)
      (SameFate.of_eq rfl)
    simpa [hk, hz] using slot_none hnone (h.zombie_inside hz)
  | killFound hon hpc => exact family_kill h hpc (hrun hon hpc rfl)
  | yieldSet hon hpc =>
    have hst := hrun hon hpc rfl
    exact h.set rfl ⟨by simp [hst], by simp [hst], by simp [hst], rfl, rfl, rfl, by simp, by simp⟩
      (hpc ▸ ⟨rfl, rfl⟩) (fun hd => absurd hd (not_dozes (by simp) rfl)) (SameFate.of_eq rfl)
  | @napDrop c p nap lk hon hpc hlk =>
    refine family_walk h hpc rfl (hrun hon hpc rfl) rfl ⟨⟨rfl, rfl⟩, ?_⟩
    cases nap <;> first | rfl | cases hlk
  | @napSet c p nap hon hpc =>
    have hst := hrun hon hpc rfl
    refine h.set rfl ⟨by simp [hst], by simp [hst], by simp [hst], rfl, rfl, rfl, by simp,
      fun _ => ⟨nap, .inl rfl, rfl⟩⟩ (hpc ▸ ⟨rfl, rfl⟩) (fun hd => h.waits p (.inl ?_)) (SameFate.of_eq rfl)
    obtain rfl : nap = .wait := by simpa [Dozes] using hd
    exact hpc
  | @napWoken c p nap hon hpc =>
    have hst := hrun hon hpc rfl
    have hw : Walks (.napWoken nap) (if nap = .wait then nap.back else .napRel nap) := by
      split
      · exact walks_back rfl rfl
      · exact ⟨⟨rfl, rfl⟩, rfl⟩
    exact h.set rfl ⟨Iff.rfl, Iff.rfl, Iff.rfl, rfl, rfl, rfl, fun e => absurd e hw.exit,
      by simp [hst]⟩ (hpc ▸ hw.toSameChild) (fun hd => absurd hd (not_dozes (by simp [hst]) hw.stays))
      (SameFate.of_eq rfl)
  | napTake hon hpc => exact family_walk h hpc rfl (hrun hon hpc rfl) rfl (walks_back rfl rfl)
  | wakeScan hon hpc => exact family_wakes h hpc (hrun hon hpc rfl)
  | intr => exact h.wake _
  | allocNone hon hpc | forkCopy hon hpc | waitNone hon hpc | killNone hon hpc | sleep hon hpc
  | acquiresleep hon hpc | lockBusy hon hpc | lockTake hon hpc | lockRel hon hpc
  | releasesleep hon hpc | unlockSet hon hpc | unlockRel hon hpc =>
    exact family_walk h hpc rfl (hrun hon hpc rfl) rfl ⟨⟨rfl, rfl⟩, rfl⟩

theorem initial_cases (p : Nat) : p ≠ initproc ∧ initial.procs p = freeSlot ∨
    p = initproc ∧ initial.procs p = ⟨.runnable, 1, none, none, false, true, true, .forkret⟩ := by
  by_cases hp : p = initproc
  · exact .inr ⟨hp, hp ▸ rfl⟩
  · exact .inl ⟨hp, by simp [initial, Function.update_of_ne hp]⟩

theorem family_initial (n : Nat) : Family n initial := by
  refine ⟨fun p => ?_, fun p hp hb => ?_, fun p np hp => ?_, fun q hq => ?_⟩
  · rcases initial_cases p with ⟨hp, e⟩ | ⟨hp, e⟩ <;> rw [e]
    · exact ⟨fun e => absurd e hp, fun _ _ => rfl, by rintro ⟨⟩, fun _ => rfl, by rintro ⟨⟩,
        fun hb => absurd rfl hb.1, rfl⟩
    · exact ⟨fun _ => ⟨by simp [Alive, Begun], by simp, rfl⟩, fun _ e => absurd hp e, by rintro ⟨⟩, by simp,
        by simp, fun _ => rfl, rfl⟩
  · rcases initial_cases p with ⟨-, e⟩ | ⟨e, -⟩
    · rw [e] at hb
      exact absurd rfl hb.1
    · exact absurd e hp
  · rcases initial_cases p with ⟨-, e⟩ | ⟨-, e⟩ <;> rw [e] at hp <;> cases hp
  · rcases initial_cases q with ⟨-, e⟩ | ⟨-, e⟩ <;> rw [e] at hq <;> simp [Dozes, freeSlot] at hq

theorem family_reach (h : Reachable (kernel n) s) : Family n s := by
  have hboth : Table s ∧ Family n s := by
    refine Reachable.invariant (I := fun s => Table s ∧ Family n s) h (fun s hs => ?_)
      (fun s a s' hI hs => ⟨hI.1.step hs, family_step hI.1 hI.2 hs⟩)
    rw [show s = initial from hs]
    exact ⟨table_initial, family_initial n⟩
  exact hboth.2

/-- The event of a reaped child comes with the return of its pid by `wait` of the parent, and frees
the slot. -/
theorem reaped_step (hstep : Step n s a s') (hlog : s'.log = .reaped p q pid :: s.log) :
    ((s.procs q).parent = some p ∧ (s.procs q).state = .zombie ∧ (s.procs q).pid = pid) ∧
    (s'.procs p).pc = .waitRel pid := by
  cases hstep with
  | @waitReap c p' q' hon hpc hfound =>
    simp only [State.note, List.cons.injEq, Event.reaped.injEq] at hlog
    obtain ⟨⟨rfl, rfl, rfl⟩, -⟩ := hlog
    have hq := mem_slot hfound
    simp only [Bool.and_eq_true, decide_eq_true_eq] at hq
    exact ⟨⟨hq.1, hq.2, rfl⟩, by simp⟩
  | @call _ _ f =>
    cases f <;> simp [Call.events, State.setPc, State.setProc] at hlog
  | allocFound => simp [State.note, State.setPc, State.setProc] at hlog
  | stackFail | copyFail => simp [giveUp, State.note, State.setPc, State.setProc] at hlog
  | exitBody => simp [exitBody_log] at hlog
  | _ => exact absurd hlog.symm (List.cons_ne_self _ _)

structure NoChildLost (n : Nat) (s : State) : Prop where
  waiting : ∀ q, (s.procs q).state = .sleeping → (s.procs q).chan = some (.proc q) →
    ∀ p, (s.procs p).parent = some q → (s.procs p).state ≠ .zombie
  parented : ∀ p, p ≠ initproc → (s.procs p).state ≠ .unused → (s.procs p).state ≠ .embryo →
    ∃ q, (s.procs p).parent = some q ∧ (s.procs q).state ≠ .unused ∧ (s.procs q).state ≠ .zombie
  reaped : ∀ q, exits q s.log = (if (s.procs q).state = .zombie then [(s.procs q).pid] else []) ++ reaps q s.log
  returned : ∀ a s' p q pid, Step n s a s' → s'.log = .reaped p q pid :: s.log →
    ((s.procs q).parent = some p ∧ (s.procs q).state = .zombie ∧ (s.procs q).pid = pid) ∧
      (s'.procs p).pc = .waitRel pid
  stack : ∀ c p, Executes s c p → (s.procs p).kstack = true

/-- `fork`, `exit`, `wait`, `kill` and the scheduler, in any interleaving. -/
theorem no_child_lost (n : Nat) (h : Reachable (kernel n) s) : NoChildLost n s := by
  have hf := family_reach h
  have ht := table_reach h
  refine ⟨fun q hst hchan p hp => ?_, fun p hp hu he => ?_, fun q => (hf.member q).reaped,
    fun a s' p q pid => reaped_step, fun c p hon => ?_⟩
  · obtain ⟨nap, hnap, hchan'⟩ := (hf.member q).naps hst
    obtain rfl : nap = .wait := by
      rw [hchan] at hchan'
      cases nap <;> simp [Nap.chan] at hchan' ⊢
    exact hf.waits q (hnap.elim (fun e => .inr (.inl e)) (fun e => .inr (.inr ⟨e, hst⟩))) p hp
  · obtain ⟨q, hq, ha⟩ := hf.parent p hp ⟨hu, he⟩
    exact ⟨q, hq, ha.1.1, ha.2⟩
  · refine (hf.member p).stack ?_
    have hst := ht.base.thread c p hon
    rw [Begun, hst]
    rcases ownState_cases (s.procs p).pc with e | e | e | e <;> simp [e]

/-- The child of the first process runs and exits on another processor, and `wait` frees it. -/
theorem no_child_lost_reaped : ∃ s, Reachable (kernel 2) s ∧
    s.log = [.reaped 0 1 2, .exited 1 2, .alloc 1 2] ∧ NoChildLost 2 s := by
  have h₀ : Reachable (kernel 2) forked :=
    reach_forked (by decide) (fun _ => trivial) (fun _ => trivial) (fun _ => trivial)
  have h₁ := reach_next h₀ (.schedAcquire (c := 1) rfl rfl)
  have h₂ := reach_next h₁ (.schedSkip (c := 1) (i := 0) rfl (by decide) (by rintro ⟨⟩))
  have h₃ := reach_next h₂ (.schedPick (c := 1) (i := 1) rfl (by decide) rfl)
  have h₄ := reach_next h₃ (.schedRun (c := 1) (i := 1) rfl)
  have h₅ := reach_next h₄ (.schedEnter (c := 1) (i := 1) rfl)
  have h₆ := reach_next h₅ (.unlock (c := 1) (p := 1) rfl rfl)
  have h₇ := reach_next h₆ (.call (c := 1) (p := 1) (f := .exit) rfl rfl rfl (by decide))
  have h₈ := reach_next h₇ (.exitBody (c := 1) (p := 1) rfl rfl)
  have h₉ := reach_next h₈ (.swtch (c := 1) (p := 1) rfl rfl (by rintro _ ⟨⟩))
  have h₁₀ := reach_next h₉ (.schedBack (c := 1) (i := 1) rfl)
  have h₁₁ := reach_next h₁₀ (.schedRelease (c := 1) (i := 2) rfl (by decide))
  have h₁₂ := reach_next h₁₁ (.call (c := 0) (p := 0) (f := .wait) rfl rfl rfl (by simp))
  have h₁₃ := reach_next h₁₂ (.waitReap (c := 0) (p := 0) (q := 1) rfl rfl rfl)
  exact ⟨_, h₁₃, rfl, no_child_lost 2 h₁₃⟩

end Xv6.ExitWait
