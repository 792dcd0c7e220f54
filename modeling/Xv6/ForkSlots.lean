import Xv6.Scheduler

/-!
# Slots that are being filled

Between `allocproc` and the store of `RUNNABLE` that publishes it a new process belongs to the
thread of its `fork`, which holds no lock. With this the scheduler's invariant is kept by every
step, and what it says when `ptable.lock` is free or handed over follows for every run.
-/
namespace Xv6.ForkSlots

open Interleaving ProcTable Scheduler Function

variable {pc pc₀ pc' : Pc} {np i : Nat} {y : Proc} {a : Act}

variable {n c p q : Nat} {s s' : State}

def builds : Pc → Option Nat
  | .allocRel np => np
  | .allocStack np | .forkCopy np | .forkParent np | .forkRun np => some np
  | _ => none

def staged : Pc → Option Nat
  | .forkCopy np | .forkParent np | .forkRun np => some np
  | _ => none

structure Births (s : State) : Prop where
  embryo : ∀ p np, builds (s.procs p).pc = some np → (s.procs np).state = .embryo
  one : ∀ p q np, builds (s.procs p).pc = some np → builds (s.procs q).pc = some np → p = q
  ready : ∀ p np, staged (s.procs p).pc = some np →
    (s.procs np).saved = true ∧ (s.procs np).pc = .forkret ∧ (s.procs np).kstack = true
  mother : ∀ np, (s.procs np).state = .embryo → ∃ p, builds (s.procs p).pc = some np

theorem builds_of_staged (h : staged pc = some np) : builds pc = some np := by
  cases pc <;> first | exact h | cases h

/-- What a step may do to a process without touching the births. -/
structure Grown (x y : Proc) : Prop where
  state : y.state = .embryo ↔ x.state = .embryo
  builds : builds y.pc = builds x.pc
  staged : staged y.pc = staged x.pc
  child : x.state = .embryo → y.saved = x.saved ∧ y.pc = x.pc ∧ y.kstack = x.kstack

theorem Grown.refl (x : Proc) : Grown x x := ⟨Iff.rfl, rfl, rfl, fun _ => ⟨rfl, rfl, rfl⟩⟩

theorem Births.grown (h : Births s) (hg : ∀ q, Grown (s.procs q) (s'.procs q)) : Births s' := by
  refine ⟨fun p np hp => ?_, fun p q np hp hq => ?_, fun p np hp => ?_, fun np hnp => ?_⟩
  · rw [(hg p).builds] at hp
    exact (hg np).state.mpr (h.embryo p np hp)
  · rw [(hg _).builds] at hp hq
    exact h.one p q np hp hq
  · rw [(hg p).staged] at hp
    have hchild := (hg np).child (h.embryo p np (builds_of_staged hp))
    rw [hchild.1, hchild.2.1, hchild.2.2]
    exact h.ready p np hp
  · obtain ⟨p, hp⟩ := h.mother np ((hg np).state.mp hnp)
    exact ⟨p, (hg p).builds.trans hp⟩

theorem Births.goto (h : Births s) (hpc : (s.procs p).pc = pc₀)
    (hprocs : s'.procs = (s.setPc p pc).procs) (hst : (s.procs p).state ≠ .embryo) (hb : builds pc = builds pc₀)
    (hs : staged pc = staged pc₀) : Births s' := by
  subst hpc
  refine h.grown fun q => ?_
  rw [hprocs, setPc_procs]
  split
  · rename_i e
    subst e
    exact ⟨Iff.rfl, hb, hs, fun he => absurd he hst⟩
  · exact Grown.refl _

theorem Grown.wake (x : Proc) (chan : Chan) : Grown x (x.wake chan) := by
  unfold Proc.wake
  split
  · rename_i h
    exact ⟨by simp [h.1], rfl, rfl, fun he => by simp [h.1] at he⟩
  · exact Grown.refl x

theorem Grown.kill (x : Proc) : Grown x x.kill := by
  by_cases h : x.state = .sleeping
  · exact ⟨by simp [Proc.kill, h], rfl, rfl, fun he => by simp [h] at he⟩
  · exact ⟨by simp [Proc.kill, h], rfl, rfl, fun _ => ⟨rfl, rfl, rfl⟩⟩

/-- An entry whose process is not being born. -/
theorem Grown.of_born {x : Proc} (hx : x.state ≠ .embryo) (hy : y.state ≠ .embryo)
    (hb : ForkSlots.builds y.pc = ForkSlots.builds x.pc) (hs : ForkSlots.staged y.pc = ForkSlots.staged x.pc) :
    Grown x y := ⟨iff_of_false hy hx, hb, hs, fun he => absurd he hx⟩

theorem Births.set (h : Births s) (hpc : (s.procs p).pc = pc₀)
    (hprocs : s'.procs = (s.setProc p y).procs) (hx : (s.procs p).state ≠ .embryo) (hy : y.state ≠ .embryo)
    (hb : builds y.pc = builds pc₀) (hs : staged y.pc = staged pc₀) : Births s' := by
  subst hpc
  refine h.grown fun q => ?_
  rw [hprocs, setProc_procs]
  split
  · rename_i e
    subst e
    exact Grown.of_born hx hy hb hs
  · exact Grown.refl _

/-- One entry changes, which may be the thread's own, and the thread moves. -/
theorem Births.set_goto (h : Births s) (hpc : (s.procs p).pc = pc₀)
    (hprocs : s'.procs = ((s.setProc q y).setPc p pc).procs) (hst : (s.procs p).state ≠ .embryo)
    (hg : Grown (s.procs q) y) (hb : builds pc = builds pc₀) (hs : staged pc = staged pc₀) : Births s' := by
  subst hpc
  refine h.grown fun r => ?_
  rw [hprocs, setPc_procs]
  by_cases hr : r = p
  · subst hr
    refine Grown.of_born hst ?_ (by simpa using hb) (by simpa using hs)
    by_cases hq : r = q
    · subst hq
      simpa [hg.state] using hst
    · simpa [hq] using hst
  · by_cases hq : r = q
    · subst hq
      simpa [hr] using hg
    · simpa [hr, hq] using Grown.refl _

theorem afterRelease_builds (h : pc.afterRelease = some pc') :
    builds pc' = builds pc ∧ staged pc' = staged pc := by
  cases pc with
  | allocRel np => cases np <;> cases h <;> exact ⟨rfl, rfl⟩
  | wakeRel w => cases w <;> cases h <;> exact ⟨rfl, rfl⟩
  | _ => cases h <;> exact ⟨rfl, rfl⟩

theorem afterAcquire_builds (h : pc.afterAcquire = some pc') :
    builds pc' = builds pc ∧ staged pc' = staged pc := by
  cases pc <;> cases h <;> exact ⟨rfl, rfl⟩

theorem afterSwtch_builds (h : pc.afterSwtch = some pc') :
    builds pc' = builds pc ∧ staged pc' = staged pc := by
  cases pc <;> cases h <;> exact ⟨rfl, rfl⟩

theorem enter_builds (f : Call) : builds f.enter = none ∧ staged f.enter = none := by
  cases f <;> exact ⟨rfl, rfl⟩

theorem back_builds (nap : Nap) : builds nap.back = none ∧ staged nap.back = none := by
  cases nap <;> exact ⟨rfl, rfl⟩

/-- A step of `fork` of `p` on the slot of the child, which is its own or nobody's before and after.
-/
theorem Births.child (h : Births s) (hne : np ≠ p)
    (hprocs : s'.procs = ((s.setProc np y).setPc p pc).procs) (hp : (s.procs p).state ≠ .embryo)
    (hpc : builds (s.procs np).pc = none) (hy : builds y.pc = none)
    (hbefore : ∀ k, builds (s.procs p).pc = some k → k = np)
    (hmine : (s.procs np).state = .embryo → builds (s.procs p).pc = some np)
    (hafter : ∀ k, builds pc = some k → k = np) (hlater : y.state = .embryo ↔ builds pc = some np)
    (hready : staged pc = some np → y.saved = true ∧ y.pc = .forkret ∧ y.kstack = true) : Births s' := by
  have hself : s'.procs p = { s.procs p with pc := pc } := by simp [hprocs, Ne.symm hne]
  have hchild : s'.procs np = y := by simp [hprocs, hne]
  have hother : ∀ q, q ≠ p → q ≠ np → s'.procs q = s.procs q := fun q hq hq' => by simp [hprocs, hq, hq']
  have hrest : ∀ q k, q ≠ p → builds (s'.procs q).pc = some k → builds (s.procs q).pc = some k ∧ k ≠ np := by
    intro q k hq hk
    by_cases hq' : q = np
    · simp [hq', hchild, hy] at hk
    · rw [hother q hq hq'] at hk
      refine ⟨hk, ?_⟩
      rintro rfl
      exact hq (h.one q p k hk (hmine (h.embryo q k hk)))
  have hkept : ∀ q k, q ≠ p → builds (s'.procs q).pc = some k → s'.procs k = s.procs k := by
    intro q k hq hk
    obtain ⟨hk, hknp⟩ := hrest q k hq hk
    exact hother k (fun e => hp (e ▸ h.embryo q k hk)) hknp
  refine ⟨fun q k hk => ?_, fun q r k hq hr => ?_, fun q k hk => ?_, fun k hk => ?_⟩
  · by_cases hq : q = p
    · subst hq
      simp only [hself] at hk
      obtain rfl := hafter k hk
      rw [hchild]
      exact hlater.mpr hk
    · rw [hkept q k hq hk]
      exact h.embryo q k (hrest q k hq hk).1
  · by_cases hqp : q = p
    · by_cases hrp : r = p
      · rw [hqp, hrp]
      · subst hqp
        simp only [hself] at hq
        exact absurd (hafter k hq) (hrest r k hrp hr).2
    · by_cases hrp : r = p
      · subst hrp
        simp only [hself] at hr
        exact absurd (hafter k hr) (hrest q k hqp hq).2
      · exact h.one q r k (hrest q k hqp hq).1 (hrest r k hrp hr).1
  · by_cases hq : q = p
    · subst hq
      simp only [hself] at hk
      obtain rfl := hafter k (builds_of_staged hk)
      rw [hchild]
      exact hready hk
    · rw [hkept q k hq (builds_of_staged hk)]
      have hqnp : q ≠ np := by
        rintro rfl
        rw [hchild] at hk
        simpa [hy] using builds_of_staged hk
      rw [hother q hq hqnp] at hk
      exact h.ready q k hk
  · by_cases hkp : k = p
    · subst hkp
      simp [hself, hp] at hk
    · by_cases hknp : k = np
      · subst hknp
        rw [hchild] at hk
        exact ⟨p, by simpa [hself] using hlater.mp hk⟩
      · rw [hother k hkp hknp] at hk
        obtain ⟨q, hq⟩ := h.mother k hk
        have hqp : q ≠ p := by
          rintro rfl
          exact hknp (hbefore k hq)
        have hqnp : q ≠ np := by
          rintro rfl
          simp [hpc] at hq
        exact ⟨q, by rw [hother q hqp hqnp, hq]⟩

theorem parks_builds (h : parks pc = true) : builds pc = none := by
  cases pc <;> first | rfl | cases h

/-- The thread of a process that a `fork` fills. -/
theorem child_builds (h : Base s) (hst : (s.procs np).state = .unused ∨ (s.procs np).state = .embryo) :
    builds (s.procs np).pc = none :=
  parks_builds (h.parked_of_free (h.free_of_unborn hst)).place

theorem Births.embryo_of (h : Births s) (hpc : (s.procs p).pc = pc) (hb : builds pc = some np) :
    (s.procs np).state = .embryo := h.embryo p np (by rw [hpc, hb])

theorem child_of (h : Base s) (hb : Births s) (hpc : (s.procs p).pc = pc)
    (hbuilds : builds pc = some np) : builds (s.procs np).pc = none :=
  child_builds h (.inr (hb.embryo_of hpc hbuilds))

/-- A step of `fork` on the child it has. -/
theorem fork_child (h : Base s) (hb : Births s)
    (hon : (s.cpus c).on = .thread p) (hpc : (s.procs p).pc = pc₀)
    (hprocs : s'.procs = ((s.setProc np y).setPc p pc).procs) (hy : builds y.pc = none)
    (hbefore : builds pc₀ = some np) (hafter : ∀ k, builds pc = some k → k = np)
    (hlater : y.state = .embryo ↔ builds pc = some np)
    (hready : staged pc = some np → y.saved = true ∧ y.pc = .forkret ∧ y.kstack = true) : Births s' := by
  have hst := hb.embryo_of hpc hbefore
  subst hpc
  refine hb.child (fun e => ?_) hprocs (h.born hon) (child_builds h (.inr hst)) hy (fun k hk => ?_)
    (fun _ => hbefore)
    hafter hlater hready
  · exact h.born hon (e ▸ hst)
  · exact Option.some.inj (hk.symm.trans hbefore)

/-- The scheduler makes the process it has picked `RUNNING`. -/
theorem base_run (h : Base s) (hon : (s.cpus c).on = .picked i) :
    Base ((s.setProc i { s.procs i with state := .running }).setCpu c ⟨some i, .enter i⟩) := by
  have hpt := h.holder_picked hon
  have hst := h.picked _ _ hon
  have hoff : ∀ c', (s.cpus c').on ≠ .thread i := fun c' hon' => by
    obtain rfl := Option.some.inj (hpt.symm.trans (h.holder_of_state hon' (by simp [hst])))
    simp [hon] at hon'
  have hpark := h.off i hoff fun c' hon' => by simpa [hst] using (h.enter _ _ hon').1.1
  exact h.switch hpt (by simp [hon, On.proc]) (fun c' _ => hoff c')
    (.inl ⟨rfl, rfl, hpark.place, (hpark.ready (.inl hst)).2⟩)

/-- `wait` frees a child that has exited. -/
theorem base_reap (h : Base s) (hon : (s.cpus c).on = .thread p) (hpc : (s.procs p).pc = .waitScan)
    (hq : (s.procs q).state = .zombie) (pid : BitVec 32) :
    Base ((s.setProc q (s.procs q).reap).setPc p (.waitRel pid)) := by
  have hne : q ≠ p := by
    rintro rfl
    simp [h.running hon (by rw [hpc]; rfl)] at hq
  have hf := h.free_of_lock (h.lock_self hon (by rw [hpc]; rfl) hne) (.inr hq)
  exact h.local_set hon hpc rfl hf
    ⟨by rintro ⟨⟩, (h.parked_of_free hf).place, by rintro (h | h) <;> cases h⟩ rfl rfl rfl rfl rfl

/-- `sleep` goes on after the sleep. -/
theorem base_woken {nap : Nap} (h : Base s) (hon : (s.cpus c).on = .thread p)
    (hpc : (s.procs p).pc = .napWoken nap) : Base (s.setProc p { s.procs p with
      chan := none, pc := if nap = .wait then nap.back else .napRel nap }) := by
  have hrun := h.running hon (by rw [hpc]; rfl)
  refine h.move hon rfl ?_ (fun q hq => .inl (by simp [hq, Same.refl])) rfl ?_
  · simp only [setProc_procs, if_true, hrun]
    split
    · exact (back_running _).symm
    · rfl
  · simp only [setProc_procs, if_true, hpc]
    split
    · rename_i e
      rw [e]
      rfl
    · rfl

theorem zombie_of_slot (h : slot n (fun q => (s.procs q).parent = some p &&
    (s.procs q).state = .zombie) = some q) :
    (s.procs q).parent = some p ∧ (s.procs q).state = .zombie := by simpa using mem_slot h

theorem base_step (h : Base s) (hb : Births s) (hstep : Step n s a s') : Base s' := by
  cases hstep with
  | schedAcquire hon hfree =>
    exact h.turn (by simp [hon]) (fun _ => setCpu_cpus _) rfl rfl (by simp) (by simp) (by simp)
      (fun c' hc => by simp [hfree, Ne.symm hc])
  | schedSkip hon | schedBack hon =>
    exact h.turn (by simp [hon]) (fun _ => setCpu_cpus _) rfl rfl (by simp) (by simp)
      (by simp [h.lock, Holding, hon]) (fun _ _ => Iff.rfl)
  | schedPick hon _ hst =>
    refine h.turn (by simp [hon]) (fun _ => setCpu_cpus _) rfl rfl (by simp) ?_ (by simp [h.lock, Holding, hon])
      (fun _ _ => Iff.rfl)
    rintro q ⟨⟩
    exact hst
  | schedRun hon => exact base_run h hon
  | schedEnter hon =>
    obtain ⟨⟨hst, hplace⟩, hoff⟩ := h.enter _ _ hon
    obtain ⟨hown, hholds⟩ := parks_running hplace.1 hplace.2
    exact h.switch (h.holder_enter hon) (by simp [hon, On.proc]) (fun c' _ => hoff c')
      (.inr (.inl ⟨rfl, hst.trans hown.symm, hholds⟩))
  | @schedRelease c _ hon =>
    have hpt := (h.lock c).mpr (by simp [Holding, hon])
    exact h.turn (by simp [hon]) (fun _ => setCpu_cpus _) rfl rfl (by simp) (by simp) (by simp)
      (fun c' hc => by simp [hpt, Ne.symm hc])
  | call hon hpc hfree =>
    exact h.goto hon (by rw [hpc]; rfl) (enter_running _).1 rfl rfl (by simp [(enter_running _).2])
      (fun c' hc => by simp [hfree, Ne.symm hc])
  | lock hon hpc hfree =>
    obtain ⟨hrun, hrun', -, hholds⟩ := afterAcquire_running hpc
    exact h.goto hon hrun hrun' rfl rfl (by simp [hholds]) (fun c' hc => by simp [hfree, Ne.symm hc])
  | unlock hon hpc =>
    obtain ⟨hrun, hrun', hholds, hholds'⟩ := afterRelease_running hpc
    have hpt := (h.holder hon).mpr hholds
    exact h.goto hon hrun hrun' rfl rfl (by simp [hholds']) (fun c' hc => by simp [hpt, Ne.symm hc])
  | swtch hon hpc _ => exact h.swtches hon hpc
  | allocFound hon hpc hfound =>
    have hf := h.free_of_unborn (.inl (by simpa using mem_slot hfound))
    have hpark := h.parked_of_free hf
    exact h.local_set hon hpc rfl hf ⟨by simp, hpark.place, by simp⟩ rfl rfl rfl rfl rfl
  | allocStack hon hpc =>
    have hst := hb.embryo _ _ (by rw [hpc]; rfl)
    exact h.local_set hon hpc rfl (h.free_of_unborn (.inr hst)) ⟨by simp [hst], rfl, fun _ => ⟨rfl, by simp⟩⟩
      rfl rfl rfl rfl rfl
  | stackFail hon hpc | copyFail hon hpc =>
    have hf := h.free_of_unborn (.inr (hb.embryo _ _ (by rw [hpc]; rfl)))
    exact h.local_set hon hpc rfl hf ⟨by simp, (h.parked_of_free hf).place, by simp⟩ rfl rfl rfl rfl rfl
  | forkParent hon hpc =>
    have hf := h.free_of_unborn (.inr (hb.embryo _ _ (by rw [hpc]; rfl)))
    have hpark := h.parked_of_free hf
    exact h.local_set hon hpc rfl hf ⟨hpark.idle, hpark.place, hpark.ready⟩ rfl rfl rfl rfl rfl
  | forkRun hon hpc =>
    have hf := h.free_of_unborn (.inr (hb.embryo _ _ (by rw [hpc]; rfl)))
    obtain ⟨hsaved, hret, -⟩ := hb.ready _ _ (by rw [hpc]; rfl)
    exact h.local_set hon hpc rfl hf ⟨by simp, (h.parked_of_free hf).place, fun _ => ⟨hsaved, by simp [hret]⟩⟩
      rfl rfl rfl rfl rfl
  | exitBody hon hpc => exact h.exits hon hpc
  | waitReap hon hpc hfound =>
    exact (base_reap h hon hpc (zombie_of_slot hfound).2 _).congr rfl rfl rfl
  | killFound hon hpc _ =>
    exact h.kills hon hpc
  | yieldSet hon hpc | napSet hon hpc =>
    exact h.move hon rfl (by simp; rfl) (fun q hq => .inl (by simp [hq, Same.refl])) rfl (by simp [hpc]; rfl)
  | napWoken hon hpc => exact base_woken h hon hpc
  | @napTake c p nap lk hon hpc hlk =>
    refine h.local hon hpc rfl rfl rfl rfl (back_running _) ?_
    cases nap <;> first | rfl | cases hlk
  | wakeScan hon hpc => exact h.wakes hon (by rw [hpc]; rfl) (by rw [hpc]; rfl) rfl rfl
  | intr hfree => exact h.intr hfree
  | acquire | release => exact h.congr rfl rfl rfl
  | allocNone hon hpc | forkCopy hon hpc | waitNone hon hpc | waitSleep hon hpc
  | killNone hon hpc | napDrop hon hpc | sleep hon hpc | acquiresleep hon hpc | lockBusy hon hpc
  | lockTake hon hpc | lockRel hon hpc | releasesleep hon hpc | unlockSet hon hpc
  | unlockRel hon hpc =>
    exact h.local hon hpc rfl rfl rfl rfl rfl rfl

theorem births_step (h : Base s) (hb : Births s) (hstep : Step n s a s') : Births s' := by
  cases hstep with
  | schedAcquire | schedSkip | schedPick | schedBack | schedRelease | acquire | release =>
    exact hb.grown fun _ => Grown.refl _
  | @schedRun c i hon => exact hb.set rfl rfl (by simp [h.picked _ _ hon]) (by simp) rfl rfl
  | @schedEnter c i hon =>
    have hst := (h.enter _ _ hon).1.1
    exact hb.set rfl rfl (by simp [hst]) (by simp [hst]) rfl rfl
  | call hon hpc => exact hb.goto hpc rfl (h.born hon) (enter_builds _).1 (enter_builds _).2
  | lock hon hpc => exact hb.goto rfl rfl (h.born hon) (afterAcquire_builds hpc).1 (afterAcquire_builds hpc).2
  | unlock hon hpc => exact hb.goto rfl rfl (h.born hon) (afterRelease_builds hpc).1 (afterRelease_builds hpc).2
  | swtch hon hpc =>
    exact hb.set rfl rfl (h.born hon) (h.born hon) (afterSwtch_builds hpc).1 (afterSwtch_builds hpc).2
  | @allocFound c p np hon hpc hfound =>
    have hst : (s.procs np).state = .unused := by simpa using mem_slot hfound
    have hnp := child_builds h (.inl hst)
    refine hb.child (fun e => ?_) rfl (h.born hon) hnp hnp (by simp [hpc, builds]) (by simp [hst])
      (by simp [builds]) (by simp [builds]) (by rintro ⟨⟩)
    exact (h.free_of_unborn (.inl hst) c).1 (e ▸ hon)
  | allocStack hon hpc =>
    exact fork_child h hb hon hpc rfl rfl rfl (by simp [builds]) (by simp [hb.embryo_of hpc rfl, builds])
      (fun _ => ⟨rfl, rfl, rfl⟩)
  | stackFail hon hpc | copyFail hon hpc | forkRun hon hpc =>
    exact fork_child h hb hon hpc rfl (child_of h hb hpc rfl) rfl (by rintro _ ⟨⟩)
      (by simp [builds]) (by rintro ⟨⟩)
  | forkParent hon hpc =>
    exact fork_child h hb hon hpc rfl (child_of h hb hpc rfl) rfl (by simp [builds])
      (by simp [hb.embryo_of hpc rfl, builds]) (fun _ => hb.ready _ _ (by rw [hpc]; rfl))
  | @exitBody c p hon hpc =>
    have hrun := h.running hon (by rw [hpc]; rfl)
    refine hb.grown fun q => ?_
    by_cases hq : q = p
    · subst hq
      rw [exitBody_self s q n hrun]
      exact Grown.of_born (h.born hon) (by simp) (by rw [hpc]; rfl) (by rw [hpc]; rfl)
    · classical
      rw [exitBody_other s n hq]
      by_cases hw : exitWakes s p n q
      · exact Grown.of_born (by simp [hw.1]) (by simp [hw]) rfl rfl
      · exact ⟨by simp [hw], rfl, rfl, fun _ => ⟨rfl, rfl, rfl⟩⟩
  | waitReap hon hpc hfound =>
    exact hb.set_goto hpc rfl (h.born hon)
      (Grown.of_born (by simp [zombie_of_slot hfound]) (by rintro ⟨⟩) rfl rfl) rfl rfl
  | killFound hon hpc => exact hb.set_goto hpc rfl (h.born hon) (Grown.kill _) rfl rfl
  | yieldSet hon hpc | napSet hon hpc => exact hb.set hpc rfl (h.born hon) (by simp) rfl rfl
  | @napWoken c p nap hon hpc =>
    refine hb.set hpc rfl (h.born hon) (h.born hon) ?_ ?_ <;> dsimp only <;> split
    · exact (back_builds nap).1
    · rfl
    · exact (back_builds nap).2
    · rfl
  | napTake hon hpc hlk => exact hb.goto hpc rfl (h.born hon) (back_builds _).1 (back_builds _).2
  | @wakeScan c p w hon hpc =>
    have hrun := h.running hon (by rw [hpc]; rfl)
    have hself : (wakeup1 s w.chan).procs p = s.procs p := wake_same _ _ (by simp [hrun])
    have hpc' : ((wakeup1 s w.chan).procs p).pc = .wakeScan w := by rw [hself, hpc]
    have hwoken : Births (wakeup1 s w.chan) := hb.grown fun q => Grown.wake (s.procs q) w.chan
    exact hwoken.goto hpc' rfl (by simp [hself, hrun]) rfl rfl
  | intr hfree => exact hb.grown fun q => Grown.wake _ _
  | allocNone hon hpc | forkCopy hon hpc | waitNone hon hpc | waitSleep hon hpc
  | killNone hon hpc | napDrop hon hpc | sleep hon hpc | acquiresleep hon hpc | lockBusy hon hpc
  | lockTake hon hpc | lockRel hon hpc | releasesleep hon hpc | unlockSet hon hpc
  | unlockRel hon hpc =>
    exact hb.goto hpc rfl (h.born hon) rfl rfl

theorem base_initial : Base initial := by
  refine ⟨by simp [initial, Holding], fun _ => rfl, by rintro _ _ ⟨⟩, by rintro _ _ _ ⟨⟩, by rintro _ _ ⟨⟩,
    by rintro _ _ ⟨⟩, fun p _ _ => ?_⟩
  by_cases hp : p = initproc
  · simp only [initial, hp, update_self]
    exact ⟨by simp, rfl, fun _ => ⟨rfl, by simp⟩⟩
  · simp only [initial, update_of_ne hp, freeSlot]
    exact ⟨by simp, rfl, by simp⟩

theorem initial_slot (p : Nat) : (initial.procs p).pc = .dead ∨ (initial.procs p).pc = .forkret := by
  by_cases hp : p = initproc <;> simp [initial, hp, freeSlot]

theorem births_initial : Births initial := by
  have hnone : ∀ p, builds (initial.procs p).pc = none ∧ staged (initial.procs p).pc = none := by
    intro p
    rcases initial_slot p with h | h <;> rw [h] <;> exact ⟨rfl, rfl⟩
  refine ⟨fun p np h => ?_, fun p q np h => ?_, fun p np h => ?_, fun np h => ?_⟩
  · simp [hnone] at h
  · simp [hnone] at h
  · simp [hnone] at h
  · by_cases hp : np = initproc <;> simp [initial, hp, freeSlot] at h

structure Table (s : State) : Prop where
  base : Base s
  births : Births s

theorem Table.step (h : Table s) (hstep : Step n s a s') : Table s' :=
  ⟨base_step h.base h.births hstep, births_step h.base h.births hstep⟩

theorem table_initial : Table initial := ⟨base_initial, births_initial⟩

theorem table_reach (h : Reachable (kernel n) s) : Table s := by
  refine h.invariant (fun s hs => ?_) (fun s a s' ht hs => ht.step hs)
  rw [show s = initial from hs]
  exact table_initial

def Executes (s : State) (c p : Nat) : Prop := (s.cpus c).on = .thread p

/-- The processor is in the scheduler, which has not made its process `RUNNING`, or in a thread that
has given up its process's `RUNNING` and is on its way to the scheduler. -/
def HandOver (s : State) (c : Nat) : Prop :=
  match (s.cpus c).on with
  | .enter _ => False
  | .thread p => (s.procs p).pc.afterSwtch ≠ none
  | _ => True

theorem afterSwtch_none (pc : Pc) : pc.afterSwtch = none ↔ pc.ownState = .running := by
  cases pc <;> simp [Pc.afterSwtch, Pc.ownState]

/-- No process runs twice, and one that does not run can be resumed. -/
structure RunsOnce (s : State) : Prop where
  context : ∀ c c' p, Executes s c p → Executes s c' p → c = c'
  running : ∀ p, (s.procs p).state = .running ↔ ∃ c, (s.cpus c).proc = some p ∧ ¬ HandOver s c
  saved : s.ptable = none → ∀ p, (s.procs p).state = .runnable ∨ (s.procs p).state = .sleeping →
    (s.procs p).saved = true ∧ ∀ c, ¬ Executes s c p

theorem Table.runsOnce (h : Table s) : RunsOnce s := by
  refine ⟨h.base.one, fun p => ⟨fun hst => ?_, ?_⟩, fun hfree p hst => ?_⟩
  · by_cases ht : ∃ c, (s.cpus c).on = .thread p
    · obtain ⟨c, hon⟩ := ht
      have hown := h.base.thread c p hon
      exact ⟨c, by simp [h.base.var, hon, On.proc], by simp [HandOver, hon, afterSwtch_none, ← hown, hst]⟩
    · by_cases he : ∃ c, (s.cpus c).on = .enter p
      · obtain ⟨c, hon⟩ := he
        exact ⟨c, by simp [h.base.var, hon, On.proc], by simp [HandOver, hon]⟩
      · exact absurd hst (h.base.off p (not_exists.mp ht) (not_exists.mp he)).idle
  · rintro ⟨c, hproc, hno⟩
    rw [h.base.var] at hproc
    cases hon : (s.cpus c).on with
    | enter q =>
      obtain rfl : q = p := by simpa [hon, On.proc] using hproc
      exact (h.base.enter c q hon).1.1
    | thread q =>
      obtain rfl : q = p := by simpa [hon, On.proc] using hproc
      have hown := h.base.thread c q hon
      simpa [HandOver, hon, afterSwtch_none, ← hown] using hno
    | _ => simp [HandOver, hon] at hno
  · have hoff : ∀ c, (s.cpus c).on ≠ .thread p := fun c hon => by
      have := h.base.holder_of_state hon (by rcases hst with h' | h' <;> simp [h'])
      simp [hfree] at this
    have henter : ∀ c, (s.cpus c).on ≠ .enter p := fun c hon => by
      simp [h.base.holder_enter hon] at hfree
    exact ⟨((h.base.off p hoff henter).ready hst).1, hoff⟩

/-- `scheduler`, `sched`, `yield`, `sleep`, `exit`, `fork` and `forkret`, in any interleaving. -/
theorem runs_once (n : Nat) (h : Reachable (kernel n) s) : RunsOnce s := (table_reach h).runsOnce

theorem slot_first {P : Nat → Bool} (hi : i < n) (hP : P i = true)
    (hmin : ∀ j, j < i → P j = false) : slot n P = some i :=
  List.find?_range_eq_some.mpr ⟨hP, List.mem_range.mpr hi, fun j hj => by simp [hmin j hj]⟩

/-- Processor 0 runs the first process, which has made a child. -/
def forked : State where
  procs := update (update (fun _ => freeSlot) 1
      ⟨.runnable, 2, some 0, none, false, true, true, .forkret⟩)
    0 ⟨.running, 1, none, none, false, true, false, .kernel⟩
  cpus := update (fun _ => ⟨none, .idle⟩) 0 ⟨some 0, .thread 0⟩
  ptable := none
  spins := fun _ => none
  locked := fun _ => false
  inside := fun _ _ => false
  nextpid := 3
  log := [.alloc 1 2]

theorem reach_forked {ok : State → Act → Prop} (hn : 2 ≤ n) (hsched : ∀ s, ok s (.sched 0))
    (hgo : ∀ s, ok s (.go 0)) (hfork : ∀ s, ok s (.call 0 .fork)) : Reach (kernel n) ok forked := by
  have h₀ : Reach (kernel n) ok initial := .init rfl
  have h₁ := h₀.step (hsched _) (.schedAcquire (c := 0) rfl rfl)
  have h₂ := h₁.step (hsched _) (.schedPick (c := 0) (i := 0) rfl (by omega) rfl)
  have h₃ := h₂.step (hsched _) (.schedRun (c := 0) (i := 0) rfl)
  have h₄ := h₃.step (hsched _) (.schedEnter (c := 0) (i := 0) rfl)
  have h₅ := h₄.step (hgo _) (.unlock (c := 0) (p := 0) rfl rfl)
  have h₆ := h₅.step (hfork _) (.call (c := 0) (p := 0) (f := .fork) rfl rfl rfl (by simp))
  have h₇ := h₆.step (hgo _) (.allocFound (c := 0) (p := 0) rfl rfl
    (slot_first (i := 1) (by omega) rfl fun j hj => by cases Nat.lt_one_iff.mp hj; rfl))
  have h₈ := h₇.step (hgo _) (.unlock (c := 0) (p := 0) rfl rfl)
  have h₉ := h₈.step (hgo _) (.allocStack (c := 0) (p := 0) rfl rfl)
  have h₁₀ := h₉.step (hgo _) (.forkCopy (c := 0) (p := 0) rfl rfl)
  have h₁₁ := h₁₀.step (hgo _) (.forkParent (c := 0) (p := 0) rfl rfl)
  have h₁₂ := h₁₁.step (hgo _) (.forkRun (c := 0) (p := 0) rfl rfl)
  convert h₁₂ using 1
  refine (State.mk.injEq ..).mpr ⟨funext fun q => ?_, funext fun c => ?_, rfl, rfl, rfl, rfl, rfl, rfl⟩
  · match q with
    | 0 | 1 | _ + 2 => rfl
  · match c with
    | 0 | _ + 1 => rfl

theorem reach_next (h : Reachable (kernel n) s) (hs : Step n s a s') :
    Reachable (kernel n) s' := h.next hs

/-- The first process runs on one processor and its child on another. -/
theorem runs_once_two : ∃ s, Reachable (kernel 64) s ∧ Executes s 0 0 ∧ Executes s 1 1 ∧
    RunsOnce s := by
  have h₀ : Reachable (kernel 64) forked :=
    reach_forked (by decide) (fun _ => trivial) (fun _ => trivial) (fun _ => trivial)
  have h₁ := reach_next h₀ (.schedAcquire (c := 1) rfl rfl)
  have h₂ := reach_next h₁ (.schedSkip (c := 1) (i := 0) rfl (by decide) (by rintro ⟨⟩))
  have h₃ := reach_next h₂ (.schedPick (c := 1) (i := 1) rfl (by decide) rfl)
  have h₄ := reach_next h₃ (.schedRun (c := 1) (i := 1) rfl)
  have h₅ := reach_next h₄ (.schedEnter (c := 1) (i := 1) rfl)
  exact ⟨_, h₅, rfl, rfl, runs_once 64 h₅⟩

end Xv6.ForkSlots
