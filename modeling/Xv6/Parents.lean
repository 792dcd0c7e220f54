import Xv6.ForkSlots

/-!
# Parents and children

What `fork`, `exit`, `wait` and `kill` keep of the parents and children in the process table. A
process in `wait` sleeps only while none of its children has exited: it looked through the table
with `ptable.lock` held, and `exit` wakes the parent, or `initproc` for the orphans, under the same
lock.
-/
namespace Xv6.Parents

open ProcTable Scheduler ForkSlots

variable {n c p q : Nat} {s s' : State} {log log' : List Event} {x y : Proc}

/-- The pids of the processes that have exited in slot `q`, the last one first. -/
def exits (q : Nat) (log : List Event) : List (BitVec 32) :=
  log.filterMap fun
    | .exited p pid => if p = q then some pid else none
    | _ => none

/-- The pids that `wait` has returned for the processes of slot `q`. -/
def reaps (q : Nat) (log : List Event) : List (BitVec 32) :=
  log.filterMap fun
    | .reaped _ p pid => if p = q then some pid else none
    | _ => none

def SameFate (q : Nat) (log log' : List Event) : Prop :=
  exits q log' = exits q log ∧ reaps q log' = reaps q log

theorem SameFate.of_eq (h : log' = log) (q : Nat) : SameFate q log log' := h ▸ ⟨rfl, rfl⟩

def Begun (x : Proc) : Prop := x.state ≠ .unused ∧ x.state ≠ .embryo

def Alive (x : Proc) : Prop := Begun x ∧ x.state ≠ .zombie

theorem alive_of_running (h : x.state = .running) : Alive x := by simp [Alive, Begun, h]

/-- The thread sleeps in `wait`, or has decided to with the lock held. -/
def Dozes (x : Proc) : Prop :=
  x.pc = .napSet .wait ∨ x.pc = .napSched .wait ∨ x.pc = .napWoken .wait ∧ x.state = .sleeping

def Naps (p : Nat) (x : Proc) : Prop :=
  ∃ nap, (x.pc = .napSched nap ∨ x.pc = .napWoken nap) ∧ x.chan = some (nap.chan p)

/-- `fork` has set the parent of its child. -/
def linked : Pc → Bool
  | .forkRun _ => true
  | _ => false

/-- The place is neither the body of `exit` nor on the way into the sleep of `wait`. -/
def stays : Pc → Bool
  | .exitBody | .napSet .wait | .napSched .wait => false
  | _ => true

structure Member (n : Nat) (log : List Event) (p : Nat) (x : Proc) : Prop where
  init : p = initproc → Alive x ∧ x.pc ≠ .exitBody ∧ x.parent = none
  outside : n ≤ p → p ≠ initproc → x.state = .unused
  proper : x.parent ≠ some p
  unused : x.state = .unused → x.parent = none
  naps : x.state = .sleeping → Naps p x
  stack : Begun x → x.kstack = true
  reaped : exits p log = (if x.state = .zombie then [x.pid] else []) ++ reaps p log

structure Family (n : Nat) (s : State) : Prop where
  member : ∀ p, Member n s.log p (s.procs p)
  parent : ∀ p, p ≠ initproc → Begun (s.procs p) →
    ∃ q, (s.procs p).parent = some q ∧ Alive (s.procs q)
  embryo : ∀ p np, builds (s.procs p).pc = some np →
    (s.procs np).parent = if linked (s.procs p).pc then some p else none
  waits : ∀ q, Dozes (s.procs q) → ∀ p, (s.procs p).parent = some q → (s.procs p).state ≠ .zombie

theorem Family.init (h : Family n s) : Alive (s.procs initproc) := ((h.member _).init rfl).1

/-- A process that is not free is in the table. -/
theorem Family.inside (h : Family n s) (hp : p ≠ initproc) (hst : (s.procs p).state ≠ .unused) :
    p < n := by
  by_contra hn
  exact hst ((h.member p).outside (by omega) hp)

theorem Family.zombie_inside (h : Family n s) (hst : (s.procs p).state = .zombie) : p < n := by
  refine h.inside ?_ (by simp [hst])
  rintro rfl
  exact h.init.2 hst

/-- What a step may do to process `p` without touching what holds of it by itself. -/
structure Kin (p : Nat) (x y : Proc) : Prop where
  unused : y.state = .unused ↔ x.state = .unused
  embryo : y.state = .embryo ↔ x.state = .embryo
  zombie : y.state = .zombie ↔ x.state = .zombie
  parent : y.parent = x.parent
  kstack : y.kstack = x.kstack
  pid : y.pid = x.pid
  stays : y.pc = .exitBody → p = initproc → x.pc = .exitBody
  naps : y.state = .sleeping → Naps p y

namespace Kin

theorem refl (hx : x.state = .sleeping → Naps p x) : Kin p x x :=
  ⟨Iff.rfl, Iff.rfl, Iff.rfl, rfl, rfl, rfl, fun h _ => h, hx⟩

theorem born (h : Kin p x y) : Begun y ↔ Begun x := by simp [Begun, h.unused, h.embryo]

theorem alive (h : Kin p x y) : Alive y ↔ Alive x := by simp [Alive, h.born, h.zombie]

/-- The move of a running thread. -/
theorem goto {pc : Pc} (hst : x.state = .running) (hstays : pc = .exitBody → p ≠ initproc) :
    Kin p x { x with pc := pc } :=
  ⟨Iff.rfl, Iff.rfl, Iff.rfl, rfl, rfl, rfl, fun h hp => absurd hp (hstays h),
    fun h => by simp [hst] at h⟩

/-- A sleeper that is made `RUNNABLE`. -/
theorem rouse (hst : x.state = .sleeping) (hst' : y.state = .runnable) (hparent : y.parent = x.parent)
    (hstack : y.kstack = x.kstack) (hpid : y.pid = x.pid) (hpc : y.pc = x.pc) : Kin p x y :=
  ⟨by simp [hst, hst'], by simp [hst, hst'], by simp [hst, hst'], hparent, hstack, hpid,
    fun h _ => hpc ▸ h, fun h => by simp [hst'] at h⟩

theorem wake (chan : Chan) (h : x.state = .sleeping → Naps p x) : Kin p x (x.wake chan) := by
  unfold Proc.wake
  split
  · rename_i hw
    exact Kin.rouse hw.1 rfl rfl rfl rfl rfl
  · exact Kin.refl h

end Kin

namespace Member

theorem kin (h : Member n log p x) (hk : Kin p x y) (hlog : SameFate p log log') :
    Member n log' p y where
  init hp := by
    obtain ⟨ha, hpc, hpar⟩ := h.init hp
    exact ⟨hk.alive.mpr ha, fun e => hpc (hk.stays e hp), hk.parent.trans hpar⟩
  outside hn hp := hk.unused.mpr (h.outside hn hp)
  proper := hk.parent ▸ h.proper
  unused hu := hk.parent.trans (h.unused (hk.unused.mp hu))
  naps := hk.naps
  stack hb := hk.kstack.trans (h.stack (hk.born.mp hb))
  reaped := by
    rw [hlog.1, hlog.2, h.reaped, hk.pid]
    simp only [hk.zombie]

theorem self (h : Member n log p x) : Kin p x x := Kin.refl h.naps

theorem relog (h : Member n log p x) (hlog : SameFate p log log') : Member n log' p x :=
  h.kin h.self hlog

/-- The parent has exited. -/
theorem orphan (h : Member n log q x) : Member n log q
    { x with parent := if x.parent = some p then some initproc else x.parent } where
  init hq := by
    obtain ⟨ha, hpc, hpar⟩ := h.init hq
    exact ⟨ha, hpc, by simp [hpar]⟩
  outside := h.outside
  proper := by
    dsimp only
    split
    · rintro ⟨⟩
      simp_all [(h.init rfl).2.2]
    · exact h.proper
  unused hu := by simp [h.unused hu]
  naps := h.naps
  stack := h.stack
  reaped := h.reaped

end Member

/-- What a step may do to the place of a thread without touching the children that are made. -/
structure SameChild (pc₀ pc : Pc) : Prop where
  builds : builds pc = builds pc₀
  linked : linked pc = linked pc₀

/-- A process may begin to sleep in `wait` when none of its children has exited. -/
def MayDoze (s : State) (q : Nat) (y : Proc) : Prop :=
  Dozes y → ∀ k, (s.procs k).parent = some q → (s.procs k).state ≠ .zombie

theorem Family.kin (h : Family n s) (hk : ∀ q, Kin q (s.procs q) (s'.procs q))
    (hc : ∀ q, SameChild (s.procs q).pc (s'.procs q).pc) (hd : ∀ q, MayDoze s q (s'.procs q))
    (hlog : ∀ q, SameFate q s.log s'.log) : Family n s' where
  member q := (h.member q).kin (hk q) (hlog q)
  parent p hp hb := by
    obtain ⟨q, hq, ha⟩ := h.parent p hp ((hk p).born.mp hb)
    exact ⟨q, (hk p).parent.trans hq, (hk q).alive.mpr ha⟩
  embryo p np hp := by
    rw [(hc p).builds] at hp
    rw [(hk np).parent, h.embryo p np hp, (hc p).linked]
  waits q hq p hp hz := hd q hq p ((hk p).parent ▸ hp) ((hk p).zombie.mp hz)

/-- One entry changes. -/
theorem Family.set (h : Family n s) (hprocs : s'.procs = (s.setProc p y).procs)
    (hk : Kin p (s.procs p) y) (hc : SameChild (s.procs p).pc y.pc) (hd : MayDoze s p y)
    (hlog : ∀ q, SameFate q s.log s'.log) : Family n s' := by
  have hself : s'.procs p = y := by simp [hprocs]
  have hother : ∀ q, q ≠ p → s'.procs q = s.procs q := fun q hq => by simp [hprocs, hq]
  refine h.kin (fun q => ?_) (fun q => ?_) (fun q => ?_) hlog <;> by_cases hq : q = p
  · rwa [hq, hself]
  · exact hother q hq ▸ (h.member q).self
  · rwa [hq, hself]
  · exact hother q hq ▸ ⟨rfl, rfl⟩
  · rwa [hq, hself]
  · exact hother q hq ▸ h.waits q

theorem not_dozes (hst : y.state ≠ .sleeping) (hpc : stays y.pc = true) : ¬ Dozes y := by
  rintro (e | e | ⟨-, e⟩)
  · simp [e, stays] at hpc
  · simp [e, stays] at hpc
  · exact hst e

/-- A change of the state does not make a thread doze that did not. -/
theorem Dozes.of_awake (h : Dozes y) (hpc : y.pc = x.pc)
    (hst : y.state = x.state ∨ y.state ≠ .sleeping) : Dozes x := by
  rcases h with h | h | ⟨h, hs⟩
  · exact .inl (hpc ▸ h)
  · exact .inr (.inl (hpc ▸ h))
  · rcases hst with e | e
    · exact .inr (.inr ⟨hpc ▸ h, e ▸ hs⟩)
    · exact absurd hs e

@[simp] theorem wake_pc (x : Proc) (chan : Chan) : (x.wake chan).pc = x.pc := by
  unfold Proc.wake; split <;> rfl

theorem Dozes.of_wake {chan : Chan} (h : Dozes (x.wake chan)) : Dozes x := by
  unfold Proc.wake at h
  split at h
  · exact h.of_awake rfl (.inr (by simp))
  · exact h

theorem Family.wake (h : Family n s) (chan : Chan) : Family n (wakeup1 s chan) := by
  refine h.kin (fun q => Kin.wake _ (h.member q).naps) (fun q => ?_) (fun q hd => h.waits q hd.of_wake)
    (SameFate.of_eq rfl)
  exact (wake_pc (s.procs q) chan).symm ▸ ⟨rfl, rfl⟩

/-- The entry of a child on which the `fork` of `p`, gone on to `pc`, has worked. -/
structure Infant (p np : Nat) (pc : Pc) (y : Proc) : Prop where
  idle : y.state ≠ .sleeping ∧ y.state ≠ .zombie
  place : parks y.pc = true
  unused : y.state = .unused → y.parent = none
  born : Begun y → y.parent = some p ∧ y.kstack = true
  parent : y.parent = none ∨ y.parent = some p
  filled : ∀ k, builds pc = some k → k = np ∧ y.parent = if linked pc then some p else none

theorem stays_of_parks {pc : Pc} (h : parks pc = true) : stays pc = true := by
  cases pc <;> first | rfl | cases h

/-- A step of `fork` of `p` on the slot of the child. -/
theorem Family.child {np : Nat} {pc : Pc} (h : Family n s) (hne : np ≠ p)
    (hprocs : s'.procs = ((s.setProc np y).setPc p pc).procs)
    (hlog : ∀ q, SameFate q s.log s'.log) (hst : (s.procs p).state = .running)
    (hnp : ¬ Begun (s.procs np)) (hin : np < n)
    (hmine : ∀ q, q ≠ p → builds (s.procs q).pc ≠ some np) (hy : Infant p np pc y)
    (hpc : stays pc = true) : Family n s' := by
  have hself : s'.procs p = { s.procs p with pc := pc } := by simp [hprocs, Ne.symm hne]
  have hchild : s'.procs np = y := by simp [hprocs, hne]
  have hother : ∀ q, q ≠ p → q ≠ np → s'.procs q = s.procs q := fun q hq hq' => by
    simp [hprocs, hq, hq']
  have hkin : ∀ q, q ≠ np → Kin q (s.procs q) (s'.procs q) := by
    intro q hq
    by_cases hqp : q = p
    · subst hqp
      rw [hself]
      exact Kin.goto hst fun e => by simp [e, stays] at hpc
    · exact hother q hqp hq ▸ (h.member q).self
  have hzombie : (s.procs np).state ≠ .zombie := fun e => hnp (by simp [Begun, e])
  refine ⟨fun q => ?_, fun k hk hb => ?_, fun q k hk => ?_, fun q hq k hk => ?_⟩
  · by_cases hq : q = np
    · subst hq
      rw [hchild]
      refine ⟨fun e => absurd h.init.1 (e ▸ hnp), fun e => absurd hin (by omega), ?_, hy.unused,
        fun e => absurd e hy.idle.1, fun hb => (hy.born hb).2, ?_⟩
      · rcases hy.parent with e | e <;> simp [e, Ne.symm hne]
      · rw [(hlog q).1, (hlog q).2, (h.member q).reaped]
        simp [hzombie, hy.idle.2]
    · exact (h.member q).kin (hkin q hq) (hlog q)
  · by_cases hq : k = np
    · subst hq
      rw [hchild] at hb ⊢
      exact ⟨p, (hy.born hb).1, by rw [hself]; exact alive_of_running hst⟩
    · obtain ⟨r, hr, ha⟩ := h.parent k hk ((hkin k hq).born.mp hb)
      have hrnp : r ≠ np := fun e => hnp (e ▸ ha.1)
      exact ⟨r, (hkin k hq).parent.trans hr, (hkin r hrnp).alive.mpr ha⟩
  · by_cases hqp : q = p
    · subst hqp
      simp only [hself] at hk ⊢
      obtain ⟨rfl, hpar⟩ := hy.filled k hk
      rw [hchild, hpar]
    · have hqnp : q ≠ np := by
        rintro rfl
        simp [hchild, parks_builds hy.place] at hk
      rw [hother q hqp hqnp] at hk ⊢
      rw [(hkin k fun e => hmine q hqp (e ▸ hk)).parent]
      exact h.embryo q k hk
  · have hqnp : q ≠ np := by
      rintro rfl
      exact not_dozes hy.idle.1 (stays_of_parks hy.place) (hchild ▸ hq)
    have hqp : q ≠ p := by
      rintro rfl
      rw [hself] at hq
      exact not_dozes (by simp [hst]) hpc hq
    rw [hother q hqp hqnp] at hq
    by_cases hknp : k = np
    · rw [hknp, hchild]
      exact hy.idle.2
    · exact fun hz => h.waits q hq k ((hkin k hknp).parent ▸ hk) ((hkin k hknp).zombie.mp hz)

/-- A thread that stands where a thread that is off cannot be is executed by a processor. -/
theorem executes_of_place (h : Base s) (hp : parks (s.procs p).pc = false) :
    ∃ c, (s.cpus c).on = .thread p := by
  by_contra hno
  have hoff := not_exists.mp hno
  by_cases he : ∃ c, (s.cpus c).on = .enter p
  · obtain ⟨c, hc⟩ := he
    simp [(h.enter c p hc).1.2.1] at hp
  · simp [(h.off p hoff (not_exists.mp he)).place] at hp

section

variable (h : Base s) (hon : (s.cpus c).on = .thread p) (hholds : (s.procs p).pc.holds = true) (hq : q ≠ p)
include h hon hholds hq

/-- While a thread holds the lock, another one that is executed is at no place that holds it. -/
theorem not_at {pc : Pc} (hparks : parks pc = false) (hholds' : pc.holds = true) :
    (s.procs q).pc ≠ pc := by
  rintro rfl
  obtain ⟨c', hon'⟩ := executes_of_place h hparks
  exact h.lock_self hon hholds hq c' ((h.holder hon').mpr hholds') hon'

/-- While a thread holds the lock, another one in `wait` is asleep there. -/
theorem dozes_sleeping (hd : Dozes (s.procs q)) :
    (s.procs q).pc = .napWoken .wait ∧ (s.procs q).state = .sleeping := by
  rcases hd with hd | hd | hd
  · exact absurd hd (not_at h hon hholds hq rfl rfl)
  · exact absurd hd (not_at h hon hholds hq rfl rfl)
  · exact hd

end

@[simp] theorem wake_pid (x : Proc) (chan : Chan) : (x.wake chan).pid = x.pid := by
  unfold Proc.wake; split <;> rfl

theorem exitBody_log (s : State) (p n : Nat) :
    (exitBody s p n).log = .exited p (s.procs p).pid :: s.log := by
  have hlog : ∀ s, (reparent s p n).log = s.log ∧
      ((reparent s p n).procs p).pid = (s.procs p).pid := by
    intro s
    unfold reparent
    dsimp only
    split
    · refine ⟨rfl, (wake_pid _ _).trans ?_⟩
      dsimp only
      split <;> rfl
    · refine ⟨rfl, ?_⟩
      dsimp only
      split <;> rfl
  simp only [exitBody, State.note, State.setProc, (hlog _).1, (hlog _).2]
  cases (s.procs p).parent with
  | none => rfl
  | some r => simp [wakeupParent, wakeup1]

theorem exitBody_fate (s : State) (n : Nat) (hq : q ≠ p) :
    SameFate q s.log (exitBody s p n).log := by
  simp [SameFate, exitBody_log, exits, reaps, Ne.symm hq]

/-- What the section of `exit` of `p` keeps of another process, but for its parent. -/
theorem exitBody_kin (hq : q ≠ p) (h : Member n log q (s.procs q)) : Kin q
    { s.procs q with
      parent := if (s.procs q).parent = some p then some initproc else (s.procs q).parent }
    ((exitBody s p n).procs q) := by
  classical
  rw [exitBody_other s n hq]
  by_cases hw : exitWakes s p n q
  · exact Kin.rouse hw.1 (by simp [hw]) rfl rfl rfl rfl
  · simpa [hw] using h.orphan.self

/-- A process that still sleeps in `wait` after the section of `exit` was not to be woken. -/
theorem dozes_after (h : Family n s) (hbase : Base s) (hon : (s.cpus c).on = .thread p)
    (hpc : (s.procs p).pc = .exitBody) (hq : q ≠ p) (hd : Dozes ((exitBody s p n).procs q)) :
    Dozes (s.procs q) ∧ (s.procs p).parent ≠ some q ∧
    (q = initproc → ∀ k, (s.procs k).parent = some p → (s.procs k).state ≠ .zombie) := by
  classical
  rw [exitBody_other s n hq] at hd
  have hd' : Dozes (s.procs q) := by
    refine hd.of_awake rfl ?_
    by_cases hw : exitWakes s p n q <;> simp [hw]
  obtain ⟨hpcq, hsleep⟩ := dozes_sleeping hbase hon (by rw [hpc]; rfl) hq hd'
  have hno : ¬ exitWakes s p n q := fun hw => by simp [Dozes, hpcq, hw] at hd
  have hchan : (s.procs q).chan = some (.proc q) := by
    obtain ⟨nap, hnap | hnap, hchan⟩ := (h.member q).naps hsleep
    · simp [hpcq] at hnap
    · obtain rfl : nap = .wait := by simpa [hpcq] using hnap.symm
      exact hchan
  refine ⟨hd', fun hpar => hno ⟨hsleep, .inl ⟨q, hpar, hchan⟩⟩, ?_⟩
  rintro rfl k hk hz
  exact hno ⟨hsleep, .inr ⟨⟨k, h.zombie_inside hz, hk, hz⟩, hchan⟩⟩

/-- The section of `exit`. -/
theorem Family.exit (h : Family n s) (hbase : Base s) (hbirths : Births s)
    (hon : (s.cpus c).on = .thread p) (hpc : (s.procs p).pc = .exitBody) :
    Family n (exitBody s p n) := by
  have hrun : (s.procs p).state = .running := hbase.running hon (by rw [hpc]; rfl)
  have hself := exitBody_self s p n hrun
  rw [if_neg (h.member p).proper] at hself
  have hkin := fun q (hq : q ≠ p) => exitBody_kin hq (h.member q)
  have hinit : p ≠ initproc := fun e => ((h.member p).init e).2.1 hpc
  have halive : ∀ q, q ≠ p → Alive (s.procs q) → Alive ((exitBody s p n).procs q) :=
    fun q hq ha => (hkin q hq).alive.mpr ha
  have hpcs : ∀ q, q ≠ p → ((exitBody s p n).procs q).pc = (s.procs q).pc := by
    classical
    exact fun q hq => by rw [exitBody_other s n hq]
  refine ⟨fun q => ?_, fun k hk hb => ?_, fun q k hk => ?_, fun q hq k hk hz => ?_⟩
  · by_cases hq : q = p
    · subst hq
      have hm := h.member q
      rw [hself]
      refine ⟨fun e => absurd e hinit, fun hn e => ?_, hm.proper, by simp, by simp,
        fun _ => hm.stack (alive_of_running hrun).1, ?_⟩
      · simpa [hrun] using hm.outside hn e
      · simpa [exitBody_log, exits, reaps, hrun] using hm.reaped
    · exact (h.member q).orphan.kin (hkin q hq) (exitBody_fate s n hq)
  · by_cases hkp : k = p
    · subst hkp
      obtain ⟨r, hr, ha⟩ := h.parent k hk (alive_of_running hrun).1
      exact ⟨r, by rw [hself, hr], halive r (fun e => (h.member k).proper (e ▸ hr)) ha⟩
    · obtain ⟨r, hr, ha⟩ := h.parent k hk ((hkin k hkp).born.mp hb)
      rw [(hkin k hkp).parent]
      by_cases hrp : r = p
      · exact ⟨initproc, by simp [hr, hrp], halive _ (Ne.symm hinit) h.init⟩
      · exact ⟨r, by simp [hr, hrp], halive r hrp ha⟩
  · have hqp : q ≠ p := by
      rintro rfl
      simp [hself, builds] at hk
    rw [hpcs q hqp] at hk ⊢
    have hkp : k ≠ p := fun e => hbase.born hon (e ▸ hbirths.embryo q k hk)
    rw [(hkin k hkp).parent, h.embryo q k hk]
    split <;> simp [hqp]
  · have hqp : q ≠ p := by
      rintro rfl
      simp [hself, Dozes] at hq
    obtain ⟨hd, hown, horphans⟩ := dozes_after h hbase hon hpc hqp hq
    by_cases hkp : k = p
    · rw [hkp, hself] at hk
      exact hown hk
    · have hz' := (hkin k hkp).zombie.mp hz
      rw [(hkin k hkp).parent] at hk
      by_cases hr : (s.procs k).parent = some p
      · exact horphans (by simpa [hr, eq_comm] using hk) k hr hz'
      · exact h.waits q hd k (by simpa [hr] using hk) hz'

/-- A child that has exited is freed. -/
theorem Family.free (h : Family n s) (hq : (s.procs q).state = .zombie)
    (hembryo : ∀ r np, builds (s.procs r).pc = some np → np ≠ q)
    (hprocs : ∀ r, s'.procs r = if r = q then (s.procs q).reap else s.procs r)
    (hlog : s'.log = .reaped p q (s.procs q).pid :: s.log) : Family n s' := by
  have hself : s'.procs q = (s.procs q).reap := by simp [hprocs]
  have hother : ∀ r, r ≠ q → s'.procs r = s.procs r := fun r hr => by simp [hprocs, hr]
  have hpc : ∀ r, (s'.procs r).pc = (s.procs r).pc := by
    intro r
    rw [hprocs]
    split
    · rename_i e
      exact e ▸ rfl
    · rfl
  have hborn : ∀ k, Begun (s'.procs k) → k ≠ q := by
    rintro k hb rfl
    simp [hself, Begun, Proc.reap] at hb
  have hchild : ∀ k r, (s'.procs k).parent = some r → k ≠ q := by
    rintro k r hr rfl
    simp [hself, Proc.reap] at hr
  refine ⟨fun r => ?_, fun k hk hb => ?_, fun r np hr => ?_, fun r hr k hk => ?_⟩
  · have hold := (h.member r).reaped
    by_cases hrq : r = q
    · subst hrq
      refine hself ▸ ⟨fun e => ?_, fun _ _ => rfl, by simp [Proc.reap], fun _ => rfl,
        by simp [Proc.reap], by simp [Begun, Proc.reap], ?_⟩
      · exact absurd hq (e ▸ h.init.2)
      · simpa [hlog, exits, reaps, Proc.reap, hq] using hold
    · rw [hother r hrq]
      exact (h.member r).relog (by simp [SameFate, hlog, exits, reaps, Ne.symm hrq])
  · have hkq := hborn k hb
    rw [hother k hkq] at hb ⊢
    obtain ⟨r, hr, ha⟩ := h.parent k hk hb
    exact ⟨r, hr, by rwa [hother r fun e => ha.2 (e ▸ hq)]⟩
  · rw [hpc] at hr ⊢
    rw [hother np (hembryo r np hr)]
    exact h.embryo r np hr
  · have hkq := hchild k r hk
    rw [hother k hkq] at hk ⊢
    refine h.waits r (hr.of_awake (hpc r) ?_) k hk
    rw [hprocs]
    split
    · exact .inr (by simp [Proc.reap])
    · exact .inl rfl

/-- `wait` of `p` frees its child `q`, with the move of the thread. -/
theorem Family.reap {pc₀ pc : Pc} (h : Family n s) (hbirths : Births s)
    (hpc₀ : (s.procs p).pc = pc₀) (hrun : (s.procs p).state = .running)
    (hq : (s.procs q).state = .zombie) (hc : SameChild pc₀ pc) (hb : builds pc = none)
    (hpc : stays pc = true) :
    Family n (((s.setProc q (s.procs q).reap).setPc p pc).note (.reaped p q (s.procs q).pid)) := by
  have hne : q ≠ p := fun e => by simp [e, hrun] at hq
  have hmoved : Family n (s.setPc p pc) :=
    h.set rfl (Kin.goto hrun fun e => by simp [e, stays] at hpc) (hpc₀ ▸ hc)
      (fun hd => absurd hd (not_dozes (by simp [hrun]) hpc)) (SameFate.of_eq rfl)
  have hzombie : (s.setPc p pc).procs q = s.procs q := by simp [hne]
  refine hmoved.free (by rw [hzombie, hq]) ?_ (fun r => ?_) (by rw [hzombie]; rfl)
  · rintro r np hr rfl
    by_cases hrp : r = p
    · simp [hrp, hb] at hr
    · have := hbirths.embryo r np (by simpa [hrp] using hr)
      simp [hq] at this
  · by_cases hrp : r = p
    · subst hrp
      simp [Ne.symm hne]
    · by_cases hrq : r = q <;> simp [hrp, hrq, hne]

end Xv6.Parents
