import Xv6.Parents

/-!
# Sleep locks

`acquiresleep` and `releasesleep` over `sleep` and `wakeup`. The spin lock inside a sleep lock is
held where the code says so; one process at a time has the sleep lock; and a process that sleeps for
it has seen it `locked`: it still is, or the process that unlocked it has not yet come to its
`wakeup`.
-/
namespace Xv6.SleepLock

open ProcTable Scheduler Function

variable {n c p q l : Nat} {s s' : State}

/-- The spin lock that the thread holds at its place in `sleep` or in the code of a sleep lock. -/
def spin : Pc → Option Spin
  | .napAcq nap | .napDrop nap => nap.lock
  | .lockTest l | .lockRel l | .unlockSet l | .unlockRel l => some (.sleepLock l)
  | .wakeAcq (.releasesleep l) | .wakeScan (.releasesleep l) | .wakeRel (.releasesleep l) => some (.sleepLock l)
  | _ => none

/-- The thread has the sleep lock, though not between the calls. -/
def owns : Pc → Option Nat
  | .lockRel l | .unlockSet l => some l
  | _ => none

/-- The thread has unlocked the sleep lock and is to wake the sleepers. -/
def wakes : Pc → Option Nat
  | .wakeAcq (.releasesleep l) | .wakeScan (.releasesleep l) => some l
  | _ => none

/-- The thread is in `sleep` for the sleep lock. -/
def sleepsFor : Pc → Option Nat
  | .napAcq (.acquiresleep l) | .napDrop (.acquiresleep l) | .napSet (.acquiresleep l) => some l
  | .napSched (.acquiresleep l) | .napWoken (.acquiresleep l) => some l
  | _ => none

def Drowsy (x : Proc) (l : Nat) : Prop := sleepsFor x.pc = some l ∧ (parks x.pc = true → x.state = .sleeping)

structure Spins (s : State) : Prop where
  held : ∀ p lk, spin (s.procs p).pc = some lk → s.spins lk = some p
  holder : ∀ p l, s.spins (.sleepLock l) = some p → spin (s.procs p).pc = some (.sleepLock l)

structure Owners (s : State) : Prop where
  inside : ∀ p l, s.inside p l = true → s.locked l = true ∧ (∀ q, s.inside q l = true → q = p) ∧
    ∀ q, owns (s.procs q).pc ≠ some l
  owner : ∀ p l, owns (s.procs p).pc = some l → s.locked l = true

/-- Nobody sleeps for a lock that is free and will not be woken. -/
def Sleepers (s : State) : Prop :=
  ∀ p l, Drowsy (s.procs p) l → s.locked l = true ∨ ∃ q, wakes (s.procs q).pc = some l

structure SleepLocks (s : State) : Prop where
  spins : Spins s
  owners : Owners s
  drowsy : Sleepers s

theorem spin_of_owns {pc : Pc} (h : owns pc = some l) : spin pc = some (.sleepLock l) := by
  cases pc <;> cases h <;> rfl

/-- The spin lock makes the owner in the code of the lock the only one. -/
theorem Spins.owner_eq (h : Spins s) (hp : spin (s.procs p).pc = some (.sleepLock l))
    (hq : owns (s.procs q).pc = some l) : q = p :=
  Option.some.inj ((h.held q _ (spin_of_owns hq)).symm.trans (h.held p _ hp))

theorem Spins.same (h : Spins s) (hspin : ∀ q, spin (s'.procs q).pc = spin (s.procs q).pc)
    (hspins : s'.spins = s.spins) : Spins s' where
  held p lk hp := by
    rw [hspins]
    exact h.held p lk (hspin p ▸ hp)
  holder p l hp := by
    rw [hspins] at hp
    exact (hspin p).trans (h.holder p l hp)

theorem Owners.same (h : Owners s)
    (hown : ∀ q l, owns (s'.procs q).pc = some l → owns (s.procs q).pc = some l)
    (hlocked : s'.locked = s.locked) (hinside : s'.inside = s.inside) : Owners s' where
  inside p l hp := by
    rw [hinside] at hp ⊢
    obtain ⟨h₁, h₂, h₃⟩ := h.inside p l hp
    exact ⟨hlocked ▸ h₁, h₂, fun q hq => h₃ q (hown q l hq)⟩
  owner p l hp := hlocked ▸ h.owner p l (hown p l hp)

def Plain (pc : Pc) : Prop := spin pc = none ∧ owns pc = none ∧ wakes pc = none

/-- What a step may do to a process without touching the locks. -/
structure Still (x y : Proc) : Prop where
  spin : spin y.pc = spin x.pc
  owns : owns y.pc = owns x.pc
  wakes : wakes y.pc = wakes x.pc
  drowsy : ∀ l, Drowsy y l → Drowsy x l

theorem Still.refl (x : Proc) : Still x x := ⟨rfl, rfl, rfl, fun _ h => h⟩

/-- A change that leaves the place of the thread. -/
theorem Still.of_pc {x y : Proc} (hpc : y.pc = x.pc)
    (hst : y.state = .sleeping → x.state = .sleeping) : Still x y :=
  ⟨by rw [hpc], by rw [hpc], by rw [hpc], fun l h => ⟨hpc ▸ h.1, fun hp => hst (h.2 (hpc ▸ hp))⟩⟩

/-- A move between places that have nothing to do with the locks. -/
theorem still_of_plain {x y : Proc} (hx : Plain x.pc) (hy : Plain y.pc)
    (hs : sleepsFor y.pc = none) : Still x y :=
  ⟨hy.1.trans hx.1.symm, hy.2.1.trans hx.2.1.symm, hy.2.2.trans hx.2.2.symm,
    fun l h => by simp [Drowsy, hs] at h⟩

theorem Still.wake (x : Proc) (chan : Chan) : Still x (x.wake chan) := by
  unfold Proc.wake
  split
  · exact Still.of_pc rfl (by simp)
  · exact Still.refl x

theorem SleepLocks.still (h : SleepLocks s) (hs : ∀ q, Still (s.procs q) (s'.procs q))
    (hspins : s'.spins = s.spins) (hlocked : s'.locked = s.locked)
    (hinside : s'.inside = s.inside) : SleepLocks s' := by
  refine ⟨h.spins.same (fun q => (hs q).spin) hspins,
    h.owners.same (fun q l hq => (hs q).owns ▸ hq) hlocked hinside, fun p l hp => ?_⟩
  rw [hlocked]
  refine (h.drowsy p l ((hs p).drowsy l hp)).imp id ?_
  rintro ⟨q, hq⟩
  exact ⟨q, (hs q).wakes.trans hq⟩

theorem SleepLocks.set {y : Proc} (h : SleepLocks s) (hprocs : s'.procs = (s.setProc p y).procs)
    (hy : Still (s.procs p) y) (hspins : s'.spins = s.spins) (hlocked : s'.locked = s.locked)
    (hinside : s'.inside = s.inside) : SleepLocks s' := by
  refine h.still (fun q => ?_) hspins hlocked hinside
  rw [hprocs, setProc_procs]
  split
  · rename_i e
    exact e ▸ hy
  · exact Still.refl _

theorem SleepLocks.goto {pc₀ pc : Pc} (h : SleepLocks s) (hpc : (s.procs p).pc = pc₀)
    (hprocs : s'.procs = (s.setPc p pc).procs) (hspins : s'.spins = s.spins)
    (hlocked : s'.locked = s.locked) (hinside : s'.inside = s.inside) (hx : Plain pc₀)
    (hy : Plain pc) (hs : sleepsFor pc = none) : SleepLocks s' := by
  subst hpc
  exact h.set hprocs (still_of_plain hx hy hs) hspins hlocked hinside

section Moves
variable {pc₀ pc : Pc} (h : SleepLocks s) (hpc₀ : (s.procs p).pc = pc₀)
  (hprocs : s'.procs = (s.setPc p pc).procs)
include hpc₀ hprocs

omit hpc₀ in
theorem setPc_self : (s'.procs p).pc = pc := by simp [hprocs]

omit hpc₀ in
theorem setPc_other (hq : q ≠ p) : s'.procs q = s.procs q := by simp [hprocs, hq]

theorem place_eq {α : Type} {f : Pc → α} (hf : f pc = f pc₀) (q : Nat) :
    f (s'.procs q).pc = f (s.procs q).pc := by
  by_cases hq : q = p
  · rw [hq, setPc_self hprocs, hpc₀, hf]
  · rw [setPc_other hprocs hq]

include h

/-- The part about the sleepers, when the thread is not about to wake anyone. -/
theorem SleepLocks.sleepers (hwakes : wakes pc₀ = none)
    (hpc : ∀ l, sleepsFor pc = some l → s'.locked l = true ∨ sleepsFor pc₀ = some l ∧ parks pc₀ = false)
    (hlocked : ∀ l, s.locked l = true → s'.locked l = true ∨ wakes pc = some l) : Sleepers s' := by
  intro q l hq
  have hold : s'.locked l = true ∨ Drowsy (s.procs q) l := by
    by_cases hqp : q = p
    · subst hqp
      refine (hpc l (setPc_self hprocs ▸ hq.1)).imp id fun e => ⟨hpc₀ ▸ e.1, ?_⟩
      simp [hpc₀, e.2]
    · exact .inr (setPc_other hprocs hqp ▸ hq)
  rcases hold with hl | hd
  · exact .inl hl
  · rcases h.drowsy q l hd with hl | ⟨r, hr⟩
    · exact (hlocked l hl).imp id fun e => ⟨p, by rw [setPc_self hprocs, e]⟩
    · have hrp : r ≠ p := by
        rintro rfl
        simp [hpc₀, hwakes] at hr
      exact .inr ⟨r, by rw [setPc_other hprocs hrp, hr]⟩

/-- The part about the spin locks, when one of them changes hands. -/
theorem SleepLocks.passed {lk : Spin} {o : Option Nat}
    (hspins : s'.spins = update s.spins lk o) (hfree : ∀ q, q ≠ p → s.spins lk ≠ some q)
    (hmine : ∀ lk', lk' ≠ lk → spin pc₀ ≠ some lk')
    (hpc : spin pc = none ∨ spin pc = some lk ∧ o = some p)
    (ho : o = none ∨ o = some p ∧ (spin pc = some lk ∨ ∀ l, lk ≠ .sleepLock l)) : Spins s' := by
  refine ⟨fun q lk' hq => ?_, fun q l hq => ?_⟩
  · by_cases hqp : q = p
    · subst hqp
      rw [setPc_self hprocs] at hq
      rcases hpc with e | ⟨e, rfl⟩
      · simp [e] at hq
      · obtain rfl := Option.some.inj (e.symm.trans hq)
        simp [hspins]
    · rw [setPc_other hprocs hqp] at hq
      have hheld := h.spins.held q lk' hq
      have hne : lk' ≠ lk := fun e => hfree q hqp (e ▸ hheld)
      rw [hspins, update_of_ne hne, hheld]
  · by_cases hl : Spin.sleepLock l = lk
    · subst hl
      rw [hspins, update_self] at hq
      rcases ho with rfl | ⟨rfl, e | e⟩
      · cases hq
      · obtain rfl := Option.some.inj hq
        rw [setPc_self hprocs, e]
      · exact absurd rfl (e l)
    · rw [hspins, update_of_ne hl] at hq
      have hq' := h.spins.holder q l hq
      have hqp : q ≠ p := by
        rintro rfl
        exact hmine _ hl (hpc₀ ▸ hq')
      rw [setPc_other hprocs hqp, hq']

/-- A spin lock changes hands with the move, and nothing else of the sleep locks. -/
theorem SleepLocks.pass {lk : Spin} {o : Option Nat}
    (hspins : s'.spins = update s.spins lk o) (hlocked : s'.locked = s.locked)
    (hinside : s'.inside = s.inside) (hfree : ∀ q, q ≠ p → s.spins lk ≠ some q)
    (hmine : ∀ lk', lk' ≠ lk → spin pc₀ ≠ some lk')
    (hpc : spin pc = none ∨ spin pc = some lk ∧ o = some p)
    (ho : o = none ∨ o = some p ∧ (spin pc = some lk ∨ ∀ l, lk ≠ .sleepLock l))
    (howns : owns pc = none) (hwakes : wakes pc₀ = none)
    (hdrowsy : ∀ l, sleepsFor pc = some l → sleepsFor pc₀ = some l) (hparks : parks pc₀ = false) :
    SleepLocks s' := by
  refine ⟨h.passed hpc₀ hprocs hspins hfree hmine hpc ho, h.owners.same (fun q l hq => ?_) hlocked hinside,
    h.sleepers hpc₀ hprocs hwakes (fun l e => .inr ⟨hdrowsy l e, hparks⟩) fun l hl => .inl (hlocked ▸ hl)⟩
  by_cases hqp : q = p
  · simp [hqp, setPc_self hprocs, howns] at hq
  · rwa [setPc_other hprocs hqp] at hq

end Moves

section

variable (h : SleepLocks s)
include h

/-- `lk->locked = 1`. -/
theorem SleepLocks.take (hpc : (s.procs p).pc = .lockTest l)
    (hl : s.locked l = false) (hprocs : s'.procs = (s.setPc p (.lockRel l)).procs)
    (hspins : s'.spins = s.spins) (hlocked : s'.locked = update s.locked l true)
    (hinside : s'.inside = s.inside) : SleepLocks s' := by
  have hself := setPc_self hprocs
  have hother := fun q hq => setPc_other (q := q) hprocs hq
  have hmono : ∀ k, s.locked k = true → s'.locked k = true := by
    intro k hk
    rw [hlocked, update_apply]
    split
    · rfl
    · exact hk
  refine ⟨h.spins.same (place_eq hpc hprocs rfl) hspins, ⟨fun q k hq => ?_, fun q k hq => ?_⟩,
    h.sleepers hpc hprocs rfl (by rintro _ ⟨⟩) fun k hk => .inl (hmono k hk)⟩
  · rw [hinside] at hq ⊢
    obtain ⟨h₁, h₂, h₃⟩ := h.owners.inside q k hq
    refine ⟨hmono k h₁, h₂, fun r hr => ?_⟩
    by_cases hrp : r = p
    · obtain rfl : l = k := by simpa [hrp, hself, owns] using hr
      simp [hl] at h₁
    · exact h₃ r (hother r hrp ▸ hr)
  · by_cases hqp : q = p
    · obtain rfl : l = k := by simpa [hqp, hself, owns] using hq
      simp [hlocked]
    · exact hmono k (h.owners.owner q k (hother q hqp ▸ hq))

/-- `acquiresleep` returns. -/
theorem SleepLocks.enter (hpc : (s.procs p).pc = .lockRel l)
    (hprocs : s'.procs = (s.setPc p .kernel).procs)
    (hspins : s'.spins = update s.spins (.sleepLock l) none) (hlocked : s'.locked = s.locked)
    (hinside : s'.inside = update s.inside p (update (s.inside p) l true)) :
    SleepLocks s' := by
  have hp : spin (s.procs p).pc = some (.sleepLock l) := by rw [hpc]; rfl
  have hspin := h.spins.held p _ hp
  have hin : ∀ q k, s'.inside q k = true → q = p ∧ k = l ∨ s.inside q k = true := by
    intro q k hq
    by_cases hqp : q = p
    · subst hqp
      by_cases hk : k = l
      · exact .inl ⟨rfl, hk⟩
      · exact .inr (by simpa [hinside, hk] using hq)
    · exact .inr (by simpa [hinside, hqp] using hq)
  have hnone : ∀ q, s.inside q l ≠ true :=
    fun q hq => (h.owners.inside q l hq).2.2 p (by rw [hpc]; rfl)
  have hown : ∀ q k, owns (s'.procs q).pc = some k → q ≠ p ∧ owns (s.procs q).pc = some k := by
    intro q k hq
    have hqp : q ≠ p := by
      rintro rfl
      simp [setPc_self hprocs, owns] at hq
    exact ⟨hqp, setPc_other hprocs hqp ▸ hq⟩
  refine ⟨h.passed hpc hprocs hspins (fun q hq e => hq (Option.some.inj (e.symm.trans hspin)))
      (fun lk' hne e => hne (Option.some.inj e).symm) (.inl rfl) (.inl rfl),
    ⟨fun q k hq => ?_, fun q k hq => hlocked ▸ h.owners.owner q k (hown q k hq).2⟩,
    h.sleepers hpc hprocs rfl (by rintro _ ⟨⟩) fun k hk => .inl (hlocked ▸ hk)⟩
  rw [hlocked]
  rcases hin q k hq with ⟨rfl, rfl⟩ | hq'
  · refine ⟨h.owners.owner q k (by rw [hpc]; rfl), fun r hr => ?_, fun r hr => ?_⟩
    · exact (hin r k hr).elim And.left fun hr' => absurd hr' (hnone r)
    · exact (hown r k hr).1 (h.spins.owner_eq hp (hown r k hr).2)
  · have hk : k ≠ l := by
      rintro rfl
      exact hnone q hq'
    obtain ⟨h₁, h₂, h₃⟩ := h.owners.inside q k hq'
    refine ⟨h₁, fun r hr => ?_, fun r hr => h₃ r (hown r k hr).2⟩
    exact (hin r k hr).elim (fun e => absurd e.2 hk) (h₂ r)

/-- `releasesleep` begins. -/
theorem SleepLocks.leave (hpc : (s.procs p).pc = .kernel)
    (hl : s.inside p l = true) (hfree : s.spins (.sleepLock l) = none)
    (hprocs : s'.procs = (s.setPc p (.unlockSet l)).procs)
    (hspins : s'.spins = update s.spins (.sleepLock l) (some p))
    (hlocked : s'.locked = s.locked)
    (hinside : s'.inside = update s.inside p (update (s.inside p) l false)) :
    SleepLocks s' := by
  obtain ⟨hlock, honly, hno⟩ := h.owners.inside p l hl
  have hin : ∀ q k, s'.inside q k = true → s.inside q k = true ∧ k ≠ l := by
    intro q k hq
    by_cases hqp : q = p
    · subst hqp
      by_cases hk : k = l
      · simp [hinside, hk] at hq
      · exact ⟨by simpa [hinside, hk] using hq, hk⟩
    · have hq' : s.inside q k = true := by simpa [hinside, hqp] using hq
      exact ⟨hq', fun e => hqp (honly q (e ▸ hq'))⟩
  have hown : ∀ q k, owns (s'.procs q).pc = some k → k = l ∨ owns (s.procs q).pc = some k := by
    intro q k hq
    by_cases hqp : q = p
    · exact .inl (by simpa [hqp, setPc_self hprocs, owns, eq_comm] using hq)
    · exact .inr (setPc_other hprocs hqp ▸ hq)
  refine ⟨h.passed hpc hprocs hspins (fun q _ => by simp [hfree]) (by rintro _ _ ⟨⟩)
      (.inr ⟨rfl, rfl⟩) (.inr ⟨rfl, .inl rfl⟩), ⟨fun q k hq => ?_, fun q k hq => ?_⟩,
    h.sleepers hpc hprocs rfl (by rintro _ ⟨⟩) fun k hk => .inl (hlocked ▸ hk)⟩
  · obtain ⟨hq', hk⟩ := hin q k hq
    obtain ⟨h₁, h₂, h₃⟩ := h.owners.inside q k hq'
    exact ⟨hlocked ▸ h₁, fun r hr => h₂ r (hin r k hr).1, fun r hr => (hown r k hr).elim hk (h₃ r)⟩
  · rw [hlocked]
    rcases hown q k hq with rfl | hq'
    · exact hlock
    · exact h.owners.owner q k hq'

/-- `lk->locked = 0`: the thread itself is now the one to wake the sleepers. -/
theorem SleepLocks.unlock (hpc : (s.procs p).pc = .unlockSet l)
    (hprocs : s'.procs = (s.setPc p (.wakeAcq (.releasesleep l))).procs)
    (hspins : s'.spins = s.spins) (hlocked : s'.locked = update s.locked l false)
    (hinside : s'.inside = s.inside) : SleepLocks s' := by
  have hlock : ∀ k, k ≠ l → s'.locked k = s.locked k := fun k hk => by
    rw [hlocked, update_of_ne hk]
  have hown : ∀ q k, owns (s'.procs q).pc = some k → owns (s.procs q).pc = some k ∧ k ≠ l := by
    intro q k hq
    have hqp : q ≠ p := by
      rintro rfl
      simp [setPc_self hprocs, owns] at hq
    rw [setPc_other hprocs hqp] at hq
    exact ⟨hq, fun e => hqp (h.spins.owner_eq (by rw [hpc]; rfl) (e ▸ hq))⟩
  refine ⟨h.spins.same (place_eq hpc hprocs rfl) hspins, ⟨fun q k hq => ?_, fun q k hq => ?_⟩,
    h.sleepers hpc hprocs rfl (by rintro _ ⟨⟩) fun k hk => ?_⟩
  · rw [hinside] at hq ⊢
    obtain ⟨h₁, h₂, h₃⟩ := h.owners.inside q k hq
    have hk : k ≠ l := by
      rintro rfl
      exact h₃ p (by rw [hpc]; rfl)
    exact ⟨(hlock k hk).trans h₁, h₂, fun r hr => h₃ r (hown r k hr).1⟩
  · obtain ⟨hq', hk⟩ := hown q k hq
    exact (hlock k hk).trans (h.owners.owner q k hq')
  · by_cases hkl : k = l
    · exact .inr (by rw [hkl]; rfl)
    · exact .inl ((hlock k hkl).trans hk)

/-- `while (lk->locked)`: the thread has seen the lock taken. -/
theorem SleepLocks.busy (hpc : (s.procs p).pc = .lockTest l)
    (hl : s.locked l = true) (hprocs : s'.procs = (s.setPc p (.napAcq (.acquiresleep l))).procs)
    (hspins : s'.spins = s.spins) (hlocked : s'.locked = s.locked)
    (hinside : s'.inside = s.inside) : SleepLocks s' := by
  refine ⟨h.spins.same (place_eq hpc hprocs rfl) hspins,
    h.owners.same (fun q k hq => place_eq (f := owns) hpc hprocs rfl q ▸ hq) hlocked hinside,
    h.sleepers hpc hprocs rfl ?_ fun k hk => .inl (hlocked ▸ hk)⟩
  rintro k ⟨⟩
  exact .inl (hlocked ▸ hl)

end

end Xv6.SleepLock
