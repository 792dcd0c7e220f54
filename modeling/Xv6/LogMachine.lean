import Mathlib.Data.Fintype.Card
import Xv6.Interleaving
import Xv6.RedoLog

/-!
# The state machine of the log

`begin_op`, `log_write` and `end_op` run by any number of processes, in steps that end where
`log.lock` is given up. `begin_op` sleeps while its test fails and a `kill` may wake it early.
`log_write` looks at the header and at `outstanding` before it takes the lock, each look being a
step; a look that panics is not one. The last `end_op` commits without the lock. The blocks logged
since the header was last cleared are written down on the side.
-/
namespace Xv6.LogMachine

open Words RedoLog Interleaving

/-- The three looks of `log_write` before it takes the lock. -/
inductive Look where
  | block
  | size
  | outstanding
  deriving DecidableEq, Repr

inductive Pc where
  | outside
  | sleeping
  | woken
  | op
  | looking (b : BlockNo) (look : Look)
  | logging (b : BlockNo)
  | committing
  | committed
  deriving DecidableEq, Repr

def Pc.inOp : Pc → Bool
  | .op | .looking _ _ | .logging _ => true
  | _ => false

def Pc.inCommit : Pc → Bool
  | .committing | .committed => true
  | _ => false

structure State (N : Nat) where
  log : Log
  procs : Fin N → Pc
  seen : List BlockNo

def wakeup {N : Nat} (procs : Fin N → Pc) : Fin N → Pc := fun p =>
  if procs p = .sleeping then .woken else procs p

/-- What `log_write` does where the look fails. -/
def Look.trap : Look → Trap
  | .block | .size => .panic "too big a transaction"
  | .outstanding => .panic "log_write outside of trans"

def passes (l : Log) : Look → Bool
  | .block => !(logSize ≤ l.lh.length)
  | .size => !(l.size - 1 ≤ l.lh.length)
  | .outstanding => !(l.outstanding < 1)

def Look.next (b : BlockNo) : Look → Pc
  | .block => .looking b .size
  | .size => .looking b .outstanding
  | .outstanding => .logging b

inductive Act (N : Nat) where
  | begin (p : Fin N)
  | kill (p : Fin N)
  | write (p : Fin N) (b : BlockNo)
  | look (p : Fin N)
  | store (p : Fin N)
  | finish (p : Fin N)
  | clear (p : Fin N)
  | done (p : Fin N)
  deriving DecidableEq, Repr

def goto {N : Nat} (procs : Fin N → Pc) (p : Fin N) (pc : Pc) : Fin N → Pc := Function.update procs p pc

inductive Step {N : Nat} : State N → Act N → State N → Prop
  | enter {s : State N} {p : Fin N} {l : Log} (hpc : s.procs p = .outside ∨ s.procs p = .woken)
      (htest : beginOp s.log = some l) : Step s (.begin p) ⟨l, goto s.procs p .op, s.seen⟩
  | wait {s : State N} {p : Fin N} (hpc : s.procs p = .outside ∨ s.procs p = .woken)
      (htest : beginOp s.log = none) : Step s (.begin p) ⟨s.log, goto s.procs p .sleeping, s.seen⟩
  | kill {s : State N} {p : Fin N} (hpc : s.procs p = .sleeping) :
      Step s (.kill p) ⟨s.log, goto s.procs p .woken, s.seen⟩
  | write {s : State N} {p : Fin N} {b : BlockNo} (hpc : s.procs p = .op) :
      Step s (.write p b) ⟨s.log, goto s.procs p (.looking b .block), s.seen⟩
  | look {s : State N} {p : Fin N} {b : BlockNo} {look : Look} (hpc : s.procs p = .looking b look)
      (hpass : passes s.log look = true) : Step s (.look p) ⟨s.log, goto s.procs p (look.next b), s.seen⟩
  | store {s : State N} {p : Fin N} {b : BlockNo} (hpc : s.procs p = .logging b) :
      Step s (.store p) ⟨absorb s.log b, goto s.procs p .op, s.seen ++ [b]⟩
  | last {s : State N} {p : Fin N} {l : Log} (hpc : s.procs p = .op) (hend : endOp s.log = .ok l)
      (hlast : l.committing = true) : Step s (.finish p) ⟨l, goto s.procs p .committing, s.seen⟩
  | finish {s : State N} {p : Fin N} {l : Log} (hpc : s.procs p = .op) (hend : endOp s.log = .ok l)
      (hlast : l.committing = false) : Step s (.finish p) ⟨l, goto (wakeup s.procs) p .outside, s.seen⟩
  | clear {s : State N} {p : Fin N} {d : Dev} (hpc : s.procs p = .committing) :
      Step s (.clear p) ⟨(commit s.log d).1, goto s.procs p .committed, []⟩
  | done {s : State N} {p : Fin N} (hpc : s.procs p = .committed) :
      Step s (.done p) ⟨{ s.log with committing := false }, goto (wakeup s.procs) p .outside, s.seen⟩

structure Initial {N : Nat} (s : State N) : Prop where
  lh : s.log.lh = []
  outstanding : s.log.outstanding = 0
  committing : s.log.committing = false
  outside : ∀ p, s.procs p = .outside
  seen : s.seen = []

def system (N : Nat) : System (State N) (Act N) := ⟨Initial, Step⟩

def inside {N : Nat} (procs : Fin N → Pc) : Finset (Fin N) := Finset.univ.filter (fun p => (procs p).inOp = true)

variable {N : Nat} {s s' : State N} {a : Act N} {p q : Fin N} {l : Log} {b : BlockNo}
  {procs : Fin N → Pc} {pc : Pc}

theorem mem_inside : p ∈ inside procs ↔ (procs p).inOp = true := by simp [inside]

theorem goto_self : goto procs p pc p = pc := by
  simp [goto]

theorem goto_other (h : q ≠ p) : goto procs p pc q = procs q := by
  simp [goto, h]

theorem inside_enter (h : (procs p).inOp = false) (hpc : pc.inOp = true) :
    (inside (goto procs p pc)).card = (inside procs).card + 1 := by
  have hnew : p ∉ inside procs := by simp [mem_inside, h]
  rw [← Finset.card_insert_of_notMem hnew]
  congr 1
  ext q
  rw [Finset.mem_insert, mem_inside, mem_inside]
  by_cases hq : q = p
  · subst hq
    simp [goto_self, hpc]
  · simp [goto_other hq, hq]

theorem inside_leave (h : (procs p).inOp = true) (hpc : pc.inOp = false) :
    (inside (goto procs p pc)).card + 1 = (inside procs).card := by
  have hold : p ∈ inside procs := mem_inside.mpr h
  rw [← Finset.card_erase_add_one hold]
  congr 2
  ext q
  rw [Finset.mem_erase, mem_inside, mem_inside]
  by_cases hq : q = p
  · subst hq
    simp [goto_self, hpc]
  · simp [goto_other hq, hq]

theorem inside_stay (h : (procs p).inOp = pc.inOp) : inside (goto procs p pc) = inside procs := by
  ext q
  rw [mem_inside, mem_inside]
  by_cases hq : q = p
  · subst hq
    rw [goto_self, h]
  · rw [goto_other hq]

theorem wakeup_inOp (procs : Fin N → Pc) (p : Fin N) : (wakeup procs p).inOp = (procs p).inOp := by
  rw [wakeup]
  split
  · rename_i h
    rw [h]
    rfl
  · rfl

theorem wakeup_inCommit (procs : Fin N → Pc) (p : Fin N) : (wakeup procs p).inCommit = (procs p).inCommit := by
  rw [wakeup]
  split
  · rename_i h
    rw [h]
    rfl
  · rfl

theorem wakeup_awake (procs : Fin N → Pc) (p : Fin N) : wakeup procs p ≠ .sleeping := by
  rw [wakeup]
  split
  · exact Pc.noConfusion
  · assumption

theorem inside_wakeup (procs : Fin N → Pc) : inside (wakeup procs) = inside procs := by
  ext p
  rw [mem_inside, mem_inside, wakeup_inOp]

theorem beginOp_none : beginOp l = none ↔
    l.committing = true ∨ (logSize : Int) < l.lh.length + (l.outstanding + 1) * maxOpBlocks := by
  rw [beginOp]
  split_ifs with hc ht
  · simp [hc]
  · simp only [true_iff]
    exact .inr ht
  · simp only [reduceCtorEq, hc, false_or, false_iff]
    omega

theorem beginOp_some {l' : Log} (h : beginOp l = some l') :
    l.committing = false ∧ l' = { l with outstanding := l.outstanding + 1 } := by
  rw [beginOp] at h
  split_ifs at h with hc ht
  exact ⟨by simpa using hc, (Option.some.inj h).symm⟩

theorem endOp_idle (h : l.committing = false) :
    endOp l = .ok ⟨l.start, l.size, l.outstanding - 1, decide (l.outstanding - 1 = 0), l.lh⟩ := by
  rw [endOp]
  by_cases hz : l.outstanding - 1 = 0
  · simp [h, hz]
  · simp [h, hz]

structure Inv (s : State N) : Prop where
  outstanding : s.log.outstanding = (inside s.procs).card
  alone : s.log.committing = true → s.log.outstanding = 0
  committer : ∀ p, (s.procs p).inCommit = true → s.log.committing = true
  unique : ∀ p q, (s.procs p).inCommit = true → (s.procs q).inCommit = true → p = q
  cleared : ∀ p, s.procs p = .committed → s.log.lh = []
  idle : s.log.outstanding = 0 → s.log.committing = false → s.log.lh = []
  nodup : s.log.lh.Nodup
  mem : ∀ b, b ∈ s.log.lh ↔ b ∈ s.seen
  sleeping : ∀ p, s.procs p = .sleeping → beginOp s.log = none

theorem inv_init (h : Initial s) : Inv s := by
  have hinside : inside s.procs = ∅ := by
    ext p
    simp [mem_inside, h.outside p, Pc.inOp]
  refine ⟨?_, ?_, ?_, ?_, ?_, ?_, ?_, ?_, ?_⟩
  · rw [h.outstanding, hinside]
    rfl
  · exact fun _ => h.outstanding
  · intro p hp
    simp [h.outside p, Pc.inCommit] at hp
  · intro p q hp
    simp [h.outside p, Pc.inCommit] at hp
  · exact fun _ _ => h.lh
  · exact fun _ _ => h.lh
  · rw [h.lh]
    exact List.nodup_nil
  · intro b
    rw [h.lh, h.seen]
  · intro p hp
    simp [h.outside p] at hp

/-- A process inside an operation keeps the log from committing. -/
theorem Inv.busy (h : Inv s) (hp : (s.procs p).inOp = true) : 1 ≤ s.log.outstanding ∧
    s.log.committing = false := by
  have hpos : 0 < (inside s.procs).card := Finset.card_pos.mpr ⟨p, mem_inside.mpr hp⟩
  have hout := h.outstanding
  refine ⟨by omega, ?_⟩
  by_contra hc
  have hzero := h.alone (by simpa using hc)
  omega

theorem Inv.no_committer (h : Inv s) (hc : s.log.committing = false) (p : Fin N) :
    (s.procs p).inCommit = false := by
  by_contra hp
  have := h.committer p (by simpa using hp)
  simp [hc] at this

theorem committed_inCommit (h : (procs p).inCommit = false) : procs p ≠ .committed := by
  intro hp
  rw [hp] at h
  cases h

theorem op_not_inCommit (h : pc.inOp = true) : pc.inCommit = false := by
  cases pc <;> simp_all [Pc.inOp, Pc.inCommit]

theorem goto_inCommit (h : ∀ q, q ≠ p → (procs q).inCommit = false) (hpc : pc.inCommit = false) (q : Fin N) :
    (goto procs p pc q).inCommit = false := by
  by_cases hq : q = p
  · subst hq
    rw [goto_self, hpc]
  · rw [goto_other hq, h q hq]

theorem goto_cases {x : Pc} (h : goto procs p pc q = x) : pc = x ∨ procs q = x := by
  by_cases hq : q = p
  · subst hq
    rw [goto_self] at h
    exact .inl h
  · rw [goto_other hq] at h
    exact .inr h

theorem goto_sleeping (hpc : pc ≠ .sleeping) (h : goto procs p pc q = .sleeping) : procs q = .sleeping :=
  (goto_cases h).resolve_left hpc

/-- The invariant of a state in which no one commits. -/
theorem inv_idle (hout : s.log.outstanding = (inside s.procs).card) (hc : s.log.committing = false)
    (hno : ∀ p, (s.procs p).inCommit = false) (hidle : s.log.outstanding = 0 → s.log.lh = [])
    (hnodup : s.log.lh.Nodup) (hmem : ∀ b, b ∈ s.log.lh ↔ b ∈ s.seen)
    (hsleep : ∀ p, s.procs p = .sleeping → beginOp s.log = none) : Inv s := by
  refine ⟨hout, ?_, ?_, ?_, ?_, fun hz _ => hidle hz, hnodup, hmem, hsleep⟩
  · intro ht
    rw [hc] at ht
    cases ht
  · intro p hp
    rw [hno p] at hp
    cases hp
  · intro p q hp
    rw [hno p] at hp
    cases hp
  · intro p hp
    exact absurd hp (committed_inCommit (hno p))

/-- The invariant of a state in which `p` commits. -/
theorem inv_committing (hzero : s.log.outstanding = 0) (hinside : inside s.procs = ∅)
    (hc : s.log.committing = true) (honly : ∀ q, q ≠ p → (s.procs q).inCommit = false)
    (hclear : s.procs p = .committed → s.log.lh = [])
    (hnodup : s.log.lh.Nodup) (hmem : ∀ b, b ∈ s.log.lh ↔ b ∈ s.seen) : Inv s := by
  have heq : ∀ q, (s.procs q).inCommit = true → q = p := by
    intro q hq
    by_contra hne
    rw [honly q hne] at hq
    cases hq
  refine ⟨by rw [hzero, hinside]; rfl, fun _ => hzero, fun _ _ => hc, ?_, ?_, ?_, hnodup, hmem, ?_⟩
  · intro q r hq hr
    rw [heq q hq, heq r hr]
  · intro q hq
    have hqp := heq q (by rw [hq]; rfl)
    subst hqp
    exact hclear hq
  · intro _ hf
    rw [hc] at hf
    cases hf
  · intro _ _
    exact beginOp_none.mpr (.inl hc)

section

variable (h : Inv s)
include h

/-- A process moves and the log stays as it is. -/
theorem inv_goto (hop : (s.procs p).inOp = pc.inOp) (hold : (s.procs p).inCommit = false)
    (hnew : pc.inCommit = false) (hsleep : pc = .sleeping → beginOp s.log = none) :
    Inv ⟨s.log, goto s.procs p pc, s.seen⟩ := by
  have hcommit : ∀ q, (goto s.procs p pc q).inCommit = (s.procs q).inCommit := by
    intro q
    by_cases hq : q = p
    · subst hq
      rw [goto_self, hold, hnew]
    · rw [goto_other hq]
  refine ⟨?_, h.alone, ?_, ?_, ?_, h.idle, h.nodup, h.mem, ?_⟩
  · rw [inside_stay hop]
    exact h.outstanding
  · intro q hq
    exact h.committer q (by rwa [← hcommit])
  · intro q r hq hr
    exact h.unique q r (by rwa [← hcommit]) (by rwa [← hcommit])
  · intro q hq
    rcases goto_cases hq with rfl | hq
    · cases hnew
    · exact h.cleared q hq
  · intro q hq
    rcases goto_cases hq with rfl | hq
    · exact hsleep rfl
    · exact h.sleeping q hq

theorem inv_enter (hpc : (s.procs p).inOp = false) (htest : beginOp s.log = some l) :
    Inv ⟨l, goto s.procs p .op, s.seen⟩ := by
  obtain ⟨hc, rfl⟩ := beginOp_some htest
  have hout := h.outstanding
  refine inv_idle ?_ hc (goto_inCommit (fun q _ => h.no_committer hc q) rfl) ?_ h.nodup h.mem ?_
  · rw [inside_enter hpc rfl]
    simp only [Nat.cast_add, Nat.cast_one]
    omega
  · simp only
    omega
  · intro q hq
    have hold := beginOp_none.mp (h.sleeping q (goto_sleeping Pc.noConfusion hq))
    rw [hc] at hold
    rw [beginOp_none]
    right
    simp only [maxOpBlocks, Bool.false_eq_true, false_or] at hold ⊢
    omega

theorem inv_store (hpc : s.procs p = .logging b) :
    Inv ⟨absorb s.log b, goto s.procs p .op, s.seen ++ [b]⟩ := by
  have hop : (s.procs p).inOp = true := by rw [hpc]; rfl
  obtain ⟨hbusy, hc⟩ := h.busy hop
  rw [absorb_eq]
  refine inv_idle ?_ hc (goto_inCommit (fun q _ => h.no_committer hc q) rfl) ?_ ?_ ?_ ?_
  · rw [inside_stay hop]
    exact h.outstanding
  · simp only
    omega
  · split_ifs with hb
    · exact h.nodup
    · refine List.nodup_append.mpr ⟨h.nodup, List.nodup_singleton b, ?_⟩
      rintro x hx y hy rfl
      rw [List.mem_singleton] at hy
      subst hy
      exact hb hx
  · intro c
    rw [List.mem_append, List.mem_singleton, ← h.mem]
    split_ifs with hb
    · exact (or_iff_left_of_imp (fun he => he ▸ hb)).symm
    · rw [List.mem_append, List.mem_singleton]
  · intro q hq
    have hold := beginOp_none.mp (h.sleeping q (goto_sleeping Pc.noConfusion hq))
    have hgrow : s.log.lh.length ≤ (if b ∈ s.log.lh then s.log.lh else s.log.lh ++ [b]).length := by
      split_ifs <;> simp
    rw [beginOp_none]
    rw [hc] at hold
    simp only [hc, Bool.false_eq_true, false_or, maxOpBlocks] at hold ⊢
    omega

theorem inv_last (hpc : s.procs p = .op) (hend : endOp s.log = .ok l) (hlast : l.committing = true) :
    Inv ⟨l, goto s.procs p .committing, s.seen⟩ := by
  have hop : (s.procs p).inOp = true := by rw [hpc]; rfl
  obtain ⟨-, hc⟩ := h.busy hop
  rw [endOp_idle hc, Except.ok.injEq] at hend
  subst hend
  have hzero : s.log.outstanding - 1 = 0 := by simpa using hlast
  have hout := h.outstanding
  have hcard : (inside (goto s.procs p .committing)).card + 1 = (inside s.procs).card := inside_leave hop rfl
  refine inv_committing (p := p) hzero ?_ hlast ?_ ?_ h.nodup h.mem
  · rw [← Finset.card_eq_zero]
    simp only
    omega
  · intro q hq
    simp only
    rw [goto_other hq, h.no_committer hc q]
  · intro hp
    simp only [goto_self] at hp
    cases hp

theorem inv_finish (hpc : s.procs p = .op) (hend : endOp s.log = .ok l) (hlast : l.committing = false) :
    Inv ⟨l, goto (wakeup s.procs) p .outside, s.seen⟩ := by
  have hop : (s.procs p).inOp = true := by rw [hpc]; rfl
  obtain ⟨-, hc⟩ := h.busy hop
  rw [endOp_idle hc, Except.ok.injEq] at hend
  subst hend
  have hmore : s.log.outstanding - 1 ≠ 0 := by simpa using hlast
  have hout := h.outstanding
  have hcard : (inside (goto (wakeup s.procs) p .outside)).card + 1 = (inside s.procs).card := by
    rw [inside_leave (by rw [wakeup_inOp]; exact hop) rfl, inside_wakeup]
  refine inv_idle ?_ hlast ?_ ?_ h.nodup h.mem ?_
  · simp only
    omega
  · exact goto_inCommit (fun q _ => by rw [wakeup_inCommit]; exact h.no_committer hc q) rfl
  · exact fun hz => absurd hz hmore
  · intro q hq
    exact absurd (goto_sleeping Pc.noConfusion hq) (wakeup_awake s.procs q)

theorem inv_clear {d : Dev} (hpc : s.procs p = .committing) :
    Inv ⟨(commit s.log d).1, goto s.procs p .committed, []⟩ := by
  have hp : (s.procs p).inCommit = true := by rw [hpc]; rfl
  have hc := h.committer p hp
  have hzero := h.alone hc
  have hout := h.outstanding
  rw [commit_fst]
  refine inv_committing (p := p) hzero ?_ hc ?_ (fun _ => rfl) List.nodup_nil (fun b => Iff.rfl)
  · rw [inside_stay (by rw [hpc]; rfl), ← Finset.card_eq_zero]
    omega
  · intro q hq
    simp only
    rw [goto_other hq]
    by_contra hne
    exact hq (h.unique q p (by simpa using hne) hp)

theorem inv_done (hpc : s.procs p = .committed) :
    Inv ⟨{ s.log with committing := false }, goto (wakeup s.procs) p .outside, s.seen⟩ := by
  have hp : (s.procs p).inCommit = true := by rw [hpc]; rfl
  have hstay : inside (goto (wakeup s.procs) p .outside) = inside s.procs := by
    rw [inside_stay (by rw [wakeup_inOp, hpc]; rfl), inside_wakeup]
  refine inv_idle ?_ rfl ?_ (fun _ => h.cleared p hpc) h.nodup h.mem ?_
  · simp only
    rw [hstay, h.outstanding]
  · apply goto_inCommit _ rfl
    intro q hq
    rw [wakeup_inCommit]
    by_contra hne
    exact hq (h.unique q p (by simpa using hne) hp)
  · intro q hq
    exact absurd (goto_sleeping Pc.noConfusion hq) (wakeup_awake s.procs q)

end

theorem outside_or_woken (h : procs p = .outside ∨ procs p = .woken) :
    (procs p).inOp = false ∧ (procs p).inCommit = false := by
  rcases h with h | h <;> rw [h] <;> exact ⟨rfl, rfl⟩

theorem inv_step (h : Inv s) (hs : Step s a s') : Inv s' := by
  cases hs with
  | enter hpc htest => exact inv_enter h (outside_or_woken hpc).1 htest
  | wait hpc htest =>
    exact inv_goto h (outside_or_woken hpc).1 (outside_or_woken hpc).2 rfl (fun _ => htest)
  | kill hpc | write hpc => exact inv_goto h (by rw [hpc]; rfl) (by rw [hpc]; rfl) rfl Pc.noConfusion
  | @look p b look hpc =>
    have hnext : (look.next b).inOp = true ∧ look.next b ≠ .sleeping := by
      cases look <;> exact ⟨rfl, Pc.noConfusion⟩
    refine inv_goto h ?_ (by rw [hpc]; rfl) (op_not_inCommit hnext.1) (fun he => absurd he hnext.2)
    rw [hpc, hnext.1]
    rfl
  | store hpc => exact inv_store h hpc
  | last hpc hend hlast => exact inv_last h hpc hend hlast
  | finish hpc hend hlast => exact inv_finish h hpc hend hlast
  | clear hpc => exact inv_clear h hpc
  | done hpc => exact inv_done h hpc

theorem inv_reachable (h : Reachable (system N) s) : Inv s :=
  h.invariant (fun _ => inv_init) (fun _ _ _ => inv_step)

/-- The log's own account of itself is right whenever `log.lock` is free. -/
theorem log_state_machine (h : Reachable (system N) s) :
    s.log.outstanding = (inside s.procs).card ∧
      (s.log.committing = true → s.log.outstanding = 0) ∧
      (∀ p, s.procs p = .op → ∃ l, endOp s.log = .ok l) ∧
      (∀ p, (s.procs p).inOp = true → s.log.committing = false) ∧
      (s.log.outstanding = 0 → s.log.committing = false → s.log.lh = []) ∧
      s.log.lh.Nodup ∧ (∀ b, b ∈ s.log.lh ↔ b ∈ s.seen) ∧
      ∀ p, s.procs p = .sleeping → beginOp s.log = none := by
  have hinv := inv_reachable h
  refine ⟨hinv.outstanding, hinv.alone, ?_, fun p hp => (hinv.busy hp).2, hinv.idle, hinv.nodup, hinv.mem,
    hinv.sleeping⟩
  intro p hp
  exact ⟨_, endOp_idle (hinv.busy (p := p) (by rw [hp]; rfl)).2⟩

theorem reach_next (h : Reachable (system N) s) (hs : Step s a s') : Reachable (system N) s' := h.next hs

/-- Two operations, of which one has logged a block: while the other one commits, the first
process waits to begin again. -/
theorem log_state_machine_waiting : ∃ (s : State 2) (p : Fin 2), Reachable (system 2) s ∧
    s.log = ⟨2, logSize, 0, true, [7]⟩ ∧ s.procs p = .sleeping ∧ (inside s.procs).card = 0 ∧
    beginOp s.log = none ∧ ∀ b, b ∈ s.log.lh ↔ b ∈ s.seen := by
  have h₀ : Reachable (system 2) ⟨⟨2, logSize, 0, false, []⟩, fun _ => .outside, []⟩ :=
    Reach.init ⟨rfl, rfl, rfl, fun _ => rfl, rfl⟩
  have h₁ := reach_next h₀ (.enter (p := 0) (.inl rfl) rfl)
  have h₂ := reach_next h₁ (.enter (p := 1) (.inl rfl) rfl)
  have h₃ := reach_next h₂ (.write (p := 1) (b := 7) rfl)
  have h₄ := reach_next h₃ (.look (p := 1) rfl rfl)
  have h₅ := reach_next h₄ (.look (p := 1) rfl rfl)
  have h₆ := reach_next h₅ (.look (p := 1) rfl rfl)
  have h₇ := reach_next h₆ (.store (p := 1) rfl)
  have h₈ := reach_next h₇ (.finish (p := 1) rfl rfl rfl)
  have h₉ := reach_next h₈ (.last (p := 0) rfl rfl rfl)
  have h₁₀ := reach_next h₉ (.wait (p := 1) (.inl rfl) rfl)
  obtain ⟨hcount, -, -, -, -, -, hseen, hsleeps⟩ := log_state_machine h₁₀
  exact ⟨_, 1, h₁₀, rfl, rfl, Int.ofNat.inj hcount.symm, hsleeps 1 rfl, hseen⟩

end Xv6.LogMachine
