import Mathlib.Logic.Function.Basic
import Xv6.Interleaving
import Xv6.Words

/-!
# Interrupts and the depth of `pushcli`

`ncli` and `intena` belong to a processor, and what they stand for to the thread that runs on it:
the list of its calls of `pushcli` that have no `popcli` yet and of its interrupts. A process leaves
its processor in `sched`, which keeps `intena` for it, and may go on at another one; the scheduler
does not keep its own.
-/
namespace Xv6.Interrupts

open Interleaving Function

/-- The interrupt flag of a processor and the fields of `struct cpu` that go with it. -/
structure Cpu where
  iflag : Bool
  ncli : Int
  intena : Bool
  deriving DecidableEq, Repr

inductive Panic where
  | interruptible
  | popcli
  deriving DecidableEq, Repr

/-- `pushcli` after it has read `eflags`, as far as they concern interrupts. -/
def pushcli (cpu : Cpu) (eflags : Bool) : Cpu :=
  { iflag := false, ncli := cpu.ncli + 1, intena := if cpu.ncli = 0 then eflags else cpu.intena }

def popcli (cpu : Cpu) : Except Panic Cpu :=
  if cpu.iflag = true then .error .interruptible
  else if cpu.ncli - 1 < 0 then .error .popcli
  else .ok { cpu with ncli := cpu.ncli - 1, iflag := decide (cpu.ncli - 1 = 0) && cpu.intena }

/-- What a thread is in the middle of. `reading` is a `pushcli` that has read the flags, `held` one
that is done, with the flag it read, `given` the lock that a new process starts with, and `irq` an
interrupt. -/
inductive Frame where
  | reading (eflags : Bool)
  | held (eflags : Bool)
  | given
  | irq
  deriving DecidableEq, Repr

def unmatched : List Frame → Nat
  | [] => 0
  | .held _ :: st => unmatched st + 1
  | .given :: st => unmatched st + 1
  | .reading _ :: st => unmatched st
  | .irq :: st => unmatched st

/-- The flag that the outermost `pushcli` of the thread has read. -/
def outer : List Frame → Option Bool
  | [] => none
  | .held b :: st => if unmatched st = 0 then some b else outer st
  | _ :: st => outer st

def busy : List Frame → Bool
  | .reading _ :: _ => true
  | _ => false

/-- What a thread does on its processor. Outside of everything else it may set the flag: `sti` in
the scheduler, the entry to a system call and the way back. -/
inductive Op where
  | readeflags
  | cli
  | popcli
  | interrupt
  | iret
  | setIf (b : Bool)
  deriving DecidableEq, Repr

def perform (cpu : Cpu) : Op → List Frame → Option (Cpu × List Frame)
  | .readeflags, st => if busy st = true then none else some (cpu, .reading cpu.iflag :: st)
  | .cli, .reading b :: st => some (pushcli cpu b, .held b :: st)
  | .popcli, .held _ :: st => (popcli cpu).toOption.map fun cpu => (cpu, st)
  | .popcli, .given :: st => (popcli cpu).toOption.map fun cpu => (cpu, st)
  | .interrupt, st => if cpu.iflag = true then some ({ cpu with iflag := false }, .irq :: st) else none
  | .iret, .irq :: st => some ({ cpu with iflag := true }, st)
  | .setIf b, [] => some ({ cpu with iflag := b }, [])
  | _, _ => none

inductive Status where
  | fresh
  | running
  | suspended (intena : Bool)
  deriving DecidableEq, Repr

inductive Thread (κ π : Type) where
  | scheduler (c : κ)
  | proc (p : π)
  deriving DecidableEq, Repr

variable {κ π : Type}

/-- The processors, the thread that each one runs, and the threads. -/
structure State (κ π : Type) where
  cpu : κ → Cpu
  run : κ → Thread κ π
  stack : Thread κ π → List Frame
  status : π → Status

inductive Act (π : Type) where
  | op (o : Op)
  | sched
  | dispatch (p : π)
  deriving DecidableEq, Repr

section

variable [DecidableEq κ] [DecidableEq π]

def State.put (s : State κ π) (c : κ) (cpu : Cpu) (st : List Frame) : State κ π :=
  { s with cpu := update s.cpu c cpu, stack := update s.stack (s.run c) st }

/-- What `sched` writes to `intena` when the process goes on. -/
def Status.restore (status : Status) (cpu : Cpu) : Cpu :=
  match status with
  | .suspended intena => { cpu with intena := intena }
  | _ => cpu

def State.leave (s : State κ π) (c : κ) (p : π) : State κ π :=
  { s with run := update s.run c (.scheduler c), status := update s.status p (.suspended (s.cpu c).intena) }

/-- The scheduler's switch to a process, and what `sched` does first in it. -/
def State.enter (s : State κ π) (c : κ) (p : π) : State κ π :=
  { s with run := update s.run c (.proc p), status := update s.status p .running,
           cpu := update s.cpu c ((s.status p).restore (s.cpu c)) }

/-- A step of the processor `c`. In `sched`, and where the scheduler switches, the thread holds one
lock. -/
def exec (s : State κ π) (c : κ) : Act π → Option (State κ π)
  | .op o => (perform (s.cpu c) o (s.stack (s.run c))).map fun x => s.put c x.1 x.2
  | .sched =>
    match s.run c with
    | .scheduler _ => none
    | .proc p =>
      if unmatched (s.stack (.proc p)) = 1 ∧ busy (s.stack (.proc p)) = false then some (s.leave c p) else none
  | .dispatch p =>
    match s.run c with
    | .proc _ => none
    | .scheduler c' =>
      if unmatched (s.stack (.scheduler c')) = 1 ∧
          busy (s.stack (.scheduler c')) = false ∧ s.status p ≠ .running then
        some (s.enter c p)
      else none

structure Booted (s : State κ π) : Prop where
  run : ∀ c, s.run c = .scheduler c
  cpu : ∀ c, (s.cpu c).ncli = 0
  scheduler : ∀ c, s.stack (.scheduler c) = []
  proc : ∀ p, s.stack (.proc p) = [.given]
  status : ∀ p, s.status p = .fresh

def system : System (State κ π) (κ × Act π) where
  init := Booted
  step s a s' := exec s a.1 a.2 = some s'

end

/-- What can be in the middle of what: an interrupt comes where interrupts are on, so outside of
every `pushcli`. -/
def Shape : List Frame → Prop
  | [] => True
  | .reading _ :: st => busy st = false ∧ Shape st
  | .held _ :: st => busy st = false ∧ Shape st
  | .given :: st => st = []
  | .irq :: st => unmatched st = 0 ∧ (∀ b st', st = .reading b :: st' → b = true) ∧ Shape st

/-- The processor's fields are those of the thread that it runs. -/
structure Fits (cpu : Cpu) (st : List Frame) : Prop where
  ncli : cpu.ncli = unmatched st
  off : 0 < unmatched st → cpu.iflag = false
  read : ∀ b st', st = .reading b :: st' → cpu.iflag = b
  shape : Shape st

/-- `intena` is the flag of the thread's outermost `pushcli`. -/
def Kept (intena : Bool) (st : List Frame) : Prop := ∀ b, outer st = some b → intena = b

variable {cpu cpu' : Cpu} {st st' : List Frame} {o : Op}

theorem outer_of_unmatched (h : unmatched st = 0) : outer st = none := by
  induction st with
  | nil => rfl
  | cons f st ih =>
    cases f with
    | held b => simp [unmatched] at h
    | given => simp [unmatched] at h
    | reading b => exact ih h
    | irq => exact ih h

theorem not_busy (h : busy st = false) : ∀ b st', st ≠ .reading b :: st' := by
  rintro b st' rfl
  cases h

/-- A `popcli` that has its `pushcli` does not panic. -/
theorem popcli_ok (hncli : 0 < cpu.ncli) (hoff : cpu.iflag = false) :
    popcli cpu = .ok { cpu with ncli := cpu.ncli - 1, iflag := decide (cpu.ncli - 1 = 0) && cpu.intena } := by
  rw [popcli, if_neg (by simp [hoff]), if_neg (by omega)]

section

variable (h : Fits cpu st) (hcount : unmatched st = unmatched st' + 1) (hshape : Shape st')
  (hbusy : busy st' = false)
include h hcount hshape hbusy

theorem Fits.pop :
    ∃ cpu', popcli cpu = .ok cpu' ∧ Fits cpu' st' ∧ cpu'.intena = cpu.intena ∧
      cpu'.iflag = (decide (unmatched st' = 0) && cpu.intena) := by
  have hncli := h.ncli
  have hzero : decide (cpu.ncli - 1 = 0) = decide (unmatched st' = 0) := decide_eq_decide.mpr (by omega)
  refine ⟨_, popcli_ok (by omega) (h.off (by omega)), ⟨?_, fun hpos => ?_, fun b st'' heq => ?_, hshape⟩, rfl, ?_⟩
  · dsimp only
    omega
  · dsimp only
    rw [hzero, decide_eq_false (by omega), Bool.false_and]
  · exact absurd heq (not_busy hbusy b st'')
  · dsimp only
    rw [hzero]

theorem Fits.perform_pop (houter : unmatched st' ≠ 0 → outer st' = outer st) {st'' : List Frame}
    (hrun : (popcli cpu).toOption.map (fun cpu => (cpu, st')) = some (cpu', st'')) :
    Fits cpu' st'' ∧ (Kept cpu.intena st → Kept cpu'.intena st'') := by
  obtain ⟨cpu₁, hpop, hfits, hintena, -⟩ := h.pop hcount hshape hbusy
  rw [hpop] at hrun
  obtain ⟨rfl, rfl⟩ := Prod.mk.inj (Option.some.inj hrun)
  refine ⟨hfits, fun hkept b hb => ?_⟩
  rw [hintena]
  by_cases hzero : unmatched st' = 0
  · rw [outer_of_unmatched hzero] at hb
    cases hb
  · exact hkept b (houter hzero ▸ hb)

end

/-- A step of a thread on its processor keeps the two together. -/
theorem Fits.perform (h : Fits cpu st) (hrun : perform cpu o st = some (cpu', st')) :
    Fits cpu' st' ∧ (Kept cpu.intena st → Kept cpu'.intena st') := by
  cases o with
  | readeflags =>
    simp only [Interrupts.perform] at hrun
    split at hrun
    · cases hrun
    · obtain ⟨rfl, rfl⟩ := Prod.mk.inj (Option.some.inj hrun)
      refine ⟨⟨h.ncli, h.off, fun b st' heq => ?_, eq_false_of_ne_true ‹_›, h.shape⟩, fun hkept => hkept⟩
      cases heq
      rfl
  | cli =>
    cases st with
    | nil => cases hrun
    | cons f st =>
      cases f with
      | reading b =>
        obtain ⟨rfl, rfl⟩ := Prod.mk.inj (Option.some.inj hrun)
        have hncli : cpu.ncli = unmatched st := h.ncli
        refine ⟨⟨?_, fun _ => rfl, ?_, h.shape⟩, fun hkept b' hb' => ?_⟩
        · simp [pushcli, unmatched, hncli]
        · intro b' st' heq
          cases heq
        · rw [outer] at hb'
          simp only [pushcli, hncli]
          by_cases hzero : unmatched st = 0
          · rw [if_pos hzero] at hb'
            rw [if_pos (by omega)]
            exact Option.some.inj hb'
          · rw [if_neg hzero] at hb'
            rw [if_neg (by omega)]
            exact hkept b' hb'
      | held b => cases hrun
      | given => cases hrun
      | irq => cases hrun
  | popcli =>
    cases st with
    | nil => cases hrun
    | cons f st =>
      cases f with
      | reading b => cases hrun
      | held b => exact h.perform_pop rfl h.shape.2 h.shape.1 (fun hne => (if_neg hne).symm) hrun
      | given =>
        obtain rfl : st = [] := h.shape
        exact h.perform_pop rfl trivial rfl (fun hne => absurd rfl hne) hrun
      | irq => cases hrun
  | interrupt =>
    simp only [Interrupts.perform] at hrun
    split at hrun
    case isFalse => cases hrun
    case isTrue hon =>
      obtain ⟨rfl, rfl⟩ := Prod.mk.inj (Option.some.inj hrun)
      have hzero : unmatched st = 0 := by
        by_contra hne
        rw [h.off (by omega)] at hon
        cases hon
      refine ⟨⟨h.ncli, fun _ => rfl, ?_, hzero, fun b st' heq => ?_, h.shape⟩, fun hkept => hkept⟩
      · intro b st' heq
        cases heq
      · rw [← h.read b st' heq, hon]
  | iret =>
    cases st with
    | nil => cases hrun
    | cons f st =>
      cases f with
      | reading b => cases hrun
      | held b => cases hrun
      | given => cases hrun
      | irq =>
        obtain ⟨rfl, rfl⟩ := Prod.mk.inj (Option.some.inj hrun)
        obtain ⟨hzero, hread, hshape⟩ := h.shape
        refine ⟨⟨h.ncli, fun hpos => ?_, fun b st' heq => (hread b st' heq).symm, hshape⟩, fun hkept => hkept⟩
        omega
  | setIf b =>
    cases st with
    | cons f st => cases hrun
    | nil =>
      obtain ⟨rfl, rfl⟩ := Prod.mk.inj (Option.some.inj hrun)
      refine ⟨⟨h.ncli, fun hpos => absurd hpos (by simp [unmatched]), ?_, trivial⟩, fun hkept => hkept⟩
      intro b' st' heq
      cases heq

end Xv6.Interrupts
