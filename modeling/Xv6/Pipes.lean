import Xv6.Interleaving
import Xv6.RingBuffer
import Xv6.Words

/-!
# Pipes

`pipe.c` with any number of readers and writers. A function of the pipe runs under `p->lock` from
where it takes the lock, or wakes up in `sleep`, to where it returns or goes to sleep again; each
such section is one step, and a `kill` is one of its own. A `kill` that hits the process inside a
section comes before the look at `killed`, as if before the section, or after it: the section then
leaves with the flag set.

The bytes stored and the bytes handed to readers are written down on the side. After the second
`pipeclose` the page is released and nothing follows.
-/
namespace Xv6.Pipes

open Words Interleaving RingBuffer Function

def pipeSize : Nat := 512

structure Pipe where
  data : Nat → Byte
  nread : BitVec 32
  nwrite : BitVec 32
  readopen : Bool
  writeopen : Bool

inductive Chan where
  | nread
  | nwrite
  deriving DecidableEq, Repr

def full (p : Pipe) : Bool := p.nwrite == p.nread + BitVec.ofNat 32 pipeSize

def empty (p : Pipe) : Bool := p.nread == p.nwrite

def put (p : Pipe) (b : Byte) : Pipe :=
  { p with data := update p.data (slot pipeSize p.nwrite) b, nwrite := p.nwrite + 1 }

inductive WriteEnd where
  | done
  | failed
  | asleep (rest : List Byte)
  deriving DecidableEq, Repr

/-- A section of `pipewrite` with the bytes still to write; the bytes it stores come second. -/
def writeLoop (killed : Bool) : Pipe → List Byte → Pipe × List Byte × WriteEnd
  | p, [] => (p, [], .done)
  | p, b :: bs =>
    if full p then
      if p.readopen = false ∨ killed = true then (p, [], .failed) else (p, [], .asleep (b :: bs))
    else
      let r := writeLoop killed (put p b) bs
      (r.1, b :: r.2.1, r.2.2)

inductive ReadEnd where
  | returned (bs : List Byte)
  | failed
  | asleep
  deriving DecidableEq, Repr

def readLoop : Pipe → Nat → Pipe × List Byte
  | p, 0 => (p, [])
  | p, n + 1 =>
    if empty p then (p, [])
    else
      let r := readLoop { p with nread := p.nread + 1 } n
      (r.1, p.data (slot pipeSize p.nread) :: r.2)

def readSection (killed : Bool) (p : Pipe) (n : Int) : Pipe × ReadEnd :=
  if empty p = true ∧ p.writeopen = true then
    if killed then (p, .failed) else (p, .asleep)
  else
    let r := readLoop p n.toNat
    (r.1, .returned r.2)

/-- Where a process is: outside, with the value of its last call, or in the middle of a call. -/
inductive Pc where
  | user (ret : Int)
  | writing (n : Int) (rest : List Byte)
  | reading (n : Int)
  deriving DecidableEq, Repr

structure Proc where
  pc : Pc
  asleep : Option Chan
  killed : Bool
  deriving DecidableEq, Repr

structure State where
  pipe : Pipe
  freed : Bool
  procs : Nat → Proc
  accepted : List Byte
  returned : List Byte

def wakeup (procs : Nat → Proc) (chan : Chan) : Nat → Proc := fun q =>
  if (procs q).asleep = some chan then { procs q with asleep := none } else procs q

/-- The process leaves the section; `late` says that a `kill` hit it after its last look. -/
def leave (procs : Nat → Proc) (p : Nat) (pc : Pc) (asleep : Option Chan) (late : Bool) : Nat → Proc :=
  update procs p ⟨pc, asleep, (procs p).killed || late⟩

/-- A section of `pipewrite(p, addr, n)` by the process `p`, with `bs` left to write. -/
def pipewrite (s : State) (p : Nat) (n : Int) (bs : List Byte) (late : Bool) : State :=
  let r := writeLoop (s.procs p).killed s.pipe bs
  let procs := match r.2.2 with
    | .done => leave (wakeup s.procs .nread) p (.user n) none late
    | .failed => leave s.procs p (.user (-1)) none late
    | .asleep rest => leave (wakeup s.procs .nread) p (.writing n rest) (some .nwrite) late
  ⟨r.1, s.freed, procs, s.accepted ++ r.2.1, s.returned⟩

/-- A section of `piperead(p, addr, n)` by the process `p`. -/
def piperead (s : State) (p : Nat) (n : Int) (late : Bool) : State :=
  match readSection (s.procs p).killed s.pipe n with
  | (pipe, .returned bs) =>
    ⟨pipe, s.freed, leave (wakeup s.procs .nwrite) p (.user bs.length) none late, s.accepted, s.returned ++ bs⟩
  | (pipe, .failed) => ⟨pipe, s.freed, leave s.procs p (.user (-1)) none late, s.accepted, s.returned⟩
  | (pipe, .asleep) => ⟨pipe, s.freed, leave s.procs p (.reading n) (some .nread) late, s.accepted, s.returned⟩

def pipeclose (s : State) (writable : Bool) : State :=
  let pipe := if writable then { s.pipe with writeopen := false } else { s.pipe with readopen := false }
  let procs := wakeup s.procs (if writable then .nread else .nwrite)
  ⟨pipe, !pipe.readopen && !pipe.writeopen, procs, s.accepted, s.returned⟩

def kill (s : State) (p : Nat) : State :=
  { s with procs := update s.procs p ⟨(s.procs p).pc, none, true⟩ }

inductive Act where
  | write (p : Nat) (n : Int) (bs : List Byte) (late : Bool)
  | read (p : Nat) (n : Int) (late : Bool)
  | resume (p : Nat) (late : Bool)
  | close (writable : Bool)
  | kill (p : Nat)
  deriving DecidableEq, Repr

inductive Step : State → Act → State → Prop
  | write {s : State} {p : Nat} {n ret : Int} {bs : List Byte} {late : Bool} (hlive : s.freed = false)
      (hpc : (s.procs p).pc = .user ret) (hawake : (s.procs p).asleep = none) (hbs : bs.length = n.toNat) :
      Step s (.write p n bs late) (pipewrite s p n bs late)
  | read {s : State} {p : Nat} {n ret : Int} {late : Bool} (hlive : s.freed = false)
      (hpc : (s.procs p).pc = .user ret) (hawake : (s.procs p).asleep = none) :
      Step s (.read p n late) (piperead s p n late)
  | resumeWrite {s : State} {p : Nat} {n : Int} {bs : List Byte} {late : Bool} (hlive : s.freed = false)
      (hpc : (s.procs p).pc = .writing n bs) (hawake : (s.procs p).asleep = none) :
      Step s (.resume p late) (pipewrite s p n bs late)
  | resumeRead {s : State} {p : Nat} {n : Int} {late : Bool} (hlive : s.freed = false)
      (hpc : (s.procs p).pc = .reading n) (hawake : (s.procs p).asleep = none) :
      Step s (.resume p late) (piperead s p n late)
  | close {s : State} {writable : Bool} (hlive : s.freed = false) : Step s (.close writable) (pipeclose s writable)
  | kill {s : State} {p : Nat} : Step s (.kill p) (kill s p)

structure Initial (s : State) : Prop where
  nread : s.pipe.nread = 0
  nwrite : s.pipe.nwrite = 0
  readopen : s.pipe.readopen = true
  writeopen : s.pipe.writeopen = true
  live : s.freed = false
  outside : ∀ p, (∃ ret, (s.procs p).pc = .user ret) ∧ (s.procs p).asleep = none
  accepted : s.accepted = []
  returned : s.returned = []

def system : System State Act := ⟨Initial, Step⟩

variable {p p' : Pipe} {b : Byte} {bs : List Byte} {killed late writable : Bool} {n : Int} {q : Nat} {s s' : State}
  {a : Act}

def buffered (p : Pipe) : List Byte := window pipeSize p.data p.nread (count p.nread p.nwrite)

def room (p : Pipe) : Nat := pipeSize - (buffered p).length

theorem buffered_length (p : Pipe) : (buffered p).length = count p.nread p.nwrite := window_length

theorem empty_iff : empty p = true ↔ buffered p = [] := by
  rw [← List.length_eq_zero_iff, buffered_length, count_eq_zero, empty, beq_iff_eq]

theorem full_iff : full p = true ↔ (buffered p).length = pipeSize := by
  rw [buffered_length, count_eq (by decide), full, beq_iff_eq]

theorem buffered_put (h : (buffered p).length < pipeSize) : buffered (put p b) = buffered p ++ [b] := by
  rw [buffered_length] at h
  have hsize : pipeSize = 512 := rfl
  have hslot : slot pipeSize p.nwrite = slot pipeSize (p.nread + BitVec.ofNat 32 (count p.nread p.nwrite)) := by
    rw [← counter_eq]
  rw [buffered, put]
  simp only [hslot]
  rw [count_push (by omega), window_push (by decide) h]
  rfl

theorem buffered_take (h : empty p = false) :
    buffered p = p.data (slot pipeSize p.nread) :: buffered { p with nread := p.nread + 1 } := by
  have hne : p.nread ≠ p.nwrite := by simpa [empty] using h
  rw [buffered, ← count_pop hne, window_cons]
  rfl

/-- A section of `pipewrite` stores what there is room for and ends by what is left. -/
structure Wrote (killed : Bool) (p : Pipe) (bs : List Byte) (r : Pipe × List Byte × WriteEnd) : Prop where
  buffered : buffered r.1 = buffered p ++ bs.take (room p)
  stored : r.2.1 = bs.take (room p)
  ended : r.2.2 = if bs.length ≤ room p then .done
    else if p.readopen = false ∨ killed = true then .failed else .asleep (bs.drop (room p))
  readopen : r.1.readopen = p.readopen
  writeopen : r.1.writeopen = p.writeopen

theorem writeLoop_wrote (killed : Bool) (bs : List Byte) (h : (buffered p).length ≤ pipeSize) :
    Wrote killed p bs (writeLoop killed p bs) := by
  induction bs generalizing p with
  | nil => exact ⟨by simp [writeLoop], by simp [writeLoop], by simp [writeLoop], rfl, rfl⟩
  | cons b bs ih =>
    by_cases hfull : full p = true
    · have hroom : room p = 0 := by rw [room, full_iff.mp hfull, Nat.sub_self]
      simp only [writeLoop, hfull, ↓reduceIte]
      split
      · rename_i hstop
        exact ⟨by simp [hroom], by simp [hroom], by simp [hroom, hstop], rfl, rfl⟩
      · rename_i hgo
        exact ⟨by simp [hroom], by simp [hroom], by simp [hroom, hgo], rfl, rfl⟩
    · have hlt : (Pipes.buffered p).length < pipeSize := by
        have hne := mt full_iff.mpr hfull
        omega
      have hput := buffered_put (b := b) hlt
      have hroom : room p = room (put p b) + 1 := by
        rw [room, room, hput, List.length_append, List.length_singleton]
        omega
      have hrest := ih (p := put p b) (by rw [hput]; simp; omega)
      simp only [writeLoop, hfull, Bool.false_eq_true, ↓reduceIte]
      refine ⟨?_, ?_, ?_, hrest.readopen, hrest.writeopen⟩
      · rw [hrest.buffered, hput, hroom, List.take_succ_cons, List.append_assoc, List.singleton_append]
      · rw [hrest.stored, hroom, List.take_succ_cons]
      · rw [hrest.ended, hroom, List.drop_succ_cons, List.length_cons]
        simp only [Nat.add_le_add_iff_right]
        rfl

theorem readLoop_buffered (p : Pipe) (k : Nat) : (readLoop p k).2 ++ buffered (readLoop p k).1 = buffered p := by
  induction k generalizing p with
  | zero => rfl
  | succ k ih =>
    by_cases he : empty p = true
    · simp [readLoop, he]
    · have he' : empty p = false := by simpa using he
      simp only [readLoop, he']
      rw [buffered_take he']
      exact congrArg _ (ih { p with nread := p.nread + 1 })

theorem readLoop_nil (h : (readLoop p n.toNat).2 = []) (hn : 0 < n) : buffered p = [] := by
  obtain ⟨k, hk⟩ : ∃ k, n.toNat = k + 1 := ⟨n.toNat - 1, by omega⟩
  rw [hk, readLoop] at h
  split at h
  · rename_i he
    exact empty_iff.mp he
  · cases h

/-- The ways a section of `piperead` ends. -/
theorem piperead_cases (s : State) (q : Nat) (n : Int) (late : Bool) :
    (empty s.pipe = true ∧ s.pipe.writeopen = true ∧
      ((piperead s q n late = { s with procs := leave s.procs q (.user (-1)) none late }) ∨
        piperead s q n late = { s with procs := leave s.procs q (.reading n) (some .nread) late })) ∨
    ¬(empty s.pipe = true ∧ s.pipe.writeopen = true) ∧
      ∃ (pipe : Pipe) (bs : List Byte), bs ++ buffered pipe = buffered s.pipe ∧ piperead s q n late =
        ⟨pipe, s.freed, leave (wakeup s.procs .nwrite) q (.user bs.length) none late, s.accepted,
          s.returned ++ bs⟩ := by
  by_cases hwait : empty s.pipe = true ∧ s.pipe.writeopen = true
  · refine .inl ⟨hwait.1, hwait.2, ?_⟩
    cases hk : (s.procs q).killed with
    | true =>
      left
      simp only [piperead, readSection, hwait, hk, and_self, ↓reduceIte]
    | false =>
      right
      simp only [piperead, readSection, hwait, hk, and_self, ↓reduceIte, Bool.false_eq_true]
  · refine .inr ⟨hwait, _, _, readLoop_buffered s.pipe n.toNat, ?_⟩
    simp only [piperead, readSection, hwait, ↓reduceIte]

theorem pipeclose_buffered : buffered (pipeclose s writable).pipe = buffered s.pipe := by
  cases writable with
  | false | true => rfl

/-- What was handed out and what is buffered is what was stored. -/
structure Stream (s : State) : Prop where
  eq : s.returned ++ buffered s.pipe = s.accepted
  bound : (buffered s.pipe).length ≤ pipeSize

theorem stream_pipewrite (h : Stream s) : Stream (pipewrite s q n bs late) := by
  have hw := writeLoop_wrote (s.procs q).killed bs h.bound
  constructor
  · simp only [pipewrite]
    rw [hw.buffered, hw.stored, ← List.append_assoc, h.eq]
  · have hbound := h.bound
    simp only [pipewrite]
    rw [hw.buffered, List.length_append, List.length_take, room]
    omega

theorem stream_piperead (h : Stream s) : Stream (piperead s q n late) := by
  rcases piperead_cases s q n late with ⟨-, -, heq | heq⟩ | ⟨-, pipe, bs, hbuf, heq⟩
  · rw [heq]
    exact ⟨h.eq, h.bound⟩
  · rw [heq]
    exact ⟨h.eq, h.bound⟩
  · have hbound := h.bound
    rw [← hbuf, List.length_append] at hbound
    rw [heq]
    refine ⟨?_, Nat.le_of_add_left_le hbound⟩
    rw [List.append_assoc, hbuf, h.eq]

theorem stream_step (h : Stream s) (hs : Step s a s') : Stream s' := by
  cases hs with
  | write => exact stream_pipewrite h
  | read => exact stream_piperead h
  | resumeWrite => exact stream_pipewrite h
  | resumeRead => exact stream_piperead h
  | close =>
    constructor
    · rw [pipeclose_buffered]
      exact h.eq
    · rw [pipeclose_buffered]
      exact h.bound
  | kill => exact ⟨h.eq, h.bound⟩

theorem stream_init (h : Initial s) : Stream s := by
  have hempty : buffered s.pipe = [] := by
    rw [← empty_iff, empty, h.nread, h.nwrite]
    rfl
  exact ⟨by rw [hempty, h.returned, h.accepted]; rfl, by rw [hempty]; exact Nat.zero_le _⟩

/-- A pipe is a first-in first-out stream of bytes of bounded length, end of file means that it is
drained and the write end closed, and a section of `pipewrite` with the bytes `bs` left to write
appends those that there is room for and leaves the others to the next section. -/
theorem pipe_fifo (h : Reachable system s) :
    s.returned ++ buffered s.pipe = s.accepted ∧ (buffered s.pipe).length ≤ pipeSize ∧
      (∀ (killed : Bool) (n : Int) (p : Pipe), 0 < n → readSection killed s.pipe n = (p, .returned []) →
        buffered s.pipe = [] ∧ s.pipe.writeopen = false) ∧
      ∀ p n bs late, (pipewrite s p n bs late).accepted = s.accepted ++ bs.take (room s.pipe) ∧
        ((pipewrite s p n bs late).procs p).pc = if bs.length ≤ room s.pipe then .user n
          else if s.pipe.readopen = false ∨ (s.procs p).killed = true then .user (-1)
          else .writing n (bs.drop (room s.pipe)) := by
  have hstream : Stream s := h.invariant (fun _ => stream_init) (fun _ _ _ => stream_step)
  refine ⟨hstream.eq, hstream.bound, ?_, ?_⟩
  · intro killed n p hn hr
    rw [readSection] at hr
    split at hr
    · split at hr <;> cases hr
    · rename_i hopen
      have hnil : (readLoop s.pipe n.toNat).2 = [] := by
        have := congrArg Prod.snd hr
        simpa using this
      have hbuf := readLoop_nil hnil hn
      refine ⟨hbuf, ?_⟩
      have he := empty_iff.mpr hbuf
      simpa [he] using hopen
  · intro p n bs late
    have hw := writeLoop_wrote (s.procs p).killed bs hstream.bound
    refine ⟨congrArg _ hw.stored, ?_⟩
    simp only [pipewrite, hw.ended]
    by_cases hfits : bs.length ≤ room s.pipe
    · simp [hfits, leave]
    · by_cases hstop : s.pipe.readopen = false ∨ (s.procs p).killed = true <;>
        simp only [hfits, hstop, ↓reduceIte, leave, update_self]

def fresh : State := ⟨⟨fun _ => 0, 0, 0, true, true⟩, false, fun _ => ⟨.user 0, none, false⟩, [], []⟩

theorem fresh_initial : Initial fresh := ⟨rfl, rfl, rfl, rfl, rfl, fun _ => ⟨⟨0, rfl⟩, rfl⟩, rfl, rfl⟩

/-- A writer has stored two bytes and a reader has taken one. -/
def exchange : State := piperead (pipewrite fresh 1 2 [7, 8] false) 0 1 false

theorem pipe_fifo_exchange :
    Reachable system exchange ∧ exchange.returned = [7] ∧ [7] ++ buffered exchange.pipe = [7, 8] := by
  have hwrite : Reachable system (pipewrite fresh 1 2 [7, 8] false) :=
    Reachable.next (Reach.init fresh_initial) (Step.write rfl rfl rfl rfl)
  have hread : Reachable system exchange := hwrite.next (Step.read rfl rfl rfl)
  exact ⟨hread, by decide, (pipe_fifo hread).1⟩

structure NoLostWakeup (s : State) : Prop where
  reader : ∀ q, (s.procs q).asleep = some .nread → buffered s.pipe = [] ∧ s.pipe.writeopen = true
  writer : ∀ q, (s.procs q).asleep = some .nwrite → (buffered s.pipe).length = pipeSize ∧ s.pipe.readopen = true

/-- A writer that finds a sleeping reader, and room for only a part of its bytes, is not killed
and the read end is open. -/
def Serves (s : State) (p : Nat) (bs : List Byte) : Prop :=
  (∃ q, (s.procs q).asleep = some .nread) → room s.pipe < bs.length →
    (s.procs p).killed = false ∧ s.pipe.readopen = true

def Served : State → Act → Prop
  | s, .write p _ bs _ => Serves s p bs
  | s, .resume p _ => ∀ n bs, (s.procs p).pc = .writing n bs → Serves s p bs
  | _, _ => True

variable {procs : Nat → Proc} {chan c : Chan} {pc : Pc} {o : Option Chan} {x : Nat}

theorem wakeup_asleep : (wakeup procs chan q).asleep = some c ↔ (procs q).asleep = some c ∧ c ≠ chan := by
  rw [wakeup]
  split
  · rename_i h
    simp only [reduceCtorEq, false_iff, h, Option.some.injEq, not_and, not_not]
    exact Eq.symm
  · rename_i h
    constructor
    · intro hc
      exact ⟨hc, fun he => h (he ▸ hc)⟩
    · exact And.left

theorem leave_asleep : (leave procs x pc o late q).asleep = some c ↔
    (q = x ∧ o = some c) ∨ (q ≠ x ∧ (procs q).asleep = some c) := by
  by_cases hq : q = x
  · subst hq
    simp [leave]
  · simp [leave, hq]

theorem noLostWakeup_piperead (h : NoLostWakeup s) : NoLostWakeup (piperead s q n late) := by
  rcases piperead_cases s q n late with ⟨hempty, hopen, heq | heq⟩ | ⟨hgo, pipe, bs, hbuf, heq⟩
  · rw [heq]
    constructor
    · intro x hx
      simp only [leave_asleep, reduceCtorEq, and_false, false_or] at hx
      exact h.reader x hx.2
    · intro x hx
      simp only [leave_asleep, reduceCtorEq, and_false, false_or] at hx
      exact h.writer x hx.2
  · rw [heq]
    constructor
    · intro x _
      exact ⟨empty_iff.mp hempty, hopen⟩
    · intro x hx
      simp only [leave_asleep, Option.some.injEq, reduceCtorEq, and_false, false_or] at hx
      exact h.writer x hx.2
  · rw [heq]
    constructor
    · intro x hx
      simp only [leave_asleep, wakeup_asleep, reduceCtorEq, and_false, false_or] at hx
      obtain ⟨hempty, hopen⟩ := h.reader x hx.2.1
      exact absurd ⟨empty_iff.mpr hempty, hopen⟩ hgo
    · intro x hx
      simp [leave_asleep, wakeup_asleep] at hx

theorem noLostWakeup_pipeclose (h : NoLostWakeup s) : NoLostWakeup (pipeclose s writable) := by
  constructor
  · intro x hx
    rw [pipeclose_buffered]
    cases writable with
    | false => exact h.reader x (wakeup_asleep.mp hx).1
    | true => exact absurd rfl (wakeup_asleep.mp hx).2
  · intro x hx
    rw [pipeclose_buffered]
    cases writable with
    | false => exact absurd rfl (wakeup_asleep.mp hx).2
    | true => exact h.writer x (wakeup_asleep.mp hx).1

theorem noLostWakeup_kill (h : NoLostWakeup s) : NoLostWakeup (kill s q) := by
  have hasleep : ∀ {x c}, ((kill s q).procs x).asleep = some c → (s.procs x).asleep = some c := by
    intro x c hx
    by_cases hxq : x = q
    · subst hxq
      simp [kill] at hx
    · simpa [kill, hxq] using hx
  exact ⟨fun x hx => h.reader x (hasleep hx), fun x hx => h.writer x (hasleep hx)⟩

/-- Who sleeps after a section of `pipewrite`, by how it ends. -/
theorem pipewrite_asleep (hbound : (buffered s.pipe).length ≤ pipeSize) :
    ((pipewrite s q n bs late).procs x).asleep = some c ↔
      if bs.length ≤ room s.pipe then x ≠ q ∧ (s.procs x).asleep = some c ∧ c ≠ .nread
      else if s.pipe.readopen = false ∨ (s.procs q).killed = true then x ≠ q ∧ (s.procs x).asleep = some c
      else (x = q ∧ c = .nwrite) ∨ (x ≠ q ∧ (s.procs x).asleep = some c ∧ c ≠ .nread) := by
  have hw := writeLoop_wrote (s.procs q).killed bs hbound
  rw [pipewrite]
  split_ifs with hdone hstop
  · simp only [hw.ended, hdone, ↓reduceIte, leave_asleep, wakeup_asleep, reduceCtorEq, and_false, false_or]
  · simp only [hw.ended, hdone, hstop, ↓reduceIte, leave_asleep, reduceCtorEq, and_false, false_or]
  · simp only [hw.ended, hdone, hstop, ↓reduceIte, leave_asleep, wakeup_asleep, Option.some.injEq]
    rw [eq_comm (a := Chan.nwrite)]

/-- A section of `pipewrite` keeps every sleeper's reason exactly if it serves the readers. -/
theorem noLostWakeup_pipewrite (hbound : (buffered s.pipe).length ≤ pipeSize) (h : NoLostWakeup s)
    (hawake : (s.procs q).asleep = none) :
    NoLostWakeup (pipewrite s q n bs late) ↔ Serves s q bs := by
  have hw := writeLoop_wrote (s.procs q).killed bs hbound
  have hbuf : buffered (pipewrite s q n bs late).pipe = buffered s.pipe ++ bs.take (room s.pipe) := hw.buffered
  have hfull : ∀ x, (s.procs x).asleep = some .nwrite →
      (buffered (pipewrite s q n bs late).pipe).length = pipeSize ∧
        (pipewrite s q n bs late).pipe.readopen = true := by
    intro x hx
    obtain ⟨hlen, hopen⟩ := h.writer x hx
    rw [hbuf, room, hlen, Nat.sub_self, List.take_zero, List.append_nil]
    exact ⟨hlen, hw.readopen.trans hopen⟩
  constructor
  · rintro h' ⟨x, hx⟩ hroom
    by_contra hstop
    have hxq : x ≠ q := by
      rintro rfl
      rw [hawake] at hx
      cases hx
    have hcut : s.pipe.readopen = false ∨ (s.procs q).killed = true := by
      by_contra hno
      simp only [not_or, Bool.not_eq_true, Bool.not_eq_false] at hno
      exact hstop ⟨hno.2, hno.1⟩
    have hx' : ((pipewrite s q n bs late).procs x).asleep = some .nread := by
      rw [pipewrite_asleep hbound, if_neg (by omega), if_pos hcut]
      exact ⟨hxq, hx⟩
    have hnil := (h'.reader x hx').1
    have hlen := congrArg List.length hnil
    have hsize : pipeSize = 512 := rfl
    rw [hbuf, (h.reader x hx).1, List.nil_append, List.length_take, List.length_nil, room, (h.reader x hx).1,
      List.length_nil] at hlen
    rw [room, (h.reader x hx).1, List.length_nil] at hroom
    omega
  · intro hserves
    constructor
    · intro x hx
      rw [pipewrite_asleep hbound] at hx
      split_ifs at hx with hdone hcut
      · exact absurd rfl hx.2.2
      · obtain ⟨hk, hr⟩ := hserves ⟨x, hx.2⟩ (by omega)
        rw [hk, hr] at hcut
        simp at hcut
      · rcases hx with ⟨-, hc⟩ | ⟨-, -, hc⟩
        · cases hc
        · exact absurd rfl hc
    · intro x hx
      rw [pipewrite_asleep hbound] at hx
      split_ifs at hx with hdone hcut
      · exact hfull x hx.2.1
      · exact hfull x hx.2
      · rcases hx with - | ⟨-, hx, -⟩
        · refine ⟨?_, ?_⟩
          · rw [hbuf, List.length_append, List.length_take, room]
            rw [room] at hdone
            omega
          · rw [not_or, Bool.not_eq_false] at hcut
            exact hw.readopen.trans hcut.1
        · exact hfull x hx

theorem noLostWakeup_step (hstream : Stream s) (h : NoLostWakeup s) (hs : Step s a s') :
    NoLostWakeup s' ↔ Served s a := by
  cases hs with
  | write _ _ hawake => exact noLostWakeup_pipewrite hstream.bound h hawake
  | read => exact iff_of_true (noLostWakeup_piperead h) trivial
  | resumeWrite _ hpc hawake =>
    rw [noLostWakeup_pipewrite hstream.bound h hawake, Served]
    constructor
    · intro hserves n' bs' hpc'
      rw [hpc] at hpc'
      cases hpc'
      exact hserves
    · exact fun hserves => hserves _ _ hpc
  | resumeRead _ hpc =>
    refine iff_of_true (noLostWakeup_piperead h) ?_
    intro n' bs' hpc'
    rw [hpc] at hpc'
    cases hpc'
  | close => exact iff_of_true (noLostWakeup_pipeclose h) trivial
  | kill => exact iff_of_true (noLostWakeup_kill h) trivial

theorem noLostWakeup_init (h : Initial s) : NoLostWakeup s := by
  constructor <;> intro x hx <;> rw [(h.outside x).2] at hx <;> cases hx

/-- As long as writers serve the sleeping readers no wakeup is lost, and the first section that
does not leaves a reader asleep on a full buffer. -/
theorem no_lost_wakeup_iff (h : Reach system Served s) :
    NoLostWakeup s ∧ ∀ a s', Step s a s' → (NoLostWakeup s' ↔ Served s a) := by
  have hinv : Stream s ∧ NoLostWakeup s := by
    refine h.invariant (I := fun s => Stream s ∧ NoLostWakeup s)
      (fun s hi => ⟨stream_init hi, noLostWakeup_init hi⟩) ?_
    intro s a s' hI hok hs
    exact ⟨stream_step hI.1 hs, (noLostWakeup_step hI.1 hI.2 hs).mpr hok⟩
  exact ⟨hinv.2, fun a s' hs => noLostWakeup_step hinv.1 hinv.2 hs⟩

/-- A reader waits, and a writer with more bytes than the pipe holds is killed. -/
def cutOff : State := kill (piperead fresh 0 1 false) 1

theorem no_lost_wakeup_waiting :
    Reach system Served cutOff ∧ NoLostWakeup cutOff := by
  have hread : Reach system Served (piperead fresh 0 1 false) :=
    Reach.step (a := .read 0 1 false) (Reach.init fresh_initial) trivial (Step.read rfl rfl rfl)
  have hkill : Reach system Served cutOff := Reach.step (a := .kill 1) hread trivial Step.kill
  exact ⟨hkill, (no_lost_wakeup_iff hkill).1⟩

theorem killed_writer_loses_wakeup : ∃ s, Reachable system s ∧ (s.procs 1).pc = .user (-1) ∧
    (s.procs 0).asleep = some .nread ∧ (buffered s.pipe).length = pipeSize := by
  have hread : Reachable system (piperead fresh 0 1 false) :=
    Reachable.next (Reach.init fresh_initial) (Step.read rfl rfl rfl)
  have hkill : Reachable system cutOff := hread.next (a := .kill 1) Step.kill
  have hbuf : buffered cutOff.pipe = [] := by decide
  have hroom : room cutOff.pipe = pipeSize := by
    rw [room, hbuf]
    rfl
  have hbound : (buffered cutOff.pipe).length ≤ pipeSize := by
    rw [hbuf]
    exact Nat.zero_le _
  have hlen : (List.replicate 513 (0 : Byte)).length = 513 := List.length_replicate
  have hcut : ¬ (List.replicate 513 (0 : Byte)).length ≤ room cutOff.pipe := by
    rw [hroom, hlen]
    decide
  have hkilled : (cutOff.procs 1).killed = true := rfl
  have hw := writeLoop_wrote (cutOff.procs 1).killed (List.replicate 513 (0 : Byte)) hbound
  refine ⟨pipewrite cutOff 1 513 (List.replicate 513 0) false,
    hkill.next (Step.write rfl rfl rfl hlen), ?_, ?_, ?_⟩
  · have hended : (writeLoop (cutOff.procs 1).killed cutOff.pipe (List.replicate 513 0)).2.2 = .failed := by
      rw [hw.ended, if_neg hcut, if_pos (.inr hkilled)]
    simp only [pipewrite, hended, leave, update_self]
  · rw [pipewrite_asleep hbound, if_neg hcut, if_pos (.inr hkilled)]
    exact ⟨by decide, rfl⟩
  · rw [pipewrite]
    simp only [hw.buffered, hbuf, hroom, List.nil_append, List.length_take, hlen]
    rfl

end Xv6.Pipes
