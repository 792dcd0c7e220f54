import Xv6.BufferCoherence
import Xv6.Ide

/-!
# Reads that fail

The buffer cache over the IDE driver, when the device may report an error for any request. `iderw`
puts its buffer at the end of the queue, and `ideintr` ends the request at its head. It sets
`B_VALID` also where `idewait` has seen an error and the data has not been read; an error of a write
is not looked at, and leaves anything on the disk.
-/
namespace Xv6.DiskErrors

open Xv6.BlockStore Xv6.Interleaving Xv6.LinkedRing Xv6.RedoLog Xv6.BufferCache Xv6.BufferCoherence
open Xv6.Ide (fssize)
open Function

/-- The cache, the queue, and which buffers a holder has written to since they stand for their
block. -/
structure State where
  cache : BufferCache.State
  queue : List BufNo
  written : BufNo → Bool

inductive Act where
  | bread (p : Nat) (n : BlockNo)
  | acquire (p : Nat)
  | resume (p : Nat)
  | modify (p : Nat) (b : BufNo) (d : Block)
  | logWrite (p : Nat) (b : BufNo)
  | brelse (p : Nat) (b : BufNo)
  | putBack (p : Nat)
  | read (p : Nat)
  | bwrite (p : Nat) (b : BufNo)
  | intr (failed : Bool) (d : Block)

def rootdev : BitVec 32 := 1

/-- The process and its step in the cache, for a step that is not one of the driver. -/
def Act.inCache : Act → Option (Nat × BufferCache.Act)
  | .bread p n => some (p, .bread p rootdev n)
  | .acquire p => some (p, .acquire p)
  | .resume p => some (p, .resume p)
  | .modify p b d => some (p, .modify p b d)
  | .logWrite p b => some (p, .logWrite p b)
  | .brelse p b => some (p, .brelse p b)
  | .putBack p => some (p, .putBack p)
  | .read _ | .bwrite .. | .intr .. => none

def Act.writes : Act → Option BufNo
  | .modify _ b _ | .bwrite _ b => some b
  | _ => none

def Idle (s : State) (p : Nat) : Prop := ∀ b ∈ s.queue, (s.cache.bufs b).lock ≠ some p

/-- What `ideintr` makes of a buffer, with `data` at the data port; `failed` says that `idewait` has
seen an error. -/
def finish (buf : Buf) (failed : Bool) (data : Block) : Buf :=
  { buf with data := if buf.dirty = false ∧ failed = false then data else buf.data, valid := true, dirty := false }

/-- The disk after a request; a write that fails leaves `d`. -/
def diskAfter (disk : BlockNo → Block) (buf : Buf) (failed : Bool) (d : Block) : BlockNo → Block :=
  if buf.dirty = true then put disk buf.blockno (if failed = true then d else buf.data) else disk

/-- `iderw` returns: to `bread`, or to the caller of `bwrite`. -/
def served : Pc → Pc
  | .filling dev n b => .returned dev n b
  | pc => pc

def intr (s : State) (p : Nat) (b : BufNo) (rest : List BufNo) (failed : Bool) (d : Block) : State :=
  let buf := s.cache.bufs b
  { s with
    cache := { act s.cache p b (finish buf failed (s.cache.disk buf.blockno)) (served (s.cache.procs p)) with
      disk := diskAfter s.cache.disk buf failed d }
    queue := rest }

/-- The data a buffer holds is its holder's when the holder writes, and no one's when the buffer is
recycled. -/
def mark (written : BufNo → Bool) (a : Act) (cache : BufferCache.State) : BufNo → Bool :=
  fun b => (written b || decide (a.writes = some b)) && (cache.bufs b).valid

inductive Step : State → Act → State → Prop
  | cache {s : State} {a : Act} {p : Nat} {a' : BufferCache.Act} {cache : BufferCache.State}
      (ha : a.inCache = some (p, a'))
      (hidle : Idle s p) (hs : BufferCache.Step fssize s.cache a' cache) :
      Step s a ⟨cache, s.queue, mark s.written a cache⟩
  | read {s : State} {p : Nat} {n : BlockNo} {b : BufNo}
      (hpc : s.cache.procs p = .filling rootdev n b) (hidle : Idle s p)
      (hno : n.toNat < fssize) : Step s (.read p) { s with queue := s.queue ++ [b] }
  | bwrite {s : State} {p : Nat} {b : BufNo} (hpc : s.cache.procs p = .ready)
      (hlock : (s.cache.bufs b).lock = some p)
      (hidle : Idle s p) (hno : (s.cache.bufs b).blockno.toNat < fssize) :
      Step s (.bwrite p b) ⟨act s.cache p b { s.cache.bufs b with
        dirty := true, touched := false } .ready, s.queue ++ [b],
        update s.written b true⟩
  | intr {s : State} {p : Nat} {b : BufNo} {rest : List BufNo} {failed : Bool} {d : Block}
      (hqueue : s.queue = b :: rest)
      (hlock : (s.cache.bufs b).lock = some p) : Step s (.intr failed d) (intr s p b rest failed d)

structure Booted (s : State) : Prop where
  cache : Initial s.cache
  queue : s.queue = []
  written : ∀ b, s.written b = false

def system : System State Act := ⟨Booted, Step⟩

/-- Data is valid only if it is on the disk or its holder has put it there, and what `bread` returns
is its block. -/
structure Genuine (s : State) : Prop where
  data : ∀ b, (s.cache.bufs b).valid = true →
    (s.cache.bufs b).data = s.cache.disk (s.cache.bufs b).blockno ∨ s.written b = true
  bread : ∀ p dev n b, s.cache.procs p = .returned dev n b → (s.cache.bufs b).valid = true ∧
    (s.cache.bufs b).dev = dev ∧
    (s.cache.bufs b).blockno = n ∧ ((s.cache.bufs b).data = s.cache.disk n ∨ s.written b = true)

def ReadsSucceed (s : State) : Act → Prop
  | .intr failed _ => ∀ b rest, s.queue = b :: rest → (s.cache.bufs b).dirty = false → failed = false
  | _ => True

/-!
The invariant of the cache says that clean buffers agree with the disk, which fails here. What it
says about locks, references and the processes does not depend on the disk: it holds over a disk
made up to agree with the buffers.
-/

variable {c c' : BufferCache.State} {s s' : State} {D : BlockNo → Block} {p q : Nat} {b : BufNo}
  {n : BlockNo} {x : Block}
  {a : BufferCache.Act}

def onDisk (c : BufferCache.State) (D : BlockNo → Block) : BufferCache.State :=
    { c with disk := D, first := D, history := [] }

def Used (c : BufferCache.State) : Prop := ∃ D, Inv (onDisk c D)

theorem used_of_inv (h : Inv c) : Used c := by
  refine ⟨contents c, fun b => ?_, h.uniq, fun _ _ => rfl, h.list⟩
  have hbuf := h.buf b
  exact { hbuf with clean := fun _ _ => rfl }

/-- A buffer without data goes with any contents of its block. -/
theorem onDisk_put (h : Inv (onDisk c D)) (hdev : (c.bufs b).dev = 1)
    (hvalid : (c.bufs b).valid = false) (x : Block) :
    Inv (onDisk c (put D (c.bufs b).blockno x)) := by
  refine ⟨fun b' => ?_, h.uniq, fun _ _ => rfl, h.list⟩
  have hbuf : BufInv b' (c.bufs b') c.procs (D (c.bufs b').blockno) (D (c.bufs b').blockno) := h.buf b'
  show BufInv b' (c.bufs b') c.procs (put D _ x (c.bufs b').blockno) (put D _ x (c.bufs b').blockno)
  by_cases hb : b' = b
  · subst hb
    refine { hbuf with data := fun hv => ?_, clean := fun _ _ => rfl }
    rw [hvalid] at hv
    cases hv
  · by_cases hone : (c.bufs b').dev = 1
    · have hno : (c.bufs b').blockno ≠ (c.bufs b).blockno := by
        intro heq
        refine hb (h.uniq b' b ?_ (hone.trans hdev.symm) heq)
        rw [show ((onDisk c D).bufs b').dev = 1 from hone]
        decide
      rw [put_other D x hno]
      exact hbuf
    · exact hbuf.other hone

/-- The steps of the cache alone do not look at the disk. -/
theorem onDisk_step (ha : ∃ a₀ : Act, a₀.inCache = some (p, a))
    (hs : BufferCache.Step fssize c a c') (D : BlockNo → Block) :
    ∃ history, BufferCache.Step fssize (onDisk c D) a { onDisk c' D with history := history } := by
  cases hs with
  | bread hpc hget => exact ⟨[], .bread hpc hget⟩
  | acquire hpc hfree => exact ⟨[], .acquire hpc hfree⟩
  | resume hpc => exact ⟨[], .resume hpc⟩
  | modify hpc hlock => exact ⟨[], .modify hpc hlock⟩
  | logWrite hpc hlock => exact ⟨_, .logWrite hpc hlock⟩
  | brelse hpc hlock hdone => exact ⟨[], .brelse hpc hlock hdone⟩
  | putBack hpc => exact ⟨[], .putBack hpc⟩
  | fill | bwrite =>
    obtain ⟨a₀, ha⟩ := ha
    cases a₀ <;> cases ha

theorem used_step (h : Used c) (ha : ∃ a₀ : Act, a₀.inCache = some (p, a))
    (hs : BufferCache.Step fssize c a c') : Used c' := by
  obtain ⟨D, hinv⟩ := h
  obtain ⟨history, hstep⟩ := onDisk_step ha hs D
  have hused : Used { onDisk c' D with history := history } := used_of_inv (inv_step hinv hstep)
  exact hused

/-- Two states of a buffer with the same holder, block and data. -/
structure SameUse (buf buf' : Buf) : Prop where
  lock : buf'.lock = buf.lock
  dirty : buf'.dirty = buf.dirty
  touched : buf'.touched = buf.touched
  blockno : buf'.blockno = buf.blockno

theorem SameUse.refl (buf : Buf) : SameUse buf buf := ⟨rfl, rfl, rfl, rfl⟩

/-- What a process does in the cache: it changes where it is, no buffer that another one holds, and
data only by writing. -/
structure InCache (c c' : BufferCache.State) (p : Nat) (writes : Option BufNo) : Prop where
  procs : ∀ q, q ≠ p → c'.procs q = c.procs q
  disk : c'.disk = c.disk
  held : ∀ b q, (c.bufs b).lock = some q → q ≠ p → SameUse (c.bufs b) (c'.bufs b)
  valid : ∀ b, (c'.bufs b).valid = true → (c.bufs b).valid = true ∧ (c'.bufs b).blockno = (c.bufs b).blockno ∧
    ((c'.bufs b).data = (c.bufs b).data ∨ writes = some b)

theorem inCache_update {buf : Buf} {pc : Pc} {writes : Option BufNo} (hbufs : c'.bufs = update c.bufs b buf)
    (hprocs : c'.procs = update c.procs p pc) (hdisk : c'.disk = c.disk)
    (hheld : ∀ q, (c.bufs b).lock = some q → q ≠ p → SameUse (c.bufs b) buf)
    (hvalid : buf.valid = true → (c.bufs b).valid = true ∧ buf.blockno = (c.bufs b).blockno ∧
      (buf.data = (c.bufs b).data ∨ writes = some b)) : InCache c c' p writes := by
  refine ⟨fun q hq => ?_, hdisk, fun b' q hlock hq => ?_, fun b' hv => ?_⟩
  · rw [hprocs, update_of_ne hq]
  · rw [hbufs]
    by_cases hb : b' = b
    · subst hb
      rw [update_self]
      exact hheld q hlock hq
    · rw [update_of_ne hb]
      exact .refl _
  · rw [hbufs] at hv ⊢
    by_cases hb : b' = b
    · subst hb
      rw [update_self] at hv ⊢
      exact hvalid hv
    · rw [update_of_ne hb] at hv ⊢
      exact ⟨hv, rfl, .inl rfl⟩

/-- The holder of a buffer is the only one whose step changes it. -/
theorem held_by {buf : Buf} (hlock : (c.bufs b).lock = some p) (q : Nat)
    (hq : (c.bufs b).lock = some q) (hne : q ≠ p) :
    SameUse (c.bufs b) buf :=
  absurd (Option.some.inj (hq.symm.trans hlock)) hne

theorem inCache_step (h : Used c) {a₀ : Act} (ha : a₀.inCache = some (p, a))
    (hs : BufferCache.Step fssize c a c') :
    InCache c c' p a₀.writes := by
  obtain ⟨D, hinv⟩ := h
  cases hs with
  | @bread p' dev n b buf hpc hget =>
    cases a₀ <;> cases ha
    rcases bget_cases hinv hget with ⟨-, -, heq⟩ | ⟨-, href, -, heq⟩
    · simp only at heq
      subst heq
      exact inCache_update rfl rfl rfl (fun _ _ _ => ⟨rfl, rfl, rfl, rfl⟩) fun hv => ⟨hv, rfl, .inl rfl⟩
    · simp only at href heq
      subst heq
      refine inCache_update rfl rfl rfl (fun q hq _ => ?_) fun hv => ?_
      · -- a buffer that is held has a reference
        have hcount := (hinv.buf b).count
        rw [href, show ((onDisk c D).bufs b).lock = some q from hq] at hcount
        simp at hcount
        omega
      · cases hv
  | acquire hpc hfree =>
    cases a₀ <;> cases ha
    refine inCache_update rfl rfl rfl (fun q hq _ => ?_) fun hv => ⟨hv, rfl, .inl rfl⟩
    rw [hfree] at hq
    cases hq
  | resume =>
    cases a₀ <;> cases ha
    exact inCache_update rfl rfl rfl (fun _ _ _ => .refl _) fun hv => ⟨hv, rfl, .inl rfl⟩
  | modify hpc hlock =>
    cases a₀ <;> cases ha
    exact inCache_update rfl rfl rfl (held_by hlock) fun hv => ⟨hv, rfl, .inr rfl⟩
  | logWrite hpc hlock | brelse hpc hlock hdone =>
    cases a₀ <;> cases ha
    exact inCache_update rfl rfl rfl (held_by hlock) fun hv => ⟨hv, rfl, .inl rfl⟩
  | putBack hpc =>
    cases a₀ <;> cases ha
    exact inCache_update rfl rfl rfl (fun _ _ _ => ⟨rfl, rfl, rfl, rfl⟩) fun hv => ⟨hv, rfl, .inl rfl⟩
  | fill | bwrite => cases a₀ <;> cases ha

end Xv6.DiskErrors
