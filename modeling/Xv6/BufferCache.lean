import Mathlib.Data.List.FinRange
import Xv6.Interleaving
import Xv6.LinkedRing
import Xv6.RedoLog

/-!
# The buffer cache

`bio.c` over the memory disk of `memide.c`, run by any number of processes. A step is a section of
`bcache.lock`, or what a process does while it has the buffer's sleep lock. Whoever changes the data
of a buffer calls `log_write` or `bwrite` before it gives the buffer back.

Written down on the side are the processes that wait for a buffer or put it back, whether its data
has changed since the last `log_write` or `bwrite`, and the data handed to these two.
-/
namespace Xv6.BufferCache

open BlockStore Interleaving LinkedRing RedoLog Function

def nbuf : Nat := maxOpBlocks * 3

abbrev BufNo := Fin nbuf

abbrev Node := Option BufNo

structure Buf where
  valid : Bool
  dirty : Bool
  dev : BitVec 32
  blockno : BlockNo
  lock : Option Nat
  refcnt : Nat
  data : Block
  pending : List Nat
  touched : Bool

/-- Where a process is with respect to one buffer; it may hold others. -/
inductive Pc where
  | ready
  | waiting (dev : BitVec 32) (n : BlockNo) (b : BufNo)
  | filling (dev : BitVec 32) (n : BlockNo) (b : BufNo)
  | returned (dev : BitVec 32) (n : BlockNo) (b : BufNo)
  | releasing (b : BufNo)
  deriving DecidableEq

structure State where
  bufs : BufNo → Buf
  links : Links Node
  disk : BlockNo → Block
  procs : Nat → Pc
  first : BlockNo → Block
  history : List (BlockNo × Block)

/-- What the block holds as far as its users are concerned: what was last handed to `log_write`
or `bwrite`, or the disk at the start. -/
def contents (s : State) : BlockNo → Block := writes s.first s.history

def onNode (t : BufNo → Bool) : Node → Bool
  | none => false
  | some b => t b

def findNext (l : Links Node) (t : BufNo → Bool) : Option BufNo :=
  (scan l.next none (onNode t) (nbuf + 1) (l.next none)).join

def findPrev (l : Links Node) (t : BufNo → Bool) : Option BufNo :=
  (scan l.prev none (onNode t) (nbuf + 1) (l.prev none)).join

/-- The section of `bget` under `bcache.lock`: the buffer and its new state. -/
def bget (s : State) (p : Nat) (dev : BitVec 32) (n : BlockNo) : Option (BufNo × Buf) :=
  match findNext s.links (fun b => (s.bufs b).dev == dev && (s.bufs b).blockno == n) with
  | some b =>
    let buf := s.bufs b
    some (b, { buf with refcnt := buf.refcnt + 1, pending := p :: buf.pending })
  | none =>
    match findPrev s.links (fun b => (s.bufs b).refcnt == 0 && !(s.bufs b).dirty) with
    | some b =>
      some (b, { s.bufs b with
        dev := dev, blockno := n, valid := false, dirty := false, refcnt := 1, pending := [p] })
    | none => none

/-- `iderw` of the memory disk: the buffer and what it wrote; `none` is a panic. -/
def iderw (disksize : Nat) (disk : BlockNo → Block) (buf : Buf) : Option (Buf × (BlockNo → Block)) :=
  if buf.lock = none then none
  else if buf.valid = true ∧ buf.dirty = false then none
  else if buf.dev ≠ 1 then none
  else if disksize ≤ buf.blockno.toNat then none
  else if buf.dirty then some ({ buf with dirty := false, valid := true }, put disk buf.blockno buf.data)
  else some ({ buf with data := disk buf.blockno, valid := true }, disk)

def act (s : State) (p : Nat) (b : BufNo) (buf : Buf) (pc : Pc) : State :=
  { s with bufs := update s.bufs b buf, procs := update s.procs p pc }

inductive Act where
  | bread (p : Nat) (dev : BitVec 32) (n : BlockNo)
  | acquire (p : Nat)
  | fill (p : Nat)
  | resume (p : Nat)
  | modify (p : Nat) (b : BufNo) (d : Block)
  | logWrite (p : Nat) (b : BufNo)
  | bwrite (p : Nat) (b : BufNo)
  | brelse (p : Nat) (b : BufNo)
  | putBack (p : Nat)

inductive Step (disksize : Nat) : State → Act → State → Prop
  | bread {s : State} {p : Nat} {dev : BitVec 32} {n : BlockNo} {b : BufNo} {buf : Buf} (hpc : s.procs p = .ready)
      (hget : bget s p dev n = some (b, buf)) : Step disksize s (.bread p dev n) (act s p b buf (.waiting dev n b))
  | acquire {s : State} {p : Nat} {dev : BitVec 32} {n : BlockNo} {b : BufNo} (hpc : s.procs p = .waiting dev n b)
      (hfree : (s.bufs b).lock = none) :
      Step disksize s (.acquire p) (act s p b
        { s.bufs b with lock := some p, pending := (s.bufs b).pending.erase p }
        (if (s.bufs b).valid then .returned dev n b else .filling dev n b))
  | fill {s : State} {p : Nat} {dev : BitVec 32} {n : BlockNo} {b : BufNo} {buf : Buf} {disk : BlockNo → Block}
      (hpc : s.procs p = .filling dev n b) (hrw : iderw disksize s.disk (s.bufs b) = some (buf, disk)) :
      Step disksize s (.fill p) { act s p b buf (.returned dev n b) with disk := disk }
  | resume {s : State} {p : Nat} {dev : BitVec 32} {n : BlockNo} {b : BufNo}
      (hpc : s.procs p = .returned dev n b) :
      Step disksize s (.resume p) (act s p b (s.bufs b) .ready)
  | modify {s : State} {p : Nat} {b : BufNo} {d : Block} (hpc : s.procs p = .ready)
      (hlock : (s.bufs b).lock = some p) :
      Step disksize s (.modify p b d) (act s p b { s.bufs b with data := d, touched := true } .ready)
  | logWrite {s : State} {p : Nat} {b : BufNo} (hpc : s.procs p = .ready) (hlock : (s.bufs b).lock = some p) :
      Step disksize s (.logWrite p b)
        { act s p b { s.bufs b with dirty := true, touched := false } .ready with
          history := s.history ++ [((s.bufs b).blockno, (s.bufs b).data)] }
  | bwrite {s : State} {p : Nat} {b : BufNo} {buf : Buf} {disk : BlockNo → Block} (hpc : s.procs p = .ready)
      (hlock : (s.bufs b).lock = some p)
      (hrw : iderw disksize s.disk { s.bufs b with dirty := true, touched := false } = some (buf, disk)) :
      Step disksize s (.bwrite p b)
        { act s p b buf .ready with
          disk := disk, history := s.history ++ [((s.bufs b).blockno, (s.bufs b).data)] }
  | brelse {s : State} {p : Nat} {b : BufNo} (hpc : s.procs p = .ready) (hlock : (s.bufs b).lock = some p)
      (hdone : (s.bufs b).touched = false) :
      Step disksize s (.brelse p b)
        (act s p b { s.bufs b with lock := none, pending := p :: (s.bufs b).pending } (.releasing b))
  | putBack {s : State} {p : Nat} {b : BufNo} (hpc : s.procs p = .releasing b) :
      Step disksize s (.putBack p)
        { act s p b { s.bufs b with
            refcnt := (s.bufs b).refcnt - 1, pending := (s.bufs b).pending.erase p } .ready with
          links := if (s.bufs b).refcnt - 1 = 0 then pushFront (unlink s.links (some b)) none
            (some b) else s.links }

def binit (l : Links Node) : List BufNo → Links Node
  | [] => l
  | b :: bs => binit (pushFront l none (some b)) bs

/-- Memory is zero, `binit` has linked the buffers, and no process has one. -/
structure Initial (s : State) : Prop where
  links : ∃ l : Links Node, s.links = binit ((l.setPrev none none).setNext none none) (List.finRange nbuf)
  buf : ∀ b, (s.bufs b).valid = false ∧ (s.bufs b).dirty = false ∧ (s.bufs b).dev = 0 ∧ (s.bufs b).lock = none ∧
    (s.bufs b).refcnt = 0 ∧ (s.bufs b).pending = [] ∧ (s.bufs b).touched = false
  ready : ∀ p, s.procs p = .ready
  first : s.first = s.disk
  history : s.history = []

def system (disksize : Nat) : System State Act := ⟨Initial, Step disksize⟩

variable {s : State} {l : Links Node} {bs : List BufNo} {t : BufNo → Bool}

/-- The list goes through the buffers `bs`, and these are all buffers. -/
structure Listed (l : Links Node) (bs : List BufNo) : Prop where
  ring : Ring l none (bs.map some)
  perm : bs.Perm (List.finRange nbuf)

theorem find_onNode : ((bs.map some).find? (onNode t)).join = bs.find? t := by
  rw [List.find?_map]
  have : onNode t ∘ some = t := rfl
  rw [this]
  cases bs.find? t <;> rfl

section

variable (h : Listed l bs)
include h

theorem Listed.length : bs.length = nbuf := by
  rw [h.perm.length_eq, List.length_finRange]

theorem findNext_eq : findNext l t = bs.find? t := by
  rw [findNext, h.ring.scan_next (by rw [List.length_map, h.length]; exact Nat.lt_succ_self _), find_onNode]

theorem findPrev_eq : findPrev l t = bs.reverse.find? t := by
  rw [findPrev, h.ring.scan_prev (by rw [List.length_map, h.length]; exact Nat.lt_succ_self _), ← List.map_reverse,
    find_onNode]

theorem Listed.mem (b : BufNo) : b ∈ bs := h.perm.mem_iff.mpr (List.mem_finRange b)

/-- The most recently used buffer moves to the front. -/
theorem Listed.move (b : BufNo) :
    ∃ cs, Listed (pushFront (unlink l (some b)) none (some b)) cs := by
  obtain ⟨xs, ys, rfl⟩ := List.append_of_mem (h.mem b)
  have hring := h.ring
  rw [List.map_append, List.map_cons] at hring
  have hn := hring.nodup
  refine ⟨b :: (xs ++ ys), ⟨?_, ?_⟩⟩
  · have hout := hring.unlink
    rw [← List.map_append] at hout
    apply hout.pushFront
    simp only [List.nodup_cons, List.nodup_append, List.mem_cons, List.mem_append] at hn ⊢
    grind
  · exact List.perm_middle.symm.trans h.perm

end

theorem binit_ring (hl : Ring l none (bs.map some)) (cs : List BufNo) (hcs : (cs ++ bs).Nodup) :
    Ring (binit l cs) none ((cs.reverse ++ bs).map some) := by
  induction cs generalizing l bs with
  | nil => exact hl
  | cons c cs ih =>
    have hnew : some c ∉ none :: bs.map some := by
      simp only [List.cons_append, List.nodup_cons, List.mem_append, not_or] at hcs
      simpa using hcs.1.2
    have hfront : Ring (pushFront l none (some c)) none ((c :: bs).map some) := by simpa using hl.pushFront hnew
    have hrest : (cs ++ c :: bs).Nodup := by
      rw [List.cons_append, List.nodup_cons] at hcs
      exact List.nodup_middle.mpr (List.nodup_cons.mpr hcs)
    simpa [binit] using ih hfront hrest

theorem listed_init (h : Initial s) : ∃ bs, Listed s.links bs := by
  obtain ⟨l, hl⟩ := h.links
  have hempty : Ring ((l.setPrev none none).setNext none none) none (([] : List BufNo).map some) :=
    ⟨by simp [LinkedRing.Path], by simp⟩
  have hring := binit_ring hempty (List.finRange nbuf) (by simpa using List.nodup_finRange nbuf)
  refine ⟨(List.finRange nbuf).reverse, ⟨?_, List.reverse_perm _⟩⟩
  rw [hl]
  simpa using hring

end Xv6.BufferCache
