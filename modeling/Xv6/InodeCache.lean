import Mathlib.Data.List.Basic
import Mathlib.Logic.Function.Basic
import Xv6.Interleaving

/-!
# The inode cache

`ialloc`, `iget`, `ilock`, `iunlock`, `iupdate`, `idup` and `iput` of `fs.c`, run by any number of
processes. A step is a section of `icache.lock`, of an inode's sleep lock or of the lock of the
buffer with the disk inode, with the writes to memory that come before it.

Processes lock, copy and put references they hold, change and write back an inode only under its
lock, and find by a lookup only an inode that has a name, which its link count accounts for. The
holders of a slot are written down on the side, and so is the type a locked inode was allocated for.
-/
namespace Xv6.InodeCache

open Function

def naddrs : Nat := 13

def ninode : Nat := 50

structure Dinode where
  type : BitVec 16
  major : BitVec 16
  minor : BitVec 16
  nlink : BitVec 16
  size : BitVec 32
  addrs : Nat → BitVec 32

abbrev Ino := BitVec 32 × BitVec 32

def fresh (type : BitVec 16) : Dinode := ⟨type, 0, 0, 0, 0, fun _ => 0⟩

/-- `struct inode`. The last two fields are kept on the side: who holds the references, and,
while the lock is held since its allocation, the type it was allocated for and whether it is
still untouched. -/
structure Slot where
  ino : Ino
  ref : Nat
  lock : Option Nat
  valid : Bool
  mem : Dinode
  holders : List Nat
  made : Option (BitVec 16 × Bool)

/-- How far an `iput` that frees the inode has come. -/
inductive Stage where
  | trunc (n : Nat)
  | truncated
  | written
  deriving DecidableEq, Repr

/-- Where a process is; an `ilock` that follows an `ialloc` has the type with it. -/
inductive Pc where
  | ready
  | scanning (dev : BitVec 32) (type : BitVec 16) (inum : Nat)
  | claimed (ino : Ino) (type : BitVec 16)
  | locking (k : Nat) (new : Option (BitVec 16))
  | loading (k : Nat) (new : Option (BitVec 16))
  | freeing (k : Nat) (stage : Stage)
  deriving DecidableEq, Repr

structure State where
  disk : Ino → Dinode
  slots : Nat → Slot
  procs : Nat → Pc

def setDisk (s : State) (ino : Ino) (d : Dinode) : State := { s with disk := update s.disk ino d }
def setSlot (s : State) (k : Nat) (sl : Slot) : State := { s with slots := update s.slots k sl }
def setPc (s : State) (p : Nat) (pc : Pc) : State := { s with procs := update s.procs p pc }

def cached (slots : Nat → Slot) (ino : Ino) : Option Nat :=
  (List.range ninode).find? (fun k => 0 < (slots k).ref && (slots k).ino == ino)

def emptySlot (slots : Nat → Slot) : Option Nat := (List.range ninode).find? (fun k => (slots k).ref == 0)

/-- `iget` by process `p`; `none` is the panic. -/
def iget (s : State) (p : Nat) (ino : Ino) : Option (Nat × State) :=
  match cached s.slots ino with
  | some k =>
    let sl := s.slots k
    some (k, setSlot s k { sl with ref := sl.ref + 1, holders := p :: sl.holders })
  | none =>
    match emptySlot s.slots with
    | some k =>
      let sl := s.slots k
      some (k, setSlot s k { sl with ino := ino, ref := 1, valid := false, holders := [p] })
    | none => none

def current (s : State) (ino : Ino) : Dinode :=
  match cached s.slots ino with
  | some k => if (s.slots k).valid then (s.slots k).mem else s.disk ino
  | none => s.disk ino

def locked (s : State) (p k : Nat) (new : Option (BitVec 16)) (sl : Slot) : State :=
  setPc (setSlot s k { sl with made := new.map (·, true) }) p .ready

/-- The last section of `iput`: the reference goes. -/
def dropRef (sl : Slot) (p : Nat) : Slot := { sl with ref := sl.ref - 1, holders := sl.holders.erase p }

inductive Act where
  | ialloc (p : Nat) (dev : BitVec 32) (type : BitVec 16)
  | scan (p : Nat)
  | iget (p : Nat)
  | lookup (p : Nat) (ino : Ino)
  | idup (p q k : Nat)
  | ilock (p k : Nat)
  | acquire (p : Nat)
  | load (p : Nat)
  | modify (p k : Nat) (d : Dinode)
  | iupdate (p k : Nat)
  | iunlock (p k : Nat)
  | iput (p k : Nat)
  | free (p : Nat)

inductive Step (ninodes : Nat) : State → Act → State → Prop
  | ialloc {s : State} {p : Nat} {dev : BitVec 32} {type : BitVec 16} (hpc : s.procs p = .ready)
      (htype : type ≠ 0) : Step ninodes s (.ialloc p dev type) (setPc s p (.scanning dev type 1))
  | skip {s : State} {p inum : Nat} {dev : BitVec 32} {type : BitVec 16}
      (hpc : s.procs p = .scanning dev type inum) (hin : inum < ninodes)
      (hused : (s.disk (dev, BitVec.ofNat 32 inum)).type ≠ 0) :
      Step ninodes s (.scan p) (setPc s p (.scanning dev type (inum + 1)))
  | claim {s : State} {p inum : Nat} {dev : BitVec 32} {type : BitVec 16}
      (hpc : s.procs p = .scanning dev type inum) (hin : inum < ninodes)
      (hfree : (s.disk (dev, BitVec.ofNat 32 inum)).type = 0) :
      Step ninodes s (.scan p) (setPc (setDisk s (dev, BitVec.ofNat 32 inum) (fresh type)) p
        (.claimed (dev, BitVec.ofNat 32 inum) type))
  | iget {s s' : State} {p k : Nat} {ino : Ino} {type : BitVec 16} (hpc : s.procs p = .claimed ino type)
      (hget : iget s p ino = some (k, s')) : Step ninodes s (.iget p) (setPc s' p (.locking k (some type)))
  | lookup {s s' : State} {p k : Nat} {ino : Ino} (hpc : s.procs p = .ready)
      (hnamed : (current s ino).type ≠ 0 ∧ (current s ino).nlink ≠ 0) (hget : iget s p ino = some (k, s')) :
      Step ninodes s (.lookup p ino) s'
  | idup {s : State} {p q k : Nat} (hpc : s.procs p = .ready) (href : p ∈ (s.slots k).holders) :
      Step ninodes s (.idup p q k) (setSlot s k
        { s.slots k with ref := (s.slots k).ref + 1, holders := q :: (s.slots k).holders })
  | ilock {s : State} {p k : Nat} (hpc : s.procs p = .ready) (href : p ∈ (s.slots k).holders) :
      Step ninodes s (.ilock p k) (setPc s p (.locking k none))
  | acquire {s : State} {p k : Nat} {new : Option (BitVec 16)} (hpc : s.procs p = .locking k new)
      (hfree : (s.slots k).lock = none) (hvalid : (s.slots k).valid = true) :
      Step ninodes s (.acquire p) (locked s p k new { s.slots k with lock := some p })
  | miss {s : State} {p k : Nat} {new : Option (BitVec 16)} (hpc : s.procs p = .locking k new)
      (hfree : (s.slots k).lock = none) (hvalid : (s.slots k).valid = false) :
      Step ninodes s (.acquire p) (setPc (setSlot s k { s.slots k with lock := some p }) p (.loading k new))
  | load {s : State} {p k : Nat} {new : Option (BitVec 16)} (hpc : s.procs p = .loading k new)
      (htype : (s.disk (s.slots k).ino).type ≠ 0) :
      Step ninodes s (.load p)
        (locked s p k new { s.slots k with valid := true, mem := s.disk (s.slots k).ino })
  | modify {s : State} {p k : Nat} {d : Dinode} (hpc : s.procs p = .ready) (hlock : (s.slots k).lock = some p)
      (htype : d.type = (s.slots k).mem.type) :
      Step ninodes s (.modify p k d)
        (setSlot s k { s.slots k with mem := d, made := (s.slots k).made.map (fun m => (m.1, false)) })
  | iupdate {s : State} {p k : Nat} (hpc : s.procs p = .ready) (hlock : (s.slots k).lock = some p) :
      Step ninodes s (.iupdate p k) (setDisk s (s.slots k).ino (s.slots k).mem)
  | iunlock {s : State} {p k : Nat} (hpc : s.procs p = .ready) (hlock : (s.slots k).lock = some p) :
      Step ninodes s (.iunlock p k) (setSlot s k { s.slots k with lock := none, made := none })
  | iput {s : State} {p k : Nat} (hpc : s.procs p = .ready) (href : p ∈ (s.slots k).holders)
      (hlock : (s.slots k).lock = some p → 2 ≤ (s.slots k).holders.count p)
      (hkeep : ¬((s.slots k).ref = 1 ∧ (s.slots k).valid = true ∧ (s.slots k).mem.nlink = 0)) :
      Step ninodes s (.iput p k) (setSlot s k (dropRef (s.slots k) p))
  | iputFree {s : State} {p k : Nat} (hpc : s.procs p = .ready) (href : p ∈ (s.slots k).holders)
      (hlock : (s.slots k).lock = some p → 2 ≤ (s.slots k).holders.count p)
      (hfree : (s.slots k).ref = 1 ∧ (s.slots k).valid = true ∧ (s.slots k).mem.nlink = 0) :
      Step ninodes s (.iput p k) (setPc s p (.freeing k (.trunc 0)))
  | trunc {s : State} {p k n : Nat} (hpc : s.procs p = .freeing k (.trunc n)) (hn : n < naddrs) :
      Step ninodes s (.free p) (setPc (setSlot s k { s.slots k with
        mem := { (s.slots k).mem with addrs := update (s.slots k).mem.addrs n 0 } })
        p (.freeing k (.trunc (n + 1))))
  | truncated {s : State} {p k : Nat} (hpc : s.procs p = .freeing k (.trunc naddrs)) :
      Step ninodes s (.free p) (setPc (setDisk (setSlot s k { s.slots k with
        mem := { (s.slots k).mem with size := 0 } }) (s.slots k).ino { (s.slots k).mem with size := 0 })
        p (.freeing k .truncated))
  | untype {s : State} {p k : Nat} (hpc : s.procs p = .freeing k .truncated) :
      Step ninodes s (.free p) (setPc (setDisk (setSlot s k { s.slots k with
        mem := { (s.slots k).mem with type := 0 } }) (s.slots k).ino { (s.slots k).mem with type := 0 })
        p (.freeing k .written))
  | freed {s : State} {p k : Nat} (hpc : s.procs p = .freeing k .written) :
      Step ninodes s (.free p) (setPc (setSlot s k { dropRef (s.slots k) p with valid := false }) p .ready)

def About (k : Nat) : Pc → Prop
  | .locking l _ | .loading l _ | .freeing l _ => l = k
  | _ => False

/-- What holds of slot `k`, with the disk inode `d`. A slot is being freed by a process that has
the only reference, until the type is gone from the disk; from then on another process may have
allocated the inode anew, but has not seen it. -/
structure SlotInv (k : Nat) (sl : Slot) (d : Dinode) (procs : Nat → Pc) : Prop where
  count : sl.ref = sl.holders.length
  locker : ∀ p, sl.lock = some p → p ∈ sl.holders
  loaded : ∀ p, sl.lock = some p → sl.valid = true ∨ ∃ new, procs p = .loading k new
  locking : ∀ p new, procs p = .locking k new → p ∈ sl.holders
  loading : ∀ p new, procs p = .loading k new → sl.lock = some p ∧ sl.made = none ∧ sl.valid = false
  dying : ∀ p st, procs p = .freeing k st → st ≠ .written →
    sl.holders = [p] ∧ sl.lock = none ∧ sl.valid = true ∧ sl.mem.nlink = 0
  dead : ∀ p, procs p = .freeing k .written →
    sl.holders.count p = 1 ∧ sl.lock = none ∧ sl.valid = true ∧ sl.mem.type = 0 ∧
    ∀ x ∈ sl.holders, x = p ∨ ∃ type, procs x = .locking k (some type)
  born : ∀ p type, procs p = .locking k (some type) ∨ procs p = .loading k (some type) →
    type ≠ 0 ∧ d = fresh type ∧ (∀ x ∈ sl.holders, x = p ∨ procs x = .freeing k .written) ∧
      (sl.valid = true → ∃ q, procs q = .freeing k .written)
  typed : ∀ x ∈ sl.holders, sl.valid = true → sl.mem.type = 0 → ∃ q, procs q = .freeing k .written
  onDisk : ∀ x ∈ sl.holders, d.type = 0 → ∃ q, sl.holders = [q] ∧ procs q = .freeing k .written
  made : ∀ type new, sl.made = some (type, new) → sl.valid = true ∧ sl.mem.type = type ∧
    (new = true → sl.mem = fresh type) ∧ ∃ p, sl.lock = some p ∧ ∀ t, procs p ≠ .locking k (some t)

variable {s s' : State} {p q k l : Nat} {ino : Ino} {type : BitVec 16} {new : Option (BitVec 16)} {d d' m : Dinode}
  {pc : Pc} {sl sl' : Slot} {procs procs' : Nat → Pc}

/-- A slot does not notice a process that is in no call about it, before or after. -/
theorem SlotInv.frame (h : SlotInv k sl d procs)
    (hpc : ∀ q, procs' q = procs q ∨ (¬ About k (procs q) ∧ ¬ About k (procs' q))) : SlotInv k sl d procs' := by
  have hcall (q : Nat) (pc : Pc) (ha : About k pc) : procs' q = pc ↔ procs q = pc := by
    rcases hpc q with he | ⟨h₁, h₂⟩
    · rw [he]
    · exact iff_of_false (fun he => h₂ (he ▸ ha)) (fun he => h₁ (he ▸ ha))
  have hlocking q new := hcall q (.locking k new) rfl
  have hloading q new := hcall q (.loading k new) rfl
  have hfreeing q st := hcall q (.freeing k st) rfl
  refine ⟨h.count, h.locker, ?_, ?_, ?_, ?_, ?_, ?_, ?_, ?_, ?_⟩ <;>
    simp only [hlocking, hloading, hfreeing, ne_eq]
  · exact h.loaded
  · exact h.locking
  · exact h.loading
  · exact h.dying
  · exact h.dead
  · exact h.born
  · exact h.typed
  · exact h.onDisk
  · exact h.made

theorem SlotInv.frame_proc (h : SlotInv k sl d procs) (hprocs : ∀ x, x ≠ p → procs' x = procs x)
    (hold : ¬ About k (procs p)) (hnew : ¬ About k (procs' p)) : SlotInv k sl d procs' := by
  refine h.frame fun x => ?_
  by_cases hx : x = p
  · rw [hx]
    exact .inr ⟨hold, hnew⟩
  · exact .inl (hprocs x hx)

/-- A reference held by a process that neither frees the inode nor is about to see it for the
first time: no one else does, and the inode is allocated. -/
structure Settled (k : Nat) (sl : Slot) (d : Dinode) (procs : Nat → Pc) : Prop where
  freeing : ∀ q st, procs q ≠ .freeing k st
  locking : ∀ q t, procs q ≠ .locking k (some t)
  loading : ∀ q t, procs q ≠ .loading k (some t)
  disk : d.type ≠ 0
  mem : sl.valid = true → sl.mem.type ≠ 0

theorem SlotInv.settled (h : SlotInv k sl d procs) (hp : p ∈ sl.holders) (hpc : ¬ About k (procs p)) :
    Settled k sl d procs := by
  have hfreeing : ∀ q st, procs q ≠ .freeing k st := by
    intro q st hq
    by_cases hst : st = .written
    · subst hst
      rcases (h.dead q hq).2.2.2.2 p hp with rfl | ⟨t, ht⟩
      · exact hpc (by rw [hq]; rfl)
      · exact hpc (by rw [ht]; rfl)
    · have hone := (h.dying q st hq hst).1
      rw [hone, List.mem_singleton] at hp
      subst hp
      exact hpc (by rw [hq]; rfl)
  have hborn : ∀ q t, ¬ (procs q = .locking k (some t) ∨ procs q = .loading k (some t)) := by
    intro q t hq
    rcases (h.born q t hq).2.2.1 p hp with rfl | hw
    · exact hpc (by rcases hq with hq | hq <;> rw [hq] <;> rfl)
    · exact hfreeing p _ hw
  refine ⟨hfreeing, fun q t hq => hborn q t (.inl hq), fun q t hq => hborn q t (.inr hq), ?_, ?_⟩
  · intro hz
    obtain ⟨x, -, hx⟩ := h.onDisk p hp hz
    exact hfreeing x _ hx
  · intro hv hz
    obtain ⟨x, hx⟩ := h.typed p hp hv hz
    exact hfreeing x _ hx

theorem SlotInv.unmade (h : SlotInv k sl d procs) (hfree : sl.lock = none) : sl.made = none := by
  cases hm : sl.made with
  | none => rfl
  | some m =>
    obtain ⟨p, hp, -⟩ := (h.made m.1 m.2 hm).2.2.2
    rw [hfree] at hp
    cases hp

theorem ready_not_about (h : procs p = .ready) : ¬ About k (procs p) := by
  rw [h]
  exact id

section

variable (h : SlotInv k sl d procs)
include h

section

variable (hs : Settled k sl d procs) (hpc : procs p = .ready) (hlock : sl.lock = some p)
include hs hpc hlock

theorem slot_modify (htype : d'.type = sl.mem.type) :
    SlotInv k { sl with mem := d', made := sl.made.map (fun m => (m.1, false)) } d procs := by
  cases h
  cases hs
  constructor <;> grind [Option.map_eq_some_iff]

theorem slot_iupdate : SlotInv k sl sl.mem procs := by
  cases h
  cases hs
  constructor <;> grind

end

theorem slot_iunlock (hpc : procs p = .ready) (hlock : sl.lock = some p) :
    SlotInv k { sl with lock := none, made := none } d procs := by
  cases h
  constructor <;> grind

theorem slot_hold (hs : Settled k sl d procs) :
    SlotInv k { sl with ref := sl.ref + 1, holders := q :: sl.holders } d procs := by
  cases h
  cases hs
  constructor <;> grind

theorem slot_drop (hs : Settled k sl d procs) (hpc : procs p = .ready)
    (href : p ∈ sl.holders) (hlock : sl.lock = some p → 2 ≤ sl.holders.count p) :
    SlotInv k (dropRef sl p) d procs := by
  have hlocker : ∀ q, sl.lock = some q → q ∈ sl.holders.erase p := by
    intro q hq
    by_cases hqp : q = p
    · subst hqp
      have := hlock hq
      exact List.count_pos_iff.mp (by rw [List.count_erase_self]; omega)
    · exact (List.mem_erase_of_ne hqp).mpr (h.locker q hq)
  have hlen := List.length_erase_of_mem href
  have hsub : ∀ x, x ∈ sl.holders.erase p → x ∈ sl.holders := fun x => List.mem_of_mem_erase
  rw [dropRef]
  cases h
  cases hs
  constructor <;> grind

end

def goto (procs : Nat → Pc) (p : Nat) (pc : Pc) : Nat → Pc := update procs p pc

@[grind =] theorem goto_apply : goto procs p pc q = if q = p then pc else procs q := update_apply ..

section

variable (h : SlotInv k sl d procs)
include h

theorem slot_ilock (hpc : procs p = .ready) (href : p ∈ sl.holders) :
    SlotInv k sl d (goto procs p (.locking k none)) := by
  cases h
  constructor <;> grind

theorem slot_acquire (hpc : procs p = .locking k new) (hfree : sl.lock = none)
    (hvalid : sl.valid = true) (hapart : ∀ q, procs q ≠ .freeing k .written) :
    SlotInv k { sl with lock := some p, made := new.map (·, true) } d (goto procs p .ready) := by
  have hold : new = none := by
    cases new with
    | none => rfl
    | some type =>
      obtain ⟨q, hq⟩ := (h.born p type (.inl hpc)).2.2.2 hvalid
      exact absurd hq (hapart q)
  subst hold
  cases h
  constructor <;> grind

theorem slot_miss (hpc : procs p = .locking k new) (hfree : sl.lock = none)
    (hvalid : sl.valid = false) :
    SlotInv k { sl with lock := some p } d (goto procs p (.loading k new)) := by
  have hmade := h.unmade hfree
  cases h
  constructor <;> grind

theorem slot_load (hpc : procs p = .loading k new) (htype : d.type ≠ 0) :
    SlotInv k { sl with valid := true, mem := d, made := new.map (·, true) } d (goto procs p .ready) := by
  have hfresh : ∀ t, (fresh t).type = t := fun _ => rfl
  cases h
  constructor <;> grind [Option.map_eq_some_iff]

theorem slot_iputFree (hs : Settled k sl d procs) (hpc : procs p = .ready)
    (href : p ∈ sl.holders) (hone : sl.ref = 1) (hvalid : sl.valid = true) (hlink : sl.mem.nlink = 0) 
    (hlock : sl.lock = some p → 2 ≤ sl.holders.count p) :
    SlotInv k sl d (goto procs p (.freeing k (.trunc 0))) := by
  have hholders : sl.holders = [p] := by
    obtain ⟨x, hx⟩ := List.length_eq_one_iff.mp (h.count.symm.trans hone)
    rw [hx, List.mem_singleton] at href
    rw [hx, href]
  have hfree : sl.lock = none := by
    cases hl : sl.lock with
    | none => rfl
    | some q =>
      have hq := h.locker q hl
      rw [hholders, List.mem_singleton] at hq
      subst hq
      have := hlock hl
      simp [hholders] at this
  cases h
  cases hs
  constructor <;> grind

/-- A process that frees the inode changes its fields, and writes it back or not. -/
theorem slot_dying {st st' : Stage} (hpc : procs p = .freeing k st) (hst : st ≠ .written)
    (hst' : st' ≠ .written) (hlink : m.nlink = sl.mem.nlink) (htype : m.type = sl.mem.type)
    (hdisk : d' = d ∨ d' = m) : SlotInv k { sl with mem := m } d' (goto procs p (.freeing k st')) := by
  have hmade := h.unmade (h.dying p st hpc hst).2.1
  have honly : ∀ q, procs q = .freeing k .written → q = p := by
    intro q hq
    have hmem : q ∈ sl.holders := List.count_pos_iff.mp (by rw [(h.dead q hq).1]; exact Nat.one_pos)
    rwa [(h.dying p st hpc hst).1, List.mem_singleton] at hmem
  cases h
  constructor <;> grind

theorem slot_untype {st : Stage} (hpc : procs p = .freeing k st) (hst : st ≠ .written)
    (htype : m.type = 0) : SlotInv k { sl with mem := m } m (goto procs p (.freeing k .written)) := by
  obtain ⟨hholders, hlock, hvalid, -⟩ := h.dying p st hpc hst
  have hmade := h.unmade hlock
  have hself : goto procs p (.freeing k .written) p = .freeing k .written := by simp [goto]
  have hcount : sl.holders.count p = 1 := by simp [hholders]
  cases h
  constructor <;> grind

theorem slot_freed (hpc : procs p = .freeing k .written) :
    SlotInv k { dropRef sl p with valid := false } d (goto procs p .ready) := by
  obtain ⟨hcount, hlock, -, -, hothers⟩ := h.dead p hpc
  have hmade := h.unmade hlock
  have href : p ∈ sl.holders := List.count_pos_iff.mp (by rw [hcount]; exact Nat.one_pos)
  have hgone : p ∉ sl.holders.erase p := by rw [← List.count_eq_zero, List.count_erase_self, hcount]
  have hlen := List.length_erase_of_mem href
  have hsub : ∀ x, x ∈ sl.holders.erase p → x ∈ sl.holders := fun x => List.mem_of_mem_erase
  have hkeep : ∀ x, x ≠ p → x ∈ sl.holders → x ∈ sl.holders.erase p := fun x hx => (List.mem_erase_of_ne hx).mpr
  have hfresh : ∀ t, (fresh t).type = t := fun _ => rfl
  rw [dropRef]
  cases h
  constructor <;> grind

theorem slot_birth {ino : Ino} (hpc : procs p = .claimed ino type) (htype : type ≠ 0)
    (hdisk : d = fresh type) (hholders : sl.holders = [q]) (hq : procs q = .freeing k .written) :
    SlotInv k { sl with ref := sl.ref + 1, holders := p :: sl.holders } d
    (goto procs p (.locking k (some type))) := by
  obtain ⟨-, hlock, hvalid, hgone, -⟩ := h.dead q hq
  have hmade := h.unmade hlock
  have hqp : q ≠ p := by
    rintro rfl
    rw [hpc] at hq
    cases hq
  have hq' : goto procs p (.locking k (some type)) q = .freeing k .written := by simp [goto, hqp, hq]
  have hcount : (p :: sl.holders).count q = 1 := by simp [hholders, Ne.symm hqp]
  have htype' : d.type ≠ 0 := by rw [hdisk]; exact htype
  have hlocking : ∀ r new, procs r ≠ .locking k new := by
    intro r new hr
    have hmem := h.locking r new hr
    rw [hholders, List.mem_singleton] at hmem
    subst hmem
    rw [hq] at hr
    cases hr
  cases h
  constructor <;> grind

/-- No one is in a call about an empty slot, and its lock is free. -/
theorem SlotInv.idle (hempty : sl.holders = []) :
    (∀ q, ¬ About k (procs q)) ∧ sl.lock = none := by
  have hlock : sl.lock = none := by
    cases hl : sl.lock with
    | none => rfl
    | some q =>
      have := h.locker q hl
      simp [hempty] at this
  refine ⟨?_, hlock⟩
  intro q hq
  cases hpc : procs q with
  | locking l new =>
    rw [hpc] at hq
    subst hq
    have := h.locking q new hpc
    simp [hempty] at this
  | loading l new =>
    rw [hpc] at hq
    subst hq
    have := (h.loading q new hpc).1
    rw [hlock] at this
    cases this
  | freeing l st =>
    rw [hpc] at hq
    subst hq
    by_cases hst : st = .written
    · subst hst
      have := (h.dead q hpc).1
      simp [hempty] at this
    · have := (h.dying q st hpc hst).1
      simp [hempty] at this
  | _ =>
    rw [hpc] at hq
    exact hq

/-- A recycled slot, for a process that does nothing else with it or sees a new inode. -/
theorem slot_recycle (hempty : sl.holders = [])
    (hpc : ∀ q, q ≠ p → procs' q = procs q) (hdisk : d'.type ≠ 0)
    (hp : ¬ About k (procs' p) ∨ ∃ type, procs' p = .locking k (some type) ∧ type ≠ 0 ∧ d' = fresh type) :
    SlotInv k { sl with ino := ino, ref := 1, valid := false, holders := [p] } d' procs' := by
  obtain ⟨hidle, hlock⟩ := h.idle hempty
  have hmade := h.unmade hlock
  have honly : ∀ q, About k (procs' q) → q = p ∧ ∃ type, procs' q = .locking k (some type) ∧
    type ≠ 0 ∧ d' = fresh type := by
    intro q hq
    have hqp : q = p := by
      by_contra hne
      rw [hpc q hne] at hq
      exact hidle q hq
    subst hqp
    exact ⟨rfl, hp.resolve_left (not_not_intro hq)⟩
  have hlocking : ∀ q new, procs' q = .locking k new → q = p ∧ ∃ type, new = some type ∧ type ≠ 0 ∧
    d' = fresh type := by
    intro q new hq
    obtain ⟨hqp, type, hpc', hne, he⟩ := honly q (by rw [hq]; rfl)
    rw [hq] at hpc'
    cases hpc'
    exact ⟨hqp, type, rfl, hne, he⟩
  have hloading : ∀ q new, procs' q ≠ .loading k new := by
    intro q new hq
    obtain ⟨-, type, hpc', -⟩ := honly q (by rw [hq]; rfl)
    cases hq.symm.trans hpc'
  have hfreeing : ∀ q st, procs' q ≠ .freeing k st := by
    intro q st hq
    obtain ⟨-, type, hpc', -⟩ := honly q (by rw [hq]; rfl)
    cases hq.symm.trans hpc'
  clear h hidle honly hp hpc
  constructor <;> grind

end

end Xv6.InodeCache
