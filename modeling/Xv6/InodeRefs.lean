import Xv6.InodeCache

/-!
# References to cached inodes

The inode cache under calls that keep one rule only: a process copies and puts references it holds.
`iget` may ask for any inode, `ilock` and `iunlock` may come from anyone they do not stop with a
panic, and whoever is between them changes the inode in memory. An `iput` that frees the inode gives
`icache.lock` up in between, and its writes there are steps of their own. The references are written
down on the side.
-/
namespace Xv6.InodeRefs

open Xv6.Interleaving
open Xv6.InodeCache (Dinode Ino Stage naddrs ninode)
open Function

structure Slot where
  ino : Ino
  ref : Nat
  lock : Option Nat
  valid : Bool
  mem : Dinode

structure Ref where
  holder : Nat
  slot : Nat
  ino : Ino
  deriving DecidableEq

/-- Where a process is; an `iput` in the middle of its work is for the reference `r`. -/
inductive Pc where
  | ready
  | locking (k : Nat)
  | loading (k : Nat)
  | freeing (r : Ref) (stage : Stage)

structure State where
  disk : Ino → Dinode
  slots : Nat → Slot
  procs : Nat → Pc
  refs : List Ref

def setSlot (s : State) (k : Nat) (sl : Slot) : State := { s with slots := update s.slots k sl }
def setPc (s : State) (p : Nat) (pc : Pc) : State := { s with procs := update s.procs p pc }
def setDisk (s : State) (ino : Ino) (d : Dinode) : State := { s with disk := update s.disk ino d }

inductive Found where
  | hit (k : Nat)
  | recycle (k : Nat)
  | full
  deriving DecidableEq, Repr

/-- The scan of `iget` over the slots still to see, with the empty slot it remembers. -/
def scan (slots : Nat → Slot) (ino : Ino) : List Nat → Option Nat → Found
  | [], some k => .recycle k
  | [], none => .full
  | k :: ks, empty =>
    if 0 < (slots k).ref ∧ (slots k).ino = ino then .hit k
    else scan slots ino ks (if empty = none ∧ (slots k).ref = 0 then some k else empty)

/-- `iget` by process `p`; `none` is the panic. -/
def iget (s : State) (p : Nat) (ino : Ino) : Option State :=
  match scan s.slots ino (List.range ninode) none with
  | .hit k => some { setSlot s k { s.slots k with ref := (s.slots k).ref + 1 } with refs := ⟨p, k, ino⟩ :: s.refs }
  | .recycle k =>
    some { setSlot s k { s.slots k with ino := ino, ref := 1, valid := false } with refs := ⟨p, k, ino⟩ :: s.refs }
  | .full => none

def putRef (s : State) (r : Ref) (clear : Bool) : State :=
  { setSlot s r.slot { s.slots r.slot with
      ref := (s.slots r.slot).ref - 1, valid := (s.slots r.slot).valid && !clear } with
    refs := s.refs.erase r }

inductive Act where
  | iget (p : Nat) (ino : Ino)
  | idup (r : Ref) (q : Nat)
  | ilock (p k : Nat)
  | acquire (p : Nat)
  | load (p : Nat)
  | modify (k : Nat) (d : Dinode)
  | iupdate (k : Nat)
  | iunlock (k : Nat)
  | iput (r : Ref)
  | free (p : Nat)

inductive Step : State → Act → State → Prop
  | iget {s s' : State} {p : Nat} {ino : Ino} (hpc : s.procs p = .ready) (hget : iget s p ino = some s') :
      Step s (.iget p ino) s'
  | idup {s : State} {r : Ref} {q : Nat} (hpc : s.procs r.holder = .ready) (href : r ∈ s.refs) :
      Step s (.idup r q) { setSlot s r.slot { s.slots r.slot with ref := (s.slots r.slot).ref + 1 } with
        refs := { r with holder := q } :: s.refs }
  | ilock {s : State} {p k : Nat} (hpc : s.procs p = .ready) (href : 0 < (s.slots k).ref) :
      Step s (.ilock p k) (setPc s p (.locking k))
  | acquire {s : State} {p k : Nat} (hpc : s.procs p = .locking k) (hfree : (s.slots k).lock = none) :
      Step s (.acquire p) (setPc (setSlot s k { s.slots k with lock := some p }) p
        (if (s.slots k).valid then .ready else .loading k))
  | load {s : State} {p k : Nat} (hpc : s.procs p = .loading k) (htype : (s.disk (s.slots k).ino).type ≠ 0) :
      Step s (.load p) (setPc (setSlot s k { s.slots k with
        valid := true, mem := s.disk (s.slots k).ino }) p .ready)
  | modify {s : State} {k : Nat} {d : Dinode} (hlock : (s.slots k).lock ≠ none) :
      Step s (.modify k d) (setSlot s k { s.slots k with mem := d })
  | iupdate {s : State} {k : Nat} (hlock : (s.slots k).lock ≠ none) :
      Step s (.iupdate k) (setDisk s (s.slots k).ino (s.slots k).mem)
  | iunlock {s : State} {k : Nat} (hlock : (s.slots k).lock ≠ none) (href : 0 < (s.slots k).ref) :
      Step s (.iunlock k) (setSlot s k { s.slots k with lock := none })
  | iput {s : State} {r : Ref} (hpc : s.procs r.holder = .ready) (href : r ∈ s.refs)
      (hkeep : ¬((s.slots r.slot).ref = 1 ∧ (s.slots r.slot).valid = true ∧ (s.slots r.slot).mem.nlink = 0)) :
      Step s (.iput r) (putRef s r false)
  | iputFree {s : State} {r : Ref} (hpc : s.procs r.holder = .ready) (href : r ∈ s.refs)
      (hfree : (s.slots r.slot).ref = 1 ∧ (s.slots r.slot).valid = true ∧ (s.slots r.slot).mem.nlink = 0) :
      Step s (.iput r) (setPc s r.holder (.freeing r (.trunc 0)))
  | trunc {s : State} {p n : Nat} {r : Ref} (hpc : s.procs p = .freeing r (.trunc n)) (hn : n < naddrs) :
      Step s (.free p) (setPc (setSlot s r.slot { s.slots r.slot with
        mem := { (s.slots r.slot).mem with addrs := update (s.slots r.slot).mem.addrs n 0 } })
        p (.freeing r (.trunc (n + 1))))
  | truncated {s : State} {p : Nat} {r : Ref} (hpc : s.procs p = .freeing r (.trunc naddrs)) :
      Step s (.free p) (setPc (setDisk (setSlot s r.slot { s.slots r.slot with
        mem := { (s.slots r.slot).mem with size := 0 } })
        (s.slots r.slot).ino { (s.slots r.slot).mem with size := 0 }) p (.freeing r .truncated))
  | untype {s : State} {p : Nat} {r : Ref} (hpc : s.procs p = .freeing r .truncated) :
      Step s (.free p) (setPc (setDisk (setSlot s r.slot { s.slots r.slot with
        mem := { (s.slots r.slot).mem with type := 0 } })
        (s.slots r.slot).ino { (s.slots r.slot).mem with type := 0 }) p (.freeing r .written))
  | freed {s : State} {p : Nat} {r : Ref} (hpc : s.procs p = .freeing r .written) :
      Step s (.free p) (setPc (putRef s r true) p .ready)

structure Booted (s : State) : Prop where
  ref : ∀ k, (s.slots k).ref = 0
  procs : ∀ p, s.procs p = .ready
  refs : s.refs = []

def system : System State Act where
  init := Booted
  step := Step

variable {s s' : State} {slots : Nat → Slot} {ino : Ino} {p k : Nat} {a : Act}
  {r : Ref} {ks : List Nat} {empty : Option Nat}

theorem scan_hit (h : scan slots ino ks empty = .hit k) :
    k ∈ ks ∧ 0 < (slots k).ref ∧ (slots k).ino = ino := by
  induction ks generalizing empty with
  | nil => cases empty <;> cases h
  | cons l ks ih =>
    rw [scan] at h
    split at h
    case isTrue hl =>
      cases h
      exact ⟨List.mem_cons_self, hl⟩
    case isFalse =>
      obtain ⟨hmem, hk⟩ := ih h
      exact ⟨List.mem_cons_of_mem _ hmem, hk⟩

/-- The scan recycles an empty slot, and no slot it has seen has the inode. -/
theorem scan_recycle {n : Nat} (hks : ∀ l ∈ ks, l < n)
    (hempty : ∀ l, empty = some l → (slots l).ref = 0 ∧ l < n) (h : scan slots ino ks empty = .recycle k) :
    ((slots k).ref = 0 ∧ k < n) ∧ ∀ l ∈ ks, ¬(0 < (slots l).ref ∧ (slots l).ino = ino) := by
  induction ks generalizing empty with
  | nil =>
    cases empty with
    | none => cases h
    | some l =>
      cases h
      exact ⟨hempty k rfl, by simp⟩
  | cons l ks ih =>
    rw [scan] at h
    split at h
    case isTrue => cases h
    case isFalse hl =>
      have hnew : ∀ m, (if empty = none ∧ (slots l).ref = 0 then some l else empty) = some m →
          (slots m).ref = 0 ∧ m < n := by
        intro m hm
        split at hm
        case isTrue hc =>
          cases hm
          exact ⟨hc.2, hks l (by simp)⟩
        case isFalse => exact hempty m hm
      obtain ⟨hk, hrest⟩ := ih (fun m hm => hks m (by simp [hm])) hnew h
      refine ⟨hk, ?_⟩
      intro m hm
      rcases List.mem_cons.mp hm with rfl | hm
      · exact hl
      · exact hrest m hm

def outstanding (refs : List Ref) (k : Nat) : Nat := refs.countP (fun r => r.slot = k)

structure Inv (s : State) : Prop where
  count : ∀ k, (s.slots k).ref = outstanding s.refs k
  inside : ∀ r ∈ s.refs, r.slot < ninode
  denotes : ∀ r ∈ s.refs, (s.slots r.slot).ino = r.ino
  unique : ∀ k l, 0 < (s.slots k).ref → 0 < (s.slots l).ref → (s.slots k).ino = (s.slots l).ino → k = l
  freeing : ∀ p r stage, s.procs p = .freeing r stage → r.holder = p ∧ r ∈ s.refs

theorem Booted.inv (h : Booted s) : Inv s where
  count k := by rw [h.ref, h.refs]; rfl
  inside := by simp [h.refs]
  denotes := by simp [h.refs]
  unique k := by simp [h.ref k]
  freeing p := by simp [h.procs p]

theorem Inv.referenced (h : Inv s) (hr : r ∈ s.refs) : 0 < (s.slots r.slot).ref := by
  rw [h.count, outstanding, List.countP_pos_iff]
  exact ⟨r, hr, by simp⟩

/-- What a step does to the references and to the slots as far as they count them. -/
inductive Effect (s s' : State) : Prop
  | keep (refs : s'.refs = s.refs) (ref : ∀ k, (s'.slots k).ref = (s.slots k).ref)
      (ino : ∀ k, (s'.slots k).ino = (s.slots k).ino)
  | share (r : Ref) (used : 0 < (s.slots r.slot).ref) (same : (s.slots r.slot).ino = r.ino)
      (inside : r.slot < ninode)
      (refs : s'.refs = r :: s.refs)
      (ref : ∀ k, (s'.slots k).ref = if k = r.slot then (s.slots k).ref + 1 else (s.slots k).ref)
      (ino : ∀ k, (s'.slots k).ino = (s.slots k).ino)
  | recycle (r : Ref) (free : (s.slots r.slot).ref = 0) (inside : r.slot < ninode)
      (absent : ∀ k, k < ninode → ¬(0 < (s.slots k).ref ∧ (s.slots k).ino = r.ino)) (refs : s'.refs = r :: s.refs)
      (ref : ∀ k, (s'.slots k).ref = if k = r.slot then 1 else (s.slots k).ref)
      (ino : ∀ k, (s'.slots k).ino = if k = r.slot then r.ino else (s.slots k).ino)
  | drop (r : Ref) (held : r ∈ s.refs) (refs : s'.refs = s.refs.erase r)
      (ref : ∀ k, (s'.slots k).ref = if k = r.slot then (s.slots k).ref - 1 else (s.slots k).ref)
      (ino : ∀ k, (s'.slots k).ino = (s.slots k).ino)

theorem setSlot_ref (s : State) (k : Nat) (sl : Slot) (l : Nat) :
    ((setSlot s k sl).slots l).ref = if l = k then sl.ref else (s.slots l).ref := by
  by_cases h : l = k
  · subst h
    simp [setSlot]
  · simp [setSlot, h]

theorem setSlot_ino (s : State) (k : Nat) (sl : Slot) (l : Nat) :
    ((setSlot s k sl).slots l).ino = if l = k then sl.ino else (s.slots l).ino := by
  by_cases h : l = k
  · subst h
    simp [setSlot]
  · simp [setSlot, h]

/-- A slot changes in fields that do not count. -/
theorem effect_setSlot {k : Nat} {sl : Slot} (hrefs : s'.refs = s.refs)
    (hslots : s'.slots = (setSlot s k sl).slots)
    (href : sl.ref = (s.slots k).ref) (hino : sl.ino = (s.slots k).ino) : Effect s s' := by
  refine .keep hrefs (fun l => ?_) (fun l => ?_)
  · rw [hslots, setSlot_ref, href]
    split
    · rw [‹l = k›]
    · rfl
  · rw [hslots, setSlot_ino, hino]
    split
    · rw [‹l = k›]
    · rfl

theorem effect_putRef {clear : Bool} (hr : r ∈ s.refs) (hrefs : s'.refs = (putRef s r clear).refs)
    (hslots : s'.slots = (putRef s r clear).slots) : Effect s s' := by
  refine .drop r hr hrefs (fun k => ?_) (fun k => ?_)
  · rw [hslots, putRef, setSlot_ref]
    split
    · rw [‹k = r.slot›]
    · rfl
  · rw [hslots, putRef, setSlot_ino]
    split
    · rw [‹k = r.slot›]
    · rfl

theorem iget_effect (h : iget s p ino = some s') : Effect s s' := by
  rw [iget] at h
  split at h
  case h_1 k hscan =>
    obtain ⟨hmem, hused, hino⟩ := scan_hit hscan
    obtain rfl := Option.some.inj h
    refine .share ⟨p, k, ino⟩ hused hino (List.mem_range.mp hmem) rfl (fun l => ?_) (fun l => ?_)
    · simp only [setSlot_ref]
      split
      · rw [‹l = k›]
      · rfl
    · simp only [setSlot_ino]
      split
      · rw [‹l = k›]
      · rfl
  case h_2 k hscan =>
    obtain ⟨⟨hfree, hlt⟩, habsent⟩ := scan_recycle (fun l hl => List.mem_range.mp hl) (by simp) hscan
    obtain rfl := Option.some.inj h
    exact .recycle ⟨p, k, ino⟩ hfree hlt (fun l hl => habsent l (List.mem_range.mpr hl)) rfl (setSlot_ref s k _)
      (setSlot_ino s k _)
  case h_3 => cases h

theorem iget_keeps (h : iget s p ino = some s') : s'.procs = s.procs ∧ ∃ r, s'.refs = r :: s.refs := by
  rw [iget] at h
  split at h
  case h_3 => cases h
  all_goals
    obtain rfl := Option.some.inj h
    exact ⟨rfl, _, rfl⟩

theorem step_effect (hI : Inv s) (h : Step s a s') : Effect s s' := by
  cases h with
  | iget _ hget => exact iget_effect hget
  | @idup r q _ href =>
    have hused := hI.referenced href
    refine .share { r with holder := q } hused (hI.denotes r href) (hI.inside r href) rfl (fun l => ?_)
      (fun l => ?_)
    · simp only [setSlot_ref]
      split
      · rw [‹l = r.slot›]
      · rfl
    · simp only [setSlot_ino]
      split
      · rw [‹l = r.slot›]
      · rfl
  | ilock => exact .keep rfl (fun _ => rfl) (fun _ => rfl)
  | acquire | load | modify => exact effect_setSlot rfl rfl rfl rfl
  | iupdate => exact .keep rfl (fun _ => rfl) (fun _ => rfl)
  | iunlock => exact effect_setSlot rfl rfl rfl rfl
  | iput _ href => exact effect_putRef href rfl rfl
  | iputFree => exact .keep rfl (fun _ => rfl) (fun _ => rfl)
  | trunc | truncated | untype => exact effect_setSlot rfl rfl rfl rfl
  | freed hpc => exact effect_putRef (hI.freeing _ _ _ hpc).2 rfl rfl

theorem outstanding_cons (r : Ref) (refs : List Ref) (k : Nat) :
    outstanding (r :: refs) k = if k = r.slot then outstanding refs k + 1 else outstanding refs k := by
  simp [outstanding, List.countP_cons, eq_comm]
  split <;> simp

theorem outstanding_erase {refs : List Ref} (h : r ∈ refs) (k : Nat) :
    outstanding (refs.erase r) k = if k = r.slot then outstanding refs k - 1 else outstanding refs k := by
  have hperm := (List.perm_cons_erase h).countP_eq (fun r' => decide (r'.slot = k))
  rw [List.countP_cons] at hperm
  by_cases hk : k = r.slot
  · rw [if_pos hk, outstanding, outstanding, hperm]
    simp [hk]
  · rw [if_neg hk, outstanding, outstanding, hperm]
    simp [Ne.symm hk]

theorem Inv.lt_ninode (h : Inv s) (hk : 0 < (s.slots k).ref) : k < ninode := by
  rw [h.count, outstanding, List.countP_pos_iff] at hk
  obtain ⟨r, hr, heq⟩ := hk
  obtain rfl : r.slot = k := by simpa using heq
  exact h.inside r hr

section

variable (h : Effect s s') (hI : Inv s)
include h hI

theorem Effect.count (k : Nat) : (s'.slots k).ref = outstanding s'.refs k := by
  cases h with
  | keep refs ref ino => rw [ref, refs, hI.count]
  | share r used same inside refs ref ino => rw [ref, refs, outstanding_cons, hI.count]
  | recycle r free inside absent refs ref ino =>
    rw [ref, refs, outstanding_cons, hI.count]
    split
    · rw [‹k = r.slot›, ← hI.count, free]
    · rfl
  | drop r held refs ref ino => rw [ref, refs, outstanding_erase held, hI.count]

theorem Effect.inside : ∀ r ∈ s'.refs, r.slot < ninode := by
  intro r' hr'
  cases h with
  | keep refs ref ino => exact hI.inside r' (refs ▸ hr')
  | share r used same inside refs ref ino | recycle r free inside absent refs ref ino =>
    rw [refs, List.mem_cons] at hr'
    rcases hr' with rfl | hr'
    · exact inside
    · exact hI.inside r' hr'
  | drop r held refs ref ino =>
    rw [refs] at hr'
    exact hI.inside r' (List.mem_of_mem_erase hr')

theorem Effect.denotes : ∀ r ∈ s'.refs, (s'.slots r.slot).ino = r.ino := by
  intro r' hr'
  cases h with
  | keep refs ref ino =>
    rw [ino]
    exact hI.denotes r' (refs ▸ hr')
  | share r used same inside refs ref ino =>
    rw [ino]
    rw [refs, List.mem_cons] at hr'
    rcases hr' with rfl | hr'
    · exact same
    · exact hI.denotes r' hr'
  | recycle r free inside absent refs ref ino =>
    rw [ino]
    rw [refs, List.mem_cons] at hr'
    rcases hr' with rfl | hr'
    · rw [if_pos rfl]
    · have hne : r'.slot ≠ r.slot := by
        intro he
        have hused := hI.referenced hr'
        rw [he, free] at hused
        exact absurd hused (Nat.lt_irrefl 0)
      rw [if_neg hne]
      exact hI.denotes r' hr'
  | drop r held refs ref ino =>
    rw [ino]
    rw [refs] at hr'
    exact hI.denotes r' (List.mem_of_mem_erase hr')

theorem Effect.unique (k l : Nat) (hk : 0 < (s'.slots k).ref) (hl : 0 < (s'.slots l).ref)
    (heq : (s'.slots k).ino = (s'.slots l).ino) : k = l := by
  cases h with
  | keep refs ref ino =>
    rw [ref] at hk hl
    rw [ino, ino] at heq
    exact hI.unique k l hk hl heq
  | share r used same inside refs ref ino =>
    have hbefore (m : Nat) (hm : 0 < (s'.slots m).ref) : 0 < (s.slots m).ref := by
      rw [ref] at hm
      split at hm
      · rw [‹m = r.slot›]
        exact used
      · exact hm
    rw [ino, ino] at heq
    exact hI.unique k l (hbefore k hk) (hbefore l hl) heq
  | recycle r free inside absent refs ref ino =>
    rw [ref] at hk hl
    rw [ino, ino] at heq
    by_cases hkr : k = r.slot <;> by_cases hlr : l = r.slot
    · rw [hkr, hlr]
    · rw [if_pos hkr, if_neg hlr] at heq
      rw [if_neg hlr] at hl
      exact absurd ⟨hl, heq.symm⟩ (absent l (hI.lt_ninode hl))
    · rw [if_neg hkr, if_pos hlr] at heq
      rw [if_neg hkr] at hk
      exact absurd ⟨hk, heq⟩ (absent k (hI.lt_ninode hk))
    · rw [if_neg hkr, if_neg hlr] at heq
      rw [if_neg hkr] at hk
      rw [if_neg hlr] at hl
      exact hI.unique k l hk hl heq
  | drop r held refs ref ino =>
    have hbefore (m : Nat) (hm : 0 < (s'.slots m).ref) : 0 < (s.slots m).ref := by
      rw [ref] at hm
      split at hm
      · omega
      · exact hm
    rw [ino, ino] at heq
    exact hI.unique k l (hbefore k hk) (hbefore l hl) heq

end

/-- A slot in use keeps its inode. -/
theorem Effect.keeps_ino (h : Effect s s') (hk : 0 < (s.slots k).ref) : (s'.slots k).ino = (s.slots k).ino := by
  cases h with
  | keep refs ref ino | share r used same inside refs ref ino => exact ino k
  | recycle r free inside absent refs ref ino =>
    rw [ino, if_neg]
    rintro rfl
    rw [free] at hk
    exact absurd hk (Nat.lt_irrefl 0)
  | drop r held refs ref ino => exact ino k

theorem freeing_update {procs : Nat → Pc} {pc : Pc} {q : Nat} {stage : Stage}
    (h : update procs p pc q = .freeing r stage) : (q = p ∧ pc = .freeing r stage) ∨
    (q ≠ p ∧ procs q = .freeing r stage) := by
  by_cases hqp : q = p
  · subst hqp
    exact .inl ⟨rfl, by rwa [update_self] at h⟩
  · rw [update_of_ne hqp] at h
    exact .inr ⟨hqp, h⟩

/-- A process in the middle of an `iput` has the reference it is about to put. -/
theorem step_freeing (hI : Inv s) (h : Step s a s') (q : Nat) (r : Ref) (stage : Stage)
    (hq : s'.procs q = .freeing r stage) : r.holder = q ∧ r ∈ s'.refs := by
  cases h with
  | iget _ hget =>
    obtain ⟨hprocs, r₀, hrefs⟩ := iget_keeps hget
    rw [hprocs] at hq
    rw [hrefs]
    exact ⟨(hI.freeing q r stage hq).1, List.mem_cons_of_mem _ (hI.freeing q r stage hq).2⟩
  | idup => exact ⟨(hI.freeing q r stage hq).1, List.mem_cons_of_mem _ (hI.freeing q r stage hq).2⟩
  | iupdate | modify | iunlock => exact hI.freeing q r stage hq
  | ilock =>
    rcases freeing_update hq with ⟨-, he⟩ | ⟨-, hq'⟩
    · cases he
    · exact hI.freeing q r stage hq'
  | acquire =>
    rcases freeing_update hq with ⟨-, he⟩ | ⟨-, hq'⟩
    · split at he <;> cases he
    · exact hI.freeing q r stage hq'
  | load =>
    rcases freeing_update hq with ⟨-, he⟩ | ⟨-, hq'⟩
    · cases he
    · exact hI.freeing q r stage hq'
  | @iput r₀ hpc =>
    obtain ⟨hholder, hr⟩ := hI.freeing q r stage hq
    refine ⟨hholder, (List.mem_erase_of_ne ?_).mpr hr⟩
    rintro rfl
    rw [hholder] at hpc
    cases hpc.symm.trans hq
  | iputFree _ href =>
    rcases freeing_update hq with ⟨rfl, he⟩ | ⟨-, hq'⟩
    · cases he
      exact ⟨rfl, href⟩
    · exact hI.freeing q r stage hq'
  | trunc hpc | truncated hpc | untype hpc =>
    rcases freeing_update hq with ⟨rfl, he⟩ | ⟨-, hq'⟩
    · cases he
      exact hI.freeing q r _ hpc
    · exact hI.freeing q r stage hq'
  | @freed p r₀ hpc =>
    rcases freeing_update hq with ⟨-, he⟩ | ⟨hne, hq'⟩
    · cases he
    · obtain ⟨hholder, hr⟩ := hI.freeing q r stage hq'
      refine ⟨hholder, (List.mem_erase_of_ne ?_).mpr hr⟩
      rintro rfl
      exact hne (hholder.symm.trans (hI.freeing p r _ hpc).1)

theorem step_inv (hI : Inv s) (h : Step s a s') : Inv s' where
  count := (step_effect hI h).count hI
  inside := (step_effect hI h).inside hI
  denotes := (step_effect hI h).denotes hI
  unique := (step_effect hI h).unique hI
  freeing := step_freeing hI h

theorem inv_reachable (h : Reachable system s) : Inv s :=
  h.invariant (fun _ hinit => hinit.inv) (fun _ _ _ hI hs => step_inv hI hs)

/-- `ref`, an `int` of the source, is at most the number of references there are. -/
theorem ref_le (h : Reachable system s) (k : Nat) : (s.slots k).ref ≤ s.refs.length := by
  rw [(inv_reachable h).count]
  exact List.countP_le_length

/-- The references and the slots, in every state and over every step from it. -/
theorem inode_refs (h : Reachable system s) :
    (∀ k l, 0 < (s.slots k).ref → 0 < (s.slots l).ref → (s.slots k).ino = (s.slots l).ino → k = l) ∧
      (∀ k, (s.slots k).ref = outstanding s.refs k) ∧
      (∀ r ∈ s.refs, (s.slots r.slot).ino = r.ino) ∧
      ∀ a s', Step s a s' → ∀ k, 0 < (s.slots k).ref → (s'.slots k).ino = (s.slots k).ino := by
  have hI := inv_reachable h
  exact ⟨hI.unique, hI.count, hI.denotes, fun a s' hs k hk => (step_effect hI hs).keeps_ino hk⟩

def bootState : State :=
  ⟨fun _ => ⟨1, 0, 0, 1, 0, fun _ => 0⟩, fun _ => ⟨(0, 0), 0, none, false,
    ⟨0, 0, 0, 0, 0, fun _ => 0⟩⟩, fun _ => .ready, []⟩

def rootState : State :=
  { setSlot bootState 0 { bootState.slots 0 with ino := (1, 1), ref := 1, valid := false } with
    refs := [⟨0, 0, (1, 1)⟩] }

theorem scan_empty (l : Nat) (h : ∀ k ∈ ks, (slots k).ref = 0) : scan slots ino ks (some l) = .recycle l := by
  induction ks with
  | nil => rfl
  | cons k ks ih =>
    rw [scan, if_neg (by simp [h k]), if_neg (by simp)]
    exact ih (fun m hm => h m (by simp [hm]))

theorem iget_root : iget bootState 0 (1, 1) = some rootState := by
  have hscan : scan bootState.slots (1, 1) (List.range ninode) none = .recycle 0 := by
    rw [ninode, List.range_succ_eq_map, scan, if_neg (by simp [bootState]), if_pos (by simp [bootState])]
    exact scan_empty 0 (fun _ _ => rfl)
  rw [iget, hscan]
  rfl

theorem reachable_root : Reachable system rootState := by
  have hboot : Reachable system bootState := .init ⟨fun _ => rfl, fun _ => rfl, rfl⟩
  exact hboot.next (a := .iget 0 (1, 1)) (Step.iget rfl iget_root)

/-- The root inode is duplicated twice and put once. -/
theorem inode_refs_shared : ∃ s, Reachable system s ∧ (s.slots 0).ref = 2 ∧ outstanding s.refs 0 = 2 ∧
    ∀ r ∈ s.refs, (s.slots r.slot).ino = r.ino := by
  have h₁ := reachable_root.next (Step.idup (r := ⟨0, 0, (1, 1)⟩) (q := 1) rfl (by decide))
  have h₂ := h₁.next (Step.idup (r := ⟨1, 0, (1, 1)⟩) (q := 2) rfl (by decide))
  have h₃ := h₂.next (Step.iput (r := ⟨0, 0, (1, 1)⟩) rfl (by decide)
    fun hlast => absurd hlast.1 (by decide))
  obtain ⟨-, hcount, hino, -⟩ := inode_refs h₃
  exact ⟨_, h₃, rfl, (hcount 0).symm, hino⟩

end Xv6.InodeRefs
