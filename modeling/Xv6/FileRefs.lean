import Xv6.NewFiles

/-!
# References to open files

Between system calls the counter of a file structure is the number of descriptors for it. Within a
call some references are held by the call itself: `held` lists them. Each function moves references
between the table of descriptors and that list, and a call that returns holds none, whether it
succeeded or not.
-/
namespace Xv6.OpenFiles

open Xv6.Interleaving Xv6.Pointers
open Xv6.ProcTable (ProcState)
open Function

variable {s s' : State} {fs fs' : Files} {p q np : Fin nproc} {fd i : Fin nofile} {f g : Fin nfile}
  {held l : List (Fin nfile)}

def Balanced (s : State) (held : List (Fin nfile)) : Prop :=
  ∀ g, (s.files.ftable g).ref = pointers s.ofile g + held.count g

/-- A dead process has no descriptors. -/
def Idle (s : State) : Prop := ∀ q, s.state q = .unused ∨ s.state q = .zombie → ∀ fd, s.ofile (q, fd) = none

def Live (s : State) (p : Fin nproc) : Prop := s.state p ≠ .unused ∧ s.state p ≠ .zombie

theorem Balanced.gain (h : Balanced s held) (hg : Gains s.files fs l) :
    Balanced { s with files := fs } (l ++ held) := by
  intro g
  rw [hg g, h g, List.count_append]
  dsimp only
  omega

theorem Balanced.lose (h : Balanced s (f :: held)) (hg : Gains fs s.files [f]) :
    Balanced { s with files := fs } held := by
  intro g
  have hold := h g
  rw [hg g] at hold
  simp only [List.count_cons, List.count_nil] at hold ⊢
  omega

theorem Balanced.fill (h : Balanced s (f :: held)) (hslot : s.ofile (p, fd) = none) :
    Balanced (s.setSlot p fd (some f)) held := by
  intro g
  have hold := h g
  have hnew := pointers_update s.ofile (p, fd) (some f) g
  rw [hslot] at hnew
  simp only [List.count_cons, beq_iff_eq, Option.some.injEq, reduceCtorEq, if_false] at hold hnew
  dsimp only [State.setSlot]
  omega

theorem Balanced.clear (h : Balanced s held) (hslot : s.ofile (p, fd) = some f) :
    Balanced (s.setSlot p fd none) (f :: held) := by
  intro g
  have hold := h g
  have hnew := pointers_update s.ofile (p, fd) none g
  rw [hslot] at hnew
  simp only [List.count_cons, beq_iff_eq, Option.some.injEq, reduceCtorEq, if_false] at hnew ⊢
  dsimp only [State.setSlot]
  omega

theorem Balanced.ref_held (h : Balanced s (f :: held)) : 0 < (s.files.ftable f).ref := by
  rw [h f, List.count_cons_self]
  omega

theorem Balanced.ref_slot (h : Balanced s held) (hslot : s.ofile (p, fd) = some f) : 0 <
    (s.files.ftable f).ref := by
  have hpos : 0 < pointers s.ofile f := pointers_pos_iff.mpr ⟨(p, fd), hslot⟩
  rw [h f]
  omega

theorem Idle.setSlot {v : Option (Fin nfile)} (h : Idle s) (hlive : Live s p) : Idle (s.setSlot p fd v) := by
  intro q hq fd'
  have hne : (q, fd') ≠ (p, fd) := by
    intro heq
    cases heq
    exact hq.elim hlive.1 hlive.2
  exact (update_of_ne hne ..).trans (h q hq fd')

theorem fdalloc_ok (hrun : fdalloc s p f = some (s', fd)) : s.ofile (p, fd) = none ∧ s' =
    s.setSlot p fd (some f) := by
  rw [fdalloc] at hrun
  split at hrun
  case h_1 fd' hfind =>
    cases hrun
    exact ⟨by simpa using List.find?_some hfind, rfl⟩
  case h_2 => cases hrun

theorem argfd_ok {n : Int} (hrun : argfd s p n = some (fd, f)) : s.ofile (p, fd) = some f := by
  rw [argfd] at hrun
  split at hrun
  case isTrue =>
    obtain ⟨f', hf', heq⟩ := Option.map_eq_some_iff.mp hrun
    cases heq
    exact hf'
  case isFalse => cases hrun

structure Inv (s : State) (held : List (Fin nfile)) : Prop where
  books : Books s.files
  balanced : Balanced s held
  idle : Idle s

theorem Inv.fileclose (h : Inv s (f :: held)) :
    ∃ fs, fileclose s.files f = .ok fs ∧ Inv { s with files := fs } held := by
  obtain ⟨fs, hrun, hbooks, hlost⟩ := fileclose_ok h.books h.balanced.ref_held
  exact ⟨fs, hrun, hbooks, h.balanced.lose hlost, h.idle⟩

theorem Inv.fill (h : Inv s (f :: held)) (hlive : Live s p) (hslot : s.ofile (p, fd) = none) :
    Inv (s.setSlot p fd (some f)) held :=
  ⟨h.books, h.balanced.fill hslot, h.idle.setSlot hlive⟩

theorem Inv.clear (h : Inv s held) (hlive : Live s p) (hslot : s.ofile (p, fd) = some f) :
    Inv (s.setSlot p fd none) (f :: held) :=
  ⟨h.books, h.balanced.clear hslot, h.idle.setSlot hlive⟩

def Returns (x : Except Panic (State × Int)) : Prop := ∃ s r, x = .ok (s, r) ∧ Inv s []

section

variable (h : Inv s []) (hlive : Live s p)
include h hlive

theorem sysClose_ok (n : Int) : Returns (sysClose s p n) := by
  rw [sysClose]
  split
  case h_1 => exact ⟨s, _, rfl, h⟩
  case h_2 fd f hfd =>
    obtain ⟨fs, hrun, hinv⟩ := (h.clear hlive (argfd_ok hfd)).fileclose
    exact ⟨_, _, by dsimp only; rw [hrun]; rfl, hinv⟩

theorem sysDup_ok (n : Int) : Returns (sysDup s p n) := by
  rw [sysDup]
  split
  case h_1 => exact ⟨s, _, rfl, h⟩
  case h_2 fd f hfd =>
    split
    case h_1 => exact ⟨s, _, rfl, h⟩
    case h_2 s' fd' hrun =>
      obtain ⟨hslot, rfl⟩ := fdalloc_ok hrun
      obtain ⟨fs, hdup, hbooks, hgain⟩ := filedup_ok h.books (h.balanced.ref_slot (argfd_ok hfd))
      have hinv : Inv { s with files := fs } [f] := ⟨hbooks, h.balanced.gain hgain, h.idle⟩
      exact ⟨_, _, by rw [State.setSlot, hdup]; rfl, hinv.fill hlive hslot⟩

theorem sysOpen_ok (omode : Nat) (found : Option Found) :
    Returns (sysOpen s p omode found) := by
  cases found with
  | none => exact ⟨s, _, rfl, h⟩
  | some ip =>
    rw [sysOpen]
    split
    case isTrue => exact ⟨s, _, rfl, h⟩
    case isFalse =>
      split
      case h_1 => exact ⟨s, _, rfl, h⟩
      case h_2 fs f halloc =>
        have hf := filealloc_ok h.books halloc
        have hinv : Inv { s with files := fs } [f] := ⟨hf.books, h.balanced.gain hf.gains, h.idle⟩
        split
        case h_1 =>
          obtain ⟨fs', hclose, hinv'⟩ := hinv.fileclose
          exact ⟨_, _, by rw [hclose]; rfl, hinv'⟩
        case h_2 s' fd hfd =>
          obtain ⟨hslot, rfl⟩ := fdalloc_ok hfd
          have hfill := hinv.fill hlive hslot
          obtain ⟨hbooks, hgain⟩ := setInode_ok hf.books hf.type hf.ref ip.ip omode
          have hbal := hfill.balanced.gain (l := []) hgain
          exact ⟨_, _, rfl, hbooks, hbal, hfill.idle⟩

theorem sysPipe_ok : Returns (sysPipe s p) := by
  obtain ⟨fs, r, hrun, hbooks, hgain⟩ := pipealloc_ok h.books
  rw [sysPipe, hrun]
  dsimp only [bind, Except.bind]
  cases r with
  | none => exact ⟨_, _, rfl, hbooks, h.balanced.gain (l := []) hgain, h.idle⟩
  | some r =>
    obtain ⟨rf, wf⟩ := r
    have hinv : Inv { s with files := fs } [rf, wf] := ⟨hbooks, h.balanced.gain (l := [rf, wf]) hgain, h.idle⟩
    dsimp only
    split
    case h_1 =>
      obtain ⟨fs₁, hclose₁, h₁⟩ := hinv.fileclose
      obtain ⟨fs₂, hclose₂, h₂⟩ := h₁.fileclose
      dsimp only at hclose₁ hclose₂
      exact ⟨_, _, by rw [hclose₁]; dsimp only; rw [hclose₂], h₂⟩
    case h_2 s₁ fd0 hfd0 =>
      obtain ⟨hslot, rfl⟩ := fdalloc_ok hfd0
      have h₁ := hinv.fill hlive hslot
      split
      case h_1 =>
        have h₂ := h₁.clear hlive (update_self ..)
        obtain ⟨fs₁, hclose₁, h₃⟩ := h₂.fileclose
        obtain ⟨fs₂, hclose₂, h₄⟩ := h₃.fileclose
        dsimp only at hclose₁ hclose₂
        exact ⟨_, _, by rw [hclose₁]; dsimp only; rw [hclose₂], h₄⟩
      case h_2 s₂ fd1 hfd1 =>
        obtain ⟨hslot', rfl⟩ := fdalloc_ok hfd1
        exact ⟨_, _, rfl, h₁.fill hlive hslot'⟩

end

/-- The loop of `fork`: the slots of the child that are still to come are empty. -/
theorem forkLoop_ok (rest : List (Fin nofile)) (hnodup : rest.Nodup) (h : Inv s []) (hlive : Live s np)
    (hempty : ∀ i ∈ rest, s.ofile (np, i) = none) :
    ∃ s', forkLoop p np rest s = .ok s' ∧ Inv s' [] := by
  induction rest generalizing s with
  | nil => exact ⟨s, rfl, h⟩
  | cons i rest ih =>
    obtain ⟨hi, hnodup'⟩ := List.nodup_cons.mp hnodup
    rw [forkLoop]
    cases hslot : s.ofile (p, i) with
    | none => exact ih hnodup' h hlive (fun j hj => hempty j (List.mem_cons_of_mem _ hj))
    | some f =>
      obtain ⟨fs, hdup, hbooks, hgain⟩ := filedup_ok h.books (h.balanced.ref_slot hslot)
      have hinv : Inv { s with files := fs } [f] := ⟨hbooks, h.balanced.gain hgain, h.idle⟩
      have hfill := hinv.fill hlive (hempty i List.mem_cons_self)
      obtain ⟨s', hrun, h'⟩ := ih hnodup' hfill hlive (by
        intro j hj
        have hij : (np, j) ≠ (np, i) := by
          intro heq
          cases heq
          exact hi hj
        exact (update_of_ne hij ..).trans (hempty j (List.mem_cons_of_mem _ hj)))
      exact ⟨s', by dsimp only; rw [hdup]; exact hrun, h'⟩

theorem Inv.setState {st : ProcState} (h : Inv s []) (hst : st ≠ .unused ∧ st ≠ .zombie ∨ ∀ fd,
    s.ofile (p, fd) = none) :
    Inv (s.setState p st) [] := by
  refine ⟨h.books, h.balanced, fun q hq fd => ?_⟩
  by_cases hqp : q = p
  · subst hqp
    dsimp only [State.setState] at hq
    rw [update_self] at hq
    rcases hst with hst | hst
    · exact absurd hq (by simp [hst])
    · exact hst fd
  · dsimp only [State.setState] at hq
    rw [update_of_ne hqp] at hq
    exact h.idle q hq fd

theorem fork_ok (h : Inv s []) (stack copied : Bool) : Returns (fork s p stack copied) := by
  rw [fork]
  split
  case h_1 => exact ⟨s, _, rfl, h⟩
  case h_2 np hfind =>
    have hunused : s.state np = .unused := by simpa using List.find?_some hfind
    have hempty := h.idle np (.inl hunused)
    have hembryo : Inv { s.setState np .embryo with nextpid := s.nextpid + 1 } [] :=
      ⟨h.books, h.balanced, (h.setState (.inr hempty)).idle⟩
    dsimp only
    split
    case isTrue =>
      obtain ⟨s', hrun, h'⟩ := forkLoop_ok (List.finRange nofile) (List.nodup_finRange nofile) hembryo
        (by simp [Live, State.setState]) (fun i _ => hempty i)
      exact ⟨_, _, by rw [hrun]; rfl, h'.setState (.inl (by simp))⟩
    case isFalse => exact ⟨_, _, rfl, hembryo.setState (.inr hempty)⟩

/-- The loop of `exit` closes the descriptors it comes to and opens none. -/
theorem exitLoop_ok (rest : List (Fin nofile)) (h : Inv s []) (hlive : Live s p) :
    ∃ s', exitLoop p rest s = .ok s' ∧ Inv s' [] ∧ (∀ fd ∈ rest, s'.ofile (p, fd) = none) ∧
      ∀ fd, s.ofile (p, fd) = none → s'.ofile (p, fd) = none := by
  induction rest generalizing s with
  | nil => exact ⟨s, rfl, h, by simp, fun _ hfd => hfd⟩
  | cons fd rest ih =>
    rw [exitLoop]
    cases hslot : s.ofile (p, fd) with
    | none =>
      obtain ⟨s', hrun, h', hdone, hkept⟩ := ih h hlive
      exact ⟨s', hrun, h', List.forall_mem_cons.mpr ⟨hkept fd hslot, hdone⟩, hkept⟩
    | some f =>
      obtain ⟨fs, hclose, hinv⟩ := (h.clear hlive hslot).fileclose
      obtain ⟨s', hrun, h', hdone, hkept⟩ := ih hinv hlive
      have hcleared : s'.ofile (p, fd) = none := hkept fd (update_self ..)
      refine ⟨s', by dsimp only; rw [show OpenFiles.fileclose s.files f = .ok fs from hclose]; exact hrun, h',
        List.forall_mem_cons.mpr ⟨hcleared, hdone⟩, fun fd' hfd' => ?_⟩
      by_cases heq : fd' = fd
      · rw [heq]
        exact hcleared
      · refine hkept fd' ((update_of_ne ?_ ..).trans hfd')
        simpa using heq

theorem exit_ok (h : Inv s []) (hlive : Live s p) : Returns (exit s p) ∨ p = initproc := by
  rw [exit]
  split
  case isTrue hinit => exact .inr hinit
  case isFalse =>
    obtain ⟨s', hrun, h', hdone, -⟩ := exitLoop_ok (List.finRange nofile) h hlive
    exact .inl ⟨_, _, by rw [hrun]; rfl, h'.setState (.inr fun fd => hdone fd (List.mem_finRange fd))⟩

theorem syscall_ok (h : Inv s []) (hrun : s.state p = .running) (c : Call) :
    Returns (syscall s p c) ∨ p = initproc ∧ c = .exit := by
  have hlive : Live s p := by simp [Live, hrun]
  cases c with
  | «open» omode found => exact .inl (sysOpen_ok h hlive omode found)
  | dup fd => exact .inl (sysDup_ok h hlive fd)
  | pipe => exact .inl (sysPipe_ok h hlive)
  | close fd => exact .inl (sysClose_ok h hlive fd)
  | fork stack copied => exact .inl (fork_ok h stack copied)
  | exec result => exact .inl ⟨s, result, rfl, h⟩
  | exit => exact (exit_ok h hlive).imp_right fun hinit => ⟨hinit, rfl⟩

theorem step_inv {a : Act} (h : Inv s []) (hs : Step s a s') : Inv s' [] := by
  cases hs with
  | @call _ p c _ hrun hcall =>
    rcases syscall_ok h hrun c with ⟨s₁, r₁, hret, h₁⟩ | ⟨rfl, rfl⟩
    · cases hret.symm.trans hcall
      exact h₁
    · cases hcall
  | reap hzombie => exact h.setState (.inr (h.idle _ (.inr hzombie)))
  | switch hold hnew =>
    refine h.setState (.inl ?_)
    simp only [scheduled, List.mem_cons, List.not_mem_nil, or_false] at hnew
    rcases hnew with rfl | rfl | rfl <;> simp
  | memory hnodup hfree => exact ⟨{ h.books with nodup := hnodup, free := hfree }, h.balanced, h.idle⟩

theorem booted_inv (h : Booted s) : Inv s [] := by
  have hofile : s.ofile = fun _ => none := funext h.ofile
  refine ⟨?_, ?_, fun p _ fd => h.ofile (p, fd)⟩
  · constructor
    case idle => exact fun f _ => (h.files f).2
    case past => simp [h.log]
    case opened => simp [h.log]
    case piped => simp [h.log]
    case inode =>
      have hnone : inodes s.files.ftable = fun _ => none := funext fun f => File.inodeUse_of_ne
        (by simp [(h.files f).2])
      simp [h.log, hnone]
    case page => simp [h.log, holds, h.pipes]
    case ends =>
      have hnone : ends s.files.ftable = fun _ => none := funext fun f => File.pipeEnd_of_ne
        (by simp [(h.files f).2])
      simp [hnone, openAt, h.pipes]
    case used =>
      intro page p hp
      rw [h.pipes] at hp
      cases hp
    case nodup => exact h.free
    case free => exact fun page _ => h.pipes page
  · intro f
    rw [(h.files f).1, hofile]
    simp

def Descriptor (s : State) (P : File → Prop) : Prop := ∃ x f, s.ofile x = some f ∧ P (s.files.ftable f)

structure Kept (s : State) : Prop where
  ref : ∀ f, (s.files.ftable f).ref = pointers s.ofile f
  unused : ∀ f, (s.files.ftable f).ref = 0 → (s.files.ftable f).type = .none
  dead : ∀ p, s.state p = .unused ∨ s.state p = .zombie → ∀ fd, s.ofile (p, fd) = none
  once : ∀ x, s.files.log.count (.opened x) ≤ 1 ∧ s.files.log.count (.piped x) ≤ 1
  held : ∀ f x, (s.files.ftable f).inodeUse = some x → .opened x ∈ s.files.log
  iput : ∀ x, .opened x ∈ s.files.log →
    (Descriptor s (fun v => v.inodeUse = some x) → s.files.log.count (.iput x) = 0) ∧
    (¬ Descriptor s (fun v => v.inodeUse = some x) → s.files.log.count (.iput x) = 1)
  taken : ∀ x, .iput x ∈ s.files.log → .opened x ∈ s.files.log
  krelease : ∀ x, .piped x ∈ s.files.log →
    (Descriptor s (fun v => ∃ w, v.pipeEnd = some (x, w)) → s.files.log.count (.krelease x) = 0) ∧
    (¬ Descriptor s (fun v => ∃ w, v.pipeEnd = some (x, w)) → s.files.log.count (.krelease x) = 1)
  allocated : ∀ x, .krelease x ∈ s.files.log → .piped x ∈ s.files.log

theorem Inv.descriptor_iff (h : Inv s []) {P : File → Prop} (hP : ∀ v, P v → v.type ≠ .none) :
    Descriptor s P ↔ ∃ f, P (s.files.ftable f) := by
  constructor
  · rintro ⟨x, f, -, hf⟩
    exact ⟨f, hf⟩
  · rintro ⟨f, hf⟩
    have href : (s.files.ftable f).ref ≠ 0 := fun hzero => hP _ hf (h.books.idle f hzero)
    have hpos : 0 < pointers s.ofile f := by
      rw [h.balanced f, List.count_nil] at href
      omega
    obtain ⟨x, hx⟩ := pointers_pos_iff.mp hpos
    exact ⟨x, f, hx, hf⟩

theorem Inv.inode_descriptor (h : Inv s []) (x : Use) :
    Descriptor s (fun v => v.inodeUse = some x) ↔ 0 < pointers (inodes s.files.ftable) x := by
  rw [h.descriptor_iff, pointers_pos_iff]
  · rfl
  · intro v hv hnone
    rw [File.inodeUse_of_ne (by simp [hnone])] at hv
    cases hv

/-- A pipe is there as long as one of its ends has a descriptor. -/
theorem Inv.pipe_descriptor (h : Inv s []) (x : Use) :
    Descriptor s (fun v => ∃ w, v.pipeEnd = some (x, w)) ↔ holds s.files.pipes x = true := by
  rw [h.descriptor_iff (by
    rintro v ⟨w, hv⟩ hnone
    rw [File.type_of_pipeEnd hv] at hnone
    cases hnone), holds_eq_true]
  have hopen (w : Bool) : openAt s.files.pipes x w = true ↔ ∃ f, (s.files.ftable f).pipeEnd = some (x, w) := by
    rw [show (∃ f, (s.files.ftable f).pipeEnd = some (x, w)) ↔ 0 < pointers (ends s.files.ftable) (x, w) from
      pointers_pos_iff.symm, h.books.ends]
    cases openAt s.files.pipes x w <;> simp
  constructor
  · rintro ⟨f, w, hf⟩
    obtain ⟨p, hp, hserial, -⟩ := openAt_eq_true.mp ((hopen w).mpr ⟨f, hf⟩)
    exact ⟨p, hp, hserial⟩
  · rintro ⟨p, hp, hserial⟩
    have hend (w : Bool) (hw : p.isOpen w = true) : ∃ f w, (s.files.ftable f).pipeEnd = some (x, w) := by
      obtain ⟨f, hf⟩ := (hopen w).mp (openAt_eq_true.mpr ⟨p, hp, hserial, hw⟩)
      exact ⟨f, w, hf⟩
    rcases h.books.used x.2 p hp with hr | hw
    · exact hend false hr
    · exact hend true hw

theorem Inv.kept (h : Inv s []) : Kept s := by
  constructor
  case ref => exact fun f => by rw [h.balanced f, List.count_nil, Nat.add_zero]
  case unused => exact h.books.idle
  case dead => exact h.idle
  case once => exact fun x => ⟨h.books.opened x, h.books.piped x⟩
  case held =>
    intro f x hf
    have hpos : 0 < pointers (inodes s.files.ftable) x := pointers_pos_iff.mpr ⟨f, hf⟩
    rw [← List.count_pos_iff, h.books.inode]
    omega
  case iput =>
    intro x hx
    have hone := h.books.opened x
    have hcount := h.books.inode x
    have hpos := List.count_pos_iff.mpr hx
    rw [h.inode_descriptor]
    constructor <;> intro _ <;> omega
  case taken =>
    intro x hx
    have hcount := h.books.inode x
    have hpos := List.count_pos_iff.mpr hx
    rw [← List.count_pos_iff]
    omega
  case krelease =>
    intro x hx
    have hone := h.books.piped x
    have hcount := h.books.page x
    have hpos := List.count_pos_iff.mpr hx
    rw [h.pipe_descriptor]
    cases hheld : holds s.files.pipes x <;> rw [hheld] at hcount <;> simp at hcount ⊢ <;> omega
  case allocated =>
    intro x hx
    have hcount := h.books.page x
    have hpos := List.count_pos_iff.mpr hx
    rw [← List.count_pos_iff]
    omega

/-- Every run keeps the references to open files, and no call panics but the exit of the first
process. -/
theorem file_refs (h : Reachable system s) :
    Kept s ∧ ∀ p c, s.state p = .running → (∃ s' r, syscall s p c = .ok (s', r)) ∨ p = initproc ∧ c = .exit := by
  have hinv : Inv s [] := h.invariant (fun s hs => booted_inv hs) (fun s a s' hI hs => step_inv hI hs)
  refine ⟨hinv.kept, fun p c hrun => ?_⟩
  exact (syscall_ok hinv hrun c).imp_left fun ⟨s', r, hret, _⟩ => ⟨s', r, hret⟩

def started : State where
  files := ⟨fun _ => ⟨.none, 0, false, false, 0, 0, 0, 0⟩, fun _ => none, [7], []⟩
  ofile := fun _ => none
  state := fun p => if p = initproc then .running else .unused
  nextpid := 2

/-- The first process opens a file and duplicates the descriptor. -/
theorem file_refs_dup : ∃ s, Reachable system s ∧ .opened (0, 5) ∈ s.files.log ∧ Kept s := by
  have hbooted : Booted started := ⟨fun _ => ⟨rfl, rfl⟩, fun _ => rfl, by decide, rfl, fun _ => rfl⟩
  have hopen : Reachable system _ := Reachable.next (.init hbooted)
    (Step.call (p := initproc) (c := .open 2 (some ⟨5, false⟩)) rfl rfl)
  have hdup : Reachable system _ := hopen.next (Step.call (p := initproc) (c := .dup 0) rfl rfl)
  exact ⟨_, hdup, List.mem_cons_self, (file_refs hdup).1⟩

end Xv6.OpenFiles
