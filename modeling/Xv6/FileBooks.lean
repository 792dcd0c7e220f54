import Xv6.OpenFiles

/-!
# The books of the file table

The log balances with the table: an inode that was opened is held by one file structure or has been
put, a page that became a pipe holds it or has been released, and an end of a pipe is open exactly
when one file structure has it.
-/
namespace Xv6.OpenFiles

open Pointers Function

def File.inodeUse (v : File) : Option Use := if v.type = .inode then some (v.serial, v.ip) else none

def File.pipeEnd (v : File) : Option (Use × Bool) := if v.type = .pipe then some
    ((v.serial, v.pipe), v.writable) else none

def inodes (t : Fin nfile → File) : Fin nfile → Option Use := File.inodeUse ∘ t
def ends (t : Fin nfile → File) : Fin nfile → Option (Use × Bool) := File.pipeEnd ∘ t

def Pipe.isOpen (p : Pipe) (writable : Bool) : Bool := if writable then p.writeopen else p.readopen

def holds (pipes : Nat → Option Pipe) (x : Use) : Bool := (pipes x.2).any (fun p => p.serial = x.1)

def openAt (pipes : Nat → Option Pipe) (x : Use) (writable : Bool) : Bool :=
  (pipes x.2).any (fun p => p.serial = x.1 && p.isOpen writable)

structure Books (fs : Files) : Prop where
  idle : ∀ f, (fs.ftable f).ref = 0 → (fs.ftable f).type = .none
  past : ∀ e ∈ fs.log, e.serial < fs.log.length
  opened : ∀ x, fs.log.count (.opened x) ≤ 1
  piped : ∀ x, fs.log.count (.piped x) ≤ 1
  inode : ∀ x, fs.log.count (.opened x) = fs.log.count (.iput x) + pointers (inodes fs.ftable) x
  page : ∀ x, fs.log.count (.piped x) = fs.log.count (.krelease x) + (holds fs.pipes x).toNat
  ends : ∀ x w, pointers (ends fs.ftable) (x, w) = (openAt fs.pipes x w).toNat
  used : ∀ page p, fs.pipes page = some p → p.readopen = true ∨ p.writeopen = true
  nodup : fs.free.Nodup
  free : ∀ page ∈ fs.free, fs.pipes page = none

variable {fs fs' : Files} {t : Fin nfile → File} {log : List Event} {f f0 f1 g : Fin nfile} {v : File} {x : Use}
  {page n : Nat} {w : Bool}

theorem Books.fresh (h : Books fs) {e : Event} (he : e.serial = fs.log.length) : fs.log.count e = 0 := by
  rw [List.count_eq_zero]
  intro hmem
  have hlt := h.past e hmem
  omega

theorem past_cons {e : Event} (h : ∀ e ∈ log, e.serial < log.length) (he : e.serial ≤ log.length) :
    ∀ e' ∈ e :: log, e'.serial < (e :: log).length := by
  intro e' hmem
  rw [List.length_cons]
  rcases List.mem_cons.mp hmem with rfl | hmem
  · omega
  · have hlt := h e' hmem
    omega

theorem Books.past_of_count (h : Books fs) {e : Event} (he : 0 < fs.log.count e) : e.serial ≤ fs.log.length :=
  (h.past e (List.count_pos_iff.mp he)).le

theorem inodes_update : inodes (update t f v) = update (inodes t) f v.inodeUse := comp_update ..

theorem ends_update : ends (update t f v) = update (ends t) f v.pipeEnd := comp_update ..

theorem inodes_same (h : v.inodeUse = (t f).inodeUse) : inodes (update t f v) = inodes t := by
  rw [inodes_update, h]
  exact update_eq_self f (inodes t)

theorem ends_same (h : v.pipeEnd = (t f).pipeEnd) : ends (update t f v) = ends t := by
  rw [ends_update, h]
  exact update_eq_self f (ends t)

theorem File.inodeUse_of_ne (h : v.type ≠ .inode) : v.inodeUse = none := if_neg h

theorem File.pipeEnd_of_ne (h : v.type ≠ .pipe) : v.pipeEnd = none := if_neg h

theorem idle_update (h : ∀ g, (t g).ref = 0 → (t g).type = .none) (hv : v.ref = 0 → v.type = .none) :
    ∀ g, (update t f v g).ref = 0 → (update t f v g).type = .none := by
  intro g hg
  by_cases hgf : g = f
  · subst hgf
    rw [update_self] at hg ⊢
    exact hv hg
  · rw [update_of_ne hgf] at hg ⊢
    exact h g hg

/-- A change that neither the references to inodes nor the ends of pipes see. -/
theorem Books.setFile (h : Books fs) (hidle : v.ref = 0 → v.type = .none)
    (hinode : v.inodeUse = (fs.ftable f).inodeUse)
    (hend : v.pipeEnd = (fs.ftable f).pipeEnd) : Books (fs.setFile f v) :=
  { h with
    idle := idle_update h.idle hidle
    inode := by
      rw [Files.setFile_ftable, inodes_same hinode]
      exact h.inode
    ends := by
      rw [Files.setFile_ftable, ends_same hend]
      exact h.ends }

def Gains (fs fs' : Files) (l : List (Fin nfile)) : Prop := ∀ g, (fs'.ftable g).ref = (fs.ftable g).ref + l.count g

theorem Gains.trans {fs'' : Files} {l l' : List (Fin nfile)} (h : Gains fs fs' l) (h' : Gains fs' fs'' l') :
    Gains fs fs'' (l ++ l') := by
  intro g
  rw [h' g, h g, List.count_append]
  omega

theorem gains_one (h : ∀ g, (fs'.ftable g).ref = if g = f then (fs.ftable f).ref + 1 else (fs.ftable g).ref) :
    Gains fs fs' [f] := by
  intro g
  rw [h g, List.count_singleton]
  by_cases hgf : g = f
  · simp [hgf]
  · simp [hgf, Ne.symm hgf]

theorem ref_setFile (g : Fin nfile) : ((fs.setFile f v).ftable g).ref =
    if g = f then v.ref else (fs.ftable g).ref := by
  rw [Files.setFile_ftable, update_apply]
  split <;> rfl

theorem gains_setFile (h : v.ref = (fs.ftable f).ref + 1) : Gains fs (fs.setFile f v) [f] :=
  gains_one fun g => by rw [ref_setFile, h]

theorem loses_setFile (h : v.ref + 1 = (fs.ftable f).ref) : Gains (fs.setFile f v) fs [f] := by
  refine gains_one fun g => ?_
  rw [ref_setFile, ref_setFile, if_pos rfl, h]
  by_cases hgf : g = f
  · rw [if_pos hgf, hgf]
  · rw [if_neg hgf, if_neg hgf]

theorem keeps_setFile (h : v.ref = (fs.ftable f).ref) : Gains fs (fs.setFile f v) [] := by
  intro g
  rw [ref_setFile, h]
  split
  case isTrue hgf => simp [hgf]
  case isFalse => simp

structure Allocated (fs fs' : Files) (f : Fin nfile) : Prop where
  books : Books fs'
  gains : Gains fs fs' [f]
  unused : (fs.ftable f).ref = 0
  type : (fs'.ftable f).type = .none
  ref : 0 < (fs'.ftable f).ref
  others : ∀ g, g ≠ f → fs'.ftable g = fs.ftable g

theorem filealloc_ok (h : Books fs) (hrun : filealloc fs = some (fs', f)) : Allocated fs fs' f := by
  rw [filealloc] at hrun
  split at hrun
  case h_1 f' hfind =>
    cases hrun
    have hzero : (fs.ftable f).ref = 0 := by simpa using List.find?_some hfind
    refine ⟨h.setFile (by simp) rfl rfl, gains_setFile (by rw [hzero]), hzero, ?_, ?_, ?_⟩
    · rw [Files.setFile_ftable, update_self]
      exact h.idle f hzero
    · rw [Files.setFile_ftable, update_self]
      exact Nat.one_pos
    · intro g hg
      rw [Files.setFile_ftable, update_of_ne hg]
  case h_2 => cases hrun

theorem filedup_ok (h : Books fs) (href : 0 < (fs.ftable f).ref) :
    ∃ fs', filedup fs f = .ok fs' ∧ Books fs' ∧ Gains fs fs' [f] := by
  rw [filedup, if_neg (by omega)]
  exact ⟨_, rfl, h.setFile (by simp) rfl rfl, gains_setFile rfl⟩

/-- The last reference to an inode goes. -/
theorem Books.close_inode (h : Books fs) (htype : (fs.ftable f).type = .inode) :
    Books { fs.setFile f { fs.ftable f with ref := 0, type := .none } with
      log := .iput ((fs.ftable f).serial, (fs.ftable f).ip) :: fs.log } := by
  have huse : inodes fs.ftable f = some ((fs.ftable f).serial, (fs.ftable f).ip) := if_pos htype
  have hopened := h.inode ((fs.ftable f).serial, (fs.ftable f).ip)
  have hpos : 0 < pointers (inodes fs.ftable) ((fs.ftable f).serial, (fs.ftable f).ip) :=
    pointers_pos_iff.mpr ⟨f, huse⟩
  constructor
  case idle => exact idle_update h.idle (fun _ => rfl)
  case past => exact past_cons h.past (h.past_of_count (e := .opened _) (by omega))
  case opened => simpa [List.count_cons] using h.opened
  case piped => simpa [List.count_cons] using h.piped
  case inode =>
    intro y
    have hy := h.inode y
    have hlost := pointers_update (inodes fs.ftable) f none y
    rw [huse] at hlost
    rw [Files.setFile_ftable, inodes_update, File.inodeUse_of_ne (by simp)]
    simp only [List.count_cons, beq_iff_eq, Event.iput.injEq, reduceCtorEq, if_false, Option.some.injEq] at hlost ⊢
    omega
  case page =>
    simp only [List.count_cons, beq_iff_eq, reduceCtorEq, if_false, Nat.add_zero]
    exact h.page
  case ends =>
    rw [Files.setFile_ftable, ends_same]
    · exact h.ends
    · rw [File.pipeEnd_of_ne (by simp), File.pipeEnd_of_ne (by simp [htype])]
  case used => exact h.used
  case nodup => exact h.nodup
  case free => exact h.free

theorem Pipe.isOpen_close {p : Pipe} {w w' : Bool} : (p.close w).isOpen w' = (p.isOpen w' && w' != w) := by
  cases w <;> cases w' <;> simp [Pipe.close, Pipe.isOpen]

theorem Pipe.serial_close {p : Pipe} : (p.close w).serial = p.serial := by cases w <;> rfl

section
variable {pipes : Nat → Option Pipe} {p : Pipe} {y : Use} {w' : Bool}

theorem holds_eq_true : holds pipes x = true ↔ ∃ p, pipes x.2 = some p ∧ p.serial = x.1 := by
  simp [holds, Option.any_eq_true]

theorem openAt_eq_true : openAt pipes x w = true ↔ ∃ p, pipes x.2 = some p ∧ p.serial = x.1 ∧
    p.isOpen w = true := by
  simp [openAt, Option.any_eq_true]

theorem holds_of_ne {v : Option Pipe} (hne : y.2 ≠ page) : holds (update pipes page v) y = holds pipes y := by
  rw [holds, holds, update_of_ne hne]

theorem openAt_of_ne {v : Option Pipe} (hne : y.2 ≠ page) :
    openAt (update pipes page v) y w = openAt pipes y w := by
  rw [openAt, openAt, update_of_ne hne]

/-- Closing an end closes that end. -/
theorem openAt_close (hp : pipes x.2 = some p) (hserial : p.serial = x.1) :
    openAt (update pipes x.2 (some (p.close w))) y w' = (openAt pipes y w' && !decide ((x, w) = (y, w'))) := by
  obtain ⟨n, page⟩ := x
  obtain ⟨n', page'⟩ := y
  dsimp only at hp hserial ⊢
  by_cases hpage : page' = page
  · subst hpage hserial
    by_cases hn : p.serial = n'
    · subst hn
      cases w <;> cases w' <;> simp [openAt, hp, Pipe.isOpen_close, Pipe.serial_close]
    · simp [openAt, hp, Pipe.serial_close, hn]
  · rw [openAt_of_ne hpage]
    simp [Ne.symm hpage]

theorem openAt_freed (hp : pipes page = some p) (hr : p.readopen = false) (hw : p.writeopen = false) :
    openAt (update pipes page none) y w = openAt pipes y w := by
  by_cases hpage : y.2 = page
  · have hclosed : p.isOpen w = false := by cases w <;> assumption
    subst hpage
    simp [openAt, hp, hclosed]
  · exact openAt_of_ne hpage

end

/-- The structure of an end goes; the pipe notes it. -/
theorem ends_close (h : Books fs) {p : Pipe} (hend : (fs.ftable f).pipeEnd = some (x, w))
    (hp : fs.pipes x.2 = some p)
    (hserial : p.serial = x.1) (hv : v.pipeEnd = none) (y : Use) (w' : Bool) :
    pointers (ends (update fs.ftable f v)) (y, w') =
      (openAt (update fs.pipes x.2 (some (p.close w))) y w').toNat := by
  have hlost := pointers_update (ends fs.ftable) f none (y, w')
  have hold := h.ends y w'
  have huse : ends fs.ftable f = some (x, w) := hend
  rw [huse] at hlost
  rw [ends_update, hv, openAt_close hp hserial]
  by_cases hy : (x, w) = (y, w')
  · have hopen : pointers (ends fs.ftable) (y, w') ≠ 0 := (pointers_pos_iff.mpr ⟨f, hy ▸ huse⟩).ne'
    have hle := Bool.toNat_le (openAt fs.pipes y w')
    simp only [hy, decide_true, Bool.not_true, Bool.and_false, if_true, reduceCtorEq, if_false,
      Bool.toNat_false] at hlost ⊢
    omega
  · simp only [hy, decide_false, Bool.not_false, Bool.and_true, Option.some.injEq, reduceCtorEq,
      if_false] at hlost ⊢
    omega

theorem File.type_of_pipeEnd (h : v.pipeEnd = some (x, w)) : v.type = .pipe := by
  by_contra hne
  rw [File.pipeEnd_of_ne hne] at h
  cases h

section

variable (h : Books fs) (hend : (fs.ftable f).pipeEnd = some (x, w))
include h hend

/-- The other end is still open. -/
theorem Books.close_end {p : Pipe} (hp : fs.pipes x.2 = some p)
    (hserial : p.serial = x.1) (hv : v.type = .none) (hopen : (p.close w).readopen = true ∨
      (p.close w).writeopen = true) :
    Books { fs.setFile f v with pipes := update fs.pipes x.2 (some (p.close w)) } := by
  have htype := File.type_of_pipeEnd hend
  constructor
  case idle => exact idle_update h.idle (fun _ => hv)
  case past => exact h.past
  case opened => exact h.opened
  case piped => exact h.piped
  case inode =>
    rw [Files.setFile_ftable, inodes_same]
    · exact h.inode
    · rw [File.inodeUse_of_ne (by simp [hv]), File.inodeUse_of_ne (by simp [htype])]
  case page =>
    intro y
    dsimp only [Files.setFile_log]
    rw [h.page y]
    congr 2
    by_cases hy : y.2 = x.2
    · simp [holds, hy, hp, Pipe.serial_close]
    · rw [holds_of_ne hy]
  case ends => exact ends_close h hend hp hserial (File.pipeEnd_of_ne (by simp [hv]))
  case used =>
    intro page q hq
    dsimp only at hq
    by_cases hpage : page = x.2
    · rw [hpage, update_self] at hq
      obtain rfl := Option.some.inj hq
      exact hopen
    · rw [update_of_ne hpage] at hq
      exact h.used page q hq
  case nodup => exact h.nodup
  case free =>
    intro page hfree
    have hne : page ≠ x.2 := by
      rintro rfl
      rw [h.free _ hfree] at hp
      cases hp
    exact (update_of_ne hne ..).trans (h.free page hfree)

/-- Both ends are closed. -/
theorem Books.close_last {p : Pipe} (hp : fs.pipes x.2 = some p)
    (hserial : p.serial = x.1) (hv : v.type = .none) (hr : (p.close w).readopen = false)
    (hw : (p.close w).writeopen = false) : Books (krelease (fs.setFile f v) x.2 x.1) := by
  have htype := File.type_of_pipeEnd hend
  have hheld : holds fs.pipes x = true := holds_eq_true.mpr ⟨p, hp, hserial⟩
  have hpiped := h.page x
  rw [hheld, Bool.toNat_true] at hpiped
  constructor
  case idle => exact idle_update h.idle (fun _ => hv)
  case past => exact past_cons h.past (h.past_of_count (e := .piped x) (by omega))
  case opened => simpa [krelease, List.count_cons] using h.opened
  case piped => simpa [krelease, List.count_cons] using h.piped
  case inode =>
    simp only [krelease, List.count_cons, beq_iff_eq, reduceCtorEq, if_false, Nat.add_zero, Files.setFile_log,
      Files.setFile_ftable]
    rw [inodes_same]
    · exact h.inode
    · rw [File.inodeUse_of_ne (by simp [hv]), File.inodeUse_of_ne (by simp [htype])]
  case page =>
    intro y
    have hy := h.page y
    simp only [krelease, List.count_cons, beq_iff_eq, reduceCtorEq, if_false, Nat.add_zero, Files.setFile_log,
      Files.setFile_pipes, Event.krelease.injEq, Prod.mk.eta]
    by_cases hpage : y.2 = x.2
    · have hgone : holds (update fs.pipes x.2 none) y = false := by simp [holds, hpage]
      have hheld' : holds fs.pipes y = decide (x = y) := by
        rw [Bool.eq_iff_iff, holds_eq_true, hpage, hp, decide_eq_true_iff, Prod.ext_iff]
        simp [hserial, hpage]
      rw [hheld'] at hy
      rw [hgone, Bool.toNat_false]
      split <;> simp_all
    · rw [holds_of_ne hpage, if_neg (by rintro rfl; exact hpage rfl)]
      omega
  case ends =>
    intro y w'
    dsimp only [krelease, Files.setFile_ftable, Files.setFile_pipes]
    have hfreed := openAt_freed (y := y) (w := w') (update_self x.2 (some (p.close w)) fs.pipes) hr hw
    rw [update_idem] at hfreed
    rw [hfreed]
    exact ends_close h hend hp hserial (File.pipeEnd_of_ne (by simp [hv])) y w'
  case used =>
    intro page q hq
    dsimp only [krelease] at hq
    by_cases hpage : page = x.2
    · rw [hpage, update_self] at hq
      cases hq
    · rw [update_of_ne hpage] at hq
      exact h.used page q hq
  case nodup =>
    refine List.nodup_cons.mpr ⟨fun hfree => ?_, h.nodup⟩
    rw [h.free _ hfree] at hp
    cases hp
  case free =>
    intro page hfree
    by_cases hpage : page = x.2
    · subst hpage
      exact update_self ..
    · exact (update_of_ne hpage ..).trans (h.free page ((List.mem_cons.mp hfree).resolve_left hpage))

/-- `pipeclose` for the last reference to an end. -/
theorem Books.pipeclose (hv : v.type = .none)
    (href : v.ref + 1 = (fs.ftable f).ref) :
    ∃ fs', pipeclose (fs.setFile f v) x.2 w = .ok fs' ∧ Books fs' ∧ Gains fs' fs [f] := by
  have hopen : openAt fs.pipes x w = true := by
    have hpos : 0 < pointers (OpenFiles.ends fs.ftable) (x, w) := pointers_pos_iff.mpr ⟨f, hend⟩
    rw [h.ends] at hpos
    by_contra hclosed
    rw [Bool.eq_false_iff.mpr hclosed] at hpos
    cases hpos
  obtain ⟨p, hp, hserial, -⟩ := openAt_eq_true.mp hopen
  rw [OpenFiles.pipeclose, Files.setFile_pipes, hp]
  dsimp only
  split
  case isTrue hclosed =>
    rw [Pipe.serial_close, hserial]
    exact ⟨_, rfl, h.close_last hend hp hserial hv hclosed.1 hclosed.2, loses_setFile href⟩
  case isFalse hclosed =>
    refine ⟨_, rfl, h.close_end hend hp hserial hv ?_, loses_setFile href⟩
    cases hr : (p.close w).readopen with
    | true => exact .inl rfl
    | false =>
      cases hw : (p.close w).writeopen with
      | true => exact .inr rfl
      | false => exact absurd ⟨hr, hw⟩ hclosed

end

theorem fileclose_ok (h : Books fs) (href : 0 < (fs.ftable f).ref) :
    ∃ fs', fileclose fs f = .ok fs' ∧ Books fs' ∧ Gains fs' fs [f] := by
  rw [fileclose, if_neg (by omega)]
  dsimp only
  split
  case isTrue => exact ⟨_, rfl, h.setFile (by dsimp only; omega) rfl rfl, loses_setFile (by dsimp only; omega)⟩
  case isFalse hlast =>
    have hone : 0 + 1 = (fs.ftable f).ref := by omega
    cases htype : (fs.ftable f).type with
    | pipe => exact h.pipeclose (if_pos htype) rfl hone
    | inode => exact ⟨_, rfl, h.close_inode htype, loses_setFile hone⟩
    | none =>
      refine ⟨_, rfl, h.setFile (fun _ => rfl) ?_ ?_, loses_setFile hone⟩
      · rw [File.inodeUse_of_ne (by simp), File.inodeUse_of_ne (by simp [htype])]
      · rw [File.pipeEnd_of_ne (by simp), File.pipeEnd_of_ne (by simp [htype])]

end Xv6.OpenFiles
