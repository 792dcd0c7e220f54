import Xv6.FileBooks

/-!
# New files and pipes

`sys_open` and `pipealloc` fill in structures that `filealloc` handed out, and the log says so. A
failing `pipealloc` gives back the structures it has.
-/
namespace Xv6.OpenFiles

open Pointers Function

variable {fs fs' : Files} {f f0 f1 g : Fin nfile} {page n : Nat}

/-- `sys_open` fills in a structure that is not in use yet. -/
theorem setInode_ok (h : Books fs) (htype : (fs.ftable f).type = .none)
    (href : 0 < (fs.ftable f).ref) (ip omode : Nat) :
    Books (setInode fs f ip omode) ∧ Gains fs (setInode fs f ip omode) [] := by
  refine ⟨?_, keeps_setFile rfl⟩
  have hfresh := h.fresh (e := .opened (fs.log.length, ip)) rfl
  constructor
  case idle => exact idle_update h.idle (fun hzero => absurd hzero href.ne')
  case past => exact past_cons h.past (Nat.le_refl _)
  case opened =>
    intro y
    have hy := h.opened y
    simp only [setInode, List.count_cons, beq_iff_eq, Event.opened.injEq]
    split
    case isTrue heq =>
      subst heq
      omega
    case isFalse => exact hy
  case piped => simpa [setInode, List.count_cons] using h.piped
  case inode =>
    intro y
    have hy := h.inode y
    have hnew := pointers_update (inodes fs.ftable) f (some (fs.log.length, ip)) y
    have huse : inodes fs.ftable f = none := File.inodeUse_of_ne (by simp [htype])
    simp only [huse, reduceCtorEq, if_false, Nat.add_zero, Option.some.injEq] at hnew
    dsimp only [setInode, Files.setFile_ftable]
    rw [inodes_update, show File.inodeUse (inodeFile (fs.ftable f) ip omode fs.log.length) = some
      (fs.log.length, ip) from
      if_pos rfl, hnew]
    simp only [List.count_cons, beq_iff_eq, Event.opened.injEq, reduceCtorEq, if_false]
    omega
  case page => simpa [setInode, List.count_cons] using h.page
  case ends =>
    dsimp only [setInode, Files.setFile_ftable, Files.setFile_pipes]
    rw [ends_same]
    · exact h.ends
    · rw [File.pipeEnd_of_ne (by simp [inodeFile]), File.pipeEnd_of_ne (by simp [htype])]
  case used => exact h.used
  case nodup => exact h.nodup
  case free => exact h.free

/-- The ends of a new pipe. -/
theorem ends_newPipe (h : Books fs) (hpage : fs.pipes page = none) (hne : f0 ≠ f1)
    (htype0 : (fs.ftable f0).type = .none)
    (htype1 : (fs.ftable f1).type = .none) {v0 v1 : File} (hv0 : v0.pipeEnd = some ((n, page), false))
    (hv1 : v1.pipeEnd = some ((n, page), true)) (y : Use) (w : Bool) :
    pointers (ends (update (update fs.ftable f0 v0) f1 v1)) (y, w) =
      (openAt (update fs.pipes page (some ⟨true, true, n⟩)) y w).toNat := by
  have hold := h.ends y w
  have hnew0 := pointers_update (ends fs.ftable) f0 v0.pipeEnd (y, w)
  have hnew1 := pointers_update (update (ends fs.ftable) f0 v0.pipeEnd) f1 v1.pipeEnd (y, w)
  have hend0 : ends fs.ftable f0 = none := File.pipeEnd_of_ne (by simp [htype0])
  have hend1 : ends fs.ftable f1 = none := File.pipeEnd_of_ne (by simp [htype1])
  rw [update_of_ne hne.symm, hend1, hv1] at hnew1
  rw [hend0] at hnew0
  rw [ends_update, ends_update, hv1]
  obtain ⟨n', page'⟩ := y
  by_cases hy : page' = page
  · subst hy
    rw [show openAt fs.pipes (n', page') w = false by simp [openAt, hpage]] at hold
    by_cases hn : n = n'
    · subst hn
      cases w <;> simp_all [openAt, Pipe.isOpen]
    · simp_all [openAt]
  · rw [openAt_of_ne hy]
    simp_all [Ne.symm hy]

theorem newPipe_ok (h : Books fs) (hpage : fs.pipes page = none) (hfree : page ∉ fs.free) (hne : f0 ≠ f1)
    (htype0 : (fs.ftable f0).type = .none) (htype1 : (fs.ftable f1).type = .none) (href0 : 0 < (fs.ftable f0).ref)
    (href1 : 0 < (fs.ftable f1).ref) : Books (newPipe fs page f0 f1) ∧ Gains fs (newPipe fs page f0 f1) [] := by
  have htable : (newPipe fs page f0 f1).ftable = update (update fs.ftable f0
      (pipeFile (fs.ftable f0) page fs.log.length false)) f1
        (pipeFile (fs.ftable f1) page fs.log.length true) := by
    simp only [newPipe, Files.setFile_ftable, update_of_ne hne.symm]
  have hlog : (newPipe fs page f0 f1).log = .piped (fs.log.length, page) :: fs.log := rfl
  have hpipes : (newPipe fs page f0 f1).pipes = update fs.pipes page (some ⟨true, true, fs.log.length⟩) := rfl
  constructor
  · have hfresh := h.fresh (e := .piped (fs.log.length, page)) rfl
    have hfresh' := h.fresh (e := .krelease (fs.log.length, page)) rfl
    constructor
    case idle =>
      rw [htable]
      exact idle_update (idle_update h.idle (fun hzero => absurd hzero href0.ne'))
        (fun hzero => absurd hzero href1.ne')
    case past => exact past_cons h.past (Nat.le_refl _)
    case opened => simpa [hlog, List.count_cons] using h.opened
    case piped =>
      intro y
      have hy := h.piped y
      simp only [hlog, List.count_cons, beq_iff_eq, Event.piped.injEq]
      split
      case isTrue heq =>
        subst heq
        omega
      case isFalse => exact hy
    case inode =>
      rw [htable, hlog, inodes_same, inodes_same]
      · simpa [List.count_cons] using h.inode
      · rw [File.inodeUse_of_ne (by simp [pipeFile]), File.inodeUse_of_ne (by simp [htype0])]
      · rw [update_of_ne hne.symm, File.inodeUse_of_ne (by simp [pipeFile]),
          File.inodeUse_of_ne (by simp [htype1])]
    case page =>
      rintro ⟨n, page'⟩
      have hy := h.page (n, page')
      rw [hlog, hpipes]
      by_cases hp : page' = page
      · subst hp
        rw [show holds fs.pipes (n, page') = false by simp [holds, hpage]] at hy
        by_cases hn : fs.log.length = n
        · subst hn
          simp [holds, hfresh, hfresh']
        · simpa [List.count_cons, holds, hn] using hy
      · rw [holds_of_ne hp]
        simpa [List.count_cons, Ne.symm hp] using hy
    case ends =>
      rw [htable, hpipes]
      exact ends_newPipe h hpage hne htype0 htype1 (if_pos rfl) (if_pos rfl)
    case used =>
      intro page' q hq
      rw [hpipes] at hq
      by_cases hp : page' = page
      · rw [hp, update_self] at hq
        obtain rfl := Option.some.inj hq
        exact .inl rfl
      · rw [update_of_ne hp] at hq
        exact h.used page' q hq
    case nodup => exact h.nodup
    case free =>
      intro page' hmem
      have hp : page' ≠ page := by
        rintro rfl
        exact hfree hmem
      rw [hpipes, update_of_ne hp]
      exact h.free page' hmem
  · intro g
    rw [htable, update_apply, update_apply]
    split
    case isTrue hg => simp [hg, pipeFile]
    case isFalse =>
      split
      case isTrue hg => simp [hg, pipeFile]
      case isFalse => simp

theorem kalloc_ok (h : Books fs) (hrun : kalloc fs = some (fs', page)) :
    Books fs' ∧ fs'.ftable = fs.ftable ∧ fs'.pipes page = none ∧ page ∉ fs'.free := by
  rw [kalloc] at hrun
  split at hrun
  case h_1 => cases hrun
  case h_2 page free hfree =>
    cases hrun
    have hnodup := h.nodup
    rw [hfree, List.nodup_cons] at hnodup
    exact ⟨{ h with nodup := hnodup.2, free := fun page' hmem => h.free page' (by simp [hfree, hmem]) }, rfl,
      h.free page (by simp [hfree]), hnodup.1⟩

/-- `pipealloc` makes two references and a pipe, or leaves all references as they are. -/
theorem pipealloc_ok (h : Books fs) :
    ∃ fs' r, pipealloc fs = .ok (fs', r) ∧ Books fs' ∧ Gains fs fs' (r.elim [] (fun r => [r.1, r.2])) := by
  rw [pipealloc]
  split
  case h_1 => exact ⟨_, _, rfl, h, fun g => rfl⟩
  case h_2 fs₁ f0 hrun₁ =>
    have h₁ := filealloc_ok h hrun₁
    split
    case h_1 =>
      obtain ⟨fs₂, hclose, h₂, hlost⟩ := fileclose_ok h₁.books h₁.ref
      refine ⟨fs₂, none, by rw [hclose]; rfl, h₂, fun g => ?_⟩
      have hgain := h₁.gains g
      rw [hlost g] at hgain
      rw [Option.elim_none, List.count_nil]
      omega
    case h_2 fs₂ f1 hrun₂ =>
      have h₂ := filealloc_ok h₁.books hrun₂
      have hne : f0 ≠ f1 := by
        rintro rfl
        exact h₁.ref.ne' h₂.unused
      have hkept := h₂.others f0 hne
      split
      case h_1 =>
        obtain ⟨fs₃, hclose₃, h₃, hlost₃⟩ := fileclose_ok h₂.books (f := f0) (by rw [hkept]; exact h₁.ref)
        have href₃ : 0 < (fs₃.ftable f1).ref := by
          have href := h₂.ref
          rw [hlost₃ f1, List.count_singleton, if_neg (by simpa using hne)] at href
          exact href
        obtain ⟨fs₄, hclose₄, h₄, hlost₄⟩ := fileclose_ok h₃ href₃
        refine ⟨fs₄, none, by rw [hclose₃]; dsimp only [bind, Except.bind]; rw [hclose₄], h₄, fun g => ?_⟩
        have hgain := (h₁.gains.trans h₂.gains) g
        rw [hlost₃ g, hlost₄ g, List.count_append] at hgain
        rw [Option.elim_none, List.count_nil]
        omega
      case h_2 fs₃ page hrun₃ =>
        obtain ⟨h₃, htable, hpage, hfree⟩ := kalloc_ok h₂.books hrun₃
        obtain ⟨h₄, hgain⟩ := newPipe_ok h₃ hpage hfree hne (by rw [htable, hkept]; exact h₁.type)
          (by rw [htable]; exact h₂.type) (by rw [htable, hkept]; exact h₁.ref) (by rw [htable]; exact h₂.ref)
        refine ⟨_, _, rfl, h₄, fun g => ?_⟩
        have hgain₂ := (h₁.gains.trans h₂.gains) g
        rw [hgain g, htable, hgain₂]
        simp

end Xv6.OpenFiles
