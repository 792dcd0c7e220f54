import Xv6.Interleaving
import Xv6.Truncate

/-!
# Runs of file operations

Calls of `ialloc`, `readi`, `writei`, `itrunc`, `iupdate` and of the part of `iput` that frees an
inode, one after another, each on an inode as `ilock` reads it. A call that panics ends the run. The
file system stays consistent, so a block of the data area is free or belongs to one file, and the
counts say so.
-/
namespace Xv6.FileSystem

open Words RedoLog Interleaving Function

variable {fs fs' : Fs} {ip : Dinode} {i b n off : Nat} {src : List Byte}

def allHeld (fs : Fs) : List Nat :=
  (List.range fs.sb.ninodes).flatMap fun i => if (fs.dinodes i).type = 0 then [] else held (fs.dinodes i) fs.data

def usedBlocks (fs : Fs) : Nat :=
  ((List.range fs.sb.ninodes).map fun i =>
    if (fs.dinodes i).type = 0 then 0 else footprint (blocksOf (fs.dinodes i).size)).sum

theorem owner_iff_held : (∃ k, owner fs.dinodes fs.data (i, k) = some b) ↔
    (fs.dinodes i).type ≠ 0 ∧ b ∈ held (fs.dinodes i) fs.data := by
  constructor
  · rintro ⟨k, hk⟩
    obtain ⟨htype, rfl, hne⟩ := owner_eq_some.mp hk
    refine ⟨htype, List.mem_map_of_mem (mem_slots.mpr ⟨?_, hne⟩)⟩
    by_contra hlt
    exact hne (ref_beyond (Nat.lt_of_not_le hlt))
  · rintro ⟨htype, hb⟩
    obtain ⟨k, hk, rfl⟩ := List.mem_map.mp hb
    exact ⟨k, owner_eq_some.mpr ⟨htype, rfl, (mem_slots.mp hk).2⟩⟩

section
variable (h : Consistent fs)
include h

theorem Consistent.mem_allHeld : b ∈ allHeld fs ↔ ∃ x, owner fs.dinodes fs.data x = some b := by
  have howner : (∃ x, owner fs.dinodes fs.data x = some b) ↔
      ∃ i, (fs.dinodes i).type ≠ 0 ∧ b ∈ held (fs.dinodes i) fs.data := by
    simp only [Prod.exists, owner_iff_held]
  rw [howner, allHeld, List.mem_flatMap]
  constructor
  · rintro ⟨i, -, hb⟩
    split at hb
    · cases hb
    · exact ⟨i, ‹_›, hb⟩
  · rintro ⟨i, htype, hb⟩
    exact ⟨i, List.mem_range.mpr (h.range i htype).2, by rwa [if_neg htype]⟩

theorem Consistent.allHeld_nodup : (allHeld fs).Nodup := by
  rw [allHeld, List.nodup_flatMap]
  constructor
  · intro i _
    split
    · exact List.nodup_nil
    · exact h.held_nodup ‹_›
  · refine List.nodup_range.imp_of_mem fun {i j} _ _ hne => ?_
    intro b hi hj
    dsimp only at hi hj
    split at hi
    · cases hi
    split at hj
    · cases hj
    obtain ⟨k, hk⟩ := owner_iff_held.mpr ⟨‹_›, hi⟩
    obtain ⟨l, hl⟩ := owner_iff_held.mpr ⟨‹_›, hj⟩
    exact hne (Prod.mk.inj (h.owned.alloc.inj _ _ _ hk hl)).1

theorem Consistent.length_allHeld : (allHeld fs).length = usedBlocks fs := by
  rw [allHeld, List.length_flatMap, usedBlocks]
  refine congrArg List.sum (List.map_congr_left fun i _ => ?_)
  split
  · rfl
  · exact h.length_held ‹_›

/-- The blocks marked in the bitmap are the metadata and the blocks of files. -/
theorem Consistent.marked_perm :
    ((List.range fs.sb.size).filter fs.bitmap).Perm (List.range (fs.sb.size - fs.sb.nblocks) ++ allHeld fs) := by
  have hinside (b : Nat) (hb : b ∈ allHeld fs) : b < fs.sb.size ∧ ¬ b < fs.sb.size - fs.sb.nblocks := by
    obtain ⟨x, hx⟩ := h.mem_allHeld.mp hb
    exact h.owned.alloc.inside x b hx
  refine (List.perm_ext_iff_of_nodup (List.nodup_range.filter _) ?_).mpr fun b => ?_
  · refine List.Nodup.append List.nodup_range h.allHeld_nodup fun b hb hheld => ?_
    exact (hinside b hheld).2 (List.mem_range.mp hb)
  · rw [List.mem_filter, List.mem_append, List.mem_range, List.mem_range]
    constructor
    · rintro ⟨hlt, hbit⟩
      exact ((h.owned.alloc.used_iff b hlt).mp hbit).imp_right h.mem_allHeld.mpr
    · intro hb
      have hlt : b < fs.sb.size := by
        rcases hb with hb | hb
        · omega
        · exact (hinside b hb).1
      exact ⟨hlt, (h.owned.alloc.used_iff b hlt).mpr (hb.imp_right h.mem_allHeld.mp)⟩

theorem Consistent.blocks_counted : fs.sb.size - fs.sb.nblocks + usedBlocks fs + freeBlocks fs = fs.sb.size := by
  have hmarked := h.marked_perm.length_eq
  have hsplit := List.length_eq_length_filter_add (l := List.range fs.sb.size) fs.bitmap
  rw [List.length_append, List.length_range, h.length_allHeld] at hmarked
  rw [List.length_range, hmarked] at hsplit
  exact hsplit.symm

end

def tDev : BitVec 16 := 3

def OnDisk (ip : Dinode) : Prop := ip.type ≠ 0 ∧ ip.type ≠ tDev

inductive Call where
  | ialloc (type : BitVec 16)
  | readi (i off n : Nat)
  | writei (i : Nat) (src : List Byte) (off : Nat)
  | itrunc (i : Nat)
  | ifree (i : Nat)
  | iupdate (i : Nat) (major minor nlink : BitVec 16)
  | commit

inductive Step : Fs → Call → Fs → Prop
  | ialloc {fs fs' : Fs} {type : BitVec 16} {i : Nat} (htype : type ≠ 0) (h : ialloc fs type = .ok (fs', i)) :
      Step fs (.ialloc type) fs'
  | readi {fs fs' : Fs} {ip : Dinode} {i off n : Nat} {r : Option (List Byte)}
      (htype : OnDisk (fs.dinodes i)) (hn : n < 2 ^ 32)
      (h : readi fs (fs.dinodes i) off n = .ok (fs', ip, r)) : Step fs (.readi i off n) fs'
  | writei {fs fs' : Fs} {ip : Dinode} {i off : Nat} {src : List Byte} {r : Int} (htype : OnDisk (fs.dinodes i))
      (hn : src.length < 2 ^ 32) (h : writei fs i (fs.dinodes i) src off = .ok (fs', ip, r)) :
      Step fs (.writei i src off) fs'
  | itrunc {fs fs' : Fs} {ip : Dinode} {i : Nat} (htype : (fs.dinodes i).type ≠ 0)
      (h : itrunc fs i (fs.dinodes i) = .ok (fs', ip)) : Step fs (.itrunc i) fs'
  | ifree {fs fs' : Fs} {i : Nat} (htype : (fs.dinodes i).type ≠ 0) (h : ifree fs i (fs.dinodes i) = .ok fs') :
      Step fs (.ifree i) fs'
  | iupdate {fs fs' : Fs} {i : Nat} {major minor nlink : BitVec 16} (htype : (fs.dinodes i).type ≠ 0)
      (h : iupdate fs i { fs.dinodes i with major := major, minor := minor, nlink := nlink } = .ok fs') :
      Step fs (.iupdate i major minor nlink) fs'
  | commit {fs : Fs} : Step fs .commit { fs with log := { fs.log with lh := [] } }

/-- Every consistent file system within a transaction is a first state. -/
def files : System Fs Call := ⟨fun fs => Consistent fs ∧ Writable fs.log, Step⟩

/-- The fields of an inode that say nothing about its blocks. -/
theorem Consistent.relink (h : Consistent fs) (htype : ip.type = (fs.dinodes i).type)
    (hsize : ip.size = (fs.dinodes i).size)
    (haddrs : ip.addrs = (fs.dinodes i).addrs) (log : Log) :
    Consistent { fs with dinodes := update fs.dinodes i ip, log := log } := by
  have hsame : ∀ j, (update fs.dinodes i ip j).type = (fs.dinodes j).type ∧
      (update fs.dinodes i ip j).addrs = (fs.dinodes j).addrs ∧
      (update fs.dinodes i ip j).size = (fs.dinodes j).size :=
    (forall_update_iff fs.dinodes (p := fun j ip => ip.type = (fs.dinodes j).type ∧
      ip.addrs = (fs.dinodes j).addrs ∧
      ip.size = (fs.dinodes j).size)).mpr ⟨⟨htype, haddrs, hsize⟩, fun _ _ => ⟨rfl, rfl, rfl⟩⟩
  constructor
  case owned =>
    exact h.owned.congr rfl rfl rfl (fun j => ⟨(hsame j).1, (hsame j).2.1⟩)
      fun j => congrArg blocksOf (hsame j).2.2
  case range => exact fun j hj => h.range j ((hsame j).1 ▸ hj)

theorem readi_same (h : Consistent fs) (htype : (fs.dinodes i).type ≠ 0) (hn : n < 2 ^ 32)
    {r : Fs × Dinode × Option (List Byte)}
    (hread : readi fs (fs.dinodes i) off n = .ok r) : r.1 = fs := by
  have hsize := h.size_le htype
  have hsmall : maxfile * bsize < 2 ^ 32 := by decide
  by_cases hbad : (fs.dinodes i).size < off ∨ (off + n) % 2 ^ 32 < off
  · rw [readi_refused hbad] at hread
    cases hread
    rfl
  · rw [readi_eq h htype (by omega) (by omega)] at hread
    cases hread
    rfl

theorem writei_cases (h : Consistent fs) (htype : (fs.dinodes i).type ≠ 0) (hlog : Writable fs.log)
    (hn : src.length < 2 ^ 32)
    {r : Fs × Dinode × Int} (hwrite : writei fs i (fs.dinodes i) src off = .ok r) :
    r.1 = fs ∨ Spliced i fs r.1 off src (touched off src.length) := by
  have hsize := h.size_le htype
  have hsmall : maxfile * bsize < 2 ^ 32 := by decide
  by_cases hbad : (fs.dinodes i).size < off ∨ (off + src.length) % 2 ^ 32 < off ∨ maxfile * bsize <
    (off + src.length) % 2 ^ 32
  · rw [writei_refused hbad] at hwrite
    cases hwrite
    exact .inl rfl
  · exact .inr ((writei_ends h htype hlog (by omega) (by omega)).of_ok hwrite).1

theorem step_kept {c : Call} (h : Consistent fs) (hlog : Writable fs.log) (hs : Step fs c fs') :
    Consistent fs' ∧ Writable fs'.log := by
  cases hs with
  | ialloc htype hcall =>
    have hmade := (ialloc_ends h hlog).of_ok hcall
    dsimp only at hmade
    refine ⟨hmade.consistent, ?_⟩
    rw [hmade.eq]
    exact hlog.note _
  | readi htype hn hcall =>
    obtain rfl := readi_same h htype.1 hn hcall
    exact ⟨h, hlog⟩
  | writei htype hn hcall =>
    rcases writei_cases h htype.1 hlog hn hcall with hsame | hspliced
    · dsimp only at hsame
      subst hsame
      exact ⟨h, hlog⟩
    · exact ⟨hspliced.consistent, hspliced.logs.writable hlog⟩
  | itrunc htype hcall =>
    have hreleased := ((itrunc_ends h htype hlog).of_ok hcall).1
    exact ⟨hreleased.consistent, hreleased.logs.writable hlog⟩
  | ifree htype hcall =>
    have hreleased := (ifree_ends h htype hlog).of_ok hcall
    exact ⟨hreleased.consistent, hreleased.logs.writable hlog⟩
  | iupdate htype hcall =>
    have heq := (iupdate_ends hlog _ _).of_ok hcall
    rw [heq]
    refine ⟨h.relink ?_ ?_ ?_ _, hlog.note _⟩ <;> rfl
  | commit =>
    have hsame : Consistent { fs with
        dinodes := update fs.dinodes 0 (fs.dinodes 0), log := { fs.log with lh := [] } } :=
      h.relink rfl rfl rfl _
    rw [update_eq_self] at hsame
    exact ⟨hsame, hlog⟩

theorem files_kept (hr : Reachable files fs) : Consistent fs ∧ Writable fs.log :=
  hr.invariant (fun _ h => h) fun _ _ _ hI hs => step_kept hI.1 hI.2 hs

/-- In every run no block has two owners, every block of the data area is free or in one file, and
no call frees a free block. -/
theorem blocks_conserved (fs : Fs) (hr : Reachable files fs) :
    (∀ x y b, owner fs.dinodes fs.data x = some b → owner fs.dinodes fs.data y = some b → x = y) ∧
      (∀ b, fs.sb.size - fs.sb.nblocks ≤ b → b < fs.sb.size →
        (fs.bitmap b = true ↔ ∃ x, owner fs.dinodes fs.data x = some b)) ∧
      fs.sb.size - fs.sb.nblocks + usedBlocks fs + freeBlocks fs = fs.sb.size ∧
      ∀ i, (fs.dinodes i).type ≠ 0 → itrunc fs i (fs.dinodes i) ≠ .error (.panic "freeing free block") := by
  obtain ⟨h, hlog⟩ := files_kept hr
  refine ⟨h.owned.alloc.inj, fun b hlo hhi => ?_, h.blocks_counted, fun i htype herror => ?_⟩
  · rw [h.owned.alloc.used_iff b hhi]
    exact or_iff_right (Nat.not_lt.mpr hlo)
  · exact absurd ((itrunc_ends h htype hlog).of_error herror) (by decide)

theorem blocks_conserved_blank : ∃ fs, Reachable files fs ∧ contents fs 2 = [1, 2, 3] ∧
    59 + usedBlocks fs + freeBlocks fs = 1000 := by
  obtain ⟨fs, hwrite, hspliced⟩ : ∃ fs, writei blank 2 (blank.dinodes 2) [1, 2, 3] 0 = .ok (fs, fs.dinodes 2, 3) ∧
      Spliced 2 blank fs 0 [1, 2, 3] (touched 0 3) :=
    writei_returns blank_consistent (by rw [blank_file]; decide) blank_writable (Nat.zero_le _) (by decide)
      (blank_room (by decide)) ⟨by decide, by decide⟩
  have hr : Reachable files fs := Reachable.next (Reach.init ⟨blank_consistent, blank_writable⟩)
    (Step.writei (by rw [OnDisk, blank_file]; decide) (by decide) hwrite)
  have hsize := (blocks_conserved fs hr).2.2.1
  rw [hspliced.sb] at hsize
  exact ⟨fs, hr, hspliced.contents, hsize⟩

end Xv6.FileSystem
