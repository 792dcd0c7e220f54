import Xv6.Allocation
import Xv6.FileSystem
import Xv6.Outcome

/-!
# Who owns a block

Slot `k` of an allocated inode owns its file block `k`, and slot `maxfile` the indirect block. In a
well-kept file system no block has two owners, the bitmap marks the metadata and the blocks that
have an owner, and an inode has its first blocks and no others. `inodes` are the inodes as memory
has them, which may be ahead of the disk.
-/
namespace Xv6.FileSystem

open Words Bytes RedoLog Allocation Outcome Function

variable {fs fs' : Fs} {ip ip' : Dinode} {inodes inodes' : Nat → Dinode} {data data' : Nat → Buffer}
  {nblk : Nat → Nat}
  {i j k l b c n off : Nat} {v : Buffer}

theorem word_setWord_same (v : Buffer) (j : Nat) (hb : b < 2 ^ 32) : word (setWord v j b) j = b := by
  rw [word, setWord, getLE_putLE_same]
  exact Nat.mod_eq_of_lt hb

theorem word_setWord_other (v : Buffer) (b : Nat) (hne : k ≠ j) : word (setWord v j b) k = word v k := by
  rw [word, setWord, getLE_putLE_other (by omega), word]

@[simp] theorem word_zero (j : Nat) : word (fun _ => 0) j = 0 := rfl

def ref (ip : Dinode) (data : Nat → Buffer) (k : Nat) : Nat :=
  if k < ndirect then ip.addrs k
  else if k < maxfile then if ip.addrs ndirect = 0 then 0 else word (data (ip.addrs ndirect)) (k - ndirect)
  else if k = maxfile then ip.addrs ndirect
  else 0

def owner (inodes : Nat → Dinode) (data : Nat → Buffer) (x : Nat × Nat) : Option Nat :=
  if (inodes x.1).type = 0 ∨ ref (inodes x.1) data x.2 = 0 then none else some (ref (inodes x.1) data x.2)

theorem owner_eq_some : owner inodes data (i, k) = some b ↔ (inodes i).type ≠ 0 ∧
    ref (inodes i) data k = b ∧ b ≠ 0 := by
  rw [owner]
  split
  case isTrue h =>
    simp only [reduceCtorEq, false_iff]
    rintro ⟨htype, rfl, hb⟩
    exact h.elim htype hb
  case isFalse h =>
    rw [not_or] at h
    rw [Option.some.injEq]
    constructor
    · rintro rfl
      exact ⟨h.1, rfl, h.2⟩
    · rintro ⟨-, hb, -⟩
      exact hb

theorem owner_of_type (h : (inodes i).type = 0) : owner inodes data (i, k) = none := if_pos (.inl h)

theorem ref_direct (hk : k < ndirect) : ref ip data k = ip.addrs k := if_pos hk

theorem ref_pointer : ref ip data maxfile = ip.addrs ndirect := rfl

theorem ref_indirect (hlo : ndirect ≤ k) (hhi : k < maxfile) :
    ref ip data k = if ip.addrs ndirect = 0 then 0 else word (data (ip.addrs ndirect)) (k - ndirect) := by
  rw [ref, if_neg (by omega), if_pos hhi]

/-- A block that is not the indirect block of the inode may change. -/
theorem ref_update (hc : ip.addrs ndirect = 0 ∨ ip.addrs ndirect ≠ c) (k : Nat) :
    ref ip (update data c v) k = ref ip data k := by
  rw [ref, ref]
  rcases hc with hzero | hne
  · simp only [hzero, if_true]
  · rw [update_of_ne hne]

theorem ref_setDirect (hk : k < ndirect) (l : Nat) :
    ref (setAddr ip k b) data l = if l = k then b else ref ip data l := by
  have hne : ndirect ≠ k := by omega
  have hmax : ndirect ≤ maxfile := Nat.le_add_right ..
  simp only [ref, setAddr, update_of_ne hne]
  by_cases hl : l = k
  · simp [hl, hk]
  · simp [hl]

theorem ref_setPointer (hzero : ip.addrs ndirect = 0) (hb : data b = fun _ => 0) (l : Nat) :
    ref (setAddr ip ndirect b) data l = if l = maxfile then b else ref ip data l := by
  simp only [ref, setAddr, update_self, hb, word_zero, hzero]
  by_cases hl : l = maxfile
  · subst hl
    simp [maxfile]
  · by_cases hd : l < ndirect
    · rw [if_pos hd, if_pos hd, if_neg hl, update_of_ne (by omega)]
    · simp [hd, hl]

theorem ref_setWord (hlo : ndirect ≤ k) (hhi : k < maxfile) (hptr : ip.addrs ndirect = c)
    (hc : c ≠ 0) (hb : b < 2 ^ 32)
    (l : Nat) : ref ip (update data c (setWord (data c) (k - ndirect) b)) l =
    if l = k then b else ref ip data l := by
  subst hptr
  simp only [ref, hc, if_false, update_self]
  by_cases hl : l = k
  · subst hl
    rw [if_neg (by omega), if_pos hhi, if_pos rfl, word_setWord_same _ _ hb]
  · rw [if_neg hl]
    by_cases hd : l < ndirect
    · simp [hd]
    · by_cases hm : l < maxfile
      · rw [if_neg hd, if_pos hm, if_neg hd, if_pos hm, word_setWord_other _ _ (by omega)]
      · simp [hd, hm]

def Managed (sb : Superblock) (b : Nat) : Prop := b < sb.size
def Metadata (sb : Superblock) (b : Nat) : Prop := b < sb.size - sb.nblocks

structure Owned (fs : Fs) (inodes : Nat → Dinode) (nblk : Nat → Nat) : Prop where
  alloc : Allocated (Managed fs.sb) (Metadata fs.sb) (owner inodes fs.data) fs.bitmap
  small : ∀ i, (inodes i).type ≠ 0 → nblk i ≤ maxfile
  blocks : ∀ i, (inodes i).type ≠ 0 → ∀ k < maxfile, ref (inodes i) fs.data k ≠ 0 ↔ k < nblk i
  pointer : ∀ i, (inodes i).type ≠ 0 → ((inodes i).addrs ndirect ≠ 0 ↔ ndirect < nblk i)
  first : Metadata fs.sb 0
  width : fs.sb.size < 2 ^ 32

/-- A block that is nobody's indirect block may change. -/
theorem ref_other (hc : ∀ j, owner inodes data (j, maxfile) ≠ some c) (htype : (inodes j).type ≠ 0) (l : Nat) :
    ref (inodes j) (update data c v) l = ref (inodes j) data l := by
  refine ref_update ?_ l
  by_contra hptr
  rw [not_or, not_ne_iff] at hptr
  exact hc j (owner_eq_some.mpr ⟨htype, hptr.2, hptr.2 ▸ hptr.1⟩)

theorem owner_update_data (hc : ∀ j, owner inodes data (j, maxfile) ≠ some c) :
    owner inodes (update data c v) = owner inodes data := by
  funext ⟨j, l⟩
  by_cases htype : (inodes j).type = 0
  · rw [owner_of_type htype, owner_of_type htype]
  · rw [owner, owner, ref_other hc htype]

/-- An inode gets a block for a slot that had none. -/
theorem alloc_place {sb : Superblock} {bitmap : Nat → Bool}
    (h : Allocated (Managed sb) (Metadata sb) (owner inodes data) bitmap) (htype : (inodes i).type ≠ 0)
    (htype' : ip'.type = (inodes i).type) (hb : Managed sb b) (hfree : bitmap b = false) (hpos : b ≠ 0)
    (hk : ref (inodes i) data k = 0) (hself : ∀ l, ref ip' data' l = if l = k then b else ref (inodes i) data l)
    (hothers : ∀ j, j ≠ i → (inodes j).type ≠ 0 → ∀ l, ref (inodes j) data' l = ref (inodes j) data l) :
    Allocated (Managed sb) (Metadata sb) (owner (update inodes i ip') data') (update bitmap b true) := by
  have howner : owner (update inodes i ip') data' = update (owner inodes data) (i, k) (some b) := by
    funext ⟨j, l⟩
    by_cases hj : j = i
    · subst hj
      rw [owner, update_self, htype', hself]
      by_cases hl : l = k
      · subst hl
        rw [if_pos rfl, if_neg (not_or.mpr ⟨htype, hpos⟩), update_self]
      · rw [if_neg hl, update_of_ne (by simpa using hl), owner]
    · rw [update_of_ne (by simp [hj]), owner, owner]
      dsimp only
      rw [update_of_ne hj]
      by_cases hzero : (inodes j).type = 0
      · simp [hzero]
      · rw [hothers j hj hzero l]
  rw [howner]
  exact h.alloc hb hfree (if_pos (.inr hk))

def outOfBlocks : Trap := .panic "balloc: out of blocks"
def tooBig : Trap := .panic "too big a transaction"

/-- The log as `mkfs` lays it out, within a transaction. -/
def Writable (l : Log) : Prop := l.size = logSize ∧ 1 ≤ l.outstanding

def note (l : Log) (b : Nat) : Log := { l with lh := if bno b ∈ l.lh then l.lh else l.lh ++ [bno b] }

def miss (l : Log) (b : Nat) : Nat := if bno b ∈ l.lh then 0 else 1

variable {log : Log}

theorem Writable.note (h : Writable log) (b : Nat) : Writable (note log b) := h

theorem length_note (l : Log) (b : Nat) : (note l b).lh.length = l.lh.length + miss l b := by
  simp only [note, miss]
  split <;> simp

theorem mem_note {x : BlockNo} : x ∈ (note log b).lh ↔ x ∈ log.lh ∨ x = bno b := by
  simp only [note]
  split
  case isTrue h =>
    constructor
    · exact .inl
    · rintro (hx | rfl)
      · exact hx
      · exact h
  case isFalse => simp

@[simp] theorem miss_note_self : miss (note log b) b = 0 := if_pos (mem_note.mpr (.inr rfl))

theorem miss_note_le : miss (note log b) c ≤ miss log c := by
  simp only [miss, mem_note]
  split
  · exact Nat.zero_le _
  · rename_i h
    rw [not_or] at h
    rw [if_neg h.1]

theorem miss_le_one : miss log b ≤ 1 := by
  simp only [miss]
  split <;> omega

theorem logWrite_ends (h : Writable log) (fs : Fs) (hfs : fs.log = log) (b : Nat) :
    Ends (logWrite fs b) (fun e => e = tooBig ∧ logSize - 1 ≤ log.lh.length)
      (fun r => r = { fs with log := note log b }) := by
  subst hfs
  obtain ⟨hsize, hout⟩ := h
  have hpos : 0 < logSize := by decide
  rw [logWrite]
  by_cases hfull : logSize - 1 ≤ fs.log.lh.length
  · rw [RedoLog.logWrite, if_pos (.inr (by rw [hsize]; omega))]
    exact ⟨rfl, hfull⟩
  · rw [(logWrite_eq_ok (b := bno b)).mpr ⟨by omega, by rw [hsize]; omega, hout, rfl⟩]
    rfl

def freeBlocks (fs : Fs) : Nat := ((List.range fs.sb.size).filter (fun b => !fs.bitmap b)).length

structure Taken (fs fs' : Fs) (b : Nat) : Prop where
  managed : Managed fs.sb b
  free : fs.bitmap b = false
  eq : fs' = { fs with
    bitmap := update fs.bitmap b true
    data := update fs.data b (fun _ => 0)
    log := note (note fs.log (bblock fs.sb b)) b }

section

variable (h : Taken fs fs' b)
include h

theorem Taken.sb_eq : fs'.sb = fs.sb := by rw [h.eq]

theorem Taken.dinodes_eq : fs'.dinodes = fs.dinodes := by rw [h.eq]

theorem Taken.bitmap_eq : fs'.bitmap = update fs.bitmap b true := by rw [h.eq]

theorem Taken.data_eq : fs'.data = update fs.data b (fun _ => 0) := by rw [h.eq]

theorem Taken.freeBlocks_eq : freeBlocks fs' + 1 = freeBlocks fs := by
  have hmem : b ∈ (List.range fs.sb.size).filter (fun b => !fs.bitmap b) :=
    List.mem_filter.mpr ⟨List.mem_range.mpr h.managed, by simp [h.free]⟩
  have hnodup : ((List.range fs.sb.size).filter (fun b => !fs.bitmap b)).Nodup := List.nodup_range.filter _
  have herase : (List.range fs.sb.size).filter (fun c => !update fs.bitmap b true c) =
      ((List.range fs.sb.size).filter (fun b => !fs.bitmap b)).erase b := by
    rw [hnodup.erase_eq_filter, List.filter_filter]
    refine List.filter_congr fun c _ => ?_
    by_cases hc : c = b
    · simp [hc]
    · simp [hc]
  rw [h.eq, freeBlocks, freeBlocks, herase, List.length_erase_of_mem hmem]
  have hpos := List.length_pos_of_mem hmem
  omega

end

theorem balloc_ends (hlog : Writable fs.log) :
    Ends (balloc fs)
      (fun e => e = outOfBlocks ∧ freeBlocks fs = 0 ∨
        e = tooBig ∧ ∃ b < fs.sb.size, logSize - 1 ≤ fs.log.lh.length + miss fs.log (bblock fs.sb b))
      (fun r => Taken fs r.1 r.2) := by
  rw [balloc]
  split
  case h_1 hnone =>
    refine .inl ⟨rfl, ?_⟩
    rw [freeBlocks, List.length_eq_zero_iff, List.filter_eq_nil_iff]
    exact List.find?_eq_none.mp hnone
  case h_2 b hsome =>
    have hb : b < fs.sb.size := List.mem_range.mp (List.mem_of_find?_eq_some hsome)
    have hfree : fs.bitmap b = false := by simpa using List.find?_some hsome
    have herr (e : Trap) (l : Log) (hl : logSize - 1 ≤ l.lh.length) (hle : l.lh.length ≤ fs.log.lh.length +
        miss fs.log (bblock fs.sb b)) (he : e = tooBig) : e = outOfBlocks ∧ freeBlocks fs = 0 ∨
          e = tooBig ∧ ∃ b < fs.sb.size, logSize - 1 ≤ fs.log.lh.length + miss fs.log (bblock fs.sb b) :=
      .inr ⟨he, b, hb, by omega⟩
    refine ((logWrite_ends hlog (setBit fs b true) rfl (bblock fs.sb b)).mono
      (fun e he => herr e _ he.2 (Nat.le_add_right ..) he.1) (fun _ h => h)).bind ?_
    rintro _ rfl
    refine ((logWrite_ends (hlog.note _) _ rfl b).mono
      (fun e he => herr e _ he.2 (length_note ..).le he.1) (fun _ h => h)).bind ?_
    rintro _ rfl
    exact ⟨hb, hfree, rfl⟩

end Xv6.FileSystem
