import Mathlib.Data.List.Nodup
import Mathlib.Data.List.Perm.Subperm
import Xv6.FileContents

/-!
# Writing and reading within the limits of the log

`writei` and `readi` as operations on byte arrays. A write visits the blocks from its first byte to
its last one and logs each of them, and `log_write` stops at `LOGSIZE - 1` blocks, so what can be
written in one call is bounded by the log as well as by the free blocks of the disk.
-/
namespace Xv6.FileSystem

open Words RedoLog Outcome

variable {fs fs' : Fs} {ip ip' : Dinode} {i j k n off q : Nat} {src : List Byte}

def tDir : BitVec 16 := 1
def tFile : BitVec 16 := 2

/-- The disk has the blocks that inode `i` needs to hold `n` bytes. -/
def Room (fs : Fs) (i n : Nat) : Prop :=
  footprint (blocksOf n) ≤ freeBlocks fs + footprint (blocksOf (fs.dinodes i).size)

/-- The log has entries for `q` blocks of a file, its indirect block, its inode and the bitmap. -/
def LogRoom (fs : Fs) (q : Nat) : Prop := fs.sb.size ≤ bpb ∧ fs.log.lh.length + q + 3 < logSize

theorem cost_le (fs : Fs) (ip : Dinode) : cost fs ip ≤ fs.log.lh.length + 2 := by
  have hmap := @miss_le_one fs.sb.bmapstart fs.log
  have hptr := @miss_le_one (ip.addrs ndirect) fs.log
  rw [cost]
  split <;> omega

/-- A call of `writei` with room on the disk and in the log. -/
theorem writei_returns (h : Consistent fs) (htype : (fs.dinodes i).type ≠ 0) (hlog : Writable fs.log)
    (hoff : off ≤ (fs.dinodes i).size) (hmax : off + src.length ≤ maxfile * bsize)
    (hroom : Room fs i (off + src.length))
    (hlogRoom : LogRoom fs (touched off src.length)) :
    ∃ fs', writei fs i (fs.dinodes i) src off = .ok (fs', fs'.dinodes i, src.length) ∧
      Spliced i fs fs' off src (touched off src.length) := by
  obtain ⟨⟨fs', ip', r⟩, heq, hspliced, hip, hr⟩ := (writei_ends h htype hlog hoff hmax).returns (by
    rintro e (⟨-, hfew⟩ | ⟨-, hfull⟩)
    · simp only [Room] at hroom
      omega
    · have hcost := cost_le fs (fs.dinodes i)
      have hle := hfull hlogRoom.1
      have hlt := hlogRoom.2
      omega)
  dsimp only at hspliced hip hr
  exact ⟨fs', by rw [heq, hip, hr], hspliced⟩

theorem bno_injective {a b : Nat} (ha : a < 2 ^ 32) (hb : b < 2 ^ 32) (h : bno a = bno b) : a = b := by
  have hnat := congrArg BitVec.toNat h
  simp only [bno, BitVec.toNat_ofNat] at hnat
  omega

theorem Consistent.ref_lt (h : Consistent fs) (htype : (fs.dinodes i).type ≠ 0)
    (hk : k < blocksOf (fs.dinodes i).size) :
    ref (fs.dinodes i) fs.data k < 2 ^ 32 :=
  Nat.lt_trans (h.owned.alloc.inside _ _ (h.owned.slot htype hk)).1 h.owned.width

/-- The blocks of a file have different entries in the log. -/
theorem Consistent.logged_injective (h : Consistent fs) (htype : (fs.dinodes i).type ≠ 0)
    (hj : j < blocksOf (fs.dinodes i).size) (hk : k < blocksOf (fs.dinodes i).size)
    (heq : bno (ref (fs.dinodes i) fs.data j) = bno (ref (fs.dinodes i) fs.data k)) : j = k := by
  have hsame := bno_injective (h.ref_lt htype hj) (h.ref_lt htype hk) heq
  have hslot := h.owned.slot htype hj
  rw [hsame] at hslot
  exact congrArg Prod.snd (h.owned.alloc.inj _ _ _ hslot (h.owned.slot htype hk))

/-- A write logs as many blocks as it visits. -/
theorem Spliced.touched_le (h : Spliced i fs fs' off src q) (htype : (fs.dinodes i).type ≠ 0) :
    touched off src.length ≤ fs'.log.lh.length := by
  rw [touched]
  split
  case isTrue => exact Nat.zero_le _
  case isFalse hne =>
    have hsize : (fs'.dinodes i).size = max (fs.dinodes i).size (off + src.length) := by rw [h.inode]
    have htype' : (fs'.dinodes i).type ≠ 0 := by
      rw [h.inode]
      exact htype
    have hhi : blocksOf (off + src.length) ≤ blocksOf (fs'.dinodes i).size :=
      blocksOf_mono (hsize ▸ Nat.le_max_right ..)
    let entries := (List.range' (off / bsize) (blocksOf (off + src.length) - off / bsize)).map
      (fun k => bno (ref (fs'.dinodes i) fs'.data k))
    have hnodup : entries.Nodup := by
      refine List.Nodup.map_on (fun j hj k hk heq => ?_) (List.nodup_range' ..)
      rw [List.mem_range'_1] at hj hk
      exact h.consistent.logged_injective htype' (by omega) (by omega) heq
    have hsub : entries ⊆ fs'.log.lh := by
      intro x hx
      obtain ⟨k, hk, rfl⟩ := List.mem_map.mp hx
      rw [List.mem_range'_1] at hk
      exact h.logged (by omega) k hk.1 (by omega)
    calc blocksOf (off + src.length) - off / bsize = entries.length := by simp [entries]
      _ ≤ fs'.log.lh.length := (List.subperm_of_subset hnodup hsub).length_le

theorem logWrite_bounded (fs : Fs) (hlog : fs.log.size = logSize) (b : Nat) :
    Ends (logWrite fs b) (fun _ => True) (fun r => r.log.size = logSize ∧ r.log.lh.length < logSize) := by
  rw [logWrite]
  cases hres : RedoLog.logWrite fs.log (bno b) with
  | error e => trivial
  | ok l =>
    obtain ⟨hlt, hlt', -, rfl⟩ := logWrite_eq_ok.mp hres
    rw [hlog] at hlt'
    refine ⟨hlog, ?_⟩
    dsimp only
    split
    case isTrue => exact hlt
    case isFalse =>
      rw [List.length_append]
      simp only [List.length_singleton]
      omega

section

variable (hlog : fs.log.size = logSize)
include hlog

theorem balloc_bounded :
    Ends (balloc fs) (fun _ => True) (fun r => r.1.log.size = logSize) := by
  rw [balloc]
  split
  case h_1 => trivial
  case h_2 b _ =>
    exact (logWrite_bounded (setBit fs b true) hlog _).bind fun fs₁ h₁ =>
      (logWrite_bounded (setBlock fs₁ b (fun _ => 0)) h₁.1 b).bind fun fs₂ h₂ => h₂.1

theorem addrAt_bounded (ip : Dinode) (k : Nat) :
    Ends (addrAt fs ip k) (fun _ => True) (fun r => r.1.log.size = logSize) := by
  rw [addrAt]
  split
  case isTrue => exact (balloc_bounded hlog).bind fun _ h => h
  case isFalse => exact hlog

theorem bmap_bounded (ip : Dinode) (bn : Nat) :
    Ends (bmap fs ip bn) (fun _ => True) (fun r => r.1.log.size = logSize) := by
  rw [bmap]
  split
  case isTrue => exact addrAt_bounded hlog ip bn
  case isFalse =>
    split
    case isTrue =>
      refine (addrAt_bounded hlog ip ndirect).bind ?_
      rintro ⟨fs₁, ip₁, ind⟩ h₁
      dsimp only at h₁ ⊢
      split
      case isTrue =>
        refine (balloc_bounded h₁).bind ?_
        rintro ⟨fs₂, b⟩ h₂
        exact (logWrite_bounded (setBlock fs₂ ind (setWord (fs₂.data ind)
          (bn - ndirect) b)) h₂ ind).bind fun _ h₃ => h₃.1
      case isFalse => exact h₁
    case isFalse => trivial

theorem writeLoop_bounded (ip : Dinode) (off : Nat) (src : List Byte) :
    Ends (writeLoop fs ip off src) (fun _ => True)
      (fun r => r.1.log.size = logSize ∧ (0 < src.length ∨ fs.log.lh.length < logSize →
        r.1.log.lh.length < logSize)) := by
  induction hn : src.length using Nat.strong_induction_on generalizing fs ip off src with
  | _ n ih =>
    rw [writeLoop]
    split
    case isFalse hzero => exact ⟨hlog, fun h => h.resolve_left (by omega)⟩
    case isTrue hpos =>
      refine (bmap_bounded hlog ip (off / bsize)).bind ?_
      rintro ⟨fs₁, ip₁, b⟩ h₁
      refine (logWrite_bounded (setBlock fs₁ b (store (fs₁.data b) (off % bsize) (src.take (span off src.length))))
        h₁ b).bind fun fs₂ h₂ => ?_
      have hspan := span_pos off hpos
      have hdrop : (src.drop (span off src.length)).length = src.length - span off src.length :=
        List.length_drop ..
      refine (ih _ (by omega) h₂.1 ip₁ (off + span off src.length) _ hdrop).imp fun r hr => ⟨hr.1, fun _ => ?_⟩
      exact hr.2 (.inr h₂.2)

/-- No write leaves more in the log than `log_write` lets through. -/
theorem writei_bounded (i : Nat) (ip : Dinode) (hpos : 0 < src.length)
    (hoff : off ≤ ip.size) (hmax : off + src.length ≤ maxfile * bsize) :
    Ends (writei fs i ip src off) (fun _ => True) (fun r => r.1.log.lh.length < logSize) := by
  have hsmall : maxfile * bsize < 2 ^ 32 := by decide
  have hmod : (off + src.length) % 2 ^ 32 = off + src.length := Nat.mod_eq_of_lt (by omega)
  rw [writei, hmod, if_neg (by omega), if_neg (by omega)]
  refine (writeLoop_bounded hlog ip off src).bind ?_
  rintro ⟨fs₁, ip₁⟩ h₁
  dsimp only at h₁ ⊢
  split
  case isTrue =>
    exact (logWrite_bounded { fs₁ with
      dinodes := Function.update fs₁.dinodes i { ip₁ with
        size := off + src.length } } h₁.1 _).bind fun _ h₂ => h₂.2
  case isFalse => exact h₁.2 (.inl hpos)

end

/-- A write that visits `LOGSIZE` blocks does not end. -/
theorem writei_too_long (h : Consistent fs) (htype : (fs.dinodes i).type ≠ 0) (hlog : Writable fs.log)
    (hoff : off ≤ (fs.dinodes i).size) (hmax : off + src.length ≤ maxfile * bsize)
    (hroom : Room fs i (off + src.length))
    (hlong : logSize ≤ touched off src.length) : writei fs i (fs.dinodes i) src off = .error tooBig := by
  have hpos : 0 < src.length := by
    by_contra hzero
    have hnil : touched off src.length = 0 := if_pos (by omega)
    simp only [hnil, logSize, maxOpBlocks] at hlong
    omega
  have hends := writei_ends h htype hlog hoff hmax
  have hbound := writei_bounded hlog.1 i (fs.dinodes i) hpos hoff hmax
  cases hres : writei fs i (fs.dinodes i) src off with
  | ok r =>
    have hspliced := (hends.of_ok hres).1
    have hlt := hbound.of_ok hres
    have hle := hspliced.touched_le htype
    omega
  | error e =>
    rcases hends.of_error hres with ⟨-, hfew⟩ | ⟨rfl, -⟩
    · simp only [Room] at hroom
      omega
    · rfl

def Refused (fs : Fs) (i off n : Nat) : Prop :=
  (contents fs i).length < off ∨ 2 ^ 32 ≤ off + n ∨ maxfile * bsize < off + n

structure IsByteArray (fs : Fs) (i off : Nat) (src : List Byte) : Prop where
  refused : ∀ fs' ip', writei fs i (fs.dinodes i) src off = .ok (fs', ip', -1) ↔
    Refused fs i off src.length ∧ fs' = fs ∧ ip' = fs.dinodes i
  written : ¬ Refused fs i off src.length → Writable fs.log → Room fs i (off + src.length) →
    LogRoom fs (touched off src.length) →
    ∃ fs', writei fs i (fs.dinodes i) src off = .ok (fs', fs'.dinodes i, src.length) ∧ Consistent fs' ∧
      contents fs' i = splice (contents fs i) off src ∧
      (fs'.dinodes i).size = max (fs.dinodes i).size (off + src.length) ∧
      ∀ j, j ≠ i → fs'.dinodes j = fs.dinodes j ∧ ((fs.dinodes j).type ≠ 0 → contents fs' j = contents fs j)
  unread : ∀ n < 2 ^ 32, (contents fs i).length < off ∨ 2 ^ 32 ≤ off + n →
    readi fs (fs.dinodes i) off n = .ok (fs, fs.dinodes i, none)
  read : ∀ n < 2 ^ 32, ¬ ((contents fs i).length < off ∨ 2 ^ 32 ≤ off + n) →
    readi fs (fs.dinodes i) off n = .ok (fs, fs.dinodes i, some (((contents fs i).drop off).take n))

theorem wraps {a b : Nat} (ha : a < 2 ^ 32) (hb : b < 2 ^ 32) : (a + b) % 2 ^ 32 < a ↔ 2 ^ 32 ≤ a + b := by
  omega

/-- A `writei` that is not refused returns the number of bytes, if it returns. -/
theorem writei_value {r : Int} (hfirst : ¬(ip.size < off ∨ (off + src.length) % 2 ^ 32 < off))
    (hsecond : ¬ maxfile * bsize < (off + src.length) % 2 ^ 32)
    (h : writei fs i ip src off = .ok (fs', ip', r)) : r = src.length := by
  rw [writei, if_neg hfirst, if_neg hsecond] at h
  obtain ⟨⟨fs₁, ip₁⟩, -, hrest⟩ := bind_eq_ok.mp h
  dsimp only at hrest
  split at hrest
  case isTrue =>
    obtain ⟨fs₂, -, hlast⟩ := bind_eq_ok.mp hrest
    cases hlast
    rfl
  case isFalse =>
    cases hrest
    rfl

/-- Files are byte arrays, as long as a write fits on the disk and in the log. -/
theorem files_are_byte_arrays (h : Consistent fs)
    (htype : (fs.dinodes i).type = tDir ∨ (fs.dinodes i).type = tFile) (hoff : off < 2 ^ 32)
    (hlen : src.length < 2 ^ 32) : IsByteArray fs i off src := by
  have hne : (fs.dinodes i).type ≠ 0 := by
    rcases htype with h | h <;> rw [h] <;> decide
  have hsmall : maxfile * bsize < 2 ^ 32 := by decide
  constructor
  case refused =>
    intro fs' ip'
    constructor
    · intro hrun
      have hbad : Refused fs i off src.length := by
        by_contra hgood
        rw [Refused, length_contents] at hgood
        have hvalue := writei_value (by rw [wraps hoff hlen]; omega) (by omega) hrun
        omega
      have hsame := hrun
      rw [writei_refused (by rw [wraps hoff hlen]; rw [Refused, length_contents] at hbad; omega)] at hsame
      cases hsame
      exact ⟨hbad, rfl, rfl⟩
    · rintro ⟨hbad, rfl, rfl⟩
      rw [Refused, length_contents] at hbad
      refine writei_refused ?_
      rw [wraps hoff hlen]
      omega
  case written =>
    intro hgood hlog hroom hlogRoom
    rw [Refused, length_contents] at hgood
    obtain ⟨fs', heq, hs⟩ := writei_returns h hne hlog (by omega) (by omega) hroom hlogRoom
    exact ⟨fs', heq, hs.consistent, hs.contents, by rw [hs.inode],
      fun j hj => ⟨hs.others j hj, hs.unchanged j hj⟩⟩
  case unread =>
    intro n hn hbad
    rw [length_contents] at hbad
    refine readi_refused ?_
    rwa [wraps hoff hn]
  case read =>
    intro n hn hgood
    rw [length_contents] at hgood
    exact readi_eq h hne (by omega) (by omega)

/-- A disk as `mkfs` lays it out, with the empty file 2 and nothing else. -/
def blank : Fs where
  sb := ⟨1000, 941, 200, 32, 58⟩
  bitmap b := b < 59
  dinodes i := freshInode (if i = 2 then tFile else 0)
  data _ _ := 0
  log := ⟨2, 30, 1, false, []⟩

theorem blank_owner (x : Nat × Nat) : owner blank.dinodes blank.data x = none := by
  refine if_pos (.inr ?_)
  simp [ref, blank, freshInode]

theorem blank_type {i : Nat} (h : (blank.dinodes i).type ≠ 0) : i = 2 := by
  by_contra hne
  exact h (by simp [blank, freshInode, hne])

theorem blank_consistent : Consistent blank := by
  constructor
  case owned =>
    constructor
    case alloc =>
      constructor
      · intro x y b hx
        rw [blank_owner] at hx
        cases hx
      · intro x b hx
        rw [blank_owner] at hx
        cases hx
      · intro b _
        simp only [blank_owner, reduceCtorEq, exists_false, or_false, Metadata]
        simp [blank]
    case small =>
      intro i _
      simp [blank, freshInode, blocksOf, bsize]
    case blocks =>
      intro i _ k hk
      simp [ref, blank, freshInode, blocksOf, bsize]
    case pointer =>
      intro i _
      simp [blank, freshInode, blocksOf, bsize]
    case first => exact Nat.succ_pos 58
    case width => exact show 1000 < 2 ^ 32 by norm_num
  case range =>
    intro i hi
    obtain rfl := blank_type hi
    decide

theorem blank_free : freeBlocks blank = 941 := by decide +kernel

theorem blank_room {n : Nat} (hn : n ≤ maxfile * bsize) : Room blank 2 n := by
  have hblocks : blocksOf n ≤ maxfile := by
    simp only [blocksOf, maxfile, ndirect, nindirect, bsize] at hn ⊢
    omega
  have hle := footprint_le hblocks
  have hmax : footprint maxfile = 141 := by decide
  rw [Room, blank_free]
  omega

theorem blank_writable : Writable blank.log := ⟨rfl, by decide⟩

theorem blank_file : (blank.dinodes 2).type = tFile := by decide

/-- Three bytes are written to an empty file, not behind its end, and nothing is read from it. -/
theorem files_are_byte_arrays_blank :
    (∃ fs', writei blank 2 (blank.dinodes 2) [1, 2, 3] 0 = .ok (fs', fs'.dinodes 2, 3) ∧
      contents fs' 2 = [1, 2, 3]) ∧
    writei blank 2 (blank.dinodes 2) [1, 2, 3] 1 = .ok (blank, blank.dinodes 2, -1) ∧
    readi blank (blank.dinodes 2) 0 5 = .ok (blank, blank.dinodes 2, some []) := by
  have hstart : IsByteArray blank 2 0 [1, 2, 3] :=
    files_are_byte_arrays blank_consistent (.inr blank_file) (by decide) (by decide)
  have hbehind : IsByteArray blank 2 1 [1, 2, 3] :=
    files_are_byte_arrays blank_consistent (.inr blank_file) (by decide) (by decide)
  have hempty : contents blank 2 = [] := by
    rw [← List.length_eq_zero_iff, length_contents]
    rfl
  refine ⟨?_, ?_, ?_⟩
  · obtain ⟨fs', hrun, -, hcontents, -⟩ := hstart.written (by rw [Refused, hempty]; decide)
      blank_writable (blank_room (by decide)) ⟨by decide, by decide⟩
    rw [hempty] at hcontents
    exact ⟨fs', hrun, hcontents⟩
  · exact (hbehind.refused _ _).mpr ⟨.inl (by rw [hempty]; decide), rfl, rfl⟩
  · have hread := hstart.read 5 (by decide) (by rw [hempty]; decide)
    rwa [hempty] at hread

/-- Thirty blocks in one call are too many, although the file may have them and the disk has room.
-/
theorem long_write_panics : ∃ src : List Byte, src.length ≤ maxfile * bsize ∧ Room blank 2 src.length ∧
    writei blank 2 (blank.dinodes 2) src 0 = .error tooBig := by
  refine ⟨List.replicate (30 * 512) 7, by decide +kernel, ?_, ?_⟩
  · exact blank_room (by rw [List.length_replicate]; decide)
  · exact writei_too_long blank_consistent (by rw [blank_file]; decide) blank_writable (Nat.zero_le _)
      (by rw [List.length_replicate]; decide) (blank_room (by rw [List.length_replicate]; decide))
      (by rw [List.length_replicate]; decide)

end Xv6.FileSystem
