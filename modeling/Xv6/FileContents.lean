import Xv6.FileBytes

/-!
# Files are byte arrays

In a consistent file system an inode of size `s` has the blocks that `s` bytes need, and its
contents are their first `s` bytes. `writei` puts the bytes it is given into the contents at its
offset and keeps the file system consistent; `readi` returns bytes of the contents.
-/
namespace Xv6.FileSystem

open Words RedoLog Outcome Function

variable {fs fs' : Fs} {ip ip' : Dinode} {nblk : Nat → Nat} {i j n off pos q : Nat} {src : List Byte}

/-- The file system between operations: memory and disk agree on the inodes. -/
structure Consistent (fs : Fs) : Prop where
  owned : Owned fs fs.dinodes (fun i => blocksOf (fs.dinodes i).size)
  range : ∀ i, (fs.dinodes i).type ≠ 0 → 0 < i ∧ i < fs.sb.ninodes

def contents (fs : Fs) (i : Nat) : List Byte :=
  (List.range (fs.dinodes i).size).map (byteAt (fs.dinodes i) fs.data)

@[simp] theorem length_contents : (contents fs i).length = (fs.dinodes i).size := by simp [contents]

def splice (c : List Byte) (off : Nat) (src : List Byte) : List Byte := c.take off ++ src ++
    c.drop (off + src.length)

theorem map_patched {f g : Nat → Byte} (hoff : off ≤ n) (h : ∀ pos < max n (off + src.length),
    g pos = patched f off src pos) :
    (List.range (max n (off + src.length))).map g = splice ((List.range n).map f) off src := by
  apply List.ext_getElem
  · simp [splice]
    omega
  · intro pos h₁ h₂
    have hpos : pos < max n (off + src.length) := by simpa using h₁
    rw [List.getElem_map, List.getElem_range, h pos hpos, patched]
    simp only [splice, List.getElem_append, List.length_append, List.length_take, List.length_map,
      List.length_range]
    by_cases hlo : off ≤ pos
    · by_cases hhi : pos < off + src.length
      · rw [if_pos ⟨hlo, hhi⟩, dif_pos (by omega), dif_neg (by omega), List.getD_eq_getElem?_getD,
          List.getElem?_eq_getElem (by omega), Option.getD_some]
        congr 1
        omega
      · rw [if_neg (fun hcon => hhi hcon.2), dif_neg (by omega), List.getElem_drop,
          List.getElem_map, List.getElem_range]
        congr 1
        omega
    · rw [if_neg (fun hcon => hlo hcon.1), dif_pos (by omega), dif_pos (by omega),
        List.getElem_take, List.getElem_map,
        List.getElem_range]

theorem blocksOf_max (a b : Nat) : blocksOf (max a b) = max (blocksOf a) (blocksOf b) := by
  rcases Nat.le_total a b with hle | hle
  · rw [Nat.max_eq_right hle, Nat.max_eq_right (blocksOf_mono hle)]
  · rw [Nat.max_eq_left hle, Nat.max_eq_left (blocksOf_mono hle)]

theorem Consistent.view (h : Consistent fs) (i : Nat) :
    Owned fs (view fs i (fs.dinodes i)) (fun i => blocksOf (fs.dinodes i).size) := by
  rw [FileSystem.view, update_eq_self]
  exact h.owned

theorem Consistent.size_le (h : Consistent fs) (htype : (fs.dinodes i).type ≠ 0) :
    (fs.dinodes i).size ≤ maxfile * bsize := by
  have hle := le_blocksOf (fs.dinodes i).size
  have hmul := Nat.mul_le_mul_right bsize (h.owned.small i htype)
  exact hle.trans hmul

theorem map_contents (hle : off + n ≤ (fs.dinodes i).size) :
    (List.range n).map (fun t => byteAt (fs.dinodes i) fs.data (off + t)) = ((contents fs i).drop off).take n := by
  apply List.ext_getElem
  · simp
    omega
  · intro t h₁ h₂
    simp [contents]

theorem readi_eq (h : Consistent fs) (htype : (fs.dinodes i).type ≠ 0) (hoff : off ≤ (fs.dinodes i).size)
    (hwrap : off + n < 2 ^ 32) : readi fs (fs.dinodes i) off n =
      .ok (fs, fs.dinodes i, some (((contents fs i).drop off).take n)) := by
  have hmod : (off + n) % 2 ^ 32 = off + n := Nat.mod_eq_of_lt hwrap
  have hblocks := le_blocksOf (fs.dinodes i).size
  rw [readi, hmod, if_neg (by omega)]
  dsimp only
  split
  case isTrue hlong =>
    rw [readLoop_eq (h.view i) htype
      (show off + ((fs.dinodes i).size - off) ≤ blocksOf (fs.dinodes i).size * bsize by omega),
      ok_bind, map_contents (by omega)]
    have hlen : (contents fs i).drop off = ((contents fs i).drop off).take n := by
      rw [List.take_of_length_le]
      simp
      omega
    rw [← hlen, List.take_of_length_le (by simp)]
  case isFalse hshort =>
    rw [readLoop_eq (h.view i) htype (show off + n ≤ blocksOf (fs.dinodes i).size * bsize by omega), ok_bind,
      map_contents (by omega)]

theorem readi_refused (hbad : (fs.dinodes i).size < off ∨ (off + n) % 2 ^ 32 < off) :
    readi fs (fs.dinodes i) off n = .ok (fs, fs.dinodes i, none) := if_pos hbad

/-- What an accepted `writei` does to inode `i`, with at most `q` blocks visited. -/
structure Spliced (i : Nat) (fs fs' : Fs) (off : Nat) (src : List Byte) (q : Nat) : Prop where
  consistent : Consistent fs'
  sb : fs'.sb = fs.sb
  inode : fs'.dinodes i = { fs.dinodes i with
    size := max (fs.dinodes i).size (off + src.length), addrs := (fs'.dinodes i).addrs }
  contents : contents fs' i = splice (contents fs i) off src
  others : ∀ j, j ≠ i → fs'.dinodes j = fs.dinodes j
  unchanged : ∀ j, j ≠ i → (fs.dinodes j).type ≠ 0 → FileSystem.contents fs' j = FileSystem.contents fs j
  logs : Logs fs.log fs'.log
  logged : 0 < src.length → ∀ k, off / bsize ≤ k → k < blocksOf (off + src.length) →
    bno (ref (fs'.dinodes i) fs'.data k) ∈ fs'.log.lh
  length_log : fs.sb.size ≤ bpb → fs'.log.lh.length ≤ cost fs (fs.dinodes i) + q + 1
  free : freeBlocks fs + footprint (blocksOf (fs.dinodes i).size) =
    freeBlocks fs' + footprint (blocksOf (fs'.dinodes i).size)

/-- Sizes, link counts and the log do not matter to the owners. -/
theorem Owned.congr {inodes inodes' : Nat → Dinode} {nblk nblk' : Nat → Nat} (h : Owned fs inodes nblk)
    (hsb : fs'.sb = fs.sb) (hdata : fs'.data = fs.data) (hbitmap : fs'.bitmap = fs.bitmap)
    (hinodes : ∀ j, (inodes' j).type = (inodes j).type ∧ (inodes' j).addrs = (inodes j).addrs)
    (hnblk : ∀ j, nblk' j = nblk j) :
    Owned fs' inodes' nblk' := by
  have href (j k : Nat) : ref (inodes' j) fs'.data k = ref (inodes j) fs.data k := by
    simp only [ref, (hinodes j).2, hdata]
  have howner : owner inodes' fs'.data = owner inodes fs.data := by
    funext x
    obtain ⟨j, k⟩ := x
    rw [owner, owner, href, (hinodes j).1]
  constructor
  case alloc =>
    rw [howner, hsb, hbitmap]
    exact h.alloc
  case small =>
    intro j hj
    rw [hnblk]
    exact h.small j ((hinodes j).1 ▸ hj)
  case blocks =>
    intro j hj k hk
    rw [href, hnblk]
    exact h.blocks j ((hinodes j).1 ▸ hj) k hk
  case pointer =>
    intro j hj
    rw [(hinodes j).2, hnblk]
    exact h.pointer j ((hinodes j).1 ▸ hj)
  case first =>
    rw [hsb]
    exact h.first
  case width =>
    rw [hsb]
    exact h.width

def writeBack (fs : Fs) (i : Nat) (ip : Dinode) (size : Nat) (log : Log) : Fs :=
  { fs with dinodes := update fs.dinodes i { ip with size := size }, log := log }

theorem Written.byteAt_eq (hoff : off ≤ (fs.dinodes i).size)
    (hw : Written i fs fs' (fs.dinodes i) ip' (fun i => blocksOf (fs.dinodes i).size) off src q)
    (hpos : pos < max (fs.dinodes i).size (off + src.length)) :
    byteAt ip' fs'.data pos = patched (byteAt (fs.dinodes i) fs.data) off src pos := by
  have hself := congrFun hw.self pos
  have hold := le_blocksOf (fs.dinodes i).size
  have hnew := le_blocksOf (max (fs.dinodes i).size (off + src.length))
  rw [blocksOf_max] at hnew
  rw [bytes, if_pos (by omega)] at hself
  rw [hself, patched, patched]
  split
  case isTrue => rfl
  case isFalse hout => rw [bytes, if_pos (by omega)]

theorem Written.spliced (h : Consistent fs) (htype : (fs.dinodes i).type ≠ 0) (hoff : off ≤ (fs.dinodes i).size)
    (hw : Written i fs fs' (fs.dinodes i) ip' (fun i => blocksOf (fs.dinodes i).size) off src q)
    {log : Log} (hlogs : Logs fs'.log log) (hlen : log.lh.length ≤ fs'.log.lh.length + 1) :
    Spliced i fs (writeBack fs' i ip' (max (fs.dinodes i).size (off + src.length)) log) off src q := by
  have hself : (writeBack fs' i ip' (max (fs.dinodes i).size (off + src.length)) log).dinodes i =
      { ip' with size := max (fs.dinodes i).size (off + src.length) } := update_self ..
  have hother (j : Nat) (hj : j ≠ i) :
    (writeBack fs' i ip' (max (fs.dinodes i).size (off + src.length)) log).dinodes j =
      fs.dinodes j := by
    rw [← hw.dinodes]
    exact update_of_ne hj ..
  have hsame := hw.same
  constructor
  case consistent =>
    constructor
    case owned =>
      refine hw.owned.congr rfl rfl rfl (fun j => ?_) (fun j => ?_)
      · by_cases hj : j = i
        · rw [hj, hself, view_self]
          exact ⟨rfl, rfl⟩
        · rw [hother j hj, view_of_ne fs' _ hj, hw.dinodes]
          exact ⟨rfl, rfl⟩
      · by_cases hj : j = i
        · rw [hj, hself, update_self, blocksOf_max]
        · rw [hother j hj, update_of_ne hj]
    case range =>
      intro j hj
      have hrange : (fs.dinodes j).type ≠ 0 → 0 < j ∧ j < fs'.sb.ninodes := by
        rw [hw.sb]
        exact h.range j
      by_cases hji : j = i
      · subst hji
        exact hrange htype
      · rw [hother j hji] at hj
        exact hrange hj
  case sb => exact hw.sb
  case inode =>
    rw [hself, hsame]
  case contents =>
    rw [FileSystem.contents, hself]
    refine map_patched hoff fun pos hpos => ?_
    show byteAt ip' fs'.data pos = _
    exact hw.byteAt_eq hoff hpos
  case others => exact hother
  case unchanged =>
    intro j hji hj
    rw [FileSystem.contents, FileSystem.contents, hother j hji]
    refine List.map_congr_left fun pos hpos => hw.others j hji hj pos ?_
    have hlt := List.mem_range.mp hpos
    have hle := le_blocksOf (fs.dinodes j).size
    omega
  case logs => exact hw.logs.trans hlogs
  case logged =>
    intro hpos k hlo hhi
    rw [hself]
    exact hlogs.sub _ (hw.logged hpos k hlo hhi)
  case length_log =>
    intro hone
    have hcost := hw.cost hone
    have hle := length_le_cost fs' ip'
    show log.lh.length ≤ _
    omega
  case free =>
    rw [hself, hw.free, blocksOf_max]
    rfl

theorem iupdate_ends (hlog : Writable fs.log) (i : Nat) (ip : Dinode) :
    Ends (iupdate fs i ip) (fun e => e = tooBig ∧ logSize - 1 ≤ fs.log.lh.length)
      (fun r => r = { fs with dinodes := update fs.dinodes i ip, log := note fs.log (iblock fs.sb i) }) :=
  logWrite_ends hlog { fs with dinodes := update fs.dinodes i ip } rfl (iblock fs.sb i)

theorem writei_ends (h : Consistent fs) (htype : (fs.dinodes i).type ≠ 0) (hlog : Writable fs.log)
    (hoff : off ≤ (fs.dinodes i).size) (hmax : off + src.length ≤ maxfile * bsize) :
    Ends (writei fs i (fs.dinodes i) src off)
      (Fails fs (fs.dinodes i) (touched off src.length) (blocksOf (fs.dinodes i).size)
        (blocksOf (off + src.length)))
      (fun r => Spliced i fs r.1 off src (touched off src.length) ∧ r.2.1 = r.1.dinodes i ∧
        r.2.2 = src.length) := by
  have hsmall : maxfile * bsize < 2 ^ 32 := by decide
  have hmod : (off + src.length) % 2 ^ 32 = off + src.length := Nat.mod_eq_of_lt (by omega)
  have hblocks := le_blocksOf (fs.dinodes i).size
  rw [writei, hmod, if_neg (by omega), if_neg (by omega)]
  refine (writeLoop_ends (h.view i) htype hlog (by omega) hmax).bind ?_
  rintro ⟨fs₁, ip₁⟩ hw
  dsimp only at hw ⊢
  have hsize : ip₁.size = (fs.dinodes i).size := by rw [hw.same]
  split
  case isTrue hgrow =>
    have hnew : max (fs.dinodes i).size (off + src.length) = off + src.length := by omega
    refine ((iupdate_ends (hw.logs.writable hlog) i { ip₁ with size := off + src.length }).mono ?_
      (fun _ hr => hr)).bind ?_
    · rintro e ⟨he, hfull⟩
      refine .inr ⟨he, fun hone => ?_⟩
      have hcost := hw.cost hone
      have hle := length_le_cost fs₁ ip₁
      omega
    · rintro _ rfl
      have hone := @miss_le_one (iblock fs₁.sb i) fs₁.log
      have hspliced := hw.spliced h htype hoff (logs_note fs₁.log (iblock fs₁.sb i)) (by rw [length_note]; omega)
      rw [hnew] at hspliced
      exact ⟨hspliced, by dsimp only; rw [update_self], rfl⟩
  case isFalse hfit =>
    have hnew : max (fs.dinodes i).size (off + src.length) = (fs.dinodes i).size := by omega
    have hspliced := hw.spliced h htype hoff (Logs.refl fs₁.log) (Nat.le_succ _)
    have hold : ip₁ = fs.dinodes i := hw.old (by omega)
    have hback : writeBack fs₁ i ip₁ (fs.dinodes i).size fs₁.log = fs₁ := by
      rw [writeBack, hold, ← hw.dinodes, update_eq_self]
    rw [hnew, hback] at hspliced
    exact ⟨hspliced, by rw [hold, hw.dinodes], rfl⟩

theorem writei_refused (hbad : (fs.dinodes i).size < off ∨ (off + src.length) % 2 ^ 32 < off ∨
    maxfile * bsize < (off + src.length) % 2 ^ 32) :
    writei fs i (fs.dinodes i) src off = .ok (fs, fs.dinodes i, -1) := by
  rw [writei]
  split
  case isTrue => rfl
  case isFalse hfirst => rw [if_pos (by omega)]

end Xv6.FileSystem
