import Xv6.BlockMap

/-!
# The bytes of a file

Byte `pos` of a file is a byte of its block `pos / bsize`. `readi` returns such bytes, and a turn of
the loop of `writei` changes those of one block of one file. The loop as a whole leaves the bytes it
was given in their place, the blocks it had to append filled up with zeros, and all other files as
they were.
-/
namespace Xv6.FileSystem

open Words Bytes Allocation Outcome Function

variable {fs fs' : Fs} {ip ip' : Dinode} {inodes : Nat → Dinode} {nblk : Nat → Nat}
  {i j k l b c bn n off pos q : Nat}
  {v : Buffer} {src : List Byte}

def byteAt (ip : Dinode) (data : Nat → Buffer) (pos : Nat) : Byte := data (ref ip data (pos / bsize)) (pos % bsize)

def bytes (ip : Dinode) (data : Nat → Buffer) (blocks pos : Nat) : Byte :=
  if pos < blocks * bsize then byteAt ip data pos else 0

def patched (old : Nat → Byte) (off : Nat) (src : List Byte) (pos : Nat) : Byte :=
  if off ≤ pos ∧ pos < off + src.length then src.getD (pos - off) 0 else old pos

theorem patched_append (old : Nat → Byte) (off : Nat) (a src : List Byte) (pos : Nat) :
    patched (patched old off a) (off + a.length) src pos = patched old off (a ++ src) pos := by
  simp only [patched, List.length_append, List.getD_eq_getElem?_getD, List.getElem?_append]
  by_cases h₁ : off + a.length ≤ pos ∧ pos < off + a.length + src.length
  · rw [if_pos h₁, if_pos (by omega), if_neg (by omega), Nat.sub_sub]
  · rw [if_neg h₁]
    by_cases h₂ : off ≤ pos ∧ pos < off + a.length
    · rw [if_pos h₂, if_pos (by omega), if_pos (by omega)]
    · rw [if_neg h₂, if_neg (by omega)]

theorem div_bsize_lt (h : pos < n * bsize) : pos / bsize < n := Nat.div_lt_of_lt_mul (by rwa [Nat.mul_comm])

theorem span_le (off n : Nat) : span off n ≤ n := Nat.min_le_left ..

theorem span_block (off n : Nat) : off % bsize + span off n ≤ bsize := by
  have hlt : off % bsize < bsize := Nat.mod_lt _ (by decide)
  simp only [span]
  omega

theorem same_block (off n : Nat) {t : Nat} (ht : t < span off n) :
    (off + t) / bsize = off / bsize ∧ (off + t) % bsize = off % bsize + t := by
  have hle := span_block off n
  simp only [bsize] at hle ⊢
  omega

theorem slice_eq (m : Nat) (hm : m ≤ span off n) :
    slice (fs.data (ref ip fs.data (off / bsize))) (off % bsize) m =
      (List.range m).map (fun t => byteAt ip fs.data (off + t)) := by
  refine List.map_congr_left fun t ht => ?_
  obtain ⟨hdiv, hmod⟩ := same_block off n (t := t) (by have hlt := List.mem_range.mp ht; omega)
  rw [byteAt, hdiv, hmod]

theorem readLoop_eq (h : Owned fs (view fs i ip) nblk) (htype : ip.type ≠ 0) (hle : off + n ≤ nblk i * bsize) :
    readLoop fs ip off n = .ok (fs, ip, (List.range n).map (fun t => byteAt ip fs.data (off + t))) := by
  induction n using Nat.strong_induction_on generalizing off with
  | _ n ih =>
    rw [readLoop]
    split
    case isTrue hpos =>
      have hm := span_pos off hpos
      have hmn := span_le off n
      have hrange : List.range n = List.range (span off n) ++ (List.range (n - span off n)).map
        (span off n + ·) := by
        rw [← List.range_add, Nat.add_sub_cancel' hmn]
      rw [bmap_old h htype (div_bsize_lt (by omega)), ok_bind]
      dsimp only
      rw [ih (n - span off n) (by omega) (by omega), ok_bind, slice_eq _ (Nat.le_refl _), hrange, List.map_append,
        List.map_map]
      simp only [comp_def, Nat.add_assoc]
    case isFalse hzero =>
      obtain rfl : n = 0 := by omega
      rfl

def stored (fs : Fs) (b : Nat) (v : Buffer) : Fs := { setBlock fs b v with log := note fs.log b }

theorem Owned.slot (h : Owned fs inodes nblk) (htype : (inodes i).type ≠ 0) (hk : k < nblk i) :
    owner inodes fs.data (i, k) = some (ref (inodes i) fs.data k) :=
  owner_of_lt h.blocks htype hk (h.small i htype)

section
variable (h : Owned fs inodes nblk) (htype : (inodes i).type ≠ 0) (hk : k < nblk i)
include h htype hk

/-- No indirect block is a block of a file. -/
theorem Owned.not_pointer (j : Nat) : owner inodes fs.data (j, maxfile) ≠ some (ref (inodes i) fs.data k) := by
  intro hj
  have heq := h.alloc.inj _ _ _ hj (h.slot htype hk)
  have hsmall := h.small i htype
  have hmax : maxfile = k := congrArg Prod.snd heq
  omega

theorem Owned.stored_ref (hj : (inodes j).type ≠ 0) (l : Nat) :
    ref (inodes j) (stored fs (ref (inodes i) fs.data k) v).data l = ref (inodes j) fs.data l :=
  ref_other (h.not_pointer htype hk) hj l

theorem Owned.stored : Owned (stored fs (ref (inodes i) fs.data k) v) inodes nblk := by
  constructor
  case alloc =>
    have howner := owner_update_data (v := v) (h.not_pointer htype hk)
    show Allocated _ _ (owner inodes (update fs.data _ v)) fs.bitmap
    rw [howner]
    exact h.alloc
  case small => exact h.small
  case blocks =>
    intro j hj l hl
    rw [h.stored_ref htype hk hj]
    exact h.blocks j hj l hl
  case pointer => exact h.pointer
  case first => exact h.first
  case width => exact h.width

/-- Only the bytes of the block change. -/
theorem Owned.stored_byteAt (hj : (inodes j).type ≠ 0) (hpos : pos < nblk j * bsize) :
    byteAt (inodes j) (FileSystem.stored fs (ref (inodes i) fs.data k) v).data pos =
      if j = i ∧ pos / bsize = k then v (pos % bsize) else byteAt (inodes j) fs.data pos := by
  have hslot := h.slot htype hk
  have hslot' := h.slot hj (div_bsize_lt hpos)
  rw [byteAt, h.stored_ref htype hk hj]
  show update fs.data _ v _ _ = _
  split
  case isTrue heq =>
    obtain ⟨rfl, rfl⟩ := heq
    rw [update_self]
  case isFalse hne =>
    rw [update_of_ne (h.alloc.ne_of_ne hslot' hslot (by simpa using hne)), byteAt]

end

def blocksOf (n : Nat) : Nat := (n + bsize - 1) / bsize

theorem blocksOf_mono (h : n ≤ k) : blocksOf n ≤ blocksOf k := Nat.div_le_div_right (by omega)

theorem le_blocksOf (n : Nat) : n ≤ blocksOf n * bsize := by
  simp only [blocksOf, bsize]
  omega

theorem blocksOf_span (hn : 0 < n) : blocksOf (off + span off n) = off / bsize + 1 := by
  have hpos := span_pos off hn
  have hle := span_block off n
  simp only [blocksOf, bsize] at hle ⊢
  omega

/-- Inode `i` and its blocks after `src` was written at `off`, with at most `q` blocks visited. -/
structure Written (i : Nat) (fs fs' : Fs) (ip ip' : Dinode) (nblk : Nat → Nat) (off : Nat)
    (src : List Byte) (q : Nat) :
    Prop where
  sb : fs'.sb = fs.sb
  dinodes : fs'.dinodes = fs.dinodes
  same : ip' = { ip with addrs := ip'.addrs }
  owned : Owned fs' (view fs' i ip') (update nblk i (max (nblk i) (blocksOf (off + src.length))))
  refs : ∀ k < nblk i, ref ip' fs'.data k = ref ip fs.data k
  self : bytes ip' fs'.data (max (nblk i) (blocksOf (off + src.length))) =
    patched (bytes ip fs.data (nblk i)) off src
  others : ∀ j, j ≠ i → (fs.dinodes j).type ≠ 0 → ∀ pos < nblk j * bsize,
    byteAt (fs.dinodes j) fs'.data pos = byteAt (fs.dinodes j) fs.data pos
  old : off + src.length ≤ nblk i * bsize → ip' = ip
  logs : Logs fs.log fs'.log
  logged : 0 < src.length → ∀ k, off / bsize ≤ k → k < blocksOf (off + src.length) →
    bno (ref ip' fs'.data k) ∈ fs'.log.lh
  cost : fs.sb.size ≤ bpb → cost fs' ip' ≤ cost fs ip + q
  free : freeBlocks fs + footprint (nblk i) =
    freeBlocks fs' + footprint (max (nblk i) (blocksOf (off + src.length)))

theorem written_nil (h : Owned fs (view fs i ip) nblk) (hoff : off ≤ nblk i * bsize) :
    Written i fs fs ip ip nblk off [] 0 := by
  have hle : blocksOf off ≤ nblk i := by
    simp only [blocksOf, bsize] at hoff ⊢
    omega
  have hnblk : max (nblk i) (blocksOf (off + ([] : List Byte).length)) = nblk i := Nat.max_eq_left hle
  constructor
  case sb => rfl
  case dinodes => rfl
  case same => rfl
  case owned =>
    rw [hnblk, update_eq_self]
    exact h
  case refs => exact fun _ _ => rfl
  case self =>
    rw [hnblk]
    funext pos
    rw [patched, if_neg (by simp)]
  case others => exact fun _ _ _ _ _ => rfl
  case old => exact fun _ => rfl
  case logs => exact Logs.refl _
  case logged => exact fun hpos => absurd hpos (by simp)
  case cost => exact fun _ => Nat.le_refl _
  case free => rw [hnblk]

theorem Written.trans {fs'' : Fs} {ip'' : Dinode} {a : List Byte} {q' off' : Nat}
    (h : Written i fs fs' ip ip' nblk off a q)
    (h' : Written i fs' fs'' ip' ip'' (update nblk i (max (nblk i) (blocksOf (off + a.length)))) off' src q')
    (hoff : off' = off + a.length) (hblock : off' / bsize * bsize = off' ∨ src = []) (ha : 0 < a.length) :
    Written i fs fs'' ip ip'' nblk off (a ++ src) (q + q') := by
  subst hoff
  have hlen : off + (a ++ src).length = off + a.length + src.length := by rw [List.length_append, Nat.add_assoc]
  have hmono : blocksOf (off + a.length) ≤ blocksOf (off + a.length + src.length) :=
    blocksOf_mono (Nat.le_add_right ..)
  have hmax : max (max (nblk i) (blocksOf (off + a.length))) (blocksOf (off + a.length + src.length)) =
      max (nblk i) (blocksOf (off + a.length + src.length)) := by omega
  have hself := h'.self
  have howned := h'.owned
  have hrefs := h'.refs
  have hold := h'.old
  have hfree := h'.free
  rw [update_self] at hself howned hrefs hold hfree
  rw [hmax] at hself howned hfree
  constructor
  case sb => rw [h'.sb, h.sb]
  case dinodes => rw [h'.dinodes, h.dinodes]
  case same => rw [h'.same, h.same]
  case owned =>
    rw [hlen, ← update_idem (f := nblk) (v := max (nblk i) (blocksOf (off + a.length)))]
    exact howned
  case refs => exact fun k hk => (hrefs k (by omega)).trans (h.refs k hk)
  case self =>
    rw [hlen, hself, h.self]
    funext pos
    exact patched_append ..
  case others =>
    intro j hji hj pos hpos
    have hnew := h'.others j hji (by rwa [h.dinodes]) pos (by rwa [update_of_ne hji])
    rw [h.dinodes] at hnew
    rw [hnew, h.others j hji hj pos hpos]
  case old =>
    intro hle
    rw [hlen] at hle
    rw [hold (by
      have hmul := Nat.mul_le_mul_right bsize (Nat.le_max_left (nblk i) (blocksOf (off + a.length)))
      omega), h.old (by omega)]
  case logs => exact h.logs.trans h'.logs
  case logged =>
    intro _ k hlo hhi
    rw [hlen] at hhi
    by_cases hk : k < blocksOf (off + a.length)
    · rw [hrefs k (by omega)]
      exact h'.logs.sub _ (h.logged ha k hlo hk)
    · rcases hblock with halign | rfl
      · refine h'.logged ?_ k ?_ hhi
        · by_contra hzero
          have hnil : src.length = 0 := by omega
          rw [hnil, Nat.add_zero] at hhi
          omega
        · have hle : blocksOf (off + a.length) = (off + a.length) / bsize := by
            simp only [blocksOf, bsize] at halign ⊢
            omega
          omega
      · exact absurd hhi hk
  case cost =>
    intro hone
    have hle := h.cost hone
    have hle' := h'.cost (by rw [h.sb]; exact hone)
    omega
  case free => rw [h.free, hfree, hlen]

theorem store_apply (v : Buffer) (o : Nat) (a : List Byte) (pos : Nat) :
    store v o a pos = if o ≤ pos ∧ pos < o + a.length then a.getD (pos - o) 0 else v pos := by
  rw [store, List.getD_eq_getElem?_getD]
  by_cases hlo : o ≤ pos
  · by_cases hhi : pos < o + a.length
    · rw [if_pos hlo, if_pos ⟨hlo, hhi⟩, List.getElem?_eq_getElem (by omega)]
      rfl
    · rw [if_pos hlo, if_neg (fun h => hhi h.2), List.getElem?_eq_none (by omega)]
      rfl
  · rw [if_neg hlo, if_neg (fun h => hlo h.1)]

/-- The blocks of a file before and after `bmap`. -/
theorem Mapped.bytes_eq (htype : ip.type ≠ 0) (hle : bn ≤ nblk i)
    (hm : Mapped i fs fs' ip ip' nblk bn b) :
    bytes ip' fs'.data (max (nblk i) (bn + 1)) = bytes ip fs.data (nblk i) := by
  have hi : (view fs i ip i).type ≠ 0 := by rwa [view_self]
  funext pos
  rw [bytes, bytes]
  by_cases hold : pos < nblk i * bsize
  · obtain ⟨href, hdata⟩ := hm.kept i hi (pos / bsize) (div_bsize_lt hold)
    rw [view_self, view_self] at href
    rw [view_self] at hdata
    have hmul := Nat.mul_le_mul_right bsize (Nat.le_max_left (nblk i) (bn + 1))
    rw [if_pos hold, if_pos (by omega), byteAt, href, hdata, byteAt]
  · rw [if_neg hold]
    split
    case isTrue hnew =>
      have hbn : pos / bsize = bn ∧ nblk i ≤ bn := by
        simp only [bsize] at hold hnew ⊢
        omega
      rw [byteAt, hbn.1, hm.block, hm.fresh hbn.2]
    case isFalse => rfl

theorem length_le_cost (fs : Fs) (ip : Dinode) : fs.log.lh.length ≤ cost fs ip := by
  rw [cost]
  omega

theorem cost_stored (fs : Fs) (ip : Dinode) (b : Nat) (v : Buffer) :
    cost (stored fs b v) ip ≤ cost fs ip + miss fs.log b := by
  have hmap := @miss_note_le b fs.sb.bmapstart fs.log
  have hptr := @miss_note_le b (ip.addrs ndirect) fs.log
  simp only [cost, stored, setBlock]
  rw [length_note]
  split <;> omega

/-- The part of a block that a turn of the loop overwrites. -/
theorem patched_block (old : Nat → Byte) (v : Buffer) (hpos : pos / bsize = off / bsize)
    (hv : v (pos % bsize) = old pos) :
    store v (off % bsize) src (pos % bsize) = patched old off src pos := by
  have hiff : (off % bsize ≤ pos % bsize ∧ pos % bsize < off % bsize + src.length) ↔ off ≤ pos ∧
    pos < off + src.length := by
    simp only [bsize] at hpos ⊢
    omega
  have hsub : off ≤ pos → pos % bsize - off % bsize = pos - off := by
    simp only [bsize] at hpos ⊢
    omega
  rw [store_apply, patched]
  by_cases hin : off ≤ pos ∧ pos < off + src.length
  · rw [if_pos (hiff.mpr hin), if_pos hin, hsub hin.1]
  · rw [if_neg (fun hcon => hin (hiff.mp hcon)), if_neg hin, hv]

theorem patched_outside (old : Nat → Byte) (hm : off % bsize + src.length ≤ bsize)
    (hpos : pos / bsize ≠ off / bsize) :
    patched old off src pos = old pos := by
  rw [patched, if_neg]
  simp only [bsize] at hpos hm
  omega

/-- One turn of the loop. -/
theorem Mapped.written {a : List Byte} (htype : ip.type ≠ 0) (hoff : off ≤ nblk i * bsize) (ha : 0 < a.length)
    (hblock : off % bsize + a.length ≤ bsize) (hm : Mapped i fs fs' ip ip' nblk (off / bsize) b) :
    Written i fs (stored fs' b (store (fs'.data b) (off % bsize) a)) ip ip' nblk off a 1 := by
  have hbn : blocksOf (off + a.length) = off / bsize + 1 := by
    simp only [blocksOf, bsize] at hblock ⊢
    omega
  have hle : off / bsize ≤ nblk i := by
    simp only [bsize] at hoff ⊢
    omega
  have hi : (view fs i ip i).type ≠ 0 := by rwa [view_self]
  have hi' : (view fs' i ip' i).type ≠ 0 := by
    rw [view_self, hm.same]
    exact htype
  have hlt : off / bsize < update nblk i (max (nblk i) (off / bsize + 1)) i := by
    rw [update_self]
    omega
  have hb : ref (view fs' i ip' i) fs'.data (off / bsize) = b := by
    rw [view_self]
    exact hm.block
  have howned := hm.owned.stored hi' hlt (v := store (fs'.data b) (off % bsize) a)
  have hbyte (j pos : Nat) (hj : (view fs' i ip' j).type ≠ 0)
      (hpos : pos < update nblk i (max (nblk i) (off / bsize + 1)) j * bsize) :=
    hm.owned.stored_byteAt hi' hlt hj hpos (v := store (fs'.data b) (off % bsize) a)
  have hrefs (l : Nat) := hm.owned.stored_ref hi' hlt hi' l (v := store (fs'.data b) (off % bsize) a)
  rw [hb] at howned
  simp only [view_self, hm.block] at hbyte hrefs
  constructor
  case sb => exact hm.sb
  case dinodes => exact hm.dinodes
  case same => exact hm.same
  case owned =>
    rw [hbn]
    exact howned
  case refs =>
    intro k hk
    have hkept := (hm.kept i hi k hk).1
    rw [view_self, view_self] at hkept
    rw [hrefs, hkept]
  case self =>
    funext pos
    rw [hbn, ← hm.bytes_eq htype hle]
    by_cases hpos : pos < max (nblk i) (off / bsize + 1) * bsize
    · have hnew := hbyte i pos hi' (by rwa [update_self])
      rw [view_self] at hnew
      rw [bytes, if_pos hpos, hnew]
      by_cases hin : pos / bsize = off / bsize
      · rw [if_pos ⟨rfl, hin⟩]
        refine patched_block _ _ hin ?_
        rw [bytes, if_pos hpos, byteAt, hin, hm.block]
      · rw [if_neg (fun hcon => hin hcon.2), patched_outside _ hblock hin, bytes, if_pos hpos]
    · have hin : pos / bsize ≠ off / bsize := by
        simp only [bsize] at hpos ⊢
        omega
      rw [patched_outside _ hblock hin, bytes, bytes, if_neg hpos, if_neg hpos]
  case others =>
    intro j hji hj pos hpos
    have hview : view fs' i ip' j = fs.dinodes j := by rw [view_of_ne fs' _ hji, hm.dinodes]
    have hnew := hbyte j pos (by rwa [hview]) (by rwa [update_of_ne hji])
    rw [if_neg (fun hcon => hji hcon.1), hview] at hnew
    obtain ⟨href, hdata⟩ := hm.kept j (by rwa [view_of_ne fs _ hji]) (pos / bsize) (div_bsize_lt hpos)
    rw [hview, view_of_ne fs _ hji] at href
    rw [view_of_ne fs _ hji] at hdata
    rw [hnew, byteAt, href, hdata, byteAt]
  case old =>
    intro hle'
    refine (hm.old ?_).2
    simp only [bsize] at hle' ⊢
    omega
  case logs => exact hm.logs.trans (logs_note ..)
  case logged =>
    intro _ k hlo hhi
    obtain rfl : k = off / bsize := by omega
    rw [hrefs, hm.block]
    exact mem_note.mpr (.inr rfl)
  case cost =>
    intro hone
    have hcost := hm.cost hone
    have hstored := cost_stored fs' ip' b (store (fs'.data b) (off % bsize) a)
    omega
  case free =>
    rw [hm.free, hbn]
    rfl

def touched (off n : Nat) : Nat := if n = 0 then 0 else blocksOf (off + n) - off / bsize

theorem touched_step (hn : 0 < n) : touched off n = 1 + touched (off + span off n) (n - span off n) := by
  have hpos := span_pos off hn
  have hle := span_le off n
  simp only [touched, if_neg hn.ne']
  split
  case isTrue hlast =>
    have hall : span off n = n := by omega
    rw [← hall, blocksOf_span hn]
    omega
  case isFalse hmore =>
    have hfull : off + span off n = (off / bsize + 1) * bsize := by
      simp only [span, bsize] at hmore ⊢
      omega
    have hsum : off + span off n + (n - span off n) = off + n := by omega
    rw [hsum, hfull, Nat.mul_div_cancel _ (by decide)]
    have hge : off / bsize + 1 < blocksOf (off + n) := by
      simp only [blocksOf, span, bsize] at hmore hfull ⊢
      omega
    omega

theorem footprint_le (h : n ≤ k) : footprint n ≤ footprint k := by
  rcases Nat.lt_or_eq_of_le h with hlt | rfl
  · exact (footprint_lt hlt).le
  · exact Nat.le_refl _

/-- The block that could not be had is one of those to visit. -/
theorem Fails.loop {e : Trap} {m : Nat} (h : Fails fs ip 1 n k e) (q : Nat) (hk : k ≤ m) :
    Fails fs ip (1 + q) n m e := by
  rcases h with ⟨he, hfree⟩ | ⟨he, hcost⟩
  · have hle := footprint_le hk
    exact .inl ⟨he, by omega⟩
  · exact .inr ⟨he, fun hone => by have hle := hcost hone; omega⟩

theorem Written.fails {e : Trap} {a : List Byte} {m : Nat} (hw : Written i fs fs' ip ip' nblk off a 1)
    (h : Fails fs' ip' q (max (nblk i) (blocksOf (off + a.length))) m e) : Fails fs ip (1 + q) (nblk i) m e := by
  have hfree := hw.free
  rcases h with ⟨he, hle⟩ | ⟨he, hle⟩
  · exact .inl ⟨he, by omega⟩
  · refine .inr ⟨he, fun hone => ?_⟩
    have hcost := hw.cost hone
    have hfull := hle (by rw [hw.sb]; exact hone)
    omega

theorem writeLoop_ends (h : Owned fs (view fs i ip) nblk) (htype : ip.type ≠ 0) (hlog : Writable fs.log)
    (hoff : off ≤ nblk i * bsize) (hmax : off + src.length ≤ maxfile * bsize) :
    Ends (writeLoop fs ip off src) (Fails fs ip (touched off src.length) (nblk i) (blocksOf (off + src.length)))
      (fun r => Written i fs r.1 ip r.2 nblk off src (touched off src.length)) := by
  induction hn : src.length using Nat.strong_induction_on generalizing fs ip nblk off src with
  | _ n ih =>
    rw [writeLoop]
    split
    case isFalse hzero =>
      obtain rfl : src = [] := List.length_eq_zero_iff.mp (by omega)
      obtain rfl : n = 0 := hn.symm
      exact written_nil h hoff
    case isTrue hpos =>
      have hspan := span_pos off hpos
      have hle := span_le off src.length
      have hblock := span_block off src.length
      have htake : (src.take (span off src.length)).length = span off src.length := by
        rw [List.length_take]
        omega
      have hdrop : (src.drop (span off src.length)).length = src.length - span off src.length :=
        List.length_drop ..
      rw [← hn, touched_step hpos]
      refine ((bmap_ends h htype hlog (by simp only [bsize] at hoff ⊢; omega) (div_bsize_lt (by omega))).mono
        (fun e he => he.loop _ (by simp only [blocksOf, bsize] at hblock ⊢; omega)) (fun _ hr => hr)).bind ?_
      rintro ⟨fs₁, ip₁, b⟩ hm
      dsimp only at hm ⊢
      have hw := hm.written (a := src.take (span off src.length)) htype hoff (by omega) (by omega)
      refine ((logWrite_ends (hm.logs.writable hlog) (setBlock fs₁ b (store (fs₁.data b) (off % bsize)
        (src.take (span off src.length)))) rfl b).mono ?_ (fun _ hr => hr)).bind ?_
      · rintro e ⟨he, hfull⟩
        refine .inr ⟨he, fun hone => ?_⟩
        have hcost := hm.cost hone
        have hlen := length_le_cost fs₁ ip₁
        omega
      · rintro _ rfl
        have htype₁ : ip₁.type ≠ 0 := by
          rw [hm.same]
          exact htype
        have hnext : off + span off src.length ≤ update nblk i (max (nblk i) (blocksOf (off +
            (src.take (span off src.length)).length))) i * bsize := by
          rw [update_self, htake]
          have hge := le_blocksOf (off + span off src.length)
          have hmul := Nat.mul_le_mul_right bsize (Nat.le_max_right (nblk i)
            (blocksOf (off + span off src.length)))
          omega
        have hmax' : off + span off src.length + (src.drop (span off src.length)).length ≤
          maxfile * bsize := by omega
        have hrest := ih _ (by omega) hw.owned htype₁ (hw.logs.writable hlog) hnext hmax' hdrop
        refine hrest.mono (fun e he => ?_) fun r hr => ?_
        · have hsum : off + span off src.length + (src.length - span off src.length) = off + src.length := by omega
          rw [update_self, hsum] at he
          exact hw.fails he
        have htrans := hw.trans hr (by rw [htake]) ?_ (by omega)
        · rwa [List.take_append_drop] at htrans
        · by_cases hlast : span off src.length = src.length
          · exact .inr (by rw [hlast, List.drop_length])
          · left
            simp only [span, bsize] at hlast ⊢
            omega

end Xv6.FileSystem
