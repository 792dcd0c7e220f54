import Xv6.BlockOwners

/-!
# `bmap`

`bmap` finds file block `bn` of an inode, or appends it: a caller asks for a block the inode has or
for the next one. Appended, it is a block of zeros, and the indirect block comes with it if it is
the first one that needs it; the blocks of all files stay as they are.

`cost` is what the log holds and will need for the bitmap and the indirect block. `footprint` is
what a file takes from the disk; with the free blocks it makes a sum that no call changes.
-/
namespace Xv6.FileSystem

open Words RedoLog Allocation Outcome Function

variable {fs₁ : Fs} {ip₁ : Dinode} {log log' : Log} {n' : Nat} {e : Trap}

variable {fs fs' : Fs} {ip ip' : Dinode} {inodes : Nat → Dinode} {nblk : Nat → Nat}
  {i j k l b c bn : Nat}

def view (fs : Fs) (i : Nat) (ip : Dinode) : Nat → Dinode := update fs.dinodes i ip

@[simp] theorem view_self : view fs i ip i = ip := update_self ..

theorem view_of_ne (fs : Fs) (ip : Dinode) (hne : j ≠ i) : view fs i ip j = fs.dinodes j := update_of_ne hne ..

theorem view_update (hsame : fs'.dinodes = fs.dinodes) : view fs' i ip' = update (view fs i ip) i ip' := by
  rw [view, view, update_idem, hsame]

theorem view_type (fs : Fs) (i : Nat) (htype : ip.type ≠ 0) : (view fs i ip i).type ≠ 0 := by
  rwa [view_self]

/-- A file has no block where it ends. -/
theorem Owned.ref_zero (h : Owned fs (view fs i ip) nblk) (htype : ip.type ≠ 0) (hbn : nblk i ≤ bn)
    (hmax : bn < maxfile) : ref ip fs.data bn = 0 := by
  have hiff := h.blocks i (view_type fs i htype) bn hmax
  rw [view_self] at hiff
  by_contra hcon
  exact absurd (hiff.mp hcon) (by omega)

theorem Owned.pointer_iff (h : Owned fs (view fs i ip) nblk) (htype : ip.type ≠ 0) :
    ip.addrs ndirect ≠ 0 ↔ ndirect < nblk i := by
  have hiff := h.pointer i (view_type fs i htype)
  rwa [view_self] at hiff

def cost (fs : Fs) (ip : Dinode) : Nat :=
  fs.log.lh.length + miss fs.log fs.sb.bmapstart +
    if ip.addrs ndirect = 0 then 1 else miss fs.log (ip.addrs ndirect)

def footprint (n : Nat) : Nat := n + if ndirect < n then 1 else 0

structure Logs (log log' : Log) : Prop where
  same : log' = { log with lh := log'.lh }
  sub : ∀ b ∈ log.lh, b ∈ log'.lh
  nodup : log.lh.Nodup → log'.lh.Nodup

theorem Logs.refl (log : Log) : Logs log log := ⟨rfl, fun _ h => h, fun h => h⟩

theorem Logs.trans {log'' : Log} (h : Logs log log') (h' : Logs log' log'') : Logs log log'' := by
  refine ⟨?_, fun b hb => h'.sub b (h.sub b hb), fun hn => h'.nodup (h.nodup hn)⟩
  rw [h'.same, h.same]

theorem logs_note (log : Log) (b : Nat) : Logs log (note log b) := by
  refine ⟨rfl, fun _ hx => mem_note.mpr (.inl hx), fun hn => ?_⟩
  simp only [note]
  split
  case isTrue => exact hn
  case isFalse hb =>
    refine List.nodup_append.mpr ⟨hn, by simp, fun x hx y hy hxy => hb ?_⟩
    rwa [← List.mem_singleton.mp hy, ← hxy]

theorem Logs.writable (h : Logs log log') (hw : Writable log) : Writable log' := by
  rw [h.same]
  exact hw

theorem Owned.bmap_zero (h : Owned fs inodes nblk) : fs.bitmap 0 = true :=
  (h.alloc.used_iff 0 (Nat.lt_of_lt_of_le h.first (Nat.sub_le ..))).mpr (.inl h.first)

theorem bblock_eq {sb : Superblock} (hone : sb.size ≤ bpb) (hb : b < sb.size) : bblock sb b = sb.bmapstart := by
  rw [bblock, Nat.div_eq_of_lt (by omega), Nat.zero_add]

/-- The blocks of files, each in a slot below `maxfile`. -/
theorem owner_of_lt (hblocks : ∀ i, (inodes i).type ≠ 0 → ∀ k < maxfile, ref (inodes i) fs.data k ≠ 0 ↔ k < nblk i)
    (htype : (inodes j).type ≠ 0) (hk : k < nblk j) (hmax : nblk j ≤ maxfile) :
    owner inodes fs.data (j, k) = some (ref (inodes j) fs.data k) :=
  owner_eq_some.mpr ⟨htype, rfl, (hblocks j htype k (by omega)).mpr hk⟩

/-- The state between the two halves of `bmap` for a block behind the indirect block `ind`. -/
structure Pointed (i : Nat) (fs fs' : Fs) (ip ip' : Dinode) (nblk : Nat → Nat) (ind : Nat) : Prop where
  sb : fs'.sb = fs.sb
  dinodes : fs'.dinodes = fs.dinodes
  same : ip' = { ip with addrs := ip'.addrs }
  alloc : Allocated (Managed fs.sb) (Metadata fs.sb) (owner (view fs' i ip') fs'.data) fs'.bitmap
  ptr : ip'.addrs ndirect = ind
  pos : ind ≠ 0
  refs : ∀ j, (view fs i ip j).type ≠ 0 → ∀ k < maxfile, ref (view fs' i ip' j) fs'.data k =
    ref (view fs i ip j) fs.data k
  kept : ∀ j, (view fs i ip j).type ≠ 0 → ∀ k < nblk j,
    fs'.data (ref (view fs i ip j) fs.data k) = fs.data (ref (view fs i ip j) fs.data k)
  logs : Logs fs.log fs'.log
  cost : fs.sb.size ≤ bpb → cost fs' ip' ≤ cost fs ip
  free : freeBlocks fs = freeBlocks fs' + if ip.addrs ndirect = 0 then 1 else 0

theorem pointed_refl (h : Owned fs (view fs i ip) nblk) (hptr : ip.addrs ndirect ≠ 0) :
    Pointed i fs fs ip ip nblk (ip.addrs ndirect) :=
  ⟨rfl, rfl, rfl, h.alloc, rfl, hptr, fun _ _ _ _ => rfl, fun _ _ _ _ => rfl, Logs.refl _, fun _ => Nat.le_refl _,
    by rw [if_neg hptr]; rfl⟩

theorem Taken.ne_zero (h : Owned fs inodes nblk) (ht : Taken fs fs' b) : b ≠ 0 := by
  rintro rfl
  have hzero := h.bmap_zero
  rw [ht.free] at hzero
  cases hzero

/-- The blocks of files are not the one that was free. -/
theorem Taken.kept (h : Allocated (Managed fs.sb) (Metadata fs.sb) (owner inodes fs.data) fs.bitmap)
    (ht : Taken fs fs' b)
    (hx : owner inodes fs.data (j, k) = some c) : fs'.data c = fs.data c := by
  have hne : c ≠ b := by
    rintro rfl
    exact h.not_owned ht.managed ht.free _ hx
  rw [ht.eq]
  exact update_of_ne hne ..

/-- The bitmap block and the new block are in the log now. -/
theorem Taken.length_log (ht : Taken fs fs' b) (hone : fs.sb.size ≤ bpb) :
    fs'.log.lh.length ≤ fs.log.lh.length + miss fs.log fs.sb.bmapstart + 1 ∧ miss fs'.log fs.sb.bmapstart = 0 ∧
      miss fs'.log b = 0 ∧ ∀ c, miss fs'.log c ≤ miss fs.log c := by
  have hB : bblock fs.sb b = fs.sb.bmapstart := bblock_eq hone ht.managed
  rw [ht.eq, hB]
  dsimp only
  refine ⟨?_, ?_, miss_note_self, fun c => miss_note_le.trans miss_note_le⟩
  · have hle := @miss_le_one b (note fs.log fs.sb.bmapstart)
    rw [length_note, length_note]
    omega
  · have hle := @miss_note_le b fs.sb.bmapstart (note fs.log fs.sb.bmapstart)
    rw [miss_note_self] at hle
    omega

theorem Taken.logs (ht : Taken fs fs' b) : Logs fs.log fs'.log := by
  rw [ht.eq]
  exact (logs_note ..).trans (logs_note ..)

/-- The free block is no indirect block. -/
theorem Taken.ref_eq (ht : Taken fs fs' b)
    (h : Allocated (Managed fs.sb) (Metadata fs.sb) (owner inodes fs.data) fs.bitmap)
    (hj : (inodes j).type ≠ 0) (l : Nat) :
    ref (inodes j) fs'.data l = ref (inodes j) fs.data l := by
  rw [ht.eq]
  exact ref_other (fun j => h.not_owned ht.managed ht.free (j, maxfile)) hj l

/-- What a block is of the view of the inodes, when it is that of inode `i` and of the others. -/
theorem ref_view (hdinodes : fs'.dinodes = fs.dinodes)
    (hself : j = i → ref ip' fs'.data k = ref ip fs.data k)
    (hothers : j ≠ i → ref (view fs i ip j) fs'.data k = ref (view fs i ip j) fs.data k) :
    ref (view fs' i ip' j) fs'.data k = ref (view fs i ip j) fs.data k := by
  by_cases hji : j = i
  · rw [hji, view_self, view_self, hself hji]
  · rw [view_of_ne fs' _ hji, hdinodes, ← view_of_ne fs ip hji]
    exact hothers hji

/-- `addrs[NDIRECT]` gets a block of zeros. -/
theorem Taken.pointed (h : Owned fs (view fs i ip) nblk) (htype : ip.type ≠ 0) (hptr : ip.addrs ndirect = 0)
    (ht : Taken fs fs' b) : Pointed i fs fs' ip (setAddr ip ndirect b) nblk b := by
  have hpos := ht.ne_zero h
  have hdata := ht.data_eq
  have hself (l : Nat) : ref (setAddr ip ndirect b) fs'.data l =
      if l = maxfile then b else ref ip fs.data l := by
    rw [ref_setPointer hptr (by rw [hdata, update_self]), hdata, ref_update (.inl hptr)]
  have hdinodes := ht.dinodes_eq
  constructor
  case sb => exact ht.sb_eq
  case dinodes => exact hdinodes
  case same => rfl
  case alloc =>
    rw [view_update hdinodes, ht.bitmap_eq]
    exact alloc_place (k := maxfile) h.alloc (by rwa [view_self]) (by rw [view_self]; rfl) ht.managed ht.free hpos
      (by rw [view_self]; exact hptr) (by rw [view_self]; exact hself) (fun j _ hj => ht.ref_eq h.alloc hj)
  case ptr => simp [setAddr]
  case pos => exact hpos
  case refs =>
    intro j hj k hk
    exact ref_view hdinodes (fun _ => by rw [hself, if_neg (by omega)]) fun _ => ht.ref_eq h.alloc hj k
  case kept =>
    intro j hj k hk
    exact ht.kept h.alloc (owner_of_lt h.blocks hj hk (h.small j hj))
  case logs => exact ht.logs
  case cost =>
    intro hone
    obtain ⟨hlen, hmap, hnew, -⟩ := ht.length_log hone
    have hsb := ht.sb_eq
    rw [cost, cost, if_pos hptr, hsb, hmap, if_neg (by simpa [setAddr] using hpos)]
    simp only [setAddr, update_self, hnew]
    omega
  case free =>
    rw [if_pos hptr]
    exact ht.freeBlocks_eq.symm

/-- `bmap` returned `b` for block `bn` of inode `i`. -/
structure Mapped (i : Nat) (fs fs' : Fs) (ip ip' : Dinode) (nblk : Nat → Nat) (bn b : Nat) : Prop where
  sb : fs'.sb = fs.sb
  dinodes : fs'.dinodes = fs.dinodes
  same : ip' = { ip with addrs := ip'.addrs }
  owned : Owned fs' (view fs' i ip') (update nblk i (max (nblk i) (bn + 1)))
  block : ref ip' fs'.data bn = b
  kept : ∀ j, (view fs i ip j).type ≠ 0 → ∀ k < nblk j,
    ref (view fs' i ip' j) fs'.data k = ref (view fs i ip j) fs.data k ∧
      fs'.data (ref (view fs i ip j) fs.data k) = fs.data (ref (view fs i ip j) fs.data k)
  fresh : nblk i ≤ bn → fs'.data b = fun _ => 0
  old : bn < nblk i → fs' = fs ∧ ip' = ip
  logs : Logs fs.log fs'.log
  cost : fs.sb.size ≤ bpb → cost fs' ip' + miss fs'.log b ≤ cost fs ip + 1
  free : freeBlocks fs + footprint (nblk i) = freeBlocks fs' + footprint (max (nblk i) (bn + 1))

section

variable (h : Owned fs (view fs i ip) nblk)
include h

theorem mapped_old (hbn : bn < nblk i) :
    Mapped i fs fs ip ip nblk bn (ref ip fs.data bn) := by
  have hnblk : update nblk i (max (nblk i) (bn + 1)) = nblk := by
    rw [Nat.max_eq_left (by omega)]
    exact update_eq_self ..
  refine ⟨rfl, rfl, rfl, by rwa [hnblk], rfl, fun _ _ _ _ => ⟨rfl, rfl⟩, fun hle => by omega, fun _ => ⟨rfl, rfl⟩,
    Logs.refl _, fun _ => ?_, by rw [Nat.max_eq_left (by omega)]⟩
  have hle := @miss_le_one (ref ip fs.data bn) fs.log
  omega

/-- The inode has one block more. -/
theorem owned_append (htype : ip.type ≠ 0) (hbn : bn = nblk i) (hmax : bn < maxfile)
    (hsb : fs'.sb = fs.sb) (hdinodes : fs'.dinodes = fs.dinodes) (hpos : b ≠ 0)
    (halloc : Allocated (Managed fs.sb) (Metadata fs.sb) (owner (view fs' i ip') fs'.data) fs'.bitmap)
    (hself : ∀ l < maxfile, ref ip' fs'.data l = if l = bn then b else ref ip fs.data l)
    (hothers : ∀ j, j ≠ i → (view fs i ip j).type ≠ 0 → ∀ l < maxfile,
      ref (view fs i ip j) fs'.data l = ref (view fs i ip j) fs.data l)
    (hptr : ip'.addrs ndirect ≠ 0 ↔ ndirect ≤ bn) :
    Owned fs' (view fs' i ip') (update nblk i (max (nblk i) (bn + 1))) := by
  have hview (j : Nat) (hj : j ≠ i) : view fs' i ip' j = view fs i ip j := by
    rw [view_of_ne fs' _ hj, view_of_ne fs _ hj, hdinodes]
  have hi := view_type fs i htype
  constructor
  case alloc => rwa [hsb]
  case small =>
    intro j hj
    by_cases hji : j = i
    · rw [hji, update_self]
      omega
    · rw [update_of_ne hji]
      exact h.small j (hview j hji ▸ hj)
  case blocks =>
    intro j hj k hk
    by_cases hji : j = i
    · rw [hji, update_self, view_self, hself k hk]
      have hold := h.blocks i hi k hk
      rw [view_self] at hold
      split <;> omega
    · rw [hview j hji] at hj ⊢
      rw [update_of_ne hji, hothers j hji hj k hk]
      exact h.blocks j hj k hk
  case pointer =>
    intro j hj
    by_cases hji : j = i
    · rw [hji, update_self, view_self, hptr]
      omega
    · rw [hview j hji] at hj ⊢
      rw [update_of_ne hji]
      exact h.pointer j hj
  case first => exact hsb ▸ h.first
  case width => exact hsb ▸ h.width

/-- `addrs[bn]` gets a block of zeros. -/
theorem Taken.mapped_direct (htype : ip.type ≠ 0) (hbn : bn = nblk i) (hlt : bn < ndirect)
    (ht : Taken fs fs' b) : Mapped i fs fs' ip (setAddr ip bn b) nblk bn b := by
  have hpos := ht.ne_zero h
  have hdata := ht.data_eq
  have hsb := ht.sb_eq
  have hdinodes := ht.dinodes_eq
  have hi := view_type fs i htype
  have hself (l : Nat) : ref (setAddr ip bn b) fs'.data l =
      if l = bn then b else ref ip fs.data l := by
    have hown := ht.ref_eq h.alloc hi l
    rw [view_self] at hown
    rw [ref_setDirect hlt, hown]
  have hmax : ndirect ≤ maxfile := Nat.le_add_right ..
  have hne : ndirect ≠ bn := by omega
  have hptr : (setAddr ip bn b).addrs ndirect = ip.addrs ndirect := update_of_ne hne ..
  have hnoptr : ip.addrs ndirect = 0 := by
    by_contra hcon
    exact absurd ((h.pointer_iff htype).mp hcon) (by omega)
  have hzero := h.ref_zero htype hbn.ge (by omega)
  have halloc : Allocated (Managed fs.sb) (Metadata fs.sb)
      (owner (view fs' i (setAddr ip bn b)) fs'.data) fs'.bitmap := by
    rw [view_update hdinodes, ht.bitmap_eq]
    exact alloc_place (k := bn) h.alloc hi (by rw [view_self]; rfl) ht.managed ht.free hpos
      (by rwa [view_self]) (by rw [view_self]; exact hself) (fun j _ hj => ht.ref_eq h.alloc hj)
  constructor
  case sb => exact hsb
  case dinodes => exact hdinodes
  case same => rfl
  case owned =>
    refine owned_append h htype hbn (by omega) hsb hdinodes hpos halloc (fun l _ => hself l)
      (fun j _ hj l _ => ht.ref_eq h.alloc hj l) ?_
    rw [hptr, hnoptr]
    omega
  case block => rw [hself, if_pos rfl]
  case kept =>
    intro j hj k hk
    refine ⟨?_, ht.kept h.alloc (owner_of_lt h.blocks hj hk (h.small j hj))⟩
    by_cases hji : j = i
    · subst hji
      rw [view_self, view_self, hself, if_neg (by omega)]
    · rw [view_of_ne fs' _ hji, hdinodes, ← view_of_ne fs ip hji]
      exact ht.ref_eq h.alloc hj k
  case fresh => exact fun _ => by rw [hdata, update_self]
  case old => exact fun hlt' => by omega
  case logs => exact ht.logs
  case cost =>
    intro hone
    obtain ⟨hlen, hmap, hnew, -⟩ := ht.length_log hone
    rw [cost, cost, hptr, if_pos hnoptr, if_pos hnoptr, hsb, hmap, hnew]
    omega
  case free =>
    have hfree := ht.freeBlocks_eq
    rw [Nat.max_eq_right (by omega), footprint, footprint, if_neg (by omega), if_neg (by omega)]
    omega

end

def linked (fs : Fs) (ind bn b : Nat) : Fs :=
  { setBlock fs ind (setWord (fs.data ind) (bn - ndirect) b) with log := note fs.log ind }

section
variable {ind : Nat} (halloc : Allocated (Managed fs.sb) (Metadata fs.sb) (owner (view fs i ip) fs.data) fs.bitmap)
  (htype : ip.type ≠ 0) (hptr : ip.addrs ndirect = ind) (hpos : ind ≠ 0) (ht : Taken fs fs' b)
include halloc htype hptr hpos ht

omit halloc ht in
theorem owner_pointer : owner (view fs i ip) fs.data (i, maxfile) = some ind := by
  exact owner_eq_some.mpr ⟨view_type fs i htype, by rw [view_self, ref_pointer, hptr], hpos⟩

theorem Taken.linked_self (hlo : ndirect ≤ bn) (hmax : bn < maxfile) (hwidth : fs.sb.size < 2 ^ 32) (l : Nat) :
    ref ip (linked fs' ind bn b).data l = if l = bn then b else ref ip fs.data l := by
  have hold := ht.ref_eq halloc (view_type fs i htype) l
  rw [view_self] at hold
  rw [← hold]
  exact ref_setWord hlo hmax hptr hpos (Nat.lt_trans ht.managed hwidth) l

theorem Taken.linked_others (hji : j ≠ i) (hj : (view fs i ip j).type ≠ 0) (l : Nat) :
    ref (view fs i ip j) (linked fs' ind bn b).data l = ref (view fs i ip j) fs.data l := by
  rw [← ht.ref_eq halloc hj l]
  refine ref_update ?_ l
  by_contra hcon
  rw [not_or, not_ne_iff] at hcon
  have hown : owner (view fs i ip) fs.data (j, maxfile) = some ind := owner_eq_some.mpr ⟨hj, hcon.2, hpos⟩
  exact hji (congrArg Prod.fst (halloc.inj _ _ _ hown (owner_pointer htype hptr hpos)))

theorem Taken.linked_alloc (hlo : ndirect ≤ bn) (hmax : bn < maxfile) (hwidth : fs.sb.size < 2 ^ 32) (hb : b ≠ 0)
    (hzero : ref ip fs.data bn = 0) :
    Allocated (Managed fs.sb) (Metadata fs.sb) (owner (view (linked fs' ind bn b) i ip) (linked fs' ind bn b).data)
      (linked fs' ind bn b).bitmap := by
  have hdinodes : (linked fs' ind bn b).dinodes = fs.dinodes := ht.dinodes_eq
  have hbitmap : (linked fs' ind bn b).bitmap = update fs.bitmap b true := ht.bitmap_eq
  rw [view_update hdinodes, hbitmap]
  exact alloc_place (k := bn) halloc (by rwa [view_self]) (by rw [view_self]) ht.managed ht.free hb
    (by rwa [view_self])
    (by rw [view_self]; exact ht.linked_self halloc htype hptr hpos hlo hmax hwidth)
    (fun j hji hj => ht.linked_others halloc htype hptr hpos hji hj)

/-- A block of a file is neither the new block nor the indirect block. -/
theorem Taken.linked_kept (hk : k ≠ maxfile) (hown : owner (view fs i ip) fs.data (j, k) = some c) :
    (linked fs' ind bn b).data c = fs.data c := by
  have hne : c ≠ ind := halloc.ne_of_ne hown (owner_pointer htype hptr hpos) (by simp [hk])
  rw [← ht.kept halloc hown]
  exact update_of_ne hne ..

end

theorem Taken.linked_fresh (hne : b ≠ c) (ht : Taken fs fs' b) : (linked fs' c bn b).data b = fun _ => 0 := by
  rw [ht.eq]
  exact (update_of_ne hne ..).trans (update_self ..)

/-- A word of the indirect block gets a block of zeros. -/
theorem Pointed.mapped_indirect {fs₂ : Fs} {ind : Nat} (h : Owned fs (view fs i ip) nblk)
    (htype : ip.type ≠ 0) (hbn : bn = nblk i) (hlo : ndirect ≤ bn) (hmax : bn < maxfile)
    (hp : Pointed i fs fs₁ ip ip₁ nblk ind) (ht : Taken fs₁ fs₂ b) :
    Mapped i fs (linked fs₂ ind bn b) ip ip₁ nblk bn b := by
  have hi := view_type fs i htype
  have htype₁ : ip₁.type ≠ 0 := by
    rw [hp.same]
    exact htype
  have hview (j : Nat) (hj : j ≠ i) : view fs₁ i ip₁ j = view fs i ip j := by
    rw [view_of_ne fs₁ _ hj, view_of_ne fs _ hj, hp.dinodes]
  have halloc₁ : Allocated (Managed fs₁.sb) (Metadata fs₁.sb) (owner (view fs₁ i ip₁) fs₁.data) fs₁.bitmap := by
    rw [hp.sb]
    exact hp.alloc
  have hwidth : fs₁.sb.size < 2 ^ 32 := by
    rw [hp.sb]
    exact h.width
  have hpos : b ≠ 0 := by
    rintro rfl
    have hmeta := halloc₁.not_reserved ht.managed ht.free
    rw [hp.sb] at hmeta
    exact hmeta h.first
  have hne : b ≠ ind := by
    rintro rfl
    exact halloc₁.not_owned ht.managed ht.free _ (owner_pointer htype₁ hp.ptr hp.pos)
  have hsb : (linked fs₂ ind bn b).sb = fs.sb := ht.sb_eq.trans hp.sb
  have hdinodes : (linked fs₂ ind bn b).dinodes = fs.dinodes := ht.dinodes_eq.trans hp.dinodes
  have hold (l : Nat) (hl : l < maxfile) : ref ip₁ fs₁.data l = ref ip fs.data l := by
    have hrefs := hp.refs i hi l hl
    rwa [view_self, view_self] at hrefs
  have hself (l : Nat) (hl : l < maxfile) : ref ip₁ (linked fs₂ ind bn b).data l =
    if l = bn then b else ref ip fs.data l := by
    rw [ht.linked_self halloc₁ htype₁ hp.ptr hp.pos hlo hmax hwidth, hold l hl]
  have hothers (j : Nat) (hji : j ≠ i) (hj : (view fs i ip j).type ≠ 0) (l : Nat) (hl : l < maxfile) :
      ref (view fs i ip j) (linked fs₂ ind bn b).data l = ref (view fs i ip j) fs.data l := by
    have hnew : ref (view fs₁ i ip₁ j) (linked fs₂ ind bn b).data l = ref (view fs₁ i ip₁ j) fs₁.data l :=
      ht.linked_others halloc₁ htype₁ hp.ptr hp.pos hji (by rwa [hview j hji]) l
    rwa [hp.refs j hj l hl, hview j hji] at hnew
  have hzero := (hold bn hmax).trans (h.ref_zero htype hbn.ge hmax)
  have hptr : ip₁.addrs ndirect ≠ 0 := by
    rw [hp.ptr]
    exact hp.pos
  constructor
  case sb => exact hsb
  case dinodes => exact hdinodes
  case same => exact hp.same
  case owned =>
    have halloc := ht.linked_alloc halloc₁ htype₁ hp.ptr hp.pos hlo hmax hwidth hpos hzero
    rw [hp.sb] at halloc
    exact owned_append h htype hbn hmax hsb hdinodes hpos halloc hself hothers ⟨fun _ => hlo, fun _ => hptr⟩
  case block => rw [hself bn hmax, if_pos rfl]
  case kept =>
    intro j hj k hk
    have hsmall := h.small j hj
    have hk' : k < maxfile := by omega
    have hown : owner (view fs₁ i ip₁) fs₁.data (j, k) = some (ref (view fs i ip j) fs.data k) := by
      refine owner_eq_some.mpr ⟨?_, hp.refs j hj k hk', (h.blocks j hj k hk').mpr hk⟩
      by_cases hji : j = i
      · rwa [hji, view_self]
      · rwa [hview j hji]
    constructor
    · refine ref_view hdinodes (fun hji => ?_) fun hji => hothers j hji hj k hk'
      rw [hself k hk', if_neg (by subst hji; omega)]
    · rw [ht.linked_kept halloc₁ htype₁ hp.ptr hp.pos (by omega) hown]
      exact hp.kept j hj k hk
  case fresh => exact fun _ => ht.linked_fresh hne
  case old => exact fun hlt' => by omega
  case logs => exact (hp.logs.trans ht.logs).trans (logs_note ..)
  case cost =>
    intro hone
    obtain ⟨hlen, hmap, hnew, hmiss⟩ := ht.length_log (by rw [hp.sb]; exact hone)
    have hcost := hp.cost hone
    have hmapsb : (linked fs₂ ind bn b).sb.bmapstart = fs₁.sb.bmapstart := by rw [hsb, hp.sb]
    have hmap' := @miss_note_le ind fs₁.sb.bmapstart fs₂.log
    have hnew' := @miss_note_le ind b fs₂.log
    have hind := hmiss ind
    rw [FileSystem.cost, if_neg hptr, hp.ptr] at hcost
    rw [FileSystem.cost, if_neg hptr, hp.ptr, hmapsb]
    dsimp only [linked]
    rw [length_note, miss_note_self]
    omega
  case free =>
    have hfree := ht.freeBlocks_eq
    have hfree₁ := hp.free
    have hlinked : freeBlocks (linked fs₂ ind bn b) = freeBlocks fs₂ := rfl
    have hpointer := h.pointer_iff htype
    rw [Nat.max_eq_right (by omega), footprint, footprint, if_pos (show ndirect < bn + 1 by omega)]
    split at hfree₁
    case isTrue hnone => rw [if_neg (by omega)]; omega
    case isFalse hsome => rw [if_pos (hpointer.mp hsome)]; omega

/-- Why a call that visits `q` blocks and makes a file of `n` blocks one of `n'` may fail. -/
def Fails (fs : Fs) (ip : Dinode) (q n n' : Nat) (e : Trap) : Prop :=
  e = outOfBlocks ∧ freeBlocks fs + footprint n < footprint n' ∨
    e = tooBig ∧ (fs.sb.size ≤ bpb → logSize - 1 ≤ cost fs ip + q)

theorem footprint_lt (h : k < n') : footprint k < footprint n' := by
  simp only [footprint]
  split <;> split <;> omega

theorem fails_of_balloc {n : Nat} (hgrow : footprint n < footprint n')
    (h : e = outOfBlocks ∧ freeBlocks fs = 0 ∨
      e = tooBig ∧ ∃ b < fs.sb.size, logSize - 1 ≤ fs.log.lh.length + miss fs.log (bblock fs.sb b)) :
    Fails fs ip 1 n n' e := by
  rcases h with ⟨he, hfree⟩ | ⟨he, b, hb, hfull⟩
  · exact .inl ⟨he, by omega⟩
  · refine .inr ⟨he, fun hone => ?_⟩
    rw [bblock_eq hone hb] at hfull
    rw [cost]
    omega

section

variable (h : Owned fs (view fs i ip) nblk) (htype : ip.type ≠ 0)
include h htype

/-- The indirect block is counted, even if it is not the inode's on the disk yet. -/
theorem Pointed.fails {ind : Nat} (hbn : bn = nblk i) (hlo : ndirect ≤ bn) (hp : Pointed i fs fs₁ ip ip₁ nblk ind)
    (hfails : Fails fs₁ ip₁ 1 (bn + 1) (bn + 2) e) : Fails fs ip 1 (nblk i) (bn + 1) e := by
  rcases hfails with ⟨he, hfew⟩ | ⟨he, hcost⟩
  · refine .inl ⟨he, ?_⟩
    have hfree := hp.free
    have hpointer := h.pointer_iff htype
    simp only [footprint] at hfew ⊢
    rw [if_pos (by omega), if_pos (by omega)] at hfew
    rw [if_pos (show ndirect < bn + 1 by omega)]
    split at hfree
    case isTrue hnone => rw [if_neg (by omega)]; omega
    case isFalse hsome => rw [if_pos (hpointer.mp hsome)]; omega
  · refine .inr ⟨he, fun hone => ?_⟩
    have hold := hcost (by rw [hp.sb]; exact hone)
    have hle := hp.cost hone
    omega

theorem bmap_old (hlt : bn < nblk i) :
    bmap fs ip bn = .ok (fs, ip, ref ip fs.data bn) := by
  have hi := view_type fs i htype
  have hsmall := h.small i hi
  have hblock := (h.blocks i hi bn (by omega)).mpr hlt
  rw [view_self] at hblock
  rw [bmap]
  by_cases hd : bn < ndirect
  · rw [ref_direct hd] at hblock ⊢
    rw [if_pos hd, addrAt, if_neg hblock]
  · have hptr := (h.pointer_iff htype).mpr (show ndirect < nblk i by omega)
    have hmax : maxfile = ndirect + nindirect := rfl
    rw [ref_indirect (by omega) (by omega), if_neg hptr] at hblock ⊢
    rw [if_neg hd, if_pos (by omega), addrAt, if_neg hptr, ok_bind]
    dsimp only
    rw [if_neg hblock]

section

variable (hlog : Writable fs.log) (hbn : bn = nblk i)
include hlog hbn

theorem addrAt_direct_ends (hd : bn < ndirect) :
    Ends (addrAt fs ip bn) (Fails fs ip 1 (nblk i) (bn + 1))
      (fun r => Mapped i fs r.1 ip r.2.1 nblk bn r.2.2) := by
  have hmax : maxfile = ndirect + nindirect := rfl
  have hblock := h.ref_zero htype hbn.ge (by omega)
  rw [ref_direct hd] at hblock
  rw [addrAt, if_pos hblock]
  refine ((balloc_ends hlog).mono (fun _ he => fails_of_balloc (footprint_lt (by omega)) he)
    (fun _ hr => hr)).bind ?_
  rintro ⟨fs', b⟩ ht
  exact ht.mapped_direct h htype hbn hd

theorem addrAt_pointer_ends :
    Ends (addrAt fs ip ndirect) (Fails fs ip 1 (nblk i) (bn + 1))
      (fun r => Pointed i fs r.1 ip r.2.1 nblk r.2.2) := by
  rw [addrAt]
  split
  case isTrue hptr =>
    refine ((balloc_ends hlog).mono (fun _ he => fails_of_balloc (footprint_lt (by omega)) he)
      (fun _ hr => hr)).bind ?_
    rintro ⟨fs', b⟩ ht
    exact ht.pointed h htype hptr
  case isFalse hptr => exact pointed_refl h hptr

theorem Pointed.link_ends {ind : Nat} (hlo : ndirect ≤ bn) (hmax : bn < maxfile)
    (hp : Pointed i fs fs₁ ip ip₁ nblk ind) :
    Ends (do
        let (fs₂, b) ← balloc fs₁
        let fs₂ ← logWrite (setBlock fs₂ ind (setWord (fs₂.data ind) (bn - ndirect) b)) ind
        .ok (fs₂, ip₁, b))
      (Fails fs ip 1 (nblk i) (bn + 1)) (fun r => Mapped i fs r.1 ip r.2.1 nblk bn r.2.2) := by
  have hlog₁ := hp.logs.writable hlog
  refine ((balloc_ends hlog₁).mono (fun _ he => hp.fails h htype hbn hlo
    (fails_of_balloc (footprint_lt (Nat.lt_succ_self _)) he)) (fun _ hr => hr)).bind ?_
  rintro ⟨fs₂, b⟩ ht
  dsimp only at ht ⊢
  refine ((logWrite_ends (ht.logs.writable hlog₁) (setBlock fs₂ ind (setWord (fs₂.data ind) (bn - ndirect) b)) rfl
    ind).mono ?_ (fun _ hr => hr)).bind ?_
  · rintro e ⟨he, hfull⟩
    refine hp.fails h htype hbn hlo (.inr ⟨he, fun hone => ?_⟩)
    have hlen := (ht.length_log hone).1
    rw [FileSystem.cost]
    omega
  · rintro _ rfl
    exact hp.mapped_indirect h htype hbn hlo hmax ht

end

theorem bmap_ends (hlog : Writable fs.log) (hle : bn ≤ nblk i)
    (hmax : bn < maxfile) :
    Ends (bmap fs ip bn) (Fails fs ip 1 (nblk i) (bn + 1)) (fun r => Mapped i fs r.1 ip r.2.1 nblk bn r.2.2) := by
  by_cases hold : bn < nblk i
  · rw [bmap_old h htype hold]
    exact mapped_old h hold
  · have hbn : bn = nblk i := by omega
    rw [bmap]
    by_cases hd : bn < ndirect
    · rw [if_pos hd]
      exact addrAt_direct_ends h htype hlog hbn hd
    · have hmax' : maxfile = ndirect + nindirect := rfl
      rw [if_neg hd, if_pos (by omega)]
      refine (addrAt_pointer_ends h htype hlog hbn).bind ?_
      rintro ⟨fs₁, ip₁, ind⟩ hp
      dsimp only at hp ⊢
      have hzero : word (fs₁.data ind) (bn - ndirect) = 0 := by
        have hrefs := hp.refs i (view_type fs i htype) bn hmax
        rw [view_self, view_self, ref_indirect (by omega) hmax, hp.ptr, if_neg hp.pos] at hrefs
        rw [hrefs, h.ref_zero htype hbn.ge hmax]
      rw [if_pos hzero]
      exact hp.link_ends h htype hlog hbn (by omega) hmax

end

end Xv6.FileSystem
