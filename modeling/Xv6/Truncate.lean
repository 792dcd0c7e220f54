import Xv6.FileArrays

/-!
# Freeing files and making them

`itrunc` frees the blocks of an inode, each once, and the indirect block after the blocks it names,
and leaves an empty file. An inode that `iput` has truncated and freed owns nothing, and neither
does one that `ialloc` has just made.
-/
namespace Xv6.FileSystem

open Words Bytes RedoLog Allocation Outcome Function

variable {data : Nat → Buffer} {inodes : Nat → Dinode}

variable {fs fs' fs'' : Fs} {ip ip' : Dinode} {i j k b : Nat} {blocks blocks' : List Nat} {type : BitVec 16}

def bfrees : List Nat → Fs → Except Trap Fs
  | [], fs => .ok fs
  | b :: rest, fs => do
    let fs ← bfree fs b
    bfrees rest fs

theorem bfrees_append (xs ys : List Nat) (fs : Fs) : bfrees (xs ++ ys) fs = bfrees xs fs >>= bfrees ys := by
  induction xs generalizing fs with
  | nil => rfl
  | cons x xs ih =>
    simp only [List.cons_append, bfrees, ih]
    cases bfree fs x <;> rfl

theorem bfrees_data (h : bfrees blocks fs = .ok fs') : fs'.data = fs.data := by
  induction blocks generalizing fs with
  | nil =>
    cases h
    rfl
  | cons b rest ih =>
    obtain ⟨fs₁, hb, hrest⟩ := bind_eq_ok.mp h
    rw [ih hrest]
    rw [bfree] at hb
    split at hb
    · cases hb
    · obtain ⟨l, -, hfs⟩ := bind_eq_ok.mp hb
      cases hfs
      rfl

def nonzero (xs : List Nat) : List Nat := xs.filter (· ≠ 0)

theorem nonzero_cons (x : Nat) (xs : List Nat) : nonzero (x :: xs) =
    if x = 0 then nonzero xs else x :: nonzero xs := by
  by_cases hx : x = 0 <;> simp [nonzero, hx]

theorem truncIndirect_eq (a : Buffer) (l : List Nat) (fs : Fs) :
    truncIndirect a l fs = bfrees (nonzero (l.map (word a))) fs := by
  induction l generalizing fs with
  | nil => rfl
  | cons j rest ih =>
    rw [truncIndirect, List.map_cons, nonzero_cons]
    split
    · exact ih fs
    · simp only [bfrees, ih]

def cleared (ip : Dinode) (l : List Nat) : Dinode := { ip with addrs := fun k => if k ∈ l then 0 else ip.addrs k }

theorem truncDirect_eq {l : List Nat} (hnodup : l.Nodup) (fs : Fs) (ip : Dinode) :
    truncDirect l fs ip = bfrees (nonzero (l.map ip.addrs)) fs >>= fun fs => .ok (fs, cleared ip l) := by
  induction l generalizing fs ip with
  | nil => simp [truncDirect, bfrees, nonzero, cleared]
  | cons j rest ih =>
    obtain ⟨hj, hrest⟩ := List.nodup_cons.mp hnodup
    rw [truncDirect, List.map_cons, nonzero_cons]
    split
    case isTrue hzero =>
      have hclear : cleared ip rest = cleared ip (j :: rest) := by
        simp only [cleared, List.mem_cons, Dinode.mk.injEq, true_and]
        funext k
        by_cases hk : k = j <;> simp [hk, hzero]
      rw [ih hrest, hclear]
    case isFalse =>
      have hclear : cleared (setAddr ip j 0) rest = cleared ip (j :: rest) := by
        simp only [cleared, setAddr, List.mem_cons, Dinode.mk.injEq, true_and]
        funext k
        by_cases hk : k = j <;> simp [hk]
      have hmap : rest.map (setAddr ip j 0).addrs = rest.map ip.addrs := by
        refine List.map_congr_left fun k hk => update_of_ne ?_ ..
        rintro rfl
        exact hj hk
      simp only [bfrees, ih hrest, hclear, hmap]
      cases bfree fs (ip.addrs j) <;> rfl

structure Freed (blocks : List Nat) (fs fs' : Fs) : Prop where
  eq : fs' = { fs with bitmap := fun b => if b ∈ blocks then false else fs.bitmap b, log := fs'.log }
  logs : Logs fs.log fs'.log

theorem Freed.bitmap_eq (h : Freed blocks fs fs') (b : Nat) : fs'.bitmap b =
    if b ∈ blocks then false else fs.bitmap b := by rw [h.eq]

theorem Freed.trans (h : Freed blocks fs fs') (h' : Freed blocks' fs' fs'') :
    Freed (blocks ++ blocks') fs fs'' := by
  constructor
  case eq =>
    rw [h'.eq, h.eq]
    simp only [List.mem_append, Fs.mk.injEq, true_and, and_true]
    funext b
    by_cases hb : b ∈ blocks' <;> by_cases hb' : b ∈ blocks <;> simp [hb, hb']
  case logs => exact h.logs.trans h'.logs

theorem bfree_ends (hlog : Writable fs.log) (hused : fs.bitmap b = true) :
    Ends (bfree fs b) (· = tooBig) (Freed [b] fs) := by
  rw [bfree, if_neg (by simp [hused])]
  refine (logWrite_ends hlog (setBit fs b false) rfl (bblock fs.sb b)).mono (fun _ he => he.1) ?_
  rintro _ rfl
  constructor
  case eq =>
    simp only [setBit, List.mem_singleton, Fs.mk.injEq, true_and, and_true]
    funext c
    rw [update_apply]
  case logs => exact logs_note _ _

theorem bfrees_ends (hlog : Writable fs.log) (hnodup : blocks.Nodup) (hused : ∀ b ∈ blocks, fs.bitmap b = true) :
    Ends (bfrees blocks fs) (· = tooBig) (Freed blocks fs) := by
  induction blocks generalizing fs with
  | nil => exact ⟨by simp, Logs.refl _⟩
  | cons b rest ih =>
    obtain ⟨hb, hrest⟩ := List.nodup_cons.mp hnodup
    refine (bfree_ends hlog (hused b List.mem_cons_self)).bind fun fs₁ hfreed => ?_
    refine (ih (hfreed.logs.writable hlog) hrest fun c hc => ?_).imp fun fs₂ h => hfreed.trans h
    have hne : c ≠ b := by
      rintro rfl
      exact hb hc
    rw [hfreed.bitmap_eq, if_neg (by simpa using hne)]
    exact hused c (List.mem_cons_of_mem b hc)

def slots (ip : Dinode) (data : Nat → Buffer) : List Nat := (List.range (maxfile + 1)).filter
    (fun k => ref ip data k ≠ 0)

/-- The blocks of an inode in the order in which `itrunc` frees them. -/
def held (ip : Dinode) (data : Nat → Buffer) : List Nat := (slots ip data).map (ref ip data)

theorem held_eq (ip : Dinode) (data : Nat → Buffer) : held ip data =
    nonzero ((List.range ndirect).map ip.addrs) ++ if ip.addrs ndirect = 0 then [] else
      nonzero ((List.range nindirect).map (word (data (ip.addrs ndirect)))) ++ [ip.addrs ndirect] := by
  have hsplit : List.range (maxfile + 1) = List.range ndirect ++
    ((List.range nindirect).map (ndirect + ·) ++ [maxfile]) := by
    decide +kernel
  have hmap : held ip data = nonzero ((List.range (maxfile + 1)).map (ref ip data)) := by
    rw [held, slots, nonzero, List.filter_map]
    rfl
  have hdirect : (List.range ndirect).map (ref ip data) = (List.range ndirect).map ip.addrs :=
    List.map_congr_left fun k hk => ref_direct (List.mem_range.mp hk)
  have hword : (List.range nindirect).map (ref ip data ∘ (ndirect + ·)) = (List.range nindirect).map
      (fun j => if ip.addrs ndirect = 0 then 0 else word (data (ip.addrs ndirect)) j) := by
    refine List.map_congr_left fun j hj => ?_
    have hlt : ndirect + j < maxfile := Nat.add_lt_add_left (List.mem_range.mp hj) ndirect
    simp only [comp_apply, ref]
    rw [if_neg (by omega), if_pos hlt, Nat.add_sub_cancel_left]
  rw [hmap, hsplit, List.map_append, List.map_append, List.map_map, hdirect, hword]
  simp only [nonzero, List.filter_append, List.map_cons, List.map_nil, ref_pointer]
  split
  case isTrue hzero => simp [hzero]
  case isFalse hptr => simp [hptr]

theorem filter_lt_range {n m : Nat} (h : n ≤ m) : (List.range m).filter (fun k => k < n) = List.range n := by
  obtain ⟨d, rfl⟩ := Nat.exists_eq_add_of_le h
  rw [List.range_add, List.filter_append, List.filter_eq_self.mpr (by simp),
    List.filter_eq_nil_iff.mpr (by simp), List.append_nil]

theorem mem_slots : k ∈ slots ip fs.data ↔ k ≤ maxfile ∧ ref ip fs.data k ≠ 0 := by
  simp only [slots, List.mem_filter, List.mem_range, Nat.lt_succ_iff, decide_eq_true_eq]

section
variable (h : Consistent fs) (htype : (fs.dinodes i).type ≠ 0)
include h htype

omit h in
theorem owner_slot (hk : k ∈ slots (fs.dinodes i) fs.data) :
    owner fs.dinodes fs.data (i, k) = some (ref (fs.dinodes i) fs.data k) :=
  owner_eq_some.mpr ⟨htype, rfl, (mem_slots.mp hk).2⟩

theorem Consistent.held_nodup : (held (fs.dinodes i) fs.data).Nodup := by
  refine List.Nodup.map_on (fun k hk l hl heq => ?_) (List.nodup_range.filter _)
  have hkl := h.owned.alloc.inj _ _ _ (owner_slot htype hk) ((owner_slot htype hl).trans (congrArg some heq.symm))
  exact (Prod.mk.inj hkl).2

theorem Consistent.held_used (b : Nat) (hb : b ∈ held (fs.dinodes i) fs.data) : fs.bitmap b = true := by
  obtain ⟨k, hk, rfl⟩ := List.mem_map.mp hb
  have hown := owner_slot htype hk
  obtain ⟨hlt, -⟩ := h.owned.alloc.inside _ _ hown
  exact (h.owned.alloc.used_iff _ hlt).mpr (.inr ⟨_, hown⟩)

theorem Consistent.length_held : (held (fs.dinodes i) fs.data).length =
    footprint (blocksOf (fs.dinodes i).size) := by
  have hsmall := h.owned.small i htype
  have hslots : slots (fs.dinodes i) fs.data = List.range (blocksOf (fs.dinodes i).size) ++
      if ndirect < blocksOf (fs.dinodes i).size then [maxfile] else [] := by
    have hblocks : (List.range maxfile).filter (fun k => ref (fs.dinodes i) fs.data k ≠ 0) =
        (List.range maxfile).filter (fun k => k < blocksOf (fs.dinodes i).size) := by
      refine List.filter_congr fun k hk => ?_
      rw [decide_eq_decide]
      exact h.owned.blocks i htype k (List.mem_range.mp hk)
    have hptr : ref (fs.dinodes i) fs.data maxfile ≠ 0 ↔ ndirect < blocksOf (fs.dinodes i).size := by
      rw [ref_pointer]
      exact h.owned.pointer i htype
    rw [slots, List.range_succ, List.filter_append, hblocks, filter_lt_range hsmall]
    by_cases hbig : ndirect < blocksOf (fs.dinodes i).size
    · simp [hbig, hptr.mpr hbig]
    · simp [hbig, not_not.mp (mt hptr.mp hbig)]
  rw [held, List.length_map, hslots, List.length_append, List.length_range, footprint]
  split <;> rfl

end

def emptied (ip : Dinode) : Dinode := { cleared (cleared ip (List.range ndirect)) [ndirect] with size := 0 }

theorem emptied_addrs (ip : Dinode) (k : Nat) (hk : k ≤ ndirect) : (emptied ip).addrs k = 0 := by
  simp only [emptied, cleared, List.mem_singleton, List.mem_range]
  split
  · rfl
  · rw [if_pos (by omega)]

theorem emptied_eq (hptr : ip.addrs ndirect = 0) : { cleared ip (List.range ndirect) with
    size := 0 } = emptied ip := by
  simp only [emptied, cleared, Dinode.mk.injEq, true_and]
  funext k
  by_cases hk : k = ndirect <;> simp [hk, hptr]

theorem itrunc_eq (fs : Fs) (ip : Dinode) : itrunc fs i ip = (do
    let fs ← bfrees (held ip fs.data) fs
    let fs ← iupdate fs i (emptied ip)
    .ok (fs, emptied ip)) := by
  have hptr : (cleared ip (List.range ndirect)).addrs ndirect = ip.addrs ndirect := by simp [cleared]
  have hset : setAddr (cleared ip (List.range ndirect)) ndirect 0 =
    cleared (cleared ip (List.range ndirect)) [ndirect] := by
    simp only [setAddr, cleared, Dinode.mk.injEq, true_and]
    funext k
    by_cases hk : k = ndirect <;> simp [hk]
  rw [itrunc, truncDirect_eq List.nodup_range, held_eq]
  split
  case isTrue hzero =>
    rw [List.append_nil]
    cases bfrees (nonzero ((List.range ndirect).map ip.addrs)) fs with
    | error e => rfl
    | ok fs₁ => simp only [ok_bind, hptr, hzero, ↓reduceIte, emptied_eq hzero]
  case isFalse hne =>
    rw [bfrees_append]
    cases hfirst : bfrees (nonzero ((List.range ndirect).map ip.addrs)) fs with
    | error e => rfl
    | ok fs₁ =>
      simp only [ok_bind, hptr, hne, ↓reduceIte, bfrees_data hfirst, truncIndirect_eq, hset, bfrees_append]
      cases bfrees (nonzero ((List.range nindirect).map (word (fs.data (ip.addrs ndirect))))) fs₁ with
      | error e => rfl
      | ok fs₂ =>
        simp only [ok_bind, bfrees]
        cases bfree fs₂ (ip.addrs ndirect) <;> rfl

/-- The blocks of inode `i` are free, and the inode is `ip'` now. -/
structure Released (i : Nat) (fs fs' : Fs) (ip' : Dinode) : Prop where
  consistent : Consistent fs'
  sb : fs'.sb = fs.sb
  dinodes : fs'.dinodes = update fs.dinodes i ip'
  logs : Logs fs.log fs'.log

theorem ref_emptied (hzero : ∀ k ≤ ndirect, ip'.addrs k = 0) (k : Nat) : ref ip' data k = 0 := by
  have hptr := hzero ndirect (Nat.le_refl _)
  simp only [ref, hptr, ↓reduceIte]
  split
  case isTrue hk => exact hzero k (Nat.le_of_lt hk)
  case isFalse => split <;> simp

theorem ref_beyond (hk : maxfile < k) : ref ip data k = 0 := by
  have hle : ndirect ≤ maxfile := Nat.le_add_right ..
  rw [ref, if_neg (by omega), if_neg (by omega), if_neg (by omega)]

theorem owner_update (hzero : ∀ k ≤ ndirect, ip'.addrs k = 0) :
    owner (update inodes i ip') data = fun x => if x.1 = i then none else owner inodes data x := by
  funext x
  obtain ⟨j, k⟩ := x
  dsimp only
  split
  case isTrue hj => exact if_pos (.inr (by rw [hj, update_self]; exact ref_emptied hzero k))
  case isFalse hj =>
    rw [owner, owner]
    dsimp only
    rw [update_of_ne hj]

/-- An inode without blocks instead of another one without blocks. -/
theorem owner_put_empty (hnone : ∀ k, owner inodes data (i, k) = none)
    (hzero : ∀ k ≤ ndirect, ip'.addrs k = 0) : owner (update inodes i ip') data = owner inodes data := by
  rw [owner_update hzero]
  funext x
  obtain ⟨j, k⟩ := x
  dsimp only
  split
  case isTrue hj => rw [hj, hnone k]
  case isFalse => rfl

/-- The owners of blocks without those of inode `i`. -/
theorem owner_emptied (hzero : ∀ k ≤ ndirect, ip'.addrs k = 0) : owner (update fs.dinodes i ip') fs.data =
    fun x => if x ∈ (slots (fs.dinodes i) fs.data).map (Prod.mk i) then none else owner fs.dinodes fs.data x := by
  rw [owner_update hzero]
  funext x
  obtain ⟨j, k⟩ := x
  by_cases hj : j = i
  · rw [if_pos hj]
    split
    case isTrue => rfl
    case isFalse hk =>
      refine (if_pos (.inr ?_)).symm
      subst hj
      by_contra hne
      refine hk (List.mem_map_of_mem (mem_slots.mpr ⟨?_, hne⟩))
      by_contra hlt
      exact hne (ref_beyond (Nat.lt_of_not_le hlt))
  · rw [if_neg hj, if_neg (by simp [Ne.symm hj])]

/-- Inode `i` is one without blocks now. -/
theorem Consistent.put_empty (h : Consistent fs) (hi : 0 < i ∧ i < fs.sb.ninodes)
    (hsb : fs'.sb = fs.sb) (hdata : fs'.data = fs.data)
    (hdinodes : fs'.dinodes = update fs.dinodes i ip') (hsize : ip'.size = 0)
    (hzero : ∀ k ≤ ndirect, ip'.addrs k = 0)
    (halloc : Allocated (Managed fs.sb) (Metadata fs.sb) (owner (update fs.dinodes i ip') fs.data) fs'.bitmap) :
    Consistent fs' := by
  have hnone : blocksOf ip'.size = 0 := by rw [hsize]; rfl
  have hcases (p : Nat → Dinode → Prop) (hnew : p i ip') (hold : ∀ j, p j (fs.dinodes j))
    (j : Nat) : p j (fs'.dinodes j) := by
    rw [hdinodes]
    exact (forall_update_iff fs.dinodes (p := p)).mpr ⟨hnew, fun j _ => hold j⟩ j
  constructor
  case owned =>
    constructor
    case alloc => rwa [hsb, hdata, hdinodes]
    case small =>
      exact hcases (fun _ ip => ip.type ≠ 0 → blocksOf ip.size ≤ maxfile)
        (fun _ => hnone ▸ Nat.zero_le _) h.owned.small
    case blocks =>
      rw [hdata]
      refine hcases (fun _ ip => ip.type ≠ 0 → ∀ k < maxfile,
        ref ip fs.data k ≠ 0 ↔ k < blocksOf ip.size) ?_ h.owned.blocks
      intro _ k _
      simp [hnone, ref_emptied hzero]
    case pointer =>
      refine hcases (fun _ ip => ip.type ≠ 0 → (ip.addrs ndirect ≠ 0 ↔
        ndirect < blocksOf ip.size)) ?_ h.owned.pointer
      simp [hnone, hzero _ (Nat.le_refl _)]
    case first => exact hsb ▸ h.owned.first
    case width => exact hsb ▸ h.owned.width
  case range =>
    rw [hsb]
    exact hcases (fun j ip => ip.type ≠ 0 → 0 < j ∧ j < fs.sb.ninodes) (fun _ => hi) h.range

section

variable (h : Consistent fs) (htype : (fs.dinodes i).type ≠ 0)
include h htype

theorem Freed.alloc
    (hfreed : Freed (held (fs.dinodes i) fs.data) fs fs') (hzero : ∀ k ≤ ndirect, ip'.addrs k = 0) :
    Allocated (Managed fs.sb) (Metadata fs.sb) (owner (update fs.dinodes i ip') fs.data) fs'.bitmap := by
  have hfree := h.owned.alloc.freeAll (fun x => ref (fs.dinodes x.1) fs.data x.2)
    ((slots (fs.dinodes i) fs.data).map (Prod.mk i))
      ((List.nodup_range.filter _).map (Prod.mk_right_injective i)) (by
      intro x hx
      obtain ⟨k, hk, rfl⟩ := List.mem_map.mp hx
      exact owner_slot htype hk)
  have hbits : fs'.bitmap = fun b => if b ∈ held (fs.dinodes i) fs.data then false else fs.bitmap
    b := funext hfreed.bitmap_eq
  rw [List.map_map] at hfree
  rw [owner_emptied hzero, hbits]
  convert hfree
  rfl

theorem itrunc_ends (hlog : Writable fs.log) :
    Ends (itrunc fs i (fs.dinodes i)) (· = tooBig) (fun r =>
      Released i fs r.1 r.2 ∧ r.2 = emptied (fs.dinodes i)) := by
  rw [itrunc_eq]
  refine (bfrees_ends hlog (h.held_nodup htype) (h.held_used htype)).bind fun fs₁ hfreed => ?_
  have hends := iupdate_ends (hfreed.logs.writable hlog) i (emptied (fs.dinodes i))
  refine (hends.mono (fun _ he => he.1) fun _ hr => hr).bind ?_
  rintro _ rfl
  have hdinodes : fs₁.dinodes = fs.dinodes := by rw [hfreed.eq]
  have halloc := hfreed.alloc h htype (emptied_addrs (fs.dinodes i))
  have hsb : fs₁.sb = fs.sb := by rw [hfreed.eq]
  rw [hdinodes]
  refine ⟨⟨?_, hsb, rfl, hfreed.logs.trans (logs_note _ _)⟩, rfl⟩
  exact h.put_empty (h.range i htype) hsb (by rw [hfreed.eq]) rfl rfl (emptied_addrs _) halloc

/-- The branch of `iput` that frees the inode. -/
def ifree (fs : Fs) (inum : Nat) (ip : Dinode) : Except Trap Fs := do
  let (fs, ip) ← itrunc fs inum ip
  iupdate fs inum { ip with type := 0 }

theorem ifree_ends (hlog : Writable fs.log) :
    Ends (ifree fs i (fs.dinodes i)) (· = tooBig) (fun r =>
      Released i fs r { emptied (fs.dinodes i) with type := 0 }) := by
  refine (itrunc_ends h htype hlog).bind ?_
  rintro ⟨fs₁, ip₁⟩ ⟨hreleased, hip⟩
  dsimp only at hreleased hip ⊢
  subst hip
  refine (iupdate_ends (hreleased.logs.writable hlog) i _).mono (fun _ he => he.1) ?_
  rintro _ rfl
  have hzero := emptied_addrs (fs.dinodes i)
  have hnone (k : Nat) : owner fs₁.dinodes fs₁.data (i, k) = none := by
    refine if_pos (.inr ?_)
    rw [hreleased.dinodes, update_self]
    exact ref_emptied hzero k
  refine ⟨hreleased.consistent.put_empty (hreleased.sb ▸ h.range i htype) rfl rfl rfl rfl hzero ?_,
    hreleased.sb, ?_,
    hreleased.logs.trans (logs_note _ _)⟩
  · have hsame : owner (update fs₁.dinodes i { emptied (fs.dinodes i) with type := 0 }) fs₁.data = _ :=
      owner_put_empty hnone hzero
    rw [hsame]
    exact hreleased.consistent.owned.alloc
  · dsimp only
    rw [hreleased.dinodes, update_idem]

end

def noInodes : Trap := .panic "ialloc: no inodes"

/-- Inode `i` was free and is an empty file now. -/
structure Made (i : Nat) (fs fs' : Fs) (type : BitVec 16) : Prop where
  consistent : Consistent fs'
  free : (fs.dinodes i).type = 0
  range : 0 < i ∧ i < fs.sb.ninodes
  eq : fs' = { fs with dinodes := update fs.dinodes i (freshInode type), log := note fs.log (iblock fs.sb i) }

theorem ialloc_ends (h : Consistent fs) (hlog : Writable fs.log) :
    Ends (ialloc fs type)
      (fun e => e = noInodes ∧ (∀ j, 0 < j → j < fs.sb.ninodes → (fs.dinodes j).type ≠ 0) ∨
        e = tooBig ∧ logSize - 1 ≤ fs.log.lh.length)
      (fun r => Made r.2 fs r.1 type) := by
  rw [ialloc]
  split
  case h_1 hnone =>
    refine .inl ⟨rfl, fun j hpos hlt hfree => ?_⟩
    have hj := List.find?_eq_none.mp hnone j (List.mem_range.mpr hlt)
    simp [hfree] at hj
    omega
  case h_2 j hsome =>
    have hlt := List.mem_range.mp (List.mem_of_find?_eq_some hsome)
    obtain ⟨hpos, hfree⟩ : 1 ≤ j ∧ (fs.dinodes j).type = 0 := by simpa using List.find?_some hsome
    refine ((iupdate_ends hlog j (freshInode type)).mono (fun _ he => .inr he) (fun _ hr => hr)).bind ?_
    rintro _ rfl
    refine ⟨h.put_empty ⟨hpos, hlt⟩ rfl rfl rfl rfl (fun _ _ => rfl) ?_, hfree, ⟨hpos, hlt⟩, rfl⟩
    rw [owner_put_empty (fun k => owner_of_type hfree) fun _ _ => rfl]
    exact h.owned.alloc

end Xv6.FileSystem
