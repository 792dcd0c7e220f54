import Xv6.ExecArgs

/-!
# The image of a program

What the memory of a program is that `exec` has started. The loader lays each segment over zeros, in
the order of the headers; `allocuvm` gives the pages as zeros and `loaduvm` stores the bytes of the
file. Neither the stack nor the arguments come to the pages of the program.
-/
namespace Xv6.ExecImage

open Words Mmu Memory Kalloc Vm Outcome PageTable AddressSpace PageNumber UserPages Dedup Kernel
open KernelInv Boot FreeVm PageWalk Transparency CopyOut Exec ExecLoad ExecCommit Exhaustion
open ExecArgs

variable {m : Machine} {s₀ s s' : State} {kpdpt r n k q a : Nat} {held : List Nat} {x x' : Image} {c : List Byte}
  {addr size size' : Word} {offset sz i off : BitVec 32} {B : Nat → Byte} {ph : Proghdr} {L : List Proghdr}

def elf (c : List Byte) : Elfhdr := elfhdr (c.take 64)

def loadable (c : List Byte) : Nat → Nat → List Proghdr
  | 0, _ => []
  | j + 1, o =>
    let ph := proghdr ((c.drop o).take 56)
    if ph.type = elfProgLoad then ph :: loadable c j (o + 56) else loadable c j (o + 56)

def segments (c : List Byte) : List Proghdr := loadable c (elf c).phnum (elf c).phoff.toNat

def Covers (ph : Proghdr) (j : Nat) : Prop :=
  ph.vaddr.toNat / 4096 ≤ j ∧ j * 4096 < ph.vaddr.toNat + ph.memsz.toNat

structure Fits (c : List Byte) (ph : Proghdr) : Prop where
  aligned : ph.vaddr.toNat % 4096 = 0
  low : 4096 ≤ ph.vaddr.toNat
  size : ph.filesz.toNat ≤ ph.memsz.toNat
  inside : ph.off.toNat + ph.filesz.toNat ≤ c.length

/-- The headers are in the file, and no two segments have a page in common. The size of a file is a
`uint`. -/
structure WellFormed (c : List Byte) : Prop where
  length : c.length < 2 ^ 32
  table : (elf c).phoff.toNat + 56 * (elf c).phnum ≤ c.length
  fits : ∀ ph ∈ segments c, Fits c ph
  apart : (segments c).Pairwise fun p p' => ∀ j, ¬ (Covers p j ∧ Covers p' j)

/-- The memory `B` with the bytes of a segment over it. -/
def lay (c : List Byte) (ph : Proghdr) (B : Nat → Byte) (a : Nat) : Byte :=
  if ph.vaddr.toNat ≤ a ∧ a < ph.vaddr.toNat + ph.filesz.toNat then c.getD
    (ph.off.toNat + (a - ph.vaddr.toNat)) 0 else B a

def layAll (c : List Byte) (L : List Proghdr) (B : Nat → Byte) : Nat → Byte := L.foldl (fun B ph => lay c ph B) B

theorem layAll_other (h : ∀ ph ∈ L, ¬ (ph.vaddr.toNat ≤ a ∧ a < ph.vaddr.toNat + ph.filesz.toNat)) :
    layAll c L B a = B a := by
  induction L generalizing B with
  | nil => rfl
  | cons ph L ih =>
    rw [List.forall_mem_cons] at h
    rw [layAll, List.foldl_cons, ← layAll, ih h.2, lay, if_neg h.1]

/-- Segments that are apart do not hide one another. -/
theorem layAll_mem (hfit : ∀ ph ∈ L, Fits c ph) (hapart : L.Pairwise fun p p' => ∀ j, ¬ (Covers p j ∧ Covers p' j))
    (hph : ph ∈ L) (h₁ : ph.vaddr.toNat ≤ a) (h₂ : a < ph.vaddr.toNat + ph.memsz.toNat) :
    layAll c L B a = lay c ph B a := by
  have hpage (p : Proghdr) (hp : Fits c p) (h₁ : p.vaddr.toNat ≤ a) (h₂ : a < p.vaddr.toNat + p.memsz.toNat) :
      Covers p (a / 4096) := ⟨by omega, by omega⟩
  induction L generalizing B with
  | nil => cases hph
  | cons p L ih =>
    rw [List.pairwise_cons] at hapart
    rw [List.forall_mem_cons] at hfit
    rw [layAll, List.foldl_cons, ← layAll]
    rcases List.mem_cons.mp hph with rfl | hph
    · refine layAll_other fun p' hp' hin => hapart.1 p' hp' (a / 4096) ⟨hpage _ hfit.1 h₁ h₂, ?_⟩
      have := (hfit.2 p' hp').size
      exact hpage p' (hfit.2 p' hp') hin.1 (by omega)
    · rw [ih hfit.2 hapart.2 hph, lay, lay]
      have := hfit.1.size
      have hnot : ¬ (p.vaddr.toNat ≤ a ∧ a < p.vaddr.toNat + p.filesz.toNat) := fun hin =>
        hapart.1 ph hph (a / 4096) ⟨hpage p hfit.1 hin.1 (by omega), hpage ph (hfit.2 ph hph) h₁ h₂⟩
      rw [lay, if_neg hnot]

def Holds (mem : Mem) (r n : Nat) (B : Nat → Byte) : Prop :=
  ∀ v : Word, 4096 ≤ v.toNat → v.toNat < n * 4096 → userByte mem r v = some (B v.toNat)

section

variable (h : Building s₀ s kpdpt r n held)
include h

theorem building_userPage (h₁ : 0 < k) (h₂ : k < n) : UserPage s.mem r k := by
  obtain ⟨f, -, -, hf⟩ := h.page k h₁ h₂
  rw [UserPage, hf]
  exact ⟨(fresh_user f).1, (fresh_user f).2.2⟩

theorem building_unshared : Unshared s.mem r := by
  refine unshared_of_writable h.space.tree fun j hj hp => ?_
  by_cases hin : 0 < j ∧ j < n
  · obtain ⟨f, -, -, hf⟩ := h.page j hin.1 hin.2
    rw [hf]
    exact (fresh_user f).2.1
  · rw [h.other j (by omega) (by omega)] at hp
    exact absurd hp (by decide)

theorem building_copied {bs : List Byte} (hn : 1 < n)
    (hc : Copied s s' kpdpt r held a bs) : Building s₀ s' kpdpt r n held := by
  refine ⟨hc.space, h.pos, fun k h₁ h₂ => ?_, fun k hk hout => ?_, fun he => by omega,
    fun g hg => (hc.kept g hg).trans (h.kept g hg), by rw [hc.free]; exact h.sub, by rw [hc.free]; exact h.few⟩
  · rw [hc.entries]
    exact h.page k h₁ h₂
  · rw [hc.entries]
    exact h.other k hk hout

theorem building_small : n < 2 ^ 34 := by
  have hfew := h.few
  rw [nframes_eq] at hfew
  omega

end

/-- A page keeps its bytes where its entry stays and only free frames and tables change. -/
theorem userByte_same {v : Word} (h : Space s kpdpt r held)
    (hold : entry s'.mem r (v.toNat / 4096) = entry s.mem r (v.toNat / 4096))
    (hcontents : ∀ g, g ∉ s.freelist → ¬ IsTable s.mem r g → s'.mem g = s.mem g) :
    userByte s'.mem r v = userByte s.mem r v := by
  by_cases hv : v.toNat < 2 ^ 47 ∧ UserPage s.mem r (v.toNat / 4096)
  · have hmem := h.tree.leaf_mem rfl hv.2.child
    rw [userByte_of_page hv.1 hv.2, userByte_of_page hv.1 (by rw [UserPage, hold]; exact hv.2), hold,
      hcontents _ (h.owned.counted.not_mem_free (by simp [hmem])) (h.tree.leaf_not_table rfl hv.2.child)]
  · rw [userByte_none hv, userByte_none (by rw [UserPage, hold]; exact hv)]

theorem pageByte_zero (o : Nat) : pageByte (fun _ => 0) o = 0 := by simp [pageByte, byteOf]

theorem holds_grown {n' : Nat} (h : Building s₀ s kpdpt r n held) (hn : n' < 2 ^ 34)
    (hg : Grown Zeroed s s' r n n') (hold : Holds s.mem r n B) (hB : ∀ a, n * 4096 ≤ a → B a = 0) :
    Holds s'.mem r n' B := by
  intro v h₁ h₂
  have hpos := h.pos
  by_cases hv : v.toNat < n * 4096
  · rw [userByte_same h.space (hg.old _ (by omega) (.inl (by omega))) hg.contents, hold v h₁ hv]
  · obtain ⟨f, -, hc, he, hz⟩ := hg.new (v.toNat / 4096) (by omega) (by omega)
    have hf : frameOf (entry s'.mem r (v.toNat / 4096)) = f := (child_eq_some.mp hc).2
    rw [userByte_of_page (by omega), hf, hz, pageByte_zero, hB _ (by omega)]
    rw [UserPage, he]
    exact ⟨(fresh_user f).1, (fresh_user f).2.2⟩

section

variable (hfull : m.Full) (h : Building s₀ x.vm kpdpt r n held) (hc : c.length < 2 ^ 32)
include hfull h hc

/-- A turn of the loop that reads all it asks for. -/
theorem loadLoop_turn (hq : 0 < q) (hqn : q < n)
    (ha : addr.toNat + i.toNat = q * 4096) (hin : offset.toNat + sz.toNat ≤ c.length)
    (hi : i.toNat < sz.toNat) (k : Nat) :
    ∃ y, loadLoop m (kva r) addr c offset sz (k + 1) x i = loadLoop m (kva r) addr c offset sz k y (i + 0x1000) ∧
      Copied x.vm y.vm kpdpt r held (q * 4096)
        ((c.drop (offset.toNat + i.toNat)).take (min (sz.toNat - i.toNat) 4096)) := by
  have hsmall := building_small h
  have hva : (addr + i.setWidth 64).toNat = q * 4096 := by
    rw [BitVec.toNat_add, BitVec.toNat_setWidth]
    omega
  have hoff : (offset + i).toNat = offset.toNat + i.toNat := by
    rw [BitVec.toNat_add]
    omega
  have hchunk : (chunk sz i).toNat = min (sz.toNat - i.toNat) 4096 := by
    have hsub : (sz - i).toNat = sz.toNat - i.toNat := by
      rw [BitVec.toNat_sub]
      omega
    rw [chunk, hsub, pgSize]
    split
    · omega
    · rw [show (0x1000 : BitVec 32).toNat = 4096 from rfl]
      omega
  obtain ⟨t, hw⟩ := h.table (by omega) hqn
  have hread : readExact c (offset + i) (chunk sz i) = _ := readExact_inside hc (by omega)
  rw [hoff, hchunk] at hread
  generalize hbs : (c.drop (offset.toNat + i.toNat)).take (min (sz.toNat - i.toNat) 4096) = bs at hread ⊢
  obtain ⟨hreadi, hlen⟩ := Option.filter_eq_some_iff.mp hread
  have hlen := of_decide_eq_true hlen
  have hu := building_userPage h hq hqn
  obtain ⟨vm, hmove, hcopied⟩ : ∃ vm, memmove m x.vm (kva (frameOf (entry x.vm.mem r q))) bs = .ok vm ∧
      Copied x.vm vm kpdpt r held (q * 4096 + 0) bs :=
    memmove_copied hfull h.space (building_unshared h) (by omega) hu (Nat.add_zero _).symm (by omega)
  rw [Nat.add_zero] at hcopied
  refine ⟨⟨vm, if bs = [] then x.written else kva (frameOf (entry x.vm.mem r q)) :: x.written⟩, ?_, hcopied⟩
  rw [loadLoop, walkpgdir_page hfull h.space.tree hva (by omega), ok_bind, hw]
  simp only [Option.map_some, read_entry hfull h.space.tree hw, ok_bind, hreadi, p2v_entry hu.child,
    hmove, hlen, if_true]

/-- The bytes of the file are where the segment says. -/
theorem loadLoop_copied (hq : 0 < q)
    (ha : addr.toNat + i.toNat = q * 4096) (hin : offset.toNat + sz.toNat ≤ c.length) (hqn : q + k ≤ n)
    (hk : k = (sz.toNat - i.toNat + 4095) / 4096) :
    ∃ y, loadLoop m (kva r) addr c offset sz k x i = .ok (y, 0) ∧
      Copied x.vm y.vm kpdpt r held (q * 4096) ((c.drop (offset.toNat + i.toNat)).take (sz.toNat - i.toNat)) := by
  induction k generalizing x q i with
  | zero =>
    rw [show sz.toNat - i.toNat = 0 by omega, List.take_zero]
    exact ⟨x, rfl, .nil h.space _⟩
  | succ k ih =>
    obtain ⟨y, hturn, hcopied⟩ := loadLoop_turn hfull h hc hq (by omega) ha hin (by omega) k
    rw [hturn]
    by_cases hlast : sz.toNat - i.toNat ≤ 4096
    · obtain rfl : k = 0 := by omega
      rw [Nat.min_eq_left hlast] at hcopied
      exact ⟨y, rfl, hcopied⟩
    · have hnext : (i + 0x1000).toNat = i.toNat + 4096 := by
        rw [BitVec.toNat_add, show (0x1000 : BitVec 32).toNat = 4096 from rfl]
        omega
      rw [Nat.min_eq_right (by omega)] at hcopied
      have hpage : addr.toNat + (i + 0x1000).toNat = (q + 1) * 4096 := by omega
      obtain ⟨y', hrun, hrest⟩ := ih (building_copied h (by omega) hcopied) (Nat.succ_pos q) hpage
        (by omega) (by omega)
      refine ⟨y', hrun, ?_⟩
      have hlen : ((c.drop (offset.toNat + i.toNat)).take 4096).length = 4096 := by
        rw [List.length_take, List.length_drop]
        omega
      have hsplit : (c.drop (offset.toNat + i.toNat)).take (sz.toNat - i.toNat) =
          (c.drop (offset.toNat + i.toNat)).take 4096 ++
            (c.drop (offset.toNat + (i + 0x1000).toNat)).take (sz.toNat - (i + 0x1000).toNat) := by
        rw [hnext, show sz.toNat - i.toNat = 4096 + (sz.toNat - (i.toNat + 4096)) by omega,
          List.take_add, List.drop_drop,
          Nat.add_assoc]
      rw [hsplit]
      refine hcopied.trans ?_
      rw [hlen, ← Nat.succ_mul]
      exact hrest

theorem loaduvm_copied (hfit : Fits c ph)
    (hend : ph.vaddr.toNat + ph.filesz.toNat ≤ n * 4096) :
    ∃ y, loaduvm m x (kva r) ph.vaddr c (ph.off.setWidth 32) (ph.filesz.setWidth 32) = .ok (y, 0) ∧
      Copied x.vm y.vm kpdpt r held ph.vaddr.toNat ((c.drop ph.off.toNat).take ph.filesz.toNat) := by
  obtain ⟨hal, hlow, hsize, hin⟩ := hfit
  have hcut (w : Word) (hw : w.toNat < 2 ^ 32) : (w.setWidth 32).toNat = w.toNat := by
    rw [BitVec.toNat_setWidth]
    exact Nat.mod_eq_of_lt hw
  have hoff := hcut ph.off (by omega)
  have hsz := hcut ph.filesz (by omega)
  have hzero : (0 : BitVec 32).toNat = 0 := rfl
  have hloop : ∃ y, loadLoop m (kva r) ph.vaddr c (ph.off.setWidth 32) (ph.filesz.setWidth 32)
    ((ph.filesz.toNat + 4095) / 4096)
      x 0 = .ok (y, 0) ∧ Copied x.vm y.vm kpdpt r held (ph.vaddr.toNat / 4096 * 4096) _ :=
    loadLoop_copied hfull h hc (by omega) (by omega) (by omega) (by omega) (by omega)
  obtain ⟨y, hrun, hcopied⟩ := hloop
  rw [hoff, hsz, hzero, Nat.add_zero, Nat.sub_zero, Nat.div_mul_cancel (Nat.dvd_of_mod_eq_zero hal)] at hcopied
  refine ⟨y, ?_, hcopied⟩
  rw [loaduvm, if_neg (by rw [pgSize]; omega), hsz, pgSize]
  exact hrun

end

structure Laid (s₀ : State) (kpdpt r : Nat) (held : List Nat) (c : List Byte) (L : List Proghdr)
    (B : Nat → Byte) (size : Word)
    (vm : State) : Prop where
  building : Building s₀ vm kpdpt r (pages size) held
  large : 0x1000 ≤ size.toNat
  holds : Holds vm.mem r (pages size) (layAll c L B)
  zero : ∀ a, pages size * 4096 ≤ a → layAll c L B a = 0
  ends : ∀ ph ∈ L, ph.vaddr.toNat + ph.memsz.toNat ≤ size.toNat

/-- One segment. -/
theorem segment_laid (hm : m.oom ≠ .null) (hfull : m.Full) (h : Building s₀ x.vm kpdpt r (pages size) held)
    (hsize : 0x1000 ≤ size.toNat) (hold : Holds x.vm.mem r (pages size) B)
    (hB : ∀ a, pages size * 4096 ≤ a → B a = 0)
    (hc : c.length < 2 ^ 32) (hfit : Fits c ph) (hwrap : ph.vaddr.toNat + ph.memsz.toNat < 2 ^ 64) {vm : State}
    (halloc : allocuvm m x.vm (kva r) size (ph.vaddr + ph.memsz) = .ok (vm, size')) (hne : size' ≠ 0) :
    ∃ y, loaduvm m ⟨vm, x.written⟩ (kva r) ph.vaddr c (ph.off.setWidth 32) (ph.filesz.setWidth 32) = .ok (y, 0) ∧
      size.toNat ≤ size'.toNat ∧ Laid s₀ kpdpt r held c [ph] B size' y.vm := by
  have hsum : (ph.vaddr + ph.memsz).toNat = ph.vaddr.toNat + ph.memsz.toNat := by
    rw [BitVec.toNat_add]
    omega
  have hsmall := building_small h
  have hbuilt := (h.allocuvm (ph.vaddr + ph.memsz) hm hfull (by omega)).of_ok halloc
  have hroom : pages size + x.vm.freelist.length + 1 ≤ 2 ^ 35 := by
    have := h.few
    rw [nframes_eq] at this
    omega
  have hgrown := (allocuvm_ends hm hfull h.space (show 0 < size.toNat by omega) hroom).of_ok halloc
  split at hbuilt
  · cases hbuilt
    exact absurd rfl hne
  obtain ⟨hnew, -, hb, -⟩ := hbuilt
  dsimp only at hnew hb
  have hend : size.toNat ≤ size'.toNat ∧ ph.vaddr.toNat + ph.memsz.toNat ≤ size'.toNat := by
    rw [hnew]
    split <;> omega
  have hpages : pages size ≤ pages size' := pages_mono hend.1
  have hholds : Holds vm.mem r (pages size') B := by
    rcases hgrown with ⟨heq, -⟩ | ⟨heq, -⟩ | ⟨hsz, -, -, hg⟩
    · cases heq
      exact absurd rfl hne
    · cases heq
      exact hold
    · cases hsz
      exact holds_grown h (building_small hb) hg hold hB
  have htop : size'.toNat ≤ pages size' * 4096 := by
    rw [pages]
    omega
  have hsizes := hfit.size
  obtain ⟨y, hload, hcopied⟩ := loaduvm_copied (x := ⟨vm, x.written⟩) hfull hb hc hfit (by omega)
  have hlen : ((c.drop ph.off.toNat).take ph.filesz.toNat).length = ph.filesz.toNat := by
    rw [List.length_take, List.length_drop]
    have := hfit.inside
    omega
  have hbuilding := ((segment_ends ph hfull hb (by omega) hfit.aligned (by omega)).of_ok hload).2.1
  refine ⟨y, hload, hend.1, hbuilding, by omega, fun v h₁ h₂ => ?_, fun a ha => ?_, ?_⟩
  · rw [hcopied.bytes, hlen, layAll, List.foldl_cons, List.foldl_nil, lay]
    split
    · rename_i hin
      rw [List.getD_eq_getElem?_getD, List.getElem?_take_of_lt (by omega), List.getElem?_drop,
        List.getD_eq_getElem?_getD]
    · exact hholds v h₁ h₂
  · rw [layAll, List.foldl_cons, List.foldl_nil, lay, if_neg (by omega)]
    exact hB a (Nat.le_trans (Nat.mul_le_mul_right 4096 hpages) ha)
  · intro p hp
    rw [List.mem_singleton.mp hp]
    exact hend.2

/-- The loop over the headers lays each loadable segment over the ones before. -/
theorem loadSegments_laid (hm : m.oom ≠ .null) (hfull : m.Full) (hc : c.length < 2 ^ 32) {j : Nat} {y : Image}
    (h : Building s₀ x.vm kpdpt r (pages size) held) (hsize : 0x1000 ≤ size.toNat)
    (hold : Holds x.vm.mem r (pages size) B)
    (hB : ∀ a, pages size * 4096 ≤ a → B a = 0) (hin : off.toNat + 56 * j ≤ c.length)
    (hfit : ∀ ph ∈ loadable c j off.toNat, Fits c ph)
    (hrun : loadSegments m (kva r) c j x off size = .ok (y, some size')) :
    size.toNat ≤ size'.toNat ∧ Laid s₀ kpdpt r held c (loadable c j off.toNat) B size' y.vm := by
  induction j generalizing x off size B with
  | zero =>
    cases hrun
    exact ⟨Nat.le_refl _, h, hsize, hold, hB, by simp [loadable]⟩
  | succ j ih =>
    have hnext : (off + 56).toNat = off.toNat + 56 := by
      rw [BitVec.toNat_add, show (56 : BitVec 32).toNat = 56 from rfl]
      omega
    have h56 : (56 : BitVec 32).toNat = 56 := rfl
    have hread : readExact c off 56 = some ((c.drop off.toNat).take 56) := by
      rw [readExact_inside hc (by omega), h56]
    rw [loadSegments, hread] at hrun
    rw [loadable] at hfit ⊢
    dsimp only at hrun hfit ⊢
    rw [← hnext] at hfit ⊢
    generalize proghdr ((c.drop off.toNat).take 56) = ph at hrun hfit ⊢
    by_cases htype : ph.type = elfProgLoad
    · rw [if_pos htype, List.forall_mem_cons] at hfit
      rw [if_pos htype]
      rw [if_neg (not_not.mpr htype)] at hrun
      split at hrun
      · cases hrun
      split at hrun
      · cases hrun
      rename_i hwrap
      obtain ⟨⟨vm, size₁⟩, halloc, hrun⟩ := bind_eq_ok.mp hrun
      dsimp only at hrun
      split at hrun
      · cases hrun
      rename_i hne
      split at hrun
      · cases hrun
      have hsum : ph.vaddr.toNat + ph.memsz.toNat < 2 ^ 64 := by
        rw [BitVec.toNat_add] at hwrap
        omega
      obtain ⟨x₁, hload, hle, hlaid⟩ := segment_laid hm hfull h hsize hold hB hc hfit.1 hsum halloc hne
      rw [hload, ok_bind] at hrun
      obtain ⟨hle', hrest⟩ := ih hlaid.building hlaid.large hlaid.holds hlaid.zero (by omega) hfit.2 hrun
      refine ⟨hle.trans hle', hrest.building, hrest.large, hrest.holds, hrest.zero, ?_⟩
      rw [List.forall_mem_cons]
      exact ⟨(hlaid.ends ph (by simp)).trans hle', hrest.ends⟩
    · rw [if_neg htype] at hfit ⊢
      rw [if_pos htype] at hrun
      exact ih h hsize hold hB (by omega) hfit hrun

theorem readExact_bytes {b : List Byte} (h : readExact c off sz = some b) : b =
    (c.drop off.toNat).take sz.toNat := by
  obtain ⟨hread, hlen⟩ := Option.filter_eq_some_iff.mp h
  have hlen := of_decide_eq_true hlen
  simp only [readi] at hread
  split at hread
  · cases hread
  · obtain rfl := Option.some.inj hread
    rw [List.length_take] at hlen
    rw [List.take_eq_take_iff]
    omega

theorem loadProgram_laid {sys : Sys} {l : Loaded} {start : Word} (hm : m.oom ≠ .null)
    (hfull : m.Full) (h : Inv sys)
    (hwf : WellFormed c) (hload : loadProgram m (kva sys.kpdpt) sys.vm c = .ok l)
    (hprog : l.program = some (size, start))
    (hr : l.pgdir = kva r) (hman : Managed r) :
    start = (elf c).entry ∧ Laid sys.vm sys.kpdpt r (heldBy sys) c (segments c) (fun _ => 0) size l.image.vm := by
  have hc := hwf.length
  have htable := hwf.table
  rw [loadProgram] at hload
  split at hload
  · cases hload
    cases hprog
  rename_i b hb
  rw [show elfhdr b = elf c by rw [readExact_bytes hb]; rfl] at hload
  dsimp only at hload
  split at hload
  · cases hload
    cases hprog
  obtain ⟨⟨vm, p⟩, hset, hload⟩ := bind_eq_ok.mp hload
  dsimp only at hload
  split at hload
  · cases hload
    cases hprog
  obtain ⟨⟨y, sz⟩, hseg, hload⟩ := bind_eq_ok.mp hload
  cases hload
  obtain ⟨r', hr', hman', hspace, hmade⟩ := (setupkvm_space hm hfull h.owned).of_ok hset
  dsimp only at hprog hr hr' hspace hmade
  obtain rfl : r' = r := kva_injective hman'.small hman.small (hr'.symm.trans hr)
  obtain ⟨size, rfl, hpair⟩ := Option.map_eq_some_iff.mp hprog
  cases hpair
  refine ⟨rfl, ?_⟩
  have hphoff : ((elf c).phoff.setWidth 32).toNat = (elf c).phoff.toNat := by
    rw [BitVec.toNat_setWidth]
    omega
  have hone : pages (0x1000 : Word) = 1 := rfl
  rw [hr'] at hseg
  have hlaid := loadSegments_laid (x := ⟨vm, []⟩) (B := fun _ => 0) hm hfull hc
    (by rw [hone]; exact building_setup hspace hmade)
    (by decide) (fun v h₁ h₂ => by rw [hone] at h₂; omega) (fun _ _ => rfl) (by rw [hphoff]; exact htable)
    (by rw [hphoff]; exact hwf.fits) hseg
  rw [hphoff] at hlaid
  exact hlaid.2

/-- The memory of a program as its file describes it, with the guard page and the stack above. -/
structure ImageLoaded (c : List Byte) (mem : Mem) (r : Nat) (p : Proc) : Prop where
  file : ∀ ph ∈ segments c, ∀ i < ph.filesz.toNat,
    userByte mem r (ph.vaddr + BitVec.ofNat 64 i) = (c.drop ph.off.toNat)[i]?
  zero : ∀ ph ∈ segments c, ∀ i, ph.filesz.toNat ≤ i → i < ph.memsz.toNat →
    userByte mem r (ph.vaddr + BitVec.ofNat 64 i) = some 0
  aligned : p.sz.toNat % 4096 = 0
  guard : has (entry mem r (p.sz.toNat / 4096 - 2)) pteP = true ∧
    has (entry mem r (p.sz.toNat / 4096 - 2)) pteU = false
  stack : UserPage mem r (p.sz.toNat / 4096 - 1)
  present : ∀ j < 2 ^ 35, (has (entry mem r j) pteP = true ↔ 4096 ≤ j * 4096 ∧ j * 4096 < p.sz.toNat)
  rip : p.tf .rip = (elf c).entry
  rcx : p.tf .rcx = (elf c).entry

/-- A program that `exec` has started finds the image that its file describes. -/
theorem exec_loads_image {sys : Sys} {d : Pgdir} (h : Inv sys) (hd : d ∈ sys.pgdirs) (k : Task)
    (path c : List Byte)
    (argv : List (List Byte)) (k' : Task) (hwf : WellFormed c)
    (hrun : exec pc (taskOf sys d k) path (some c) argv = .ok (k', 0)) :
    ImageLoaded c k'.vm.mem (ptrFrame k'.proc.pgdir) k'.proc := by
  obtain ⟨c', l, r, size, start, vm₁, vm₃, ptrs, hfile, he⟩ := exec_execed pc_oom pc_full h hd hrun
  cases hfile
  have hman : Managed r := he.building.space.owned.of_held (by simp)
  obtain ⟨rfl, hlaid⟩ := loadProgram_laid pc_oom pc_full h hwf he.load he.program he.loaded hman
  have hsmall := building_small hlaid.building
  have hargs := he.running.args.congr he.entries he.bytes
  have hsz := he.running.size
  have hbyte (v : Word) (h₁ : 4096 ≤ v.toNat) (h₂ : v.toNat < pages size * 4096) :
      userByte k'.vm.mem r v = some (layAll c (segments c) (fun _ => 0) v.toNat) := by
    rw [he.bytes, he.running.others v (Nat.lt_of_lt_of_le h₂ (Nat.mul_le_mul_right 4096 (Nat.le_succ _))),
      userByte_same hlaid.building.space (he.stacked.old _ (by omega) (by omega) (by omega)) he.stacked.contents]
    exact hlaid.holds v h₁ h₂
  have hseg (ph : Proghdr) (hph : ph ∈ segments c) (i : Nat) (hi : i < ph.memsz.toNat) :
      userByte k'.vm.mem r (ph.vaddr + BitVec.ofNat 64 i) = some (lay c ph (fun _ => 0) (ph.vaddr.toNat + i)) := by
    have hend := hlaid.ends ph hph
    have hlow := (hwf.fits ph hph).low
    have hv : (ph.vaddr + BitVec.ofNat 64 i).toNat = ph.vaddr.toNat + i := toNat_add_ofNat (by omega)
    have htop : size.toNat ≤ pages size * 4096 := by
      rw [pages]
      omega
    rw [hbyte _ (by omega) (by omega), hv, layAll_mem hwf.fits hwf.apart hph (Nat.le_add_right _ _) (by omega)]
  rw [he.pgdir]
  refine ⟨fun ph hph i hi => ?_, fun ph hph i h₁ h₂ => ?_, hargs.aligned, hargs.guard, hargs.stack,
    fun j hj => ?_, he.rip, he.rcx⟩
  · obtain ⟨-, -, hsize, hin⟩ := hwf.fits ph hph
    rw [hseg ph hph i (by omega), lay, if_pos (by omega), Nat.add_sub_cancel_left,
      List.getD_eq_getElem _ _ (by omega),
      List.getElem?_drop, List.getElem?_eq_getElem (by omega)]
  · rw [hseg ph hph i h₂, lay, if_neg (by omega)]
  · rw [he.entries, he.running.program.present j hj]
    omega

theorem oneByte_segments : elf (oneByte 0x10 2) = ⟨elfMagic, 0, 64, 1⟩ ∧ segments (oneByte 0x10 2) =
    [⟨elfProgLoad, 0, 0x1000, 1, 2⟩] :=
  ⟨rfl, rfl⟩

theorem oneByte_header : proghdr (((oneByte 0x10 2).drop 64).take 56) = ⟨elfProgLoad, 0, 0x1000, 1, 2⟩ := rfl

theorem oneByte_wellFormed : WellFormed (oneByte 0x10 2) := by
  obtain ⟨helf, hseg⟩ := oneByte_segments
  have hlen : (oneByte 0x10 2).length = 120 := rfl
  refine ⟨by rw [hlen]; decide, by rw [helf, hlen]; decide, ?_, by rw [hseg]; exact List.pairwise_singleton _ _⟩
  rw [hseg, List.forall_mem_singleton]
  exact ⟨by decide, by decide, by decide, by rw [hlen]; decide⟩

/-- The loader takes five frames for a program of one page. -/
theorem loadProgram_oneByte_ok {sys : Sys} (hm : m.oom ≠ .null) (hfull : m.Full) (h : Inv sys)
    (hfree : 5 ≤ sys.vm.freelist.length) :
    ∃ l, loadProgram m (kva sys.kpdpt) sys.vm (oneByte 0x10 2) = .ok l ∧ l.program = some (0x1002, 0) ∧
      sys.vm.freelist.length ≤ l.image.vm.freelist.length + 5 := by
  obtain ⟨vm, r, hb, hvm, hload⟩ : ∃ vm r, Building sys.vm vm sys.kpdpt r 1 _ ∧ _ ∧
    loadProgram m (kva sys.kpdpt) sys.vm _ = _ :=
    loadProgram_oneByte 0x10 2 hm hfull h.owned (by rintro hnil; simp [hnil] at hfree)
  have hlen := congrArg List.length hvm
  rw [List.length_tail] at hlen
  have hsmall := building_small hb
  have hone : pages (0x1000 : Word) = 1 := rfl
  have htwo : pages (0x1002 : Word) = 2 := rfl
  have hfew := hb.few
  rw [nframes_eq] at hfew
  have hends : Ends (allocuvm m vm (kva r) 0x1000 0x1002) _ _ := allocuvm_ends hm hfull hb.space
    (by decide) (by omega)
  obtain ⟨⟨vm', size'⟩, halloc, hgrown⟩ := hends.returns (by
    rintro e (⟨-, hlt⟩ | ⟨-, n, h₁, h₂, h₃, hp⟩)
    · omega
    · rw [hb.other n (by omega) (by omega)] at hp
      simp at hp)
  obtain ⟨hsz, -, -, hg⟩ : size' = 0x1002 ∧ _ ∧ _ ∧ Grown Zeroed vm vm' r 1 2 := by
    rcases hgrown with ⟨-, hk⟩ | ⟨-, hlt⟩ | hgrown
    · exact absurd hk (by decide)
    · exact absurd hlt (by decide)
    · exact hgrown
  subst hsz
  obtain ⟨used, hused, -, hfour, -⟩ := hg.free
  have hlength := congrArg List.length hused
  rw [List.length_append] at hlength
  have hbuilt := (hb.allocuvm (0x1002 : Word) hm hfull (by decide)).of_ok halloc
  rw [if_neg (by decide)] at hbuilt
  obtain ⟨-, -, hb', -⟩ := hbuilt
  dsimp only at hb'
  rw [htwo] at hb'
  obtain ⟨y, hseg, hcopied⟩ := loaduvm_copied (x := ⟨vm', []⟩) hfull hb' oneByte_wellFormed.length
    (oneByte_wellFormed.fits ⟨elfProgLoad, 0, 0x1000, 1, 2⟩ (by rw [oneByte_segments.2]; simp)) (by decide)
  refine ⟨⟨y, kva r, some (0x1002, 0)⟩, ?_, rfl, ?_⟩
  · rw [hload, loadSegments_load (oneByte_proghdr 0x10 2) oneByte_header rfl (by decide)
      (by decide) halloc (by decide) (by decide),
      hseg]
    rfl
  · rw [hcopied.free]
    dsimp only
    omega

/-- The first process starts a program of one byte and a zero. -/
theorem exec_loads_image_first : ∃ sys d k k', First sys d ∧ WellFormed (oneByte 0x10 2) ∧
    exec pc (taskOf sys d k) [] (some (oneByte 0x10 2)) [] = .ok (k', 0) ∧
    ImageLoaded (oneByte 0x10 2) k'.vm.mem (ptrFrame k'.proc.pgdir) k'.proc := by
  obtain ⟨sys, d, -, hinv, hfirst⟩ := exists_first_any
  have hfree := hfirst.free
  obtain ⟨l, hload, hprog, hleft⟩ := loadProgram_oneByte_ok pc_oom pc_full hinv (by omega)
  let k : Task := ⟨sys.vm, 0, ⟨0, 0, [], fun _ => 0⟩, 0, 0, 0, false⟩
  obtain ⟨k', hrun⟩ := exec_returns [] pc_oom pc_full hinv hfirst.mem hload hprog (by omega)
    (by decide) (by decide) k []
  exact ⟨sys, d, k, k', hfirst, oneByte_wellFormed, hrun,
    exec_loads_image hinv hfirst.mem k [] _ [] k' oneByte_wellFormed hrun⟩

end Xv6.ExecImage
