import Xv6.Words

/-!
# The memory layout and the page-table word format

The macros of `memlayout.h` and `mmu.h`, on 64-bit words. Physical memory is counted
in frames of `pgSize` bytes: frame `f` starts at the physical address `frameAddr f` and
the kernel reaches it at `kva f`.
-/
namespace Xv6.Mmu

open Words

variable {w bit e v : Word} {f : Nat}

def pgSize : Nat := 4096

def physTop : Nat := 0xE000000

def kernBase : Word := 0xFFFF800000000000

def v2p (a : Word) : Word := a - kernBase

def p2v (a : Word) : Word := a + kernBase

def pmx (va : Word) : Nat := ((va >>> 39) &&& 0x1FF).toNat

def pdpx (va : Word) : Nat := ((va >>> 30) &&& 0x1FF).toNat

def pdx (va : Word) : Nat := ((va >>> 21) &&& 0x1FF).toNat

def ptx (va : Word) : Nat := ((va >>> 12) &&& 0x1FF).toNat

def pgRoundUp (sz : Word) : Word := (sz + 0xFFF) &&& ~~~0xFFF

def pgRoundDown (a : Word) : Word := a &&& ~~~0xFFF

def pgIndex (physaddr : Word) : Nat := physaddr.toNat / pgSize

def pteP : Word := 0x001
def pteW : Word := 0x002
def pteU : Word := 0x004
def ptePWT : Word := 0x008
def ptePCD : Word := 0x010
def ptePS : Word := 0x080
def pteCOW : Word := 0x200

def pteAddr (pte : Word) : Word := pte &&& ~~~0xFFF

def pteFlags (pte : Word) : Word := pte &&& 0xFFF

/-- The test `*pte & bit` of the source. -/
def has (pte bit : Word) : Bool := (pte &&& bit) != 0

def frameAddr (f : Nat) : Word := BitVec.ofNat 64 (f * pgSize)

/-- The kernel's address of frame `f`. -/
def kva (f : Nat) : Word := p2v (frameAddr f)

def frameOf (pte : Word) : Nat := pgIndex (pteAddr pte)

@[simp] theorem v2p_p2v (a : Word) : v2p (p2v a) = a := BitVec.add_sub_cancel a kernBase

@[simp] theorem p2v_v2p (a : Word) : p2v (v2p a) = a := BitVec.sub_add_cancel a kernBase

@[simp] theorem v2p_kva (f : Nat) : v2p (kva f) = frameAddr f := v2p_p2v _

theorem getLsbD_lowMask (k : Nat) : (0xFFF : Word).getLsbD k = decide (k < 12) := by
  have h : (0xFFF : Word) = BitVec.ofNat 64 (2 ^ 12 - 1) := rfl
  rw [h, BitVec.getLsbD_ofNat, Nat.testBit_two_pow_sub_one]
  by_cases hk : k < 12
  · simp [hk]; omega
  · simp [hk]

theorem getLsbD_pteAddr (e : Word) (k : Nat) : (pteAddr e).getLsbD k = (e.getLsbD k && decide (12 ≤ k)) := by
  rw [pteAddr, BitVec.getLsbD_and, BitVec.getLsbD_not, getLsbD_lowMask]
  by_cases hk : k < 64
  · by_cases h12 : k < 12
    · simp [h12]
    · simp [h12, hk]; omega
  · simp [BitVec.getLsbD_of_ge e k (by omega)]

theorem getLsbD_pteFlags (e : Word) (k : Nat) : (pteFlags e).getLsbD k = (e.getLsbD k && decide (k < 12)) := by
  rw [pteFlags, BitVec.getLsbD_and, getLsbD_lowMask]

theorem getLsbD_frameAddr (f k : Nat) :
    (frameAddr f).getLsbD k = (decide (k < 64) && (decide (12 ≤ k) && f.testBit (k - 12))) := by
  rw [frameAddr, BitVec.getLsbD_ofNat, show f * pgSize = f * 2 ^ 12 from rfl, Nat.testBit_mul_two_pow]

/-- The frame number is the word without its twelve flag bits. -/
theorem frameOf_eq (e : Word) : frameOf e = e.toNat / 4096 := by
  apply Nat.eq_of_testBit_eq
  intro k
  rw [frameOf, pgIndex, show pgSize = 2 ^ 12 from rfl, show (4096 : Nat) = 2 ^ 12 from rfl,
    Nat.testBit_div_two_pow, Nat.testBit_div_two_pow, BitVec.testBit_toNat, BitVec.testBit_toNat,
    getLsbD_pteAddr]
  simp

theorem pteAddr_eq (e : Word) : pteAddr e = frameAddr (frameOf e) := by
  apply BitVec.eq_of_getLsbD_eq
  intro k hk
  rw [getLsbD_pteAddr, getLsbD_frameAddr, frameOf_eq, show (4096 : Nat) = 2 ^ 12 from rfl,
    Nat.testBit_div_two_pow, BitVec.testBit_toNat]
  by_cases h12 : 12 ≤ k
  · simp [h12, hk, Nat.sub_add_cancel h12]
  · simp [h12]

/-- The kernel's address of the page an entry names. -/
theorem p2v_pteAddr (e : Word) : p2v (pteAddr e) = kva (frameOf e) := by
  rw [pteAddr_eq, kva]

theorem frameOf_lt (e : Word) : frameOf e < 2 ^ 52 := by
  rw [frameOf_eq]
  have := e.isLt
  omega

theorem frameAddr_toNat (h : f < 2 ^ 52) : (frameAddr f).toNat = f * 4096 := by
  rw [frameAddr, BitVec.toNat_ofNat, Nat.mod_eq_of_lt (by simp only [pgSize]; omega)]
  rfl

@[simp] theorem pgIndex_frameAddr (h : f < 2 ^ 52) : pgIndex (frameAddr f) = f := by
  rw [pgIndex, frameAddr_toNat h]
  simp [pgSize]

/-- Two entries that agree from bit twelve up name the same frame. -/
theorem frameOf_congr {e' : Word} (h : ∀ k, 12 ≤ k → e.getLsbD k = e'.getLsbD k) : frameOf e = frameOf e' := by
  have haddr : pteAddr e = pteAddr e' := by
    apply BitVec.eq_of_getLsbD_eq
    intro k _
    rw [getLsbD_pteAddr, getLsbD_pteAddr]
    by_cases h12 : 12 ≤ k
    · rw [h k h12]
    · simp [h12]
  rw [frameOf, frameOf, haddr]

theorem frameOf_frameAddr (h : f < 2 ^ 52) : frameOf (frameAddr f) = f := by
  rw [frameOf_eq, frameAddr_toNat h]
  omega

def IsFlags (w : Word) : Prop := ∀ k, 12 ≤ k → w.getLsbD k = false

theorem isFlags_of_lt (h : w.toNat < 4096) : IsFlags w := by
  intro k hk
  rw [← BitVec.testBit_toNat]
  apply Nat.testBit_lt_two_pow
  calc w.toNat < 2 ^ 12 := h
    _ ≤ 2 ^ k := Nat.pow_le_pow_right (by omega) hk

theorem isFlags_pteFlags (e : Word) : IsFlags (pteFlags e) := by
  intro k hk
  rw [getLsbD_pteFlags]
  simp; omega

theorem IsFlags.or (hv : IsFlags v) (hw : IsFlags w) : IsFlags (v ||| w) := by
  intro k hk
  simp [BitVec.getLsbD_or, hv k hk, hw k hk]

theorem frameOf_or (h : IsFlags w) : frameOf (e ||| w) = frameOf e := by
  apply frameOf_congr
  intro k hk
  simp [BitVec.getLsbD_or, h k hk]

theorem frameOf_andNot (h : IsFlags w) : frameOf (e &&& ~~~w) = frameOf e := by
  apply frameOf_congr
  intro k hk
  rw [BitVec.getLsbD_and, BitVec.getLsbD_not, h k hk]
  by_cases h64 : k < 64
  · simp [h64]
  · simp [BitVec.getLsbD_of_ge e k (by omega)]

theorem has_or (v w bit : Word) : has (v ||| w) bit = (has v bit || has w bit) := by
  have hdist : (v ||| w) &&& bit = (v &&& bit) ||| (w &&& bit) := by
    rw [BitVec.and_comm, BitVec.and_or_distrib_left, BitVec.and_comm bit v, BitVec.and_comm bit w]
  rw [Bool.eq_iff_iff]
  simp only [has, hdist, bne_iff_ne, ne_eq, Bool.or_eq_true, BitVec.ofNat_eq_ofNat, BitVec.or_eq_zero_iff,
    not_and_or]

/-- Clearing other bits leaves a test as it was. -/
theorem has_andNot (h : bit &&& w = 0#64) : has (v &&& ~~~w) bit = has v bit := by
  have hkeep : ~~~w &&& bit = bit := by
    apply BitVec.eq_of_getLsbD_eq
    intro k hk
    have hbit := congrArg (fun x => x.getLsbD k) h
    simp only [BitVec.getLsbD_and, BitVec.getLsbD_zero] at hbit
    rw [BitVec.getLsbD_and, BitVec.getLsbD_not]
    cases hb : bit.getLsbD k <;> simp_all
  rw [has, has, BitVec.and_assoc, hkeep]

/-- Clearing a bit that is clear. -/
theorem andNot_eq_self (h : has v bit = false) : v &&& ~~~bit = v := by
  have hzero : v &&& bit = 0#64 := by simpa [has] using h
  apply BitVec.eq_of_getLsbD_eq
  intro k hk
  have hbit := congrArg (fun w : Word => w.getLsbD k) hzero
  simp only [BitVec.getLsbD_and, BitVec.getLsbD_zero] at hbit
  rw [BitVec.getLsbD_and, BitVec.getLsbD_not]
  cases hv : v.getLsbD k with
  | false => simp
  | true =>
    rw [hv, Bool.true_and] at hbit
    rw [hbit, decide_eq_true hk]
    rfl

@[simp] theorem has_andNot_self (v bit : Word) : has (v &&& ~~~bit) bit = false := by
  rw [has, BitVec.and_assoc, BitVec.and_comm (~~~bit) bit, BitVec.and_not_self]
  simp

@[simp] theorem has_zero (bit : Word) : has 0#64 bit = false := by
  simp [has]

theorem has_frameAddr (f : Nat) (h : IsFlags bit) : has (frameAddr f) bit = false := by
  have hzero : frameAddr f &&& bit = 0#64 := by
    apply BitVec.eq_of_getLsbD_eq
    intro k _
    rw [BitVec.getLsbD_and, getLsbD_frameAddr]
    by_cases h12 : 12 ≤ k
    · simp [h k h12]
    · simp [h12]
  simp [has, hzero]

theorem has_pteFlags (e : Word) (h : IsFlags bit) : has (pteFlags e) bit = has e bit := by
  have hkeep : 0xFFF &&& bit = bit := by
    apply BitVec.eq_of_getLsbD_eq
    intro k _
    rw [BitVec.getLsbD_and, getLsbD_lowMask]
    by_cases h12 : 12 ≤ k
    · simp [h k h12]
    · simp; omega
  rw [has, has, pteFlags, BitVec.and_assoc, hkeep]

/-- An entry made from a frame address and flags passes the tests its flags pass. -/
theorem has_frameAddr_or (f : Nat) (w : Word) (h : IsFlags bit) :
    has (frameAddr f ||| w) bit = has w bit := by
  rw [has_or, has_frameAddr f h, Bool.false_or]

theorem isFlags_pteP : IsFlags pteP := isFlags_of_lt (by decide)

theorem isFlags_pteW : IsFlags pteW := isFlags_of_lt (by decide)

theorem isFlags_pteU : IsFlags pteU := isFlags_of_lt (by decide)

theorem isFlags_pteCOW : IsFlags pteCOW := isFlags_of_lt (by decide)

theorem field_eq (va : Word) (k : Nat) : ((va >>> k) &&& 0x1FF).toNat = va.toNat / 2 ^ k % 512 := by
  rw [BitVec.toNat_and, BitVec.toNat_ushiftRight, Nat.shiftRight_eq_div_pow]
  exact Nat.and_two_pow_sub_one_eq_mod _ 9

theorem pmx_eq (va : Word) : pmx va = va.toNat / 2 ^ 39 % 512 := field_eq va 39

theorem pdpx_eq (va : Word) : pdpx va = va.toNat / 2 ^ 30 % 512 := field_eq va 30

theorem pdx_eq (va : Word) : pdx va = va.toNat / 2 ^ 21 % 512 := field_eq va 21

theorem ptx_eq (va : Word) : ptx va = va.toNat / 2 ^ 12 % 512 := field_eq va 12

theorem field_lt (va : Word) (k : Nat) : ((va >>> k) &&& 0x1FF).toNat < 512 := by
  rw [field_eq]
  exact Nat.mod_lt _ (by omega)

theorem pmx_lt (va : Word) : pmx va < 512 := field_lt va 39

theorem pdpx_lt (va : Word) : pdpx va < 512 := field_lt va 30

theorem pdx_lt (va : Word) : pdx va < 512 := field_lt va 21

theorem ptx_lt (va : Word) : ptx va < 512 := field_lt va 12

theorem pgRoundDown_toNat (a : Word) : (pgRoundDown a).toNat = a.toNat / 4096 * 4096 := by
  have h := pteAddr_eq a
  rw [show pgRoundDown a = pteAddr a from rfl, h, frameAddr_toNat (frameOf_lt a), frameOf_eq]

theorem pgRoundUp_toNat {sz : Word} (h : sz.toNat + 4095 < 2 ^ 64) :
    (pgRoundUp sz).toNat = (sz.toNat + 4095) / 4096 * 4096 := by
  have hadd : (sz + 0xFFF).toNat = sz.toNat + 4095 := by
    rw [BitVec.toNat_add, show (0xFFF : Word).toNat = 4095 from rfl, Nat.mod_eq_of_lt h]
  rw [show pgRoundUp sz = pgRoundDown (sz + 0xFFF) from rfl, pgRoundDown_toNat, hadd]

end Xv6.Mmu
