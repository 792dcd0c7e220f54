import Xv6.Words

/-!
# System-call arguments

The argument fetchers of `syscall.c`. The two casts the source makes are explicit: `argptr` compares
`(uint)i`, the low half of the pointer, and `argstr` goes through `argint`, which keeps the low half
and sign-extends it back when it is passed to `fetchstr`.
-/
namespace Xv6.Syscall

open Words

structure Trapframe where
  rdi : Word
  rsi : Word
  rdx : Word
  r10 : Word
  r8 : Word
  r9 : Word

/-- What the fetchers see of the current process: its size, its saved registers,
and the byte behind each address, `none` where no present page maps it. -/
structure Proc where
  sz : Word
  tf : Trapframe
  load : Word → Option Byte

/-- The `n` bytes at `a` as a number, the first byte lowest. -/
def loadLE (load : Word → Option Byte) : Nat → Word → Except Trap Nat
  | 0, _ => .ok 0
  | n + 1, a =>
    match load a with
    | none => .error (.pageFault a)
    | some b => do
      let rest ← loadLE load n (a + 1)
      return b.toNat + 256 * rest

/-- `none` is the return value -1, `some i` is 0 with `i` stored in `*ip`. -/
def fetchint (p : Proc) (addr : Word) : Except Trap (Option (BitVec 32)) :=
  if p.sz ≤ addr ∨ p.sz < addr + 4 then .ok none
  else do
    let i ← loadLE p.load 4 addr
    return some (BitVec.ofNat 32 i)

def fetchaddr (p : Proc) (addr : Word) : Except Trap (Option Word) :=
  if p.sz ≤ addr ∨ p.sz < addr + 8 then .ok none
  else do
    let i ← loadLE p.load 8 addr
    return some (BitVec.ofNat 64 i)

def fetcharg (p : Proc) (n : Nat) : Except Trap Word :=
  match n with
  | 0 => .ok p.tf.rdi
  | 1 => .ok p.tf.rsi
  | 2 => .ok p.tf.rdx
  | 3 => .ok p.tf.r10
  | 4 => .ok p.tf.r8
  | 5 => .ok p.tf.r9
  | _ => .error (.panic "failed fetch")

def argint (p : Proc) (n : Nat) : Except Trap (BitVec 32) := do
  let i ← fetcharg p n
  return i.setWidth 32

def argaddr (p : Proc) (n : Nat) : Except Trap Word := fetcharg p n

/-- `none` is the return value -1, `some pp` is 0 with `*pp` stored. The sum of the
`uint` and the `int` is a 32-bit sum, widened only for the comparison. -/
def argptr (p : Proc) (n : Nat) (size : BitVec 32) : Except Trap (Option Word) := do
  let i ← argaddr p n
  if size.toInt < 0 ∨ p.sz ≤ (i.setWidth 32).setWidth 64 ∨
      p.sz < (i.setWidth 32 + size).setWidth 64 then
    return none
  return some i

/-- The loop of `fetchstr`: `k` bytes are left before `ep`. -/
def findNul (load : Word → Option Byte) : Nat → Word → Except Trap (Option Word)
  | 0, _ => .ok none
  | k + 1, s =>
    match load s with
    | none => .error (.pageFault s)
    | some b => if b = 0 then .ok (some s) else findNul load k (s + 1)

/-- The return value, truncated to `int`, and the pointer left in `*pp`, if any. -/
def fetchstr (p : Proc) (addr : Word) : Except Trap (BitVec 32 × Option Word) :=
  if p.sz ≤ addr then .ok (-1, none)
  else do
    match ← findNul p.load (p.sz - addr).toNat addr with
    | some s => return ((s - addr).setWidth 32, some addr)
    | none => return (-1, some addr)

def argstr (p : Proc) (n : Nat) : Except Trap (BitVec 32 × Option Word) := do
  let addr ← argint p n
  fetchstr p (addr.signExtend 64)

/-- The byte `k` after `addr` is the first NUL from `addr` on, below the process size. -/
def NulAt (p : Proc) (addr : Word) (k : Nat) : Prop :=
  addr.toNat + k < p.sz.toNat ∧ p.load (addr + BitVec.ofNat 64 k) = some 0 ∧
    ∀ j < k, ∃ b, p.load (addr + BitVec.ofNat 64 j) = some b ∧ b ≠ 0

theorem add_one_ofNat (s : Word) (k : Nat) : s + 1 + BitVec.ofNat 64 k = s + BitVec.ofNat 64 (k + 1) := by
  apply BitVec.eq_of_toNat_eq
  rw [show (1 : Word) = BitVec.ofNat 64 1 from rfl]
  simp only [BitVec.toNat_add, BitVec.toNat_ofNat]
  omega

theorem findNul_eq_some (load : Word → Option Byte) (n : Nat) (s t : Word) :
    findNul load n s = .ok (some t) ↔ ∃ k < n, t = s + BitVec.ofNat 64 k ∧
      load (s + BitVec.ofNat 64 k) = some 0 ∧
      ∀ j < k, ∃ b, load (s + BitVec.ofNat 64 j) = some b ∧ b ≠ 0 := by
  induction n generalizing s with
  | zero => simp [findNul]
  | succ n ih =>
    have hstep := add_one_ofNat s
    have hzero : s + BitVec.ofNat 64 0 = s := by simp
    simp only [findNul]
    cases hl : load s with
    | none =>
      simp only [reduceCtorEq, false_iff]
      rintro ⟨k, -, -, hk, hbefore⟩
      cases k with
      | zero => rw [hzero, hl] at hk; cases hk
      | succ k =>
        obtain ⟨b, hb, -⟩ := hbefore 0 (by omega)
        rw [hzero, hl] at hb
        cases hb
    | some b =>
      by_cases hb : b = 0
      · subst hb
        simp only [↓reduceIte, Except.ok.injEq, Option.some.injEq]
        constructor
        · rintro rfl
          exact ⟨0, by omega, hzero.symm, by rw [hzero, hl], by intro j hj; omega⟩
        · rintro ⟨k, -, rfl, -, hbefore⟩
          cases k with
          | zero => exact hzero.symm
          | succ k =>
            obtain ⟨c, hc, hne⟩ := hbefore 0 (by omega)
            rw [hzero, hl] at hc
            exact absurd (Option.some.inj hc).symm hne
      · simp only [hb, ↓reduceIte, ih]
        constructor
        · rintro ⟨k, hk, rfl, hnul, hbefore⟩
          refine ⟨k + 1, by omega, hstep k, by rw [← hstep]; exact hnul, ?_⟩
          intro j hj
          cases j with
          | zero => exact ⟨b, by rw [hzero, hl], hb⟩
          | succ j =>
            rw [← hstep]
            exact hbefore j (by omega)
        · rintro ⟨k, hk, rfl, hnul, hbefore⟩
          cases k with
          | zero =>
            rw [hzero, hl] at hnul
            exact absurd (Option.some.inj hnul) hb
          | succ k =>
            refine ⟨k, by omega, (hstep k).symm, by rw [hstep]; exact hnul, ?_⟩
            intro j hj
            rw [hstep]
            exact hbefore (j + 1) (by omega)

/-- A scan that faults does so at the first byte that is missing, with no NUL before it. -/
theorem findNul_eq_error (load : Word → Option Byte) (n : Nat) (s : Word) {e : Trap}
    (h : findNul load n s = .error e) :
    ∃ k < n, load (s + BitVec.ofNat 64 k) = none ∧ ∀ j < k, ∃ b,
      load (s + BitVec.ofNat 64 j) = some b ∧ b ≠ 0 := by
  induction n generalizing s with
  | zero => cases h
  | succ n ih =>
    simp only [findNul] at h
    cases hl : load s with
    | none => exact ⟨0, by omega, by simpa using hl, by intro j hj; omega⟩
    | some b =>
      simp only [hl] at h
      split at h
      · cases h
      · rename_i hb
        obtain ⟨k, hk, hnone, hbefore⟩ := ih (s + 1) h
        refine ⟨k + 1, by omega, by rw [← add_one_ofNat]; exact hnone, ?_⟩
        intro j hj
        cases j with
        | zero => exact ⟨b, by simpa using hl, hb⟩
        | succ j =>
          rw [← add_one_ofNat]
          exact hbefore j (by omega)

theorem loadLE_eq_error (load : Word → Option Byte) (n : Nat) (a : Word) {e : Trap}
    (h : loadLE load n a = .error e) :
    ∃ k < n, load (a + BitVec.ofNat 64 k) = none := by
  induction n generalizing a with
  | zero => cases h
  | succ n ih =>
    simp only [loadLE] at h
    cases hl : load a with
    | none => exact ⟨0, by omega, by simpa using hl⟩
    | some b =>
      simp only [hl] at h
      obtain h | ⟨x, -, h⟩ := bind_eq_error.mp h
      · obtain ⟨k, hk, hnone⟩ := ih (a + 1) h
        exact ⟨k + 1, by omega, by rw [← add_one_ofNat]; exact hnone⟩
      · cases h

theorem toNat_room (p : Proc) (addr : Word) (h : ¬ p.sz ≤ addr) :
    (p.sz - addr).toNat = p.sz.toNat - addr.toNat := by
  have hlt : ¬ p.sz.toNat ≤ addr.toNat := h
  have := p.sz.isLt
  rw [BitVec.toNat_sub]
  omega

/-- The scan up to the process size stops at the first NUL below it, and only there. -/
theorem findNul_eq_nulAt (p : Proc) (addr t : Word) (h : ¬ p.sz ≤ addr) :
    findNul p.load (p.sz - addr).toNat addr = .ok (some t) ↔
      ∃ k, NulAt p addr k ∧ t = addr + BitVec.ofNat 64 k := by
  have hlt : ¬ p.sz.toNat ≤ addr.toNat := h
  rw [findNul_eq_some, toNat_room p addr h]
  constructor
  · rintro ⟨k, hk, rfl, hnul, hbefore⟩
    exact ⟨k, ⟨by omega, hnul, hbefore⟩, rfl⟩
  · rintro ⟨k, ⟨hk, hnul, hbefore⟩, rfl⟩
    exact ⟨k, by omega, rfl, hnul, hbefore⟩

theorem nulAt_unique {p : Proc} {addr : Word} {k k' : Nat} (h : NulAt p addr k)
    (h' : NulAt p addr k') : k = k' := by
  obtain ⟨-, hnul, hbefore⟩ := h
  obtain ⟨-, hnul', hbefore'⟩ := h'
  rcases Nat.lt_trichotomy k k' with hlt | heq | hlt
  · obtain ⟨b, hb, hne⟩ := hbefore' k hlt
    rw [hnul] at hb
    exact absurd (Option.some.inj hb).symm hne
  · exact heq
  · obtain ⟨b, hb, hne⟩ := hbefore k' hlt
    rw [hnul'] at hb
    exact absurd (Option.some.inj hb).symm hne

/-- `fetchstr` accepts exactly the strings whose NUL lies in the process and whose
length is non-negative as an `int`, and hands on the address it was given. -/
theorem fetchstr_accepts (p : Proc) (addr pp : Word) (r : BitVec 32) :
    (fetchstr p addr = .ok (r, some pp) ∧ 0 ≤ r.toInt) ↔
      pp = addr ∧ ∃ k, NulAt p addr k ∧ k % 2 ^ 32 < 2 ^ 31 ∧ r = BitVec.ofNat 32 k := by
  have hlen : ∀ k : Nat, (addr + BitVec.ofNat 64 k - addr).setWidth 32 = BitVec.ofNat 32 k := by
    intro k
    apply BitVec.eq_of_toNat_eq
    simp only [BitVec.toNat_setWidth, BitVec.toNat_sub, BitVec.toNat_add, BitVec.toNat_ofNat]
    omega
  have hsign : ∀ k : Nat, 0 ≤ (BitVec.ofNat 32 k).toInt ↔ k % 2 ^ 32 < 2 ^ 31 := by
    intro k
    rw [BitVec.toInt_eq_toNat_cond, BitVec.toNat_ofNat]
    split <;> omega
  by_cases hsz : p.sz ≤ addr
  · have hle : p.sz.toNat ≤ addr.toNat := hsz
    simp only [fetchstr, hsz, ↓reduceIte, Except.ok.injEq, Prod.mk.injEq, reduceCtorEq, and_false,
      false_and, false_iff, NulAt]
    rintro ⟨-, k, ⟨hk, -⟩, -⟩
    omega
  · have hscan := findNul_eq_nulAt p addr
    simp only [fetchstr, hsz, ↓reduceIte]
    cases hf : findNul p.load (p.sz - addr).toNat addr with
    | error e =>
      simp only [error_bind, reduceCtorEq, false_and, false_iff]
      rintro ⟨-, k, hk, -⟩
      have := (hscan _ hsz).mpr ⟨k, hk, rfl⟩
      rw [hf] at this
      cases this
    | ok o =>
      cases o with
      | none =>
        simp only [ok_bind, pure, Except.pure, Except.ok.injEq, Prod.mk.injEq, Option.some.injEq]
        constructor
        · rintro ⟨⟨rfl, -⟩, hneg⟩
          exact absurd hneg (by decide)
        · rintro ⟨-, k, hk, -⟩
          have := (hscan _ hsz).mpr ⟨k, hk, rfl⟩
          rw [hf] at this
          cases this
      | some s =>
        obtain ⟨k, hk, rfl⟩ := (hscan s hsz).mp hf
        simp only [ok_bind, pure, Except.pure, Except.ok.injEq, Prod.mk.injEq, Option.some.injEq, hlen]
        constructor
        · rintro ⟨⟨rfl, rfl⟩, hpos⟩
          exact ⟨rfl, k, hk, (hsign k).mp hpos, rfl⟩
        · rintro ⟨rfl, k', hk', hpos, rfl⟩
          obtain rfl := nulAt_unique hk hk'
          exact ⟨⟨rfl, rfl⟩, (hsign k).mpr hpos⟩

/-- What the callers of `argptr` rely on: an accepted pointer is the argument itself,
and the whole range handed on lies in the process. -/
def ArgptrSound (p : Proc) (n : Nat) (size : BitVec 32) (a : Word) : Prop :=
  ∀ pp, argptr p n size = .ok (some pp) →
    pp = a ∧ ∀ k : Nat, (k : Int) < size.toInt → pp.toNat + k < p.sz.toNat

/-- What the callers of `argstr` rely on, a negative return value being a failure. -/
def ArgstrSound (p : Proc) (n : Nat) (a : Word) : Prop :=
  ∀ r pp, argstr p n = .ok (r, some pp) → 0 ≤ r.toInt → pp = a ∧ ∃ k, NulAt p pp k

/-- The casts of `argptr` do no harm: the range is empty, no bit is lost, the range
fits anyway, or the truncated values are turned away. -/
def PtrCastHarmless (sz a : Word) (size : BitVec 32) : Prop :=
  size.toInt ≤ 0 ∨ a.toNat + size.toNat < 2 ^ 32 ∨ a.toNat + size.toNat ≤ sz.toNat ∨
    sz.toNat ≤ a.toNat % 2 ^ 32 ∨ sz.toNat < (a.toNat + size.toNat) % 2 ^ 32

/-- The cast of `argstr` does no harm: the argument is the sign extension of its low
half, or there is no string of acceptable length at that sign extension. -/
def StrCastHarmless (p : Proc) (a : Word) : Prop :=
  (a.setWidth 32).signExtend 64 = a ∨
    ∀ k, NulAt p ((a.setWidth 32).signExtend 64) k → 2 ^ 31 ≤ k % 2 ^ 32

theorem argptr_accepts (p : Proc) (n : Nat) (size : BitVec 32) (a pp : Word)
    (ha : fetcharg p n = .ok a) :
    argptr p n size = .ok (some pp) ↔ pp = a ∧ 0 ≤ size.toInt ∧
      a.toNat % 2 ^ 32 < p.sz.toNat ∧ (a.toNat + size.toNat) % 2 ^ 32 ≤ p.sz.toNat := by
  have hlow : ((a.setWidth 32).setWidth 64 : Word).toNat = a.toNat % 2 ^ 32 := by
    simp only [BitVec.toNat_setWidth]
    omega
  have hsum : ((a.setWidth 32 + size).setWidth 64 : Word).toNat = (a.toNat + size.toNat) % 2 ^ 32 := by
    simp only [BitVec.toNat_setWidth, BitVec.toNat_add]
    omega
  simp only [argptr, argaddr, ha, ok_bind, BitVec.le_def, BitVec.lt_def, hlow, hsum]
  split
  · rename_i h
    simp only [pure, Except.pure, Except.ok.injEq, reduceCtorEq, false_iff]
    rintro ⟨-, h₁, h₂, h₃⟩
    omega
  · rename_i h
    simp only [pure, Except.pure, Except.ok.injEq, Option.some.injEq]
    constructor
    · rintro rfl
      exact ⟨rfl, by omega, by omega, by omega⟩
    · rintro ⟨rfl, -⟩
      rfl

theorem argptrSound_iff (p : Proc) (n : Nat) (size : BitVec 32) (a : Word)
    (ha : fetcharg p n = .ok a) : ArgptrSound p n size a ↔ PtrCastHarmless p.sz a size := by
  have hint : 0 ≤ size.toInt → size.toInt = size.toNat := by
    intro h
    rw [BitVec.toInt_eq_toNat_cond] at h ⊢
    split at h <;> omega
  have hlt := size.isLt
  constructor
  · intro h
    by_contra hbad
    simp only [PtrCastHarmless, not_or, not_le, not_lt] at hbad
    obtain ⟨hpos, -, hpast, hlow, hsum⟩ := hbad
    have hk := hint (by omega)
    obtain ⟨-, hin⟩ := h a ((argptr_accepts p n size a a ha).mpr ⟨rfl, by omega, hlow, hsum⟩)
    have hlast := hin (size.toNat - 1) (by omega)
    omega
  · intro hok pp hpp
    obtain ⟨rfl, hpos, hlow, hsum⟩ := (argptr_accepts p n size a pp ha).mp hpp
    refine ⟨rfl, ?_⟩
    intro k hk
    have := hint hpos
    unfold PtrCastHarmless at hok
    omega

theorem argstrSound_iff (p : Proc) (n : Nat) (a : Word) (ha : fetcharg p n = .ok a) :
    ArgstrSound p n a ↔ StrCastHarmless p a := by
  have hcall : argstr p n = fetchstr p ((a.setWidth 32).signExtend 64) := by
    simp [argstr, argint, ha, pure, Except.pure]
  simp only [ArgstrSound, hcall]
  constructor
  · intro h
    by_contra hbad
    simp only [StrCastHarmless, not_or, not_forall, not_le] at hbad
    obtain ⟨hne, k, hk, hlen⟩ := hbad
    have hacc := (fetchstr_accepts p _ _ (BitVec.ofNat 32 k)).mpr ⟨rfl, k, hk, hlen, rfl⟩
    exact hne (h _ _ hacc.1 hacc.2).1
  · intro hok r pp hr hpos
    obtain ⟨rfl, k, hk, hlen, -⟩ := (fetchstr_accepts p _ pp r).mp ⟨hr, hpos⟩
    rcases hok with he | hno
    · exact ⟨he, k, hk⟩
    · have := hno k hk
      omega

/-- Accepted user pointers lie in the process exactly when the two casts to 32 bits
do no harm. -/
theorem userPointers_sound_iff (p : Proc) (n : Nat) (size : BitVec 32) (a : Word)
    (ha : fetcharg p n = .ok a) :
    (ArgptrSound p n size a ∧ ArgstrSound p n a) ↔
      (PtrCastHarmless p.sz a size ∧ StrCastHarmless p a) :=
  and_congr (argptrSound_iff p n size a ha) (argstrSound_iff p n a ha)

def zeroProc (a : Word) : Proc where
  sz := 0x3000
  tf := ⟨a, 0, 0, 0, 0, 0⟩
  load _ := some 0

theorem userPointers_sound_low :
    fetcharg (zeroProc 0x1000) 0 = .ok 0x1000 ∧
      ((ArgptrSound (zeroProc 0x1000) 0 8 0x1000 ∧ ArgstrSound (zeroProc 0x1000) 0 0x1000) ↔
        (PtrCastHarmless 0x3000 0x1000 8 ∧ StrCastHarmless (zeroProc 0x1000) 0x1000)) :=
  ⟨rfl, userPointers_sound_iff (zeroProc 0x1000) 0 8 0x1000 rfl⟩

/-- The pointer `0x100001000` passes both checks of a process of size `0x3000`:
`argptr` hands it on although it is far above the size, and `argstr` hands on the
address `0x1000`, which is not the argument. -/
theorem highPointer_accepted :
    ¬ (ArgptrSound (zeroProc 0x100001000) 0 8 0x100001000 ∧
      ArgstrSound (zeroProc 0x100001000) 0 0x100001000) := by
  rintro ⟨hptr, -⟩
  have hacc : argptr (zeroProc 0x100001000) 0 8 = .ok (some 0x100001000) := by decide
  have hin := (hptr 0x100001000 hacc).2 0 (by decide)
  revert hin
  decide

end Xv6.Syscall
