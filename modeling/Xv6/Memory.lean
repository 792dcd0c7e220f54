import Mathlib.Logic.Function.Basic
import Xv6.Mmu

/-!
# Physical memory as the kernel reaches it

Memory is a word for each frame and each of its 512 slots, with the allocator's variables. The
kernel goes through its direct map, and the null pointer reaches nothing. A machine also says what
`kalloc` does on an empty free list: the code stores to `frameinfo` at the index of the null
pointer, `null` is the documented behaviour, and `stop` ends the run there.
-/
namespace Xv6.Memory

open Words Mmu Function

variable {g j : Nat}

def npdEntries : Nat := 512

inductive Oom where
  | store
  | null
  | stop
  deriving DecidableEq, Repr

structure Machine where
  ram : Nat → Bool
  oom : Oom

/-- The 512 words of a frame. -/
abbrev Page := Nat → Word

abbrev Mem := Nat → Page

structure State where
  mem : Mem
  refs : Nat → Int
  checksum : Nat → Word
  freelist : List Nat

/-- The first and the fourth gigabyte, which `kvmalloc` maps at `kernBase`. -/
def directMap (f : Nat) : Bool := f < 0x40000 || (0xC0000 ≤ f && f < 0x100000)

def pc : Machine := ⟨directMap, .store⟩

def ptrFrame (p : Word) : Nat := pgIndex (v2p p)

def ptrSlot (p : Word) : Nat := (v2p p).toNat % pgSize / 8

/-- The C expression `&t[i]` for a table `t` of words. -/
def entryPtr (t : Word) (i : Nat) : Word := t + BitVec.ofNat 64 (8 * i)

def setPage (mem : Mem) (f : Nat) (page : Page) : Mem :=
  update mem f page

def setWord (mem : Mem) (f i : Nat) (w : Word) : Mem :=
  setPage mem f (update (mem f) i w)

def byteOf (w : Word) (k : Nat) : Byte := (w >>> (8 * k)).setWidth 8

def putByte (w : Word) (k : Nat) (b : Byte) : Word :=
  (w &&& ~~~((0xFF : Word) <<< (8 * k))) ||| (b.setWidth 64 <<< (8 * k))

/-- Byte `o` of a page, the machine being little-endian. -/
def pageByte (page : Page) (o : Nat) : Byte := byteOf (page (o / 8)) (o % 8)

def putPageByte (page : Page) (o : Nat) (b : Byte) : Page :=
  fun j => if j = o / 8 then putByte (page j) (o % 8) b else page j

def putBytes (page : Page) (o : Nat) : List Byte → Page
  | [] => page
  | b :: bs => putBytes (putPageByte page o b) (o + 1) bs

@[irreducible] def access (m : Machine) (p : Word) : Except Trap Unit :=
  if p = 0 then .error .nullDeref
  else if m.ram (ptrFrame p) then .ok ()
  else .error (.pageFault p)

def read (m : Machine) (s : State) (p : Word) : Except Trap Word := do
  access m p
  return s.mem (ptrFrame p) (ptrSlot p)

def write (m : Machine) (s : State) (p w : Word) : Except Trap State := do
  access m p
  return { s with mem := setWord s.mem (ptrFrame p) (ptrSlot p) w }

/-- `memset(p, c, PGSIZE)`, the byte `c` repeated being the word `w`. -/
def memset (m : Machine) (s : State) (p w : Word) : Except Trap State := do
  access m p
  return { s with mem := setPage s.mem (ptrFrame p) (fun _ => w) }

def readPage (m : Machine) (s : State) (p : Word) : Except Trap Page := do
  access m p
  return s.mem (ptrFrame p)

def memmovePage (m : Machine) (s : State) (dst src : Word) : Except Trap State := do
  let page ← readPage m s src
  access m dst
  return { s with mem := setPage s.mem (ptrFrame dst) page }

/-- `memmove(dst, buf, n)` for the `n` bytes of a buffer outside the page. -/
def memmove (m : Machine) (s : State) (dst : Word) : List Byte → Except Trap State
  | [] => .ok s
  | b :: bs => do
    access m dst
    let f := ptrFrame dst
    memmove m { s with mem := setPage s.mem f (putPageByte (s.mem f) ((v2p dst).toNat % pgSize) b) } (dst + 1) bs

/-- The machine has the frames below `physTop`, which the kernel manages. -/
def Machine.Full (m : Machine) : Prop := ∀ f, f < physTop / pgSize → m.ram f = true

variable {mem : Mem}

theorem pc_full : pc.Full := by
  intro f hf
  simp only [physTop, pgSize] at hf
  simp only [pc, directMap, Bool.or_eq_true, decide_eq_true_eq]
  omega

theorem kva_toNat {f : Nat} (h : f < 2 ^ 35) : (kva f).toNat = 0xFFFF800000000000 + f * 4096 := by
  rw [kva, p2v, BitVec.toNat_add, frameAddr_toNat (by omega), show kernBase.toNat = 0xFFFF800000000000 from rfl,
    Nat.mod_eq_of_lt (by omega)]
  omega

theorem entryPtr_toNat {f i : Nat} (h : f < 2 ^ 35) (hi : i < 512) :
    (entryPtr (kva f) i).toNat = 0xFFFF800000000000 + f * 4096 + 8 * i := by
  rw [entryPtr, BitVec.toNat_add, kva_toNat h, BitVec.toNat_ofNat]
  omega

theorem v2p_toNat {p : Word} (h : 0xFFFF800000000000 ≤ p.toNat) :
    (v2p p).toNat = p.toNat - 0xFFFF800000000000 := by
  have := p.isLt
  rw [v2p, BitVec.toNat_sub, show kernBase.toNat = 0xFFFF800000000000 from rfl]
  omega

theorem kva_ne_zero {f : Nat} (h : f < 2 ^ 35) : kva f ≠ 0 := by
  intro he
  have := congrArg BitVec.toNat he
  rw [kva_toNat h] at this
  simp at this

theorem entryPtr_ne_zero {f i : Nat} (h : f < 2 ^ 35) (hi : i < 512) : entryPtr (kva f) i ≠ 0 := by
  intro he
  have := congrArg BitVec.toNat he
  rw [entryPtr_toNat h hi] at this
  simp at this

@[simp] theorem ptrFrame_kva {f : Nat} (h : f < 2 ^ 35) : ptrFrame (kva f) = f := by
  rw [ptrFrame, v2p_kva, pgIndex_frameAddr (by omega)]

theorem ptrFrame_entryPtr {f i : Nat} (h : f < 2 ^ 35) (hi : i < 512) : ptrFrame (entryPtr (kva f) i) = f := by
  rw [ptrFrame, pgIndex, v2p_toNat (by rw [entryPtr_toNat h hi]; omega), entryPtr_toNat h hi, pgSize]
  omega

theorem ptrSlot_entryPtr {f i : Nat} (h : f < 2 ^ 35) (hi : i < 512) : ptrSlot (entryPtr (kva f) i) = i := by
  rw [ptrSlot, v2p_toNat (by rw [entryPtr_toNat h hi]; omega), entryPtr_toNat h hi, pgSize]
  omega

theorem kva_injective {f : Nat} (hf : f < 2 ^ 35) (hg : g < 2 ^ 35) (h : kva f = kva g) : f = g := by
  have := congrArg BitVec.toNat h
  rw [kva_toNat hf, kva_toNat hg] at this
  omega

section Access

variable {m : Machine} {s : State} {f i : Nat} (hf : f < 2 ^ 35) (hram : m.ram f = true)
include hf hram

theorem access_kva : access m (kva f) = .ok () := by
  rw [access, if_neg (kva_ne_zero hf), if_pos (by rw [ptrFrame_kva hf]; exact hram)]

theorem access_entryPtr (hi : i < 512) : access m (entryPtr (kva f) i) = .ok () := by
  rw [access, if_neg (entryPtr_ne_zero hf hi), if_pos (by rw [ptrFrame_entryPtr hf hi]; exact hram)]

theorem read_entryPtr (hi : i < 512) : read m s (entryPtr (kva f) i) = .ok (s.mem f i) := by
  rw [read, access_entryPtr hf hram hi, ptrFrame_entryPtr hf hi, ptrSlot_entryPtr hf hi]
  rfl

theorem write_entryPtr (hi : i < 512) (w : Word) :
    write m s (entryPtr (kva f) i) w = .ok { s with mem := setWord s.mem f i w } := by
  rw [write, access_entryPtr hf hram hi, ptrFrame_entryPtr hf hi, ptrSlot_entryPtr hf hi]
  rfl

theorem write_kva (w : Word) : write m s (kva f) w = .ok { s with mem := setWord s.mem f 0 w } := by
  have h := write_entryPtr (m := m) (s := s) hf hram (show 0 < 512 by omega) w
  rwa [show entryPtr (kva f) 0 = kva f from BitVec.add_zero (kva f)] at h

theorem memset_kva (w : Word) : memset m s (kva f) w = .ok { s with mem := setPage s.mem f (fun _ => w) } := by
  rw [memset, access_kva hf hram, ptrFrame_kva hf]
  rfl

theorem readPage_kva : readPage m s (kva f) = .ok (s.mem f) := by
  rw [readPage, access_kva hf hram, ptrFrame_kva hf]
  rfl

end Access

theorem memmovePage_kva {m : Machine} {s : State} {f : Nat} (hf : f < 2 ^ 35) (hfr : m.ram f = true)
    (hg : g < 2 ^ 35) (hgr : m.ram g = true) :
    memmovePage m s (kva f) (kva g) = .ok { s with mem := setPage s.mem f (s.mem g) } := by
  rw [memmovePage, readPage_kva hg hgr, access_kva hf hfr, ptrFrame_kva hf]
  rfl

theorem setPage_same (mem : Mem) (f : Nat) (page : Page) : setPage mem f page f = page := by
  simp [setPage]

theorem setPage_other {f : Nat} (h : g ≠ f) (page : Page) :
    setPage mem f page g = mem g := by
  simp [setPage, h]

theorem setWord_same (mem : Mem) (f i : Nat) (w : Word) : setWord mem f i w f i = w := by
  simp [setWord, setPage]

theorem setWord_slot {f i : Nat} (h : j ≠ i) (w : Word) :
    setWord mem f i w f j = mem f j := by
  simp [setWord, setPage, h]

theorem setWord_other {f : Nat} (h : g ≠ f) (i : Nat) (w : Word) :
    setWord mem f i w g = mem g := by
  simp [setWord, setPage, h]

theorem setWord_of_ne {f i : Nat} (h : g ≠ f ∨ j ≠ i) (w : Word) :
    setWord mem f i w g j = mem g j := by
  by_cases hg : g = f
  · subst hg
    exact setWord_slot (h.resolve_left (fun hn => hn rfl)) w
  · rw [setWord_other hg]

theorem setWord_congr {mem' : Mem} {f : Nat} (h : mem' g = mem g) (i : Nat) (w : Word) :
    setWord mem' f i w g = setWord mem f i w g := by
  by_cases hg : g = f
  · subst hg
    simp [setWord, setPage, h]
  · rw [setWord_other hg, setWord_other hg, h]

theorem setWord_idem (mem : Mem) (f i : Nat) (v w : Word) :
    setWord (setWord mem f i v) f i w = setWord mem f i w := by
  simp [setWord, setPage]

theorem setWord_comm {f i : Nat} (h : f ≠ g ∨ i ≠ j) (v w : Word) :
    setWord (setWord mem f i v) g j w = setWord (setWord mem g j w) f i v := by
  by_cases hfg : f = g
  · subst hfg
    have hij : i ≠ j := h.resolve_left (fun hn => hn rfl)
    simp only [setWord, setPage, update_self, update_idem]
    rw [update_comm hij]
  · simp only [setWord, setPage, update_of_ne hfg, update_of_ne (Ne.symm hfg)]
    rw [update_comm hfg]

/-- `memmove` into a frame, from its byte `o` on. -/
theorem memmove_frame {m : Machine} {s : State} {f o : Nat} {dst : Word} (hf : f + 1 < 2 ^ 35)
    (hram : m.ram f = true)
    (bs : List Byte) (hdst : dst.toNat = 0xFFFF800000000000 + f * 4096 + o) (hlen : o + bs.length ≤ 4096) :
    memmove m s dst bs = .ok { s with mem := setPage s.mem f (putBytes (s.mem f) o bs) } := by
  induction bs generalizing s dst o with
  | nil => simp [memmove, putBytes, setPage]
  | cons b bs ih =>
    simp only [List.length_cons] at hlen
    have hphys : (v2p dst).toNat = f * 4096 + o := by
      rw [v2p_toNat (by omega), hdst]
      omega
    have hframe : ptrFrame dst = f := by
      rw [ptrFrame, pgIndex, hphys, pgSize]
      omega
    have hoff : (v2p dst).toNat % pgSize = o := by
      rw [hphys, pgSize]
      omega
    have hne : dst ≠ 0 := by
      intro h0
      rw [h0, show (0 : Word).toNat = 0 from rfl] at hdst
      omega
    have hnext : (dst + 1).toNat = 0xFFFF800000000000 + f * 4096 + (o + 1) := by
      rw [BitVec.toNat_add, hdst, show (1 : Word).toNat = 1 from rfl]
      omega
    have hacc : access m dst = .ok () := by
      rw [access, if_neg hne, if_pos (by rw [hframe]; exact hram)]
    rw [memmove, hacc]
    simp only [ok_bind, hframe, hoff]
    rw [ih hnext (by omega)]
    simp only [setPage, update_self, putBytes, update_idem]

end Xv6.Memory
