import Xv6.CopyFail
import Xv6.ExecLoad

/-!
# The frames of a program

The table that `exec` builds has the pages from 1 on without a gap, so that its size says how many
frames it has taken. A file and the number of free frames then decide which program headers the
loader comes to.
-/
namespace Xv6.ExecFrames

open Words Mmu Memory Kalloc Vm Outcome RadixTree PageTable AddressSpace PageNumber UserPages FreeVm
open AnyTable CopyFail Exec ExecLoad

variable {m : Machine} {s₀ s s' : State} {kpdpt r d n k : Nat} {held : List Nat} {x : Image}
  {c : List Byte} {a oldsz newsz size : Word}

theorem allocLoop_cost (oldsz newsz : Word) (hm : m.oom ≠ .null) (hfull : m.Full) (j : Nat)
    (h : Copying s₀ s kpdpt d n [] held) (ha : a.toNat = (n + 1) * 4096)
    (hroom : n + s.freelist.length + 1 < 2 ^ 35) :
    Ends (allocLoop m (kva d) oldsz newsz j s a)
      (fun e => Exhausted m e ∧ s₀.freelist.length ≤ cost (n + j))
      (fun y => Copying s₀ y.1 kpdpt d (n + j) [] held) := by
  induction j generalizing s a n with
  | zero => exact h
  | succ j ih =>
    have hfree := h.free
    rw [List.length_nil] at hfree
    have hnext : cost (n + 1) ≤ cost (n + (j + 1)) := cost_strictMono.monotone (by omega)
    have hlt := cost_lt n
    rw [allocLoop]
    refine (kalloc_any m h.owned).seq ?_ ?_
    · rintro e ⟨hex, hnil⟩
      rw [hnil, List.length_nil] at hfree
      exact ⟨hex, by omega⟩
    · rintro y (⟨-, hnull, -⟩ | ⟨f, rest, hcons, hman, hnot, rfl, hown⟩)
      · exact absurd hnull hm
      dsimp only
      rw [if_neg (kva_ne_zero hman.small), memset_kva hman.small (hman.ram hfull), ok_bind, v2p_kva]
      have htake := h.take hcons hnot (fun _ => 0) (Function.update s.refs f 1) hown
      have hlen := htake.free
      have hcost := htake.tables.missing_next ha (by omega)
      rw [List.length_singleton] at hlen
      have hmap := htake.mappages_ends hfull ha (by omega) _ isFlags_fresh
      refine hmap.seq ?_ ?_
      · rintro e ⟨hex, hshort⟩
        dsimp only at hshort hcost hlen
        exact ⟨hex, by omega⟩
      · rintro ⟨s₁, v⟩ (⟨-, hnull, -⟩ | ⟨hv, hcopy⟩)
        · exact absurd hnull hm
        obtain rfl : v = 0 := hv
        dsimp only at hcopy ⊢
        rw [if_neg (by decide)]
        have hroom₁ : n + 1 + s₁.freelist.length + 1 < 2 ^ 35 := by
          have hfree₁ := hcopy.free
          rw [List.length_nil] at hfree₁
          omega
        have hrest := ih hcopy (next_page ha (by omega)) hroom₁
        rwa [show n + 1 + j = n + (j + 1) by omega] at hrest

/-- The table has the tables for the pages from 1 to `n` and no others, and took the frames for
them and for the page map. -/
structure Paid (s₀ s : State) (r n : Nat) : Prop where
  tables : TablesUpTo s.mem r n
  free : s₀.freelist.length = s.freelist.length + 1 + cost n

theorem Paid.fits (h : Paid s₀ s r n) : cost n < s₀.freelist.length := by
  have := h.free
  omega

theorem Paid.congr (h : Paid s₀ s r n) (htables : ∀ t, IsTable s.mem r t → s'.mem t = s.mem t)
    (hfree : s'.freelist = s.freelist) : Paid s₀ s' r n := by
  refine ⟨fun p hp hlen => ?_, by rw [hfree]; exact h.free⟩
  rw [walk_tables htables (by omega)]
  exact h.tables p hp hlen

theorem Paid.copying (hp : Paid s₀ s r n) (h : Building s₀ s kpdpt r (n + 1) held) :
    Copying s₀ s kpdpt r n [] held := by
  constructor
  case shape => exact h.space.tree.shape
  case owned => exact h.space.owned
  case sep => exact fun g hg ht => h.space.apart g (h.space.tree.table_mem ht) hg
  case tables => exact hp.tables
  case tablesIn =>
    intro p t hlen hw
    have hin := h.space.tree.table_mem ⟨p, hlen, hw⟩
    simp only [List.mem_cons, List.mem_append] at hin ⊢
    tauto
  case pages =>
    intro k h₁ h₂
    obtain ⟨f, -, hc, -⟩ := h.page k h₁ (by omega)
    exact (child_eq_some.mp hc).1
  case rest =>
    intro k h₁ h₂
    rw [h.other k (by omega) (.inr (by omega))]
    rfl
  case same => exact h.kept
  case free => exact hp.free

/-- `allocuvm` on the table: it refuses a size in the kernel's half, and otherwise stops when the
frames are too few for the size. -/
theorem Paid.allocuvm (newsz : Word) (hm : m.oom ≠ .null) (hfull : m.Full)
    (h : Building s₀ s kpdpt r (pages oldsz) held) (hp : Paid s₀ s r (pages oldsz - 1))
    (hpos : 0 < oldsz.toNat) :
    Ends (allocuvm m s (kva r) oldsz newsz)
      (fun e => Exhausted m e ∧ s₀.freelist.length ≤ cost (pages newsz - 1))
      (fun y => newsz.toNat < kernBase.toNat → Paid s₀ y.1 r (pages y.2 - 1) ∧
        ∀ g, ¬ Managed g → y.1.mem g = s.mem g) := by
  have hfew := h.few
  have hmax := nframes_eq
  have hkern : kernBase.toNat = 0xFFFF800000000000 := rfl
  have hone := h.pos
  have hsmall : oldsz.toNat + 4095 < 2 ^ 64 := by
    rw [pages] at hfew
    omega
  have hcopy := hp.copying (by rwa [Nat.sub_add_cancel hone])
  have ha : (pgRoundUp oldsz).toNat = (pages oldsz - 1 + 1) * 4096 := by
    rw [Nat.sub_add_cancel hone]
    exact pgRoundUp_page hsmall
  have hloop := allocLoop_cost oldsz newsz hm hfull (pages newsz - pages oldsz)
    hcopy ha (by omega)
  have hends : Ends (Vm.allocuvm m s (kva r) oldsz newsz) _ _ :=
    allocuvm_ends hm hfull h.space hpos (by omega)
  cases hrun : Vm.allocuvm m s (kva r) oldsz newsz with
  | error e =>
    rw [Vm.allocuvm] at hrun
    split at hrun
    · cases hrun
    split at hrun
    · cases hrun
    simp only [pageCount_pages hsmall] at hrun
    obtain ⟨hex, hshort⟩ := hloop.of_error hrun
    have hle := pages_mono (Nat.le_of_not_lt ‹¬ newsz.toNat < oldsz.toNat›)
    rw [show pages oldsz - 1 + (pages newsz - pages oldsz) = pages newsz - 1 by omega] at hshort
    exact ⟨hex, hshort⟩
  | ok y =>
    intro hlow
    obtain ⟨rfl, hk⟩ | ⟨rfl, -⟩ | ⟨hsz, hle, -, hg⟩ := hends.of_ok hrun
    · omega
    · exact ⟨hp, fun _ _ => rfl⟩
    rw [Vm.allocuvm, if_neg (by omega), if_neg (by omega)] at hrun
    simp only [pageCount_pages hsmall] at hrun
    have hend := hloop.of_ok hrun
    have hmono := pages_mono hle
    rw [show pages oldsz - 1 + (pages newsz - pages oldsz) = pages newsz - 1 by omega] at hend
    have hfree := hend.free
    rw [List.length_nil] at hfree
    rw [hsz]
    refine ⟨⟨hend.tables, hfree⟩, fun g hno => ?_⟩
    obtain ⟨hnot, htable⟩ := h.space.outside hno
    exact hg.contents g hnot htable

/-- The loader gets past a segment after which the program has the given size: there are frames
for it, the file has its bytes, and if it starts at page 0 there is a page table. -/
def Passes (c : List Byte) (frames : Nat) (ph : Proghdr) (size : Word) : Prop :=
  cost (pages size - 1) < frames ∧ Loads c ph = true ∧
    ¬ (ph.vaddr = 0 ∧ fileSize ph ≠ 0 ∧ size.toNat ≤ 4096)

/-- `P` holds of every segment for which the loader calls `allocuvm`, and of the size before. -/
def EachSegment (c : List Byte) (frames : Nat) (P : Proghdr → Word → Prop) :
    Nat → BitVec 32 → Word → Prop
  | 0, _, _ => True
  | n + 1, off, size =>
    match readExact c off 56 with
    | none => True
    | some b =>
      if (proghdr b).type ≠ elfProgLoad then EachSegment c frames P n (off + 56) size
      else if (proghdr b).memsz.toNat < (proghdr b).filesz.toNat then True
      else if ((proghdr b).vaddr + (proghdr b).memsz).toNat < (proghdr b).vaddr.toNat then True
      else P (proghdr b) size ∧ ∀ size', sizeAfter (proghdr b) size = some size' →
        Passes c frames (proghdr b) size' → EachSegment c frames P n (off + 56) size'

def EachSegmentOf (c : List Byte) (frames : Nat) (P : Proghdr → Word → Prop) : Prop :=
  ∀ b, readExact c 0 64 = some b → (elfhdr b).magic = elfMagic →
    EachSegment c frames P (elfhdr b).phnum ((elfhdr b).phoff.setWidth 32) 0x1000

end Xv6.ExecFrames
