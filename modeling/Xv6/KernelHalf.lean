import Xv6.GrowTrace
import Xv6.OutOfMemory

/-!
# Sizes in the kernel's half

`KERNBASE` is a sign-extended address, so a size from `2 ^ 47` on that `allocuvm` accepts has its
last page in the half of the page map that is the kernel's. It needs more frames than there are, and
the rollback goes on to the kernel's half, where a walk takes the large page that maps physical
memory for a table.
-/
namespace Xv6.KernelHalf

open Words Mmu Memory Kalloc Vm RadixTree PageTable AddressSpace PageNumber UserPages PageWalk
open ExecLoad GrowTrace OutOfMemory Function

variable {m : Machine} {s s' : State} {kpdpt r f g n i j : Nat} {a oldsz newsz : Word}
  {rest : List Nat}

/-- Read as a page table, physical page 0 has itself as its first page. -/
def Snare (s : State) (kpdpt : Nat) : Prop := s.mem kpdpt = kernelPdpt ∧ s.mem 0 0 = pteP

theorem Snare.congr (h : Snare s kpdpt) (hk : s'.mem kpdpt = s.mem kpdpt)
    (h0 : s'.mem 0 = s.mem 0) : Snare s' kpdpt :=
  ⟨hk.trans h.1, by rw [h0]; exact h.2⟩

/-- What only changes free frames and tables leaves the snare. -/
theorem Snare.kept (h : Snare s kpdpt) (hspace : Space s kpdpt r rest) (hk : kpdpt ∈ rest)
    (hsame : ∀ g, g ∉ s.freelist → ¬ IsTable s.mem r g → s'.mem g = s.mem g) : Snare s' kpdpt := by
  obtain ⟨hfree, htable⟩ := hspace.other hk
  obtain ⟨hfree₀, htable₀⟩ := hspace.outside not_managed_zero
  exact h.congr (hsame kpdpt hfree htable) (hsame 0 hfree₀ htable₀)

section

variable (hfull : m.Full) (h : Space s kpdpt r rest)
include hfull h

end

section

variable (hfull : m.Full) (hlo : pages oldsz ≤ 2 ^ 35) (hhi : 2 ^ 35 < pages newsz)

include hfull hlo hhi

end

end Xv6.KernelHalf
