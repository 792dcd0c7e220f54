import Xv6.ExecFrames
import Xv6.ExecStack
import Xv6.Fork
import Xv6.GrowProc
import Xv6.KernelHalf

/-!
# A null page

`exec`, `sbrk` and `fork` on the machine whose `kalloc` returns 0 when no frame is left. `setupkvm`
uses its page without a look at it; the other callers give up and report failure, up to sizes of `2
^ 47` bytes. Beyond them the rollback of `allocuvm` comes to the kernel's half and to physical page
0.
-/
namespace Xv6.NullPage

open Words Mmu Memory Kalloc Vm PageTable AddressSpace PageNumber UserPages FreeVm AnyTable AllocUvm
open CopyFail Exec ExecLoad ExecFrames SizeBound Kernel KernelInv FailStop OutOfMemory KernelHalf

variable {k : Task} {ph : Proghdr} {size' sz n : Word}

variable {m : Machine} {s s₀ : State} {kpdpt r j : Nat} {held : List Nat} {x : Image}
  {c : List Byte} {off : BitVec 32} {size : Word}

/-- The segment ends at most at `2 ^ 47`, or `allocuvm` refuses it. -/
def LowSegment (ph : Proghdr) (_ : Word) : Prop :=
  pages (ph.vaddr + ph.memsz) ≤ 2 ^ 35 ∨ kernBase.toNat ≤ (ph.vaddr + ph.memsz).toNat

/-- No byte of the segment is stored to physical page 0. -/
def Spared (c : List Byte) (ph : Proghdr) (size : Word) : Prop :=
  ∀ size', sizeAfter ph size = some size' → ¬ Harmful c ph size'

section

variable (hfull : m.Full)
include hfull

end

variable {sys : Sys} {d : Pgdir}

end Xv6.NullPage
