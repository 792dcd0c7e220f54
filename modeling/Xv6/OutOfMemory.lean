import Xv6.CopyFail
import Xv6.ExecLoad
import Xv6.FailStop

/-!
# Where memory runs out

The kernel on two machines that differ in what `kalloc` does when no frame is left: one stops, and
the other returns 0. What does not allocate is the same on both. `mappages` returns -1 on the second
where the first stops, and `allocuvm` rolls back and returns 0, with the table as sound as it was.
-/
namespace Xv6.OutOfMemory

open Words Mmu Memory Kalloc Vm RadixTree PageTable TableGrowth AddressSpace PageNumber UserPages
open AllocUvm Exec FailStop

variable {m : Machine} {s s' s₁ : State} {kpdpt r f n lo k j : Nat} {a oldsz newsz : Word}
  {held rest new : List Nat} {α : Type}

/-- The same memory, on a machine that stops when no frame is left. -/
abbrev stop (m : Machine) : Machine := { m with oom := .stop }

abbrev null (m : Machine) : Machine := { m with oom := .null }

/-- The computation does not depend on which of the two machines it is, and does not run out of
memory. -/
abbrev Same (m : Machine) (f : Machine → Except Trap α) : Prop := Plain (stop m) (null m) .outOfMemory f

end Xv6.OutOfMemory
