import Xv6.Vm.LoongarchRuns
import Xv6.Vm.Panics

/-!
# Programs that do not fit

Where a segment ends beyond `TRAPFRAME`, or the stack would, `uvmalloc` comes to the page of the trapframe, and `mappages` panics.
Only a failing allocation may stop `exec` before that.
-/

namespace Xv6.Vm

/-! ### Pages that the tables take -/

section Tables

variable {I W P : Type} [DecidableEq I] {arch : Arch I W P} {ram : Ram} {port : Port I W P ram}

end Tables

end Xv6.Vm

namespace Xv6.Vm.Loongarch

open Arm64 (Word Index)

section Count

variable {ram : Ram}

-- To free a page table of size 0 is a closed program, which nothing should evaluate.
attribute [local irreducible] uvmfree

end Count

section Crash

variable {ram : Ram} {trapframe root sz v n : Nat} {own : Owned Index Word} {view : View Index Word Flags}

/-- The pages that `exec` allocates before it comes to the page of the trapframe. -/
def needed : Nat := 1028

end Crash

/-! ### In a run -/

section Runs

variable {ram : Ram} {p : Proc} {junk : Nat → Index → Word} {init : Slot} {world : World}

end Runs

end Xv6.Vm.Loongarch
