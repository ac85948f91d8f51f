import Xv6.Vm.Lookup
import Xv6.Vm.Riscv64Calls

/-!
# Lazily allocated memory along a run

Between its calls, a process on riscv64 has entries for pages below its size, as many as were
allocated so far, and for the two pages of the kernel, and no other. The pages they name are not free,
and each has one entry. A page fault adds an entry below the size where there was none, for a page of
zeros.
-/

namespace Xv6.Vm.Riscv64

/-! ### What is mapped -/

def leafAt (memory : Memory Index Word) (p : Proc) (v : Nat) : Word :=
  arch.entryAt memory p.pagetable v

/-- What the hardware makes of it: the page and its flags, where it is valid. -/
def mappingAt (memory : Memory Index Word) (p : Proc) (v : Nat) : Option (Nat × Flags) :=
  if valid (leafAt memory p v) = true then
    some (pte2pa (leafAt memory p v), pteFlags (leafAt memory p v))
  else none

variable {ram : Ram} {trampoline v w : Nat} {memory : Memory Index Word}
  {own : Owned Index Word} {view : View Index Word Flags} {p : Proc}

namespace UserSpace

variable (h : UserSpace ram trampoline p.trapframe p.pagetable p.sz own view)
  (hwords : ∀ {q words}, own q = some words → memory.words q = words)
include h hwords

theorem mappingAt_of_some {page : Page Index Word Flags} (hpage : view v = some page) :
    mappingAt memory p v = some (page.frame, page.flags) := by
  obtain ⟨tree, htree⟩ := h.space
  obtain ⟨-, -, hmaps⟩ := htree.page hpage
  have hentry : leafAt memory p v = tree.leaf (arch.path v) := htree.entryAt_eq hwords v
  have hvalid : valid (tree.leaf (arch.path v)) = true := hmaps.isMapped
  have hframe : pte2pa (tree.leaf (arch.path v)) = page.frame := hmaps.page
  have hflags : pteFlags (tree.leaf (arch.path v)) = page.flags := hmaps.flags
  rw [mappingAt, hentry, if_pos hvalid, hframe, hflags]

theorem leafAt_of_none (hv : v < 134217728) (hhole : view v = none) :
    leafAt memory p v = kernelPages trampoline p.trapframe v := by
  obtain ⟨tree, htree⟩ := h.space
  have hentry : leafAt memory p v = tree.leaf (arch.path v) := htree.entryAt_eq hwords v
  rw [hentry, htree.hole hv hhole]

theorem mappingAt_of_none (hv : v < 134217728) (hhole : view v = none) (htrapframe : v ≠ trapframePage)
    (htrampoline : v ≠ trampolinePage) : mappingAt memory p v = none := by
  have hzero : kernelPages trampoline p.trapframe v = 0 := by
    unfold kernelPages
    rw [Function.update_of_ne htrapframe, Function.update_of_ne htrampoline]
  rw [mappingAt, h.leafAt_of_none hwords hv hhole, hzero]
  rfl

theorem mappingAt_trapframe (hram : ram.Has p.trapframe) :
    mappingAt memory p trapframePage = some (p.trapframe, sealedFlags (pteFlags (pteR ||| pteW))) := by
  have hlt : trapframePage < 134217728 := by decide
  have hentry : leafAt memory p trapframePage = leafEntry p.trapframe (pteFlags (pteR ||| pteW)) := by
    rw [h.leafAt_of_none hwords hlt (h.eq_none (Nat.le_refl _)), kernelPages, Function.update_self]
  have hvalid : valid (leafEntry p.trapframe (pteFlags (pteR ||| pteW))) = true := valid_or _
  have hframe := arch.page_leaf _ hram.lt (pteFlags (pteR ||| pteW))
  have hflags := arch.flags_leaf _ hram.lt (pteFlags (pteR ||| pteW))
  rw [mappingAt, hentry, if_pos hvalid]
  exact congrArg some (Prod.ext hframe hflags)

theorem exists_page {frame : Nat} {flags : Flags} (hv : v < 134217728)
    (hmapped : mappingAt memory p v = some (frame, flags)) (htrapframe : v ≠ trapframePage)
    (htrampoline : v ≠ trampolinePage) :
    ∃ page, view v = some page ∧ page.frame = frame ∧ page.flags = flags := by
  cases hview : view v with
  | none =>
      rw [h.mappingAt_of_none hwords hv hview htrapframe htrampoline] at hmapped
      cases hmapped
  | some page =>
      obtain ⟨hframe, hflags⟩ :=
        Prod.mk.inj (Option.some.inj ((h.mappingAt_of_some hwords hview).symm.trans hmapped))
      exact ⟨page, rfl, hframe, hflags⟩

end UserSpace

/-- **Only pages below the size are mapped**, and the two of the kernel. -/
structure Mapped (memory : Memory Index Word) (p : Proc) : Prop where
  le : p.sz ≤ trapframeVa
  below : ∀ v < 134217728, mappingAt memory p v ≠ none →
    v < pages p.sz ∨ v = trapframePage ∨ v = trampolinePage
  trapframe : (mappingAt memory p trapframePage).map Prod.fst = some p.trapframe

namespace Holds

variable (h : Holds ram trampoline p own)
  (hwords : ∀ {q words}, own q = some words → memory.words q = words)
include h hwords

theorem mapped : Mapped memory p := by
  obtain ⟨hram, user, words, rfl, -, view, hspace⟩ := h
  have huser : ∀ {q words}, user q = some words → memory.words q = words := fun hq =>
    hwords (Heap.union_eq_some_left hq)
  refine ⟨sz_le hspace, fun v hv hmapped => ?_, ?_⟩
  · by_contra hnot
    obtain ⟨hbelow, hkernel⟩ := not_or.mp hnot
    obtain ⟨htrapframe, htrampoline⟩ := not_or.mp hkernel
    have hhole := hspace.within.eq_none (Nat.not_lt.mp hbelow)
    exact hmapped (hspace.mappingAt_of_none huser hv hhole htrapframe htrampoline)
  · rw [hspace.mappingAt_trapframe huser hram]
    rfl

end Holds

/-! ### Page faults -/

abbrev World :=
  Threads (processes Index Word Proc Slot) (Machine Index Word Proc Slot) Slot (Option Proc)

end Xv6.Vm.Riscv64
