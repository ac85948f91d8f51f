import Xv6.Vm.LoongarchProc

/-!
# The memory of processes along a run

Between its calls, a process has an entry for each page below its size and for the page of its trapframe, and for no other. The
pages these name are not free, and each has one entry.
-/

namespace Xv6.Vm.Loongarch

open Arm64 (Word Index pte2pa)

/-! ### What is mapped -/

def leafAt (memory : Memory Index Word) (p : Proc) (v : Nat) : Word := arch.entryAt memory p.pagetable v

/-- **Exactly the pages below the size are mapped**, and the page of the trapframe. -/
structure Mapped (memory : Memory Index Word) (p : Proc) : Prop where
  le : p.sz ≤ trapframeVa
  valid_iff : ∀ v < 256, valid (leafAt memory p v) = true ↔ v < pages p.sz ∨ v = trapframePage
  trapframe : pte2pa (leafAt memory p trapframePage) = p.trapframe

section Spec

variable {ram : Ram} {fails : Bool → Prop} {memory : Memory Index Word} {own : Owned Index Word} {p : Proc} {v w : Nat}

theorem kernelPages_trapframe (trapframe : Nat) : kernelPages trapframe trapframePage = leafEntry trapframe kernelFlags :=
  Function.update_self ..

theorem valid_leafEntry (pa : Nat) (perm : Flags) : valid (leafEntry pa perm) = true := valid_or _

theorem Holds.leaf_cases (h : Holds ram p own) (hwords : ∀ {q words}, own q = some words → memory.words q = words)
    (hv : v < 256) :
    (v < pages p.sz ∧ valid (leafAt memory p v) = true ∧ own (pte2pa (leafAt memory p v)) ≠ none ∧
      pte2pa (leafAt memory p v) ≠ p.trapframe) ∨
    (v = trapframePage ∧ valid (leafAt memory p v) = true ∧ pte2pa (leafAt memory p v) = p.trapframe) ∨
    (pages p.sz ≤ v ∧ v ≠ trapframePage ∧ valid (leafAt memory p v) = false) := by
  obtain ⟨hram, user, view, words, rfl, hsingle, hspace⟩ := h
  obtain ⟨tree, htree⟩ := hspace.space
  have huser : ∀ {q words}, user q = some words → memory.words q = words := fun hq =>
    hwords (Heap.union_eq_some_left hq)
  have hentry : leafAt memory p v = tree.leaf (arch.path v) := htree.entryAt_eq huser v
  rw [hentry]
  by_cases hlt : v < pages p.sz
  · obtain ⟨page, hpage⟩ := Option.ne_none_iff_exists'.mp ((hspace.below v).mpr hlt)
    obtain ⟨-, hown, hmaps⟩ := htree.page hpage
    have hframe : pte2pa (tree.leaf (arch.path v)) = page.frame := hmaps.page
    rw [hframe]
    refine Or.inl ⟨hlt, (Bool.and_eq_true_iff.mp hmaps.isMapped).1, ?_, ?_⟩
    · rw [Heap.union_eq_some_left hown]
      exact Option.some_ne_none _
    · intro heq
      have hnone := hsingle.right_eq_none hown
      rw [heq, Heap.single, Heap.set_self] at hnone
      cases hnone
  · have hhole := htree.hole (lt_limit hv) (hspace.below.eq_none (Nat.not_lt.mp hlt))
    rw [hhole]
    by_cases htop : v = trapframePage
    · rw [htop, kernelPages_trapframe]
      exact Or.inr (Or.inl ⟨rfl, valid_leafEntry _ _, arch.page_leaf _ hram.lt kernelFlags⟩)
    · have hzero : kernelPages p.trapframe v = 0 := Function.update_of_ne htop ..
      rw [hzero]
      exact Or.inr (Or.inr ⟨Nat.not_lt.mp hlt, htop, rfl⟩)

theorem Holds.mapped (h : Holds ram p own) (hwords : ∀ {q words}, own q = some words → memory.words q = words) :
    Mapped memory p := by
  have htop : pages p.sz ≤ trapframePage := by
    obtain ⟨-, user, view, words, -, -, hspace⟩ := h
    exact hspace.pages_le
  refine ⟨?_, fun v hv => ?_, ?_⟩
  · obtain ⟨-, user, view, words, -, -, hspace⟩ := h
    exact hspace.le
  · rcases h.leaf_cases hwords hv with ⟨hlt, hvalid, -⟩ | ⟨heq, hvalid, -⟩ | ⟨hle, hne, hinvalid⟩
    · exact iff_of_true hvalid (Or.inl hlt)
    · exact iff_of_true hvalid (Or.inr heq)
    · rw [hinvalid]
      refine iff_of_false Bool.noConfusion (not_or_intro ?_ hne)
      exact Nat.not_lt.mpr hle
  · rcases h.leaf_cases hwords trapframe_lt with ⟨hlt, -⟩ | ⟨-, -, hframe⟩ | ⟨-, hne, -⟩
    · exact absurd hlt (Nat.not_lt.mpr htop)
    · exact hframe
    · exact absurd rfl hne

abbrev World := Threads (processes Index Word Proc Slot) (Machine Index Word Proc Slot) Slot (Option Proc)

end Spec

/-! ### A machine to start from -/

end Xv6.Vm.Loongarch
