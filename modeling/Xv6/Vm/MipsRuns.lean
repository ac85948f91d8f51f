import Xv6.Vm.MipsFree

/-!
# Pages lost on MIPS

The steps of `fork`, `exec`, `sbrk` and `exit` keep the pages that are free or taken, in any order and by any
processes, as long as no step lands on a pair of pages that another page is in.
-/

namespace Xv6.Vm.Mips

/-- The free pages, and the page tables that there are. -/
structure World (ι : Type) where
  free : List Nat
  table : ι → Option Pgdir

/-- What the calls do to a page table. -/
inductive Op (ι : Type) where
  /-- `setupkvm` takes a page directory. -/
  | setup (i : ι)
  /-- `setupkvm` maps a page of the kernel. -/
  | map (i : ι) (asid v pa : Nat) (perm : Elo)
  /-- `setupkvm` returns 0, and leaves what it has taken. -/
  | drop (i : ι)
  /-- A round of `allocuvm`, of `copyuvm`, or `inituvm`. -/
  | grow (i : ι) (asid v : Nat) (flags : Elo)
  /-- `clearpteu`. -/
  | clear (i : ι) (uva : Nat)
  /-- `deallocuvm`. -/
  | shrink (i : ι) (oldsz newsz : Nat)
  /-- `freevm`. -/
  | discard (i : ι)

attribute [local irreducible] Pgdir.held Pgdir.tables

section Worlds

variable {ι : Type} [DecidableEq ι]

/-- The page table of `i` is replaced. -/
def World.put (w : World ι) (i : ι) (s : State) : World ι := ⟨s.free, Function.update w.table i (some s.pgdir)⟩

/-- Do one step. There is no result where it panics or does not apply. -/
def Op.exec (ram : Ram) : Op ι → World ι → Option (World ι)
  | .setup i, w =>
      match w.table i, w.free with
      | none, p :: free => some (w.put i ⟨free, ⟨p, fun _ => none⟩⟩)
      | _, _ => none
  | .map i asid v pa perm, w => do
      let d ← w.table i
      let mapped ← mappages asid (v * pgsize) pgsize pa perm ⟨w.free, d⟩
      some (w.put i mapped.2)
  | .drop i, w => do
      let _ ← w.table i
      some ⟨w.free, Function.update w.table i none⟩
  | .grow i asid v flags, w => do
      let d ← w.table i
      match w.free with
      | [] => none
      | mem :: free =>
          let mapped ← mappages asid (v * pgsize) pgsize mem (eloFlags flags) ⟨free, d⟩
          some (w.put i mapped.2)
  | .clear i uva, w => do
      let d ← w.table i
      let s ← clearpteu uva ⟨w.free, d⟩
      some (w.put i s)
  | .shrink i oldsz newsz, w => do
      let d ← w.table i
      let result ← deallocuvm ram oldsz newsz ⟨w.free, d⟩
      some (w.put i result.2)
  | .discard i, w => do
      let d ← w.table i
      let free ← freevm ram ⟨w.free, d⟩
      some ⟨free, Function.update w.table i none⟩

/-- What a step needs for no page to be lost. -/
def Op.Fits (w : World ι) : Op ι → Prop
  | .setup _ => True
  | .map i asid v _ _ =>
      pages kernbase ≤ v ∧ v < 1048576 ∧ asid < 128 ∧ ∀ d, w.table i = some d → Matches asid d v
  | .drop _ => False
  | .grow i asid v _ =>
      v < pages kernbase ∧ asid < 128 ∧ ∀ d, w.table i = some d →
        ¬ Holds (d.half v) ∧ Matches asid d v ∧ (d.table v = none → 2 ≤ w.free.length)
  | .clear _ uva => uva < kernbase
  | .shrink i oldsz newsz =>
      oldsz ≤ kernbase ∧ ∀ d, w.table i = some d →
        ∀ v ∈ d.mapped (pages newsz) (pages oldsz), ¬ d.Passed (pages newsz) v → ¬ Holds (d.half (partner v))
  | .discard i => ∀ d, w.table i = some d → ∀ v ∈ d.held, Valid (d.half v) ∧ ¬ Holds (d.half (partner v))

variable [Fintype ι]

def World.total (w : World ι) : Multiset Nat := w.free + ∑ i, (w.table i).elim 0 Pgdir.taken

end Worlds

/-! ### The calls as steps -/

section Calls

variable {ι : Type} [DecidableEq ι] {ram : Ram} {w : World ι} {i : ι}

end Calls

end Xv6.Vm.Mips
