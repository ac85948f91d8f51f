import Xv6.Vm.Riscv64Proc

/-!
# What `sbrk` does to the size of a process

`sys_sbrk` adds a signed 32-bit number to an unsigned 64-bit size. It changes the size by exactly that number, or
fails and changes nothing; but where the sum is below zero, it shrinks nothing and reports success.
-/

namespace Xv6.Vm.Riscv64

variable {ram : Ram} {fails : Bool → Prop} {trampoline : Nat} {own own' : Owned Index Word}
  {view : View Index Word Flags} {p : Proc}

/-- The call fails and the process is as before, or it returns the old size, and the new one is larger by `n`. -/
def ChangesBy (ram : Ram) (trampoline : Nat) (view : View Index Word Flags) (p : Proc) (n : Int)
    (result : Int × Proc) (own' : Owned Index Word) : Prop :=
  (result.1 = -1 ∧ result.2 = p ∧ UserSpace ram trampoline p.trapframe p.pagetable p.sz own' view) ∨
  ∃ sz view', result.1 = p.sz ∧ result.2 = { p with sz } ∧ (sz : Int) = p.sz + n ∧ 0 ≤ p.sz + n ∧
    p.sz + n ≤ trapframeVa ∧ UserSpace ram trampoline p.trapframe p.pagetable sz own' view' ∧
      ∀ v < min (pages p.sz) (pages sz), view' v = view v

theorem sz_le (h : UserSpace ram trampoline p.trapframe p.pagetable p.sz own view) : p.sz ≤ trapframeVa := by
  have hle := h.le
  unfold pages pgsize at hle
  unfold trapframeVa pgsize
  omega

theorem pages_le_trapframe {sz : Nat} (hsz : sz ≤ trapframeVa) : pages sz ≤ trapframePage := by
  unfold trapframeVa at hsz
  exact (pages_mono hsz).trans (Nat.le_of_eq (pages_mul trapframePage))

theorem trapframeVa_lt : trapframeVa < 274877906944 := by decide

theorem uint64_of_nonneg {n : Int} (hnonneg : 0 ≤ n) (hlt : n < 18446744073709551616) : (uint64 n : Int) = n := by
  unfold uint64
  omega

theorem argint_bounds (reg : Word) : -2147483648 ≤ argint reg ∧ argint reg < 2147483648 := by
  unfold argint
  generalize reg.setWidth 32 = n
  have hlow := BitVec.le_toInt n
  have hhigh := BitVec.toInt_lt (x := n)
  norm_num at hlow hhigh
  exact ⟨hlow, hhigh⟩

theorem growproc_grow (h : UserSpace ram trampoline p.trapframe p.pagetable p.sz own view) {n : Int} (hpos : 0 < n)
    (hlt : n < 2147483648) :
    (growproc ram p n).wp (rule ram fails) own fun result own' =>
      (result.1 = -1 ∧ result.2 = p ∧ UserSpace ram trampoline p.trapframe p.pagetable p.sz own' view) ∨
      (result.1 = 0 ∧ ChangesBy ram trampoline view p n (p.sz, result.2) own') := by
  have hsz := sz_le h
  have hbound := trapframeVa_lt
  have hsum : (uint64 (p.sz + n) : Int) = p.sz + n := uint64_of_nonneg (by omega) (by omega)
  unfold growproc
  rw [if_pos hpos]
  by_cases hlarge : uint64 (p.sz + n) > trapframeVa
  · rw [if_pos hlarge]
    exact Or.inl ⟨rfl, rfl, h⟩
  · rw [if_neg hlarge, Program.wp_bind]
    have hle : uint64 (p.sz + n) ≤ trapframeVa := Nat.not_lt.mp hlarge
    apply Program.wp_mono rule_monotone _ (h.grow_spec _ (Or.inl (pages_le_trapframe hle)))
    intro sz own' hgrown
    rcases hgrown with ⟨hshrink, -⟩ | ⟨hge, rfl, view', huser, hfills⟩ | ⟨-, rfl, -, huser⟩
    · omega
    · rw [if_neg (by omega)]
      refine Or.inr ⟨rfl, Or.inr ⟨uint64 (p.sz + n), view', rfl, rfl, hsum, by omega, by omega, huser, ?_⟩⟩
      intro v hv
      exact (hfills v).2 fun hin => absurd hin.1 (by omega)
    · rw [if_pos rfl]
      exact Or.inl ⟨rfl, rfl, huser⟩

theorem growproc_shrink (h : UserSpace ram trampoline p.trapframe p.pagetable p.sz own view) {n : Int} (hneg : n < 0)
    (hge : -2147483648 ≤ n) :
    (growproc ram p n).wp (rule ram fails) own fun result own' =>
      result.1 = 0 ∧ (0 ≤ p.sz + n → ChangesBy ram trampoline view p n (p.sz, result.2) own') := by
  have hsz := sz_le h
  have hbound := trapframeVa_lt
  unfold growproc
  rw [if_neg (by omega), if_pos hneg, Program.wp_bind]
  apply Program.wp_mono rule_monotone _ (h.shrink_spec (uint64 (p.sz + n)))
  intro sz own' hshrunk
  obtain ⟨rfl, huser⟩ := hshrunk
  refine ⟨rfl, ?_⟩
  intro hnonneg
  have hsum : (uint64 (p.sz + n) : Int) = p.sz + n := uint64_of_nonneg hnonneg (by omega)
  have hmin : min p.sz (uint64 (p.sz + n)) = uint64 (p.sz + n) := Nat.min_eq_right (by omega)
  rw [hmin] at huser ⊢
  refine Or.inr ⟨_, _, rfl, rfl, hsum, hnonneg, by omega, huser, ?_⟩
  intro v hv
  exact View.drop_of_not fun hin => absurd hin.1 (by omega)

theorem sysSbrk_spec (h : UserSpace ram trampoline p.trapframe p.pagetable p.sz own view) (a0 a1 : Word) :
    (sysSbrk ram p a0 a1).wp (rule ram fails) own fun result own' =>
      if 0 ≤ p.sz + argint a0 then ChangesBy ram trampoline view p (argint a0) result own'
      else result.1 = p.sz := by
  have hsz := sz_le h
  have hbound := trapframeVa_lt
  obtain ⟨hlow, hhigh⟩ := argint_bounds a0
  have hgoOn : ∀ {result : Int × Proc} {own' : Owned Index Word},
      (result.1 = -1 ∧ result.2 = p ∧ UserSpace ram trampoline p.trapframe p.pagetable p.sz own' view) ∨
        (result.1 = 0 ∧ ChangesBy ram trampoline view p (argint a0) (p.sz, result.2) own') →
      0 ≤ p.sz + argint a0 →
        ((if result.1 < 0 then pure (-1, result.2) else pure ((p.sz : Int), result.2) :
          Code Index Word (Int × Proc))).wp (rule ram fails) own' fun result own' =>
            ChangesBy ram trampoline view p (argint a0) result own' := by
    intro result own' hgrown _
    rcases hgrown with ⟨hfailed, hproc, huser⟩ | ⟨hdone, hchanged⟩
    · rw [hfailed, if_pos (by decide)]
      exact Or.inl ⟨rfl, hproc, huser⟩
    · rw [hdone, if_neg (by decide)]
      exact hchanged
  unfold sysSbrk
  dsimp only
  by_cases heager : argint a1 = sbrkEager ∨ argint a0 < 0
  · rw [if_pos heager, Program.wp_bind]
    rcases lt_trichotomy (argint a0) 0 with hneg | hzero | hpos
    · apply Program.wp_mono rule_monotone _ (growproc_shrink h hneg hlow)
      intro result own' hshrunk
      by_cases hnonneg : 0 ≤ p.sz + argint a0
      · simp only [if_pos hnonneg]
        exact hgoOn (Or.inr ⟨hshrunk.1, hshrunk.2 hnonneg⟩) hnonneg
      · simp only [if_neg hnonneg]
        rw [hshrunk.1, if_neg (by decide)]
        rfl
    · unfold growproc
      rw [hzero, if_neg (by decide), if_neg (by decide)]
      have hnonneg : (0 : Int) ≤ p.sz + 0 := by omega
      simp only [if_pos hnonneg]
      exact Or.inr ⟨p.sz, view, rfl, rfl, by omega, by omega, by omega, h, fun _ _ => rfl⟩
    · apply Program.wp_mono rule_monotone _ (growproc_grow h hpos hhigh)
      intro result own' hgrown
      have hnonneg : 0 ≤ p.sz + argint a0 := by omega
      simp only [if_pos hnonneg]
      exact hgoOn hgrown hnonneg
  · have hnonneg : 0 ≤ argint a0 := by omega
    have hsum : (uint64 (p.sz + argint a0) : Int) = p.sz + argint a0 := uint64_of_nonneg (by omega) (by omega)
    rw [if_neg heager, if_neg (by omega)]
    have hpos : 0 ≤ p.sz + argint a0 := by omega
    simp only [if_pos hpos]
    by_cases hlarge : uint64 (p.sz + argint a0) > trapframeVa
    · rw [if_pos hlarge]
      exact Or.inl ⟨rfl, rfl, h⟩
    · rw [if_neg hlarge]
      have hle := pages_le_trapframe (Nat.not_lt.mp hlarge)
      refine Or.inr ⟨_, view, rfl, rfl, hsum, hpos, by omega, ⟨h.space, ?_, hle⟩, fun _ _ => rfl⟩
      exact h.within.mono (pages_mono (by omega))

section Memory

variable {ι : Type} {who : ι} {pool : Nat → Prop} {others junk : Nat → Index → Word} {memory : Memory Index Word}

/-- **`sbrk` changes the size by exactly `n` or fails**, whichever allocations fail, if and only if `n` takes away no more
than there is. -/
theorem sysSbrk_iff (howns : Owns ram pool others memory own)
    (h : UserSpace ram trampoline p.trapframe p.pagetable p.sz own view) (a0 a1 : Word) (refuses : Nat → Bool) (k : Nat) :
    (sysSbrk ram p a0 a1).Ends (scarce junk refuses) who (memory, k) (fun result state' =>
      ∃ own', Owns ram pool others state'.1 own' ∧ ChangesBy ram trampoline view p (argint a0) result own') ↔
    0 ≤ p.sz + argint a0 := by
  have hspec := @Owns.ends_scarce _ _ _ ram pool others junk who memory own _ refuses _ _ k howns (sysSbrk_spec h a0 a1)
  constructor
  · intro hends
    by_contra hneg
    obtain ⟨result, state, hexec, _, -, hchanges⟩ := hends
    obtain ⟨own', hresult, -⟩ := hspec.of_exec hexec
    rw [if_neg hneg] at hresult
    rcases hchanges with ⟨hfailed, -⟩ | ⟨sz, view', -, -, -, hnonneg, -⟩
    · omega
    · exact hneg hnonneg
  · intro hnonneg
    refine hspec.mono ?_
    rintro result state ⟨own', hresult, howns'⟩
    rw [if_pos hnonneg] at hresult
    exact ⟨own', howns', hresult⟩

end Memory

/-- A process without memory grows by a page. -/
theorem sysSbrk_iff_newProc : ∃ state pool others own,
    (sysSbrk smallRam newProc 4096 1).Ends (scarce (fun _ _ => 1) fun _ => false) () state (fun result state' =>
      ∃ own', Owns smallRam pool others state'.1 own' ∧
        ChangesBy smallRam 50 (fun _ => none) newProc (argint 4096) result own') ∧
    Owns smallRam pool others state.1 own := by
  obtain ⟨state, pool, others, own, -, howns, huser⟩ := newProc_space
  refine ⟨state, pool, others, own, ?_, howns⟩
  exact (@sysSbrk_iff smallRam 50 own _ newProc Unit () pool others (fun _ _ => 1) state.1 howns huser 4096 1
    (fun _ => false) state.2).mpr (by decide)

/-- It is asked to shrink by a byte, and returns its size. -/
theorem shrinks_below_zero : ¬ ∀ (ram : Ram) (trampoline : Nat) (pool : Nat → Prop) (others : Nat → Index → Word)
    (memory : Memory Index Word) (own : Owned Index Word) (view : View Index Word Flags) (p : Proc) (a0 a1 : Word),
    Owns ram pool others memory own → UserSpace ram trampoline p.trapframe p.pagetable p.sz own view →
      (sysSbrk ram p a0 a1).Ends (scarce (fun _ _ => 1) fun _ => false) () (memory, 0) (fun result state' =>
        ∃ own', Owns ram pool others state'.1 own' ∧ ChangesBy ram trampoline view p (argint a0) result own') := by
  intro hclaim
  obtain ⟨state, pool, others, own, -, howns, huser⟩ := newProc_space
  obtain ⟨result, state', hexec, own', -, hchanges⟩ :=
    hclaim smallRam 50 pool others state.1 own _ newProc 0xFFFFFFFFFFFFFFFF 1 howns huser
  have hresult : (sysSbrk smallRam newProc 0xFFFFFFFFFFFFFFFF 1).exec (scarce (fun _ _ => 1) fun _ => false) ()
      (state.1, 0) = some ((0, newProc), (state.1, 0)) := rfl
  rw [hresult] at hexec
  rw [← (Prod.mk.inj (Option.some.inj hexec)).1] at hchanges
  rcases hchanges with ⟨hfailed, -⟩ | ⟨sz, view', -, -, -, hnonneg, -⟩
  · cases hfailed
  · exact absurd hnonneg (by decide)

end Xv6.Vm.Riscv64
