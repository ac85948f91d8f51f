import Mathlib.Dynamics.PeriodicPts.Defs
import Xv6.Malloc.Rounding

/-!
# One request size

A program that only asks for blocks of one size never leaves a fragment behind. Every size in memory
is a multiple of the request's unit count, so a block too small for the request is empty, and the
search reaches `morecore` with nothing on the ring. That needs no sum of sizes to wrap: a block ends
below the break, or past it by what the conversion to `int` can lose.
-/

namespace Xv6.Malloc

variable {m : Machine} {n : Nat} {fuel : Nat}

namespace Heap

def OnList (heap : Heap) (p : Nat) : Prop :=
  ∃ freep k, heap.freep = some freep ∧ heap.ptr^[k] freep = p

structure Multiples (heap : Heap) (abi : Abi) (n brk : Nat) : Prop where
  dvd : ∀ a, n ∣ heap.size a
  within : ∀ a, heap.size a = 0 ∨ a + heap.size a * abi.unit ≤ brk + abi.slack
  ptr_lt : ∀ a, heap.ptr a < 2 ^ abi.wordBits
  freep_lt : ∀ freep ∈ heap.freep, freep < 2 ^ abi.wordBits

namespace Multiples

variable {heap : Heap} {abi : Abi} {brk p q size : Nat}

theorem mono (h : heap.Multiples abi n brk) {brk' : Nat} (hle : brk ≤ brk') :
    heap.Multiples abi n brk' where
  dvd := h.dvd
  within a := (h.within a).imp_right fun hin => by omega
  ptr_lt := h.ptr_lt
  freep_lt := h.freep_lt

theorem setPtr (h : heap.Multiples abi n brk) (hq : q < 2 ^ abi.wordBits) :
    (heap.setPtr p q).Multiples abi n brk where
  dvd := h.dvd
  within := h.within
  ptr_lt a := by
    obtain rfl | hne := eq_or_ne a p
    · simpa [Heap.setPtr] using hq
    · simpa [Heap.setPtr, hne] using h.ptr_lt a
  freep_lt := h.freep_lt

theorem setSize (h : heap.Multiples abi n brk) (hdvd : n ∣ size)
    (hin : size = 0 ∨ p + size * abi.unit ≤ brk + abi.slack) :
    (heap.setSize p size).Multiples abi n brk where
  dvd a := by
    obtain rfl | hne := eq_or_ne a p
    · simpa [Heap.setSize] using hdvd
    · simpa [Heap.setSize, hne] using h.dvd a
  within a := by
    obtain rfl | hne := eq_or_ne a p
    · simpa [Heap.setSize] using hin
    · simpa [Heap.setSize, hne] using h.within a
  ptr_lt := h.ptr_lt
  freep_lt := h.freep_lt

theorem setFreep (h : heap.Multiples abi n brk) (hp : p < 2 ^ abi.wordBits) :
    Heap.Multiples { heap with freep := some p } abi n brk where
  dvd := h.dvd
  within := h.within
  ptr_lt := h.ptr_lt
  freep_lt freep hfreep := by
    cases hfreep
    exact hp

theorem offset_eq (h : heap.Multiples abi n brk) (hbrk : brk < abi.limit)
    (hp : p < 2 ^ abi.wordBits) (hle : size ≤ heap.size p) :
    abi.offset p size = p + size * abi.unit := by
  refine Abi.offset_eq ?_
  have hlimit := abi.limit_add_slack
  have hmul : size * abi.unit ≤ heap.size p * abi.unit := Nat.mul_le_mul_right _ hle
  obtain hzero | hin := h.within p
  · rw [hzero, Nat.zero_mul] at hmul
    omega
  · omega

theorem join (h : heap.Multiples abi n brk) (hbrk : brk < abi.limit)
    (hp : p < 2 ^ abi.wordBits) (hq : abi.offset p (heap.size p) = q) :
    n ∣ (heap.size p + heap.size q) % 2 ^ 32 ∧
      ((heap.size p + heap.size q) % 2 ^ 32 = 0 ∨
        p + (heap.size p + heap.size q) % 2 ^ 32 * abi.unit ≤ brk + abi.slack) := by
  rw [h.offset_eq hbrk hp (Nat.le_refl _)] at hq
  have hsum : heap.size p + heap.size q = 0 ∨
      p + (heap.size p + heap.size q) * abi.unit ≤ brk + abi.slack := by
    obtain hzero | hin := h.within q
    · rw [hzero, Nat.add_zero]
      exact h.within p
    · refine Or.inr ?_
      calc p + (heap.size p + heap.size q) * abi.unit
          = (p + heap.size p * abi.unit) + heap.size q * abi.unit := by rw [Nat.add_mul]; omega
        _ = q + heap.size q * abi.unit := by rw [hq]
        _ ≤ brk + abi.slack := hin
  have hlt : heap.size p + heap.size q < 2 ^ 32 := by
    obtain hzero | hin := hsum
    · omega
    · have hbound : (heap.size p + heap.size q) * abi.unit < abi.limit + abi.slack := by omega
      exact Abi.lt_of_mul_unit hbound
  rw [Nat.mod_eq_of_lt hlt]
  exact ⟨Nat.dvd_add (h.dvd p) (h.dvd q), hsum⟩

theorem joinNext (h : heap.Multiples abi n brk) (hbrk : brk < abi.limit)
    (hq : q < 2 ^ abi.wordBits) : (heap.joinNext abi p q).Multiples abi n brk := by
  unfold Heap.joinNext
  split
  case isTrue hnext =>
    obtain ⟨hdvd, hin⟩ := h.join hbrk hq hnext
    exact (h.setSize hdvd hin).setPtr (h.ptr_lt _)
  case isFalse => exact h.setPtr (h.ptr_lt p)

theorem joinPrev (h : heap.Multiples abi n brk) (hbrk : brk < abi.limit)
    (hp : p < 2 ^ abi.wordBits) (hq : q < 2 ^ abi.wordBits) :
    (heap.joinPrev abi p q).Multiples abi n brk := by
  unfold Heap.joinPrev
  split
  case isTrue hnext =>
    obtain ⟨hdvd, hin⟩ := h.join hbrk hp hnext
    exact (h.setSize hdvd hin).setPtr (h.ptr_lt _)
  case isFalse => exact h.setPtr hq

theorem place_lt (h : heap.Multiples abi n brk) {bp : Nat} (hp : p < 2 ^ abi.wordBits)
    (hplace : heap.place bp fuel p = some q) : q < 2 ^ abi.wordBits := by
  induction fuel generalizing p with
  | zero => cases hplace
  | succ fuel ih =>
      rw [Heap.place] at hplace
      split at hplace
      · cases hplace
        exact hp
      · exact ih (h.ptr_lt p) hplace

theorem free (h : heap.Multiples abi n brk) (hbrk : brk < abi.limit) {ap : Nat}
    (hap : ap < 2 ^ abi.wordBits) {heap' : Heap} (hfree : heap.free abi fuel ap = some heap') :
    heap'.Multiples abi n brk := by
  obtain ⟨freep, hfreep, hrest⟩ := Option.bind_eq_some_iff.mp hfree
  obtain ⟨p, hplace, rfl⟩ := Option.map_eq_some_iff.mp hrest
  have hp := h.place_lt (h.freep_lt freep hfreep) hplace
  have hbp : ap - abi.unit < 2 ^ abi.wordBits := by omega
  exact ((h.joinNext hbrk hbp).joinPrev hbrk hp hbp).setFreep hp

end Multiples

theorem OnList.of_round {heap : Heap} (small : Nat → Prop) {freep k : Nat}
    (hfreep : heap.freep = some freep) (hround : heap.ptr^[k + 1] freep = freep)
    (hsmall : ∀ j, 1 ≤ j → j ≤ k + 1 → small (heap.ptr^[j] freep)) {p : Nat}
    (hp : heap.OnList p) : small p := by
  obtain ⟨freep', i, hfreep', rfl⟩ := hp
  obtain rfl : freep = freep' := Option.some.inj (hfreep.symm.trans hfreep')
  have hperiod : Function.IsPeriodicPt heap.ptr (k + 1) freep := hround
  rw [← hperiod.iterate_mod_apply]
  obtain hzero | hpos := Nat.eq_zero_or_pos (i % (k + 1))
  · rw [hzero, Function.iterate_zero, id, ← hround]
    exact hsmall (k + 1) (by omega) (Nat.le_refl _)
  · exact hsmall _ hpos (Nat.le_of_lt (Nat.mod_lt i k.succ_pos))

end Heap

/-- `sbrk` is called with no memory on the free list. -/
def Call.Empty (call : Call) : Prop := ∀ p, call.heap.OnList p → call.heap.size p = 0

structure OneSize (m : Machine) (n : Nat) (s : State) : Prop where
  multiples : s.heap.Multiples m.abi n s.brk
  brk_le : s.brk ≤ m.memory
  /-- An amount that is not positive makes the first `morecore` fault. -/
  brk_eq : m.abi.growth (m.rounding.round n) ≤ 0 → s.brk = m.start
  empty : ∀ call ∈ s.calls, call.Empty

structure Leaves (m : Machine) (n : Nat) (result : State × Outcome) : Prop where
  dvd : ∀ a, n ∣ result.1.heap.size a
  empty : ∀ call ∈ result.1.calls, call.Empty
  oneSize : result.2 ≠ .fault → OneSize m n result.1
  ptr_lt : ∀ p, result.2 = .returned p → p < 2 ^ m.abi.wordBits

namespace OneSize

variable {s : State}

theorem brk_lt (h : OneSize m n s) : s.brk < m.abi.limit :=
  Nat.lt_of_le_of_lt h.brk_le m.memory_lt

theorem setHeap (h : OneSize m n s) {heap : Heap} (hheap : heap.Multiples m.abi n s.brk) :
    OneSize m n { s with heap } where
  multiples := hheap
  brk_le := h.brk_le
  brk_eq := h.brk_eq
  empty := h.empty

theorem leaves (h : OneSize m n s) {outcome : Outcome}
    (hptr : ∀ p, outcome = .returned p → p < 2 ^ m.abi.wordBits) : Leaves m n (s, outcome) where
  dvd := h.multiples.dvd
  empty := h.empty
  oneSize _ := h
  ptr_lt := hptr

theorem not_mapped_of_le (hbrk : s.brk ≤ m.start) {p : Nat} (hp : m.start ≤ p) :
    ¬ s.Mapped m p := by
  intro hmapped
  have hunit := m.abi.unit_pos
  unfold State.Mapped at hmapped
  have hpages := Nat.div_mul_cancel (Nat.dvd_of_mod_eq_zero m.aligned)
  have hup : (s.brk + m.pageSize - 1) / m.pageSize ≤ m.start / m.pageSize := by
    rw [Nat.div_le_iff_le_mul_add_pred m.pageSize_pos, Nat.mul_comm, hpages]
    omega
  have := Nat.mul_le_mul_right m.pageSize hup
  omega

theorem round_mul_le (hpos : 0 < n) (hn : n * m.abi.unit ≤ max (2 ^ 32) (m.abi.slack + m.abi.unit)) :
    m.rounding.round n * m.abi.unit ≤ max (2 ^ 32) (m.abi.slack + m.abi.unit) := by
  obtain hlt | hle := Nat.lt_or_ge n 4096
  · have hround := m.rounding.round_le hpos (show n ≤ 8191 by omega) (Nat.le_refl _)
    refine Nat.le_trans (Nat.mul_le_mul_right _ hround) ?_
    cases m.abi <;> decide
  · rwa [Rounding.round_of_le _ hle]

theorem sbrk_empty (h : OneSize m n s) (hempty : ∀ p, s.heap.OnList p → s.heap.size p = 0)
    (amount : Int) : ∀ call ∈ (s.sbrk m amount).1.calls, call.Empty := by
  intro call hcall
  obtain hcall | hcall := List.mem_append.mp hcall
  · exact h.empty call hcall
  · obtain rfl := List.mem_singleton.mp hcall
    exact hempty

theorem sbrk_refused (h : OneSize m n s) (hempty : ∀ p, s.heap.OnList p → s.heap.size p = 0)
    (amount : Int) (hsbrk : (s.sbrk m amount).2 = none) : OneSize m n (s.sbrk m amount).1 := by
  have hbrk : (s.sbrk m amount).1.brk = s.brk := by
    simp only [State.sbrk] at hsbrk ⊢
    simp [hsbrk]
  refine ⟨?_, ?_, ?_, h.sbrk_empty hempty amount⟩ <;> rw [hbrk]
  exacts [h.multiples, h.brk_le, h.brk_eq]

theorem sbrk_mapped (h : OneSize m n s) (hpos : 0 < n)
    (hn : n * m.abi.unit ≤ max (2 ^ 32) (m.abi.slack + m.abi.unit))
    (hempty : ∀ p, s.heap.OnList p → s.heap.size p = 0) {s' : State} {hp : Nat}
    (hsbrk : s.sbrk m (m.abi.growth (m.rounding.round n)) = (s', some hp))
    (hmapped : s'.Mapped m hp) :
    OneSize m n { s' with heap := s'.heap.setSize hp (m.rounding.round n) } := by
  have hround := round_mul_le hpos hn
  have hcalls := h.sbrk_empty hempty (m.abi.growth (m.rounding.round n))
  rw [hsbrk] at hcalls
  unfold State.sbrk at hsbrk
  split at hsbrk
  case isFalse => simp at hsbrk
  case isTrue hgrant =>
    simp only [Option.isSome_some, true_and, Prod.mk.injEq, Option.some.injEq] at hsbrk
    obtain ⟨rfl, rfl⟩ := hsbrk
    obtain hgrow | hshrink := lt_or_ge 0 (m.abi.growth (m.rounding.round n))
    · have hbrk : (if 0 ≤ (s.brk : Int) + m.abi.growth (m.rounding.round n) then
          ((s.brk : Int) + m.abi.growth (m.rounding.round n)).toNat else s.brk)
            = s.brk + (m.abi.growth (m.rounding.round n)).toNat := by
        rw [if_pos (by omega)]
        omega
      simp only [hbrk]
      have hmul := Abi.le_growth hgrow hround
      have hle : s.brk ≤ s.brk + (m.abi.growth (m.rounding.round n)).toNat := Nat.le_add_right _ _
      have hsize := (h.multiples.mono hle).setSize (p := s.brk) (m.rounding.dvd_round hpos)
        (Or.inr (by omega))
      exact ⟨hsize, by dsimp only; omega, fun hneg => absurd hneg (by omega), hcalls⟩
    · have hstart := h.brk_eq hshrink
      refine absurd hmapped (not_mapped_of_le ?_ (Nat.le_of_eq hstart.symm))
      dsimp only
      split <;> omega

theorem morecore (h : OneSize m n s) (hpos : 0 < n)
    (hn : n * m.abi.unit ≤ max (2 ^ 32) (m.abi.slack + m.abi.unit))
    (hempty : ∀ p, s.heap.OnList p → s.heap.size p = 0) {result : State × Outcome}
    (hmore : morecore m fuel s n = some result) : Leaves m n result := by
  unfold Malloc.morecore at hmore
  dsimp only at hmore
  split at hmore
  case h_1 s' hsbrk =>
    cases hmore
    have hrefused := h.sbrk_refused hempty (m.abi.growth (m.rounding.round n))
    rw [hsbrk] at hrefused
    exact (hrefused rfl).leaves (by simp)
  case h_2 s' hp hsbrk =>
    split at hmore
    case isTrue hmapped =>
      have hgrown := h.sbrk_mapped hpos hn hempty hsbrk hmapped
      obtain ⟨heap, hfree, hrest⟩ := Option.bind_eq_some_iff.mp hmore
      obtain ⟨freep, hfreep, rfl⟩ := Option.map_eq_some_iff.mp hrest
      have hmultiples := hgrown.multiples.free hgrown.brk_lt (m.abi.offset_lt hp 1) hfree
      refine (hgrown.setHeap hmultiples).leaves fun p hp => ?_
      cases hp
      exact hmultiples.freep_lt _ hfreep
    case isFalse =>
      cases hmore
      have hcalls := h.sbrk_empty hempty (m.abi.growth (m.rounding.round n))
      have hheap : (s.sbrk m (m.abi.growth (m.rounding.round n))).1.heap = s.heap := rfl
      rw [hsbrk] at hcalls hheap
      exact ⟨fun a => by rw [hheap]; exact h.multiples.dvd a, hcalls, by simp, by simp⟩

theorem take (h : OneSize m n s) (hpos : 0 < n) {prevp p : Nat} (hprevp : prevp < 2 ^ m.abi.wordBits)
    (hp : p < 2 ^ m.abi.wordBits) (hfits : n ≤ s.heap.size p) :
    Leaves m n (take m s n prevp p) := by
  unfold Malloc.take
  split
  case isTrue =>
    refine (h.setHeap ((h.multiples.setPtr (h.multiples.ptr_lt p)).setFreep hprevp)).leaves ?_
    rintro _ ⟨⟩
    exact m.abi.offset_lt _ _
  case isFalse hne =>
    have hrest : n ∣ s.heap.size p - n := Nat.dvd_sub (h.multiples.dvd p) (Nat.dvd_refl n)
    have hin := (h.multiples.within p).resolve_left (by omega)
    have hsplit : (s.heap.size p - n) * m.abi.unit + n * m.abi.unit = s.heap.size p * m.abi.unit := by
      rw [← Nat.add_mul, Nat.sub_add_cancel hfits]
    have htail : m.abi.offset p (s.heap.size p - n) = p + (s.heap.size p - n) * m.abi.unit :=
      h.multiples.offset_eq h.brk_lt hp (Nat.sub_le _ _)
    have hhead := h.multiples.setSize (p := p) hrest (Or.inr (by omega))
    dsimp only
    split
    case isTrue =>
      have hself : (s.heap.setSize p (s.heap.size p - n)).size p = s.heap.size p - n := by
        simp [Heap.setSize]
      have hboth := hhead.setSize (p := m.abi.offset p (s.heap.size p - n)) (Nat.dvd_refl n)
        (Or.inr (by omega))
      rw [hself]
      refine (h.setHeap (hboth.setFreep hprevp)).leaves ?_
      rintro _ ⟨⟩
      exact m.abi.offset_lt _ _
    case isFalse =>
      exact (h.setHeap hhead).leaves (by simp)

theorem search (h : OneSize m n s) (hpos : 0 < n)
    (hn : n * m.abi.unit ≤ max (2 ^ 32) (m.abi.slack + m.abi.unit)) {freep k prevp p : Nat}
    (hfreep : s.heap.freep = some freep) (hprevp : s.heap.ptr^[k] freep = prevp)
    (hp : s.heap.ptr prevp = p)
    (hsmall : ∀ j, 1 ≤ j → j ≤ k → s.heap.size (s.heap.ptr^[j] freep) < n)
    {result : State × Outcome} (hsearch : Malloc.search m n fuel s prevp p = some result) :
    Leaves m n result := by
  induction fuel generalizing s freep k prevp p with
  | zero => cases hsearch
  | succ fuel ih =>
      have hplt : p < 2 ^ m.abi.wordBits := hp ▸ h.multiples.ptr_lt prevp
      have hround : s.heap.ptr^[k + 1] freep = p := by
        rw [Function.iterate_succ_apply', hprevp, hp]
      rw [Malloc.search] at hsearch
      split at hsearch
      case isTrue hfits =>
        cases hsearch
        refine h.take hpos ?_ hplt hfits
        cases k with
        | zero => exact hprevp ▸ h.multiples.freep_lt freep hfreep
        | succ k =>
            rw [← hprevp, Function.iterate_succ_apply']
            exact h.multiples.ptr_lt _
      case isFalse htoo =>
        have hsmall' : ∀ j, 1 ≤ j → j ≤ k + 1 → s.heap.size (s.heap.ptr^[j] freep) < n := by
          intro j hj hle
          obtain hlast | hearlier := Nat.eq_or_lt_of_le hle
          · rw [hlast, hround]
            exact Nat.lt_of_not_le htoo
          · exact hsmall j hj (Nat.le_of_lt_succ hearlier)
        split at hsearch
        case isTrue hwrap =>
          -- Once around the ring: a multiple of the request below the request is zero.
          have hempty : ∀ q, s.heap.OnList q → s.heap.size q = 0 := fun q hq =>
            Nat.eq_zero_of_dvd_of_lt (h.multiples.dvd q)
              (Heap.OnList.of_round (fun q => s.heap.size q < n) hfreep
                (hround.trans (Option.some.inj (hwrap.symm.trans hfreep))) hsmall' hq)
          obtain ⟨⟨s', outcome⟩, hmore, hrest⟩ := Option.bind_eq_some_iff.mp hsearch
          have hleaves := h.morecore hpos hn hempty hmore
          cases outcome with
          | returned q =>
              have hfreep' : s'.heap.freep = some q := morecore_freep hmore
              exact ih (k := 0) (hleaves.oneSize (by simp)) hfreep' rfl rfl (by omega) hrest
          | refused =>
              cases hrest
              exact hleaves
          | fault =>
              cases hrest
              exact hleaves
        case isFalse =>
          exact ih h hfreep hround rfl hsmall' hsearch

theorem malloc (h : OneSize m n s) {nbytes : Nat} (hbytes : nbytes < 2 ^ 32)
    (hn : m.abi.units nbytes = n) {result : State × Outcome}
    (hmalloc : malloc m fuel s nbytes = some result) : Leaves m n result := by
  obtain ⟨prevp, hfreep, hsearch⟩ := Option.bind_eq_some_iff.mp hmalloc
  have hprepare : OneSize m n (prepare m s) := by
    unfold prepare
    split
    case h_1 => exact h
    case h_2 =>
      have hbase : m.base < 2 ^ m.abi.wordBits := by
        have := m.base_le
        have := m.start_le
        have := m.memory_lt
        have := m.abi.limit_add_slack
        omega
      exact h.setHeap (((h.multiples.setPtr hbase).setSize (Nat.dvd_zero n)
        (Or.inl rfl)).setFreep hbase)
  rw [hn] at hsearch
  refine hprepare.search (k := 0) ?_ ?_ hfreep rfl rfl (by omega) hsearch
  · exact hn ▸ Abi.units_pos hbytes
  · exact hn ▸ Abi.units_mul_le_slack hbytes

end OneSize

structure Stranded (m : Machine) (n : Nat) (s : State) : Prop where
  dvd : ∀ a, n ∣ s.heap.size a
  empty : ∀ call ∈ s.calls, call.Empty
  oneSize : s.killed = false → OneSize m n s
  live_lt : ∀ block ∈ s.live, block.ptr < 2 ^ m.abi.wordBits

/-- The actions of a program that only asks for blocks of `nbytes` bytes. -/
def Asks (nbytes : Nat) (action : Action) : Prop :=
  action = .malloc nbytes ∨ ∃ ap, action = .free ap

namespace Stranded

variable {s : State}

theorem init (m : Machine) (n : Nat) : Stranded m n (.init m) where
  dvd _ := Nat.dvd_zero n
  empty := by simp [State.init]
  oneSize _ := {
    multiples := ⟨fun _ => Nat.dvd_zero n, fun _ => Or.inl rfl,
      fun _ => Nat.two_pow_pos _, by simp [State.init]⟩
    brk_le := m.start_le
    brk_eq := fun _ => rfl
    empty := by simp [State.init] }
  live_lt := by simp [State.init]

theorem step (h : Stranded m n s) {nbytes : Nat} (hbytes : nbytes < 2 ^ 32)
    (hn : m.abi.units nbytes = n) {action : Action} (hasks : Asks nbytes action) {next : State}
    (hstep : step m fuel s action = some next) : Stranded m n next := by
  unfold Malloc.step at hstep
  split at hstep
  case isTrue => cases hstep
  case isFalse hlives =>
    have hone := h.oneSize (Bool.not_eq_true _ ▸ hlives)
    obtain rfl | ⟨ap, rfl⟩ := hasks
    · obtain ⟨⟨s', outcome⟩, hmalloc, rfl⟩ := Option.map_eq_some_iff.mp hstep
      have hleaves := hone.malloc hbytes hn hmalloc
      obtain ⟨hlive, hkilled⟩ := malloc_books hmalloc
      cases outcome with
      | returned p =>
          refine ⟨hleaves.dvd, hleaves.empty, fun _ => ?_, fun block hblock => ?_⟩
          · have hone' := hleaves.oneSize (by simp)
            exact ⟨hone'.multiples, hone'.brk_le, hone'.brk_eq, hone'.empty⟩
          · obtain rfl | hblock := List.mem_cons.mp hblock
            · exact hleaves.ptr_lt _ rfl
            · exact h.live_lt block (hlive ▸ hblock)
      | refused =>
          exact ⟨hleaves.dvd, hleaves.empty, fun _ => hleaves.oneSize (by simp),
            fun block hblock => h.live_lt block (hlive ▸ hblock)⟩
      | fault =>
          exact ⟨hleaves.dvd, hleaves.empty, by simp [State.settle],
            fun block hblock => h.live_lt block (hlive ▸ hblock)⟩
    · simp only at hstep
      split at hstep
      case isTrue hlive =>
        obtain ⟨heap, hfree, rfl⟩ := Option.map_eq_some_iff.mp hstep
        obtain ⟨block, hblock, hptr⟩ := List.any_eq_true.mp hlive
        have hap : ap < 2 ^ m.abi.wordBits := of_decide_eq_true hptr ▸ h.live_lt block hblock
        have hmultiples := hone.multiples.free hone.brk_lt hap hfree
        exact ⟨hmultiples.dvd, h.empty,
          fun _ => ⟨hmultiples, hone.brk_le, hone.brk_eq, hone.empty⟩,
          fun block hblock => h.live_lt block (List.mem_of_mem_eraseP hblock)⟩
      case isFalse => cases hstep

end Stranded

/-- The same process with the other `umalloc` file. -/
def Machine.withRounding (m : Machine) (rounding : Rounding) : Machine := { m with rounding }

section Variants

variable (rounding : Rounding) {s : State}

theorem morecore_withRounding (hpos : 0 < n) :
    morecore (m.withRounding rounding) fuel s n = morecore m fuel s n := by
  unfold morecore
  rw [show (m.withRounding rounding).rounding.round n = m.rounding.round n from
    rounding.round_eq m.rounding hpos]
  rfl

theorem search_withRounding (hpos : 0 < n) {prevp p : Nat} :
    search (m.withRounding rounding) n fuel s prevp p = search m n fuel s prevp p := by
  induction fuel generalizing s prevp p with
  | zero => rfl
  | succ fuel ih =>
      simp only [search, morecore_withRounding rounding hpos, ih]
      rfl

theorem malloc_withRounding {nbytes : Nat} (hbytes : nbytes < 2 ^ 32) :
    malloc (m.withRounding rounding) fuel s nbytes = malloc m fuel s nbytes := by
  have hprepare : prepare (m.withRounding rounding) s = prepare m s := rfl
  have habi : (m.withRounding rounding).abi = m.abi := rfl
  simp only [malloc, hprepare, habi, search_withRounding rounding (Abi.units_pos hbytes)]

end Variants

/-- **No stranded fragment.** A process that only asks for blocks of `nbytes` bytes and frees live
ones keeps every free block a multiple of the request's unit count, calls `sbrk` only with an empty
free list, and makes the same calls with either rounding. -/
theorem no_stranded_fragment (m : Machine) (fuel : Nat) {nbytes : Nat} (hbytes : nbytes < 2 ^ 32)
    {actions : List Action} (hasks : ∀ action ∈ actions, Asks nbytes action) {s : State}
    (hrun : Transition.run (step m fuel) (.init m) actions = some s) :
    (∀ p, s.heap.OnList p → m.abi.units nbytes ∣ s.heap.size p) ∧
      (∀ call ∈ s.calls, ∀ p, call.heap.OnList p → call.heap.size p = 0) ∧
      ∀ rounding, ∃ other,
        Transition.run (step (m.withRounding rounding) fuel) (.init m) actions = some other ∧
          other.calls.map Call.amount = s.calls.map Call.amount := by
  have hpreserve : ∀ state action next, Stranded m (m.abi.units nbytes) state → Asks nbytes action →
      step m fuel state action = some next → Stranded m (m.abi.units nbytes) next :=
    fun _ _ _ hinv hask hstep => hinv.step hbytes rfl hask hstep
  have hstranded : Stranded m (m.abi.units nbytes) s :=
    Transition.invariant_along hpreserve (.init m _) (Transition.along_of_forall_mem hasks) hrun
  refine ⟨fun p _ => hstranded.dvd p, hstranded.empty, fun rounding => ⟨s, ?_, rfl⟩⟩
  rw [← hrun]
  refine Transition.run_congr fun action haction state => ?_
  obtain rfl | ⟨ap, rfl⟩ := hasks action haction
  · simp only [step, malloc_withRounding rounding hbytes]
  · rfl

/-- Two blocks of a thousand bytes, the first one freed. -/
theorem no_stranded_fragment_thousand :
    ∃ s, Transition.run (step (.small .ilp32) 5) (.init (.small .ilp32))
        [.malloc 1000, .malloc 1000, .free 39448] = some s ∧
      (∀ p, s.heap.OnList p → (Machine.small .ilp32).abi.units 1000 ∣ s.heap.size p) ∧
      (∀ call ∈ s.calls, ∀ p, call.heap.OnList p → call.heap.size p = 0) ∧
      ∀ rounding, ∃ other,
        Transition.run (step ((Machine.small .ilp32).withRounding rounding) 5)
          (.init (.small .ilp32)) [.malloc 1000, .malloc 1000, .free 39448] = some other ∧
          other.calls.map Call.amount = s.calls.map Call.amount := by
  have hreturns : (Transition.run (step (.small .ilp32) 5) (.init (.small .ilp32))
      [.malloc 1000, .malloc 1000, .free 39448]).isSome := by decide
  obtain ⟨s, hs⟩ := Option.isSome_iff_exists.mp hreturns
  refine ⟨s, hs, no_stranded_fragment (.small .ilp32) 5 (by decide) (fun action haction => ?_) hs⟩
  simp only [List.mem_cons, List.not_mem_nil, or_false] at haction
  obtain rfl | rfl | rfl := haction
  exacts [Or.inl rfl, Or.inl rfl, Or.inr ⟨_, rfl⟩]

end Xv6.Malloc
