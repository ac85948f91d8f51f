import Mathlib.Data.Set.Insert
import Mathlib.Tactic.Ring
import Xv6.Buddy.Allocator
import Xv6.Lib.Dyadic
import Xv6.Lib.LinkedChain

/-!
# What the marks of the buddy allocator stand for

The marks stand for a set of free blocks: the bit of a block in the range of the marks is set just if
the block is free, and the list of an order has just the marks with a set bit. `unmark_blk` and
`mark_blk` take a block out of that set and put one in.
-/

namespace Xv6.Buddy

open Dyadic LinkedChain

/-! ### Words -/

theorem available_eq (bitmap : BitVec 32) (blkId : Nat) :
    available bitmap blkId = bitmap.getLsbD (blkId % 32) := by
  have hbit : blkId &&& 0x1F = blkId % 32 := Nat.and_two_pow_sub_one_eq_mod blkId 5
  have hone : 1#32 <<< (blkId % 32) = BitVec.twoPow 32 (blkId % 32) := rfl
  have hlt : blkId % 32 < 32 := Nat.mod_lt _ (by decide)
  rw [available, hbit, hone, BitVec.and_twoPow]
  cases hset : bitmap.getLsbD (blkId % 32) with
  | false => rfl
  | true =>
      rw [if_pos rfl, bne_iff_ne]
      intro hzero
      have hbit : (BitVec.twoPow 32 (blkId % 32)).getLsbD (blkId % 32) = false := by rw [hzero]; simp
      simp [hlt] at hbit

theorem available_clear {blkId other : Nat} (hword : other / 32 = blkId / 32) (bitmap : BitVec 32) :
    available (bitmap &&& ~~~(1#32 <<< (blkId &&& 0x1F))) other = true ↔
      available bitmap other = true ∧ other ≠ blkId := by
  have hbit : blkId &&& 0x1F = blkId % 32 := Nat.and_two_pow_sub_one_eq_mod blkId 5
  have hone : 1#32 <<< (blkId % 32) = BitVec.twoPow 32 (blkId % 32) := rfl
  have hlt : blkId % 32 < 32 := Nat.mod_lt _ (by decide)
  have hlt' : other % 32 < 32 := Nat.mod_lt _ (by decide)
  have hsame : blkId % 32 = other % 32 ↔ other = blkId := by omega
  rw [available_eq, available_eq, hbit, hone, BitVec.getLsbD_and, BitVec.getLsbD_not,
    BitVec.getLsbD_twoPow]
  simp [hlt, hlt', hsame]

theorem available_set {blkId other : Nat} (hword : other / 32 = blkId / 32) (bitmap : BitVec 32) :
    available (bitmap ||| (1#32 <<< (blkId &&& 0x1F))) other = true ↔
      available bitmap other = true ∨ other = blkId := by
  have hbit : blkId &&& 0x1F = blkId % 32 := Nat.and_two_pow_sub_one_eq_mod blkId 5
  have hone : 1#32 <<< (blkId % 32) = BitVec.twoPow 32 (blkId % 32) := rfl
  have hlt : blkId % 32 < 32 := Nat.mod_lt _ (by decide)
  have hsame : blkId % 32 = other % 32 ↔ other = blkId := by omega
  rw [available_eq, available_eq, hbit, hone, BitVec.getLsbD_or, BitVec.getLsbD_twoPow]
  simp [hlt, hsame]

theorem bitmap_ne_zero_iff (idx : Nat) {bitmap : BitVec 32} :
    bitmap ≠ 0 ↔ ∃ blkId, blkId / 32 = idx ∧ available bitmap blkId = true := by
  constructor
  · intro hne
    by_contra! hnone
    refine hne (BitVec.eq_of_getLsbD_eq fun i hi => ?_)
    have hbit := hnone (32 * idx + i) (by omega)
    rw [available_eq, show (32 * idx + i) % 32 = i by omega] at hbit
    rw [Bool.eq_false_iff.mpr hbit]
    exact (BitVec.getLsbD_zero ..).symm
  · rintro ⟨blkId, -, hset⟩ rfl
    rw [available_eq] at hset
    simp at hset

theorem preLnk_lnksOf {pre : Nat} (hpre : pre < 2 ^ 16) (next : Nat) :
    preLnk (lnksOf pre next) = pre := by
  have hnext : next &&& 0xFFFF < 2 ^ 16 := Nat.and_lt_two_pow _ (by decide)
  rw [lnksOf, preLnk, ← Nat.shiftLeft_add_eq_or_of_lt hnext, Nat.shiftLeft_eq,
    Nat.shiftRight_eq_div_pow]
  omega

theorem nextLnk_lnksOf (pre next : Nat) : nextLnk (lnksOf pre next) = nextLnk next := by
  have hnext : next &&& 0xFFFF = next % 2 ^ 16 := Nat.and_two_pow_sub_one_eq_mod next 16
  have hmod : next % 2 ^ 16 < 2 ^ 16 := Nat.mod_lt _ (by decide)
  rw [nextLnk, nextLnk, lnksOf, hnext, ← Nat.shiftLeft_add_eq_or_of_lt hmod, Nat.shiftLeft_eq,
    show (0xFFFF : Nat) = 2 ^ 16 - 1 from rfl, Nat.and_two_pow_sub_one_eq_mod]
  omega

theorem nextLnk_of_lt {next : Nat} (hnext : next < 2 ^ 16) : nextLnk next = next := by
  have hmod : next &&& 0xFFFF = next % 2 ^ 16 := Nat.and_two_pow_sub_one_eq_mod next 16
  rw [nextLnk, hmod, Nat.mod_eq_of_lt hnext]

theorem nextLnk_lt (lnks : Nat) : nextLnk lnks < 2 ^ 16 := Nat.and_lt_two_pow _ (by decide)

/-! ### Where the marks are -/

def Within (order : Nat) : Prop := minOrd ≤ order ∧ order ≤ maxOrd

/-- The marks of an order, with `n` for the largest. -/
def count (n order : Nat) : Nat := n * 2 ^ (maxOrd - order)

def offsetOf (n order : Nat) : Nat := n * (2 ^ (maxOrd - order) - 1)

def Table (n : Nat) (kmem : Kmem) : Prop :=
  ∀ order, Within order → (kmem.orders (order - minOrd)).offset = offsetOf n order

variable {n order order' idx idx' : Nat} {kmem : Kmem}

theorem offsetOf_add_count_le (horder : Within order) (hlt : order' < order) :
    offsetOf n order + count n order ≤ offsetOf n order' := by
  have hpow : 2 ^ (maxOrd - order) * 2 ≤ 2 ^ (maxOrd - order') := by
    rw [← Nat.pow_succ]
    have hle := horder.2
    exact Nat.pow_le_pow_right (by decide) (by omega)
  have hpos : 0 < 2 ^ (maxOrd - order) := Nat.two_pow_pos _
  rw [offsetOf, count, offsetOf, ← Nat.mul_add]
  exact Nat.mul_le_mul_left n (by omega)

theorem slot_injective (horder : Within order) (horder' : Within order')
    (hidx : idx < count n order) (hidx' : idx' < count n order')
    (heq : offsetOf n order + idx = offsetOf n order' + idx') : order = order' ∧ idx = idx' := by
  rcases Nat.lt_trichotomy order order' with hlt | rfl | hlt
  · have hle := @offsetOf_add_count_le n _ _ horder' hlt
    omega
  · exact ⟨rfl, Nat.add_left_cancel heq⟩
  · have hle := @offsetOf_add_count_le n _ _ horder hlt
    omega

theorem Table.getMark_setMark (h : Table n kmem) (horder : Within order) (horder' : Within order')
    (hidx : idx < count n order) (hidx' : idx' < count n order') (mk : Mark) :
    (kmem.setMark order idx mk).getMark order' idx' =
      if order' = order ∧ idx' = idx then mk else kmem.getMark order' idx' := by
  simp only [Kmem.getMark, Kmem.setMark, h order horder, h order' horder']
  by_cases heq : order' = order ∧ idx' = idx
  · obtain ⟨rfl, rfl⟩ := heq
    rw [Function.update_self, if_pos ⟨rfl, rfl⟩]
  · rw [if_neg heq, Function.update_of_ne]
    exact fun hslot => heq (slot_injective horder' horder hidx' hidx hslot)

structure Kept (n order : Nat) (kmem kmem' : Kmem) : Prop where
  startHeap : kmem'.startHeap = kmem.startHeap
  table : Table n kmem → Table n kmem'
  head : ∀ order', Within order' → order' ≠ order → kmem'.head order' = kmem.head order'
  getMark : ∀ order' idx', Within order' → order' ≠ order → idx' < count n order' →
    kmem'.getMark order' idx' = kmem.getMark order' idx'

theorem Kept.refl (n order : Nat) (kmem : Kmem) : Kept n order kmem kmem :=
  ⟨rfl, id, fun _ _ _ => rfl, fun _ _ _ _ _ => rfl⟩

theorem Kept.trans {kmem₁ kmem₂ kmem₃ : Kmem} (h : Kept n order kmem₁ kmem₂)
    (h' : Kept n order kmem₂ kmem₃) : Kept n order kmem₁ kmem₃ where
  startHeap := h'.startHeap.trans h.startHeap
  table := fun htable => h'.table (h.table htable)
  head := fun order' horder' hne => (h'.head order' horder' hne).trans (h.head order' horder' hne)
  getMark := fun order' idx' horder' hne hidx' =>
    (h'.getMark order' idx' horder' hne hidx').trans (h.getMark order' idx' horder' hne hidx')

theorem Kept.setMark (h : Table n kmem) (horder : Within order) (hidx : idx < count n order)
    (mk : Mark) : Kept n order kmem (kmem.setMark order idx mk) where
  startHeap := rfl
  table := id
  head := fun _ _ _ => rfl
  getMark := fun order' idx' horder' hne hidx' => by
    rw [h.getMark_setMark horder horder' hidx hidx', if_neg fun heq => hne heq.1]

@[simp]
theorem offset_setHead (kmem : Kmem) (order head i : Nat) :
    ((kmem.setHead order head).orders i).offset = (kmem.orders i).offset := by
  by_cases hi : i = order - minOrd
  · subst hi
    simp only [Kmem.setHead, Function.update_self]
  · simp only [Kmem.setHead, Function.update_of_ne hi]

@[simp]
theorem getMark_setHead (kmem : Kmem) (order head order' idx' : Nat) :
    (kmem.setHead order head).getMark order' idx' = kmem.getMark order' idx' := by
  rw [Kmem.getMark, offset_setHead]
  rfl

@[simp]
theorem head_setHead (kmem : Kmem) (order head : Nat) : (kmem.setHead order head).head order = head := by
  simp only [Kmem.head, Kmem.setHead, Function.update_self]

theorem Kept.setHead (horder : Within order) (kmem : Kmem) (head : Nat) :
    Kept n order kmem (kmem.setHead order head) where
  startHeap := rfl
  table := fun h order' horder' => (offset_setHead ..).trans (h order' horder')
  head := fun order' horder' hne => by
    have hslot : order' - minOrd ≠ order - minOrd := fun heq => by
      have hmin := horder.1
      have hmin' := horder'.1
      omega
    simp only [Kmem.head, Kmem.setHead, Function.update_of_ne hslot]
  getMark := fun order' idx' _ _ _ => getMark_setHead ..

/-! ### The list of an order -/

def link (idx : Nat) : Option Nat := if idx = nil then none else some idx

theorem link_nil : link nil = none := if_pos rfl

theorem link_of_ne (hne : idx ≠ nil) : link idx = some idx := if_neg hne

theorem link_eq_some (h : link idx = some idx') : idx = idx' ∧ idx ≠ nil := by
  by_cases hnil : idx = nil
  · rw [hnil, link_nil] at h
    cases h
  · rw [link_of_ne hnil] at h
    exact ⟨Option.some.inj h, hnil⟩

theorem link_eq_none (h : link idx = none) : idx = nil := by
  by_contra hnil
  rw [link_of_ne hnil] at h
  cases h

def Kmem.next (kmem : Kmem) (order idx : Nat) : Option Nat :=
  link (nextLnk (kmem.getMark order idx).lnks)

def Kmem.prev (kmem : Kmem) (order idx : Nat) : Option Nat :=
  link (preLnk (kmem.getMark order idx).lnks)

/-- The links of an order are those of a list. -/
structure Chained (n order : Nat) (kmem : Kmem) (list : List Nat) : Prop where
  nodup : list.Nodup
  head : link (kmem.head order) = list.head?
  linked : Linked (kmem.next order) (kmem.prev order) none list
  lt : ∀ idx ∈ list, idx < count n order

def Indexed (n : Nat) : Prop := ∀ order, Within order → count n order ≤ nil

variable {kmem' : Kmem} {list : List Nat}

theorem Chained.congr (h : Chained n order kmem list) (hhead : kmem'.head order = kmem.head order)
    (hmark : ∀ idx ∈ list, (kmem'.getMark order idx).lnks = (kmem.getMark order idx).lnks) :
    Chained n order kmem' list where
  nodup := h.nodup
  head := (congrArg link hhead).trans h.head
  linked := h.linked.congr (fun idx hidx => congrArg (fun lnks => link (nextLnk lnks)) (hmark idx hidx))
    fun idx hidx => congrArg (fun lnks => link (preLnk lnks)) (hmark idx hidx)
  lt := h.lt

theorem Chained.of_kept (h : Chained n order' kmem list) (hkept : Kept n order kmem kmem')
    (horder' : Within order') (hne : order' ≠ order) : Chained n order' kmem' list :=
  h.congr (hkept.head order' horder' hne) fun idx hidx =>
    congrArg Mark.lnks (hkept.getMark order' idx horder' hne (h.lt idx hidx))

theorem Chained.preLnk_lt (h : Chained n order kmem list) (hindexed : Indexed n)
    (horder : Within order) (hidx : idx ∈ list) : preLnk (kmem.getMark order idx).lnks < 2 ^ 16 := by
  have hnil : nil < 2 ^ 16 := by decide
  cases hprev : kmem.prev order idx with
  | none => exact lt_of_eq_of_lt (link_eq_none hprev) hnil
  | some pre =>
      rcases h.linked.mem_of_prev hidx hprev with hnone | hpre
      · cases hnone
      · rw [(link_eq_some hprev).1]
        exact ((h.lt pre hpre).trans_le (hindexed order horder)).trans hnil

section Links

variable (htable : Table n kmem) (horder : Within order)

include htable horder

theorem Table.setLnks_lnks (hidx : idx < count n order) (hidx' : idx' < count n order) (lnks : Nat) :
    ((kmem.setLnks order idx lnks).getMark order idx').lnks =
      if idx' = idx then lnks else (kmem.getMark order idx').lnks := by
  rw [Kmem.setLnks, htable.getMark_setMark horder horder hidx hidx']
  by_cases heq : idx' = idx
  · rw [if_pos ⟨rfl, heq⟩, if_pos heq]
  · rw [if_neg fun hslot => heq hslot.2, if_neg heq]

theorem Table.setLnks_bitmap (hidx : idx < count n order) (hidx' : idx' < count n order) (lnks : Nat) :
    ((kmem.setLnks order idx lnks).getMark order idx').bitmap = (kmem.getMark order idx').bitmap := by
  rw [Kmem.setLnks, htable.getMark_setMark horder horder hidx hidx']
  by_cases heq : idx' = idx
  · rw [if_pos ⟨rfl, heq⟩, heq]
  · rw [if_neg fun hslot => heq hslot.2]

theorem Table.next_setNext (hidx : idx < count n order) (hidx' : idx' < count n order) {next : Nat}
    (hnext : next < 2 ^ 16) : (kmem.setNext order idx next).next order idx' =
      if idx' = idx then link next else kmem.next order idx' := by
  rw [Kmem.next, Kmem.setNext, htable.setLnks_lnks horder hidx hidx']
  by_cases heq : idx' = idx
  · rw [if_pos heq, if_pos heq, nextLnk_lnksOf, nextLnk_of_lt hnext]
  · rw [if_neg heq, if_neg heq, Kmem.next]

theorem Table.prev_setNext (hidx : idx < count n order) (hidx' : idx' < count n order) (next : Nat)
    (hpre : preLnk (kmem.getMark order idx).lnks < 2 ^ 16) :
    (kmem.setNext order idx next).prev order idx' = kmem.prev order idx' := by
  rw [Kmem.prev, Kmem.setNext, htable.setLnks_lnks horder hidx hidx']
  by_cases heq : idx' = idx
  · rw [if_pos heq, preLnk_lnksOf hpre, heq, Kmem.prev]
  · rw [if_neg heq, Kmem.prev]

theorem Table.next_setPre (hidx : idx < count n order) (hidx' : idx' < count n order) (pre : Nat) :
    (kmem.setPre order idx pre).next order idx' = kmem.next order idx' := by
  rw [Kmem.next, Kmem.setPre, htable.setLnks_lnks horder hidx hidx']
  by_cases heq : idx' = idx
  · rw [if_pos heq, nextLnk_lnksOf, nextLnk_of_lt (nextLnk_lt _), heq, Kmem.next]
  · rw [if_neg heq, Kmem.next]

theorem Table.prev_setPre (hidx : idx < count n order) (hidx' : idx' < count n order) {pre : Nat}
    (hpre : pre < 2 ^ 16) : (kmem.setPre order idx pre).prev order idx' =
      if idx' = idx then link pre else kmem.prev order idx' := by
  rw [Kmem.prev, Kmem.setPre, htable.setLnks_lnks horder hidx hidx']
  by_cases heq : idx' = idx
  · rw [if_pos heq, if_pos heq, preLnk_lnksOf hpre]
  · rw [if_neg heq, if_neg heq, Kmem.prev]

end Links

structure Relinked (n order : Nat) (kmem kmem' : Kmem) : Prop where
  kept : Kept n order kmem kmem'
  bitmap : ∀ idx < count n order,
    (kmem'.getMark order idx).bitmap = (kmem.getMark order idx).bitmap

theorem Relinked.refl (n order : Nat) (kmem : Kmem) : Relinked n order kmem kmem :=
  ⟨.refl n order kmem, fun _ _ => rfl⟩

theorem Relinked.trans {kmem₁ kmem₂ kmem₃ : Kmem} (h : Relinked n order kmem₁ kmem₂)
    (h' : Relinked n order kmem₂ kmem₃) : Relinked n order kmem₁ kmem₃ :=
  ⟨h.kept.trans h'.kept, fun idx hidx => (h'.bitmap idx hidx).trans (h.bitmap idx hidx)⟩

theorem Relinked.setLnks (htable : Table n kmem) (horder : Within order) (hidx : idx < count n order)
    (lnks : Nat) : Relinked n order kmem (kmem.setLnks order idx lnks) :=
  ⟨.setMark htable horder hidx _, fun _ hidx' => htable.setLnks_bitmap horder hidx hidx' lnks⟩

theorem Relinked.setHead (horder : Within order) (kmem : Kmem) (head : Nat) :
    Relinked n order kmem (kmem.setHead order head) :=
  ⟨.setHead horder kmem head, fun _ _ => congrArg Mark.bitmap (getMark_setHead ..)⟩

section Unlink

variable (htable : Table n kmem) (hindexed : Indexed n) (horder : Within order)
  (h : Chained n order kmem list) (hidx : idx ∈ list)

include htable hindexed horder h hidx

theorem passOver_spec :
    ∃ kmem', kmem.passOver order idx (preLnk (kmem.getMark order idx).lnks)
        (nextLnk (kmem.getMark order idx).lnks) = kmem' ∧ Relinked n order kmem kmem' ∧
      link (kmem'.head order) = (list.erase idx).head? ∧
      (∀ x ∈ list, kmem'.next order x =
        if kmem.next order x = some idx then kmem.next order idx else kmem.next order x) ∧
      ∀ x ∈ list, kmem'.prev order x = kmem.prev order x := by
  refine ⟨_, rfl, ?_⟩
  have hnextLt := nextLnk_lt (kmem.getMark order idx).lnks
  rw [h.linked.head_erase, ← h.head]
  by_cases hpre : preLnk (kmem.getMark order idx).lnks = nil
  · -- the first of the list: the head points at it, and no mark does
    have hprev : kmem.prev order idx = none := by rw [Kmem.prev, hpre, link_nil]
    have hnone : ∀ x ∈ list, kmem.next order x ≠ some idx := fun x hx heq => by
      rw [h.linked.prev_of_next hx heq] at hprev
      cases hprev
    by_cases hhead : kmem.head order = idx
    · have hlink : link (kmem.head order) = some idx := by
        rw [hhead, link_of_ne]
        exact ((h.lt idx hidx).trans_le (hindexed order horder)).ne
      rw [Kmem.passOver, if_neg (not_not_intro hpre), if_pos hhead, head_setHead, if_pos hlink]
      refine ⟨.setHead horder kmem _, rfl, fun x hx => ?_, fun x hx => ?_⟩
      · rw [if_neg (hnone x hx), Kmem.next, getMark_setHead, Kmem.next]
      · rw [Kmem.prev, getMark_setHead, Kmem.prev]
    · have hlink : link (kmem.head order) ≠ some idx := fun heq => hhead (link_eq_some heq).1
      rw [Kmem.passOver, if_neg (not_not_intro hpre), if_neg hhead, if_neg hlink]
      exact ⟨.refl n order kmem, rfl, fun x hx => (if_neg (hnone x hx)).symm, fun _ _ => rfl⟩
  · have hprev : kmem.prev order idx = some (preLnk (kmem.getMark order idx).lnks) := link_of_ne hpre
    have hmem : preLnk (kmem.getMark order idx).lnks ∈ list :=
      (h.linked.mem_of_prev hidx hprev).resolve_left fun hnone => by cases hnone
    have hback : ∀ x ∈ list,
        kmem.next order x = some idx ↔ x = preLnk (kmem.getMark order idx).lnks := by
      refine fun x hx => ⟨fun heq => ?_, fun heq => ?_⟩
      · rw [h.linked.prev_of_next hx heq] at hprev
        exact Option.some.inj hprev
      · rw [heq]
        exact (h.linked.next_of_prev h.nodup hidx hprev).resolve_left fun hnone => by cases hnone
    have hlink : link (kmem.head order) ≠ some idx := by
      intro heq
      obtain ⟨rest, hlist⟩ := List.head?_eq_some_iff.mp (h.head.symm.trans heq)
      have hlinked := h.linked
      rw [hlist] at hlinked
      rw [hlinked.1] at hprev
      cases hprev
    rw [Kmem.passOver, if_pos hpre, if_neg hlink]
    refine ⟨.setLnks htable horder (h.lt _ hmem) _, rfl, fun x hx => ?_, fun x hx => ?_⟩
    · rw [htable.next_setNext horder (h.lt _ hmem) (h.lt x hx) hnextLt]
      exact if_congr (hback x hx).symm rfl rfl
    · exact htable.prev_setNext horder (h.lt _ hmem) (h.lt x hx) _ (h.preLnk_lt hindexed horder hmem)

theorem unlinkMark_spec :
    Relinked n order kmem (unlinkMark kmem order idx) ∧
      Chained n order (unlinkMark kmem order idx) (list.erase idx) := by
  have hpreLt := h.preLnk_lt hindexed horder hidx
  obtain ⟨passed, hpassed, hrelinked, hhead, hnext, hprev⟩ := passOver_spec htable hindexed horder h hidx
  have htable' : Table n passed := hrelinked.kept.table htable
  -- whatever pointed at the mark backwards points past it
  have hback : ∃ kmem', (if nextLnk (kmem.getMark order idx).lnks ≠ nil then
        passed.setPre order (nextLnk (kmem.getMark order idx).lnks)
          (preLnk (kmem.getMark order idx).lnks) else passed) = kmem' ∧
      Relinked n order kmem kmem' ∧ kmem'.head order = passed.head order ∧
      (∀ x ∈ list, kmem'.next order x = passed.next order x) ∧
      ∀ x ∈ list, kmem'.prev order x =
        if kmem.prev order x = some idx then kmem.prev order idx else kmem.prev order x := by
    refine ⟨_, rfl, ?_⟩
    by_cases hnil : nextLnk (kmem.getMark order idx).lnks = nil
    · have hnone : ∀ x ∈ list, kmem.prev order x ≠ some idx := by
        intro x hx heq
        rcases h.linked.next_of_prev h.nodup hx heq with hnone | hto
        · cases hnone
        · rw [Kmem.next, hnil, link_nil] at hto
          cases hto
      rw [if_neg (not_not_intro hnil)]
      refine ⟨hrelinked, rfl, fun _ _ => rfl, fun x hx => ?_⟩
      rw [hprev x hx, if_neg (hnone x hx)]
    · have hto : kmem.next order idx = some (nextLnk (kmem.getMark order idx).lnks) := link_of_ne hnil
      have hmem := h.linked.mem_of_next hidx hto
      have hfrom : ∀ x ∈ list,
          kmem.prev order x = some idx ↔ x = nextLnk (kmem.getMark order idx).lnks := by
        refine fun x hx => ⟨fun heq => ?_, fun heq => ?_⟩
        · rcases h.linked.next_of_prev h.nodup hx heq with hnone | heq
          · cases hnone
          · exact Option.some.inj (heq.symm.trans hto)
        · rw [heq]
          exact h.linked.prev_of_next hidx hto
      rw [if_pos hnil]
      refine ⟨hrelinked.trans (.setLnks htable' horder (h.lt _ hmem) _), rfl, fun x hx => ?_,
        fun x hx => ?_⟩
      · exact htable'.next_setPre horder (h.lt _ hmem) (h.lt x hx) _
      · rw [htable'.prev_setPre horder (h.lt _ hmem) (h.lt x hx) hpreLt, hprev x hx]
        exact if_congr (hfrom x hx).symm rfl rfl
  obtain ⟨past, hpast, hrelinked', hhead', hnext', hprev'⟩ := hback
  have hunlink : unlinkMark kmem order idx = past.setLnks order idx (lnksOf nil nil) := by
    rw [unlinkMark, hpassed, hpast]
  have htable'' : Table n past := hrelinked'.kept.table htable
  have hlnks : ∀ x ∈ list, x ≠ idx → ((past.setLnks order idx (lnksOf nil nil)).getMark order x).lnks =
      (past.getMark order x).lnks := fun x hx hne => by
    rw [htable''.setLnks_lnks horder (h.lt idx hidx) (h.lt x hx), if_neg hne]
  rw [hunlink]
  refine ⟨hrelinked'.trans (.setLnks htable'' horder (h.lt idx hidx) _), h.nodup.erase idx, ?_, ?_, ?_⟩
  · exact (congrArg link hhead').trans hhead
  · refine h.linked.erase h.nodup (Option.some_ne_none idx).symm (fun x hx hne => ?_) fun x hx hne => ?_
    · rw [Kmem.next, hlnks x hx hne]
      exact (hnext' x hx).trans (hnext x hx)
    · rw [Kmem.prev, hlnks x hx hne]
      exact hprev' x hx
  · exact fun x hx => h.lt x (List.mem_of_mem_erase hx)

end Unlink

theorem linkMark_spec (htable : Table n kmem) (hindexed : Indexed n) (horder : Within order)
    (h : Chained n order kmem list) (hnotMem : idx ∉ list) (hidx : idx < count n order) :
    Relinked n order kmem (linkMark kmem order idx) ∧
      Chained n order (linkMark kmem order idx) (idx :: list) := by
  have hnilLt : nil < 2 ^ 16 := by decide
  have hidxNil : idx < nil := hidx.trans_le (hindexed order horder)
  have hheadLt : kmem.head order < 2 ^ 16 := by
    cases hhead : link (kmem.head order) with
    | none => exact lt_of_eq_of_lt (link_eq_none hhead) hnilLt
    | some first =>
        rw [(link_eq_some hhead).1]
        have hmem := List.mem_of_head? (h.head.symm.trans hhead)
        exact ((h.lt first hmem).trans_le (hindexed order horder)).trans hnilLt
  have hne : ∀ x ∈ list, x ≠ idx := fun x hx heq => hnotMem (heq ▸ hx)
  let first := kmem.setLnks order idx (lnksOf nil (kmem.head order))
  have hfirst : Relinked n order kmem first := .setLnks htable horder hidx _
  have htable' : Table n first := hfirst.kept.table htable
  have hidxLnks : (first.getMark order idx).lnks = lnksOf nil (kmem.head order) := by
    rw [htable.setLnks_lnks horder hidx hidx, if_pos rfl]
  have hlnks : ∀ x ∈ list, (first.getMark order x).lnks = (kmem.getMark order x).lnks := fun x hx => by
    rw [htable.setLnks_lnks horder hidx (h.lt x hx), if_neg (hne x hx)]
  -- the first of the list points back at the mark
  have hback : ∃ kmem', (if kmem.head order ≠ nil then first.setPre order (kmem.head order) idx
        else first) = kmem' ∧ Relinked n order kmem kmem' ∧
      (∀ x < count n order, kmem'.next order x = first.next order x) ∧
      ∀ x < count n order, kmem'.prev order x =
        if list.head? = some x then some idx else first.prev order x := by
    refine ⟨_, rfl, ?_⟩
    rw [← h.head]
    by_cases hnil : kmem.head order = nil
    · rw [if_neg (not_not_intro hnil), hnil, link_nil]
      exact ⟨hfirst, fun _ _ => rfl, fun x _ => (if_neg (Option.some_ne_none x).symm).symm⟩
    · have hlink : link (kmem.head order) = some (kmem.head order) := link_of_ne hnil
      have hhead := h.lt _ (List.mem_of_head? (h.head.symm.trans hlink))
      rw [if_pos hnil]
      refine ⟨hfirst.trans (.setLnks htable' horder hhead _), fun x hx => ?_, fun x hx => ?_⟩
      · exact htable'.next_setPre horder hhead hx _
      · rw [htable'.prev_setPre horder hhead hx (hidxNil.trans hnilLt), link_of_ne hidxNil.ne, hlink]
        exact if_congr ⟨fun heq => congrArg some heq.symm, fun heq => (Option.some.inj heq).symm⟩
          rfl rfl
  obtain ⟨behind, hbehind, hrelinked, hnext, hprev⟩ := hback
  have hlink : linkMark kmem order idx = behind.setHead order idx := by
    rw [← hbehind]
    rfl
  have hnext' : ∀ x, (behind.setHead order idx).next order x = behind.next order x := fun x => by
    rw [Kmem.next, getMark_setHead, Kmem.next]
  have hprev' : ∀ x, (behind.setHead order idx).prev order x = behind.prev order x := fun x => by
    rw [Kmem.prev, getMark_setHead, Kmem.prev]
  rw [hlink]
  refine ⟨hrelinked.trans (.setHead horder behind idx), List.nodup_cons.mpr ⟨hnotMem, h.nodup⟩, ?_, ?_,
    ?_⟩
  · rw [head_setHead, link_of_ne hidxNil.ne, List.head?_cons]
  · refine h.linked.cons h.nodup ?_ ?_ (fun x hx => ?_) (fun x hx => ?_) fun x hx hfirst => ?_
    · rw [hnext', hnext idx hidx, Kmem.next, hidxLnks, nextLnk_lnksOf, nextLnk_of_lt hheadLt, h.head]
    · rw [hprev', hprev idx hidx, if_neg fun heq => hnotMem (List.mem_of_head? heq), Kmem.prev, hidxLnks,
        preLnk_lnksOf hnilLt, link_nil]
    · rw [hnext', hnext x (h.lt x hx), Kmem.next, hlnks x hx, Kmem.next]
    · rw [hprev', hprev x (h.lt x (List.mem_of_head? hx)), if_pos hx]
    · rw [hprev', hprev x (h.lt x hx), if_neg hfirst, Kmem.prev, hlnks x hx, Kmem.prev]
  · rintro x (- | ⟨-, hx⟩)
    · exact hidx
    · exact h.lt x hx

/-! ### The set of free blocks -/

structure Marked (n : Nat) (free : Set Block) (kmem : Kmem) : Prop where
  table : Table n kmem
  range : ∀ b ∈ free, Within b.order ∧ b.id / 32 < count n b.order
  bits : ∀ {order blkId}, Within order → blkId / 32 < count n order →
    (available (kmem.getMark order (blkId / 32)).bitmap blkId = true ↔ ⟨order, blkId⟩ ∈ free)
  /-- The list of an order has the marks with a set bit. -/
  lists : ∀ {order}, Within order → ∃ list, Chained n order kmem list ∧
    ∀ idx < count n order, idx ∈ list ↔ (kmem.getMark order idx).bitmap ≠ 0

variable {free free' : Set Block} {blkId : Nat}

theorem Marked.change (h : Marked n free kmem) {bitmap : BitVec 32} (horder : Within order)
    (hidx : idx < count n order) (hkept : Kept n order kmem kmem')
    (hbitmap : ∀ i < count n order,
      (kmem'.getMark order i).bitmap = if i = idx then bitmap else (kmem.getMark order i).bitmap)
    (hchained : Chained n order kmem' list)
    (hlist : ∀ i < count n order, i ∈ list ↔ (kmem'.getMark order i).bitmap ≠ 0)
    (hsame : ∀ c : Block, c.order ≠ order ∨ c.id / 32 ≠ idx → (c ∈ free' ↔ c ∈ free))
    (hword : ∀ blkId, blkId / 32 = idx → (available bitmap blkId = true ↔ ⟨order, blkId⟩ ∈ free')) :
    Marked n free' kmem' where
  table := hkept.table h.table
  range := by
    rintro ⟨order', blkId⟩ hmem
    by_cases hslot : order' = order ∧ blkId / 32 = idx
    · obtain ⟨rfl, rfl⟩ := hslot
      exact ⟨horder, hidx⟩
    · exact h.range _ ((hsame ⟨order', blkId⟩ (not_and_or.mp hslot)).mp hmem)
  bits := by
    intro order' blkId horder' hid
    by_cases heq : order' = order
    · subst heq
      rw [hbitmap _ hid]
      by_cases hslot : blkId / 32 = idx
      · rw [if_pos hslot]
        exact hword blkId hslot
      · rw [if_neg hslot, hsame ⟨order', blkId⟩ (Or.inr hslot)]
        exact h.bits horder' hid
    · rw [hkept.getMark order' _ horder' heq hid, hsame ⟨order', blkId⟩ (Or.inl heq)]
      exact h.bits horder' hid
  lists := by
    intro order' horder'
    by_cases heq : order' = order
    · subst heq
      exact ⟨list, hchained, hlist⟩
    · obtain ⟨list', hchained', hlist'⟩ := h.lists horder'
      refine ⟨list', hchained'.of_kept hkept horder' heq, fun i hi => ?_⟩
      rw [hkept.getMark order' i horder' heq hi]
      exact hlist' i hi

theorem Table.setBitmap_bitmap (htable : Table n kmem) (horder : Within order)
    (hidx : idx < count n order) (hidx' : idx' < count n order) (bitmap : BitVec 32) :
    ((kmem.setBitmap order idx bitmap).getMark order idx').bitmap =
      if idx' = idx then bitmap else (kmem.getMark order idx').bitmap := by
  rw [Kmem.setBitmap, htable.getMark_setMark horder horder hidx hidx']
  by_cases heq : idx' = idx
  · rw [if_pos ⟨rfl, heq⟩, if_pos heq]
  · rw [if_neg fun hslot => heq hslot.2, if_neg heq]

theorem Table.setBitmap_lnks (htable : Table n kmem) (horder : Within order)
    (hidx : idx < count n order) (hidx' : idx' < count n order) (bitmap : BitVec 32) :
    ((kmem.setBitmap order idx bitmap).getMark order idx').lnks = (kmem.getMark order idx').lnks := by
  rw [Kmem.setBitmap, htable.getMark_setMark horder horder hidx hidx']
  by_cases heq : idx' = idx
  · rw [if_pos ⟨rfl, heq⟩, heq]
  · rw [if_neg fun hslot => heq hslot.2]

theorem unmarkBlk_spec (hindexed : Indexed n) (h : Marked n free kmem)
    (hmem : ⟨order, blkId⟩ ∈ free) :
    ∃ kmem', unmarkBlk kmem order blkId = .ok kmem' ∧ Marked n (free \ {⟨order, blkId⟩}) kmem' ∧
      kmem'.startHeap = kmem.startHeap := by
  obtain ⟨horder, hidx⟩ : Within order ∧ blkId / 32 < count n order := h.range _ hmem
  have hset := (h.bits horder hidx).mpr hmem
  have hshift : blkId >>> 5 = blkId / 32 := Nat.shiftRight_eq_div_pow blkId 5
  obtain ⟨list, hchained, hlist⟩ := h.lists horder
  generalize hbitmap : (kmem.getMark order (blkId / 32)).bitmap = bitmap at hset
  let cleared := bitmap &&& ~~~(1#32 <<< (blkId &&& 0x1F))
  let unset := kmem.setBitmap order (blkId / 32) cleared
  have hkept : Kept n order kmem unset := .setMark h.table horder hidx _
  have hbitmaps : ∀ i < count n order, (unset.getMark order i).bitmap =
      if i = blkId / 32 then cleared else (kmem.getMark order i).bitmap := fun i hi =>
    h.table.setBitmap_bitmap horder hidx hi cleared
  have hchained' : Chained n order unset list := hchained.congr rfl fun i hi =>
    h.table.setBitmap_lnks horder hidx (hchained.lt i hi) cleared
  have hin : blkId / 32 ∈ list := by
    rw [hlist _ hidx, hbitmap, bitmap_ne_zero_iff (blkId / 32)]
    exact ⟨blkId, rfl, hset⟩
  have hsame : ∀ c : Block, c.order ≠ order ∨ c.id / 32 ≠ blkId / 32 →
      (c ∈ free \ {⟨order, blkId⟩} ↔ c ∈ free) := by
    refine fun c hne => and_iff_left fun heq => ?_
    obtain rfl : c = ⟨order, blkId⟩ := heq
    exact hne.elim (fun hne => hne rfl) fun hne => hne rfl
  have hword : ∀ other, other / 32 = blkId / 32 →
      (available cleared other = true ↔ ⟨order, other⟩ ∈ free \ {⟨order, blkId⟩}) := by
    intro other hother
    rw [available_clear hother, ← hbitmap, ← hother, h.bits horder (hother ▸ hidx)]
    refine and_congr_right fun _ => not_congr ?_
    rw [Set.mem_singleton_iff, Block.mk.injEq, and_iff_right rfl]
  have hrun : unmarkBlk kmem order blkId =
      .ok (if cleared = 0 then unlinkMark unset order (blkId / 32) else unset) := by
    rw [unmarkBlk, hshift, hbitmap]
    dsimp only
    rw [if_neg (by rw [hset]; decide)]
  rw [hrun]
  refine ⟨_, rfl, ?_⟩
  by_cases hzero : cleared = 0
  · rw [if_pos hzero]
    obtain ⟨hrelinked, hunlinked⟩ := unlinkMark_spec (hkept.table h.table) hindexed horder hchained' hin
    have hbitmaps' : ∀ i < count n order, ((unlinkMark unset order (blkId / 32)).getMark order i).bitmap =
        if i = blkId / 32 then cleared else (kmem.getMark order i).bitmap := fun i hi =>
      (hrelinked.bitmap i hi).trans (hbitmaps i hi)
    refine ⟨h.change horder hidx (hkept.trans hrelinked.kept) hbitmaps' hunlinked (fun i hi => ?_) hsame
      hword, hrelinked.kept.startHeap⟩
    rw [hbitmaps' i hi, hchained.nodup.mem_erase_iff, hlist i hi]
    by_cases heq : i = blkId / 32
    · rw [if_pos heq]
      exact ⟨fun hne => absurd heq hne.1, fun hne => absurd hzero hne⟩
    · rw [if_neg heq]
      exact and_iff_right heq
  · rw [if_neg hzero]
    refine ⟨h.change horder hidx hkept hbitmaps hchained' (fun i hi => ?_) hsame hword, rfl⟩
    rw [hbitmaps i hi]
    by_cases heq : i = blkId / 32
    · rw [if_pos heq, heq]
      exact iff_of_true hin hzero
    · rw [if_neg heq]
      exact hlist i hi

theorem markBlk_spec (hindexed : Indexed n) (h : Marked n free kmem) (horder : Within order)
    (hidx : blkId / 32 < count n order) (hnotMem : ⟨order, blkId⟩ ∉ free) :
    ∃ kmem', markBlk kmem order blkId = .ok kmem' ∧ Marked n (insert ⟨order, blkId⟩ free) kmem' ∧
      kmem'.startHeap = kmem.startHeap := by
  have hset := mt (h.bits horder hidx).mp hnotMem
  have hshift : blkId >>> 5 = blkId / 32 := Nat.shiftRight_eq_div_pow blkId 5
  obtain ⟨list, hchained, hlist⟩ := h.lists horder
  generalize hbitmap : (kmem.getMark order (blkId / 32)).bitmap = bitmap at hset
  let added := bitmap ||| (1#32 <<< (blkId &&& 0x1F))
  let set := kmem.setBitmap order (blkId / 32) added
  have hkept : Kept n order kmem set := .setMark h.table horder hidx _
  have hbitmaps : ∀ i < count n order, (set.getMark order i).bitmap =
      if i = blkId / 32 then added else (kmem.getMark order i).bitmap := fun i hi =>
    h.table.setBitmap_bitmap horder hidx hi added
  have hchained' : Chained n order set list := hchained.congr rfl fun i hi =>
    h.table.setBitmap_lnks horder hidx (hchained.lt i hi) added
  have hadded : added ≠ 0 :=
    (bitmap_ne_zero_iff _).mpr ⟨blkId, rfl, (available_set rfl bitmap).mpr (Or.inr rfl)⟩
  have hsame : ∀ c : Block, c.order ≠ order ∨ c.id / 32 ≠ blkId / 32 →
      (c ∈ insert ⟨order, blkId⟩ free ↔ c ∈ free) := by
    refine fun c hne => or_iff_right fun heq => ?_
    obtain rfl : c = ⟨order, blkId⟩ := heq
    exact hne.elim (fun hne => hne rfl) fun hne => hne rfl
  have hword : ∀ other, other / 32 = blkId / 32 →
      (available added other = true ↔ ⟨order, other⟩ ∈ insert ⟨order, blkId⟩ free) := by
    intro other hother
    rw [available_set hother, ← hbitmap, ← hother, h.bits horder (hother ▸ hidx), Set.mem_insert_iff,
      Block.mk.injEq, and_iff_right rfl, or_comm]
  have hrun : markBlk kmem order blkId =
      .ok (if bitmap = 0 then linkMark set order (blkId / 32) else set) := by
    rw [markBlk, hshift, hbitmap]
    dsimp only
    rw [if_neg hset]
  rw [hrun]
  refine ⟨_, rfl, ?_⟩
  by_cases hzero : bitmap = 0
  · have hout : blkId / 32 ∉ list := by
      rw [hlist _ hidx, hbitmap]
      exact not_not_intro hzero
    rw [if_pos hzero]
    obtain ⟨hrelinked, hlinked⟩ :=
      linkMark_spec (hkept.table h.table) hindexed horder hchained' hout hidx
    have hbitmaps' : ∀ i < count n order, ((linkMark set order (blkId / 32)).getMark order i).bitmap =
        if i = blkId / 32 then added else (kmem.getMark order i).bitmap := fun i hi =>
      (hrelinked.bitmap i hi).trans (hbitmaps i hi)
    refine ⟨h.change horder hidx (hkept.trans hrelinked.kept) hbitmaps' hlinked (fun i hi => ?_) hsame
      hword, hrelinked.kept.startHeap⟩
    rw [hbitmaps' i hi, List.mem_cons, hlist i hi]
    by_cases heq : i = blkId / 32
    · rw [if_pos heq]
      exact iff_of_true (Or.inl heq) hadded
    · rw [if_neg heq]
      exact or_iff_right heq
  · rw [if_neg hzero]
    refine ⟨h.change horder hidx hkept hbitmaps hchained' (fun i hi => ?_) hsame hword, rfl⟩
    rw [hbitmaps i hi]
    by_cases heq : i = blkId / 32
    · rw [if_pos heq, hlist i hi, heq, hbitmap]
      exact iff_of_true hzero hadded
    · rw [if_neg heq]
      exact hlist i hi

theorem Marked.head_eq_nil_iff (h : Marked n free kmem) (horder : Within order) :
    kmem.head order = nil ↔ ∀ b ∈ free, b.order ≠ order := by
  obtain ⟨list, hchained, hlist⟩ := h.lists horder
  have hempty : kmem.head order = nil ↔ list = [] := by
    rw [← List.head?_eq_none_iff, ← hchained.head]
    exact ⟨fun hnil => by rw [hnil, link_nil], link_eq_none⟩
  rw [hempty, List.eq_nil_iff_forall_not_mem]
  constructor
  · rintro hnone ⟨order, blkId⟩ hmem rfl
    obtain ⟨horder, hidx⟩ : Within order ∧ blkId / 32 < count n order := h.range _ hmem
    refine hnone (blkId / 32) ((hlist _ hidx).mpr ((bitmap_ne_zero_iff _).mpr ⟨blkId, rfl, ?_⟩))
    exact (h.bits horder hidx).mpr hmem
  · intro hnone idx hidx
    have hlt := hchained.lt idx hidx
    obtain ⟨blkId, rfl, hset⟩ := (bitmap_ne_zero_iff idx).mp ((hlist idx hlt).mp hidx)
    exact hnone _ ((h.bits horder hlt).mp hset) rfl

theorem getBlk_spec (hindexed : Indexed n) (h : Marked n free kmem) (horder : Within order)
    (hhead : kmem.head order ≠ nil) :
    ∃ blkId kmem', getBlk kmem order = .ok (kmem.blkid2mem order blkId, kmem') ∧
      ⟨order, blkId⟩ ∈ free ∧ Marked n (free \ {⟨order, blkId⟩}) kmem' ∧
        kmem'.startHeap = kmem.startHeap := by
  obtain ⟨list, hchained, hlist⟩ := h.lists horder
  have hmem : kmem.head order ∈ list :=
    List.mem_of_head? (hchained.head.symm.trans (link_of_ne hhead))
  have hidx := hchained.lt _ hmem
  have hne := (hlist _ hidx).mp hmem
  obtain ⟨other, -, hother⟩ := (bitmap_ne_zero_iff (kmem.head order)).mp hne
  cases hfind : (List.range 32).find? fun i =>
      (kmem.getMark order (kmem.head order)).bitmap &&& (1#32 <<< i) != 0 with
  | none =>
      -- the mark has a set bit
      have hbit : other &&& 0x1F = other % 32 := Nat.and_two_pow_sub_one_eq_mod other 5
      have hunset := List.find?_eq_none.mp hfind (other % 32) (List.mem_range.mpr (Nat.mod_lt _ (by decide)))
      rw [available, hbit] at hother
      exact absurd hother hunset
  | some i =>
      have hi : i < 32 := List.mem_range.mp (List.mem_of_find?_eq_some hfind)
      have hset := List.find?_some hfind
      have hblk : (kmem.head order * 32 + i) / 32 = kmem.head order := by omega
      have hbit : (kmem.head order * 32 + i) &&& 0x1F = i := by
        rw [show (0x1F : Nat) = 2 ^ 5 - 1 from rfl, Nat.and_two_pow_sub_one_eq_mod]
        omega
      have hfree : ⟨order, kmem.head order * 32 + i⟩ ∈ free := by
        rw [← h.bits horder (hblk.symm ▸ hidx), available, hbit, hblk]
        exact hset
      obtain ⟨kmem', hunmark, hmarked, hstart⟩ := unmarkBlk_spec hindexed h hfree
      refine ⟨_, kmem', ?_, hfree, hmarked, hstart⟩
      rw [getBlk, if_neg hne, hfind]
      dsimp only
      rw [hunmark]
      have hmem : ∀ blkId, kmem'.blkid2mem order blkId = kmem.blkid2mem order blkId := fun blkId => by
        rw [Kmem.blkid2mem, hstart, Kmem.blkid2mem]
      exact congrArg (fun mem => Except.ok (mem, kmem')) (hmem _)

end Xv6.Buddy
