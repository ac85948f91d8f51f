import Xv6.Buddy.Marks

/-!
# Splitting and merging

`_kfree` and `_kmalloc` over the set of free blocks. The heap is tiled by the free blocks and the
blocks that are held, no two buddies below the largest order are free, and both functions keep that.
-/

namespace Xv6.Buddy

open Dyadic

/-- Where the heap is: `blocks` blocks of the largest order, and room for their marks. -/
structure Room (n blocks startHeap : Nat) : Prop where
  indexed : Indexed n
  le : blocks ≤ 32 * n
  aligned : 2 ^ maxOrd ∣ startHeap
  pos : 0 < startHeap
  lt : startHeap + blocks * 2 ^ maxOrd < 2 ^ 32

structure Sound (n blocks startHeap : Nat) (free held : Set Block) (kmem : Kmem) : Prop where
  marked : Marked n free kmem
  start : kmem.startHeap = startHeap
  apart : ∀ b ∈ free, b ∉ held
  tiles : Tiles minOrd maxOrd blocks (free ∪ held)
  buddies : ∀ b ∈ free, b.order < maxOrd → b.buddy ∉ free

variable {n blocks startHeap : Nat} {free held : Set Block} {kmem kmem' : Kmem} {b : Block}

theorem blkid2mem_eq (kmem : Kmem) (b : Block) :
    kmem.blkid2mem b.order b.id = kmem.startHeap + b.first := by
  rw [Kmem.blkid2mem, Nat.one_shiftLeft, Nat.mul_comm, Block.first]

theorem mem2blkid_first (kmem : Kmem) (b : Block) :
    kmem.mem2blkid b.order (kmem.startHeap + b.first) = b.id := by
  rw [Kmem.mem2blkid, Nat.add_sub_cancel_left, Nat.shiftRight_eq_div_pow, Block.first,
    Nat.mul_div_cancel _ (Nat.two_pow_pos _)]

theorem and_even {blkId : Nat} (hlt : blkId < 2 ^ 32) : blkId &&& 0xFFFFFFFE = 2 * (blkId / 2) := by
  have hhalf : (blkId &&& 0xFFFFFFFE) / 2 = blkId / 2 := by
    have hmask : blkId / 2 &&& 0x7FFFFFFF = blkId / 2 % 2 ^ 31 :=
      Nat.and_two_pow_sub_one_eq_mod (blkId / 2) 31
    rw [Nat.and_div_two, show 0xFFFFFFFE / 2 = 0x7FFFFFFF from rfl, hmask, Nat.mod_eq_of_lt]
    omega
  have heven : (blkId &&& 0xFFFFFFFE) % 2 = 0 := by
    have hmod := @Nat.and_mod_two_pow blkId 0xFFFFFFFE 1
    rw [Nat.pow_one, show 0xFFFFFFFE % 2 = 0 from rfl, Nat.and_zero] at hmod
    exact hmod
  omega

theorem Sound.within (h : Sound n blocks startHeap free held kmem) (hb : b ∈ free ∪ held) :
    Within b.order := ⟨h.tiles.order_ge b hb, h.tiles.order_le b hb⟩

theorem Sound.idx_lt (h : Sound n blocks startHeap free held kmem)
    (hroom : Room n blocks startHeap) (hb : b ∈ free ∪ held) : b.id / 32 < count n b.order := by
  have hid := h.tiles.id_lt hb
  have hle : blocks * 2 ^ (maxOrd - b.order) ≤ count n b.order * 32 := by
    rw [count, Nat.mul_right_comm, Nat.mul_comm n 32]
    exact Nat.mul_le_mul_right _ hroom.le
  exact Nat.div_lt_of_lt_mul (Nat.mul_comm _ 32 ▸ hid.trans_le hle)

theorem Sound.give (h : Sound n blocks startHeap free (insert b held) kmem) (hb : b ∉ held)
    (hmarked : Marked n (insert b free) kmem') (hstart : kmem'.startHeap = kmem.startHeap)
    (hbuddy : b.order < maxOrd → b.buddy ∉ free) :
    Sound n blocks startHeap (insert b free) held kmem' where
  marked := hmarked
  start := hstart.trans h.start
  apart := by
    rintro c (rfl | hc)
    · exact hb
    · exact fun hheld => h.apart c hc (Set.mem_insert_of_mem b hheld)
  tiles := by
    rw [Set.insert_union, ← Set.union_insert]
    exact h.tiles
  buddies := by
    rintro c (rfl | hc) hlt (heq | hmem)
    · exact c.buddy_ne heq
    · exact hbuddy hlt hmem
    · rw [← heq, Block.buddy_buddy] at hbuddy
      exact hbuddy hlt hc
    · exact h.buddies c hc hlt hmem

theorem Sound.take (h : Sound n blocks startHeap free held kmem) (hb : b ∈ free)
    (hmarked : Marked n (free \ {b}) kmem') (hstart : kmem'.startHeap = kmem.startHeap) :
    Sound n blocks startHeap (free \ {b}) (insert b held) kmem' where
  marked := hmarked
  start := hstart.trans h.start
  apart := by
    rintro c hc (rfl | hheld)
    · exact hc.2 rfl
    · exact h.apart c hc.1 hheld
  tiles := by
    have hsame : free \ {b} ∪ insert b held = free ∪ held := by
      rw [Set.union_insert, ← Set.insert_union, Set.insert_sdiff_singleton, Set.insert_eq_of_mem hb]
    rw [hsame]
    exact h.tiles
  buddies := fun c hc hlt hmem => h.buddies c hc.1 hlt hmem.1

theorem Sound.parent_notMem (h : Sound n blocks startHeap free held kmem) (hb : b ∈ free ∪ held) :
    b.parent ∉ free ∪ held := fun hparent =>
  b.parent_ne (h.tiles.unique hparent hb (Block.covers_parent.mpr (Or.inl b.covers_first))
    b.covers_first)

theorem Sound.join (h : Sound n blocks startHeap free (insert b.buddy (insert b held)) kmem)
    (hb : b ∉ held) (hbuddy : b.buddy ∉ held) (hlt : b.order < maxOrd) :
    Sound n blocks startHeap free (insert b.parent held) kmem ∧ b.parent ∉ held := by
  have hmem : b ∈ free ∪ insert b.buddy (insert b held) := Or.inr (Or.inr (Or.inl rfl))
  have hnotMem := h.parent_notMem hmem
  have hsame : (free ∪ insert b.buddy (insert b held)) \ {b, b.buddy} ∪ {b.parent} =
      free ∪ insert b.parent held := by
    ext c
    have hfree : c ∈ free → c ≠ b ∧ c ≠ b.buddy := fun hc =>
      ⟨fun heq => h.apart c hc (Or.inr (Or.inl heq)), fun heq => h.apart c hc (Or.inl heq)⟩
    have hheld : c ∈ held → c ≠ b ∧ c ≠ b.buddy := fun hc =>
      ⟨fun heq => hb (heq ▸ hc), fun heq => hbuddy (heq ▸ hc)⟩
    simp only [Set.mem_union, Set.mem_sdiff, Set.mem_insert_iff, Set.mem_singleton_iff]
    tauto
  have htiles := h.tiles.join hmem (Or.inr (Or.inl rfl)) hlt
  rw [hsame] at htiles
  refine ⟨⟨h.marked, h.start, fun c hc => ?_, htiles, h.buddies⟩, fun hmem =>
    hnotMem (Or.inr (Or.inr (Or.inr hmem)))⟩
  rintro (rfl | hheld)
  · exact hnotMem (Or.inl hc)
  · exact h.apart c hc (Or.inr (Or.inr hheld))

theorem Sound.halve (h : Sound n blocks startHeap free (insert b.parent held) kmem)
    (hparent : b.parent ∉ held) (hge : minOrd ≤ b.order) :
    Sound n blocks startHeap free (insert b.buddy (insert b held)) kmem ∧ b ∉ held ∧
      b.buddy ∉ insert b held := by
  have hmem : b.parent ∈ free ∪ insert b.parent held := Or.inr (Or.inl rfl)
  -- a half of the parent is not in the tiling
  have hhalf : ∀ c ∈ free ∪ insert b.parent held, c ≠ b ∧ c ≠ b.buddy := by
    refine fun c hc => ⟨?_, ?_⟩ <;> rintro rfl
    · exact h.parent_notMem hc hmem
    · exact h.parent_notMem hc (b.parent_buddy ▸ hmem)
  have hsame : (free ∪ insert b.parent held) \ {b.parent} ∪ {b, b.buddy} =
      free ∪ insert b.buddy (insert b held) := by
    ext c
    have hfree : c ∈ free → c ≠ b.parent := fun hc heq => h.apart c hc (Or.inl heq)
    have hheld : c ∈ held → c ≠ b.parent := fun hc heq => hparent (heq ▸ hc)
    simp only [Set.mem_union, Set.mem_sdiff, Set.mem_insert_iff, Set.mem_singleton_iff]
    tauto
  have htiles := h.tiles.halve hmem hge
  rw [hsame] at htiles
  have hb : b ∉ held := fun hmem => (hhalf b (Or.inr (Or.inr hmem))).1 rfl
  refine ⟨⟨h.marked, h.start, fun c hc => ?_, htiles, h.buddies⟩, hb, ?_⟩
  · rintro (rfl | rfl | hheld)
    · exact (hhalf _ (Or.inl hc)).2 rfl
    · exact (hhalf _ (Or.inl hc)).1 rfl
    · exact h.apart c hc (Or.inr hheld)
  · rintro (heq | hmem)
    · exact b.buddy_ne heq
    · exact (hhalf b.buddy (Or.inr (Or.inr hmem))).2 rfl

section Calls

variable (hroom : Room n blocks startHeap)

include hroom

theorem Sound.id_lt (h : Sound n blocks startHeap free held kmem) (hb : b ∈ free ∪ held) :
    b.id < 2 ^ 32 := by
  have hfirst : b.first < blocks * 2 ^ maxOrd := h.tiles.inside b hb b.covers_first
  have hid : b.id ≤ b.first := Nat.le_mul_of_pos_right _ (Nat.two_pow_pos _)
  have hlt := hroom.lt
  omega

theorem Sound.unset (h : Sound n blocks startHeap free (insert b held) kmem) :
    kmem.mem2blkid b.order (startHeap + b.first) = b.id ∧ b.id >>> 5 = b.id / 32 ∧
      ¬available (kmem.getMark b.order (b.id / 32)).bitmap b.id = true := by
  have hmem : b ∈ free ∪ insert b held := Or.inr (Or.inl rfl)
  refine ⟨h.start ▸ mem2blkid_first kmem b, Nat.shiftRight_eq_div_pow b.id 5, ?_⟩
  rw [h.marked.bits (h.within hmem) (h.idx_lt hroom hmem)]
  exact fun hfree => h.apart b hfree (Or.inl rfl)

theorem kfreeFrom_spec : ∀ {above : Nat} {free held : Set Block} {kmem : Kmem} {b : Block},
    Sound n blocks startHeap free (insert b held) kmem → b ∉ held → maxOrd - above = b.order →
    above ≤ maxOrd → ∃ kmem' free', kfreeFrom above kmem (startHeap + b.first) = .ok kmem' ∧
      Sound n blocks startHeap free' held kmem' := by
  intro above
  induction above with
  | zero =>
      intro free held kmem b h hb horder _
      have hmem : b ∈ free ∪ insert b held := Or.inr (Or.inl rfl)
      obtain ⟨hblk, hshift, hunset⟩ := h.unset hroom
      obtain ⟨kmem', hmark, hmarked, hstart⟩ := markBlk_spec hroom.indexed h.marked (h.within hmem)
        (h.idx_lt hroom hmem) fun hfree => h.apart b hfree (Or.inl rfl)
      refine ⟨kmem', insert b free, ?_, h.give hb hmarked hstart fun hlt => ?_⟩
      · rw [kfreeFrom, horder, hblk, hshift]
        dsimp only
        rw [if_neg hunset]
        exact hmark
      · rw [← horder] at hlt
        exact absurd hlt (Nat.lt_irrefl maxOrd)
  | succ above ih =>
      intro free held kmem b h hb horder hle
      have hmem : b ∈ free ∪ insert b held := Or.inr (Or.inl rfl)
      have hwithin := h.within hmem
      have hlt : b.order < maxOrd := by omega
      obtain ⟨hblk, hshift, hunset⟩ := h.unset hroom
      have hword : b.buddy.id / 32 = b.id / 32 := by
        have hid : b.buddy.id = if b.id % 2 = 0 then b.id + 1 else b.id - 1 := Block.xor_one b.id
        split at hid <;> omega
      have hidx : b.buddy.id / 32 < count n b.order := hword ▸ h.idx_lt hroom hmem
      have hbit : available (kmem.getMark b.order (b.id / 32)).bitmap (b.id ^^^ 1) = true ↔
          b.buddy ∈ free := hword ▸ h.marked.bits hwithin hidx
      by_cases hfree : b.buddy ∈ free
      · -- our buddy is also free: it is taken and the two are joined
        obtain ⟨kmem', hunmark, hmarked, hstart⟩ := unmarkBlk_spec hroom.indexed h.marked hfree
        have htaken := h.take hfree hmarked hstart
        have hbuddy : b.buddy ∉ held := fun hheld => h.apart _ hfree (Or.inr hheld)
        obtain ⟨hjoined, hparent⟩ := htaken.join hb hbuddy hlt
        obtain ⟨kmem'', free', hrest, hsound⟩ := ih hjoined hparent
          (show maxOrd - above = b.order + 1 by omega) (by omega)
        have hmem' : kmem'.blkid2mem b.order (b.id &&& 0xFFFFFFFE) = startHeap + b.parent.first := by
          rw [and_even (h.id_lt hroom hmem), Kmem.blkid2mem, Nat.one_shiftLeft, htaken.start, Block.first,
            Block.parent, Nat.pow_succ]
          ring
        refine ⟨kmem'', free', ?_, hsound⟩
        rw [kfreeFrom, horder, hblk, hshift]
        dsimp only
        rw [if_neg hunset, if_pos (hbit.mpr hfree), hunmark]
        change kfreeFrom above kmem' (kmem'.blkid2mem b.order (b.id &&& 0xFFFFFFFE)) = _
        rw [hmem']
        exact hrest
      · obtain ⟨kmem', hmark, hmarked, hstart⟩ := markBlk_spec hroom.indexed h.marked hwithin
          (h.idx_lt hroom hmem) fun hfree => h.apart b hfree (Or.inl rfl)
        refine ⟨kmem', insert b free, ?_, h.give hb hmarked hstart fun _ => hfree⟩
        rw [kfreeFrom, horder, hblk, hshift]
        dsimp only
        rw [if_neg hunset, if_neg (mt hbit.mp hfree)]
        exact hmark

theorem kmallocFrom_spec : ∀ {above : Nat} {free held : Set Block} {kmem : Kmem},
    Sound n blocks startHeap free held kmem → Within (maxOrd - above) → above ≤ maxOrd →
    (kmallocFrom above kmem = .ok (0, kmem) ∧ ∀ b ∈ free, b.order < maxOrd - above) ∨
      ∃ b kmem' free', kmallocFrom above kmem = .ok (startHeap + b.first, kmem') ∧
        b.order = maxOrd - above ∧ b ∉ held ∧ (∃ c ∈ free, b.order ≤ c.order) ∧
          Sound n blocks startHeap free' (insert b held) kmem' := by
  intro above
  induction above with
  | zero =>
      intro free held kmem h hwithin _
      by_cases hhead : kmem.head maxOrd = nil
      · refine Or.inl ⟨?_, fun b hb => ?_⟩
        · rw [kmallocFrom]
          exact if_neg (not_not_intro hhead)
        · have hne := (h.marked.head_eq_nil_iff hwithin).mp hhead b hb
          exact lt_of_le_of_ne (h.within (Or.inl hb)).2 hne
      · obtain ⟨blkId, kmem', hget, hfree, hmarked, hstart⟩ :=
          getBlk_spec hroom.indexed h.marked hwithin hhead
        refine Or.inr ⟨⟨maxOrd, blkId⟩, kmem', _, ?_, rfl, h.apart _ hfree, ⟨_, hfree, le_rfl⟩,
          h.take hfree hmarked hstart⟩
        rw [← h.start, ← blkid2mem_eq kmem ⟨maxOrd, blkId⟩, kmallocFrom]
        exact (if_pos hhead).trans hget
  | succ above ih =>
      intro free held kmem h hwithin hle
      by_cases hhead : kmem.head (maxOrd - (above + 1)) = nil
      · have horder : maxOrd - above = maxOrd - (above + 1) + 1 := by omega
        rw [kmallocFrom_split hhead]
        rcases ih h ⟨by have := hwithin.1; omega, Nat.sub_le ..⟩ (by omega) with
          ⟨hnone, hsmaller⟩ | ⟨p, kmem', free', hsome, hp, hnotMem, ⟨c, hc, hle'⟩, hsound⟩
        · refine Or.inl ⟨by rw [hnone]; rfl, fun b hb => ?_⟩
          have hne := (h.marked.head_eq_nil_iff hwithin).mp hhead b hb
          have hlt := hsmaller b hb
          omega
        · -- the parent is halved and its second half given back
          let b : Block := ⟨maxOrd - (above + 1), 2 * p.id⟩
          have hparent : b.parent = p := by
            rw [Block.parent, ← horder, ← hp, Nat.mul_div_cancel_left _ (by decide)]
          rw [← hparent] at hsound hnotMem
          obtain ⟨hhalved, hb, hbuddy⟩ := hsound.halve hnotMem hwithin.1
          obtain ⟨kmem'', free'', hfree, hsound'⟩ := kfreeFrom_spec hroom hhalved hbuddy rfl hle
          have hfirst : b.first = p.first := by
            rw [Block.first, Block.first, hp, horder, Nat.pow_succ]
            ring
          have hsecond : startHeap + p.first + (1 <<< (maxOrd - (above + 1))) =
              startHeap + b.buddy.first := by
            have hid : b.buddy.id = 2 * p.id + 1 := (Block.xor_one _).trans (if_pos (Nat.mul_mod_right 2 p.id))
            rw [← hfirst, Block.first, Block.first, hid, Nat.one_shiftLeft]
            simp only [b, Block.buddy]
            ring
          have hpos : startHeap + p.first ≠ 0 := (Nat.add_pos_left hroom.pos _).ne'
          have hlarger : b.order ≤ c.order := by
            rw [hp, horder] at hle'
            exact (Nat.le_succ _).trans hle'
          refine Or.inr ⟨b, kmem'', free'', ?_, rfl, hb, ⟨c, hc, hlarger⟩, hsound'⟩
          rw [hsome, hfirst]
          change (if startHeap + p.first ≠ 0 then _ else _) = _
          rw [if_pos hpos, hsecond, hfree]
          rfl
      · obtain ⟨blkId, kmem', hget, hfree, hmarked, hstart⟩ :=
          getBlk_spec hroom.indexed h.marked hwithin hhead
        refine Or.inr ⟨⟨maxOrd - (above + 1), blkId⟩, kmem', _, ?_, rfl, h.apart _ hfree,
          ⟨_, hfree, le_rfl⟩, h.take hfree hmarked hstart⟩
        rw [← h.start, ← blkid2mem_eq kmem ⟨maxOrd - (above + 1), blkId⟩, kmallocFrom]
        exact (if_pos hhead).trans hget

theorem kmalloc_spec (h : Sound n blocks startHeap free held kmem) {order : Nat}
    (horder : Within order) :
    (kmalloc kmem order = .ok (0, kmem) ∧ ∀ b ∈ free, b.order < order) ∨
      ∃ b kmem' free', kmalloc kmem order = .ok (startHeap + b.first, kmem') ∧ b.order = order ∧
        b ∉ held ∧ (∃ c ∈ free, b.order ≤ c.order) ∧
          Sound n blocks startHeap free' (insert b held) kmem' := by
  have hsub : maxOrd - (maxOrd - order) = order := Nat.sub_sub_self horder.2
  have hchecked : ¬(order > maxOrd ∨ order < minOrd) :=
    not_or_intro (Nat.not_lt.mpr horder.2) (Nat.not_lt.mpr horder.1)
  have hspec := @kmallocFrom_spec _ _ _ hroom (maxOrd - order) _ _ _ h (hsub.symm ▸ horder) (Nat.sub_le ..)
  rw [hsub] at hspec
  rw [kmalloc, if_neg hchecked]
  exact hspec

theorem kfree_spec (h : Sound n blocks startHeap free (insert b held) kmem) (hb : b ∉ held) :
    ∃ kmem' free', kfree kmem (startHeap + b.first) b.order = .ok kmem' ∧
      Sound n blocks startHeap free' held kmem' := by
  have horder : Within b.order := h.within (Or.inr (Or.inl rfl))
  have hsub : maxOrd - (maxOrd - b.order) = b.order := Nat.sub_sub_self horder.2
  have haligned : 2 ^ b.order ∣ startHeap + b.first :=
    (Nat.dvd_add_right ((Nat.pow_dvd_pow 2 horder.2).trans hroom.aligned)).mpr (Nat.dvd_mul_left ..)
  have hmask : (startHeap + b.first) &&& ((1 <<< b.order) - 1) = 0 := by
    rw [Nat.one_shiftLeft, Nat.and_two_pow_sub_one_eq_mod]
    exact Nat.mod_eq_zero_of_dvd haligned
  have hchecked : ¬(b.order > maxOrd ∨ b.order < minOrd ∨
      (startHeap + b.first) &&& ((1 <<< b.order) - 1) ≠ 0) :=
    not_or_intro (Nat.not_lt.mpr horder.2)
      (not_or_intro (Nat.not_lt.mpr horder.1) (not_not_intro hmask))
  rw [kfree, if_neg hchecked]
  exact kfreeFrom_spec hroom h hb hsub (Nat.sub_le ..)

end Calls

end Xv6.Buddy
