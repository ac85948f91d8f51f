import Xv6.Buddy.Blocks
import Xv6.Lib.Transition

/-!
# Runs of the buddy allocator

`kmem_init2` builds the coarsest tiling of the heap, all of it free. From there any calls of `kmalloc`,
and of `kfree` with a block and the order that it was allocated with, keep the free and the live
blocks a tiling.
-/

namespace Xv6.Buddy

open Dyadic

/-! ### The start -/

/-- What `kmem_init2` has set up: the orders from `i` on. -/
def Blank (n i : Nat) (kmem : Kmem) : Prop := ∀ order, Within order → i ≤ order - minOrd →
  kmem.head order = nil ∧ (kmem.orders (order - minOrd)).offset = offsetOf n order ∧
    ∀ idx < count n order, kmem.getMark order idx = ⟨lnksOf nil nil, 0⟩

theorem Blank.congr {n i : Nat} {kmem kmem' : Kmem} (h : Blank n i kmem)
    (horders : kmem'.orders = kmem.orders) (hmarks : kmem'.marks = kmem.marks) : Blank n i kmem' := by
  intro order horder hge
  simp only [Kmem.head, Kmem.getMark, horders, hmarks]
  exact h order horder hge

theorem foldl_setMark (order : Nat) (mk : Mark) (kmem : Kmem) (m : Nat) :
    (List.range m).foldl (fun kmem j => kmem.setMark order j mk) kmem =
      { kmem with
        marks := fun slot =>
          if (kmem.orders (order - minOrd)).offset ≤ slot ∧
            slot < (kmem.orders (order - minOrd)).offset + m then mk else kmem.marks slot } := by
  induction m with
  | zero =>
      have hmarks : kmem.marks = fun slot =>
          if (kmem.orders (order - minOrd)).offset ≤ slot ∧
            slot < (kmem.orders (order - minOrd)).offset + 0 then mk else kmem.marks slot := by
        funext slot
        rw [if_neg (by omega)]
      rw [← hmarks]
      rfl
  | succ m ih =>
      rw [List.range_succ, List.foldl_append, ih, List.foldl_cons, List.foldl_nil, Kmem.setMark]
      congr 1
      funext slot
      rw [Function.update_apply]
      dsimp only
      by_cases heq : slot = (kmem.orders (order - minOrd)).offset + m
      · rw [if_pos heq, if_pos (by omega)]
      · rw [if_neg heq]
        exact if_congr (by omega) rfl rfl

theorem initOrders_spec {n : Nat} : ∀ {i total m : Nat} {kmem : Kmem}, i ≤ nOrd →
    total = n * (2 ^ (nOrd - i) - 1) → m = n * 2 ^ (nOrd - i) → Blank n i kmem →
    ∃ kmem', initOrders i total m kmem = (n * (2 ^ nOrd - 1), kmem') ∧ Blank n 0 kmem' ∧
      kmem'.start = kmem.start ∧ kmem'.limit = kmem.limit := by
  intro i
  induction i with
  | zero =>
      rintro total m kmem - rfl rfl hblank
      exact ⟨kmem, rfl, hblank, rfl, rfl⟩
  | succ i ih =>
      intro total m kmem hi htotal hm hblank
      have hpow : nOrd - i = nOrd - (i + 1) + 1 := by omega
      have hpos : 0 < 2 ^ (nOrd - (i + 1)) := Nat.two_pow_pos _
      have hnOrd : nOrd = maxOrd - minOrd + 1 := rfl
      have hle : minOrd ≤ maxOrd := by decide
      have hwithin : Within (i + minOrd) := ⟨Nat.le_add_left .., by omega⟩
      have hexp : maxOrd - (i + minOrd) = nOrd - (i + 1) := by omega
      have hcount : m = count n (i + minOrd) := by rw [hm, count, hexp]
      have hoffset : total = offsetOf n (i + minOrd) := by rw [htotal, offsetOf, hexp]
      rw [initOrders, foldl_setMark]
      dsimp only
      have hnext : total + m = n * (2 ^ (nOrd - i) - 1) := by
        rw [htotal, hm, hpow, Nat.pow_succ, ← Nat.mul_add]
        exact congrArg (n * ·) (by omega)
      have hdouble : m <<< 1 = n * 2 ^ (nOrd - i) := by
        rw [hm, hpow, Nat.pow_succ, Nat.shiftLeft_eq, Nat.mul_assoc, Nat.pow_one]
      refine @ih (total + m) (m <<< 1) _ (Nat.le_of_succ_le hi) hnext hdouble ?_
      intro order horder hge
      by_cases heq : order = i + minOrd
      · -- the order that has just been set up
        subst heq
        have hself : i + minOrd - minOrd = i := Nat.add_sub_cancel ..
        simp only [Kmem.head, Kmem.getMark, hself, Function.update_self]
        refine ⟨trivial, hoffset, fun idx hidx => if_pos ⟨Nat.le_add_right .., ?_⟩⟩
        exact Nat.add_lt_add_left (hcount ▸ hidx) _
      · have hne : order - minOrd ≠ i := fun heq' => heq (by have := horder.1; omega)
        obtain ⟨hhead, hoff, hmarks⟩ := hblank order horder (by omega)
        simp only [Kmem.head, Kmem.getMark, Function.update_of_ne hne] at hhead hmarks ⊢
        refine ⟨hhead, hoff, fun idx hidx => ?_⟩
        rw [← hmarks idx hidx, hoff]
        refine if_neg fun hin => ?_
        have hself : i + minOrd - minOrd = i := Nat.add_sub_cancel ..
        rw [hself, Function.update_self] at hin
        dsimp only at hin
        rw [hoffset, hcount] at hin
        obtain ⟨j, hj⟩ := Nat.exists_eq_add_of_le hin.1
        have hslot := slot_injective horder hwithin hidx (by omega) hj
        exact heq hslot.1

theorem Blank.marked {n : Nat} {kmem : Kmem} (h : Blank n 0 kmem) : Marked n ∅ kmem where
  table := fun order horder => (h order horder (Nat.zero_le _)).2.1
  range := fun _ hmem => absurd hmem (Set.notMem_empty _)
  bits := by
    intro order blkId horder hidx
    obtain ⟨-, -, hmarks⟩ := h order horder (Nat.zero_le _)
    rw [hmarks _ hidx, available_eq]
    exact iff_of_false (by simp) (Set.notMem_empty _)
  lists := by
    intro order horder
    obtain ⟨hhead, -, hmarks⟩ := h order horder (Nat.zero_le _)
    refine ⟨[], ⟨List.nodup_nil, ?_, trivial, fun idx hidx => absurd hidx List.not_mem_nil⟩,
      fun idx hidx => ?_⟩
    · rw [hhead, link_nil, List.head?_nil]
    · rw [hmarks idx hidx]
      exact iff_of_false List.not_mem_nil (not_not_intro rfl)

def marksFor (vstart vend : Nat) : Nat := ((vend - vstart) >>> (maxOrd + 5)) + 1

def heapStart (vstart vend : Nat) : Nat :=
  alignUp (vstart + marksFor vstart vend * (2 ^ nOrd - 1) * sizeofMark) (1 <<< maxOrd)

def heapBlocks (vstart vend : Nat) : Nat := (vend - heapStart vstart vend) / 2 ^ maxOrd

/-- What `kmem_init2` is called with: the end is aligned to the largest block, an index is left over
for the end of a list, and the addresses do not wrap around. -/
structure Range (vstart vend : Nat) : Prop where
  le : vstart ≤ vend
  lt : vend < 2 ^ 32
  aligned : 2 ^ maxOrd ∣ vend
  indexed : marksFor vstart vend * 2 ^ (maxOrd - minOrd) < nil
  noWrap : heapStart vstart vend < 2 ^ 32

variable {vstart vend : Nat}

theorem Range.room (h : Range vstart vend) :
    Room (marksFor vstart vend) (heapBlocks vstart vend) (heapStart vstart vend) where
  indexed := fun order horder => by
    have hpow : 2 ^ (maxOrd - order) ≤ 2 ^ (maxOrd - minOrd) :=
      Nat.pow_le_pow_right (by decide) (Nat.sub_le_sub_left horder.1 maxOrd)
    exact (Nat.mul_le_mul_left _ hpow).trans h.indexed.le
  le := by
    have hmarks : marksFor vstart vend = (vend - vstart) / 131072 + 1 :=
      congrArg (· + 1) (Nat.shiftRight_eq_div_pow (vend - vstart) 17)
    have hstart : vstart ≤ heapStart vstart vend := by
      have hup : heapStart vstart vend =
          (vstart + marksFor vstart vend * 127 * 8 + 4096 - 1) / 4096 * 4096 := rfl
      omega
    have hblocks : heapBlocks vstart vend = (vend - heapStart vstart vend) / 4096 := rfl
    omega
  aligned := Nat.dvd_mul_left ..
  pos := by
    have hmarks : marksFor vstart vend = (vend - vstart) / 131072 + 1 :=
      congrArg (· + 1) (Nat.shiftRight_eq_div_pow (vend - vstart) 17)
    have hup : heapStart vstart vend =
        (vstart + marksFor vstart vend * 127 * 8 + 4096 - 1) / 4096 * 4096 := rfl
    omega
  lt := by
    have hblocks : heapBlocks vstart vend = (vend - heapStart vstart vend) / 4096 := rfl
    have hpow : 2 ^ maxOrd = 4096 := rfl
    have hlt := h.lt
    have hno := h.noWrap
    rw [hpow, hblocks]
    omega

def pending (blocks i : Nat) : Set Block := {b | b.order = maxOrd ∧ i ≤ b.id ∧ b.id < blocks}

theorem pending_eq_insert {blocks i : Nat} (hi : i < blocks) :
    pending blocks i = insert ⟨maxOrd, i⟩ (pending blocks (i + 1)) := by
  ext ⟨order, id⟩
  simp only [pending, Set.mem_insert_iff, Set.mem_ofPred_eq, Block.mk.injEq]
  omega

theorem freeBlocks_spec {n blocks startHeap : Nat} (hroom : Room n blocks startHeap) {kmem : Kmem}
    (h : Sound n blocks startHeap ∅ (pending blocks 0) kmem) : ∀ {m : Nat}, m ≤ blocks →
    ∃ kmem' free, (List.range m).foldlM
        (fun kmem j => kfree kmem (kmem.startHeap + j * (1 <<< maxOrd)) maxOrd) kmem = .ok kmem' ∧
      Sound n blocks startHeap free (pending blocks m) kmem' := by
  intro m
  induction m with
  | zero => exact fun _ => ⟨kmem, ∅, rfl, h⟩
  | succ m ih =>
      intro hm
      obtain ⟨kmem', free, hloop, hsound⟩ := ih (Nat.le_of_succ_le hm)
      rw [pending_eq_insert hm] at hsound
      have hout : (⟨maxOrd, m⟩ : Block) ∉ pending blocks (m + 1) := fun hmem =>
        absurd hmem.2.1 (Nat.not_succ_le_self m)
      obtain ⟨kmem'', free', hfree, hsound'⟩ := kfree_spec hroom hsound hout
      refine ⟨kmem'', free', ?_, hsound'⟩
      rw [List.range_succ, List.foldlM_append, hloop]
      change ((kfree kmem' (kmem'.startHeap + m * (1 <<< maxOrd)) maxOrd).bind fun kmem => .ok kmem) = _
      rw [hsound.start, Nat.one_shiftLeft]
      exact congrArg (fun ends => ends.bind fun kmem => .ok kmem) hfree

theorem pending_zero (blocks : Nat) : pending blocks 0 = coarsest maxOrd blocks := by
  ext b
  exact and_congr_right fun _ => and_iff_right (Nat.zero_le _)

theorem pending_self (blocks : Nat) : pending blocks blocks = ∅ := by
  ext b
  refine ⟨fun hb => ?_, fun hb => absurd hb (Set.notMem_empty b)⟩
  exact absurd hb.2.2 (Nat.not_lt.mpr hb.2.1)

theorem Sound.free_eq {n blocks startHeap : Nat} {free : Set Block} {kmem : Kmem}
    (h : Sound n blocks startHeap free ∅ kmem) : free = coarsest maxOrd blocks := by
  have htiles := h.tiles
  rw [Set.union_empty] at htiles
  exact htiles.eq_coarsest h.buddies

theorem kmemInit2_spec (hrange : Range vstart vend) (kmem : Kmem) :
    ∃ kmem', kmemInit2 kmem vstart vend = .ok kmem' ∧
      Sound (marksFor vstart vend) (heapBlocks vstart vend) (heapStart vstart vend)
        (coarsest maxOrd (heapBlocks vstart vend)) ∅ kmem' := by
  have hn : marksFor vstart vend = marksFor vstart vend * 2 ^ (nOrd - nOrd) := by
    rw [Nat.sub_self, Nat.pow_zero, Nat.mul_one]
  obtain ⟨blank, hinit, hblank, hstart, hlimit⟩ := @initOrders_spec (marksFor vstart vend) nOrd 0
    (marksFor vstart vend) { kmem with start := vstart, limit := vend } le_rfl (by simp) hn
    fun order horder hge => by
      have hnOrd : nOrd = maxOrd - minOrd + 1 := rfl
      have hle := horder.2
      omega
  let start : Kmem := { blank with startHeap := heapStart vstart vend }
  have hstartBlank : Blank (marksFor vstart vend) 0 start := hblank.congr rfl rfl
  have hsound : Sound (marksFor vstart vend) (heapBlocks vstart vend) (heapStart vstart vend) ∅
      (pending (heapBlocks vstart vend) 0) start := by
    refine ⟨hstartBlank.marked, rfl, fun _ hmem => absurd hmem (Set.notMem_empty _), ?_,
      fun _ hmem => absurd hmem (Set.notMem_empty _)⟩
    rw [Set.empty_union, pending_zero]
    exact .coarsest (by decide)
  obtain ⟨kmem', free, hloop, hdone⟩ := freeBlocks_spec hrange.room hsound le_rfl
  rw [pending_self] at hdone
  refine ⟨kmem', ?_, hdone.free_eq ▸ hdone⟩
  have hcount : (blank.limit - heapStart vstart vend + (1 <<< maxOrd) - 1) / (1 <<< maxOrd) =
      heapBlocks vstart vend := by
    have haligned : 4096 ∣ vend - heapStart vstart vend := Nat.dvd_sub hrange.aligned hrange.room.aligned
    have hpow : 1 <<< maxOrd = 4096 := rfl
    have hblocks : heapBlocks vstart vend = (vend - heapStart vstart vend) / 4096 := rfl
    rw [hlimit, hpow, hblocks]
    dsimp only
    omega
  have hstart' : alignUp (blank.start + marksFor vstart vend * (2 ^ nOrd - 1) * sizeofMark)
      (1 <<< maxOrd) = heapStart vstart vend := by rw [hstart, heapStart]
  rw [kmemInit2]
  dsimp only
  rw [← marksFor, hinit]
  dsimp only
  rw [hstart', hcount]
  exact hloop

/-! ### Runs -/

structure State where
  kmem : Kmem
  /-- The blocks that are handed out, by address and order. -/
  live : List (Nat × Nat)
  /-- The message of `panic`. -/
  panicked : Option String

inductive Action where
  | kmalloc (order : Nat)
  | kfree (mem order : Nat)

/-- A call. Only a live block is freed, with the order that it was allocated with. -/
def step (s : State) : Action → Option State
  | .kmalloc order =>
      if s.panicked.isSome then none else
      match kmalloc s.kmem order with
      | .error message => some { s with panicked := some message }
      | .ok (mem, kmem) =>
          some { s with kmem := kmem, live := if mem = 0 then s.live else (mem, order) :: s.live }
  | .kfree mem order =>
      if s.panicked.isSome ∨ (mem, order) ∉ s.live then none else
      match kfree s.kmem mem order with
      | .error message => some { s with panicked := some message }
      | .ok kmem => some { s with kmem := kmem, live := s.live.erase (mem, order) }

def held (startHeap : Nat) (live : List (Nat × Nat)) : Set Block :=
  {b | (startHeap + b.first, b.order) ∈ live}

/-- **The invariant**: what is handed out is held. -/
structure Inv (n blocks startHeap : Nat) (s : State) : Prop where
  calm : s.panicked = none
  nodup : s.live.Nodup
  place : ∀ mem order, (mem, order) ∈ s.live → ∃ b : Block, mem = startHeap + b.first ∧ order = b.order
  sound : ∃ free, Sound n blocks startHeap free (held startHeap s.live) s.kmem

variable {n blocks startHeap : Nat} {s s' : State} {action : Action}

theorem place_injective {b c : Block} (horder : b.order = c.order)
    (hmem : startHeap + b.first = startHeap + c.first) : b = c := by
  have hcovers : c.Covers b.first := Nat.add_left_cancel hmem ▸ c.covers_first
  exact b.covers_first.eq_of_order hcovers horder

theorem inv_step (hroom : Room n blocks startHeap) (h : Inv n blocks startHeap s)
    (horder : ∀ order, action = .kmalloc order → Within order) (hstep : step s action = some s') :
    Inv n blocks startHeap s' := by
  obtain ⟨free, hsound⟩ := h.sound
  have hcalm : ¬s.panicked.isSome = true := by rw [h.calm]; decide
  cases action with
  | kmalloc order =>
      rw [step, if_neg hcalm] at hstep
      rcases kmalloc_spec hroom hsound (horder order rfl) with
        ⟨hnone, -⟩ | ⟨b, kmem', free', hsome, rfl, hb, -, hsound'⟩
      · rw [hnone] at hstep
        obtain rfl := Option.some.inj hstep
        exact h
      · have hpos : startHeap + b.first ≠ 0 := (Nat.add_pos_left hroom.pos _).ne'
        rw [hsome] at hstep
        dsimp only at hstep
        rw [if_neg hpos] at hstep
        obtain rfl := Option.some.inj hstep
        refine ⟨h.calm, List.nodup_cons.mpr ⟨hb, h.nodup⟩, fun mem order hmem => ?_, free', ?_⟩
        · rcases List.mem_cons.mp hmem with heq | hmem
          · obtain ⟨rfl, rfl⟩ := Prod.mk.inj heq
            exact ⟨b, rfl, rfl⟩
          · exact h.place mem order hmem
        · have hheld : held startHeap ((startHeap + b.first, b.order) :: s.live) =
              insert b (held startHeap s.live) := by
            ext c
            refine List.mem_cons.trans (or_congr_left ⟨fun heq => ?_, fun heq => heq ▸ rfl⟩)
            obtain ⟨hmem, horder⟩ := Prod.mk.inj heq
            exact place_injective horder hmem
          exact hheld ▸ hsound'
  | kfree mem order =>
      by_cases hlive : (mem, order) ∈ s.live
      · rw [step, if_neg (not_or_intro hcalm (not_not_intro hlive))] at hstep
        obtain ⟨b, rfl, rfl⟩ := h.place mem order hlive
        have hheld : insert b (held startHeap (s.live.erase (startHeap + b.first, b.order))) =
            held startHeap s.live := by
          ext c
          rw [Set.mem_insert_iff]
          simp only [held, Set.mem_ofPred_eq, h.nodup.mem_erase_iff]
          refine ⟨fun hc => hc.elim (fun heq => heq ▸ hlive) And.right, fun hc => ?_⟩
          by_cases heq : c = b
          · exact Or.inl heq
          · refine Or.inr ⟨fun hpair => heq ?_, hc⟩
            obtain ⟨hmem, horder⟩ := Prod.mk.inj hpair
            exact place_injective horder hmem
        have hout : b ∉ held startHeap (s.live.erase (startHeap + b.first, b.order)) := fun hmem =>
          h.nodup.not_mem_erase hmem
        obtain ⟨kmem', free', hfree, hsound'⟩ := kfree_spec hroom (hheld.symm ▸ hsound) hout
        rw [hfree] at hstep
        obtain rfl := Option.some.inj hstep
        exact ⟨h.calm, h.nodup.erase _, fun mem order hmem =>
          h.place mem order (List.mem_of_mem_erase hmem), free', hsound'⟩
      · rw [step, if_pos (Or.inr hlive)] at hstep
        cases hstep

/-- The block is in the range of the marks and its bit is set. -/
def Kmem.Free (kmem : Kmem) (n order blkId : Nat) : Prop :=
  Within order ∧ blkId / 32 < count n order ∧
    available (kmem.getMark order (blkId / 32)).bitmap blkId = true

/-- **The heap is intact**, between `startHeap` and `limit`, with `n` marks for the largest order. -/
structure Intact (n startHeap limit : Nat) (start : Kmem) (s : State) : Prop where
  /-- None of the panics is reached. -/
  calm : s.panicked = none
  nodup : s.live.Nodup
  /-- A live block is aligned to its size and inside the heap. -/
  inside : ∀ mem order, (mem, order) ∈ s.live →
    Within order ∧ startHeap ≤ mem ∧ mem + 2 ^ order ≤ limit ∧ 2 ^ order ∣ mem
  apart : ∀ mem order blkId, (mem, order) ∈ s.live → s.kmem.Free n order blkId →
    mem ≠ s.kmem.blkid2mem order blkId
  /-- Each byte is in one block, a live or a free one. -/
  covered : ∀ x, startHeap ≤ x → x < limit → ∃! block : Nat × Nat,
    (block ∈ s.live ∨ ∃ blkId, s.kmem.Free n block.2 blkId ∧
      block.1 = s.kmem.blkid2mem block.2 blkId) ∧ block.1 ≤ x ∧ x < block.1 + 2 ^ block.2
  /-- The list of an order has the marks with a set bit. -/
  listed : ∀ order, Within order → ∃ list, Chained n order s.kmem list ∧
    ∀ idx < count n order, idx ∈ list ↔ (s.kmem.getMark order idx).bitmap ≠ 0
  /-- No two buddies are free. -/
  merged : ∀ order blkId, order < maxOrd → s.kmem.Free n order blkId →
    ¬s.kmem.Free n order (blkId ^^^ 1)
  /-- `kmalloc` fails just where no block is large enough. -/
  exhausted : ∀ order, Within order → ((∃ kmem, kmalloc s.kmem order = .ok (0, kmem)) ↔
    ∀ larger blkId, order ≤ larger → ¬s.kmem.Free n larger blkId)
  /-- Once everything is given back, the free blocks are those of the start. -/
  restored : s.live = [] → ∀ order blkId, s.kmem.Free n order blkId ↔ start.Free n order blkId

theorem Sound.free_iff {free held : Set Block} {kmem : Kmem}
    (h : Sound n blocks startHeap free held kmem) (order blkId : Nat) :
    kmem.Free n order blkId ↔ ⟨order, blkId⟩ ∈ free := by
  constructor
  · rintro ⟨horder, hidx, hset⟩
    exact (h.marked.bits horder hidx).mp hset
  · intro hmem
    obtain ⟨horder, hidx⟩ : Within order ∧ blkId / 32 < count n order := h.marked.range _ hmem
    exact ⟨horder, hidx, (h.marked.bits horder hidx).mpr hmem⟩

theorem Inv.intact (hroom : Room n blocks startHeap) {limit : Nat}
    (hlimit : limit - startHeap = blocks * 2 ^ maxOrd) {start : Kmem}
    (hstart : Sound n blocks startHeap (coarsest maxOrd blocks) ∅ start)
    (h : Inv n blocks startHeap s) : Intact n startHeap limit start s := by
  obtain ⟨free, hsound⟩ := h.sound
  have hplace : ∀ order blkId, s.kmem.blkid2mem order blkId = startHeap + (⟨order, blkId⟩ : Block).first :=
    fun order blkId => hsound.start ▸ blkid2mem_eq s.kmem ⟨order, blkId⟩
  refine ⟨h.calm, h.nodup, fun mem order hlive => ?_, fun mem order blkId hlive hfree heq => ?_,
    fun x hge hlt => ?_, fun order horder => hsound.marked.lists horder,
    fun order blkId hlt hfree hbuddy => ?_, fun order horder => ?_, fun hnil order blkId => ?_⟩
  · obtain ⟨b, rfl, rfl⟩ := h.place mem order hlive
    have hmem : b ∈ free ∪ held startHeap s.live := Or.inr hlive
    have hwithin := hsound.within hmem
    have hlast : b.first + 2 ^ b.order - 1 < blocks * 2 ^ maxOrd := by
      refine hsound.tiles.inside b hmem (Block.covers_iff.mpr ?_)
      have hpos : 0 < 2 ^ b.order := Nat.two_pow_pos _
      omega
    refine ⟨hwithin, Nat.le_add_right .., by omega, ?_⟩
    exact (Nat.dvd_add_right ((Nat.pow_dvd_pow 2 hwithin.2).trans hroom.aligned)).mpr
      (Nat.dvd_mul_left ..)
  · rw [hplace] at heq
    rw [heq] at hlive
    exact hsound.apart _ ((hsound.free_iff order blkId).mp hfree) hlive
  · obtain ⟨b, hmem, hcovers⟩ := hsound.tiles.covered (show x - startHeap < blocks * 2 ^ maxOrd by omega)
    have hrange := Block.covers_iff.mp hcovers
    have hle : startHeap + b.first ≤ x := by omega
    have hlt' : x < startHeap + b.first + 2 ^ b.order := by omega
    refine ⟨(startHeap + b.first, b.order), ⟨?_, hle, hlt'⟩, ?_⟩
    · rcases hmem with hfree | hheld
      · exact Or.inr ⟨b.id, (hsound.free_iff ..).mpr hfree, (hplace ..).symm⟩
      · exact Or.inl hheld
    · rintro ⟨mem, order⟩ ⟨hblock, hle, hlt'⟩
      dsimp only at hblock hle hlt'
      have hother : ∃ c ∈ free ∪ held startHeap s.live, mem = startHeap + c.first ∧ order = c.order := by
        rcases hblock with hlive | ⟨blkId, hfree, rfl⟩
        · obtain ⟨c, rfl, rfl⟩ := h.place mem order hlive
          exact ⟨c, Or.inr hlive, rfl, rfl⟩
        · exact ⟨⟨order, blkId⟩, Or.inl ((hsound.free_iff ..).mp hfree), hplace .., rfl⟩
      obtain ⟨c, hc, rfl, rfl⟩ := hother
      obtain rfl := hsound.tiles.unique hc hmem
        (Block.covers_iff.mpr (by omega)) hcovers
      rfl
  · exact hsound.buddies _ ((hsound.free_iff ..).mp hfree) hlt ((hsound.free_iff ..).mp hbuddy)
  · rcases kmalloc_spec hroom hsound horder with
      ⟨hnone, hsmaller⟩ | ⟨b, kmem', free', hsome, hb, -, ⟨c, hc, hle⟩, -⟩
    · refine iff_of_true ⟨_, hnone⟩ fun larger blkId hle hfree => ?_
      exact absurd (hsmaller _ ((hsound.free_iff ..).mp hfree)) (Nat.not_lt.mpr hle)
    · refine iff_of_false ?_ fun hnone => hnone c.order c.id (hb ▸ hle) ((hsound.free_iff ..).mpr hc)
      rintro ⟨kmem, hzero⟩
      have hpos : 0 < startHeap + b.first := Nat.add_pos_left hroom.pos _
      have heq := (Prod.mk.inj (Except.ok.inj (hsome.symm.trans hzero))).1
      omega
  · have hempty : held startHeap s.live = ∅ := by
      rw [hnil]
      exact Set.eq_empty_iff_forall_notMem.mpr fun b => List.not_mem_nil
    rw [hempty] at hsound
    rw [hsound.free_iff, hstart.free_iff, hsound.free_eq]

/-- **The buddy allocator keeps its heap.** `kmem_init2` sets it up, and any calls of `kmalloc`, for
the orders of the allocator, and of `kfree`, for live blocks, leave it intact. -/
theorem tiled_of_run (hrange : Range vstart vend) (kmem : Kmem) :
    ∃ start, kmemInit2 kmem vstart vend = .ok start ∧
      ∀ {actions s}, (∀ order, .kmalloc order ∈ actions → Within order) →
        Transition.run step ⟨start, [], none⟩ actions = some s →
          Intact (marksFor vstart vend) (heapStart vstart vend) vend start s := by
  obtain ⟨start, hinit, hstart⟩ := kmemInit2_spec hrange kmem
  refine ⟨start, hinit, fun {actions s} horders hrun => ?_⟩
  have hroom := hrange.room
  have hlimit : vend - heapStart vstart vend = heapBlocks vstart vend * 2 ^ maxOrd :=
    (Nat.div_mul_cancel (Nat.dvd_sub hrange.aligned hroom.aligned)).symm
  have hboot : Inv (marksFor vstart vend) (heapBlocks vstart vend) (heapStart vstart vend)
      ⟨start, [], none⟩ := by
    have hempty : held (heapStart vstart vend) [] = ∅ :=
      Set.eq_empty_iff_forall_notMem.mpr fun b => List.not_mem_nil
    exact ⟨rfl, List.nodup_nil, fun _ _ hmem => absurd hmem List.not_mem_nil, _, hempty ▸ hstart⟩
  have halong : Transition.Along step (fun _ action => ∀ order, action = .kmalloc order → Within order)
      ⟨start, [], none⟩ actions :=
    Transition.along_of_forall_mem fun action haction order heq => horders order (heq ▸ haction)
  have hinv := Transition.invariant_along (fun _ _ _ h horder hstep => inv_step hroom h horder hstep)
    hboot halong hrun
  exact hinv.intact hroom hlimit hstart

def junk : Kmem := ⟨0, 0, 0, fun _ => ⟨0, 0⟩, fun _ => ⟨5, 7⟩⟩

theorem smallRange : Range 0 8192 where
  le := by decide
  lt := by decide
  aligned := by decide
  indexed := by decide
  noWrap := by decide

/-- The block is halved six times, and two of the halves are joined again. -/
theorem tiled_of_run_merged : ∃ start s, kmemInit2 junk 0 8192 = .ok start ∧
    Transition.run step ⟨start, [], none⟩ [.kmalloc 6, .kmalloc 7, .kfree 4096 6] = some s ∧
    s.live = [(4224, 7)] ∧ Intact (marksFor 0 8192) (heapStart 0 8192) 8192 start s := by
  obtain ⟨start, hinit, hintact⟩ := tiled_of_run smallRange junk
  have hlive : ((kmemInit2 junk 0 8192).toOption.bind fun start =>
      (Transition.run step ⟨start, [], none⟩ [.kmalloc 6, .kmalloc 7, .kfree 4096 6]).map State.live) =
        some [(4224, 7)] := by
    decide +kernel
  rw [hinit] at hlive
  obtain ⟨s, hrun, hs⟩ := Option.map_eq_some_iff.mp hlive
  refine ⟨start, s, hinit, hrun, hs, hintact (fun order hmem => ?_) hrun⟩
  have horder : order = 6 ∨ order = 7 := by simpa using hmem
  rcases horder with rfl | rfl <;> exact ⟨by decide, by decide⟩

end Xv6.Buddy
