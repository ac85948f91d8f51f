import Mathlib.Algebra.Ring.Nat
import Mathlib.Logic.Function.Basic
import Mathlib.Tactic.Common

/-!
# The buddy allocator

The allocator of `kernel/memory/arm/buddy.c`. For every order there is an array of marks at the start
of the memory; a mark has one bit for each of 32 blocks, set where the block is free, and the links of
a list of the marks with a set bit. A link is the index of a mark in 16 bits. The functions stop with
the message of `panic`; each runs under the lock of the allocator, so one call is one step.
-/

namespace Xv6.Buddy

def maxOrd : Nat := 12

def minOrd : Nat := 6

def nOrd : Nat := maxOrd - minOrd + 1

structure Mark where
  /-- The links, `uint32`. -/
  lnks : Nat
  /-- One bit for each block, set if the block is available. -/
  bitmap : BitVec 32

def preLnk (lnks : Nat) : Nat := lnks >>> 16

def nextLnk (lnks : Nat) : Nat := lnks &&& 0xFFFF

/-- `LNKS`. -/
def lnksOf (pre next : Nat) : Nat := ((pre <<< 16) ||| (next &&& 0xFFFF)) % 2 ^ 32

def nil : Nat := 0xFFFF

structure Order where
  /-- The first non-empty mark. -/
  head : Nat
  /-- The first mark. -/
  offset : Nat

structure Kmem where
  /-- Start of the memory for marks. -/
  start : Nat
  /-- Start of the memory that can be allocated. -/
  startHeap : Nat
  /-- `end`. -/
  limit : Nat
  orders : Nat → Order
  /-- The memory from `start` on, as an array of marks. -/
  marks : Nat → Mark

namespace Kmem

def getMark (kmem : Kmem) (order idx : Nat) : Mark :=
  kmem.marks ((kmem.orders (order - minOrd)).offset + idx)

/-- A store through the pointer that `get_mark` returns. -/
def setMark (kmem : Kmem) (order idx : Nat) (mk : Mark) : Kmem :=
  { kmem with
    marks := Function.update kmem.marks ((kmem.orders (order - minOrd)).offset + idx) mk }

def setLnks (kmem : Kmem) (order idx lnks : Nat) : Kmem :=
  kmem.setMark order idx { kmem.getMark order idx with lnks := lnks }

/-- `p->lnks = LNKS(PRE_LNK(p->lnks), next)` -/
def setNext (kmem : Kmem) (order idx next : Nat) : Kmem :=
  kmem.setLnks order idx (lnksOf (preLnk (kmem.getMark order idx).lnks) next)

/-- `p->lnks = LNKS(pre, NEXT_LNK(p->lnks))` -/
def setPre (kmem : Kmem) (order idx pre : Nat) : Kmem :=
  kmem.setLnks order idx (lnksOf pre (nextLnk (kmem.getMark order idx).lnks))

def setBitmap (kmem : Kmem) (order idx : Nat) (bitmap : BitVec 32) : Kmem :=
  kmem.setMark order idx { kmem.getMark order idx with bitmap := bitmap }

def head (kmem : Kmem) (order : Nat) : Nat := (kmem.orders (order - minOrd)).head

def setHead (kmem : Kmem) (order head : Nat) : Kmem :=
  { kmem with
    orders := Function.update kmem.orders (order - minOrd)
      { kmem.orders (order - minOrd) with head := head } }

def blkid2mem (kmem : Kmem) (order blkId : Nat) : Nat := kmem.startHeap + (1 <<< order) * blkId

def mem2blkid (kmem : Kmem) (order mem : Nat) : Nat := (mem - kmem.startHeap) >>> order

end Kmem

def available (bitmap : BitVec 32) (blkId : Nat) : Bool :=
  bitmap &&& (1#32 <<< (blkId &&& 0x1F)) != 0

/-- In `unmark_blk`: what points at a mark, another one or the head, points at `next`. -/
def Kmem.passOver (kmem : Kmem) (order idx prev next : Nat) : Kmem :=
  if prev ≠ nil then kmem.setNext order prev next
  -- if we are the first in the link
  else if kmem.head order = idx then kmem.setHead order next
  else kmem

/-- The end of `unmark_blk`: a mark without blocks is deleted from the list. -/
def unlinkMark (kmem : Kmem) (order idx : Nat) : Kmem :=
  let prev := preLnk (kmem.getMark order idx).lnks
  let next := nextLnk (kmem.getMark order idx).lnks
  let kmem := kmem.passOver order idx prev next
  let kmem := if next ≠ nil then kmem.setPre order next prev else kmem
  kmem.setLnks order idx (lnksOf nil nil)

def unmarkBlk (kmem : Kmem) (order blkId : Nat) : Except String Kmem :=
  let idx := blkId >>> 5
  let bitmap := (kmem.getMark order idx).bitmap
  if available bitmap blkId = false then
    .error "double alloc\n"
  else
    let bitmap := bitmap &&& ~~~(1#32 <<< (blkId &&& 0x1F))
    let kmem := kmem.setBitmap order idx bitmap
    .ok (if bitmap = 0 then unlinkMark kmem order idx else kmem)

/-- The end of `mark_blk`: a mark with its first block is inserted at the head. -/
def linkMark (kmem : Kmem) (order idx : Nat) : Kmem :=
  let kmem := kmem.setLnks order idx (lnksOf nil (kmem.head order))
  let kmem :=
    if kmem.head order ≠ nil then
      -- fix the pre pointer of the next mark
      kmem.setPre order (kmem.head order) idx
    else kmem
  kmem.setHead order idx

def markBlk (kmem : Kmem) (order blkId : Nat) : Except String Kmem :=
  let idx := blkId >>> 5
  let bitmap := (kmem.getMark order idx).bitmap
  if available bitmap blkId then
    .error "double free\n"
  else
    let kmem := kmem.setBitmap order idx (bitmap ||| (1#32 <<< (blkId &&& 0x1F)))
    .ok (if bitmap = 0 then linkMark kmem order idx else kmem)

def getBlk (kmem : Kmem) (order : Nat) : Except String (Nat × Kmem) :=
  let bitmap := (kmem.getMark order (kmem.head order)).bitmap
  if bitmap = 0 then
    .error "empty mark in the list\n"
  else
    match (List.range 32).find? fun i => bitmap &&& (1#32 <<< i) != 0 with
    | none => .ok (0, kmem)
    | some i => do
        let blkId := kmem.head order * 32 + i
        let kmem ← unmarkBlk kmem order blkId
        pure (kmem.blkid2mem order blkId, kmem)

/-- `_kfree` for the order that is `above` orders below the largest. -/
def kfreeFrom : Nat → Kmem → Nat → Except String Kmem
  | above, kmem, mem =>
      let order := maxOrd - above
      let blkId := kmem.mem2blkid order mem
      let bitmap := (kmem.getMark order (blkId >>> 5)).bitmap
      if available bitmap blkId then
        .error "kfree: double free"
      else
        -- the ids differ in the last bit, so the buddy is in the same bitmap
        let buddyId := blkId ^^^ 0x0001
        match above with
        | 0 => markBlk kmem order blkId
        | above + 1 =>
            if available bitmap buddyId then do
              -- our buddy is also free, merge it
              let kmem ← unmarkBlk kmem order buddyId
              kfreeFrom above kmem (kmem.blkid2mem order (blkId &&& 0xFFFFFFFE))
            else markBlk kmem order blkId

/-- `_kmalloc` for the order that is `above` orders below the largest. -/
def kmallocFrom : Nat → Kmem → Except String (Nat × Kmem)
  | above, kmem =>
      let order := maxOrd - above
      if kmem.head order ≠ nil then
        getBlk kmem order
      else
        match above with
        | 0 => pure (0, kmem)
        | above + 1 => do
            -- no block available, try to split a parent
            let (up, kmem) ← kmallocFrom above kmem
            if up ≠ 0 then do
              let kmem ← kfreeFrom (above + 1) kmem (up + (1 <<< order))
              pure (up, kmem)
            else pure (up, kmem)

theorem kmallocFrom_split {above : Nat} {kmem : Kmem} (hhead : kmem.head (maxOrd - (above + 1)) = nil) :
    kmallocFrom (above + 1) kmem = (do
      let (up, kmem) ← kmallocFrom above kmem
      if up ≠ 0 then do
        let kmem ← kfreeFrom (above + 1) kmem (up + (1 <<< (maxOrd - (above + 1))))
        pure (up, kmem)
      else pure (up, kmem)) := by
  rw [kmallocFrom]
  exact if_neg (not_not_intro hhead)

/-- Allocate memory that has the size of `1 << order`. -/
def kmalloc (kmem : Kmem) (order : Nat) : Except String (Nat × Kmem) :=
  if order > maxOrd ∨ order < minOrd then
    .error "kmalloc: order out of range\n"
  else kmallocFrom (maxOrd - order) kmem

/-- Free kernel memory. -/
def kfree (kmem : Kmem) (mem order : Nat) : Except String Kmem :=
  if order > maxOrd ∨ order < minOrd ∨ mem &&& ((1 <<< order) - 1) ≠ 0 then
    .error "kfree: order out of range or memory unaligned\n"
  else kfreeFrom (maxOrd - order) kmem mem

/-- The loops of `kmem_init2` over the orders below `i`, with `n` marks for the largest of them. -/
def initOrders : Nat → Nat → Nat → Kmem → Nat × Kmem
  | 0, total, _, kmem => (total, kmem)
  | i + 1, total, n, kmem =>
      let kmem := { kmem with orders := Function.update kmem.orders i ⟨nil, total⟩ }
      -- set the bitmaps to mark all blocks not available
      let kmem := (List.range n).foldl (fun kmem j =>
        kmem.setMark (i + minOrd) j ⟨lnksOf nil nil, 0⟩) kmem
      initOrders i (total + n) (n <<< 1) kmem

/-- `align_up`, for a power of two. -/
def alignUp (sz al : Nat) : Nat := (sz + al - 1) / al * al

/-- `sizeof(struct mark)`. -/
def sizeofMark : Nat := 8

def kmemInit2 (kmem : Kmem) (vstart vend : Nat) : Except String Kmem :=
  let kmem := { kmem with start := vstart, limit := vend }
  let len := kmem.limit - kmem.start
  let (total, kmem) := initOrders nOrd 0 ((len >>> (maxOrd + 5)) + 1) kmem
  -- add all available memory to the highest order bucket
  let kmem := { kmem with startHeap := alignUp (kmem.start + total * sizeofMark) (1 <<< maxOrd) }
  (List.range ((kmem.limit - kmem.startHeap + (1 <<< maxOrd) - 1) / (1 <<< maxOrd))).foldlM
    (fun kmem j => kfree kmem (kmem.startHeap + j * (1 <<< maxOrd)) maxOrd) kmem

/-- `get_order`: round up to a power of two, then the number of its bit. -/
def getOrder (v : BitVec 32) : Except String Nat :=
  let v := v - 1
  let v := v ||| (v >>> 1)
  let v := v ||| (v >>> 2)
  let v := v ||| (v >>> 4)
  let v := v ||| (v >>> 8)
  let v := v ||| (v >>> 16)
  let v := v + 1
  let ord := ((List.range 32).find? fun ord => v &&& (1#32 <<< ord) != 0).getD 32
  if ord < minOrd then .ok minOrd
  else if ord > maxOrd then .error "order too big!"
  else .ok ord

end Xv6.Buddy
