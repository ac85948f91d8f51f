import Mathlib.Data.List.Nodup
import Xv6.Mkfs.Tool

/-!
# What an image says

The on-disk format of `fs.h`, read off the blocks: where the dinodes are, which blocks they name, and
which bytes a file is made of. Neither the tool nor the kernel is mentioned here. The tool is proved
to write what these definitions read, and the kernel to read it.

A file owns slots, one for each of its blocks and one for its indirect block.
-/

namespace Xv6.Mkfs

/-- A place of an inode that names a block. -/
inductive Slot where
  | data (bn : Nat)
  | indirect
  deriving DecidableEq

/-- The format has this slot. -/
def Slot.Valid : Slot → Prop
  | data bn => bn < maxFile
  | indirect => True

def Slot.Used (length : Nat) : Slot → Prop
  | data bn => bn * bsize < length
  | indirect => ndirect * bsize < length

instance (length : Nat) (slot : Slot) : Decidable (slot.Used length) :=
  match slot with
  | .data _ => inferInstanceAs (Decidable (_ < _))
  | .indirect => inferInstanceAs (Decidable (_ < _))

def blocksOf (length : Nat) : Nat :=
  (length + (bsize - 1)) / bsize + if ndirect * bsize < length then 1 else 0

section Blocks

variable (block : Nat → Bytes) (sb : Superblock)

def dinodeAt (inum : Nat) : Bytes := fun i => block (sb.iblock inum) (dinodeOff inum + i)

theorem uint_dinodeAt (inum width off : Nat) : Bytes.uint width (dinodeAt block sb inum) off =
    Bytes.uint width (block (sb.iblock inum)) (dinodeOff inum + off) := Bytes.uint_shift ..

def typeOf (inum : Nat) : Nat := Bytes.uint 2 (dinodeAt block sb inum) 0

def sizeOf (inum : Nat) : Nat := Bytes.uint 4 (dinodeAt block sb inum) sizeOff

/-- `addrs` of a dinode. -/
def addrsOf (inum k : Nat) : Nat := Bytes.uint 4 (dinodeAt block sb inum) (addrOff k)

/-- The block a slot names, 0 for none, in a dinode with these `addrs`. -/
def slotAddr (addrs : Nat → Nat) : Slot → Nat
  | .indirect => addrs ndirect
  | .data bn =>
      if bn < ndirect then
        addrs bn
      else if addrs ndirect = 0 then
        0
      else
        Bytes.uint 4 (block (addrs ndirect)) (4 * (bn - ndirect))

def addrOf (inum : Nat) (slot : Slot) : Nat := slotAddr block (addrsOf block sb inum) slot

def byteOf (inum i : Nat) : UInt8 :=
  let addr := addrOf block sb inum (.data (i / bsize))
  if addr = 0 then 0 else block addr (i % bsize)

def fileOf (inum : Nat) : List UInt8 := (List.range (sizeOf block sb inum)).map (byteOf block sb inum)

end Blocks

/-! ### Order of allocation -/

/-- The slots in the order their blocks were allocated. The first has block `first`. -/
def place (first : Nat) (owners : List (Nat × Slot)) (who : Nat × Slot) : Nat :=
  if who ∈ owners then first + owners.idxOf who else 0

section Place

variable {first : Nat} {owners : List (Nat × Slot)} {who other : Nat × Slot}

theorem place_of_mem (h : who ∈ owners) : place first owners who = first + owners.idxOf who :=
  if_pos h

theorem place_of_not_mem (h : who ∉ owners) : place first owners who = 0 := if_neg h

theorem le_place (first : Nat) (h : who ∈ owners) : first ≤ place first owners who := by
  rw [place_of_mem h]
  exact Nat.le_add_right _ _

theorem place_lt (h : who ∈ owners) : place first owners who < first + owners.length := by
  rw [place_of_mem h]
  exact Nat.add_lt_add_left (List.idxOf_lt_length_iff.mpr h) _

theorem place_inj (h : who ∈ owners) (hother : other ∈ owners)
    (heq : place first owners who = place first owners other) : who = other := by
  rw [place_of_mem h, place_of_mem hother] at heq
  exact (List.idxOf_inj h).mp (Nat.add_left_cancel heq)

theorem place_append_self (h : who ∉ owners) :
    place first (owners ++ [who]) who = first + owners.length := by
  rw [place_of_mem (by simp), List.idxOf_append_of_notMem h]
  simp

theorem place_append_of_ne (hne : other ≠ who) :
    place first (owners ++ [who]) other = place first owners other := by
  by_cases hother : other ∈ owners
  · rw [place_of_mem hother, place_of_mem (List.mem_append_left _ hother),
      List.idxOf_append_of_mem hother]
  · have hnew : other ∉ owners ++ [who] := by
      simp [hother, hne]
    rw [place_of_not_mem hother, place_of_not_mem hnew]

theorem exists_place_eq {b : Nat} (hnodup : owners.Nodup) (hfirst : first ≤ b)
    (hb : b < first + owners.length) : ∃ who ∈ owners, place first owners who = b := by
  have hlt : b - first < owners.length := by omega
  refine ⟨owners[b - first], List.getElem_mem hlt, ?_⟩
  rw [place_of_mem (List.getElem_mem hlt), hnodup.idxOf_getElem]
  omega

end Place

end Xv6.Mkfs
