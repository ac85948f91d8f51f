import Mathlib.Data.BitVec
import Mathlib.Data.Nat.ModEq
import Mathlib.Logic.Function.Basic

/-!
# Circular buffers with two counters

The counters run modulo a power of two and are never reset: an element is at its number modulo the size of the buffer. As
the size divides the power of two, a counter that overflows changes nothing.
-/

/-- `nread` elements were taken out, and `nwrite` were put in. -/
structure CircularBuffer (w size : Nat) (α : Type*) where
  data : Fin size → α
  nread : BitVec w
  nwrite : BitVec w

namespace CircularBuffer

variable {w size : Nat} [NeZero size] {α : Type*}

def slot (number : BitVec w) : Fin size := Fin.ofNat size number.toNat

def count (buffer : CircularBuffer w size α) : Nat := (buffer.nwrite - buffer.nread).toNat

def contents (buffer : CircularBuffer w size α) : List α :=
  (List.range buffer.count).map fun k => buffer.data (slot (buffer.nread + BitVec.ofNat w k))

def head (buffer : CircularBuffer w size α) : α := buffer.data (slot buffer.nread)

def put (buffer : CircularBuffer w size α) (value : α) : CircularBuffer w size α :=
  { buffer with data := Function.update buffer.data (slot buffer.nwrite) value, nwrite := buffer.nwrite + 1 }

def advance (buffer : CircularBuffer w size α) : CircularBuffer w size α := { buffer with nread := buffer.nread + 1 }

def empty (value : α) : CircularBuffer w size α := ⟨fun _ => value, 0, 0⟩

variable {buffer : CircularBuffer w size α}

omit [NeZero size] in
theorem nread_add_count : buffer.nread + BitVec.ofNat w buffer.count = buffer.nwrite := by
  rw [count, BitVec.ofNat_toNat, BitVec.setWidth_eq, BitVec.add_comm, BitVec.sub_add_cancel]

omit [NeZero size] in
/-- The counters are as far apart as there are elements. -/
theorem count_eq_iff {n : Nat} (hn : n < 2 ^ w) : buffer.count = n ↔ buffer.nwrite = buffer.nread + BitVec.ofNat w n := by
  constructor
  · intro hcount
    rw [← hcount]
    exact nread_add_count.symm
  · intro hnwrite
    rw [count, hnwrite, BitVec.add_comm, BitVec.add_sub_cancel, BitVec.toNat_ofNat, Nat.mod_eq_of_lt hn]

omit [NeZero size] in
theorem count_eq_zero : buffer.count = 0 ↔ buffer.nwrite = buffer.nread := by
  rw [count_eq_iff (Nat.two_pow_pos w), BitVec.add_zero]

theorem length_contents : buffer.contents.length = buffer.count := by
  rw [contents, List.length_map, List.length_range]

theorem contents_eq_nil : buffer.contents = [] ↔ buffer.nwrite = buffer.nread := by
  rw [← List.length_eq_zero_iff, length_contents, count_eq_zero]

theorem slot_ne (hdvd : size ∣ 2 ^ w) (number : BitVec w) {i j : Nat} (hij : i < j) (hj : j < size) :
    (slot (number + BitVec.ofNat w i) : Fin size) ≠ slot (number + BitVec.ofNat w j) := by
  intro heq
  have hmod : ∀ k, (number + BitVec.ofNat w k).toNat % size = (number.toNat + k) % size := by
    intro k
    rw [BitVec.toNat_add, BitVec.toNat_ofNat, Nat.add_mod_mod, Nat.mod_mod_of_dvd _ hdvd]
  have hsame : (number.toNat + i) % size = (number.toNat + j) % size := by
    rw [← hmod, ← hmod]
    exact Fin.ext_iff.mp heq
  have hij' : i % size = j % size := Nat.ModEq.add_left_cancel' number.toNat hsame
  rw [Nat.mod_eq_of_lt (hij.trans hj), Nat.mod_eq_of_lt hj] at hij'
  exact hij.ne hij'

theorem count_put (value : α) (hcount : buffer.count < size) (hsize : size < 2 ^ w) :
    (buffer.put value).count = buffer.count + 1 := by
  rw [count_eq_iff (by omega)]
  calc buffer.nwrite + 1
      = buffer.nread + BitVec.ofNat w buffer.count + 1 := by rw [nread_add_count]
    _ = buffer.nread + BitVec.ofNat w (buffer.count + 1) := by
      rw [BitVec.add_assoc, BitVec.ofNat_add]
      rfl

theorem contents_put (value : α) (hcount : buffer.count < size) (hsize : size < 2 ^ w) (hdvd : size ∣ 2 ^ w) :
    (buffer.put value).contents = buffer.contents ++ [value] := by
  unfold contents
  rw [count_put value hcount hsize, List.range_succ, List.map_append]
  refine congrArg₂ _ (List.map_congr_left fun k hk => ?_) ?_
  · have hne := slot_ne hdvd buffer.nread (List.mem_range.mp hk) hcount
    rw [nread_add_count] at hne
    exact Function.update_of_ne hne ..
  · change [Function.update buffer.data (slot buffer.nwrite) value (slot (buffer.nread + BitVec.ofNat w buffer.count))] =
      [value]
    rw [nread_add_count, Function.update_self]

omit [NeZero size] in
theorem count_advance {n : Nat} (hcount : buffer.count = n + 1) : buffer.advance.count = n := by
  have hlt : buffer.count < 2 ^ w := BitVec.isLt _
  rw [count_eq_iff (by omega)]
  calc buffer.nwrite
      = buffer.nread + BitVec.ofNat w (1 + n) := by rw [← nread_add_count, hcount, Nat.add_comm]
    _ = buffer.nread + 1 + BitVec.ofNat w n := by
      rw [BitVec.ofNat_add, ← BitVec.add_assoc]
      rfl

theorem contents_update (value : α) (hcount : buffer.count < size) (hsize : size < 2 ^ w) (hdvd : size ∣ 2 ^ w) :
    ({ buffer with data := Function.update buffer.data (slot buffer.nwrite) value } :
      CircularBuffer w size α).contents = buffer.contents := by
  have hlast := contents_put value hcount hsize hdvd
  have hput := @contents_put w size _ α { buffer with data := Function.update buffer.data (slot buffer.nwrite) value }
    value hcount hsize hdvd
  unfold put at hput hlast
  rw [Function.update_idem, hlast] at hput
  exact (List.append_cancel_right hput).symm

theorem contents_commit (hcount : buffer.count < size) (hsize : size < 2 ^ w) (hdvd : size ∣ 2 ^ w) :
    ({ buffer with nwrite := buffer.nwrite + 1 } : CircularBuffer w size α).contents =
      buffer.contents ++ [buffer.data (slot buffer.nwrite)] := by
  have hput := contents_put (buffer.data (slot buffer.nwrite)) hcount hsize hdvd
  unfold put at hput
  rwa [Function.update_eq_self] at hput

theorem contents_eq_cons (hne : buffer.nwrite ≠ buffer.nread) :
    buffer.contents = buffer.head :: buffer.advance.contents := by
  obtain ⟨n, hcount⟩ := Nat.exists_eq_succ_of_ne_zero fun hzero => hne (count_eq_zero.mp hzero)
  unfold contents
  rw [count_advance hcount, hcount, List.range_succ_eq_map, List.map_cons, List.map_map]
  refine congrArg₂ _ ?_ (List.map_congr_left fun k _ => ?_)
  · rw [BitVec.add_zero]
    rfl
  · have hnext : buffer.nread + BitVec.ofNat w (k + 1) = buffer.nread + 1 + BitVec.ofNat w k := by
      rw [Nat.add_comm k 1, BitVec.ofNat_add, ← BitVec.add_assoc]
      rfl
    rw [Function.comp_apply, Nat.succ_eq_add_one, hnext]
    rfl

omit [NeZero size] in
theorem count_empty (value : α) : (empty value : CircularBuffer w size α).count = 0 := count_eq_zero.mpr rfl

theorem contents_empty (value : α) : (empty value : CircularBuffer w size α).contents = [] :=
  contents_eq_nil.mpr rfl

end CircularBuffer
