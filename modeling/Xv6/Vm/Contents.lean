import Mathlib.Data.BitVec
import Mathlib.Logic.Function.Basic
import Xv6.Lib.Bytes

/-!
# What is in pages and in files

Bytes in a page of 64-bit words, and in the file of a program.
-/

namespace Xv6.Vm

def storeBytes : (words : Fin 512 → BitVec 64) → (off : Nat) → List UInt8 → Fin 512 → BitVec 64
  | words, _, [] => words
  | words, off, byte :: bytes =>
      let i : Fin 512 := ⟨off / 8 % 512, Nat.mod_lt _ (Nat.succ_pos 511)⟩
      let shift := off % 8 * 8
      let word := words i &&& ~~~((0xFF : BitVec 64) <<< shift) ||| byte.toBitVec.setWidth 64 <<< shift
      storeBytes (Function.update words i word) (off + 1) bytes

def field (header : List UInt8) (width off : Nat) : Nat := Bytes.uint width (header.getD · 0) off

/-- Read data from an inode whose contents are `file`. `off` and `n` are unsigned numbers of 32 bits. -/
def readi (file : List UInt8) (off n : Nat) : List UInt8 :=
  if off > file.length ∨ (off + n) % 4294967296 < off then []
  else (file.drop off).take n

def slot (off : Nat) : Fin 512 := ⟨off / 8 % 512, Nat.mod_lt _ (Nat.succ_pos 511)⟩

def byteOf (word : BitVec 64) (off : Nat) : UInt8 := ⟨(word >>> (off % 8 * 8)).setWidth 8⟩

def loadBytes (words : Fin 512 → BitVec 64) : (off n : Nat) → List UInt8
  | _, 0 => []
  | off, n + 1 => byteOf (words (slot off)) off :: loadBytes words (off + 1) n

def untilNull : List UInt8 → List UInt8 × Bool
  | [] => ([], false)
  | byte :: bytes =>
      if byte = 0 then ([], true)
      else
        let rest := untilNull bytes
        (byte :: rest.1, rest.2)

def elfMagic : Nat := 0x464C457F

/-- `sp -= n; sp -= sp % 16`. -/
def push (sp n : Nat) : Nat :=
  let sp := (sp + 18446744073709551616 - n) % 18446744073709551616
  sp - sp % 16

/-! ### Bytes that are stored -/

def byteAt (words : Fin 512 → BitVec 64) (off : Nat) : UInt8 := byteOf (words (slot off)) off

section Bytes

variable {words words' : Fin 512 → BitVec 64} {bytes : List UInt8} {off k n : Nat}

theorem getLsbD_ff (m : Nat) : (0xFF : BitVec 64).getLsbD m = decide (m < 8) := by
  have h : (0xFF : BitVec 64) = BitVec.ofNat 64 (2 ^ 8 - 1) := rfl
  rw [h, BitVec.getLsbD_ofNat, Nat.testBit_two_pow_sub_one]
  by_cases hm : m < 8
  · simp only [hm, decide_true, Bool.and_true, decide_eq_true_eq]
    omega
  · simp only [hm, decide_false, Bool.and_false]

theorem byteOf_store (word : BitVec 64) (byte : UInt8) (off k : Nat) :
    byteOf (word &&& ~~~((0xFF : BitVec 64) <<< (off % 8 * 8)) |||
      byte.toBitVec.setWidth 64 <<< (off % 8 * 8)) k =
        if k % 8 = off % 8 then byte else byteOf word k := by
  have hk : k % 8 < 8 := Nat.mod_lt _ (Nat.succ_pos 7)
  have hoff : off % 8 < 8 := Nat.mod_lt _ (Nat.succ_pos 7)
  unfold byteOf
  generalize k % 8 = a at hk
  generalize off % 8 = b at hoff
  by_cases heq : a = b
  · rw [if_pos heq, heq]
    refine congrArg UInt8.ofBitVec ?_
    ext j hj
    rw [← BitVec.getLsbD_eq_getElem, ← BitVec.getLsbD_eq_getElem, BitVec.getLsbD_setWidth,
      BitVec.getLsbD_ushiftRight, BitVec.getLsbD_or, BitVec.getLsbD_and, BitVec.getLsbD_not,
      BitVec.getLsbD_shiftLeft, BitVec.getLsbD_shiftLeft, getLsbD_ff, BitVec.getLsbD_setWidth]
    have hlt : b * 8 + j < 64 := by omega
    have hge : ¬(b * 8 + j < b * 8) := by omega
    have hj' : j < 64 := by omega
    simp [hlt, hge, hj', hj, Nat.add_sub_cancel_left]
  · rw [if_neg heq]
    refine congrArg UInt8.ofBitVec ?_
    ext j hj
    rw [← BitVec.getLsbD_eq_getElem, ← BitVec.getLsbD_eq_getElem, BitVec.getLsbD_setWidth,
      BitVec.getLsbD_ushiftRight, BitVec.getLsbD_or, BitVec.getLsbD_and, BitVec.getLsbD_not,
      BitVec.getLsbD_shiftLeft, BitVec.getLsbD_shiftLeft, getLsbD_ff, BitVec.getLsbD_setWidth,
      BitVec.getLsbD_setWidth, BitVec.getLsbD_ushiftRight]
    have hlt : a * 8 + j < 64 := by omega
    by_cases hless : a * 8 + j < b * 8
    · simp [hlt, hless]
    · have hge : 8 ≤ a * 8 + j - b * 8 := by omega
      have hzero : byte.toBitVec.getLsbD (a * 8 + j - b * 8) = false := BitVec.getLsbD_of_ge _ _ hge
      simp [hlt, hless, hzero, Nat.not_lt.mpr hge]

theorem byteAt_storeBytes (hoff : off + bytes.length ≤ 4096) (hk : k < 4096) :
    byteAt (storeBytes words off bytes) k =
      if off ≤ k ∧ k < off + bytes.length then bytes.getD (k - off) 0 else byteAt words k := by
  induction bytes generalizing words off with
  | nil =>
      rw [if_neg fun hin => Nat.not_lt.mpr hin.1 hin.2]
      rfl
  | cons byte bytes ih =>
      rw [List.length_cons] at hoff ⊢
      unfold storeBytes
      dsimp only
      rw [ih (by omega)]
      by_cases hin : off + 1 ≤ k ∧ k < off + 1 + bytes.length
      · have hnext : k - off = k - (off + 1) + 1 := by omega
        rw [if_pos hin, if_pos (by omega), hnext, List.getD_cons_succ]
      rw [if_neg hin]
      unfold byteAt
      by_cases hself : k = off
      · rw [if_pos (by omega), hself, Nat.sub_self, List.getD_cons_zero]
        change byteOf (Function.update words (slot off) _ (slot off)) off = byte
        rw [Function.update_self]
        exact (byteOf_store _ byte off off).trans (if_pos rfl)
      rw [if_neg (by omega)]
      by_cases hslot : slot k = slot off
      · have hsame : k / 8 % 512 = off / 8 % 512 := Fin.ext_iff.mp hslot
        rw [hslot]
        change byteOf (Function.update words (slot off) _ (slot off)) k = _
        rw [Function.update_self]
        exact (byteOf_store _ byte off k).trans (if_neg (by omega))
      · change byteOf (Function.update words (slot off) _ (slot k)) k = _
        rw [Function.update_of_ne hslot]

theorem loadBytes_eq_map : loadBytes words off n = (List.range n).map fun k => byteAt words (off + k) := by
  induction n generalizing off with
  | zero => rfl
  | succ n ih =>
      rw [loadBytes, ih, List.range_succ_eq_map, List.map_cons, List.map_map]
      refine congrArg _ (List.map_congr_left fun k _ => ?_)
      rw [Function.comp_apply, Nat.succ_eq_add_one, Nat.add_assoc, Nat.add_comm 1 k]

theorem loadBytes_storeBytes (hoff : off + bytes.length ≤ 4096) :
    loadBytes (storeBytes words off bytes) off bytes.length = bytes := by
  rw [loadBytes_eq_map]
  apply List.ext_getElem
  · rw [List.length_map, List.length_range]
  · intro k hk hk'
    rw [List.getElem_map, List.getElem_range, byteAt_storeBytes hoff (by omega), if_pos (by omega),
      Nat.add_sub_cancel_left, List.getD_eq_getElem _ _ hk']

end Bytes

end Xv6.Vm
