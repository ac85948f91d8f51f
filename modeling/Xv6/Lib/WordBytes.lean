import Mathlib.Data.BitVec

/-!
# The bytes of words

Memory that is read and written by words of `m` bytes, as bytes in little-endian order. `n` words make a
page.
-/

namespace WordBytes

variable {m n w : Nat}

def byteOf (m : Nat) (word : BitVec w) (off : Nat) : UInt8 := ⟨(word >>> (off % m * 8)).setWidth 8⟩

def storeByte (m : Nat) (word : BitVec w) (off : Nat) (byte : UInt8) : BitVec w :=
  word &&& ~~~(0xFF#w <<< (off % m * 8)) ||| byte.toBitVec.setWidth w <<< (off % m * 8)

def slot (m n : Nat) [NeZero n] (off : Nat) : Fin n := Fin.ofNat n (off / m)

def byteAt (m : Nat) [NeZero n] (words : Fin n → BitVec w) (off : Nat) : UInt8 :=
  byteOf m (words (slot m n off)) off

def storeBytes (m : Nat) [NeZero n] : (words : Fin n → BitVec w) → (off : Nat) → List UInt8 → Fin n → BitVec w
  | words, _, [] => words
  | words, off, byte :: bytes =>
      storeBytes m (Function.update words (slot m n off) (storeByte m (words (slot m n off)) off byte))
        (off + 1) bytes

def loadBytes (m : Nat) [NeZero n] (words : Fin n → BitVec w) : (off count : Nat) → List UInt8
  | _, 0 => []
  | off, count + 1 => byteAt m words off :: loadBytes m words (off + 1) count

theorem getLsbD_ff (w k : Nat) : (0xFF#w).getLsbD k = decide (k < 8 ∧ k < w) := by
  have hbits : 0xFF#w = BitVec.ofNat w (2 ^ 8 - 1) := rfl
  rw [hbits, BitVec.getLsbD_ofNat, Nat.testBit_two_pow_sub_one, Bool.decide_and, Bool.and_comm]

theorem byteOf_storeByte (hm : 0 < m) (hw : w = m * 8) (word : BitVec w) (byte : UInt8) (off k : Nat) :
    byteOf m (storeByte m word off byte) k = if k % m = off % m then byte else byteOf m word k := by
  have hk : k % m < m := Nat.mod_lt _ hm
  have hoff : off % m < m := Nat.mod_lt _ hm
  unfold byteOf storeByte
  generalize k % m = a at hk
  generalize off % m = b at hoff
  have ha : a * 8 + 8 ≤ w := by omega
  have hb : b * 8 + 8 ≤ w := by omega
  by_cases heq : a = b
  · rw [if_pos heq, heq]
    refine congrArg UInt8.ofBitVec ?_
    ext j hj
    rw [← BitVec.getLsbD_eq_getElem, ← BitVec.getLsbD_eq_getElem, BitVec.getLsbD_setWidth,
      BitVec.getLsbD_ushiftRight, BitVec.getLsbD_or, BitVec.getLsbD_and, BitVec.getLsbD_not,
      BitVec.getLsbD_shiftLeft, BitVec.getLsbD_shiftLeft, getLsbD_ff, BitVec.getLsbD_setWidth]
    have hlt : b * 8 + j < w := by omega
    have hge : ¬(b * 8 + j < b * 8) := by omega
    have hj' : j < w := by omega
    simp [hlt, hge, hj', hj, Nat.add_sub_cancel_left]
  · rw [if_neg heq]
    refine congrArg UInt8.ofBitVec ?_
    ext j hj
    rw [← BitVec.getLsbD_eq_getElem, ← BitVec.getLsbD_eq_getElem, BitVec.getLsbD_setWidth,
      BitVec.getLsbD_ushiftRight, BitVec.getLsbD_or, BitVec.getLsbD_and, BitVec.getLsbD_not,
      BitVec.getLsbD_shiftLeft, BitVec.getLsbD_shiftLeft, getLsbD_ff, BitVec.getLsbD_setWidth,
      BitVec.getLsbD_setWidth, BitVec.getLsbD_ushiftRight]
    have hlt : a * 8 + j < w := by omega
    by_cases hless : a * 8 + j < b * 8
    · simp [hlt, hless]
    · have hge : 8 ≤ a * 8 + j - b * 8 := by omega
      have hzero : byte.toBitVec.getLsbD (a * 8 + j - b * 8) = false := BitVec.getLsbD_of_ge _ _ hge
      simp [hlt, hless, hzero, Nat.not_lt.mpr hge]

section Page

variable [NeZero n] {words : Fin n → BitVec w} {bytes : List UInt8} {off k count : Nat}

theorem slot_eq_iff (hm : 0 < m) (hoff : off < n * m) (hk : k < n * m) :
    slot m n off = slot m n k ↔ off / m = k / m := by
  have hlt : ∀ {a}, a < n * m → a / m < n := fun ha => (Nat.div_lt_iff_lt_mul hm).mpr ha
  have hval : ∀ {a}, a < n * m → (slot m n a).val = a / m := fun ha => Nat.mod_eq_of_lt (hlt ha)
  rw [Fin.ext_iff, hval hoff, hval hk]

theorem byteAt_storeByte (hm : 0 < m) (hw : w = m * 8) (hoff : off < n * m) (hk : k < n * m) (byte : UInt8) :
    byteAt m (Function.update words (slot m n off) (storeByte m (words (slot m n off)) off byte)) k =
      if k = off then byte else byteAt m words k := by
  unfold byteAt
  by_cases hslot : slot m n k = slot m n off
  · have hword := (slot_eq_iff hm hk hoff).mp hslot
    have hiff : k % m = off % m ↔ k = off := by
      refine ⟨fun hmod => ?_, congrArg (· % m)⟩
      rw [← Nat.div_add_mod k m, ← Nat.div_add_mod off m, hword, hmod]
    rw [hslot, Function.update_self, byteOf_storeByte hm hw]
    exact if_congr hiff rfl rfl
  · rw [Function.update_of_ne hslot, if_neg fun heq => hslot (congrArg (slot m n) heq)]

theorem byteAt_storeBytes (hm : 0 < m) (hw : w = m * 8) (hoff : off + bytes.length ≤ n * m) (hk : k < n * m) :
    byteAt m (storeBytes m words off bytes) k =
      if off ≤ k ∧ k < off + bytes.length then bytes.getD (k - off) 0 else byteAt m words k := by
  induction bytes generalizing words off with
  | nil =>
      rw [if_neg fun hin => Nat.not_lt.mpr hin.1 hin.2]
      rfl
  | cons byte bytes ih =>
      rw [List.length_cons] at hoff ⊢
      rw [storeBytes, ih (by omega), byteAt_storeByte hm hw (by omega) hk]
      by_cases hin : off + 1 ≤ k ∧ k < off + 1 + bytes.length
      · have hnext : k - off = k - (off + 1) + 1 := by omega
        rw [if_pos hin, if_pos (by omega), hnext, List.getD_cons_succ]
      rw [if_neg hin]
      by_cases hself : k = off
      · rw [if_pos hself, if_pos (by omega), hself, Nat.sub_self, List.getD_cons_zero]
      · rw [if_neg hself, if_neg (by omega)]

theorem loadBytes_eq_map :
    loadBytes m words off count = (List.range count).map fun k => byteAt m words (off + k) := by
  induction count generalizing off with
  | zero => rfl
  | succ count ih =>
      rw [loadBytes, ih, List.range_succ_eq_map, List.map_cons, List.map_map]
      refine congrArg _ (List.map_congr_left fun k _ => ?_)
      rw [Function.comp_apply, Nat.succ_eq_add_one, Nat.add_assoc, Nat.add_comm 1 k]

end Page

end WordBytes
