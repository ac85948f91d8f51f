import Mathlib.Data.Nat.Size
import Mathlib.Data.Nat.Log
import Xv6.Buddy.Allocator

/-!
# The order of a size

`get_order` copies the bits of the size to the right until all bits below the first are set, so that
one more is a power of two.
-/

namespace Xv6.Buddy

/-- Each bit of `x` says whether one of the next `k` bits of `y` is set. -/
def Smeared (k y x : Nat) : Prop := ∀ i, x.testBit i = true ↔ ∃ d < k, y.testBit (i + d) = true

theorem Smeared.double {k y x : Nat} (h : Smeared k y x) : Smeared (2 * k) y (x ||| (x >>> k)) := by
  intro i
  rw [Nat.testBit_or, Nat.testBit_shiftRight, Bool.or_eq_true, h i, h (k + i)]
  constructor
  · rintro (⟨d, hd, hbit⟩ | ⟨d, hd, hbit⟩)
    · exact ⟨d, by omega, hbit⟩
    · exact ⟨k + d, by omega, by rwa [show i + (k + d) = k + i + d by omega]⟩
  · rintro ⟨d, hd, hbit⟩
    by_cases hlt : d < k
    · exact Or.inl ⟨d, hlt, hbit⟩
    · exact Or.inr ⟨d - k, by omega, by rwa [show k + i + (d - k) = i + d by omega]⟩

theorem Smeared.eq_ones {y x : Nat} (h : Smeared 32 y x) (hy : y < 2 ^ 32) : x = 2 ^ y.size - 1 := by
  apply Nat.eq_of_testBit_eq
  intro i
  rw [Nat.testBit_two_pow_sub_one, Bool.eq_iff_iff, h i, decide_eq_true_iff, Nat.lt_size]
  constructor
  · rintro ⟨d, -, hbit⟩
    exact (Nat.pow_le_pow_right (by decide) (Nat.le_add_right i d)).trans (Nat.ge_two_pow_of_testBit hbit)
  · intro hle
    obtain ⟨j, hij, hbit⟩ := Nat.exists_ge_and_testBit_of_ge_two_pow hle
    have hj : 2 ^ j < 2 ^ 32 := (Nat.ge_two_pow_of_testBit hbit).trans_lt hy
    have hlt : j < 32 := (Nat.pow_lt_pow_iff_right (by decide)).mp hj
    exact ⟨j - i, by omega, by rwa [Nat.add_sub_cancel' hij]⟩

theorem size_pred {v : Nat} (hv : 0 < v) : (v - 1).size = Nat.clog 2 v := by
  refine eq_of_forall_ge_iff fun order => ?_
  rw [Nat.size_le, Nat.clog_le_iff_le_pow (by decide)]
  omega

theorem find?_twoPow {k : Nat} (hk : k < 32) :
    (List.range 32).find? (fun ord => BitVec.twoPow 32 k &&& (1#32 <<< ord) != 0) = some k := by
  have hone : ∀ ord, 1#32 <<< ord = BitVec.twoPow 32 ord := fun _ => rfl
  rw [List.find?_range_eq_some]
  refine ⟨?_, List.mem_range.mpr hk, fun j hj => ?_⟩
  · rw [hone, BitVec.and_self, bne_iff_ne]
    intro hzero
    have hpow := BitVec.toNat_twoPow_of_lt hk
    rw [hzero] at hpow
    exact (Nat.two_pow_pos k).ne hpow
  · have hbit : (BitVec.twoPow 32 k).getLsbD j = false := by
      rw [BitVec.getLsbD_twoPow, decide_eq_false hj.ne', Bool.and_false]
    rw [hone, BitVec.and_twoPow, hbit]
    rfl

theorem find?_zero : (List.range 32).find? (fun ord => 0#32 &&& (1#32 <<< ord) != 0) = none := by
  refine List.find?_eq_none.mpr fun ord _ => ?_
  rw [BitVec.zero_and]
  decide

/-- **`get_order` gives the smallest order that is large enough**, or the size is 0 or too large. -/
theorem getOrder_eq (v : BitVec 32) :
    getOrder v = if 0 < v.toNat ∧ v.toNat ≤ 2 ^ maxOrd then .ok (max minOrd (Nat.clog 2 v.toNat))
      else .error "order too big!" := by
  let u := v - 1
  let u₁ := u ||| (u >>> 1)
  let u₂ := u₁ ||| (u₁ >>> 2)
  let u₃ := u₂ ||| (u₂ >>> 4)
  let u₄ := u₃ ||| (u₃ >>> 8)
  let u₅ := u₄ ||| (u₄ >>> 16)
  let u₆ := u₅ + 1
  have hcopy : ∀ (w : BitVec 32) k, (w ||| (w >>> k)).toNat = w.toNat ||| (w.toNat >>> k) := fun w k => by
    rw [BitVec.toNat_or, BitVec.toNat_ushiftRight]
  have hones : u₅.toNat = 2 ^ u.toNat.size - 1 := by
    have hself : Smeared 1 u.toNat u.toNat := fun i =>
      ⟨fun hbit => ⟨0, Nat.zero_lt_one, hbit⟩, fun ⟨d, hd, hbit⟩ => by
        rwa [show i + d = i by omega] at hbit⟩
    have h₁ : Smeared 2 u.toNat u₁.toNat := hcopy u 1 ▸ hself.double
    have h₂ : Smeared 4 u.toNat u₂.toNat := hcopy u₁ 2 ▸ h₁.double
    have h₃ : Smeared 8 u.toNat u₃.toNat := hcopy u₂ 4 ▸ h₂.double
    have h₄ : Smeared 16 u.toNat u₄.toNat := hcopy u₃ 8 ▸ h₃.double
    have h₅ : Smeared 32 u.toNat u₅.toNat := hcopy u₄ 16 ▸ h₄.double
    exact h₅.eq_ones u.isLt
  have hsize : u.toNat.size ≤ 32 := Nat.size_le.mpr u.isLt
  have hpos : 0 < 2 ^ u.toNat.size := Nat.two_pow_pos _
  -- one more is the power of two, or zero if that does not fit
  have hpower : u₆ = if u.toNat.size < 32 then BitVec.twoPow 32 u.toNat.size else 0#32 := by
    apply BitVec.eq_of_toNat_eq
    rw [show u₆.toNat = _ from BitVec.toNat_add u₅ 1, hones, show (1 : BitVec 32).toNat = 1 from rfl, Nat.sub_add_cancel hpos]
    by_cases hlt : u.toNat.size < 32
    · rw [if_pos hlt, BitVec.toNat_twoPow]
    · rw [if_neg hlt, show u.toNat.size = 32 by omega]
      rfl
  have hord : ((List.range 32).find? fun ord => u₆ &&& (1#32 <<< ord) != 0).getD 32 =
      u.toNat.size := by
    rw [hpower]
    by_cases hlt : u.toNat.size < 32
    · rw [if_pos hlt, find?_twoPow hlt, Option.getD_some]
    · rw [if_neg hlt, find?_zero, Option.getD_none]
      omega
  have hrun : getOrder v = if u.toNat.size < minOrd then .ok minOrd
      else if u.toNat.size > maxOrd then .error "order too big!" else .ok u.toNat.size := by
    rw [← hord]
    rfl
  rw [hrun]
  by_cases hzero : v.toNat = 0
  · -- the decrement wraps around
    have hv : v = 0#32 := BitVec.eq_of_toNat_eq hzero
    have hu : u.toNat.size = 32 := by
      simp only [u, hv]
      decide
    have hnone : ¬(0 < v.toNat ∧ v.toNat ≤ 2 ^ maxOrd) := fun hand => hand.1.ne' hzero
    rw [hu, if_neg hnone]
    rfl
  · have hu : u.toNat = v.toNat - 1 := by
      have hlt := v.isLt
      simp only [u, BitVec.toNat_sub, show (1 : BitVec 32).toNat = 1 from rfl]
      omega
    rw [hu, size_pred (Nat.pos_of_ne_zero hzero)]
    have hfits : Nat.clog 2 v.toNat ≤ maxOrd ↔ v.toNat ≤ 2 ^ maxOrd :=
      Nat.clog_le_iff_le_pow (by decide)
    by_cases hle : v.toNat ≤ 2 ^ maxOrd
    · have hmax := hfits.mpr hle
      rw [if_neg (Nat.not_lt.mpr hmax), if_pos (⟨Nat.pos_of_ne_zero hzero, hle⟩ : _ ∧ _)]
      by_cases hsmall : Nat.clog 2 v.toNat < minOrd
      · rw [if_pos hsmall, Nat.max_eq_left hsmall.le]
      · rw [if_neg hsmall, Nat.max_eq_right (Nat.not_lt.mp hsmall)]
    · have hmax : Nat.clog 2 v.toNat > maxOrd := Nat.not_le.mp (mt hfits.mp hle)
      have hmin : minOrd ≤ maxOrd := by decide
      rw [if_neg (by omega), if_pos hmax, if_neg fun hand => hle hand.2]

end Xv6.Buddy
