import Mathlib.Data.BitVec
import Mathlib.Tactic.Ring

/-!
# Division without a divide instruction

`div` of `lib/string-arm.c`: the quotient one bit at a time, from the top bit of the dividend down.
-/

namespace Xv6.Strings

/-- The quotient so far, and the partial remainder. -/
structure DivState where
  q : BitVec 32
  r : BitVec 32
  deriving DecidableEq

/-- The body of the loop, for one `i`. -/
def divBit (n d : BitVec 32) (i : Nat) (s : DivState) : DivState :=
  let r := s.r <<< 1 ||| n >>> i &&& 1
  if r ≥ d then { q := s.q ||| 1#32 <<< i, r := r - d } else { s with r := r }

/-- The loop for the `i` below `k`, downwards. -/
def divBits (n d : BitVec 32) : (k : Nat) → DivState → DivState
  | 0, s => s
  | i + 1, s => divBits n d i (divBit n d i s)

def div (n d : BitVec 32) : BitVec 32 := (divBits n d 32 { q := 0, r := 0 }).q

/-- What the loop has before the round for each `i` below `k`. -/
def divRounds (n d : BitVec 32) : (k : Nat) → DivState → List DivState
  | 0, _ => []
  | i + 1, s => s :: divRounds n d i (divBit n d i s)

variable {n d : BitVec 32} {i k : Nat} {s : DivState}

/-- The bits of `n` from `k` on are divided, and the quotient has no bit below `k`. -/
structure Divided (n d : BitVec 32) (k : Nat) (s : DivState) : Prop where
  quotient : s.q.toNat = n.toNat / 2 ^ k / d.toNat * 2 ^ k
  remainder : s.r.toNat = n.toNat / 2 ^ k % d.toNat

theorem Divided.start (n d : BitVec 32) : Divided n d 32 { q := 0, r := 0 } := by
  have hzero : n.toNat / 2 ^ 32 = 0 := Nat.div_eq_of_lt n.isLt
  constructor
  · rw [hzero, Nat.zero_div, Nat.zero_mul]
    rfl
  · rw [hzero, Nat.zero_mod]
    rfl

theorem div_two_pow (n i : Nat) : n / 2 ^ i = 2 * (n / 2 ^ (i + 1)) + n / 2 ^ i % 2 := by
  rw [pow_succ, ← Nat.div_div_eq_div_mul]
  omega

theorem Divided.two_mul_lt (h : Divided n d (i + 1) s) : 2 * s.r.toNat + 1 < 2 ^ 32 := by
  have hhead : s.r.toNat ≤ n.toNat / 2 ^ (i + 1) := by
    rw [h.remainder]
    exact Nat.mod_le _ _
  have hhalf : n.toNat / 2 ^ (i + 1) ≤ n.toNat / 2 := by
    refine Nat.div_le_div_left ?_ (by decide)
    calc 2 = 2 ^ 1 := rfl
      _ ≤ 2 ^ (i + 1) := Nat.pow_le_pow_right (by decide) (by omega)
  have hn := n.isLt
  omega

theorem shifted_toNat (hfits : 2 * s.r.toNat + 1 < 2 ^ 32) :
    (s.r <<< 1 ||| n >>> i &&& 1).toNat = 2 * s.r.toNat + n.toNat / 2 ^ i % 2 := by
  have hbit : (n >>> i &&& 1).toNat = n.toNat / 2 ^ i % 2 := by
    rw [BitVec.toNat_and, BitVec.toNat_ushiftRight, Nat.shiftRight_eq_div_pow]
    exact Nat.and_one_is_mod _
  have hshift : (s.r <<< 1).toNat = 2 ^ 1 * s.r.toNat := by
    rw [BitVec.toNat_shiftLeft, Nat.shiftLeft_eq, Nat.mod_eq_of_lt (by omega), Nat.mul_comm]
  rw [BitVec.toNat_or, hbit, hshift, ← Nat.two_pow_add_eq_or_of_lt (by omega), pow_one]

theorem setBit_toNat {q : BitVec 32} {high : Nat} (hi : i < 32) (hq : q.toNat = high * 2 ^ (i + 1)) :
    (q ||| 1#32 <<< i).toNat = (2 * high + 1) * 2 ^ i := by
  have hone : (1#32 <<< i).toNat = 2 ^ i := by
    have hlt : 2 ^ i < 2 ^ 32 := Nat.pow_lt_pow_right (by decide) hi
    rw [BitVec.toNat_shiftLeft, Nat.shiftLeft_eq, BitVec.toNat_ofNat, Nat.one_mod, Nat.one_mul,
      Nat.mod_eq_of_lt hlt]
  rw [BitVec.toNat_or, hone, hq, Nat.mul_comm high, ← Nat.two_pow_add_eq_or_of_lt
    (Nat.pow_lt_pow_right (by decide) (by omega)), pow_succ]
  ring

theorem Divided.divBit (hd : d ≠ 0) (hi : i < 32) (h : Divided n d (i + 1) s) : Divided n d i (divBit n d i s) := by
  have hpos : 0 < d.toNat := BitVec.toNat_pos_of_ne_zero hd
  have hr : s.r.toNat < d.toNat := by
    rw [h.remainder]
    exact Nat.mod_lt _ hpos
  have hbit : n.toNat / 2 ^ i % 2 < 2 := Nat.mod_lt _ (by decide)
  have hshifted := shifted_toNat (n := n) (i := i) h.two_mul_lt
  have hhead : n.toNat / 2 ^ i =
      d.toNat * (2 * (n.toNat / 2 ^ (i + 1) / d.toNat)) + (2 * s.r.toNat + n.toNat / 2 ^ i % 2) := by
    have hsplit := Nat.div_add_mod (n.toNat / 2 ^ (i + 1)) d.toNat
    rw [← h.remainder] at hsplit
    calc n.toNat / 2 ^ i = 2 * (n.toNat / 2 ^ (i + 1)) + n.toNat / 2 ^ i % 2 := div_two_pow _ _
      _ = 2 * (d.toNat * (n.toNat / 2 ^ (i + 1) / d.toNat) + s.r.toNat) + n.toNat / 2 ^ i % 2 := by rw [hsplit]
      _ = _ := by ring
  generalize n.toNat / 2 ^ i % 2 = bit at hbit hshifted hhead
  unfold Strings.divBit
  by_cases hge : s.r <<< 1 ||| n >>> i &&& 1 ≥ d
  · have hle : d.toNat ≤ 2 * s.r.toNat + bit := hshifted ▸ BitVec.le_def.mp hge
    obtain ⟨rest, hrest⟩ := Nat.exists_eq_add_of_le hle
    have hlt : rest < d.toNat := by omega
    have hhead' : n.toNat / 2 ^ i = d.toNat * (2 * (n.toNat / 2 ^ (i + 1) / d.toNat) + 1) + rest := by
      rw [hhead, hrest]
      ring
    have hquot : n.toNat / 2 ^ i / d.toNat = 2 * (n.toNat / 2 ^ (i + 1) / d.toNat) + 1 := by
      rw [hhead', Nat.mul_add_div hpos, Nat.div_eq_of_lt hlt, Nat.add_zero]
    simp only [if_pos hge]
    refine ⟨?_, ?_⟩
    · rw [hquot]
      exact setBit_toNat hi h.quotient
    · rw [BitVec.toNat_sub_of_le hge, hshifted, hrest, Nat.add_sub_cancel_left, hhead', Nat.mul_add_mod,
        Nat.mod_eq_of_lt hlt]
  · have hlt : 2 * s.r.toNat + bit < d.toNat := by
      rw [← hshifted]
      exact BitVec.lt_def.mp (BitVec.not_le.mp hge)
    have hquot : n.toNat / 2 ^ i / d.toNat = 2 * (n.toNat / 2 ^ (i + 1) / d.toNat) := by
      rw [hhead, Nat.mul_add_div hpos, Nat.div_eq_of_lt hlt, Nat.add_zero]
    simp only [if_neg hge]
    refine ⟨?_, ?_⟩
    · rw [hquot, h.quotient, pow_succ]
      ring
    · rw [hshifted, hhead, Nat.mul_add_mod, Nat.mod_eq_of_lt hlt]

theorem Divided.divBits (hd : d ≠ 0) (hk : k ≤ 32) (h : Divided n d k s) :
    (∀ before ∈ divRounds n d k s, 2 * before.r.toNat + 1 < 2 ^ 32) ∧ Divided n d 0 (divBits n d k s) := by
  induction k generalizing s with
  | zero => exact ⟨fun _ hmem => (List.not_mem_nil hmem).elim, h⟩
  | succ i ih =>
      obtain ⟨hrounds, hdone⟩ := ih (by omega) (h.divBit hd (by omega))
      exact ⟨List.forall_mem_cons.mpr ⟨h.two_mul_lt, hrounds⟩, hdone⟩

/-- **`div` divides.** For every dividend and every divisor but 0 the quotient is exact, and in no round does the
shifted remainder lose a bit. -/
theorem div_toNat (n : BitVec 32) (hd : d ≠ 0) :
    (∀ before ∈ divRounds n d 32 { q := 0, r := 0 }, 2 * before.r.toNat + 1 < 2 ^ 32) ∧
      (div n d).toNat = n.toNat / d.toNat := by
  obtain ⟨hrounds, hdone⟩ := (Divided.start n d).divBits hd (Nat.le_refl 32)
  refine ⟨hrounds, ?_⟩
  rw [div, hdone.quotient, pow_zero, Nat.div_one, Nat.mul_one]

theorem div_toNat_top : (∀ before ∈ divRounds 0xFFFFFFFF 0x80000001 32 { q := 0, r := 0 },
    2 * before.r.toNat + 1 < 2 ^ 32) ∧ (div 0xFFFFFFFF 0x80000001).toNat = 0xFFFFFFFF / 0x80000001 :=
  div_toNat 0xFFFFFFFF (by decide)

end Xv6.Strings
