import Xv6.Malloc.Allocator

/-!
# What the roundings compute

The two versions of `morecore` agree: both round a request up to the least multiple of it that is at
least 4096 units. The bounds on the unit count and on the amount handed to `sbrk` are the ones the
integer types leave.
-/

namespace Xv6.Malloc

variable {abi : Abi} {nunits nu : Nat}

/-- The least multiple of `nunits` that is at least 4096. -/
structure Chunk (nunits nu : Nat) : Prop where
  dvd : nunits ∣ nu
  le : 4096 ≤ nu
  lt : nu < 4096 + nunits

theorem Chunk.unique {other : Nat} (h : Chunk nunits nu) (h' : Chunk nunits other) :
    nu = other := by
  obtain ⟨a, rfl⟩ := h.dvd
  obtain ⟨b, rfl⟩ := h'.dvd
  have hab : a < b + 1 := by
    refine Nat.lt_of_mul_lt_mul_left (a := nunits) ?_
    calc nunits * a < 4096 + nunits := h.lt
      _ ≤ nunits * b + nunits := Nat.add_le_add_right h'.le _
      _ = nunits * (b + 1) := (Nat.mul_succ _ _).symm
  have hba : b < a + 1 := by
    refine Nat.lt_of_mul_lt_mul_left (a := nunits) ?_
    calc nunits * b < 4096 + nunits := h'.lt
      _ ≤ nunits * a + nunits := Nat.add_le_add_right h.le _
      _ = nunits * (a + 1) := (Nat.mul_succ _ _).symm
  rw [show a = b by omega]

theorem chunk_accumulate (h : 0 < nunits) {nu : Nat} (hdvd : nunits ∣ nu)
    (hlt : nu < 4096 + nunits) : Chunk nunits (accumulate nunits h nu) := by
  induction nu using accumulate.induct nunits h with
  | case1 nu hnu ih =>
      rw [accumulate, if_pos hnu]
      exact ih (Nat.dvd_add hdvd (Nat.dvd_refl _)) (by omega)
  | case2 nu hnu =>
      rw [accumulate, if_neg hnu]
      exact ⟨hdvd, by omega, hlt⟩

namespace Rounding

theorem chunk_round (rounding : Rounding) (hpos : 0 < nunits) (hlt : nunits < 4096) :
    Chunk nunits (rounding.round nunits) := by
  cases rounding with
  | shared =>
      have hmod : 4096 % nunits < nunits := Nat.mod_lt _ hpos
      have hdiv := Nat.div_add_mod 4096 nunits
      simp only [round, if_pos hlt]
      split
      case isTrue hne =>
        rw [Nat.mod_eq_of_lt (by omega)]
        refine ⟨⟨4096 / nunits + 1, ?_⟩, by omega, by omega⟩
        calc 4096 + (nunits - 4096 % nunits)
            = nunits * (4096 / nunits) + nunits := by omega
          _ = nunits * (4096 / nunits + 1) := (Nat.mul_succ _ _).symm
      case isFalse hzero =>
        exact ⟨Nat.dvd_of_mod_eq_zero (not_not.mp hzero), by omega, by omega⟩
  | armPi1 =>
      simp only [round, dif_neg (Nat.ne_of_gt hpos), if_pos hlt]
      exact chunk_accumulate hpos (Nat.dvd_zero _) (by omega)

theorem round_of_le (rounding : Rounding) (hle : 4096 ≤ nunits) :
    rounding.round nunits = nunits := by
  cases rounding with
  | shared => simp [round, if_neg (Nat.not_lt.mpr hle)]
  | armPi1 => simp [round, show nunits ≠ 0 by omega, if_neg (Nat.not_lt.mpr hle)]

theorem round_eq (rounding other : Rounding) (hpos : 0 < nunits) :
    rounding.round nunits = other.round nunits := by
  obtain hlt | hle := Nat.lt_or_ge nunits 4096
  · exact (chunk_round rounding hpos hlt).unique (chunk_round other hpos hlt)
  · rw [round_of_le rounding hle, round_of_le other hle]

theorem dvd_round (rounding : Rounding) (hpos : 0 < nunits) : nunits ∣ rounding.round nunits := by
  obtain hlt | hle := Nat.lt_or_ge nunits 4096
  · exact (chunk_round rounding hpos hlt).dvd
  · exact (round_of_le rounding hle).symm ▸ Nat.dvd_refl nunits

theorem le_round (rounding : Rounding) (hpos : 0 < nunits) : nunits ≤ rounding.round nunits := by
  obtain hlt | hle := Nat.lt_or_ge nunits 4096
  · exact Nat.le_trans (Nat.le_of_lt hlt) (chunk_round rounding hpos hlt).le
  · exact Nat.le_of_eq (round_of_le rounding hle).symm

theorem round_le {bound : Nat} (rounding : Rounding) (hpos : 0 < nunits) (hle : nunits ≤ bound)
    (hbound : 8191 ≤ bound) : rounding.round nunits ≤ bound := by
  obtain hlt | hge := Nat.lt_or_ge nunits 4096
  · have := (chunk_round rounding hpos hlt).lt
    omega
  · rwa [round_of_le rounding hge]

end Rounding

namespace Abi

theorem unit_pos (abi : Abi) : 0 < abi.unit := by cases abi <;> decide

theorem units_pos {nbytes : Nat} (h : nbytes < 2 ^ 32) : 0 < abi.units nbytes := by
  cases abi <;> simp only [units, unit, wordBits] <;> omega

/-- What the conversion to `int` can lose without making the amount negative. -/
def slack : Abi → Nat
  | ilp32 => 0
  | lp64 => 2 ^ 32

theorem limit_add_slack (abi : Abi) : abi.limit + abi.slack ≤ 2 ^ abi.wordBits := by
  cases abi <;> decide

theorem lt_of_mul_unit {n : Nat} (h : n * abi.unit < abi.limit + abi.slack) : n < 2 ^ 32 := by
  cases abi <;> simp only [unit, limit, slack] at h <;> omega

theorem units_mul_le_slack {nbytes : Nat} (h : nbytes < 2 ^ 32) :
    abi.units nbytes * abi.unit ≤ max (2 ^ 32) (abi.slack + abi.unit) := by
  cases abi <;> simp only [units, unit, wordBits, slack] <;> omega

theorem growth_eq (h : nu * abi.unit < 2 ^ 31) : abi.growth nu = (nu * abi.unit : Nat) := by
  unfold growth
  cases abi <;> simp only [unit, wordBits, Int.bmod_def] at * <;> omega

theorem le_growth (hpos : 0 < abi.growth nu)
    (hle : nu * abi.unit ≤ max (2 ^ 32) (abi.slack + abi.unit)) :
    (nu * abi.unit : Nat) ≤ abi.growth nu + abi.slack := by
  unfold growth at *
  cases abi <;> simp only [unit, wordBits, slack, Int.bmod_def] at * <;> omega

theorem offset_lt (p n : Nat) : abi.offset p n < 2 ^ abi.wordBits :=
  Nat.mod_lt _ (Nat.two_pow_pos _)

theorem offset_eq {p n : Nat} (h : p + n * abi.unit < 2 ^ abi.wordBits) :
    abi.offset p n = p + n * abi.unit := Nat.mod_eq_of_lt h

end Abi

end Xv6.Malloc
