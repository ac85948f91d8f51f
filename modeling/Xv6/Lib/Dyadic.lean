import Mathlib.Data.Nat.Bitwise
import Mathlib.Data.Set.Insert
import Mathlib.Order.Minimal
import Mathlib.Tactic.Common

/-!
# Dyadic blocks

The block of order `o` with number `id` is the interval of length `2 ^ o` from `id * 2 ^ o` on. Two
blocks of an order whose numbers differ in the last bit are buddies, and together they are one block
of the next order. A set of blocks tiles an interval when each point is in exactly one of them;
halving a block and joining two buddies lead from one tiling to another.
-/

namespace Dyadic

structure Block where
  order : Nat
  id : Nat
  deriving DecidableEq

namespace Block

def Covers (b : Block) (x : Nat) : Prop := x / 2 ^ b.order = b.id

def first (b : Block) : Nat := b.id * 2 ^ b.order

def buddy (b : Block) : Block := ⟨b.order, b.id ^^^ 1⟩

def parent (b : Block) : Block := ⟨b.order + 1, b.id / 2⟩

variable {b c : Block} {x y : Nat}

theorem covers_iff : b.Covers x ↔ b.first ≤ x ∧ x < b.first + 2 ^ b.order := by
  have hpos : 0 < 2 ^ b.order := Nat.two_pow_pos _
  rw [Covers, Nat.div_eq_iff hpos, first]
  omega

theorem covers_first (b : Block) : b.Covers b.first :=
  Nat.mul_div_cancel _ (Nat.two_pow_pos _)

theorem Covers.trans (hb : b.Covers x) (hc : c.Covers x) (hle : b.order ≤ c.order)
    (hy : b.Covers y) : c.Covers y := by
  obtain ⟨more, hmore⟩ := Nat.exists_eq_add_of_le hle
  rw [Covers, hmore, Nat.pow_add, ← Nat.div_div_eq_div_mul] at hc ⊢
  rw [hy, ← hb]
  exact hc

theorem Covers.eq_of_order (hb : b.Covers x) (hc : c.Covers x) (horder : b.order = c.order) :
    b = c := by
  obtain ⟨o, i⟩ := b
  obtain ⟨o', j⟩ := c
  obtain rfl : o = o' := horder
  obtain rfl : x / 2 ^ o = i := hb
  obtain rfl : x / 2 ^ o = j := hc
  rfl

theorem xor_one (id : Nat) : id ^^^ 1 = if id % 2 = 0 then id + 1 else id - 1 := by
  by_cases heven : id % 2 = 0
  · rw [if_pos heven]
    exact Nat.xor_one_of_even (Nat.even_iff.mpr heven)
  · rw [if_neg heven]
    exact Nat.xor_one_of_odd (Nat.odd_iff.mpr (Nat.mod_two_ne_zero.mp heven))

@[simp]
theorem buddy_buddy (b : Block) : b.buddy.buddy = b := by
  have hid : b.id ^^^ 1 ^^^ 1 = b.id := by rw [Nat.xor_assoc, Nat.xor_self, Nat.xor_zero]
  exact congrArg (Block.mk b.order) hid

@[simp]
theorem parent_buddy (b : Block) : b.buddy.parent = b.parent := by
  have hid : (b.id ^^^ 1) / 2 = b.id / 2 := by
    rw [xor_one]
    split <;> omega
  exact congrArg (Block.mk (b.order + 1)) hid

theorem buddy_ne (b : Block) : b.buddy ≠ b := by
  intro heq
  have hid : b.id ^^^ 1 = b.id := congrArg Block.id heq
  rw [xor_one] at hid
  split at hid <;> omega

theorem parent_ne (b : Block) : b.parent ≠ b := fun heq =>
  Nat.succ_ne_self b.order (congrArg Block.order heq)

theorem covers_parent : b.parent.Covers x ↔ b.Covers x ∨ b.buddy.Covers x := by
  have hhalf : x / 2 ^ (b.order + 1) = x / 2 ^ b.order / 2 := by
    rw [Nat.pow_succ, Nat.div_div_eq_div_mul]
  simp only [Covers, parent, buddy, hhalf, xor_one]
  split <;> omega

end Block

/-- Every point below `blocks * 2 ^ hi` is in exactly one block, and no other point is in any. -/
structure Tiles (lo hi blocks : Nat) (tiles : Set Block) : Prop where
  order_ge : ∀ b ∈ tiles, lo ≤ b.order
  order_le : ∀ b ∈ tiles, b.order ≤ hi
  inside : ∀ b ∈ tiles, ∀ {x}, b.Covers x → x < blocks * 2 ^ hi
  unique : ∀ {b c x}, b ∈ tiles → c ∈ tiles → b.Covers x → c.Covers x → b = c
  covered : ∀ {x}, x < blocks * 2 ^ hi → ∃ b ∈ tiles, b.Covers x

def coarsest (hi blocks : Nat) : Set Block := {b | b.order = hi ∧ b.id < blocks}

namespace Tiles

variable {lo hi blocks : Nat} {tiles : Set Block} {b : Block}

theorem coarsest (hle : lo ≤ hi) : Tiles lo hi blocks (coarsest hi blocks) where
  order_ge := fun b hb => hb.1 ▸ hle
  order_le := fun b hb => hb.1.le
  inside := by
    rintro ⟨_, id⟩ ⟨rfl, hid⟩ x hx
    exact (Nat.div_lt_iff_lt_mul (Nat.two_pow_pos _)).mp (lt_of_eq_of_lt hx hid)
  unique := fun hb hc hbx hcx => hbx.eq_of_order hcx (hb.1.trans hc.1.symm)
  covered := fun {x} hx =>
    ⟨⟨hi, x / 2 ^ hi⟩, ⟨rfl, (Nat.div_lt_iff_lt_mul (Nat.two_pow_pos _)).mpr hx⟩, rfl⟩

theorem id_lt (h : Tiles lo hi blocks tiles) (hb : b ∈ tiles) :
    b.id < blocks * 2 ^ (hi - b.order) := by
  have hfirst : b.id * 2 ^ b.order < blocks * 2 ^ hi := h.inside b hb b.covers_first
  have hpow : 2 ^ hi = 2 ^ (hi - b.order) * 2 ^ b.order := by
    rw [← Nat.pow_add, Nat.sub_add_cancel (h.order_le b hb)]
  rw [hpow, ← Nat.mul_assoc] at hfirst
  exact Nat.lt_of_mul_lt_mul_right hfirst

theorem replace (h : Tiles lo hi blocks tiles) {old new : Set Block} (hold : old ⊆ tiles)
    (horder : ∀ c ∈ new, lo ≤ c.order ∧ c.order ≤ hi)
    (hunique : ∀ {c d x}, c ∈ new → d ∈ new → c.Covers x → d.Covers x → c = d)
    (hsame : ∀ x, (∃ a ∈ old, a.Covers x) ↔ ∃ c ∈ new, c.Covers x) :
    Tiles lo hi blocks ((tiles \ old) ∪ new) where
  order_ge := fun c hc => hc.elim (fun hc => h.order_ge c hc.1) fun hc => (horder c hc).1
  order_le := fun c hc => hc.elim (fun hc => h.order_le c hc.1) fun hc => (horder c hc).2
  inside := by
    rintro c (hc | hc) x hx
    · exact h.inside c hc.1 hx
    · obtain ⟨a, ha, hax⟩ := (hsame x).mpr ⟨c, hc, hx⟩
      exact h.inside a (hold ha) hax
  unique := by
    -- a block that stays meets no new one, as it meets no old one
    have hapart : ∀ {c d x}, c ∈ tiles \ old → d ∈ new → c.Covers x → ¬d.Covers x := by
      intro c d x hc hd hcx hdx
      obtain ⟨a, ha, hax⟩ := (hsame x).mpr ⟨d, hd, hdx⟩
      exact hc.2 (h.unique hc.1 (hold ha) hcx hax ▸ ha)
    rintro c d x (hc | hc) (hd | hd) hcx hdx
    · exact h.unique hc.1 hd.1 hcx hdx
    · exact absurd hdx (hapart hc hd hcx)
    · exact absurd hcx (hapart hd hc hdx)
    · exact hunique hc hd hcx hdx
  covered := by
    intro x hx
    obtain ⟨a, ha, hax⟩ := h.covered hx
    by_cases hmem : a ∈ old
    · obtain ⟨c, hc, hcx⟩ := (hsame x).mp ⟨a, hmem, hax⟩
      exact ⟨c, Or.inr hc, hcx⟩
    · exact ⟨a, Or.inl ⟨ha, hmem⟩, hax⟩

theorem halve (h : Tiles lo hi blocks tiles) (hparent : b.parent ∈ tiles) (hlo : lo ≤ b.order) :
    Tiles lo hi blocks ((tiles \ {b.parent}) ∪ {b, b.buddy}) := by
  have hhi : b.order ≤ hi := (Nat.le_succ _).trans (h.order_le _ hparent)
  refine h.replace (Set.singleton_subset_iff.mpr hparent) ?_ ?_ fun x => ?_
  · rintro c (rfl | rfl) <;> exact ⟨hlo, hhi⟩
  · rintro c d x (rfl | rfl) (rfl | rfl) hcx hdx <;> exact hcx.eq_of_order hdx rfl
  · simp only [Set.mem_singleton_iff, exists_eq_left, Set.mem_insert_iff, or_and_right, exists_or,
      Block.covers_parent]

theorem join (h : Tiles lo hi blocks tiles) (hb : b ∈ tiles) (hbuddy : b.buddy ∈ tiles)
    (hhi : b.order < hi) : Tiles lo hi blocks ((tiles \ {b, b.buddy}) ∪ {b.parent}) := by
  refine h.replace (Set.insert_subset hb (Set.singleton_subset_iff.mpr hbuddy)) ?_ ?_ fun x => ?_
  · rintro c rfl
    exact ⟨(h.order_ge b hb).trans (Nat.le_succ _), hhi⟩
  · rintro c d x rfl rfl _ _
    rfl
  · simp only [Set.mem_singleton_iff, exists_eq_left, Set.mem_insert_iff, or_and_right, exists_or,
      Block.covers_parent]

theorem eq_coarsest (h : Tiles lo hi blocks tiles)
    (hnone : ∀ b ∈ tiles, b.order < hi → b.buddy ∉ tiles) : tiles = Dyadic.coarsest hi blocks := by
  have htop : ∀ b ∈ tiles, b.order = hi := by
    by_contra! hex
    -- take a smallest block: what covers its buddy is not smaller, so it is the buddy or both
    obtain ⟨b, ⟨hb, hne⟩, hmin⟩ := exists_minimalFor_of_wellFoundedLT
      (fun b : Block => b ∈ tiles ∧ b.order ≠ hi) Block.order hex
    have hlt : b.order < hi := lt_of_le_of_ne (h.order_le b hb) hne
    have hparent : b.parent.Covers b.first := Block.covers_parent.mpr (Or.inl b.covers_first)
    have hother : b.parent.Covers b.buddy.first :=
      Block.covers_parent.mpr (Or.inr b.buddy.covers_first)
    have hinside : b.buddy.first < blocks * 2 ^ hi := by
      have hroot : Block.Covers ⟨hi, b.first / 2 ^ hi⟩ b.first := rfl
      have hsame : b.buddy.first / 2 ^ hi = b.first / 2 ^ hi := hparent.trans hroot hlt hother
      have hfirst := h.inside b hb b.covers_first
      rw [← Nat.div_lt_iff_lt_mul (Nat.two_pow_pos _)] at hfirst ⊢
      rwa [hsame]
    obtain ⟨c, hc, hcx⟩ := h.covered hinside
    have hle : b.order ≤ c.order := by
      by_cases htop : c.order = hi
      · exact htop ▸ hlt.le
      · exact (Nat.le_total _ _).elim id fun hle => hmin ⟨hc, htop⟩ hle
    rcases Nat.eq_or_lt_of_le hle with heq | hlarger
    · obtain rfl := b.buddy.covers_first.eq_of_order hcx heq
      exact hnone b hb hlt hc
    · have hmeets := hother.trans hcx hlarger hparent
      obtain rfl := h.unique hb hc b.covers_first hmeets
      exact Nat.lt_irrefl _ hlarger
  ext b
  refine ⟨fun hb => ?_, fun hb => ?_⟩
  · have hid := h.id_lt hb
    rw [htop b hb, Nat.sub_self, Nat.pow_zero, Nat.mul_one] at hid
    exact ⟨htop b hb, hid⟩
  · have hinside : b.first < blocks * 2 ^ hi := by
      rw [Block.first, hb.1]
      exact Nat.mul_lt_mul_of_pos_right hb.2 (Nat.two_pow_pos _)
    obtain ⟨c, hc, hcx⟩ := h.covered hinside
    obtain rfl := b.covers_first.eq_of_order hcx (hb.1.trans (htop c hc).symm)
    exact hc

end Tiles

end Dyadic
