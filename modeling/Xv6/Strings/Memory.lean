import Xv6.Lib.WordBytes

/-!
# Filling and moving memory

The three `memset` of the kernels, `lib/string.c`, `lib/string-arm.c` and `lib/string-x86.c`, and `memmove` of
`lib/string.c` and of `ulib/ulib.c`. Addresses are words of `w` bits, and memory has a byte at each.
-/

namespace Xv6.Strings

open WordBytes (getLsbD_ff)

abbrev Memory (w : Nat) := BitVec w → UInt8

variable {w : Nat}

/-! ### `memset` -/

/-- An `int` as a `char`. -/
def char (c : BitVec 32) : UInt8 := ⟨c.setWidth 8⟩

/-- The loop of `memset` of `string.c`, from `i` on. `i` is an `int`, `n` is not, and they are compared unsigned. -/
def memsetFrom (cdst : BitVec w) (c n i : BitVec 32) (mem : Memory w) : Memory w :=
  if i < n then memsetFrom cdst c n (i + 1) (Function.update mem (cdst + i.signExtend w) (char c)) else mem
termination_by n.toNat - i.toNat
decreasing_by
  have hlt : i.toNat < n.toNat := BitVec.lt_def.mp ‹i < n›
  have hone : (1 : BitVec 32).toNat = 1 := rfl
  have hnext : (i + 1).toNat = i.toNat + 1 := BitVec.toNat_add_of_lt (by omega)
  omega

/-- `memset` of `string.c`. -/
def memset (mem : Memory w) (dst : BitVec w) (c n : BitVec 32) : Memory w × BitVec w :=
  (memsetFrom dst c n 0 mem, dst)

/-- `*p = c` for a `char *p`. -/
def storeChar (c : BitVec 32) (mem : Memory w) (p : BitVec w) : Memory w := Function.update mem p (char c)

/-- `*p = c` for an `int *p`. -/
def storeInt (c : BitVec 32) (mem : Memory w) (p : BitVec w) : Memory w :=
  let mem := storeChar c mem p
  let mem := storeChar (c >>> 8) mem (p + 1)
  let mem := storeChar (c >>> 16) mem (p + 2)
  storeChar (c >>> 24) mem (p + 3)

/-- `while (rc-- > 0) *p++ = c`, where the pointer moves on by `step`. -/
def fill (store : Memory w → BitVec w → Memory w) (step : BitVec w) :
    (rc : Nat) → Memory w → BitVec w → Memory w × BitVec w
  | 0, mem, p => (mem, p)
  | rc + 1, mem, p => fill store step rc (store mem p) (p + step)

def memsetw (mem : Memory w) (dst : BitVec w) (c n : BitVec 32) : Memory w × BitVec w :=
  fill (storeInt c) 4 n.toNat mem dst

def memsetb (mem : Memory w) (dst : BitVec w) (c n : BitVec 32) : Memory w × BitVec w :=
  fill (storeChar c) 1 n.toNat mem dst

/-- The low byte of a word in each of its bytes. -/
def replicate (c : BitVec 32) : BitVec 32 :=
  let c := c &&& 0xFF
  c <<< 24 ||| c <<< 16 ||| c <<< 8 ||| c

/-- `memset` of `string-arm.c`. -/
def Arm.memset (mem : Memory w) (dst : BitVec w) (c n : BitVec 32) : Memory w × BitVec w :=
  if (dst.setWidth 32).toInt.tmod 4 = 0 ∧ n % 4 = 0 then memsetw mem dst (replicate c) (n / 4)
  else memsetb mem dst c n

/-- `rep stosb`: the register that is moved on is not the caller's. -/
def stosb (mem : Memory w) (addr : BitVec w) (data cnt : BitVec 32) : Memory w :=
  (fill (storeChar data) 1 cnt.toNat mem addr).1

/-- `rep stosl`. -/
def stosl (mem : Memory w) (addr : BitVec w) (data cnt : BitVec 32) : Memory w :=
  (fill (storeInt data) 4 cnt.toNat mem addr).1

/-- `memset` of `string-x86.c`. -/
def X86.memset (mem : Memory w) (dst : BitVec w) (c n : BitVec 32) : Memory w × BitVec w :=
  (if dst % 4 = 0 ∧ n % 4 = 0 then stosl mem dst (replicate c) (n / 4) else stosb mem dst c n, dst)

/-- Memory with `count` bytes set from `dst` on. -/
def filled (mem : Memory w) (dst : BitVec w) (byte : UInt8) (count : Nat) : Memory w :=
  fun a => if (a - dst).toNat < count then byte else mem a

/-- What `memset` is to do, and to return. -/
structure Sets (mem : Memory w) (dst : BitVec w) (c n : BitVec 32) (result : Memory w × BitVec w) : Prop where
  memory : result.1 = filled mem dst (char c) n.toNat
  returned : result.2 = dst

section Fill

variable {mem : Memory w} {dst : BitVec w} {byte : UInt8} {c n : BitVec 32} {count size : Nat}

theorem filled_zero (mem : Memory w) (dst : BitVec w) (byte : UInt8) : filled mem dst byte 0 = mem := by
  funext a
  exact if_neg (Nat.not_lt_zero _)

theorem sub_toNat_eq_iff (hcount : count < 2 ^ w) (a dst : BitVec w) :
    (a - dst).toNat = count ↔ a = dst + BitVec.ofNat w count := by
  have hof : (BitVec.ofNat w count).toNat = count := by rw [BitVec.toNat_ofNat, Nat.mod_eq_of_lt hcount]
  constructor
  · intro heq
    rw [← heq, BitVec.ofNat_toNat, BitVec.setWidth_eq, BitVec.add_comm, BitVec.sub_add_cancel]
  · rintro rfl
    rw [BitVec.add_comm, BitVec.add_sub_cancel, hof]

theorem update_filled (hcount : count < 2 ^ w) (mem : Memory w) (dst : BitVec w) (byte : UInt8) :
    Function.update (filled mem dst byte count) (dst + BitVec.ofNat w count) byte = filled mem dst byte (count + 1) := by
  funext a
  have hiff := sub_toNat_eq_iff hcount a dst
  by_cases hat : a = dst + BitVec.ofNat w count
  · rw [filled, if_pos (Nat.lt_succ_of_le (hiff.mpr hat).le), hat, Function.update_self]
  · have hne : (a - dst).toNat ≠ count := fun heq => hat (hiff.mp heq)
    rw [Function.update_of_ne hat, filled, filled]
    have hlt : (a - dst).toNat < count ↔ (a - dst).toNat < count + 1 := by omega
    exact if_congr hlt rfl rfl

theorem storeChar_filled (hcount : count < 2 ^ w) (mem : Memory w) (dst : BitVec w) (c : BitVec 32) :
    storeChar c (filled mem dst (char c) count) (dst + BitVec.ofNat w count) =
      filled mem dst (char c) (count + 1) :=
  update_filled hcount mem dst (char c)

theorem getLsbD_shifted (c : BitVec 32) {s k : Nat} (hk : k < 32) :
    ((c &&& 0xFF) <<< s).getLsbD k = (decide (s ≤ k ∧ k < s + 8) && c.getLsbD (k - s)) := by
  have hff : (0xFF : BitVec 32).getLsbD (k - s) = decide (k - s < 8 ∧ k - s < 32) := getLsbD_ff 32 _
  rw [BitVec.getLsbD_shiftLeft, BitVec.getLsbD_and, hff]
  by_cases hs : s ≤ k
  · have hiff : k - s < 8 ∧ k - s < 32 ↔ s ≤ k ∧ k < s + 8 := by omega
    simp [hk, Nat.not_lt.mpr hs, hiff, Bool.and_comm]
  · simp [hk, Nat.lt_of_not_le hs, hs]

theorem getLsbD_replicate (c : BitVec 32) {k : Nat} (hk : k < 32) :
    (replicate c).getLsbD k = c.getLsbD (k % 8) := by
  have hlow := getLsbD_shifted c (s := 0) hk
  rw [BitVec.shiftLeft_zero] at hlow
  rw [replicate, BitVec.getLsbD_or, BitVec.getLsbD_or, BitVec.getLsbD_or, hlow, getLsbD_shifted c hk,
    getLsbD_shifted c hk, getLsbD_shifted c hk]
  rcases (by omega : k < 8 ∨ 8 ≤ k ∧ k < 16 ∨ 16 ≤ k ∧ k < 24 ∨ 24 ≤ k) with h | h | h | h
  · have hmod : k % 8 = k - 0 := by omega
    rw [decide_eq_false (by omega : ¬(24 ≤ k ∧ k < 24 + 8)), decide_eq_false (by omega : ¬(16 ≤ k ∧ k < 16 + 8)),
      decide_eq_false (by omega : ¬(8 ≤ k ∧ k < 8 + 8)), decide_eq_true (by omega : 0 ≤ k ∧ k < 0 + 8), hmod]
    simp
  · have hmod : k % 8 = k - 8 := by omega
    rw [decide_eq_false (by omega : ¬(24 ≤ k ∧ k < 24 + 8)), decide_eq_false (by omega : ¬(16 ≤ k ∧ k < 16 + 8)),
      decide_eq_true (by omega : 8 ≤ k ∧ k < 8 + 8), decide_eq_false (by omega : ¬(0 ≤ k ∧ k < 0 + 8)), hmod]
    simp
  · have hmod : k % 8 = k - 16 := by omega
    rw [decide_eq_false (by omega : ¬(24 ≤ k ∧ k < 24 + 8)), decide_eq_true (by omega : 16 ≤ k ∧ k < 16 + 8),
      decide_eq_false (by omega : ¬(8 ≤ k ∧ k < 8 + 8)), decide_eq_false (by omega : ¬(0 ≤ k ∧ k < 0 + 8)), hmod]
    simp
  · have hmod : k % 8 = k - 24 := by omega
    rw [decide_eq_true (by omega : 24 ≤ k ∧ k < 24 + 8), decide_eq_false (by omega : ¬(16 ≤ k ∧ k < 16 + 8)),
      decide_eq_false (by omega : ¬(8 ≤ k ∧ k < 8 + 8)), decide_eq_false (by omega : ¬(0 ≤ k ∧ k < 0 + 8)), hmod]
    simp

theorem char_replicate (c : BitVec 32) {i : Nat} (hi : i < 4) : char (replicate c >>> (8 * i)) = char c := by
  refine congrArg UInt8.ofBitVec ?_
  ext j hj
  have hbit := getLsbD_replicate c (by omega : 8 * i + j < 32)
  have hmod : (8 * i + j) % 8 = j := by omega
  rw [← BitVec.getLsbD_eq_getElem, ← BitVec.getLsbD_eq_getElem, BitVec.getLsbD_setWidth, BitVec.getLsbD_setWidth,
    BitVec.getLsbD_ushiftRight, hbit, hmod]

theorem storeInt_filled (hcount : count + 4 ≤ 2 ^ w) (mem : Memory w) (dst : BitVec w) (c : BitVec 32) :
    storeInt (replicate c) (filled mem dst (char c) count) (dst + BitVec.ofNat w count) =
      filled mem dst (char c) (count + 4) := by
  have h0 : char (replicate c) = char c := char_replicate c (by decide : 0 < 4)
  have h1 : char (replicate c >>> 8) = char c := char_replicate c (by decide : 1 < 4)
  have h2 : char (replicate c >>> 16) = char c := char_replicate c (by decide : 2 < 4)
  have h3 : char (replicate c >>> 24) = char c := char_replicate c (by decide : 3 < 4)
  have hstep : ∀ k : Nat, dst + BitVec.ofNat w count + BitVec.ofNat w k = dst + BitVec.ofNat w (count + k) := fun k => by
    rw [BitVec.add_assoc, BitVec.ofNat_add]
  simp only [storeInt, storeChar, h0, h1, h2, h3]
  rw [update_filled (by omega), show (1 : BitVec w) = BitVec.ofNat w 1 from rfl, hstep, update_filled (by omega),
    show (2 : BitVec w) = BitVec.ofNat w 2 from rfl, hstep, update_filled (by omega),
    show (3 : BitVec w) = BitVec.ofNat w 3 from rfl, hstep, update_filled (by omega)]

theorem fill_filled {store : Memory w → BitVec w → Memory w}
    (hstore : ∀ count, count + size ≤ 2 ^ w →
      store (filled mem dst byte count) (dst + BitVec.ofNat w count) = filled mem dst byte (count + size))
    (rc : Nat) (hfits : count + rc * size ≤ 2 ^ w) :
    fill store (BitVec.ofNat w size) rc (filled mem dst byte count) (dst + BitVec.ofNat w count) =
      (filled mem dst byte (count + rc * size), dst + BitVec.ofNat w (count + rc * size)) := by
  induction rc generalizing count with
  | zero => rw [fill, Nat.zero_mul, Nat.add_zero]
  | succ rc ih =>
      have hsize : count + size + rc * size = count + (rc + 1) * size := by rw [Nat.add_one_mul]; omega
      rw [fill, hstore count (by omega), BitVec.add_assoc, ← BitVec.ofNat_add, ih (by omega), hsize]

theorem memsetFrom_filled (hw : 32 ≤ w) (hindex : ∀ i < n, i.signExtend w = BitVec.ofNat w i.toNat) (i : BitVec 32)
    (hi : i ≤ n) :
    memsetFrom dst c n i (filled mem dst (char c) i.toNat) = filled mem dst (char c) n.toNat := by
  rw [memsetFrom]
  by_cases hlt : i < n
  · have hbound := BitVec.lt_def.mp hlt
    have hnext : (i + 1).toNat = i.toNat + 1 := BitVec.toNat_add_of_lt (lt_of_le_of_lt hbound n.isLt)
    have hfits : i.toNat < 2 ^ w := Nat.lt_of_lt_of_le i.isLt (Nat.pow_le_pow_right (by decide) hw)
    rw [if_pos hlt, hindex i hlt, update_filled hfits, ← hnext]
    exact memsetFrom_filled hw hindex (i + 1) (BitVec.le_def.mpr (hnext ▸ hbound))
  · rw [if_neg hlt, BitVec.le_antisymm hi (BitVec.not_lt.mp hlt)]
termination_by n.toNat - i.toNat

theorem signExtend_index {i : BitVec 32} (h : w = 32 ∨ i.toNat < 2 ^ 31) :
    i.signExtend w = BitVec.ofNat w i.toNat := by
  rw [BitVec.ofNat_toNat]
  rcases h with rfl | hlt
  · rw [BitVec.signExtend_eq, BitVec.setWidth_eq]
  · exact BitVec.signExtend_eq_setWidth_of_msb_false (BitVec.msb_eq_false_iff_two_mul_lt.mpr (by omega))

theorem fill_storeChar (hw : 32 ≤ w) (mem : Memory w) (dst : BitVec w) (c n : BitVec 32) :
    fill (storeChar c) 1 n.toNat mem dst = (filled mem dst (char c) n.toNat, dst + BitVec.ofNat w n.toNat) := by
  have hfits : 0 + n.toNat * 1 ≤ 2 ^ w := by
    have hpow : 2 ^ 32 ≤ 2 ^ w := Nat.pow_le_pow_right (by decide) hw
    have hn := n.isLt
    omega
  have hfill := fill_filled (fun count hcount => storeChar_filled hcount mem dst c) n.toNat hfits
  rwa [filled_zero, BitVec.add_zero, Nat.mul_one, Nat.zero_add] at hfill

theorem fill_storeInt (hw : 32 ≤ w) (mem : Memory w) (dst : BitVec w) (c : BitVec 32) (hn : n % 4 = 0) :
    fill (storeInt (replicate c)) 4 (n / 4).toNat mem dst =
      (filled mem dst (char c) n.toNat, dst + BitVec.ofNat w n.toNat) := by
  have hwords : (n / 4).toNat * 4 = n.toNat := by
    have hmod : n.toNat % 4 = 0 := congrArg BitVec.toNat hn
    have hdiv : (n / 4).toNat = n.toNat / 4 := BitVec.toNat_udiv
    omega
  have hfits : 0 + (n / 4).toNat * 4 ≤ 2 ^ w := by
    have hpow : 2 ^ 32 ≤ 2 ^ w := Nat.pow_le_pow_right (by decide) hw
    have hlt := n.isLt
    omega
  have hfill := fill_filled (fun count hcount => storeInt_filled hcount mem dst c) (n / 4).toNat hfits
  rwa [filled_zero, BitVec.add_zero, Nat.zero_add, hwords] at hfill

theorem Arm.memset_eq (hw : 32 ≤ w) (mem : Memory w) (dst : BitVec w) (c n : BitVec 32) :
    Arm.memset mem dst c n = (filled mem dst (char c) n.toNat, dst + BitVec.ofNat w n.toNat) := by
  rw [Arm.memset]
  split
  · next haligned => exact fill_storeInt hw mem dst c haligned.2
  · exact fill_storeChar hw mem dst c n

theorem X86.memset_eq (hw : 32 ≤ w) (mem : Memory w) (dst : BitVec w) (c n : BitVec 32) :
    X86.memset mem dst c n = (filled mem dst (char c) n.toNat, dst) := by
  rw [X86.memset]
  split
  · next haligned => rw [stosl, fill_storeInt hw mem dst c haligned.2]
  · rw [stosb, fill_storeChar hw]

theorem memset_eq (hw : 32 ≤ w) (mem : Memory w) (dst : BitVec w) (c : BitVec 32)
    (hn : w = 32 ∨ n.toNat ≤ 2 ^ 31) : memset mem dst c n = (filled mem dst (char c) n.toNat, dst) := by
  have hindex : ∀ i < n, i.signExtend w = BitVec.ofNat w i.toNat := fun i hi =>
    signExtend_index (hn.imp_right fun hle => Nat.lt_of_lt_of_le (BitVec.lt_def.mp hi) hle)
  have hset := @memsetFrom_filled w mem dst c n hw hindex 0 (BitVec.le_def.mpr (Nat.zero_le _))
  rw [memset, ← hset]
  exact congrArg (memsetFrom dst c n 0 · , dst) (filled_zero mem dst _).symm

theorem memsets_agree (hw : 32 ≤ w) (mem : Memory w) (dst : BitVec w) (c : BitVec 32)
    (hn : w = 32 ∨ n.toNat ≤ 2 ^ 31) :
    (memset mem dst c n).1 = filled mem dst (char c) n.toNat ∧
      (Arm.memset mem dst c n).1 = filled mem dst (char c) n.toNat ∧
      (X86.memset mem dst c n).1 = filled mem dst (char c) n.toNat := by
  rw [memset_eq hw mem dst c hn, Arm.memset_eq hw, X86.memset_eq hw]
  exact ⟨rfl, rfl, rfl⟩

theorem add_ofNat_eq_self_iff (hw : 32 ≤ w) (dst : BitVec w) (n : BitVec 32) :
    dst + BitVec.ofNat w n.toNat = dst ↔ n = 0 := by
  have hlt : n.toNat < 2 ^ w := Nat.lt_of_lt_of_le n.isLt (Nat.pow_le_pow_right (by decide) hw)
  constructor
  · intro heq
    have hzero := (sub_toNat_eq_iff hlt dst dst).mpr heq.symm
    rw [BitVec.sub_self, BitVec.toNat_ofNat, Nat.zero_mod] at hzero
    exact BitVec.eq_of_toNat_eq hzero.symm
  · rintro rfl
    exact BitVec.add_zero dst

/-- **All three are `memset` only of nothing.** That of `string-arm.c` returns where its loop ended. -/
theorem sets_iff (hw : 32 ≤ w) (mem : Memory w) (dst : BitVec w) (c n : BitVec 32) :
    (Sets mem dst c n (memset mem dst c n) ∧ Sets mem dst c n (Arm.memset mem dst c n) ∧
      Sets mem dst c n (X86.memset mem dst c n)) ↔ n = 0 := by
  constructor
  · rintro ⟨-, harm, -⟩
    have hreturned := harm.returned
    rw [Arm.memset_eq hw] at hreturned
    exact (add_ofNat_eq_self_iff hw dst n).mp hreturned
  · intro hn
    have hsmall : w = 32 ∨ n.toNat ≤ 2 ^ 31 := Or.inr (hn ▸ Nat.zero_le _)
    rw [memset_eq hw mem dst c hsmall, Arm.memset_eq hw, X86.memset_eq hw]
    exact ⟨⟨rfl, rfl⟩, ⟨rfl, (add_ofNat_eq_self_iff hw dst n).mpr hn⟩, ⟨rfl, rfl⟩⟩

theorem sets_iff_word : (Sets (fun _ => 7) (0x1000 : BitVec 32) 0 0 (memset (fun _ => 7) 0x1000 0 0) ∧
    Sets (fun _ => 7) (0x1000 : BitVec 32) 0 0 (Arm.memset (fun _ => 7) 0x1000 0 0) ∧
    Sets (fun _ => 7) (0x1000 : BitVec 32) 0 0 (X86.memset (fun _ => 7) 0x1000 0 0)) ↔ (0 : BitVec 32) = 0 :=
  sets_iff (Nat.le_refl 32) _ _ _ _

/-- Clearing four bytes returns their end. -/
theorem not_sets_four : ¬Sets (fun _ => 7) (0x1000 : BitVec 32) 0 4 (Arm.memset (fun _ => 7) 0x1000 0 4) :=
  fun h => absurd h.returned (by decide)

end Fill

/-! ### `memmove` -/

/-- `while (n-- > 0) *d++ = *s++`. -/
def moveUp : (n : Nat) → Memory w → (d s : BitVec w) → Memory w
  | 0, mem, _, _ => mem
  | n + 1, mem, d, s => moveUp n (Function.update mem d (mem s)) (d + 1) (s + 1)

/-- `while (n-- > 0) *--d = *--s`. -/
def moveDown : (n : Nat) → Memory w → (d s : BitVec w) → Memory w
  | 0, mem, _, _ => mem
  | n + 1, mem, d, s => moveDown n (Function.update mem (d - 1) (mem (s - 1))) (d - 1) (s - 1)

/-- `memmove` of `string.c`, whose `n` is unsigned. -/
def memmove (mem : Memory w) (dst src : BitVec w) (n : BitVec 32) : Memory w × BitVec w :=
  if n = 0 then (mem, dst)
  else if src < dst ∧ src + n.setWidth w > dst then
    (moveDown n.toNat mem (dst + n.setWidth w) (src + n.setWidth w), dst)
  else (moveUp n.toNat mem dst src, dst)

/-- `memmove` of `ulib.c`, whose `n` is an `int`. -/
def Ulib.memmove (mem : Memory w) (vdst vsrc : BitVec w) (n : BitVec 32) : Memory w × BitVec w :=
  if vsrc > vdst then (moveUp n.toInt.toNat mem vdst vsrc, vdst)
  else (moveDown n.toInt.toNat mem (vdst + n.signExtend w) (vsrc + n.signExtend w), vdst)

/-- What a move is to do. -/
structure Moves (mem : Memory w) (dst src : BitVec w) (n : Nat) (after : Memory w) : Prop where
  moved : ∀ i < n, after (dst + BitVec.ofNat w i) = mem (src + BitVec.ofNat w i)
  kept : ∀ a, (∀ i < n, a ≠ dst + BitVec.ofNat w i) → after a = mem a

section Move

variable {mem : Memory w} {dst src : BitVec w} {lo hi n k : Nat}

def moved (mem : Memory w) (dst src : BitVec w) (lo hi : Nat) : Memory w :=
  fun a => if lo ≤ (a - dst).toNat ∧ (a - dst).toNat < hi then mem (src + (a - dst)) else mem a

theorem moves_moved (hn : n ≤ 2 ^ w) (mem : Memory w) (dst src : BitVec w) :
    Moves mem dst src n (moved mem dst src 0 n) := by
  constructor
  · intro i hi
    have hat := (sub_toNat_eq_iff (Nat.lt_of_lt_of_le hi hn) (dst + BitVec.ofNat w i) dst).mpr rfl
    rw [moved, if_pos ⟨Nat.zero_le _, hat.trans_lt hi⟩, BitVec.add_comm dst, BitVec.add_sub_cancel]
  · intro a ha
    refine if_neg fun hin => ha _ hin.2 ?_
    exact (sub_toNat_eq_iff (a - dst).isLt a dst).mp rfl

theorem update_moved {lo' hi' : Nat} (hk : k < 2 ^ w) (hin : ∀ i, lo' ≤ i ∧ i < hi' ↔ lo ≤ i ∧ i < hi ∨ i = k)
    (hfar : ¬(lo ≤ (src + BitVec.ofNat w k - dst).toNat ∧ (src + BitVec.ofNat w k - dst).toNat < hi)) :
    Function.update (moved mem dst src lo hi) (dst + BitVec.ofNat w k)
      (moved mem dst src lo hi (src + BitVec.ofNat w k)) = moved mem dst src lo' hi' := by
  have hread : moved mem dst src lo hi (src + BitVec.ofNat w k) = mem (src + BitVec.ofNat w k) := if_neg hfar
  rw [hread]
  funext a
  have hiff := sub_toNat_eq_iff hk a dst
  by_cases hat : a = dst + BitVec.ofNat w k
  · have hoff : a - dst = BitVec.ofNat w k := by rw [hat, BitVec.add_comm, BitVec.add_sub_cancel]
    rw [moved, if_pos ((hin _).mpr (Or.inr (hiff.mpr hat))), hoff, hat, Function.update_self]
  · have hne : (a - dst).toNat ≠ k := fun heq => hat (hiff.mp heq)
    rw [Function.update_of_ne hat, moved, moved]
    exact if_congr ((hin _).trans (or_iff_left hne)).symm rfl rfl

theorem moveUp_moved (hn : k + n ≤ 2 ^ w)
    (hfar : ∀ i, k ≤ i → i < k + n → i ≤ (src + BitVec.ofNat w i - dst).toNat) :
    moveUp n (moved mem dst src 0 k) (dst + BitVec.ofNat w k) (src + BitVec.ofNat w k) =
      moved mem dst src 0 (k + n) := by
  induction n generalizing k with
  | zero => rfl
  | succ n ih =>
      have hnext : ∀ p : BitVec w, p + BitVec.ofNat w k + 1 = p + BitVec.ofNat w (k + 1) := fun p => by
        rw [BitVec.add_assoc, BitVec.ofNat_add]
        rfl
      have hrest : k + 1 + n = k + (n + 1) := by omega
      have hupdate := @update_moved w mem dst src 0 k k 0 (k + 1) (by omega) (fun i => by omega) fun hin => by
        have hle := hfar k (Nat.le_refl _) (by omega)
        omega
      rw [moveUp, hupdate, hnext, hnext, ih (by omega) fun i hi hlt => hfar i (by omega) (by omega), hrest]

theorem moveDown_moved {total : Nat} (hn : n ≤ total) (htotal : total ≤ 2 ^ w)
    (hfar : ∀ i < n, (src + BitVec.ofNat w i - dst).toNat ≤ i ∨ total ≤ (src + BitVec.ofNat w i - dst).toNat) :
    moveDown n (moved mem dst src n total) (dst + BitVec.ofNat w n) (src + BitVec.ofNat w n) =
      moved mem dst src 0 total := by
  induction n with
  | zero => rfl
  | succ n ih =>
      have hprev : ∀ p : BitVec w, p + BitVec.ofNat w (n + 1) - 1 = p + BitVec.ofNat w n := fun p => by
        rw [BitVec.ofNat_add, ← BitVec.add_assoc]
        exact BitVec.add_sub_cancel _ _
      have hupdate := @update_moved w mem dst src (n + 1) total n n total (by omega) (fun i => by omega) fun hin => by
        have hor := hfar n (Nat.lt_succ_self n)
        omega
      rw [moveDown, hprev, hprev, hupdate, ih (by omega) fun i hi => hfar i (by omega)]

theorem moved_self (mem : Memory w) (dst src : BitVec w) (n : Nat) : moved mem dst src n n = mem := by
  funext a
  exact if_neg fun hin => by omega

theorem offset_toNat {i : Nat} (hsrc : src.toNat + i < 2 ^ w) :
    (src + BitVec.ofNat w i - dst).toNat =
      if dst.toNat ≤ src.toNat + i then src.toNat + i - dst.toNat else 2 ^ w + (src.toNat + i) - dst.toNat := by
  have hd := dst.isLt
  have hof : (BitVec.ofNat w i).toNat = i := by rw [BitVec.toNat_ofNat, Nat.mod_eq_of_lt (by omega)]
  have hadd : (src + BitVec.ofNat w i).toNat = src.toNat + i := by
    rw [BitVec.toNat_add_of_lt (by omega), hof]
  rw [BitVec.toNat_sub, hadd]
  split
  · rw [show 2 ^ w - dst.toNat + (src.toNat + i) = src.toNat + i - dst.toNat + 2 ^ w by omega, Nat.add_mod_right,
      Nat.mod_eq_of_lt (by omega)]
  · rw [Nat.mod_eq_of_lt (by omega)]
    omega

theorem moveUp_moves (hsrc : src.toNat + n ≤ 2 ^ w)
    (hapart : ¬(src.toNat < dst.toNat ∧ dst.toNat < src.toNat + n)) : Moves mem dst src n (moveUp n mem dst src) := by
  have hup := @moveUp_moved w mem dst src n 0 (by omega) fun i _ hi => by
    rw [offset_toNat (by omega)]
    split <;> omega
  rw [moved_self, BitVec.add_zero, BitVec.add_zero, Nat.zero_add] at hup
  rw [hup]
  exact moves_moved (by omega) mem dst src

theorem moveDown_moves (hsrc : src.toNat + n ≤ 2 ^ w) (hdst : dst.toNat + n ≤ 2 ^ w) (hle : src.toNat ≤ dst.toNat) :
    Moves mem dst src n (moveDown n mem (dst + BitVec.ofNat w n) (src + BitVec.ofNat w n)) := by
  have hdown := @moveDown_moved w mem dst src n n (Nat.le_refl n) (by omega) fun i hi => by
    rw [offset_toNat (by omega)]
    split <;> omega
  rw [moved_self] at hdown
  rw [hdown]
  exact moves_moved (by omega) mem dst src

end Move

theorem memmove_moves {mem : Memory w} {dst src : BitVec w} {n : BitVec 32} (hsrc : src.toNat + n.toNat ≤ 2 ^ w)
    (hdst : dst.toNat + n.toNat ≤ 2 ^ w) : Moves mem dst src n.toNat (memmove mem dst src n).1 := by
  rw [memmove]
  split
  · next hn =>
      rw [hn]
      exact ⟨fun i hi => absurd hi (Nat.not_lt_zero i), fun a _ => rfl⟩
  · have hsize : n.setWidth w = BitVec.ofNat w n.toNat := (BitVec.ofNat_toNat w n).symm
    have hwithin : src < dst ∧ src + n.setWidth w > dst ↔
        src.toNat < dst.toNat ∧ dst.toNat < src.toNat + n.toNat := by
      rw [BitVec.lt_def]
      refine and_congr_right fun hlt => ?_
      have hadd : (src + BitVec.ofNat w n.toNat).toNat = src.toNat + n.toNat := by
        have hof : (BitVec.ofNat w n.toNat).toNat = n.toNat := by
          rw [BitVec.toNat_ofNat, Nat.mod_eq_of_lt (by omega)]
        rw [BitVec.toNat_add_of_lt (by omega), hof]
      rw [hsize, gt_iff_lt, BitVec.lt_def, hadd]
    split
    · next hbefore =>
        rw [hsize]
        exact moveDown_moves hsrc hdst (Nat.le_of_lt (hwithin.mp hbefore).1)
    · next hapart => exact moveUp_moves hsrc fun hin => hapart (hwithin.mpr hin)

/-- **Overlapping moves are correct.** Both `memmove` leave the source's bytes in the destination, and every other
byte as it was, however the ranges lie. -/
theorem memmoves_move {mem : Memory w} {dst src : BitVec w} {n : BitVec 32} (hsrc : src.toNat + n.toNat ≤ 2 ^ w)
    (hdst : dst.toNat + n.toNat ≤ 2 ^ w) :
    Moves mem dst src n.toNat (memmove mem dst src n).1 ∧
      (0 ≤ n.toInt → Moves mem dst src n.toNat (Ulib.memmove mem dst src n).1) := by
  refine ⟨memmove_moves hsrc hdst, fun hn => ?_⟩
  have hmsb : n.msb = false := Bool.eq_false_iff.mpr fun hneg => by
    have hlt := BitVec.toInt_neg_of_msb_true hneg
    omega
  have hsize : n.signExtend w = BitVec.ofNat w n.toNat := by
    rw [BitVec.signExtend_eq_setWidth_of_msb_false hmsb, BitVec.ofNat_toNat]
  have hcount : n.toInt.toNat = n.toNat := by
    rw [BitVec.toInt_eq_toNat_of_msb hmsb, Int.toNat_natCast]
  rw [Ulib.memmove, hsize, hcount]
  split
  · next hafter =>
      have hlt := BitVec.lt_def.mp hafter
      exact moveUp_moves hsrc fun hin => by omega
  · next hbefore => exact moveDown_moves hsrc hdst (BitVec.le_def.mp (BitVec.not_lt.mp hbefore))

theorem memmoves_move_within : Moves (fun a : BitVec 32 => ⟨a.setWidth 8⟩) 0x1002 0x1000 (8 : BitVec 32).toNat
    (memmove (fun a => ⟨a.setWidth 8⟩) 0x1002 0x1000 8).1 ∧ (0 ≤ (8 : BitVec 32).toInt →
      Moves (fun a : BitVec 32 => ⟨a.setWidth 8⟩) 0x1002 0x1000 (8 : BitVec 32).toNat
        (Ulib.memmove (fun a => ⟨a.setWidth 8⟩) 0x1002 0x1000 8).1) :=
  memmoves_move (by decide) (by decide)

end Xv6.Strings
