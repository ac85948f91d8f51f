import Mathlib.Data.Nat.Bitwise
import Mathlib.Logic.Function.Basic
import Mathlib.Tactic.Common
import Mathlib.Tactic.Ring

/-!
# Little-endian fields in a block of bytes

A block is a function from positions to bytes. An unsigned field of some width at some position is
read with `uint` and written with `setUint`, and an array of such fields with `uints` and `setUints`.
Each is characterised by what it does to the field written and to fields that do not overlap it, so
a layout is verified by comparing positions.
-/

abbrev Bytes := Nat → UInt8

namespace Bytes

/-- The unsigned little-endian number in the `width` bytes from `off` on. -/
def uint : (width : Nat) → Bytes → (off : Nat) → Nat
  | 0, _, _ => 0
  | width + 1, data, off => (data off).toNat + 256 * uint width data (off + 1)

def setUint (width : Nat) (data : Bytes) (off value : Nat) : Bytes :=
  fun i => if off ≤ i ∧ i < off + width then UInt8.ofNat (value / 256 ^ (i - off)) else data i

/-- An array of fields. -/
def uints (width : Nat) (data : Bytes) (off : Nat) : (count : Nat) → List Nat
  | 0 => []
  | count + 1 => uint width data off :: uints width data (off + width) count

def setUints (width : Nat) (data : Bytes) (off : Nat) : List Nat → Bytes
  | [] => data
  | value :: values => setUints width (setUint width data off value) (off + width) values

variable {width count off off' : Nat} {data data' : Bytes}

theorem uint_lt (width : Nat) (data : Bytes) (off : Nat) : uint width data off < 256 ^ width := by
  induction width generalizing off with
  | zero => simp [uint]
  | succ width ih =>
      have hbyte := (data off).toNat_lt
      have hrest := ih (off + 1)
      simp only [uint, pow_succ]
      omega

theorem uint_congr (h : ∀ i, off ≤ i → i < off + width → data' i = data i) :
    uint width data' off = uint width data off := by
  induction width generalizing off with
  | zero => rfl
  | succ width ih =>
      rw [uint, uint, h off (Nat.le_refl _) (by omega),
        ih fun i hi hlt => h i (by omega) (by omega)]

theorem uint_shift (width : Nat) (data : Bytes) (off off' : Nat) :
    uint width (fun i => data (off + i)) off' = uint width data (off + off') := by
  induction width generalizing off' with
  | zero => rfl
  | succ width ih => rw [uint, uint, ih, Nat.add_assoc]

theorem uint_eq_mod (value : Nat)
    (h : ∀ i, i < width → (data (off + i)).toNat = value / 256 ^ i % 256) :
    uint width data off = value % 256 ^ width := by
  induction width generalizing off value with
  | zero => simp [uint, Nat.mod_one]
  | succ width ih =>
      have hhead : (data off).toNat = value % 256 := by simpa using h 0 (by omega)
      have htail : uint width data (off + 1) = value / 256 % 256 ^ width := by
        refine ih _ fun i hi => ?_
        have hbyte := h (i + 1) (by omega)
        rw [show off + 1 + i = off + (i + 1) by omega, hbyte, Nat.div_div_eq_div_mul,
          Nat.pow_succ']
      rw [uint, hhead, htail, Nat.pow_succ', Nat.mod_mul]

theorem setUint_of_outside {i : Nat} (value : Nat) (h : i < off ∨ off + width ≤ i) :
    setUint width data off value i = data i := by
  unfold setUint
  exact if_neg (by omega)

theorem uint_setUint_self {value : Nat} (hvalue : value < 256 ^ width) :
    uint width (setUint width data off value) off = value := by
  rw [uint_eq_mod value, Nat.mod_eq_of_lt hvalue]
  intro i hi
  rw [setUint, if_pos ⟨by omega, by omega⟩, Nat.add_sub_cancel_left]
  exact UInt8.toNat_ofNat'

theorem uint_setUint_of_disjoint {width' : Nat} (value : Nat)
    (h : off' + width' ≤ off ∨ off + width ≤ off') :
    uint width (setUint width' data off' value) off = uint width data off :=
  uint_congr fun i hi hlt => setUint_of_outside value (by omega)

theorem setUints_of_outside {i : Nat} (values : List Nat)
    (h : i < off ∨ off + values.length * width ≤ i) :
    setUints width data off values i = data i := by
  induction values generalizing off data with
  | nil => rfl
  | cons value values ih =>
      rw [List.length_cons, Nat.succ_mul] at h
      rw [setUints, ih (by omega), setUint_of_outside value (by omega)]

theorem uint_setUints_of_disjoint {width' : Nat} (values : List Nat)
    (h : off + width' ≤ off' ∨ off' + values.length * width ≤ off) :
    uint width' (setUints width data off' values) off = uint width' data off :=
  uint_congr fun i hi hlt => setUints_of_outside values (by omega)

theorem uints_setUints_self {values : List Nat} (hvalues : ∀ value ∈ values, value < 256 ^ width) :
    uints width (setUints width data off values) off values.length = values := by
  induction values generalizing off data with
  | nil => rfl
  | cons value values ih =>
      have hhead := hvalues value List.mem_cons_self
      have htail : uints width (setUints width (setUint width data off value) (off + width) values)
          (off + width) values.length = values :=
        ih fun other hother => hvalues other (List.mem_cons_of_mem _ hother)
      rw [setUints, List.length_cons, uints, htail,
        uint_setUints_of_disjoint _ (Or.inl (Nat.le_refl _)), uint_setUint_self hhead]

/-! ### Runs of bytes -/

/-- The bytes from `off` on. -/
def load (data : Bytes) (off count : Nat) : List UInt8 :=
  (List.range count).map fun i => data (off + i)

/-- The block with some bytes copied over it from `off` on. -/
def store (data : Bytes) (off : Nat) (bytes : List UInt8) : Bytes :=
  fun i => if off ≤ i ∧ i < off + bytes.length then bytes.getD (i - off) 0 else data i

@[simp]
theorem length_load (data : Bytes) (off count : Nat) : (load data off count).length = count := by
  simp [load]

theorem store_of_outside {bytes : List UInt8} {i : Nat}
    (h : i < off ∨ off + bytes.length ≤ i) : store data off bytes i = data i :=
  if_neg (by omega)

theorem store_of_inside {bytes : List UInt8} {i : Nat} (h : i < bytes.length) :
    store data off bytes (off + i) = bytes[i] := by
  rw [store, if_pos ⟨by omega, by omega⟩, Nat.add_sub_cancel_left]
  simp [h]

theorem load_store_self (data : Bytes) (off : Nat) (bytes : List UInt8) :
    load (store data off bytes) off bytes.length = bytes := by
  refine List.ext_getElem (length_load ..) fun i hi hi' => ?_
  simp only [load, List.getElem_map, List.getElem_range, store_of_inside hi']

/-! ### Bits -/

/-- `1 << (i % 8)`. -/
def mask (i : Nat) : UInt8 := 1 <<< UInt8.ofNat (i % 8)

/-- Is bit `i` of a bitmap set? -/
def bit (data : Bytes) (i : Nat) : Bool := data (i / 8) &&& mask i != 0

def setBit (data : Bytes) (i : Nat) : Bytes :=
  Function.update data (i / 8) (data (i / 8) ||| mask i)

def clearBit (data : Bytes) (i : Nat) : Bytes :=
  Function.update data (i / 8) (data (i / 8) &&& ~~~mask i)

theorem toNat_mask (i : Nat) : (mask i).toNat = 2 ^ (i % 8) := by
  have hall : ∀ k : Fin 8, ((1 : UInt8) <<< UInt8.ofNat k).toNat = 2 ^ (k : Nat) := by decide
  exact hall ⟨i % 8, Nat.mod_lt _ (by decide)⟩

theorem bit_eq_testBit (data : Bytes) (i : Nat) :
    bit data i = (data (i / 8)).toNat.testBit (i % 8) := by
  have hzero : data (i / 8) &&& mask i = 0 ↔ (data (i / 8)).toNat.testBit (i % 8) = false := by
    rw [← UInt8.toNat_inj, UInt8.toNat_and, toNat_mask, Nat.and_two_pow]
    cases Nat.testBit (data (i / 8)).toNat (i % 8) <;> simp
  cases hbit : (data (i / 8)).toNat.testBit (i % 8) with
  | false => simp [bit, hzero.mpr hbit]
  | true =>
      have hne : data (i / 8) &&& mask i ≠ 0 := fun heq => by simp [hzero.mp heq] at hbit
      simpa [bit] using hne

theorem bit_setBit (data : Bytes) (i j : Nat) :
    bit (setBit data i) j = (decide (j = i) || bit data j) := by
  rw [bit_eq_testBit, bit_eq_testBit, setBit]
  by_cases hdiv : j / 8 = i / 8
  · rw [hdiv, Function.update_self, UInt8.toNat_or, toNat_mask, Nat.testBit_or,
      Nat.testBit_two_pow, Bool.or_comm]
    congr 1
    exact decide_eq_decide.mpr ⟨fun h => by omega, fun h => by omega⟩
  · have hne : j ≠ i := fun h => hdiv (h ▸ rfl)
    rw [Function.update_of_ne hdiv]
    simp [hne]

end Bytes
