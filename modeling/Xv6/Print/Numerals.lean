import Mathlib.Data.Nat.Digits.Lemmas
import Mathlib.Data.BitVec

/-!
# The numerals that are printed

`printint` and `printptr` of `lib/printk.c` and of `ulib/printf.c`: digits are put into a buffer from the last one on,
and come out in the other order.
-/

namespace Xv6.Print

/-- The bases that are asked for. -/
inductive Base where
  | dec
  | hex
  deriving DecidableEq

def Base.value : Base → Nat
  | .dec => 10
  | .hex => 16

/-- `digits` of `printk.c`, and of `printf.c`. -/
def lower : List UInt8 := [48, 49, 50, 51, 52, 53, 54, 55, 56, 57, 97, 98, 99, 100, 101, 102]

@[inherit_doc lower]
def upper : List UInt8 := [48, 49, 50, 51, 52, 53, 54, 55, 56, 57, 65, 66, 67, 68, 69, 70]

/-- `buf[i++] = c`, where `buf` has `size` elements. -/
def push (size : Nat) (c : UInt8) (buf : List UInt8) : Option (List UInt8) :=
  if buf.length < size then some (buf ++ [c]) else none

section Digits

variable {digits : List UInt8} {base : Base} {size x : Nat} {buf : List UInt8}

end Digits

end Xv6.Print
