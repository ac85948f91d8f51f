import Xv6.Print.Numerals

/-!
# What a format prints

`printk` of `lib/printk.c` and `vprintf` of `ulib/printf.c`. What one round of their loops prints is one piece of the
output. A format is a C string, the list of its bytes before the null.
-/

namespace Xv6.Print

/-! ### The code -/

def ch (c : Char) : UInt8 := c.toUInt8

/-- What an argument list has. A string is a `char *`, which may be null. -/
inductive Arg where
  | int (x : BitVec 32)
  | long (x : BitVec 64)
  | str (s : Option (List UInt8))

/-- `consputc`: `BACKSPACE` is no character. -/
def consputc (c : BitVec 32) : List UInt8 := if c = 0x100 then [8, 32, 8] else [⟨c.setWidth 8⟩]

inductive Ty where
  | int
  | long
  | str
  deriving DecidableEq

def Arg.type : Arg → Ty
  | .int _ => .int
  | .long _ => .long
  | .str _ => .str

/-- A part of a format. -/
inductive Token where
  /-- It stands for itself. -/
  | text (printed : List UInt8)
  | number (wide : Bool) (base : Base) (signed : Bool)
  | pointer
  | char
  | string
  deriving DecidableEq

/-- The type of the argument it consumes. -/
def Token.type : Token → Option Ty
  | .text _ => none
  | .number wide _ _ => some (if wide then .long else .int)
  | .pointer => some .long
  | .char => some .int
  | .string => some .str

/-- The parts of a format. A `%` and a letter that is no conversion stand for themselves, a `%` at the end for
nothing. -/
def tokens (table : List (List UInt8 × Token)) : (fmt : List UInt8) → List Token
  | [] => []
  | c :: fmt =>
      if c ≠ ch '%' then .text [c] :: tokens table fmt
      else
        match table.find? (·.1.isPrefixOf fmt) with
        | some entry => entry.2 :: tokens table (fmt.drop entry.1.length)
        | none => fmt.head?.toList.map (fun c0 => .text [ch '%', c0]) ++ tokens table (fmt.drop 1)
termination_by fmt => fmt.length
decreasing_by
  · exact Nat.lt_succ_self _
  · exact Nat.lt_succ_of_le (List.drop_sublist _ _).length_le
  · exact Nat.lt_succ_of_le (List.drop_sublist _ _).length_le

def Matches (parts : List Token) (args : List Arg) : Prop := args.map Arg.type = parts.filterMap Token.type

section Pieces

variable {parts : List Token} {args : List Arg} {pieces : List (List UInt8)} {part : Token} {arg : Arg}
  {piece printed : List UInt8}

end Pieces

/-! ### `printk` -/

section Printk

variable {fmt : List UInt8} {entry : List UInt8 × Token} {part : Token} {arg : Arg} {args : List Arg}

end Printk

section Vprintf

variable {fmt : List UInt8} {entry : List UInt8 × Token} {parts : List Token} {part : Token} {arg : Arg}
  {args : List Arg} {printed : List UInt8} {c0 : UInt8}

end Vprintf

end Xv6.Print
