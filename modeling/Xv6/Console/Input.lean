import Mathlib.Data.BitVec
import Mathlib.Logic.Function.Basic
import Mathlib.Tactic.Common

/-!
# The input of the console

The buffer of `console.c`, the interrupt handler that fills it and the part of `consoleread` between
taking `cons.lock` and giving it up. Echo, the process list and the wakeups are left out: a reader that
sleeps may wake up at any time, and looks again.
-/

namespace Xv6.Console

abbrev inputBufSize : Nat := 128

/-- A `uint`, with its overflow. -/
abbrev UInt := BitVec 32

abbrev Byte := BitVec 8

/-! ### The code -/

/-- `cons`, less the lock. -/
structure Cons where
  buf : Fin inputBufSize → Byte
  /-- Read index. -/
  r : UInt
  /-- Write index. -/
  w : UInt
  /-- Edit index. -/
  e : UInt

def slot (i : UInt) : Fin inputBufSize := Fin.ofNat inputBufSize i.toNat

/-- `C(x)`, Control-x. -/
def ctrl (x : Char) : Byte := BitVec.ofNat 8 (x.toNat - '@'.toNat)

def newline : Byte := 0x0a

def carriageReturn : Byte := 0x0d

def delete : Byte := 0x7f

/-- `(c == '\r') ? '\n' : c`. -/
def stored (c : Byte) : Byte := if c = carriageReturn then newline else c

namespace Cons

/-- `cons.e--`. -/
def erase (cons : Cons) : Cons := { cons with e := cons.e - 1 }

/-- `cons.buf[cons.e++ % INPUT_BUF_SIZE] = c`. -/
def put (cons : Cons) (c : Byte) : Cons :=
  { cons with buf := Function.update cons.buf (slot cons.e) c, e := cons.e + 1 }

/-- `cons.buf[cons.r % INPUT_BUF_SIZE]`. -/
def head (cons : Cons) : Byte := cons.buf (slot cons.r)

/-- `cons.r++`. -/
def advance (cons : Cons) : Cons := { cons with r := cons.r + 1 }

/-- The loop of `consoleintr` for Control-U. Each round takes a byte off the line. -/
def killLine : (rounds : Nat) → Cons → Cons
  | 0, cons => cons
  | rounds + 1, cons =>
      if cons.e ≠ cons.w ∧ cons.buf (slot (cons.e - 1)) ≠ newline then killLine rounds cons.erase
      else cons

/-- The console input interrupt handler, for a character. -/
def consoleintr (cons : Cons) (c : Byte) : Cons :=
  if c = ctrl 'P' then cons
  else if c = ctrl 'U' then cons.killLine (cons.e - cons.w).toNat
  else if c = ctrl 'H' ∨ c = delete then
    if cons.e ≠ cons.w then cons.erase else cons
  else if c ≠ 0 ∧ (cons.e - cons.r).toNat < inputBufSize then
    let c := stored c
    let cons := cons.put c
    if c = newline ∨ c = ctrl 'D' ∨ (cons.e - cons.r).toNat = inputBufSize then
      { cons with w := cons.e }
    else cons
  else cons

end Cons

/-- What became of a byte that was taken from the buffer. -/
inductive Taken where
  | copied (c : Byte)
  /-- `either_copyout` failed. -/
  | lost (c : Byte)
  | endOfFile
  deriving DecidableEq

/-- How `consoleread` gives up the lock: it sleeps with `n` bytes to go, or returns. -/
inductive Ending where
  | asleep (n : Nat)
  | returned (value : Int)
  deriving DecidableEq

/-- `consoleread` while it holds the lock, with `n` of `target` bytes to go. `killed` is what it finds
where it has to wait, and `fails` says where `either_copyout` does. -/
def consoleread (target : Nat) (killed : Bool) (fails : Nat → Bool) :
    (n : Nat) → Cons → Cons × List Taken × Ending
  | 0, cons => (cons, [], .returned target)
  | n + 1, cons =>
      if cons.r = cons.w then
        (cons, [], if killed then .returned (-1) else .asleep (n + 1))
      else
        let c := cons.head
        if c = ctrl 'D' then
          -- With bytes copied, `^D` is saved for next time: `cons.r++` is undone.
          if n + 1 < target then (cons, [], .returned (target - (n + 1) : Nat))
          else (cons.advance, [.endOfFile], .returned (target - (n + 1) : Nat))
        else if fails (n + 1) then (cons.advance, [.lost c], .returned (target - (n + 1) : Nat))
        else if c = newline then (cons.advance, [.copied c], .returned (target - n : Nat))
        else
          let rest := consoleread target killed fails n cons.advance
          (rest.1, .copied c :: rest.2.1, rest.2.2)

/-! ### What is in the buffer -/

def between (buf : Fin inputBufSize → Byte) (a b : UInt) : List Byte :=
  (List.range (b - a).toNat).map fun k => buf (slot (a + BitVec.ofNat 32 k))

section Between

variable {buf : Fin inputBufSize → Byte} {a b e : UInt}

theorem slot_eq {x y : UInt} : slot x = slot y ↔ x.toNat % inputBufSize = y.toNat % inputBufSize :=
  Fin.ext_iff

theorem length_between : (between buf a b).length = (b - a).toNat := by simp [between]

@[simp]
theorem between_self : between buf a a = [] := by simp [between]

theorem between_cons (hne : a ≠ b) : between buf a b = buf (slot a) :: between buf (a + 1) b := by
  obtain ⟨count, hcount⟩ := Nat.exists_eq_succ_of_ne_zero
    (show (b - a).toNat ≠ 0 by intro hzero; apply hne; bv_omega)
  have hrest : (b - (a + 1)).toNat = count := by bv_omega
  unfold between
  rw [hrest, hcount, List.range_succ_eq_map, List.map_cons, List.map_map]
  refine congrArg₂ _ ?_ (List.map_congr_left fun k _ => ?_)
  · simp
  · have hnext : a + BitVec.ofNat 32 (k + 1) = a + 1 + BitVec.ofNat 32 k := by bv_omega
    simp only [Function.comp_apply, Nat.succ_eq_add_one, hnext]

theorem between_concat (hne : a ≠ b) :
    between buf a b = between buf a (b - 1) ++ [buf (slot (b - 1))] := by
  obtain ⟨count, hcount⟩ := Nat.exists_eq_succ_of_ne_zero
    (show (b - a).toNat ≠ 0 by intro hzero; apply hne; bv_omega)
  have hinit : (b - 1 - a).toNat = count := by bv_omega
  have hlast : a + BitVec.ofNat 32 count = b - 1 := by bv_omega
  unfold between
  rw [hinit, hcount, List.range_succ, List.map_append, List.map_singleton, hlast]

theorem between_append (horder : (b - a).toNat + (e - b).toNat = (e - a).toNat) :
    between buf a e = between buf a b ++ between buf b e := by
  unfold between
  rw [← horder, List.range_add, List.map_append, List.map_map]
  refine congrArg _ (List.map_congr_left fun k _ => ?_)
  have hindex : a + BitVec.ofNat 32 ((b - a).toNat + k) = b + BitVec.ofNat 32 k := by bv_omega
  rw [Function.comp_apply, hindex]

theorem between_update (c : Byte) (horder : (b - a).toNat + (e - b).toNat = (e - a).toNat)
    (hroom : (e - a).toNat < inputBufSize) :
    between (Function.update buf (slot e) c) a b = between buf a b := by
  refine List.map_congr_left fun k hk => Function.update_of_ne ?_ ..
  have hlt := List.mem_range.mp hk
  rw [Ne, slot_eq]
  unfold inputBufSize at *
  bv_omega

end Between

end Xv6.Console
