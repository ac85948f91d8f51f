import Mathlib.Algebra.Ring.Nat
import Mathlib.Data.Int.DivMod
import Mathlib.Logic.Function.Basic
import Mathlib.Logic.Function.Iterate
import Xv6.Lib.Transition

/-!
# The user allocator

`umalloc.c` keeps its free blocks in a ring of headers in address order. A header is a pointer to
the next one and a size in units, one unit being the size of a header: eight bytes where pointers
have 32 bits and sixteen where they have 64. The model works on addresses, with the wrapping of
`uint`, of `size_t`, of the `int` handed to `sbrk` and of pointers written out. `umalloc-arm-pi1.c`
is the same file with a `morecore` that rounds without dividing.

The loops take a bound on their iterations, and a result they give holds for every larger bound.
-/

namespace Xv6.Malloc

/-- Pointers and `size_t` of 32 bits, or of 64. -/
inductive Abi where
  | ilp32
  | lp64
deriving DecidableEq, Repr

namespace Abi

/-- `sizeof(Header)`: a pointer and a `uint`, padded to a multiple of `long`. -/
def unit : Abi → Nat
  | ilp32 => 8
  | lp64 => 16

def wordBits : Abi → Nat
  | ilp32 => 32
  | lp64 => 64

/-- User memory ends below this: the address space of a 32-bit machine, and on 64 bits far more than
the physical memory of any port, which the eager `sbrk` cannot exceed. -/
def limit : Abi → Nat
  | ilp32 => 2 ^ 32
  | lp64 => 2 ^ 35

variable (abi : Abi)

/-- `p + n` for a `Header *p`. -/
def offset (p n : Nat) : Nat := (p + n * abi.unit) % 2 ^ abi.wordBits

/-- `nunits = (nbytes + sizeof(Header) - 1)/sizeof(Header) + 1`, a `size_t` stored in a `uint`. -/
def units (nbytes : Nat) : Nat :=
  ((nbytes + abi.unit - 1) % 2 ^ abi.wordBits / abi.unit + 1) % 2 ^ 32

/-- `nu * sizeof(Header)`, a `size_t` passed as an `int`. -/
def growth (nu : Nat) : Int := ((nu * abi.unit % 2 ^ abi.wordBits : Nat) : Int).bmod (2 ^ 32)

end Abi

/-- The fields of the headers by address, and `freep`. -/
structure Heap where
  ptr : Nat → Nat
  size : Nat → Nat
  freep : Option Nat

namespace Heap

def setPtr (heap : Heap) (p q : Nat) : Heap := { heap with ptr := Function.update heap.ptr p q }

def setSize (heap : Heap) (p n : Nat) : Heap := { heap with size := Function.update heap.size p n }

/-- Where the loop of `free` stops: `bp` lies between `p` and its successor, or past an end. -/
def Stops (heap : Heap) (bp p : Nat) : Prop :=
  (p < bp ∧ bp < heap.ptr p) ∨ (heap.ptr p ≤ p ∧ (p < bp ∨ bp < heap.ptr p))

instance (heap : Heap) (bp p : Nat) : Decidable (heap.Stops bp p) :=
  inferInstanceAs (Decidable (_ ∨ _))

def place (heap : Heap) (bp : Nat) : Nat → Nat → Option Nat
  | 0, _ => none
  | fuel + 1, p => if heap.Stops bp p then some p else heap.place bp fuel (heap.ptr p)

/-- `if(bp + bp->s.size == p->s.ptr)` and its `else`. -/
def joinNext (heap : Heap) (abi : Abi) (p bp : Nat) : Heap :=
  if abi.offset bp (heap.size bp) = heap.ptr p then
    (heap.setSize bp ((heap.size bp + heap.size (heap.ptr p)) % 2 ^ 32)).setPtr bp
      (heap.ptr (heap.ptr p))
  else heap.setPtr bp (heap.ptr p)

/-- `if(p + p->s.size == bp)` and its `else`. -/
def joinPrev (heap : Heap) (abi : Abi) (p bp : Nat) : Heap :=
  if abi.offset p (heap.size p) = bp then
    (heap.setSize p ((heap.size p + heap.size bp) % 2 ^ 32)).setPtr p (heap.ptr bp)
  else heap.setPtr p bp

def free (heap : Heap) (abi : Abi) (fuel ap : Nat) : Option Heap :=
  let bp := ap - abi.unit
  heap.freep.bind fun freep =>
    (heap.place bp fuel freep).map fun p =>
      { (heap.joinNext abi p bp).joinPrev abi p bp with freep := some p }

end Heap

/-- How `morecore` rounds a request up: the shared file divides, that of `arm-pi1` accumulates. -/
inductive Rounding where
  | shared
  | armPi1
deriving DecidableEq, Repr

/-- `while(nu < 4096) nu += nunits;` -/
def accumulate (nunits : Nat) (h : 0 < nunits) (nu : Nat) : Nat :=
  if nu < 4096 then accumulate nunits h (nu + nunits) else nu
termination_by 4096 - nu

namespace Rounding

def round : Rounding → Nat → Nat
  | shared, nunits =>
      let nu := if nunits < 4096 then 4096 else nunits
      if nu % nunits ≠ 0 then (nu + (nunits - nu % nunits)) % 2 ^ 32 else nu
  | armPi1, nu =>
      if h : nu = 0 then accumulate 1 Nat.one_pos 0
      else if nu < 4096 then accumulate nu (Nat.pos_of_ne_zero h) 0 else nu

end Rounding

/-- A process image and the kernel behind it. The heap starts on a page boundary above the static
header `base`, and `grants` says which calls of `sbrk` find the memory they ask for. -/
structure Machine where
  abi : Abi
  rounding : Rounding
  base : Nat
  start : Nat
  pageSize : Nat
  memory : Nat
  grants : Nat → Bool
  base_le : base + abi.unit ≤ start
  pageSize_pos : 0 < pageSize
  aligned : start % pageSize = 0
  start_le : start ≤ memory
  memory_lt : memory < abi.limit

/-- A process with its heap at the third page and a kernel that never runs out before the first
megabyte. -/
def Machine.small (abi : Abi) : Machine where
  abi
  rounding := .shared
  base := 4096
  start := 8192
  pageSize := 4096
  memory := 2 ^ 20
  grants := fun _ => true
  base_le := by cases abi <;> decide
  pageSize_pos := by decide
  aligned := by decide
  start_le := by decide
  memory_lt := by cases abi <;> decide

/-- A call of `sbrk` by `morecore`: the heap it was made with, the argument and the answer. -/
structure Call where
  heap : Heap
  amount : Int
  answer : Option Nat

structure Block where
  ptr : Nat
  nbytes : Nat
deriving DecidableEq, Repr

structure State where
  heap : Heap
  brk : Nat
  calls : List Call
  live : List Block
  killed : Bool

/-- What a call gives: a pointer, the null pointer, or an access to memory that is not mapped. -/
inductive Outcome where
  | returned (p : Nat)
  | refused
  | fault
deriving DecidableEq, Repr

namespace State

variable (s : State) (m : Machine)

/-- The process before its first `malloc`: `freep` and the static header are zero. -/
def init : State where
  heap := { ptr := fun _ => 0, size := fun _ => 0, freep := none }
  brk := m.start
  calls := []
  live := []
  killed := false

def sbrk (n : Int) : State × Option Nat :=
  let answer := if m.grants s.calls.length ∧ s.brk + n ≤ m.memory then some s.brk else none
  ({ s with
      brk := if answer.isSome ∧ 0 ≤ s.brk + n then (s.brk + n).toNat else s.brk
      calls := s.calls ++ [⟨s.heap, n, answer⟩] }, answer)

/-- The header at `p` lies below the end of the last page. -/
def Mapped (p : Nat) : Prop :=
  p + m.abi.unit ≤ (s.brk + m.pageSize - 1) / m.pageSize * m.pageSize

instance (p : Nat) : Decidable (s.Mapped m p) := inferInstanceAs (Decidable (_ ≤ _))

end State

def morecore (m : Machine) (fuel : Nat) (s : State) (nunits : Nat) : Option (State × Outcome) :=
  let nu := m.rounding.round nunits
  match s.sbrk m (m.abi.growth nu) with
  | (s, none) => some (s, .refused)
  | (s, some hp) =>
      if s.Mapped m hp then
        ((s.heap.setSize hp nu).free m.abi fuel (m.abi.offset hp 1)).bind fun heap =>
          heap.freep.map fun freep => ({ s with heap }, .returned freep)
      else some (s, .fault)

/-- The block found at `p`, or its tail. -/
def take (m : Machine) (s : State) (nunits prevp p : Nat) : State × Outcome :=
  if s.heap.size p = nunits then
    ({ s with heap := { s.heap.setPtr prevp (s.heap.ptr p) with freep := some prevp } },
      .returned (m.abi.offset p 1))
  else
    let heap := s.heap.setSize p (s.heap.size p - nunits)
    let tail := m.abi.offset p (heap.size p)
    if s.Mapped m tail then
      ({ s with heap := { heap.setSize tail nunits with freep := some prevp } },
        .returned (m.abi.offset tail 1))
    else ({ s with heap }, .fault)

/-- The loop of `malloc`. -/
def search (m : Machine) (nunits : Nat) : Nat → State → Nat → Nat → Option (State × Outcome)
  | 0, _, _, _ => none
  | fuel + 1, s, prevp, p =>
      if nunits ≤ s.heap.size p then some (take m s nunits prevp p)
      else if s.heap.freep = some p then
        (morecore m fuel s nunits).bind fun
          | (s, .returned p) => search m nunits fuel s p (s.heap.ptr p)
          | (s, outcome) => some (s, outcome)
      else search m nunits fuel s p (s.heap.ptr p)

/-- `if((prevp = freep) == 0)`: the ring of the static header alone. -/
def prepare (m : Machine) (s : State) : State :=
  match s.heap.freep with
  | some _ => s
  | none =>
      { s with heap := { (s.heap.setPtr m.base m.base).setSize m.base 0 with freep := some m.base } }

def malloc (m : Machine) (fuel : Nat) (s : State) (nbytes : Nat) : Option (State × Outcome) :=
  let s := prepare m s
  s.heap.freep.bind fun prevp => search m (m.abi.units nbytes) fuel s prevp (s.heap.ptr prevp)

/-- What the program does: the two functions, and growing its memory by itself. -/
inductive Action where
  | malloc (nbytes : Nat)
  | free (ap : Nat)
  | sbrk (n : Nat)
deriving DecidableEq, Repr

namespace State

/-- The books after a call of `malloc`. -/
def settle (s : State) (nbytes : Nat) : Outcome → State
  | .returned p => { s with live := ⟨p, nbytes⟩ :: s.live }
  | .refused => s
  | .fault => { s with killed := true }

end State

/-- Only live blocks are freed, and a process that faulted does nothing more. -/
def step (m : Machine) (fuel : Nat) : Transition.Step State Action := fun s action =>
  if s.killed then none
  else
    match action with
    | .malloc nbytes => (malloc m fuel s nbytes).map fun result => result.1.settle nbytes result.2
    | .free ap =>
        if s.live.any fun block => block.ptr = ap then
          (s.heap.free m.abi fuel ap).map fun heap =>
            { s with heap, live := s.live.eraseP fun block => block.ptr = ap }
        else none
    | .sbrk n => if s.brk + n ≤ m.memory then some { s with brk := s.brk + n } else none

/-! ### A larger bound changes nothing -/

section Bounds

variable {m : Machine} {s : State} {fuel fuel' : Nat}

theorem Heap.place_mono {heap : Heap} {bp p q : Nat} (h : heap.place bp fuel p = some q)
    (hle : fuel ≤ fuel') : heap.place bp fuel' p = some q := by
  induction fuel generalizing fuel' p with
  | zero => cases h
  | succ fuel ih =>
      obtain ⟨fuel', rfl⟩ := Nat.exists_eq_add_of_lt hle
      rw [Heap.place] at h ⊢
      split at h
      case isTrue hstops => rw [if_pos hstops, h]
      case isFalse hgo =>
        rw [if_neg hgo]
        exact ih h (by omega)

theorem Heap.free_mono {heap heap' : Heap} {abi : Abi} {ap : Nat}
    (h : heap.free abi fuel ap = some heap') (hle : fuel ≤ fuel') :
    heap.free abi fuel' ap = some heap' := by
  obtain ⟨freep, hfreep, hrest⟩ := Option.bind_eq_some_iff.mp h
  obtain ⟨p, hplace, rfl⟩ := Option.map_eq_some_iff.mp hrest
  simp only [Heap.free, hfreep, Option.bind_some, Heap.place_mono hplace hle, Option.map_some]

theorem morecore_mono {nunits : Nat} {result : State × Outcome}
    (h : morecore m fuel s nunits = some result) (hle : fuel ≤ fuel') :
    morecore m fuel' s nunits = some result := by
  unfold morecore at h ⊢
  dsimp only at h ⊢
  split at h
  case h_1 => exact h
  case h_2 s' hp hsbrk =>
    split at h
    case isTrue hmapped =>
      obtain ⟨heap, hfree, hrest⟩ := Option.bind_eq_some_iff.mp h
      rw [if_pos hmapped, Heap.free_mono hfree hle, Option.bind_some, hrest]
    case isFalse hout => rw [if_neg hout, h]

theorem search_mono {nunits prevp p : Nat} {result : State × Outcome}
    (h : search m nunits fuel s prevp p = some result) (hle : fuel ≤ fuel') :
    search m nunits fuel' s prevp p = some result := by
  induction fuel generalizing fuel' s prevp p with
  | zero => cases h
  | succ fuel ih =>
      obtain ⟨fuel', rfl⟩ := Nat.exists_eq_add_of_lt hle
      rw [search] at h ⊢
      split at h
      case isTrue hfits => rw [if_pos hfits, h]
      case isFalse hsmall =>
        rw [if_neg hsmall]
        split at h
        case isTrue hround =>
          obtain ⟨⟨s', outcome⟩, hmore, hrest⟩ := Option.bind_eq_some_iff.mp h
          rw [if_pos hround, morecore_mono hmore (by omega), Option.bind_some]
          cases outcome with
          | returned q => exact ih hrest (by omega)
          | refused => exact hrest
          | fault => exact hrest
        case isFalse hgo =>
          rw [if_neg hgo]
          exact ih h (by omega)

theorem malloc_mono {nbytes : Nat} {result : State × Outcome}
    (h : malloc m fuel s nbytes = some result) (hle : fuel ≤ fuel') :
    malloc m fuel' s nbytes = some result := by
  obtain ⟨prevp, hfreep, hsearch⟩ := Option.bind_eq_some_iff.mp h
  exact Option.bind_eq_some_iff.mpr ⟨prevp, hfreep, search_mono hsearch hle⟩

end Bounds

/-! ### What the functions leave alone -/

section Books

variable {m : Machine} {fuel nunits : Nat} {s : State} {result : State × Outcome}

def State.SameBooks (s s' : State) : Prop := s'.live = s.live ∧ s'.killed = s.killed

theorem morecore_books (h : morecore m fuel s nunits = some result) : s.SameBooks result.1 := by
  unfold morecore at h
  dsimp only at h
  split at h
  case h_1 s' hsbrk =>
    cases h
    obtain rfl := congrArg Prod.fst hsbrk
    exact ⟨rfl, rfl⟩
  case h_2 s' hp hsbrk =>
    obtain rfl := congrArg Prod.fst hsbrk
    split at h
    · obtain ⟨heap, -, hrest⟩ := Option.bind_eq_some_iff.mp h
      obtain ⟨freep, -, rfl⟩ := Option.map_eq_some_iff.mp hrest
      exact ⟨rfl, rfl⟩
    · cases h
      exact ⟨rfl, rfl⟩

theorem morecore_freep {s' : State} {p : Nat} (h : morecore m fuel s nunits = some (s', .returned p)) :
    s'.heap.freep = some p := by
  unfold morecore at h
  dsimp only at h
  split at h
  · cases h
  · split at h
    · obtain ⟨heap, -, hrest⟩ := Option.bind_eq_some_iff.mp h
      obtain ⟨freep, hfreep, heq⟩ := Option.map_eq_some_iff.mp hrest
      cases heq
      exact hfreep
    · cases h

theorem take_books (s : State) (prevp p : Nat) : s.SameBooks (take m s nunits prevp p).1 := by
  unfold take
  split
  · exact ⟨rfl, rfl⟩
  · dsimp only
    split <;> exact ⟨rfl, rfl⟩

theorem search_books {prevp p : Nat} (h : search m nunits fuel s prevp p = some result) :
    s.SameBooks result.1 := by
  induction fuel generalizing s prevp p with
  | zero => cases h
  | succ fuel ih =>
      rw [search] at h
      split at h
      · cases h
        exact take_books s prevp p
      · split at h
        · obtain ⟨⟨s', outcome⟩, hmore, hrest⟩ := Option.bind_eq_some_iff.mp h
          have hbooks := morecore_books hmore
          cases outcome with
          | returned q =>
              have hlater := ih hrest
              exact ⟨hlater.1.trans hbooks.1, hlater.2.trans hbooks.2⟩
          | refused =>
              cases hrest
              exact hbooks
          | fault =>
              cases hrest
              exact hbooks
        · exact ih h

theorem malloc_books {nbytes : Nat} (h : malloc m fuel s nbytes = some result) :
    s.SameBooks result.1 := by
  obtain ⟨prevp, -, hsearch⟩ := Option.bind_eq_some_iff.mp h
  have hprepare : s.SameBooks (prepare m s) := by
    unfold prepare
    split <;> exact ⟨rfl, rfl⟩
  have hbooks := search_books hsearch
  exact ⟨hbooks.1.trans hprepare.1, hbooks.2.trans hprepare.2⟩

end Books

end Xv6.Malloc
