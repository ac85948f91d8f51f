import Mathlib.Data.BitVec
import Xv6.Lib.Transition

/-!
# Sleeping for some ticks

`sys_sleep` of `processes/sysproc.c`, from where its argument has been read. It tests how far the clock has come each
time it holds `tickslock`. The clock counts modulo `2 ^ 32`, and the argument is an `int` that the comparison takes as
unsigned.
-/

namespace Xv6.SysSleep

/-- Where the call is. -/
inductive Pc where
  | asleep
  /-- `wakeup` has been called, and `sleep` is yet to return with `tickslock`. -/
  | woken
  | returned (value : Int)
  deriving DecidableEq

structure State where
  ticks : BitVec 32
  ticks0 : BitVec 32
  killed : Bool
  pc : Pc
  deriving DecidableEq

inductive Event where
  /-- The clock's handler: `ticks++; wakeup(&ticks)`. -/
  | tick
  /-- `kill` of the process, which wakes it too. -/
  | kill
  /-- `sleep` returns. -/
  | resume
  deriving DecidableEq

/-- `wakeup(&ticks)`. -/
def wakeup : Pc → Pc
  | .asleep => .woken
  | pc => pc

def loop (n : BitVec 32) (s : State) : State :=
  if s.ticks - s.ticks0 < n then
    if s.killed then { s with pc := .returned (-1) } else { s with pc := .asleep }
  else { s with pc := .returned 0 }

/-- Up to the first `sleep`. -/
def sysSleep (ticks n : BitVec 32) (killed : Bool) : State :=
  loop n { ticks := ticks, ticks0 := ticks, killed := killed, pc := .woken }

def step (n : BitVec 32) (s : State) : Event → Option State
  | .tick => some { s with ticks := s.ticks + 1, pc := wakeup s.pc }
  | .kill => some { s with killed := true, pc := wakeup s.pc }
  | .resume => if s.pc = .woken then some (loop n s) else none

/-! ### What it is for -/

/-- A sleep for `n` ticks, seen from outside: how many have gone by, and where it is. -/
structure Timer where
  elapsed : Nat
  pc : Pc
  deriving DecidableEq

namespace Timer

def test (n : Int) (t : Timer) : Timer :=
  { t with pc := if max n 0 ≤ t.elapsed then .returned 0 else .asleep }

def start (n : Int) : Timer := test n { elapsed := 0, pc := .woken }

def step (n : Int) (t : Timer) : Event → Option Timer
  | .tick => some { elapsed := t.elapsed + 1, pc := wakeup t.pc }
  | .kill => none
  | .resume => if t.pc = .woken then some (test n t) else none

end Timer

/-- The call returns when the timer does: after any events but a kill, and fewer than `2 ^ 32` ticks, it is where the
timer is. -/
def Timely (ticks n : BitVec 32) : Prop :=
  ∀ events : List Event, Event.kill ∉ events → events.count .tick < 2 ^ 32 →
    (Transition.run (step n) (sysSleep ticks n false) events).map State.pc =
      (Transition.run (Timer.step n.toInt) (Timer.start n.toInt) events).map Timer.pc

variable {n ticks : BitVec 32} {s : State} {t : Timer}

structure Follows (s : State) (t : Timer) : Prop where
  ticks : s.ticks = s.ticks0 + BitVec.ofNat 32 t.elapsed
  killed : s.killed = false
  pc : s.pc = t.pc

theorem Follows.sub_toNat (h : Follows s t) (hsmall : t.elapsed < 2 ^ 32) :
    (s.ticks - s.ticks0).toNat = t.elapsed := by
  rw [h.ticks, BitVec.add_comm, BitVec.add_sub_cancel, BitVec.toNat_ofNat, Nat.mod_eq_of_lt hsmall]

theorem Follows.tick (h : Follows s t) :
    Follows { s with ticks := s.ticks + 1, pc := wakeup s.pc } { elapsed := t.elapsed + 1, pc := wakeup t.pc } := by
  refine ⟨?_, h.killed, congrArg wakeup h.pc⟩
  change s.ticks + 1 = s.ticks0 + BitVec.ofNat 32 (t.elapsed + 1)
  rw [h.ticks, BitVec.add_assoc, BitVec.ofNat_add]
  rfl

theorem Follows.loop (hn : 0 ≤ n.toInt) (hsmall : t.elapsed < 2 ^ 32) (h : Follows s t) :
    Follows (loop n s) (t.test n.toInt) := by
  have hnat : (n.toNat : Int) = n.toInt := by
    have hmsb : n.msb = false := Bool.eq_false_iff.mpr fun hneg => by
      have hlt := BitVec.toInt_neg_of_msb_true hneg
      omega
    rw [BitVec.toInt_eq_toNat_of_msb hmsb]
  have htest : s.ticks - s.ticks0 < n ↔ ¬max n.toInt 0 ≤ (t.elapsed : Int) := by
    rw [BitVec.lt_def, h.sub_toNat hsmall]
    omega
  unfold SysSleep.loop Timer.test
  by_cases hdue : max n.toInt 0 ≤ (t.elapsed : Int)
  · rw [if_neg fun hlt => htest.mp hlt hdue, if_pos hdue]
    exact ⟨h.ticks, h.killed, rfl⟩
  · rw [if_pos (htest.mpr hdue), if_neg (h.killed ▸ Bool.false_ne_true), if_neg hdue]
    exact ⟨h.ticks, h.killed, rfl⟩

theorem follows_start (hn : 0 ≤ n.toInt) (ticks : BitVec 32) :
    Follows (sysSleep ticks n false) (Timer.start n.toInt) :=
  Follows.loop hn (Nat.two_pow_pos 32) ⟨(BitVec.add_zero ticks).symm, rfl, rfl⟩

theorem Follows.run (hn : 0 ≤ n.toInt) {events : List Event} (hkill : Event.kill ∉ events)
    (hsmall : t.elapsed + events.count .tick < 2 ^ 32) (h : Follows s t) :
    (Transition.run (step n) s events).map State.pc =
      (Transition.run (Timer.step n.toInt) t events).map Timer.pc := by
  induction events generalizing s t with
  | nil => exact congrArg some h.pc
  | cons event events ih =>
      have hrest := List.not_mem_of_not_mem_cons hkill
      cases event with
      | tick =>
          rw [List.count_cons_self] at hsmall
          exact ih hrest (by change t.elapsed + 1 + _ < _; omega) h.tick
      | kill => exact absurd List.mem_cons_self hkill
      | resume =>
          rw [List.count_cons_of_ne (by decide)] at hsmall
          simp only [Transition.run, step, Timer.step, h.pc]
          split
          · exact ih hrest hsmall (h.loop hn (by omega))
          · rfl

/-- **A sleep is timely exactly if its argument is not negative.** For a negative one the comparison makes it a wait
for more than `2 ^ 31` ticks. -/
theorem timely_iff (ticks n : BitVec 32) : Timely ticks n ↔ 0 ≤ n.toInt := by
  constructor
  · intro h
    by_contra hneg
    have hstart := Option.some.inj (h [] List.not_mem_nil (Nat.two_pow_pos 32))
    have hdue : max n.toInt 0 ≤ ((0 : Nat) : Int) := by omega
    have hwait : (ticks - ticks : BitVec 32) < n := by
      rw [BitVec.sub_self, BitVec.lt_def]
      refine Nat.pos_of_ne_zero fun hzero => hneg ?_
      rw [BitVec.eq_of_toNat_eq (y := 0#32) hzero]
      exact Int.le_refl 0
    simp only [Timer.start, Timer.test, if_pos hdue, sysSleep, loop, if_pos hwait] at hstart
    exact Pc.noConfusion hstart
  · intro hn events hkill hsmall
    exact (follows_start hn ticks).run hn hkill (by change 0 + _ < _; omega)

/-- `sleep(-1)` does not return at once. -/
theorem not_timely_negative : ¬Timely 0 (-1) := by
  intro h
  have hstart := h [] List.not_mem_nil (by decide)
  exact absurd hstart (by decide)

end Xv6.SysSleep
