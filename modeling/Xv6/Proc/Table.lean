import Mathlib.Tactic.Common

/-!
# The process table

`struct proc` of `proc.h`, without the fields private to a process, and what the functions of
`forks/riscv64/kernel/proc.c` do to one slot under its lock.
-/

namespace Xv6

inductive ProcState where
  | unused
  | used
  | sleeping
  | runnable
  | running
  | zombie
  deriving DecidableEq, Repr

/-- A slot of a table indexed by `ι`. -/
structure Proc (ι Chan : Type) where
  state : ProcState
  /-- If there is one, sleeping on it. -/
  chan : Option Chan
  killed : Bool
  /-- Exit status to be returned to parent's wait. -/
  xstate : Int
  pid : Nat
  parent : Option ι
  deriving DecidableEq

namespace Proc

variable {ι Chan : Type}

def sleepPrepare (p : Proc ι Chan) (chan : Chan) : Proc ι Chan := { p with chan := some chan }

/-- `sleep`: the channel is gone if it has been woken up in the meantime. -/
def sleep (p : Proc ι Chan) : Proc ι Chan :=
  if p.chan.isSome then { p with state := .sleeping } else p

def wakeup [DecidableEq Chan] (p : Proc ι Chan) (chan : Chan) : Proc ι Chan :=
  if p.chan = some chan then
    { p with
      chan := none
      state := if p.state = .sleeping then .runnable else p.state }
  else p

/-- What `kkill` does to its victim. -/
def kill (p : Proc ι Chan) : Proc ι Chan :=
  { p with
    killed := true
    -- Wake process from sleep().
    state := if p.state = .sleeping then .runnable else p.state }

/-- `freeproc`. It leaves the parent, which `kwait` has cleared. -/
def free (p : Proc ι Chan) : Proc ι Chan :=
  { p with pid := 0, chan := none, killed := false, xstate := 0, state := .unused }

def empty : Proc ι Chan := ⟨.unused, none, false, 0, 0, none⟩

def Live (p : Proc ι Chan) : Prop :=
  p.state = .runnable ∨ p.state = .running ∨ p.state = .sleeping

instance (p : Proc ι Chan) : Decidable p.Live := inferInstanceAs (Decidable (_ ∨ _ ∨ _))

section Wakeup

variable [DecidableEq Chan] {p : Proc ι Chan} {chan : Chan}

theorem wakeup_of_ne (hne : p.chan ≠ some chan) : p.wakeup chan = p := if_neg hne

theorem parent_wakeup (p : Proc ι Chan) (chan : Chan) : (p.wakeup chan).parent = p.parent := by
  unfold wakeup
  split <;> rfl

theorem chan_wakeup_eq_none (heq : p.chan = some chan) : (p.wakeup chan).chan = none := by
  simp [wakeup, heq]

theorem chan_wakeup_ne : (p.wakeup chan).chan ≠ some chan := by
  by_cases heq : p.chan = some chan
  · simp [chan_wakeup_eq_none heq]
  · rwa [wakeup_of_ne heq]

theorem wakeup_ne_sleeping (heq : p.chan = some chan) : (p.wakeup chan).state ≠ .sleeping := by
  unfold wakeup
  rw [if_pos heq]
  split <;> simp [*]

theorem live_wakeup : (p.wakeup chan).Live ↔ p.Live := by
  unfold wakeup Live
  split
  · split <;> simp [*]
  · exact Iff.rfl

end Wakeup

theorem kill_ne_sleeping (p : Proc ι Chan) : p.kill.state ≠ .sleeping := by
  unfold kill
  split <;> simp [*]

theorem live_kill {p : Proc ι Chan} : p.kill.Live ↔ p.Live := by
  unfold kill Live
  split <;> simp [*]

end Proc

end Xv6
