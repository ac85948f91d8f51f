import Mathlib.Data.List.FinRange
import Mathlib.Logic.Function.Basic
import Xv6.Lib.Transition
import Xv6.Proc.Table

/-!
# Sleep-locks

`sleeplock.c` in both designs: over the `sleep` of the arm64 kernel, which gives up the inner
spinlock under the `p->lock` it sleeps with, and over `sleep_prepare` and `sleep` of the riscv64
kernel, which register first and look again before they sleep. A step is what happens between two
spinlock operations. Besides the functions of the lock a process may be preempted, killed, woken on
any channel, asleep on another one, and may exit and be replaced.
-/

namespace Xv6.SleepLock

variable {n : Nat} {Chan : Type}

inductive Design where
  | arm64
  | riscv64
  deriving DecidableEq

/-- Where a process is. -/
inductive Pc (n : Nat) where
  /-- Outside the functions of the lock. -/
  | outside
  /-- `sleep_prepare` has returned, for another channel. -/
  | elsewhere
  /-- In `sched`, on another channel. -/
  | dozing
  /-- `acquiresleep`, about to acquire the inner lock. -/
  | acquiring
  /-- At `while (lk->locked)`. -/
  | testing
  /-- The sleep-lock is taken, and the inner lock is still held. -/
  | taken
  /-- `sleep` of arm64: `p->lock` is held as well. -/
  | committed
  /-- The same, with the inner lock released. -/
  | switching
  /-- `sleep_prepare` of riscv64 has returned. -/
  | prepared
  /-- The same, with the inner lock released. -/
  | waiting
  /-- In `sched`, on the channel of the lock. -/
  | asleep
  /-- `releasesleep`, about to acquire the inner lock. -/
  | releasing
  /-- In the loop of `wakeup`, with the slots it has yet to look at. -/
  | waking (rest : List (Fin n))
  /-- `holdingsleep`, about to acquire the inner lock. -/
  | querying
  | answered (r : Bool)
  deriving DecidableEq

namespace Pc

@[simp]
def Inside : Pc n → Bool
  | testing | taken | committed | prepared | waking _ | answered _ => true
  | _ => false

/-- `p->lock` is held across a step. -/
@[simp]
def HoldsProc : Pc n → Bool
  | committed | switching => true
  | _ => false

end Pc

/-- A process, and whether it is between its return from `acquiresleep` and its `releasesleep`. -/
structure Agent (n : Nat) (Chan : Type) where
  proc : Proc (Fin n) Chan
  pc : Pc n
  holding : Bool
  deriving DecidableEq

/-- `struct sleeplock`, with the owner of its spinlock. -/
structure Sleeplock (n : Nat) where
  holder : Option (Fin n)
  locked : Bool
  pid : Nat
  deriving DecidableEq

structure State (n : Nat) (Chan : Type) where
  agent : Fin n → Agent n Chan
  lock : Sleeplock n

/-- After `initsleeplock`, with every slot unused. -/
def start : State n Chan where
  agent := fun _ => ⟨.empty, .outside, false⟩
  lock := ⟨none, false, 0⟩

inductive Move (Chan : Type) where
  /-- The calls of the three functions. -/
  | acquiresleep
  | releasesleep
  | holdingsleep
  /-- `acquire(&lk->lk)`, up to the next spinlock operation. -/
  | lock
  /-- `while (lk->locked)` and what follows it. -/
  | test
  | unlock
  | sleep
  /-- The scheduler picks a process in `sched`, which gives `p->lock` back. -/
  | resume
  | dispatch
  | yield
  /-- A visit of some `wakeup` or `kill` to the process. -/
  | wakeup (chan : Chan)
  | kill
  | sleepPrepare (chan : Chan)
  | doze (chan : Chan)
  | alloc (pid : Nat)
  | exit
  | free

inductive Action (n : Nat) (Chan : Type) where
  | move (who : Fin n) (move : Move Chan)
  /-- The next slot in the loop of `wakeup`, called by `releasesleep`. -/
  | visit (who : Fin n)

section Steps

variable [DecidableEq Chan]

/-- What `wakeup` does to a slot. -/
def Design.wakeup (design : Design) (p : Proc (Fin n) Chan) (chan : Chan) : Proc (Fin n) Chan :=
  match design with
  | .arm64 => if p.state = .sleeping ∧ p.chan = some chan then { p with state := .runnable } else p
  | .riscv64 => p.wakeup chan

/-- A process that comes back from `sched`. -/
def Design.resume (design : Design) (p : Proc (Fin n) Chan) : Proc (Fin n) Chan :=
  match design with
  | .arm64 => { p with state := .running, chan := none }
  | .riscv64 => { p with state := .running }

@[simp]
def Agent.Runs (a : Agent n Chan) : Prop := a.proc.state = .running

instance (a : Agent n Chan) : Decidable a.Runs := inferInstanceAs (Decidable (_ = _))

variable (design : Design) (lk : Chan) (who : Fin n) (a : Agent n Chan) (l : Sleeplock n)

/-- One move of a process, in one of the designs. -/
def Move.apply : Move Chan → Option (Agent n Chan × Sleeplock n)
  | .acquiresleep =>
      if a.Runs ∧ a.pc = .outside then some ({ a with pc := .acquiring }, l) else none
  | .releasesleep =>
      if a.Runs ∧ a.pc = .outside ∧ a.holding then
        some ({ a with pc := .releasing, holding := false }, l)
      else none
  | .holdingsleep =>
      if a.Runs ∧ a.pc = .outside then some ({ a with pc := .querying }, l) else none
  | .lock =>
      if a.Runs ∧ l.holder = none then
        match a.pc with
        | .acquiring => some ({ a with pc := .testing }, { l with holder := some who })
        | .releasing =>
            some ({ a with pc := .waking (List.finRange n) },
              { l with holder := some who, locked := false, pid := 0 })
        | .querying =>
            some ({ a with pc := .answered (l.locked && l.pid == a.proc.pid) },
              { l with holder := some who })
        | _ => none
      else none
  | .test =>
      if a.pc = .testing then
        if l.locked then
          match design with
          | .arm64 => some ({ a with pc := .committed }, l)
          | .riscv64 => some ({ a with pc := .prepared, proc := a.proc.sleepPrepare lk }, l)
        else some ({ a with pc := .taken }, { l with locked := true, pid := a.proc.pid })
      else none
  | .unlock =>
      match a.pc with
      | .taken => some ({ a with pc := .outside, holding := true }, { l with holder := none })
      | .committed => some ({ a with pc := .switching }, { l with holder := none })
      | .prepared => some ({ a with pc := .waiting }, { l with holder := none })
      | .waking [] | .answered _ => some ({ a with pc := .outside }, { l with holder := none })
      | _ => none
  | .sleep =>
      match a.pc with
      | .switching =>
          some ({ a with
            pc := .asleep
            proc := { a.proc with chan := some lk, state := .sleeping } }, l)
      | .waiting =>
          if a.Runs then
            some ({ a with
              pc := if a.proc.chan.isSome then .asleep else .acquiring
              proc := a.proc.sleep }, l)
          else none
      | _ => none
  | .resume =>
      if a.proc.state = .runnable then
        match a.pc with
        | .asleep => some ({ a with pc := .acquiring, proc := design.resume a.proc }, l)
        | .dozing => some ({ a with pc := .outside, proc := design.resume a.proc }, l)
        | _ => none
      else none
  | .dispatch =>
      if a.proc.state = .runnable ∧ a.pc ≠ .asleep ∧ a.pc ≠ .dozing then
        some ({ a with proc := { a.proc with state := .running } }, l)
      else none
  | .yield =>
      -- A timer interrupt; holding a spinlock keeps interrupts off.
      if a.Runs ∧ ¬ a.pc.Inside ∧ ¬ a.pc.HoldsProc then
        some ({ a with proc := { a.proc with state := .runnable } }, l)
      else none
  | .wakeup chan =>
      if a.pc.HoldsProc then none
      else some ({ a with proc := design.wakeup a.proc chan }, l)
  | .kill =>
      if a.pc.HoldsProc then none
      else some ({ a with proc := a.proc.kill }, l)
  | .sleepPrepare chan =>
      if design = .riscv64 ∧ a.Runs ∧ a.pc = .outside ∧ chan ≠ lk then
        some ({ a with pc := .elsewhere, proc := a.proc.sleepPrepare chan }, l)
      else none
  | .doze chan =>
      match design with
      | .arm64 =>
          if a.Runs ∧ a.pc = .outside ∧ chan ≠ lk then
            some ({ a with
              pc := .dozing
              proc := { a.proc with chan := some chan, state := .sleeping } }, l)
          else none
      | .riscv64 =>
          if a.Runs ∧ a.pc = .elsewhere then
            some ({ a with
              pc := if a.proc.chan.isSome then .dozing else .outside
              proc := a.proc.sleep }, l)
          else none
  | .alloc pid =>
      if a.proc.state = .unused then
        some ({ a with proc := { a.proc with state := .runnable, pid } }, l)
      else none
  | .exit =>
      if a.Runs ∧ a.pc = .outside ∧ ¬ a.holding then
        some ({ a with proc := { a.proc with state := .zombie } }, l)
      else none
  | .free =>
      if a.proc.state = .zombie then some ({ a with proc := a.proc.free }, l) else none

end Steps

def State.put (s : State n Chan) (who : Fin n) (a : Agent n Chan) (l : Sleeplock n) :
    State n Chan where
  agent := Function.update s.agent who a
  lock := l

variable [DecidableEq Chan]

/-- One step of the system, for the lock with channel `lk`. -/
def step (design : Design) (lk : Chan) : Transition.Step (State n Chan) (Action n Chan)
  | s, .move who move =>
      (move.apply design lk who (s.agent who) s.lock).map fun result =>
        s.put who result.1 result.2
  | s, .visit who =>
      match (s.agent who).pc with
      | .waking (p :: rest) =>
          -- `if(p != myproc())` is in the loop of arm64 only.
          if design = .arm64 ∧ p = who then
            some (s.put who { s.agent who with pc := .waking rest } s.lock)
          else
            (Move.apply design lk p (s.agent p) s.lock (.wakeup lk)).map fun result =>
              let s := s.put p result.1 result.2
              s.put who { s.agent who with pc := .waking rest } s.lock
      | _ => none

end Xv6.SleepLock
