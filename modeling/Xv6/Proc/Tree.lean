import Xv6.Lib.Transition
import Xv6.Proc.Family
import Xv6.Proc.Table

/-!
# Forking, exiting and waiting

`kfork`, `kexit` with `reparent`, `kwait`, `kkill`, `sleep` and `wakeup` of
`forks/riscv64/kernel/proc.c`. A step is a section under a `p->lock`, or one between two of them
while `wait_lock` is held. What a process does besides is there as far as it touches its slot: it may
sleep on other channels, be woken from them and be killed at any time.
-/

namespace Xv6.Tree

/-- The channels: the address of a slot, which `kwait` sleeps on, or another one. -/
abbrev Chan (n : Nat) (Other : Type) := Fin n ⊕ Other

inductive Pc (n : Nat) where
  | idle
  /-- `kfork`: the new slot is allocated. -/
  | forking (np : Fin n)
  /-- `kfork`: the new slot has its parent. -/
  | parented (np : Fin n)
  /-- Between `sleep_prepare` and `sleep`, outside `kwait`. -/
  | prepared
  /-- In `sleep`, outside `kwait`. -/
  | napping
  /-- `kexit`: in the loop of `reparent`. -/
  | reparent (status : Int) (rest : List (Fin n))
  /-- `kexit`: in `wakeup(initproc)`, called from that loop. -/
  | wakeInit (status : Int) (rest slots : List (Fin n))
  /-- `kexit`: in `wakeup(p->parent)`. -/
  | wakeParent (status : Int) (parent : Option (Fin n)) (slots : List (Fin n))
  /-- `kwait`: in the loop over the table. -/
  | scanning (rest : List (Fin n)) (havekids : Bool)
  /-- `kwait`: there are children, and none has exited. -/
  | waiting
  /-- `kwait`: back from `sleep_prepare`. -/
  | waitPrepared
  /-- `kwait`: `wait_lock` is released. -/
  | waitReleased
  /-- `kwait`: in `sleep`. -/
  | waitAsleep
  /-- `kwait`: back from `sleep`. -/
  | waitReturned
  deriving DecidableEq

/-- The process holds `wait_lock`. -/
def Pc.holds {n : Nat} : Pc n → Bool
  | .reparent _ _ | .wakeInit _ _ _ | .wakeParent _ _ _ | .scanning _ _ | .waiting
  | .waitPrepared => true
  | _ => false

/-- `exits` and `reaped` are for the statements: who has called `kexit` with which status, and which
pids and statuses `kwait` has returned to whom. -/
structure State (n : Nat) (Other : Type) where
  proc : Fin n → Proc (Fin n) (Chan n Other)
  pc : Fin n → Pc n
  waitLock : Option (Fin n)
  nextpid : Nat
  exits : List (Nat × Int)
  reaped : List (Fin n × Nat × Int)

inductive Action (n : Nat) (Other : Type) where
  | kfork (who np : Fin n)
  /-- `allocproc` or `uvmcopy` fails after the pid is allocated. -/
  | kforkFails (who np : Fin n)
  | sleepPrepare (who : Fin n) (chan : Other)
  /-- The caller of `sleep_prepare` returns without having slept. -/
  | giveUp (who : Fin n)
  | kexit (who : Fin n) (status : Int)
  | kwait (who : Fin n)
  /-- The next section of the call in progress. The flag is whether `copyout` succeeds. -/
  | advance (who : Fin n) (copied : Bool)
  /-- What a `wakeup` of another channel does to a slot. -/
  | wakeupOther (q : Fin n) (chan : Other)
  /-- What `kkill` does to its victim. -/
  | kkill (q : Fin n)
  | dispatch (q : Fin n)
  | yield (q : Fin n)

section Steps

variable {n : Nat} {Other : Type}

/-- After `userinit`. -/
def start (initproc : Fin n) : State n Other where
  proc q := if q = initproc then { Proc.empty with state := .runnable, pid := 1 } else .empty
  pc := fun _ => .idle
  waitLock := none
  nextpid := 2
  exits := []
  reaped := []

namespace State

def setPc (state : State n Other) (who : Fin n) (pc : Pc n) : State n Other :=
  { state with pc := Function.update state.pc who pc }

def setProc (state : State n Other) (q : Fin n) (proc : Proc (Fin n) (Chan n Other)) :
    State n Other :=
  { state with proc := Function.update state.proc q proc }

/-- `acquire(&wait_lock)`, where the call goes on at a place in the code. -/
def lockWait (state : State n Other) (who : Fin n) (pc : Pc n) : Option (State n Other) :=
  if state.waitLock = none then some { state.setPc who pc with waitLock := some who } else none

/-- `release(&wait_lock)`. -/
def unlockWait (state : State n Other) (who : Fin n) (pc : Pc n) : State n Other :=
  { state.setPc who pc with waitLock := none }

/-- `kexit` from `acquire(&wait_lock)` on. -/
def leave (state : State n Other) (who : Fin n) (status : Int) : State n Other :=
  { state.setPc who (.reparent status (List.finRange n)) with
    waitLock := some who
    exits := state.exits ++ [((state.proc who).pid, status)] }

/-- The end of `kexit`. -/
def exit (state : State n Other) (who : Fin n) (status : Int) : State n Other :=
  (state.setProc who { state.proc who with xstate := status, state := .zombie }).unlockWait who .idle

/-- `kwait` frees a zombie and returns its pid. -/
def reap (state : State n Other) (who q : Fin n) : State n Other :=
  { (state.setProc q { (state.proc q).free with parent := none }).unlockWait who .idle with
    reaped := state.reaped ++ [(who, (state.proc q).pid, (state.proc q).xstate)] }

variable [DecidableEq Other]

/-- The next section of the call in progress. -/
def advance (initproc : Fin n) (state : State n Other) (who : Fin n) (copied : Bool) :
    Option (State n Other) :=
  match state.pc who with
  | .idle => none
  | .forking np =>
      if state.waitLock = none then
        some ((state.setProc np { state.proc np with parent := some who }).setPc who (.parented np))
      else none
  | .parented np =>
      some ((state.setProc np { state.proc np with state := .runnable }).setPc who .idle)
  | .prepared =>
      some ((state.setProc who (state.proc who).sleep).setPc who
        (if (state.proc who).chan.isSome then .napping else .idle))
  | .napping => some (state.setPc who .idle)
  | .reparent status [] =>
      -- Parent might be sleeping in wait().
      some (state.setPc who (.wakeParent status (state.proc who).parent (List.finRange n)))
  | .reparent status (q :: rest) =>
      if (state.proc q).parent = some who then
        some ((state.setProc q { state.proc q with parent := some initproc }).setPc who
          (.wakeInit status rest (List.finRange n)))
      else some (state.setPc who (.reparent status rest))
  | .wakeInit status rest [] => some (state.setPc who (.reparent status rest))
  | .wakeInit status rest (q :: slots) =>
      some ((state.setProc q ((state.proc q).wakeup (.inl initproc))).setPc who
        (.wakeInit status rest slots))
  | .wakeParent status parent (q :: slots) =>
      some ((state.setProc q (parent.elim (state.proc q) fun parent =>
        (state.proc q).wakeup (.inl parent))).setPc who (.wakeParent status parent slots))
  | .wakeParent status _ [] => some (state.exit who status)
  | .scanning [] havekids =>
      -- No point waiting if we don't have any children.
      if havekids = false ∨ (state.proc who).killed then some (state.unlockWait who .idle)
      else some (state.setPc who .waiting)
  | .scanning (q :: rest) havekids =>
      if (state.proc q).parent = some who then
        if (state.proc q).state = .zombie then
          if copied then some (state.reap who q) else some (state.unlockWait who .idle)
        else some (state.setPc who (.scanning rest true))
      else some (state.setPc who (.scanning rest havekids))
  | .waiting =>
      some ((state.setProc who ((state.proc who).sleepPrepare (.inl who))).setPc who .waitPrepared)
  | .waitPrepared => some (state.unlockWait who .waitReleased)
  | .waitReleased =>
      some ((state.setProc who (state.proc who).sleep).setPc who
        (if (state.proc who).chan.isSome then .waitAsleep else .waitReturned))
  | .waitAsleep => some (state.setPc who .waitReturned)
  | .waitReturned => state.lockWait who (.scanning (List.finRange n) false)

end State

variable [DecidableEq Other]

/-- A process takes a step only while it runs. -/
def step (initproc : Fin n) (state : State n Other) : Action n Other → Option (State n Other)
  | .kfork who np =>
      if (state.proc who).state = .running ∧ state.pc who = .idle ∧
          (state.proc np).state = .unused then
        some { (state.setProc np { state.proc np with pid := state.nextpid, state := .used }).setPc
            who (.forking np) with
          nextpid := state.nextpid + 1 }
      else none
  | .kforkFails who np =>
      if (state.proc who).state = .running ∧ state.pc who = .idle ∧
          (state.proc np).state = .unused then
        some { state.setProc np (state.proc np).free with nextpid := state.nextpid + 1 }
      else none
  | .sleepPrepare who chan =>
      if (state.proc who).state = .running ∧ state.pc who = .idle then
        some ((state.setProc who ((state.proc who).sleepPrepare (.inr chan))).setPc who .prepared)
      else none
  | .giveUp who =>
      if (state.proc who).state = .running ∧ state.pc who = .prepared then
        some (state.setPc who .idle)
      else none
  | .kexit who status =>
      -- init exiting is a panic
      if (state.proc who).state = .running ∧ state.pc who = .idle ∧ who ≠ initproc ∧
          state.waitLock = none then
        some (state.leave who status)
      else none
  | .kwait who =>
      if (state.proc who).state = .running ∧ state.pc who = .idle then
        state.lockWait who (.scanning (List.finRange n) false)
      else none
  | .advance who copied =>
      if (state.proc who).state = .running then state.advance initproc who copied else none
  | .wakeupOther q chan => some (state.setProc q ((state.proc q).wakeup (.inr chan)))
  | .kkill q => some (state.setProc q (state.proc q).kill)
  | .dispatch q =>
      if (state.proc q).state = .runnable then
        some (state.setProc q { state.proc q with state := .running })
      else none
  | .yield q =>
      if (state.proc q).state = .running then
        some (state.setProc q { state.proc q with state := .runnable })
      else none

end Steps

end Xv6.Tree
