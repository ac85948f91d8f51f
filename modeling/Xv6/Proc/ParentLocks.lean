import Xv6.Lib.Transition
import Xv6.Proc.Family
import Xv6.Proc.Table

/-!
# Exiting and waiting with the locks of the processes alone

`fork`, `exit` with `reparent`, `wait`, `kill`, `sleep` and `wakeup` of `forks/riscv32/kernel/proc.c`. There is no lock but
each `p->lock`; a parent is locked before its child. A step is what is done from one `acquire` of such a lock to the next.
What a process does besides is there as far as it touches its slot: it may sleep on other channels, be woken from them and be
killed at any time.
-/

namespace Xv6.ParentLocks

/-- The channels: the address of a slot, which `wait` sleeps on, or another one. -/
abbrev Chan (n : Nat) (Other : Type) := Fin n ⊕ Other

inductive Pc (n : Nat) where
  | idle
  /-- In `sleep`, outside `wait`. -/
  | napping
  /-- `exit`: about to lock `initproc` and wake it. -/
  | wakeInit (status : Int)
  /-- `exit`: about to lock itself and read its parent. -/
  | readParent (status : Int)
  /-- `exit`: about to lock the parent that was read. -/
  | lockParent (status : Int) (original : Fin n)
  /-- `exit`: about to lock itself. -/
  | lockSelf (status : Int) (original : Fin n)
  /-- `exit`: in the loop of `reparent`. -/
  | reparent (status : Int) (original : Fin n) (rest : List (Fin n))
  /-- `exit`: in `sched`, with its own lock. -/
  | leaving
  /-- `wait`: in the loop over the table. -/
  | scanning (rest : List (Fin n)) (havekids : Bool)
  /-- `wait`: in `sleep`. -/
  | waitAsleep
  deriving DecidableEq

/-- The locks that a process holds at a place in the code. -/
def Pc.holds {n : Nat} (who : Fin n) : Pc n → List (Fin n)
  | .lockSelf _ original => [original]
  | .reparent _ original _ => [original, who]
  | .leaving | .scanning _ _ => [who]
  | _ => []

/-- `exits` and `reaped` are for the statements: who has called `exit` with which status, and which pids and statuses `wait`
has returned to whom. -/
structure State (n : Nat) (Other : Type) where
  proc : Fin n → Proc (Fin n) (Chan n Other)
  pc : Fin n → Pc n
  /-- Who holds `p->lock`. -/
  lock : Fin n → Option (Fin n)
  nextpid : Nat
  exits : List (Nat × Int)
  reaped : List (Fin n × Nat × Int)

inductive Action (n : Nat) (Other : Type) where
  | fork (who np : Fin n)
  /-- `allocproc` fails after the pid is allocated, or `uvmcopy` does, and the slot is freed. -/
  | forkFails (who np : Fin n) (freed : Bool)
  | sleep (who : Fin n) (chan : Other)
  | exit (who : Fin n) (status : Int)
  | wait (who : Fin n)
  /-- The next section of the call in progress. The flag is whether `copyout` succeeds. -/
  | advance (who : Fin n) (copied : Bool)
  /-- What a `wakeup` of another channel does to a slot. -/
  | wakeup (q : Fin n) (chan : Other)
  /-- What `kill` does to its victim. -/
  | kill (q : Fin n)
  | dispatch (q : Fin n)
  | yield (q : Fin n)

section Steps

variable {n : Nat} {Other : Type}

/-- After `userinit`. -/
def start (initproc : Fin n) : State n Other where
  proc q := if q = initproc then { Proc.empty with state := .runnable, pid := 1 } else .empty
  pc := fun _ => .idle
  lock := fun _ => none
  nextpid := 2
  exits := []
  reaped := []

/-- `wakeup` of one slot: it is made `RUNNABLE` if it sleeps on the channel. -/
def wakeSlot [DecidableEq Other] (p : Proc (Fin n) (Chan n Other)) (chan : Chan n Other) : Proc (Fin n) (Chan n Other) :=
  if p.state = .sleeping ∧ p.chan = some chan then { p with state := .runnable } else p

namespace State

def setPc (state : State n Other) (who : Fin n) (pc : Pc n) : State n Other :=
  { state with pc := Function.update state.pc who pc }

def setProc (state : State n Other) (q : Fin n) (proc : Proc (Fin n) (Chan n Other)) : State n Other :=
  { state with proc := Function.update state.proc q proc }

def setLock (state : State n Other) (q : Fin n) (holder : Option (Fin n)) : State n Other :=
  { state with lock := Function.update state.lock q holder }

/-- The process in `exit` becomes a zombie, and releases its parent's lock. -/
def zombify (state : State n Other) (who : Fin n) (status : Int) (original : Fin n) : State n Other :=
  ((state.setProc who { state.proc who with xstate := status, state := .zombie }).setLock original none).setPc who .leaving

/-- `sleep(p, &p->lock)` of `wait`. -/
def waitSleep (state : State n Other) (who : Fin n) : State n Other :=
  ((state.setProc who { state.proc who with chan := some (.inl who), state := .sleeping }).setLock who none).setPc who
    .waitAsleep

/-- `wait` frees a zombie and returns its pid. -/
def reap (state : State n Other) (who q : Fin n) : State n Other :=
  { ((state.setProc q { (state.proc q).free with parent := none }).setLock who none).setPc who .idle with
    reaped := state.reaped ++ [(who, (state.proc q).pid, (state.proc q).xstate)] }

variable [DecidableEq Other]

/-- The next section of the call in progress. -/
def advance (initproc : Fin n) (state : State n Other) (who : Fin n) (copied : Bool) : Option (State n Other) :=
  match state.pc who with
  | .idle | .napping | .waitAsleep => none
  | .wakeInit status =>
      if state.lock initproc = none then
        some ((state.setProc initproc (wakeSlot (state.proc initproc) (.inl initproc))).setPc who (.readParent status))
      else none
  | .readParent status =>
      if state.lock who = none then
        (state.proc who).parent.map fun original => state.setPc who (.lockParent status original)
      else none
  | .lockParent status original =>
      if state.lock original = none then
        some ((state.setLock original (some who)).setPc who (.lockSelf status original))
      else none
  | .lockSelf status original =>
      if state.lock who = none then
        some ((state.setLock who (some who)).setPc who (.reparent status original (List.finRange n)))
      else none
  | .reparent status original (q :: rest) =>
      if (state.proc q).parent = some who then
        if state.lock q = none then
          some ((state.setProc q { state.proc q with parent := some initproc }).setPc who (.reparent status original rest))
        else none
      else some (state.setPc who (.reparent status original rest))
  | .reparent status original [] =>
      -- Parent might be sleeping in wait().
      some ((state.setProc original (wakeSlot (state.proc original) (.inl original))).zombify who status original)
  | .leaving => some ((state.setLock who none).setPc who .idle)
  | .scanning (q :: rest) havekids =>
      if (state.proc q).parent = some who then
        if state.lock q = none then
          if (state.proc q).state = .zombie then
            if copied then some (state.reap who q) else some ((state.setLock who none).setPc who .idle)
          else some (state.setPc who (.scanning rest true))
        else none
      else some (state.setPc who (.scanning rest havekids))
  | .scanning [] havekids =>
      -- No point waiting if we don't have any children.
      if havekids = false ∨ (state.proc who).killed then some ((state.setLock who none).setPc who .idle)
      else some (state.waitSleep who)

/-- The scheduler runs a process, which goes on in `sched`. Back in `wait` it has its lock. -/
def dispatch (state : State n Other) (q : Fin n) : State n Other :=
  match state.pc q with
  | .waitAsleep =>
      ((state.setProc q { state.proc q with state := .running, chan := none }).setLock q (some q)).setPc q
        (.scanning (List.finRange n) false)
  | .napping => (state.setProc q { state.proc q with state := .running, chan := none }).setPc q .idle
  | _ => state.setProc q { state.proc q with state := .running }

end State

variable [DecidableEq Other]

/-- A process takes a step only while it runs, or when it leaves. -/
def step (initproc : Fin n) (state : State n Other) : Action n Other → Option (State n Other)
  | .fork who np =>
      if (state.proc who).state = .running ∧ state.pc who = .idle ∧ (state.proc np).state = .unused ∧
          state.lock np = none then
        some { state.setProc np
            { state.proc np with pid := state.nextpid, parent := some who, state := .runnable } with
          nextpid := state.nextpid + 1 }
      else none
  | .forkFails who np freed =>
      if (state.proc who).state = .running ∧ state.pc who = .idle ∧ (state.proc np).state = .unused ∧
          state.lock np = none then
        some { state.setProc np
            (if freed then { (state.proc np).free with parent := none } else { state.proc np with pid := state.nextpid }) with
          nextpid := state.nextpid + 1 }
      else none
  | .sleep who chan =>
      if (state.proc who).state = .running ∧ state.pc who = .idle ∧ state.lock who = none then
        some ((state.setProc who { state.proc who with chan := some (.inr chan), state := .sleeping }).setPc who .napping)
      else none
  | .exit who status =>
      -- init exiting is a panic
      if (state.proc who).state = .running ∧ state.pc who = .idle ∧ who ≠ initproc then
        some { state.setPc who (.wakeInit status) with exits := state.exits ++ [((state.proc who).pid, status)] }
      else none
  | .wait who =>
      if (state.proc who).state = .running ∧ state.pc who = .idle ∧ state.lock who = none then
        some ((state.setLock who (some who)).setPc who (.scanning (List.finRange n) false))
      else none
  | .advance who copied =>
      if (state.proc who).state = .running ∨ state.pc who = .leaving then state.advance initproc who copied else none
  | .wakeup q chan =>
      if state.lock q = none then some (state.setProc q (wakeSlot (state.proc q) (.inr chan))) else none
  | .kill q => if state.lock q = none then some (state.setProc q (state.proc q).kill) else none
  | .dispatch q =>
      if (state.proc q).state = .runnable ∧ state.lock q = none then some (state.dispatch q) else none
  | .yield q =>
      -- no interrupt comes while a lock is held
      if (state.proc q).state = .running ∧ (state.pc q).holds q = [] ∧ state.lock q = none then
        some (state.setProc q { state.proc q with state := .runnable })
      else none

end Steps

/-! ### Waiting for locks -/

section Waiting

variable {n : Nat} {Other : Type}

/-- The lock that a process goes for. -/
def State.wants (initproc : Fin n) (state : State n Other) (who : Fin n) : Option (Fin n) :=
  match state.pc who with
  | .wakeInit _ => some initproc
  | .readParent _ | .lockSelf _ _ => some who
  | .lockParent _ original => some original
  | .reparent _ _ (q :: _) | .scanning (q :: _) _ => if (state.proc q).parent = some who then some q else none
  | _ => none

def State.Blocked (initproc : Fin n) (state : State n Other) (who holder : Fin n) : Prop :=
  ∃ q, state.wants initproc who = some q ∧ state.lock q = some holder

instance (initproc : Fin n) (state : State n Other) (who holder : Fin n) : Decidable (state.Blocked initproc who holder) :=
  inferInstanceAs (Decidable (∃ q, state.wants initproc who = some q ∧ state.lock q = some holder))

end Waiting

end Xv6.ParentLocks
