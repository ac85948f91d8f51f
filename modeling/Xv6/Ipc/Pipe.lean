import Xv6.Lib.CircularBuffer
import Xv6.Lib.Threads

/-!
# Pipes

`struct pipe`, and the processes that use one: who holds `pi->lock`, who sleeps and on what, who has
been killed. `proc.c` of the riscv64 kernel puts a process to sleep in two steps, the others in one
under the lock. Either may be woken by `kill`, and so may find that nothing has changed.
-/

namespace Xv6.Ipc

abbrev pipesize : Nat := 512

/-- A `uint`, with its overflow. -/
abbrev UInt := BitVec 32

abbrev Byte := BitVec 8

/-- `struct pipe`, less the lock. -/
structure Pipe where
  data : Fin pipesize → Byte
  /-- Number of bytes read. -/
  nread : UInt
  /-- Number of bytes written. -/
  nwrite : UInt
  /-- Read fd is still open. -/
  readopen : Bool
  /-- Write fd is still open. -/
  writeopen : Bool

/-- The place of a byte in `data`. -/
def slot (count : UInt) : Fin pipesize := Fin.ofNat pipesize count.toNat

namespace Pipe

def empty : Pipe := ⟨fun _ => 0, 0, 0, true, true⟩

/-- `pi->data[pi->nwrite++ % PIPESIZE] = ch`. -/
def put (pi : Pipe) (ch : Byte) : Pipe :=
  { pi with data := Function.update pi.data (slot pi.nwrite) ch, nwrite := pi.nwrite + 1 }

/-- `pi->data[pi->nread % PIPESIZE]`. -/
def head (pi : Pipe) : Byte := pi.data (slot pi.nread)

/-- `pi->nread++`. -/
def advance (pi : Pipe) : Pipe := { pi with nread := pi.nread + 1 }

def close (pi : Pipe) (writable : Bool) : Pipe :=
  if writable then { pi with writeopen := false } else { pi with readopen := false }

def count (pi : Pipe) : Nat := (pi.nwrite - pi.nread).toNat

def contents (pi : Pipe) : List Byte :=
  (List.range pi.count).map fun k => pi.data (slot (pi.nread + BitVec.ofNat 32 k))

end Pipe

/-- `&pi->nread` and `&pi->nwrite`, as channels. -/
inductive Chan where
  | nread
  | nwrite
  deriving DecidableEq

/-- What the processes share. The last three are for the statements: the bytes accepted from writers,
the bytes copied out to readers, and how many bytes the last call of each process has moved. -/
structure State (ι : Type) where
  pipe : Pipe
  lock : Option ι
  /-- `p->chan`. -/
  chan : ι → Option Chan
  /-- The process is `SLEEPING`. -/
  sleeping : ι → Bool
  killed : ι → Bool
  accepted : List Byte
  delivered : List Byte
  moved : ι → Nat

inductive Op where
  | acquire
  | release
  /-- A field of the pipe is read. -/
  | pipe
  | put (ch : Byte)
  | advance
  | close (writable : Bool)
  /-- `added` is for the statements: has the call put bytes into the pipe since its last wakeup? -/
  | killed (added : Bool)
  /-- `copyin` of one byte. -/
  | copyin
  /-- `copyout` of one byte: did it succeed? -/
  | copyout (ch : Byte)
  | wakeup (chan : Chan)
  /-- `sleep(chan, &pi->lock)`, until it is in `sched`. -/
  | sleep (chan : Chan)
  /-- `sched` returns. -/
  | resume
  /-- `p->chan = 0`. -/
  | clearChan
  | sleepPrepare (chan : Chan)
  /-- `sleep()` of the riscv64 kernel, until it is in `sched` or finds that it was woken. -/
  | sleepPrepared
  /-- `wakeup(chan)` of the riscv64 kernel. -/
  | wakeupPrepared (chan : Chan)
  /-- A call begins. -/
  | start
  /-- How many rounds a loop makes at most. -/
  | rounds
  /-- The loop has made its rounds. -/
  | stop

def Op.Resp : Op → Type
  | .pipe => Pipe
  | .killed _ => Bool
  | .copyin => Option Byte
  | .copyout _ => Bool
  | .rounds => Nat
  | .stop => Empty
  | _ => Unit

def sections : Signature := ⟨Op, Op.Resp⟩

abbrev Code (α : Type) := Program sections α

section Code

def perform (op : Op) : Code op.Resp := Program.call (op : sections.Op) .ret

def acquire : Code Unit := perform .acquire

def release : Code Unit := perform .release

def pipe : Code Pipe := perform .pipe

def put (ch : Byte) : Code Unit := perform (.put ch)

def advance : Code Unit := perform .advance

def close (writable : Bool) : Code Unit := perform (.close writable)

def killed (added : Bool) : Code Bool := perform (.killed added)

def copyin : Code (Option Byte) := perform .copyin

def copyout (ch : Byte) : Code Bool := perform (.copyout ch)

def rounds : Code Nat := perform .rounds

def stop {α : Type} : Code α :=
  Program.call (Op.stop : sections.Op) fun never => nomatch (never : Empty)

end Code

section Handler

variable {ι : Type} [DecidableEq ι]

namespace State

variable (state : State ι)

/-- `sched` sees to it that the process sleeps on the channel, and releases the lock. -/
def sleep (who : ι) (chan : Chan) : State ι :=
  { state with
    lock := none
    chan := Function.update state.chan who (some chan)
    sleeping := Function.update state.sleeping who true }

/-- Every process that sleeps on the channel is made `RUNNABLE`. -/
def wakeup (chan : Chan) : State ι :=
  { state with sleeping := fun p => state.sleeping p && decide (state.chan p ≠ some chan) }

/-- Every process that has registered the channel is made `RUNNABLE`, and its `p->chan` cleared. -/
def wakeupPrepared (chan : Chan) : State ι :=
  { state with
    chan := fun p => if state.chan p = some chan then none else state.chan p
    sleeping := fun p => state.sleeping p && decide (state.chan p ≠ some chan) }

/-- `kill` marks the process, and wakes it if it sleeps. -/
def kill (who : ι) : State ι :=
  { state with
    killed := Function.update state.killed who true
    sleeping := Function.update state.sleeping who false }

end State

/-- What each section does. A process that waits for the lock, or sleeps, takes no step. -/
def handler : Handler sections (State ι) ι
  | who, state, .acquire, _ =>
      if state.lock = none then some ((), { state with lock := some who }) else none
  | _, state, .release, _ => some ((), { state with lock := none })
  | _, state, .pipe, _ => some (state.pipe, state)
  | who, state, .put ch, _ => some ((), { state with
      pipe := state.pipe.put ch
      accepted := state.accepted ++ [ch]
      moved := Function.update state.moved who (state.moved who + 1) })
  | _, state, .advance, _ => some ((), { state with pipe := state.pipe.advance })
  | _, state, .close writable, _ => some ((), { state with pipe := state.pipe.close writable })
  | who, state, .killed _, _ => some (state.killed who, state)
  | _, state, .copyin, choice =>
      some (if choice = 0 then none else some (BitVec.ofNat 8 choice), state)
  | who, state, .copyout ch, choice =>
      if choice = 0 then some (false, state)
      else some (true, { state with
        delivered := state.delivered ++ [ch]
        moved := Function.update state.moved who (state.moved who + 1) })
  | _, state, .wakeup chan, _ => some ((), state.wakeup chan)
  | who, state, .sleep chan, _ => some ((), state.sleep who chan)
  | who, state, .resume, _ =>
      if state.sleeping who then none else some ((), state)
  | who, state, .clearChan, _ =>
      some ((), { state with chan := Function.update state.chan who none })
  | who, state, .sleepPrepare chan, _ =>
      some ((), { state with chan := Function.update state.chan who (some chan) })
  | who, state, .sleepPrepared, _ =>
      some ((), { state with
        sleeping := Function.update state.sleeping who (state.chan who).isSome })
  | _, state, .wakeupPrepared chan, _ => some ((), state.wakeupPrepared chan)
  | who, state, .start, _ => some ((), { state with moved := Function.update state.moved who 0 })
  | _, state, .rounds, choice => some (choice, state)
  | _, _, .stop, _ => none

/-- A process calls, from the outside, one of the functions on the pipe. The user address is left out:
`copyin` and `copyout` may fail at any byte. -/
inductive Call where
  | pipewrite (n : Int)
  | piperead (n : Int)
  | pipeclose (writable : Bool)
  deriving DecidableEq

/-- A process is killed. -/
inductive Env (ι : Type) where
  | kill (who : ι)
  deriving DecidableEq

def environment {α : Type} (world : Threads sections (State ι) ι α) :
    Env ι → Option (Threads sections (State ι) ι α)
  | .kill who => some { world with shared := world.shared.kill who }

/-- `pipealloc` has made the pipe, and nobody has called. -/
def boot (ι : Type) : Threads sections (State ι) ι Int where
  shared := ⟨.empty, none, fun _ => none, fun _ => false, fun _ => false, [], [], fun _ => 0⟩
  thread := fun _ => .ret 0

end Handler

/-! ### What is in a pipe -/

namespace Pipe

variable {pi : Pipe}

/-- `data` with its two counters. -/
def ring (pi : Pipe) : CircularBuffer 32 pipesize Byte := ⟨pi.data, pi.nread, pi.nwrite⟩

theorem count_eq_zero : pi.count = 0 ↔ pi.nread = pi.nwrite := by
  rw [eq_comm (a := pi.nread)]
  exact @CircularBuffer.count_eq_zero _ _ _ pi.ring

theorem count_eq_pipesize :
    pi.count = pipesize ↔ pi.nwrite = pi.nread + BitVec.ofNat 32 pipesize :=
  @CircularBuffer.count_eq_iff _ _ _ pi.ring _ (by decide)

theorem length_contents : pi.contents.length = pi.count := @CircularBuffer.length_contents _ _ _ _ pi.ring

theorem count_put (ch : Byte) (hcount : pi.count < pipesize) : (pi.put ch).count = pi.count + 1 :=
  @CircularBuffer.count_put _ _ _ _ pi.ring ch hcount (by decide)

theorem count_advance (hcount : pi.count ≠ 0) : pi.advance.count = pi.count - 1 :=
  @CircularBuffer.count_advance _ _ _ pi.ring _ (Nat.succ_pred_eq_of_ne_zero hcount).symm

theorem contents_put (ch : Byte) (hcount : pi.count < pipesize) :
    (pi.put ch).contents = pi.contents ++ [ch] :=
  @CircularBuffer.contents_put _ _ _ _ pi.ring ch hcount (by decide) (by decide)

theorem contents_of_count_ne_zero (hcount : pi.count ≠ 0) :
    pi.contents = pi.head :: pi.advance.contents :=
  @CircularBuffer.contents_eq_cons _ _ _ _ pi.ring fun heq => hcount (count_eq_zero.mpr heq.symm)

end Pipe

end Xv6.Ipc
