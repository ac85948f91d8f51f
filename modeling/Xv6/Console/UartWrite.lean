import Mathlib.Data.List.FinRange
import Xv6.Lib.Threads
import Xv6.Proc.Table

/-!
# Writing to the UART

`uartwrite`, `uartputc_sync` and `uartintr` of the riscv64 kernel, with `acquiresleep` and `releasesleep` of `tx_lock` and
the two steps of sleeping. Each access to a register is a step of its own, and so is each section under a `p->lock`. The
agents are the processes and any number of processors that take interrupts.
-/

namespace Xv6.UartWrite

abbrev Byte := UInt8

/-- The channels: `&tx_lock`, `&tx_chan`, and those of the rest of the kernel. -/
inductive Chan (χ : Type) where
  | txLock
  | txChan
  | other (chan : χ)
  deriving DecidableEq

/-- What the processes, the processors and the device share. The last four are for the statements: what was written to `THR`,
and by which call of `uartwrite` if by one; the bytes of the call that a process is in; the calls whose loop has come to its
end; and which slots an agent that has acknowledged the interrupt has yet to come to. -/
structure State (n : Nat) (κ χ : Type) where
  proc : Fin n → Proc (Fin n) (Chan χ)
  nextpid : Nat
  /-- Who holds `tx_lock.lk`. -/
  lk : Option (Fin n ⊕ κ)
  /-- `tx_lock.locked`. -/
  locked : Bool
  /-- `tx_lock.pid`. -/
  pid : Nat
  panicked : Bool
  /-- `LSR_TX_IDLE`. -/
  idle : Bool
  /-- The transmit interrupt is raised and not acknowledged. -/
  pending : Bool
  received : List Byte
  line : List (Option (Fin n) × Byte)
  call : Fin n → Option (List Byte)
  finished : List (Fin n × List Byte)
  due : Fin n ⊕ κ → Fin n → Bool

inductive Op (n : Nat) (χ : Type) where
  | acquire
  | release
  /-- `lk->locked`. -/
  | locked
  /-- `lk->locked = 1; lk->pid = myproc()->pid`. -/
  | lock
  /-- `lk->locked = 0; lk->pid = 0`. -/
  | unlock
  | sleepPrepare (chan : Chan χ)
  /-- `sleep`, until it is in `sched`. -/
  | sleep
  /-- `wakeup(chan)` at a slot. -/
  | wakeup (chan : Chan χ) (p : Fin n)
  /-- `kkill(pid)` at a slot: is it the one? -/
  | kkill (pid : Nat) (p : Fin n)
  /-- `ReadReg(LSR) & LSR_TX_IDLE`. -/
  | txIdle
  /-- `WriteReg(THR, c)` in `uartwrite`. -/
  | send (c : Byte)
  /-- The loop of `uartwrite` has come to its end. -/
  | finish
  | panicked
  /-- `LSR` is read until `LSR_TX_IDLE` is set. -/
  | awaitIdle
  /-- `WriteReg(THR, c)` in `uartputc_sync`. -/
  | sendSync (c : Byte)
  /-- `ReadReg(ISR)`. -/
  | acknowledge
  /-- `ReadReg(LSR) & LSR_RX_READY`. -/
  | rxReady
  /-- `ReadReg(RHR)`. -/
  | receive
  /-- Some byte that `consoleintr` echoes. -/
  | echo
  /-- How many rounds a loop makes at most. -/
  | rounds
  /-- The loop has made its rounds. -/
  | stop

def Op.Resp {n : Nat} {χ : Type} : Op n χ → Type
  | .locked | .kkill _ _ | .txIdle | .panicked | .rxReady => Bool
  | .receive | .echo => Byte
  | .rounds => Nat
  | .stop => Empty
  | _ => Unit

def steps (n : Nat) (χ : Type) : Signature := ⟨Op n χ, Op.Resp⟩

abbrev Code (n : Nat) (χ α : Type) := Program (steps n χ) α

/-! ### The code -/

section Code

variable {n : Nat} {χ : Type}

def perform (op : Op n χ) : Code n χ op.Resp := Program.call (op : (steps n χ).Op) .ret

def never {α : Type} (nothing : Empty) : Code n χ α := nothing.elim

def stop {α : Type} : Code n χ α := Program.call (Op.stop : (steps n χ).Op) never

def wakeup (chan : Chan χ) : Code n χ PUnit := (List.finRange n).forM fun p => perform (.wakeup chan p)

/-- The loop of `kkill`. -/
def kkillFrom (pid : Nat) : List (Fin n) → Code n χ Unit
  | [] => pure ()
  | p :: rest => do
      let found : Bool ← perform (.kkill pid p)
      if found then pure () else kkillFrom pid rest

def kkill (pid : Nat) : Code n χ Unit := kkillFrom pid (List.finRange n)

/-- The loop of `acquiresleep(&tx_lock)`. -/
def acquiresleepFrom : (rounds : Nat) → Code n χ Unit
  | 0 => stop
  | rounds + 1 => do
      let locked : Bool ← perform .locked
      if locked then
        perform (.sleepPrepare .txLock)
        perform .release
        perform .sleep
        perform .acquire
        acquiresleepFrom rounds
      else
        perform .lock
        perform .release

def acquiresleep : Code n χ Unit := do
  perform .acquire
  let rounds : Nat ← perform .rounds
  acquiresleepFrom rounds

def releasesleep : Code n χ Unit := do
  perform .acquire
  perform .unlock
  wakeup .txLock
  perform .release

/-- The loop of `uartwrite`. -/
def uartwriteFrom (buf : Nat → Byte) (size : Int) : (rounds : Nat) → (i : Nat) → Code n χ Unit
  | 0, _ => stop
  | rounds + 1, i =>
      if i < size then do
        perform (.sleepPrepare .txChan)
        let idle : Bool ← perform .txIdle
        if idle then
          perform (.send (buf i))
          uartwriteFrom buf size rounds (i + 1)
        else
          perform .sleep
          uartwriteFrom buf size rounds i
      else
        pure ()

def uartwrite (buf : Nat → Byte) (size : Int) : Code n χ Unit := do
  acquiresleep
  let rounds : Nat ← perform .rounds
  uartwriteFrom buf size rounds 0
  perform .finish
  releasesleep

def uartputcSync (c : Byte) : Code n χ Unit := do
  let panicked : Bool ← perform .panicked
  if panicked then stop
  else
    perform .awaitIdle
    perform (.sendSync c)

/-- The echo of `consoleintr`: any number of any bytes. -/
def consputc : (rounds : Nat) → Code n χ Unit
  | 0 => pure ()
  | rounds + 1 => do
      let c : Byte ← perform .echo
      uartputcSync c
      consputc rounds

/-- `consoleintr`, of which only the echo is seen here and that it may wake the readers of the console. -/
def consoleintr (cons : χ) : Code n χ Unit := do
  let echoes : Nat ← perform .rounds
  consputc echoes
  let wakes : Nat ← perform .rounds
  if wakes = 0 then pure () else wakeup (.other cons)

/-- The loop of `uartintr` that reads and processes incoming characters. -/
def uartintrFrom (cons : χ) : (rounds : Nat) → Code n χ Unit
  | 0 => stop
  | rounds + 1 => do
      let ready : Bool ← perform .rxReady
      if ready then
        let _ ← perform .receive
        consoleintr cons
        uartintrFrom cons rounds
      else
        pure ()

def uartintr (cons : χ) : Code n χ Unit := do
  perform .acknowledge
  let idle : Bool ← perform .txIdle
  if idle then
    -- UART finished transmitting; wake up sending thread.
    wakeup .txChan
    let rounds : Nat ← perform .rounds
    uartintrFrom cons rounds
  else
    let rounds : Nat ← perform .rounds
    uartintrFrom cons rounds

def wait (chan : χ) : Code n χ Unit := do
  perform (.sleepPrepare (.other chan))
  let waits : Nat ← perform .rounds
  if waits = 0 then pure () else perform .sleep

end Code

/-! ### The steps -/

section Steps

variable {n : Nat} {κ χ : Type} [DecidableEq κ] [DecidableEq χ]

namespace State

variable (state : State n κ χ)

def setProc (p : Fin n) (proc : Proc (Fin n) (Chan χ)) : State n κ χ :=
  { state with proc := Function.update state.proc p proc }

/-- A byte is written to `THR`. -/
def transmit (writer : Option (Fin n)) (c : Byte) : State n κ χ :=
  { state with idle := false, line := state.line ++ [(writer, c)] }

def setDue (who : Fin n ⊕ κ) (due : Fin n → Bool) : State n κ χ :=
  { state with due := Function.update state.due who due }

def setCall (p : Fin n) (call : Option (List Byte)) : State n κ χ :=
  { state with call := Function.update state.call p call }

end State

def Runs (state : State n κ χ) : Fin n ⊕ κ → Bool
  | .inl p => (state.proc p).state = .running
  | .inr _ => true

/-- What each step does, to `who` if it is about `myproc()`. -/
def act : Handler (steps n χ) (State n κ χ) (Fin n ⊕ κ)
  | who, state, .acquire, _ => if state.lk = none then some ((), { state with lk := some who }) else none
  | _, state, .release, _ => some ((), { state with lk := none })
  | _, state, .locked, _ => some (state.locked, state)
  | .inl p, state, .lock, _ => some ((), { state with locked := true, pid := (state.proc p).pid })
  | .inl _, state, .unlock, _ => some ((), { state with locked := false, pid := 0 })
  | .inl p, state, .sleepPrepare chan, _ => some ((), state.setProc p ((state.proc p).sleepPrepare chan))
  | .inl p, state, .sleep, _ => some ((), state.setProc p (state.proc p).sleep)
  | who, state, .wakeup chan p, _ =>
      let woken := state.setProc p ((state.proc p).wakeup chan)
      some ((), if chan = .txChan then woken.setDue who (Function.update (state.due who) p false) else woken)
  | _, state, .kkill pid p, _ =>
      if (state.proc p).pid = pid then some (true, state.setProc p (state.proc p).kill) else some (false, state)
  | who, state, .txIdle, _ =>
      if state.idle then some (true, state) else some (false, state.setDue who fun _ => false)
  | .inl p, state, .send c, _ => some ((), state.transmit (some p) c)
  | .inl p, state, .finish, _ =>
      some ((), { state.setCall p none with
        finished := state.finished ++ (state.call p).toList.map fun bytes => (p, bytes) })
  | _, state, .panicked, _ => some (state.panicked, state)
  | _, state, .awaitIdle, _ => if state.idle then some ((), state) else none
  | _, state, .sendSync c, _ => some ((), state.transmit none c)
  | who, state, .acknowledge, _ => some ((), { state with pending := false }.setDue who fun _ => true)
  | _, state, .rxReady, _ => some (!state.received.isEmpty, state)
  | _, state, .receive, _ => some (state.received.headD 0, { state with received := state.received.tail })
  | _, state, .echo, choice => some (UInt8.ofNat choice, state)
  | _, state, .rounds, choice => some (choice, state)
  | _, _, .stop, _ => none
  -- An interrupt handler has no `myproc()` to put to sleep.
  | .inr _, _, _, _ => none

def handler : Handler (steps n χ) (State n κ χ) (Fin n ⊕ κ) :=
  fun who state op choice => if Runs state who then act who state op choice else none

/-- What is called besides `uartwrite`. A processor is interrupted at any time, for a byte received or for no reason too. -/
inductive Call (χ : Type) where
  | uartputcSync (c : Byte)
  | uartintr
  | kkill (pid : Nat)
  | wakeup (chan : χ)
  | wait (chan : χ)
  deriving DecidableEq

def menu (cons : χ) : Call χ → Code n χ Unit
  | .uartputcSync c => uartputcSync c
  | .uartintr => uartintr cons
  | .kkill pid => kkill pid
  | .wakeup chan => wakeup (.other chan)
  | .wait chan => wait chan

/-- A process calls `uartwrite`; the device has sent a byte, or received one; the kernel panics; and what becomes of the
processes. -/
inductive Env (n : Nat) where
  | uartwrite (p : Fin n) (buf : Nat → Byte) (size : Int)
  | transmitted
  | receive (c : Byte)
  | panic
  | dispatch (p : Fin n)
  | yield (p : Fin n)
  | alloc (p : Fin n)
  | exit (p : Fin n)
  | free (p : Fin n)

abbrev World (n : Nat) (κ χ : Type) := Threads (steps n χ) (State n κ χ) (Fin n ⊕ κ) Unit

def bytesOf (buf : Nat → Byte) (size : Int) : List Byte := (List.range size.toNat).map buf

/-- An agent is in none of its calls. -/
def Returned (world : World n κ χ) (who : Fin n ⊕ κ) : Bool :=
  match world.thread who with
  | .ret _ => true
  | .call _ _ => false

def moves (world : World n κ χ) (p : Fin n) (guard : Bool) (proc : Proc (Fin n) (Chan χ)) : Option (World n κ χ) :=
  if guard then some { world with shared := world.shared.setProc p proc } else none

def environment (world : World n κ χ) : Env n → Option (World n κ χ)
  | .uartwrite p buf size =>
      if Returned world (.inl p) && Runs world.shared (.inl p) then
        some ⟨world.shared.setCall p (some (bytesOf buf size)),
          Function.update world.thread (.inl p) (uartwrite buf size)⟩
      else none
  | .transmitted =>
      if world.shared.idle then none else some { world with shared := { world.shared with idle := true, pending := true } }
  | .receive c => some { world with shared := { world.shared with received := world.shared.received ++ [c] } }
  | .panic => some { world with shared := { world.shared with panicked := true } }
  | .dispatch p =>
      moves world p ((world.shared.proc p).state = .runnable) { world.shared.proc p with state := .running }
  | .yield p =>
      moves world p ((world.shared.proc p).state = .running) { world.shared.proc p with state := .runnable }
  | .alloc p =>
      if (world.shared.proc p).state = .unused then
        some { world with shared := { world.shared.setProc p
          { world.shared.proc p with state := .runnable, pid := world.shared.nextpid } with
            nextpid := world.shared.nextpid + 1 } }
      else none
  | .exit p =>
      moves world p (Returned world (.inl p) && Runs world.shared (.inl p)) { world.shared.proc p with state := .zombie }
  | .free p =>
      moves world p ((world.shared.proc p).state = .zombie) (world.shared.proc p).free

def system (cons : χ) : Threads.System (steps n χ) (State n κ χ) (Fin n ⊕ κ) Unit (Call χ) (Env n) where
  handler := handler
  menu _ which _ := some (menu cons which)
  environment := environment

/-- After `uartinit`, with whatever the device says. -/
def boot (n : Nat) (κ χ : Type) (idle pending : Bool) : World n κ χ where
  shared :=
    { proc := fun _ => .empty, nextpid := 1, lk := none, locked := false, pid := 0, panicked := false, idle, pending
      received := [], line := [], call := fun _ => none, finished := [], due := fun _ _ => false }
  thread := fun _ => .ret ()

end Steps

end Xv6.UartWrite
