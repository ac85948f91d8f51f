import Xv6.Lib.CircularBuffer
import Xv6.Lib.Threads

/-!
# The transmitter of the UART

`uartputc`, `uartstart` and `uartintr` of the arm64 kernel on a PL011, which drains its FIFO meanwhile. Each access to a
register is a step of its own, also under `uart_tx_lock`.
-/

namespace Xv6.Uart

abbrev Byte := BitVec 8

/-- `UART_TX_BUF_SIZE`. -/
abbrev txBufSize : Nat := 32

theorem neZero_txBufSize : NeZero txBufSize := ⟨Nat.succ_ne_zero 31⟩

attribute [local instance] neZero_txBufSize

/-- `uart_tx_buf`, `uart_tx_r` and `uart_tx_w`. -/
abbrev Tx := CircularBuffer 64 txBufSize Byte

/-- The transmit FIFO of the device. A transmit interrupt becomes pending when it is drained to the trigger level. -/
structure Fifo where
  capacity : Nat
  trigger : Nat
  trigger_lt : trigger < capacity

/-- What the processors and the device share. The last four are for the statements: the bytes that `uartputc` has stored,
those of them that were written to `DR`, who is in `uartintr`, and who has yet to look whether there is something to be
sent and room for it. -/
structure State (ι : Type) where
  tx : Tx
  lock : Option ι
  /-- The process is `SLEEPING` on `&uart_tx_r`. -/
  sleeping : ι → Bool
  panicked : Bool
  /-- How many bytes are in the transmit FIFO. -/
  level : Nat
  /-- The bytes in the receive FIFO. -/
  received : List Byte
  /-- The transmit interrupt is pending. -/
  pending : Bool
  stored : List Byte
  sent : List Byte
  handling : ι → Bool
  due : ι → Bool

inductive Op where
  | acquire
  | release
  | panicked
  /-- `uart_tx_w == uart_tx_r + UART_TX_BUF_SIZE`. -/
  | full
  /-- `sleep(&uart_tx_r, &uart_tx_lock)`, until it is in `sched`. -/
  | sleep
  /-- `sched` returns. -/
  | resume
  /-- `uart_tx_buf[uart_tx_w % UART_TX_BUF_SIZE] = c; uart_tx_w += 1`. -/
  | put (c : Byte)
  /-- `uart_tx_w == uart_tx_r`. -/
  | empty
  /-- `ReadReg(FR) & FR_TXFF`. -/
  | txff
  /-- `uart_tx_buf[uart_tx_r % UART_TX_BUF_SIZE]`. -/
  | head
  /-- `uart_tx_r += 1`. -/
  | advance
  | wakeup
  /-- `WriteReg(DR, c)` in `uartstart`. -/
  | send (c : Byte)
  /-- `FR` is read until `FR_TXFF` is clear. -/
  | awaitRoom
  /-- `WriteReg(DR, c)` in `uartputc_sync`. -/
  | sendSync (c : Byte)
  /-- `ReadReg(FR) & FR_RXFE`. -/
  | rxfe
  /-- `ReadReg(DR)`. -/
  | receive
  /-- Some byte that `consoleintr` echoes. -/
  | echo
  /-- A processor enters `uartintr`. -/
  | enter
  /-- `WriteReg(ICR, INT_RX_ENABLE|INT_TX_ENABLE)`, the last that `uartintr` does. -/
  | clear
  /-- How many rounds a loop makes at most. -/
  | rounds
  /-- The loop has made its rounds. -/
  | stop
  /-- This is not reached. -/
  | never

def Op.Resp : Op → Type
  | .panicked | .full | .empty | .txff | .rxfe => Bool
  | .head | .receive | .echo => Byte
  | .rounds => Nat
  | .stop | .never => Empty
  | _ => Unit

def registers : Signature := ⟨Op, Op.Resp⟩

abbrev Code (α : Type) := Program registers α

/-! ### The code -/

section Code

def perform (op : Op) : Code op.Resp := Program.call (op : registers.Op) .ret

def stop {α : Type} : Code α := Program.call (Op.stop : registers.Op) fun never => nomatch (never : Empty)

def never {α : Type} : Code α := Program.call (Op.never : registers.Op) fun never => nomatch (never : Empty)

/-- The loop of `uartstart`. It holds `uart_tx_lock`, so each round but the last sends one of the bytes that are buffered
at the start. -/
def uartstartFrom : (rounds : Nat) → Code Unit
  | 0 => never
  | rounds + 1 => do
      let empty : Bool ← perform .empty
      if empty then pure ()
      else
        let full : Bool ← perform .txff
        if full then pure ()
        else
          let c : Byte ← perform .head
          perform .advance
          perform .wakeup
          perform (.send c)
          uartstartFrom rounds

/-- If the UART is idle, and a character is waiting in the transmit buffer, send it. Caller must hold `uart_tx_lock`. -/
def uartstart : Code Unit := uartstartFrom (txBufSize + 1)

/-- The loop of `uartputc`. -/
def uartputcFrom (c : Byte) : (rounds : Nat) → Code Unit
  | 0 => stop
  | rounds + 1 => do
      let full : Bool ← perform .full
      if full then
        perform .sleep
        perform .resume
        perform .acquire
        uartputcFrom c rounds
      else
        perform (.put c)
        uartstart
        perform .release

def uartputc (c : Byte) : Code Unit := do
  perform .acquire
  let panicked : Bool ← perform .panicked
  if panicked then stop
  else
    let rounds : Nat ← perform .rounds
    uartputcFrom c rounds

/-- Alternate version of `uartputc` that doesn't use interrupts. -/
def uartputcSync (c : Byte) : Code Unit := do
  let panicked : Bool ← perform .panicked
  if panicked then stop
  else
    perform .awaitRoom
    perform (.sendSync c)

/-- `consoleintr`, of which only the echo is seen here: any number of any bytes. -/
def consoleintr : (rounds : Nat) → Code Unit
  | 0 => pure ()
  | rounds + 1 => do
      let c : Byte ← perform .echo
      uartputcSync c
      consoleintr rounds

/-- The loop of `uartintr` that reads and processes incoming characters. -/
def uartintrFrom : (rounds : Nat) → Code Unit
  | 0 => stop
  | rounds + 1 => do
      let empty : Bool ← perform .rxfe
      if empty then pure ()
      else
        let _ ← perform .receive
        let echoes : Nat ← perform .rounds
        consoleintr echoes
        uartintrFrom rounds

def uartintr : Code Unit := do
  perform .enter
  let rounds : Nat ← perform .rounds
  uartintrFrom rounds
  perform .acquire
  uartstart
  perform .release
  perform .clear

end Code

/-! ### The steps -/

section Steps

variable {ι : Type} [DecidableEq ι] (fifo : Fifo)

namespace State

variable (state : State ι)

/-- A byte is written to `DR`. It is lost where there is no room. -/
def transmit : State ι := { state with level := min (state.level + 1) fifo.capacity }

def drain : State ι :=
  { state with level := state.level - 1, pending := state.pending || state.level == fifo.trigger + 1 }

def setDue (who : ι) (due : Bool) : State ι := { state with due := Function.update state.due who due }

end State

/-- What each step does. Who waits for the lock, or sleeps, takes none. -/
def handler : Handler registers (State ι) ι
  | who, state, .acquire, _ => if state.lock = none then some ((), { state with lock := some who }) else none
  | _, state, .release, _ => some ((), { state with lock := none })
  | _, state, .panicked, _ => some (state.panicked, state)
  | _, state, .full, _ =>
      if state.tx.nwrite = state.tx.nread + BitVec.ofNat 64 txBufSize then some (true, state) else some (false, state)
  | who, state, .sleep, _ =>
      some ((), { state with lock := none, sleeping := Function.update state.sleeping who true })
  | who, state, .resume, _ => if state.sleeping who then none else some ((), state)
  | who, state, .put c, _ =>
      some ((), { state with tx := state.tx.put c, stored := state.stored ++ [c] }.setDue who true)
  | who, state, .empty, _ =>
      if state.tx.nwrite = state.tx.nread then some (true, state.setDue who false) else some (false, state)
  | who, state, .txff, _ =>
      if state.level = fifo.capacity then some (true, state.setDue who false) else some (false, state)
  | _, state, .head, _ => some (state.tx.head, state)
  | _, state, .advance, _ => some ((), { state with tx := state.tx.advance })
  | _, state, .wakeup, _ => some ((), { state with sleeping := fun _ => false })
  | _, state, .send c, _ => some ((), { state with sent := state.sent ++ [c] }.transmit fifo)
  | _, state, .awaitRoom, _ => if state.level = fifo.capacity then none else some ((), state)
  | _, state, .sendSync _, _ => some ((), state.transmit fifo)
  | _, state, .rxfe, _ => some (state.received.isEmpty, state)
  | _, state, .receive, _ => some (state.received.headD 0, { state with received := state.received.tail })
  | _, state, .echo, choice => some (BitVec.ofNat 8 choice, state)
  | who, state, .enter, _ =>
      some ((), { state with handling := Function.update state.handling who true }.setDue who true)
  | who, state, .clear, _ =>
      some ((), { state with pending := false, handling := Function.update state.handling who false })
  | _, state, .rounds, choice => some (choice, state)
  | _, _, .stop, _ => none
  | _, _, .never, _ => none

/-- A process writes a byte, or a processor is interrupted. -/
inductive Call where
  | uartputc (c : Byte)
  | uartintr
  deriving DecidableEq

def menu : ι → Call → Unit → Option (Code Unit)
  | _, .uartputc c, _ => some (uartputc c)
  | _, .uartintr, _ => some uartintr

/-- The device drains a byte or receives one; the kernel panics; or a process is woken by `kill`. -/
inductive Env (ι : Type) where
  | drain
  | receive (c : Byte)
  | panic
  | kill (who : ι)
  deriving DecidableEq

def happen (state : State ι) : Env ι → Option (State ι)
  | .drain => if state.level = 0 then none else some (state.drain fifo)
  | .receive c =>
      if state.received.length < fifo.capacity then some { state with received := state.received ++ [c] } else none
  | .panic => some { state with panicked := true }
  | .kill who => some { state with sleeping := Function.update state.sleeping who false }

def system : Threads.System registers (State ι) ι Unit Call (Env ι) where
  handler := handler fifo
  menu := menu
  environment world event := (happen fifo world.shared event).map fun shared => { world with shared }

/-- After `uartinit`. -/
def boot (ι : Type) : Threads registers (State ι) ι Unit where
  shared :=
    { tx := .empty 0, lock := none, sleeping := fun _ => false, panicked := false, level := 0, received := []
      pending := false, stored := [], sent := [], handling := fun _ => false, due := fun _ => false }
  thread := fun _ => .ret ()

end Steps

end Xv6.Uart
