import Xv6.Ipc.Wakeups
import Xv6.Proc.Table

/-!
# Lost kills

`sleep`, `wakeup`, `kill`, `fork`, `exit` and `wait` of `forks/arm64/kernel/proc.c`, `sys_sleep`,
`clockintr`, and the functions of the shared `pipe.c` over any number of pipes.

Whoever sleeps in one of these calls tests `killed` first, under the lock it gives to `sleep`. But `kill`
takes `p->lock` and not that lock, so it may come after the test and before `sleep` takes `p->lock`, and
then it finds a process that is not `SLEEPING` yet. The process sleeps on. Apart from that, whoever is
killed does not sleep.
-/

namespace Xv6.LostKill

/-- The locks that are given to `sleep`. -/
inductive Lock (π : Type) where
  | pi (p : π)
  | wait
  | ticks
  deriving DecidableEq

inductive Chan (π ι : Type) where
  | pi (p : π) (chan : Ipc.Chan)
  | proc (q : ι)
  | ticks
  deriving DecidableEq

/-- A process, or `none` for the processor that takes the timer interrupt. -/
abbrev Agent (ι : Type) := Option ι

structure State (π ι : Type) where
  proc : ι → Proc ι (Chan π ι)
  pipe : π → Ipc.Pipe
  ticks : Ipc.UInt
  lock : Lock π → Option (Agent ι)
  nextpid : Nat

/-- `pid` as an `int`. -/
abbrev Pid := BitVec 32

/-- What `allocproc` and `uvmcopy` come to at one slot. -/
inductive Allocated where
  /-- The slot is in use. -/
  | inUse
  /-- There is no memory. -/
  | failed
  | made (pid : Pid)

/-- The sections under a `p->lock`, and what is done between two of them under one of the locks. -/
inductive Op (π ι : Type) where
  | acquire (lk : Lock π)
  | release (lk : Lock π)
  | pipe (p : π)
  | put (p : π) (ch : Ipc.Byte)
  | advance (p : π)
  | close (p : π) (writable : Bool)
  | copyin
  | copyout (ch : Ipc.Byte)
  /-- `ticks` is read. -/
  | ticks
  /-- `ticks++`. -/
  | tick
  /-- `myproc()->killed` is read. -/
  | killed
  /-- `wakeup(chan)` at a slot. -/
  | wakeup (chan : Chan π ι) (q : ι)
  /-- `sleep(chan, lk)`, until it is in `sched`. -/
  | sleep (chan : Chan π ι) (lk : Lock π)
  /-- `sched` returns, and `sleep` goes on until it has released `p->lock`. -/
  | resume
  /-- `kill(pid)` at a slot: is it the one? -/
  | kill (pid : Pid) (q : ι)
  /-- `np->parent == p`. -/
  | isChild (q : ι)
  /-- `wait` at a child: what it returns, if the child is a zombie. -/
  | reap (q : ι)
  /-- `reparent` at a slot: was it a child? -/
  | reparent (q : ι)
  /-- `p->parent` is read. -/
  | parent
  /-- The end of `exit`, until it is in `sched`. -/
  | exit (status : Int)
  | allocproc (q : ι)
  /-- `np->parent = p`. -/
  | setParent (q : ι)
  /-- `np->state = RUNNABLE`. -/
  | runnable (q : ι)
  /-- How many rounds a loop makes at most. -/
  | rounds
  /-- The loop has made its rounds, or the kernel has panicked. -/
  | stop

def Op.Resp {π ι : Type} : Op π ι → Type
  | .pipe _ => Ipc.Pipe
  | .copyin => Option Ipc.Byte
  | .copyout _ | .killed | .kill _ _ | .isChild _ | .reparent _ => Bool
  | .ticks => Ipc.UInt
  | .reap _ => Option Int
  | .parent => Option ι
  | .allocproc _ => Allocated
  | .rounds => Nat
  | .stop => Empty
  | _ => Unit

def sections (π ι : Type) : Signature := ⟨Op π ι, Op.Resp⟩

abbrev Code (π ι α : Type) := Program (sections π ι) α

/-! ### The code -/

section Code

variable {π ι : Type}

def perform (op : Op π ι) : Code π ι op.Resp := Program.call (op : (sections π ι).Op) .ret

def acquire (lk : Lock π) : Code π ι Unit := perform (.acquire lk)

def release (lk : Lock π) : Code π ι Unit := perform (.release lk)

def killed : Code π ι Bool := perform .killed

def ticks : Code π ι Ipc.UInt := perform .ticks

def isChild (q : ι) : Code π ι Bool := perform (.isChild q)

def reap (q : ι) : Code π ι (Option Int) := perform (.reap q)

def stop {α : Type} : Code π ι α :=
  Program.call (Op.stop : (sections π ι).Op) fun never => nomatch (never : Empty)

/-- `proc[]`, as the loops of `proc.c` go through it. -/
abbrev Slots (ι : Type) := List ι

variable (slots : Slots ι)

def sleep (chan : Chan π ι) (lk : Lock π) : Code π ι Unit := do
  perform (.sleep chan lk)
  perform .resume
  acquire lk

def wakeup (chan : Chan π ι) : Code π ι PUnit := slots.forM fun q => perform (.wakeup chan q)

def kill (pid : Pid) : Slots ι → Code π ι Int
  | [] => pure (-1)
  | q :: rest => do
      let found : Bool ← perform (.kill pid q)
      if found then pure 0 else kill pid rest

/-- The loop of `wait` over the table: is there a child, and what does `wait` return if one has
exited? -/
def wait.scan : Slots ι → (havekids : Bool) → Code π ι (Bool × Option Int)
  | [], havekids => pure (havekids, none)
  | np :: rest, havekids => do
      let child ← isChild np
      if child then do
        let reaped ← reap np
        if reaped.isSome then pure (true, reaped) else scan rest true
      else scan rest havekids

/-- The loop of `wait` without end. -/
def wait.loop (p : ι) : (rounds : Nat) → Code π ι Int
  | 0 => stop
  | rounds + 1 => do
      let scanned ← wait.scan slots false
      scanned.2.elim
        (do
          -- No point waiting if we don't have any children.
          let gone ← (if scanned.1 then killed else pure true)
          if gone then do
            release .wait
            pure (-1)
          else do
            -- Wait for a child to exit.
            sleep (.proc p) .wait
            loop p rounds)
        fun value => do
          release .wait
          pure value

def wait (p : ι) : Code π ι Int := do
  let rounds ← perform .rounds
  acquire .wait
  wait.loop slots p rounds

/-- The loop of `reparent`. -/
def reparent (initproc : ι) : Slots ι → Code π ι Unit
  | [] => pure ()
  | pp :: rest => do
      let child : Bool ← perform (.reparent pp)
      if child then do
        wakeup slots (.proc initproc)
        reparent initproc rest
      else reparent initproc rest

/-- `exit` from `acquire(&wait_lock)` on. It does not return, so the thread of the slot starts afresh
once a process is forked into it. -/
def exit [DecidableEq ι] (initproc p : ι) (status : Int) : Code π ι Int :=
  if p = initproc then stop
  else do
    acquire .wait
    reparent slots initproc slots
    let parent ← perform .parent
    parent.elim (pure PUnit.unit) fun q => wakeup slots (.proc q)
    perform (.exit status)
    pure 0

/-- `fork`, from a slot of `allocproc` on. -/
def fork : Slots ι → Code π ι Int
  | [] => pure (-1)
  | np :: rest => do
      let allocated ← perform (.allocproc np)
      match allocated with
      | .inUse => fork rest
      | .failed => pure (-1)
      | .made pid => do
          acquire .wait
          perform (.setParent np)
          release .wait
          perform (.runnable np)
          pure pid.toInt

/-- The loop of `sys_sleep`. -/
def sysSleep.loop (n : Int) (ticks0 : Ipc.UInt) : (rounds : Nat) → Code π ι Int
  | 0 => stop
  | rounds + 1 => do
      let now ← ticks
      if now - ticks0 < BitVec.ofInt 32 n then do
        let gone ← killed
        if gone then do
          release .ticks
          pure (-1)
        else do
          sleep .ticks .ticks
          loop n ticks0 rounds
      else do
        release .ticks
        pure 0

def sysSleep (n : Int) : Code π ι Int := do
  let rounds ← perform .rounds
  acquire .ticks
  let ticks0 ← ticks
  sysSleep.loop n ticks0 rounds

def clockintr : Code π ι Int := do
  acquire .ticks
  perform .tick
  wakeup slots .ticks
  release .ticks
  pure 0

/-- The sections of `pipe.c` on one of the pipes. -/
def onPipe (p : π) : (op : Ipc.sections.Op) → Code π ι (Ipc.sections.Resp op)
  | .acquire => acquire (.pi p)
  | .release => release (.pi p)
  | .pipe => perform (.pipe p)
  | .put ch => perform (.put p ch)
  | .advance => perform (.advance p)
  | .close writable => perform (.close p writable)
  | .killed _ => killed
  | .copyin => perform .copyin
  | .copyout ch => perform (.copyout ch)
  | .wakeup chan => wakeup slots (.pi p chan)
  | .sleep chan => perform (.sleep (.pi p chan) (.pi p))
  | .resume => perform .resume
  -- `resume` has cleared it.
  | .clearChan => pure ()
  | .rounds => perform .rounds
  | .start => pure ()
  | .stop => stop
  -- The shared code has none of these.
  | .sleepPrepare _ | .sleepPrepared | .wakeupPrepared _ => stop

def pipe (p : π) (which : Ipc.Call) : Code π ι Int := (Ipc.call which).translate (onPipe slots p)

inductive Call (π : Type) where
  | pipe (p : π) (which : Ipc.Call)
  | wait
  | sysSleep (n : Int)
  | kill (pid : Pid)
  | fork
  | exit (status : Int)
  | clockintr
  deriving DecidableEq

def call [DecidableEq ι] (initproc : ι) : Agent ι → Call π → Option (Code π ι Int)
  | some _, .pipe p which => some (pipe slots p which)
  | some p, .wait => some (wait slots p)
  | some _, .sysSleep n => some (sysSleep n)
  | some _, .kill pid => some (kill pid slots)
  | some _, .fork => some (fork slots)
  | some p, .exit status => some (exit slots initproc p status)
  | none, .clockintr => some (clockintr slots)
  | _, _ => none

end Code

/-! ### What the sections do -/

section Handler

variable {π ι : Type} [DecidableEq π] [DecidableEq ι]

/-- `sleep`: the process is `SLEEPING` on the channel. -/
def sleepOn (p : Proc ι (Chan π ι)) (chan : Chan π ι) : Proc ι (Chan π ι) :=
  { p with chan := some chan, state := .sleeping }

/-- `wakeup` at a slot. -/
def wake (p : Proc ι (Chan π ι)) (chan : Chan π ι) : Proc ι (Chan π ι) :=
  if p.state = .sleeping ∧ p.chan = some chan then { p with state := .runnable } else p

namespace State

variable (state : State π ι)

def setProc (q : ι) (proc : Proc ι (Chan π ι)) : State π ι :=
  { state with proc := Function.update state.proc q proc }

def setPipe (p : π) (pi : Ipc.Pipe) : State π ι :=
  { state with pipe := Function.update state.pipe p pi }

def setLock (lk : Lock π) (holder : Option (Agent ι)) : State π ι :=
  { state with lock := Function.update state.lock lk holder }

end State

/-- A process takes a step if it runs. Which of those that are `RUNNABLE` the schedulers run is left
open. -/
def Runs (state : State π ι) : Agent ι → Bool
  | none => true
  | some p => decide ((state.proc p).state = .runnable ∨ (state.proc p).state = .running)

/-- What each section does, to `who` if it is about `myproc()`. -/
def act (initproc : ι) : Handler (sections π ι) (State π ι) (Agent ι)
  | who, state, .acquire lk, _ =>
      if state.lock lk = none then some ((), state.setLock lk (some who)) else none
  | _, state, .release lk, _ => some ((), state.setLock lk none)
  | _, state, .pipe p, _ => some (state.pipe p, state)
  | _, state, .put p ch, _ => some ((), state.setPipe p ((state.pipe p).put ch))
  | _, state, .advance p, _ => some ((), state.setPipe p (state.pipe p).advance)
  | _, state, .close p writable, _ => some ((), state.setPipe p ((state.pipe p).close writable))
  | _, state, .copyin, choice =>
      some (if choice = 0 then none else some (BitVec.ofNat 8 choice), state)
  | _, state, .copyout _, choice => some (decide (choice ≠ 0), state)
  | _, state, .ticks, _ => some (state.ticks, state)
  | _, state, .tick, _ => some ((), { state with ticks := state.ticks + 1 })
  | some p, state, .killed, _ => some ((state.proc p).killed, state)
  | who, state, .wakeup chan q, _ =>
      some ((), if who = some q then state else state.setProc q (wake (state.proc q) chan))
  | some p, state, .sleep chan lk, _ =>
      some ((), (state.setProc p (sleepOn (state.proc p) chan)).setLock lk none)
  | some p, state, .resume, _ =>
      some ((), state.setProc p { state.proc p with state := .running, chan := none })
  | _, state, .kill pid q, _ =>
      if BitVec.ofNat 32 (state.proc q).pid = pid then
        some (true, state.setProc q (state.proc q).kill)
      else some (false, state)
  | some p, state, .isChild q, _ => some (decide ((state.proc q).parent = some p), state)
  | _, state, .reap q, choice =>
      if (state.proc q).state = .zombie then
        if choice = 0 then some (some (-1), state)
        else some (some (BitVec.ofNat 32 (state.proc q).pid).toInt,
          state.setProc q { (state.proc q).free with parent := none })
      else some (none, state)
  | some p, state, .reparent q, _ =>
      if (state.proc q).parent = some p then
        some (true, state.setProc q { state.proc q with parent := some initproc })
      else some (false, state)
  | some p, state, .parent, _ => some ((state.proc p).parent, state)
  | some p, state, .exit status, _ =>
      some ((), (state.setProc p { state.proc p with xstate := status, state := .zombie }).setLock
        .wait none)
  | _, state, .allocproc q, choice =>
      if (state.proc q).state = .unused then
        if choice = 0 then
          some (.failed, { state.setProc q { (state.proc q).free with parent := none } with
            nextpid := state.nextpid + 1 })
        else
          some (.made (BitVec.ofNat 32 state.nextpid),
            { state.setProc q { state.proc q with state := .used, pid := state.nextpid } with
              nextpid := state.nextpid + 1 })
      else some (.inUse, state)
  | some p, state, .setParent q, _ =>
      some ((), state.setProc q { state.proc q with parent := some p })
  | _, state, .runnable q, _ => some ((), state.setProc q { state.proc q with state := .runnable })
  | _, state, .rounds, choice => some (choice, state)
  | _, _, .stop, _ => none
  -- The interrupt handler does not ask for `myproc()`.
  | none, _, _, _ => none

def handler (initproc : ι) : Handler (sections π ι) (State π ι) (Agent ι) :=
  fun who state op choice => if Runs state who then act initproc who state op choice else none

def system (π : Type) [DecidableEq π] (slots : Slots ι) (initproc : ι) :
    Threads.System (sections π ι) (State π ι) (Agent ι) Int (Call π) Empty where
  handler := handler initproc
  menu who which _ := call slots initproc who which
  environment _ event := event.elim

abbrev World (π ι : Type) := Threads (sections π ι) (State π ι) (Agent ι) Int

/-- After `userinit`, with the pipes empty. -/
def boot (π : Type) (initproc : ι) : World π ι where
  shared := ⟨fun q => if q = initproc then { Proc.empty with state := .runnable, pid := 1 } else .empty,
    fun _ => .empty, 0, fun _ => none, 2⟩
  thread := fun _ => .ret 0

/-! ### On the way to sleep -/

/-- The process will sleep without another test of `killed`, if it is the next to take steps. -/
def goesToSleep {α : Type} (state : State π ι) : Code π ι α → Bool
  | .call (.sleep _ _) _ => true
  | .call (.pipe p) next => goesToSleep state (next (state.pipe p))
  | .call (.wakeup _ _) next => goesToSleep state (next ())
  | _ => false

/-- The process that the next step of `who` kills. -/
def victim (world : World π ι) (who : Agent ι) : Option ι :=
  match world.nextOp who with
  | some (.kill pid q) => if BitVec.ofNat 32 (world.shared.proc q).pid = pid then some q else none
  | _ => none

/-- Nobody is killed between its test of `killed` and its sleep. -/
def Spares (world : World π ι) : Threads.Action (Agent ι) (Call π) Empty → Prop
  | .perform who _ => ∀ q ∈ victim world who, goesToSleep world.shared (world.thread (some q)) = false
  | _ => True

end Handler

/-! ### Who has tested `killed` -/

structure Ghost (π : Type) where
  held : Option (Lock π)
  tested : Bool

section Rule

variable {π ι : Type}

def rule : Rule (sections π ι) (Ghost π)
  | .acquire lk, ghost, Q => ghost.held = none ∧ Q () ⟨some lk, false⟩
  | .release lk, ghost, Q => ghost.held = some lk ∧ Q () ⟨none, false⟩
  | .pipe p, ghost, Q => ghost.held = some (.pi p) ∧ ∀ pi, Q pi ghost
  | .put p _, ghost, Q | .advance p, ghost, Q | .close p _, ghost, Q =>
      ghost.held = some (.pi p) ∧ Q () ⟨ghost.held, false⟩
  | .killed, ghost, Q => Q true ⟨ghost.held, false⟩ ∧ Q false ⟨ghost.held, true⟩
  | .wakeup _ _, ghost, Q => Q () ghost
  | .sleep _ lk, ghost, Q => ghost.held = some lk ∧ ghost.tested = true ∧ Q () ⟨none, false⟩
  | .exit _, ghost, Q => ghost.held = some .wait ∧ Q () ⟨none, false⟩
  | .stop, _, _ => True
  | _, ghost, Q => ∀ response, Q response ⟨ghost.held, false⟩

theorem rule_monotone : (rule : Rule (sections π ι) (Ghost π)).Monotone := by
  intro op ghost post post' hpost h
  cases op with
  | acquire lk | release lk | put p ch | advance p | close p writable | exit status =>
      exact ⟨h.1, hpost _ _ h.2⟩
  | pipe p => exact ⟨h.1, fun pi => hpost _ _ (h.2 pi)⟩
  | killed => exact ⟨hpost _ _ h.1, hpost _ _ h.2⟩
  | wakeup chan q => exact hpost _ _ h
  | sleep chan lk => exact ⟨h.1, h.2.1, hpost _ _ h.2.2⟩
  | stop => trivial
  | _ => exact fun response => hpost _ _ (h response)

/-! ### The calls -/

def Ended (_ : Int) (ghost : Ghost π) : Prop := ghost.held = none

/-- The ghost of an agent that holds a lock and has not tested `killed`. -/
abbrev holds (lk : Lock π) : Ghost π := ⟨some lk, false⟩

variable {ghost : Ghost π} {lk : Lock π} {slots : Slots ι} {tested : Bool}

theorem wakeup_spec {chan : Chan π ι} {Q : PUnit → Ghost π → Prop} (h : Q ⟨⟩ ghost) :
    (wakeup slots chan).wp rule ghost Q := by
  have hsame : (wakeup slots chan).wp rule ghost fun _ after => after = ghost := by
    refine Program.wp_forM rule_monotone rfl fun q _ after hafter => ?_
    exact hafter
  refine Program.wp_mono rule_monotone (fun _ after hafter => ?_) hsame
  rw [hafter]
  exact h

theorem wp_wakeup {α : Type} {chan : Chan π ι} {f : PUnit → Code π ι α} {Q : α → Ghost π → Prop}
    (hnext : (f ⟨⟩).wp rule ghost Q) : (wakeup slots chan >>= f).wp rule ghost Q :=
  (Program.wp_bind _ _ _).mpr (wakeup_spec hnext)

theorem release_spec {value : Int} :
    (release lk >>= fun _ => pure value : Code π ι Int).wp rule ⟨some lk, tested⟩ Ended := ⟨rfl, rfl⟩

theorem wp_sleep {chan : Chan π ι} {f : Code π ι Int} (hnext : f.wp rule (holds lk) Ended) :
    (sleep chan lk >>= fun _ => f).wp rule ⟨some lk, true⟩ Ended :=
  ⟨rfl, rfl, fun _ => ⟨rfl, hnext⟩⟩

/-! #### The functions on a pipe -/

section Pipe

variable {p : π}

def pipeRule (slots : Slots ι) (p : π) : Rule Ipc.sections (Ghost π) :=
  fun op ghost Q => (onPipe slots p op).wp rule ghost Q

theorem pipeRule_monotone : (pipeRule slots p).Monotone :=
  fun _ _ _ _ hpost h => Program.wp_mono rule_monotone hpost h

theorem wp_pipe {f : Ipc.Pipe → Ipc.Code Int}
    (hnext : ∀ pi, (f pi).wp (pipeRule slots p) ⟨some (.pi p), tested⟩ Ended) :
    (Ipc.pipe >>= f).wp (pipeRule slots p) ⟨some (.pi p), tested⟩ Ended := ⟨rfl, hnext⟩

theorem unlock_spec {value : Int} : (Ipc.release >>= fun _ => pure value).wp (pipeRule slots p)
    ⟨some (.pi p), tested⟩ Ended := ⟨rfl, rfl⟩

theorem out_spec {chan : Ipc.Chan} {value : Int} :
    (Ipc.wakeup chan >>= fun _ => Ipc.release >>= fun _ => pure value).wp (pipeRule slots p)
      ⟨some (.pi p), tested⟩ Ended :=
  wakeup_spec ⟨rfl, rfl⟩

theorem pipewrite_loop_spec (n : Int) (rounds i : Nat) (added : Bool) :
    (Ipc.pipewrite.loop n rounds i added).wp (pipeRule slots p) (holds (.pi p)) Ended := by
  induction rounds generalizing i added with
  | zero => trivial
  | succ rounds ih =>
      unfold Ipc.pipewrite.loop
      rw [Program.wp_ite]
      split
      next =>
        refine wp_pipe fun pi => ?_
        have hgone : (if pi.readopen = false then pure true else Ipc.killed added).wp
            (pipeRule slots p) (holds (.pi p)) fun gone ghost =>
              ghost.held = some (.pi p) ∧ (gone = false → ghost.tested = true) := by
          split
          · exact ⟨rfl, fun hno => (by cases hno)⟩
          · exact ⟨⟨rfl, fun hno => (by cases hno)⟩, ⟨rfl, fun _ => rfl⟩⟩
        apply Program.wp_seq pipeRule_monotone hgone
        intro gone ghost hghost
        obtain ⟨held, tested⟩ := ghost
        obtain ⟨rfl, htested⟩ := hghost
        cases gone with
        | true => exact unlock_spec
        | false =>
            obtain rfl := htested rfl
            refine wp_pipe fun pi => ?_
            rw [Program.wp_ite]
            split
            · apply wakeup_spec
              exact ⟨rfl, rfl, fun _ => ⟨rfl, ih i false⟩⟩
            · intro ch
              cases ch with
              | none => exact out_spec
              | some ch => exact ⟨rfl, ih (i + 1) true⟩
      next => exact out_spec

theorem piperead_copy_spec (left i : Nat) :
    (Ipc.piperead.copy left i).wp (pipeRule slots p) ⟨some (.pi p), tested⟩ Ended := by
  induction left generalizing i tested with
  | zero => exact out_spec
  | succ left ih =>
      unfold Ipc.piperead.copy
      refine wp_pipe fun pi => ?_
      rw [Program.wp_ite]
      split
      · exact out_spec
      · refine ⟨rfl, fun copied => ?_⟩
        cases copied with
        | false => exact out_spec
        | true => exact ih (i + 1)

theorem piperead_wait_spec (n : Int) (rounds : Nat) :
    (Ipc.piperead.wait n rounds).wp (pipeRule slots p) (holds (.pi p)) Ended := by
  induction rounds with
  | zero => trivial
  | succ rounds ih =>
      unfold Ipc.piperead.wait
      refine wp_pipe fun pi => ?_
      rw [Program.wp_ite]
      split
      · exact ⟨unlock_spec, rfl, rfl, fun _ => ⟨rfl, ih⟩⟩
      · exact piperead_copy_spec n.toNat 0

theorem pipe_spec {which : Ipc.Call} (hfree : ghost.held = none) :
    (pipe slots p which).wp rule ghost Ended := by
  refine (Program.wp_translate _ _).mpr ?_
  change (Ipc.call which).wp (pipeRule slots p) ghost Ended
  cases which with
  | pipewrite n => exact fun rounds => ⟨hfree, pipewrite_loop_spec n rounds 0 false⟩
  | piperead n => exact fun rounds => ⟨hfree, piperead_wait_spec n rounds⟩
  | pipeclose writable => exact ⟨hfree, rfl, out_spec⟩

end Pipe

/-! #### The other calls -/

theorem kill_spec {pid : Pid} (rest : Slots ι) (hfree : ghost.held = none) :
    (kill pid rest : Code π ι Int).wp rule ghost Ended := by
  induction rest generalizing ghost with
  | nil => exact hfree
  | cons q rest ih =>
      intro found
      cases found with
      | true => exact hfree
      | false => exact ih hfree

theorem wait_scan_spec (rest : Slots ι) (havekids : Bool) (hheld : ghost.held = some .wait) :
    (wait.scan rest havekids : Code π ι _).wp rule ghost fun _ after => after.held = some .wait := by
  induction rest generalizing havekids ghost with
  | nil => exact hheld
  | cons np rest ih =>
      intro child
      cases child with
      | false => exact ih havekids hheld
      | true =>
          intro reaped
          cases reaped with
          | some value => exact hheld
          | none => exact ih true hheld

theorem wait_loop_spec (p : ι) (rounds : Nat) :
    (wait.loop slots p rounds : Code π ι Int).wp rule (holds .wait) Ended := by
  induction rounds with
  | zero => trivial
  | succ rounds ih =>
      unfold wait.loop
      apply Program.wp_seq rule_monotone (wait_scan_spec slots false rfl)
      intro scanned ghost hheld
      obtain ⟨held, tested⟩ := ghost
      obtain rfl := hheld
      obtain ⟨havekids, reaped⟩ := scanned
      cases reaped with
      | some value => exact release_spec
      | none =>
          cases havekids with
          | false => exact release_spec
          | true => exact ⟨release_spec, wp_sleep ih⟩

theorem reparent_spec (initproc : ι) (rest : Slots ι) (hheld : ghost.held = some .wait) :
    (reparent slots initproc rest : Code π ι Unit).wp rule ghost fun _ after =>
      after.held = some .wait := by
  induction rest generalizing ghost with
  | nil => exact hheld
  | cons pp rest ih =>
      intro child
      cases child with
      | false => exact ih hheld
      | true =>
          change (wakeup slots (.proc initproc) >>= fun _ => reparent slots initproc rest).wp rule _ _
          exact wp_wakeup (ih hheld)

theorem exit_spec [DecidableEq ι] (initproc p : ι) (status : Int) (hfree : ghost.held = none) :
    (exit slots initproc p status : Code π ι Int).wp rule ghost Ended := by
  unfold exit
  rw [Program.wp_ite]
  split
  · trivial
  · refine ⟨hfree, ?_⟩
    apply Program.wp_seq rule_monotone (reparent_spec initproc slots rfl)
    intro _ ghost hheld parent
    cases parent with
    | none => exact ⟨hheld, rfl⟩
    | some q =>
        apply wp_wakeup
        exact ⟨hheld, rfl⟩

theorem fork_spec (rest : Slots ι) (hfree : ghost.held = none) :
    (fork rest : Code π ι Int).wp rule ghost Ended := by
  induction rest generalizing ghost with
  | nil => exact hfree
  | cons np rest ih =>
      intro allocated
      cases allocated with
      | inUse => exact ih hfree
      | failed => exact hfree
      | made pid => exact ⟨hfree, fun _ => ⟨rfl, fun _ => rfl⟩⟩

theorem wp_ticks {f : Ipc.UInt → Code π ι Int}
    (hnext : ∀ now, (f now).wp rule ⟨some lk, false⟩ Ended) :
    (ticks >>= f).wp rule ⟨some lk, tested⟩ Ended := hnext

theorem sysSleep_loop_spec (n : Int) (ticks0 : Ipc.UInt) (rounds : Nat) (hheld : ghost.held = some .ticks) :
    (sysSleep.loop n ticks0 rounds : Code π ι Int).wp rule ghost Ended := by
  induction rounds generalizing ghost with
  | zero => trivial
  | succ rounds ih =>
      obtain ⟨held, tested⟩ := ghost
      obtain rfl := hheld
      unfold sysSleep.loop
      apply wp_ticks
      intro now
      rw [Program.wp_ite]
      split
      · exact ⟨release_spec, wp_sleep (ih rfl)⟩
      · exact release_spec

theorem clockintr_spec (hfree : ghost.held = none) :
    (clockintr slots : Code π ι Int).wp rule ghost Ended := by
  refine ⟨hfree, fun _ => ?_⟩
  apply wp_wakeup
  exact ⟨rfl, rfl⟩

theorem call_spec [DecidableEq ι] {initproc : ι} {who : Agent ι} {which : Call π}
    {program : Code π ι Int} (hfree : ghost.held = none)
    (hcall : call slots initproc who which = some program) : program.wp rule ghost Ended := by
  cases who with
  | none =>
      cases which with
      | clockintr =>
          cases hcall
          exact clockintr_spec hfree
      | _ => cases hcall
  | some p =>
      cases which with
      | pipe p which =>
          cases hcall
          exact pipe_spec hfree
      | wait =>
          cases hcall
          exact fun rounds => ⟨hfree, wait_loop_spec p rounds⟩
      | sysSleep n =>
          cases hcall
          exact fun rounds => ⟨hfree, fun ticks0 => sysSleep_loop_spec n ticks0 rounds rfl⟩
      | kill pid =>
          cases hcall
          exact kill_spec slots hfree
      | fork =>
          cases hcall
          exact fork_spec slots hfree
      | exit status =>
          cases hcall
          exact exit_spec initproc p status hfree
      | clockintr => cases hcall

/-! ### Who goes to sleep -/

variable {state state' : State π ι} {program : Code π ι Int} {post : Int → Ghost π → Prop}

theorem goesToSleep_of_wp (h : program.wp rule ghost post)
    (hghost : ghost.tested = false ∨ ghost.held = none) : goesToSleep state program = false := by
  induction program with
  | ret value => rfl
  | call op next ih =>
      cases op with
      | sleep chan lk =>
          obtain ⟨hheld, htested, -⟩ := h
          rw [hheld, htested] at hghost
          rcases hghost with hno | hno <;> cases hno
      | pipe p => exact ih _ (h.2 _)
      | wakeup chan q => exact ih () h
      | _ => rfl

theorem goesToSleep_congr (h : program.wp rule ghost post)
    (hpipe : ∀ p, ghost.held = some (.pi p) → state'.pipe p = state.pipe p) :
    goesToSleep state' program = goesToSleep state program := by
  induction program with
  | ret value => rfl
  | call op next ih =>
      cases op with
      | pipe p =>
          change goesToSleep state' (next (state'.pipe p)) = goesToSleep state (next (state.pipe p))
          rw [hpipe p h.1]
          exact ih _ (h.2 _)
      | wakeup chan q => exact ih () h
      | _ => rfl

end Rule

section Inv

variable {π ι : Type}

def Inv (state : State π ι) (ghosts : Agent ι → Ghost π) : Prop :=
  ∀ who lk, (ghosts who).held = some lk → state.lock lk = some who

variable [DecidableEq π] [DecidableEq ι] {state state' : State π ι} {ghosts : Agent ι → Ghost π}
  {who : Agent ι} {initproc : ι} {op : (sections π ι).Op} {choice : Nat}
  {response : (sections π ι).Resp op}

omit [DecidableEq π] in
theorem Inv.change {ghost : Ghost π} (h : Inv state ghosts)
    (hothers : ∀ other lk, other ≠ who → state.lock lk = some other → state'.lock lk = some other)
    (hheld : ∀ lk, ghost.held = some lk → state'.lock lk = some who) :
    Inv state' (Function.update ghosts who ghost) := by
  intro other lk hother
  by_cases hne : other = who
  · rw [hne, Function.update_self] at hother
    exact hne ▸ hheld lk hother
  · rw [Function.update_of_ne hne] at hother
    exact hothers other lk hne (h other lk hother)

omit [DecidableEq π] in
/-- A section that leaves the locks alone. -/
theorem Inv.same {ghost : Ghost π} (h : Inv state ghosts) (hlock : state'.lock = state.lock)
    (hheld : ghost.held = (ghosts who).held) : Inv state' (Function.update ghosts who ghost) := by
  apply h.change
  · intro other lk _ hother
    rw [hlock]
    exact hother
  · intro lk hlk
    rw [hlock]
    exact h who lk (hheld ▸ hlk)

theorem Inv.unlock {lk : Lock π} {tested : Bool} (h : Inv state ghosts)
    (hheld : (ghosts who).held = some lk) (hlock : state'.lock = Function.update state.lock lk none) :
    Inv state' (Function.update ghosts who ⟨none, tested⟩) := by
  apply h.change
  · intro other lk' hne hother
    rw [hlock]
    by_cases heq : lk' = lk
    · rw [heq, h who lk hheld] at hother
      exact absurd (Option.some.inj hother).symm hne
    · rw [Function.update_of_ne heq]
      exact hother
  · intro lk' hnone
    cases hnone

theorem act_of_handler (h : handler initproc who state op choice = some (response, state')) :
    act initproc who state op choice = some (response, state') := by
  unfold handler at h
  split at h
  · exact h
  · cases h

theorem handler_sound : Threads.HandlerSound (handler initproc : Handler (sections π ι) _ _) rule Inv
    fun _ _ _ => True := by
  intro who state ghosts op choice response state' Q hinv _ hrule hstep
  have hact := act_of_handler hstep
  cases op with
  | acquire lk =>
      simp only [act] at hact
      split at hact
      next hfree =>
        cases hact
        refine ⟨_, hrule.2, hinv.change (fun other lk' _ hother => ?_) fun lk' hlk => ?_⟩
        · have hne : lk' ≠ lk := by
            intro heq
            rw [heq, hfree] at hother
            cases hother
          exact (Function.update_of_ne hne _ _).trans hother
        · obtain rfl := Option.some.inj hlk
          exact Function.update_self ..
      next => cases hact
  | release lk =>
      cases hact
      exact ⟨_, hrule.2, hinv.unlock hrule.1 rfl⟩
  | sleep chan lk =>
      cases who with
      | none => cases hact
      | some p =>
          cases hact
          exact ⟨_, hrule.2.2, hinv.unlock hrule.1 rfl⟩
  | exit status =>
      cases who with
      | none => cases hact
      | some p =>
          cases hact
          exact ⟨_, hrule.2, hinv.unlock hrule.1 rfl⟩
  | pipe p =>
      cases hact
      exact ⟨_, hrule.2 _, hinv.same rfl rfl⟩
  | put p ch | advance p | close p writable =>
      cases hact
      exact ⟨_, hrule.2, hinv.same rfl rfl⟩
  | killed =>
      cases who with
      | none => cases hact
      | some p =>
          cases hact
          cases hkilled : (state.proc p).killed with
          | true => exact ⟨_, hrule.1, hinv.same rfl rfl⟩
          | false => exact ⟨_, hrule.2, hinv.same rfl rfl⟩
  | wakeup chan q =>
      cases hact
      refine ⟨_, hrule, hinv.same ?_ rfl⟩
      split <;> rfl
  | kill pid q | reap q | allocproc q =>
      simp only [act] at hact
      repeat' split at hact
      all_goals
        cases hact
        exact ⟨_, hrule _, hinv.same rfl rfl⟩
  | reparent q =>
      cases who with
      | none => cases hact
      | some p =>
          simp only [act] at hact
          split at hact
          · cases hact
            exact ⟨_, hrule _, hinv.same rfl rfl⟩
          · cases hact
            exact ⟨_, hrule _, hinv.same rfl rfl⟩
  | resume | isChild q | parent | setParent q =>
      cases who with
      | none => cases hact
      | some p =>
          cases hact
          exact ⟨_, hrule _, hinv.same rfl rfl⟩
  | stop => cases hact
  | _ =>
      cases hact
      exact ⟨_, hrule _, hinv.same rfl rfl⟩

omit [DecidableEq ι] in
/-- A section changes a pipe only under its lock. -/
theorem pipe_of_act [DecidableEq ι] {p : π} {ghost : Ghost π}
    {Q : (sections π ι).Resp op → Ghost π → Prop}
    (hact : act initproc who state op choice = some (response, state')) (hrule : rule op ghost Q)
    (hnot : ghost.held ≠ some (.pi p)) : state'.pipe p = state.pipe p := by
  have hne : ∀ {p' : π} {pi : Ipc.Pipe}, ghost.held = some (.pi p') →
      Function.update state.pipe p' pi p = state.pipe p := by
    intro p' pi hheld
    refine Function.update_of_ne (fun heq => ?_) _ _
    rw [heq] at hnot
    exact hnot hheld
  cases op with
  | put p' ch | advance p' | close p' writable =>
      cases hact
      exact hne hrule.1
  | acquire lk =>
      simp only [act] at hact
      split at hact <;> cases hact
      rfl
  | wakeup chan q =>
      cases hact
      split <;> rfl
  | kill pid q | reap q | allocproc q =>
      simp only [act] at hact
      repeat' split at hact
      all_goals
        cases hact
        rfl
  | reparent q =>
      cases who with
      | none => cases hact
      | some _ =>
          simp only [act] at hact
          split at hact <;> cases hact <;> rfl
  | killed | sleep chan lk | exit status | resume | isChild q | parent | setParent q =>
      cases who with
      | none => cases hact
      | some _ =>
          cases hact
          rfl
  | stop => cases hact
  | _ =>
      cases hact
      rfl

/-- What a section does to a slot, as far as `killed` and sleeping are concerned. -/
inductive Change (state state' : State π ι) (who : Agent ι) (op : (sections π ι).Op) (q : ι) : Prop where
  | kept (hkilled : (state'.proc q).killed = true → (state.proc q).killed = true)
      (hsleeping : (state'.proc q).state = .sleeping → (state.proc q).state = .sleeping)
  | killed (pid : Pid) (hop : op = .kill pid q) (hpid : BitVec.ofNat 32 (state.proc q).pid = pid)
      (hsleeping : (state'.proc q).state ≠ .sleeping)
  | slept (chan : Chan π ι) (lk : Lock π) (hop : op = .sleep chan lk) (hwho : who = some q)
      (hkilled : (state'.proc q).killed = (state.proc q).killed)

omit [DecidableEq π] in
theorem Change.setProc {q' : ι} {proc : Proc ι (Chan π ι)} {state' : State π ι}
    (hproc : state'.proc = Function.update state.proc q' proc)
    (hkilled : proc.killed = true → (state.proc q').killed = true)
    (hsleeping : proc.state = .sleeping → (state.proc q').state = .sleeping) (q : ι) :
    Change state state' who op q := by
  by_cases hne : q = q'
  · apply Change.kept
    · rw [hproc, hne, Function.update_self]
      exact hkilled
    · rw [hproc, hne, Function.update_self]
      exact hsleeping
  · apply Change.kept
    · rw [hproc, Function.update_of_ne hne]
      exact id
    · rw [hproc, Function.update_of_ne hne]
      exact id

omit [DecidableEq π] [DecidableEq ι] in
theorem Change.same (hproc : state'.proc = state.proc) (q : ι) : Change state state' who op q :=
  .kept (fun h => hproc ▸ h) fun h => hproc ▸ h

omit [DecidableEq π] in
theorem killed_wake [DecidableEq π] (p : Proc ι (Chan π ι)) (chan : Chan π ι) :
    (wake p chan).killed = p.killed := by
  unfold wake
  split <;> rfl

theorem sleeping_of_wake {p : Proc ι (Chan π ι)} {chan : Chan π ι}
    (h : (wake p chan).state = .sleeping) : p.state = .sleeping := by
  unfold wake at h
  split at h
  · cases h
  · exact h

theorem change_of_act (hact : act initproc who state op choice = some (response, state')) (q : ι) :
    Change state state' who op q := by
  cases op with
  | acquire lk =>
      simp only [act] at hact
      split at hact <;> cases hact
      apply Change.same
      rfl
  | wakeup chan q' =>
      cases hact
      split
      · apply Change.same
        rfl
      · apply Change.setProc
        · rfl
        · exact fun h => killed_wake (state.proc q') chan ▸ h
        · exact sleeping_of_wake
  | kill pid q' =>
      simp only [act] at hact
      split at hact
      next hpid =>
        cases hact
        by_cases hne : q = q'
        · subst hne
          refine .killed pid rfl hpid ?_
          change (Function.update state.proc q (state.proc q).kill q).state ≠ _
          rw [Function.update_self]
          exact Proc.kill_ne_sleeping _
        · refine .kept (fun h => ?_) fun h => ?_
          · exact (congrArg Proc.killed (Function.update_of_ne hne _ _)).symm.trans h
          · exact (congrArg Proc.state (Function.update_of_ne hne _ _)).symm.trans h
      next =>
        cases hact
        apply Change.same
        rfl
  | reap q' =>
      simp only [act] at hact
      repeat' split at hact
      · cases hact
        apply Change.same
        rfl
      · cases hact
        apply Change.setProc
        · rfl
        · intro h
          cases h
        · intro h
          cases h
      · cases hact
        apply Change.same
        rfl
  | allocproc q' =>
      simp only [act] at hact
      repeat' split at hact
      · cases hact
        apply Change.setProc
        · rfl
        · intro h
          cases h
        · intro h
          cases h
      · cases hact
        apply Change.setProc
        · rfl
        · exact id
        · intro h
          cases h
      · cases hact
        apply Change.same
        rfl
  | reparent q' =>
      cases who with
      | none => cases hact
      | some p =>
          simp only [act] at hact
          split at hact <;> cases hact
          · apply Change.setProc
            · rfl
            · exact id
            · exact id
          · apply Change.same
            rfl
  | sleep chan lk =>
      cases who with
      | none => cases hact
      | some p =>
          cases hact
          by_cases hne : q = p
          · subst hne
            refine .slept chan lk rfl rfl ?_
            change (Function.update state.proc q (sleepOn (state.proc q) chan) q).killed = _
            rw [Function.update_self]
            rfl
          · refine .kept (fun h => ?_) fun h => ?_
            · exact (congrArg Proc.killed (Function.update_of_ne hne _ _)).symm.trans h
            · exact (congrArg Proc.state (Function.update_of_ne hne _ _)).symm.trans h
  | resume | exit status =>
      cases who with
      | none => cases hact
      | some p =>
          cases hact
          apply Change.setProc
          · rfl
          · exact id
          · intro h
            cases h
  | setParent q' =>
      cases who with
      | none => cases hact
      | some p =>
          cases hact
          apply Change.setProc
          · rfl
          · exact id
          · exact id
  | runnable q' =>
      cases hact
      apply Change.setProc
      · rfl
      · exact id
      · intro h
        cases h
  | killed | isChild q' | parent =>
      cases who with
      | none => cases hact
      | some p =>
          cases hact
          apply Change.same
          rfl
  | stop => cases hact
  | _ =>
      cases hact
      apply Change.same
      rfl

end Inv

/-! ### Runs -/

section Runs

variable {π ι : Type} [DecidableEq π] [DecidableEq ι] {slots : Slots ι} {initproc : ι}

/-- Nobody who has been killed is `SLEEPING`, in a call that tests `killed`. -/
def NoLostKill (state : State π ι) : Prop :=
  ∀ q, (state.proc q).killed = true → (state.proc q).state ≠ .sleeping

structure Heeds (world : World π ι) : Prop where
  verified : Threads.Verified rule Inv (fun _ => Ended) world
  noLostKill : NoLostKill world.shared
  /-- Whoever is past its test has not been killed. -/
  tested : ∀ q, goesToSleep world.shared (world.thread (some q)) = true →
    (world.shared.proc q).killed = false

theorem menu_sound : Threads.MenuSound (system π slots initproc).menu rule fun _ => Ended := by
  intro who which value program ghost hprogram hended
  exact call_spec hended hprogram

theorem env_sound :
    Threads.EnvSound (system π slots initproc).environment rule Inv fun _ => Ended :=
  fun _ event => event.elim

omit [DecidableEq π] in
theorem heeds_boot : Heeds (boot π initproc) := by
  refine ⟨⟨fun _ => ⟨none, false⟩, fun who lk hheld => ?_, fun who => rfl⟩, fun q hkilled => ?_,
    fun q hgoes => ?_⟩
  · cases hheld
  · have hnot : ((boot π initproc).shared.proc q).killed = false := by
      change (ite _ _ _ : Proc ι (Chan π ι)).killed = false
      split <;> rfl
    rw [hnot] at hkilled
    cases hkilled
  · cases hgoes

theorem tested_of_act {state state' : State π ι} {ghosts : Agent ι → Ghost π} {p : ι}
    {op : (sections π ι).Op} {next : (sections π ι).Resp op → Code π ι Int} {choice : Nat}
    {response : (sections π ι).Resp op}
    (hact : act initproc (some p) state op choice = some (response, state'))
    (hwp : (Program.call op next).wp rule (ghosts (some p)) Ended)
    (htested : goesToSleep state (.call op next) = true → (state.proc p).killed = false)
    (hgoes : goesToSleep state' (next response) = true) :
    (state.proc p).killed = false ∧ ∀ pid, op ≠ .kill pid p := by
  have hnot : ∀ {ghost : Ghost π}, (next response).wp rule ghost Ended → ghost.tested = true := by
    intro ghost hnext
    rw [← Bool.not_eq_false]
    intro hno
    rw [goesToSleep_of_wp hnext (Or.inl hno)] at hgoes
    cases hgoes
  cases op with
  | killed =>
      cases hact
      cases hkilled : (state.proc p).killed with
      | false => exact ⟨rfl, fun pid hop => (by cases hop)⟩
      | true =>
          have hnext := hwp.1
          rw [← hkilled] at hnext
          cases hnot hnext
  | pipe p' =>
      cases hact
      exact ⟨htested hgoes, fun pid hop => (by cases hop)⟩
  | wakeup chan q =>
      cases hact
      have hnext : (next ()).wp rule (ghosts (some p)) Ended := hwp
      refine ⟨htested ((goesToSleep_congr hnext fun p' _ => ?_).symm.trans hgoes),
        fun pid hop => (by cases hop)⟩
      split <;> rfl
  | acquire lk | release lk | put p' ch | advance p' | close p' writable | exit status =>
      cases hnot hwp.2
  | sleep chan lk => cases hnot hwp.2.2
  | stop => cases hact
  | _ => cases hnot (hwp response)

theorem goesToSleep_of_ne {state state' : State π ι} {ghosts : Agent ι → Ghost π} {who : Agent ι}
    {q : ι} {op : (sections π ι).Op} {choice : Nat} {response : (sections π ι).Resp op}
    {Q : (sections π ι).Resp op → Ghost π → Prop} {program : Code π ι Int} (hinv : Inv state ghosts)
    (hact : act initproc who state op choice = some (response, state'))
    (hrule : rule op (ghosts who) Q) (hwp : program.wp rule (ghosts (some q)) Ended)
    (hne : some q ≠ who) : goesToSleep state' program = goesToSleep state program := by
  apply goesToSleep_congr hwp
  intro p hheld
  apply pipe_of_act hact hrule
  intro hwho
  exact hne (Option.some.inj ((hinv _ _ hheld).symm.trans (hinv _ _ hwho)))

theorem heeds_perform {world world' : World π ι} {who : Agent ι} {choice : Nat} (h : Heeds world)
    (hspares : ∀ q ∈ victim world who, goesToSleep world.shared (world.thread (some q)) = false)
    (hstep : Threads.performStep (handler initproc) world who choice = some world') :
    NoLostKill world'.shared ∧ ∀ q, goesToSleep world'.shared (world'.thread (some q)) = true →
      (world'.shared.proc q).killed = false := by
  cases hthread : world.thread who with
  | ret value => simp [Threads.performStep, hthread] at hstep
  | call op next =>
      obtain ⟨response, shared', hresult, rfl⟩ := Threads.performStep_of_call hthread hstep
      have hact := act_of_handler hresult
      obtain ⟨ghosts, hinv, hwp⟩ := h.verified
      have hrule := hwp who
      rw [hthread] at hrule
      refine ⟨fun q hkilled hsleeping => ?_, fun q hgoes => ?_⟩
      · cases change_of_act hact q with
        | kept hkilled' hsleeping' =>
            exact h.noLostKill q (hkilled' hkilled) (hsleeping' hsleeping)
        | killed pid hop hpid hnot => exact hnot hsleeping
        | slept chan lk hop hwho hsame =>
            subst hop hwho
            have hbefore := h.tested q (by rw [hthread]; rfl)
            rw [hsame, hbefore] at hkilled
            cases hkilled
      · change goesToSleep shared' (Function.update world.thread who (next response) (some q)) = true
          at hgoes
        have hbefore : (world.shared.proc q).killed = false ∧
            ∀ pid, op = .kill pid q → BitVec.ofNat 32 (world.shared.proc q).pid ≠ pid := by
          by_cases hne : some q = who
          · subst hne
            rw [Function.update_self] at hgoes
            have htested := h.tested q
            rw [hthread] at htested
            obtain ⟨hkilled, hnot⟩ := tested_of_act hact hrule htested hgoes
            exact ⟨hkilled, fun pid hop => absurd hop (hnot pid)⟩
          · rw [Function.update_of_ne hne, goesToSleep_of_ne hinv hact hrule (hwp (some q)) hne] at hgoes
            refine ⟨h.tested q hgoes, fun pid hop hpid => ?_⟩
            have hvictim : q ∈ victim world who := by
              simp [victim, Threads.nextOp, hthread, hop, hpid]
            rw [hspares q hvictim] at hgoes
            cases hgoes
        rw [← Bool.not_eq_true]
        intro hkilled
        cases change_of_act hact q with
        | kept hkilled' hsleeping' =>
            rw [hkilled' hkilled] at hbefore
            cases hbefore.1
        | killed pid hop hpid hnot => exact hbefore.2 pid hop hpid
        | slept chan lk hop hwho hsame =>
            rw [hsame, hbefore.1] at hkilled
            cases hkilled

theorem heeds_step {world world' : World π ι} {action : Threads.Action (Agent ι) (Call π) Empty}
    (h : Heeds world) (hspares : Spares world action)
    (hstep : Threads.step (system π slots initproc) world action = some world') : Heeds world' := by
  have hverified : Threads.Verified rule Inv (fun _ => Ended) world' := by
    refine Threads.verified_step handler_sound.settled env_sound menu_sound h.verified ?_ hstep
    cases action with
    | perform who choice => exact fun _ _ => trivial
    | start who which => trivial
    | env event => trivial
  cases action with
  | perform who choice =>
      obtain ⟨hnoLostKill, htested⟩ := heeds_perform h hspares hstep
      exact ⟨hverified, hnoLostKill, htested⟩
  | start who which =>
      obtain ⟨value, program, hprogram, rfl⟩ := Threads.startStep_cases hstep
      have hfree : (⟨none, false⟩ : Ghost π).held = none := rfl
      have hnot : goesToSleep world.shared program = false :=
        goesToSleep_of_wp (call_spec hfree hprogram) (Or.inr rfl)
      refine ⟨hverified, h.noLostKill, fun q hgoes => h.tested q ?_⟩
      change goesToSleep world.shared (Function.update world.thread who program (some q)) = true
        at hgoes
      by_cases hne : some q = who
      · subst hne
        rw [Function.update_self, hnot] at hgoes
        cases hgoes
      · rwa [Function.update_of_ne hne] at hgoes
  | env event => exact event.elim

/-- **No kill is lost.** In every run in which nobody is killed between its last test of `killed` and its
sleep. -/
theorem noLostKill_of_run {actions : List (Threads.Action (Agent ι) (Call π) Empty)}
    {world : World π ι}
    (hspares : Transition.Along (Threads.step (system π slots initproc)) Spares (boot π initproc) actions)
    (hrun : Transition.run (Threads.step (system π slots initproc)) (boot π initproc) actions =
      some world) : NoLostKill world.shared :=
  (Transition.invariant_along (fun _ _ _ => heeds_step) heeds_boot hspares hrun).noLostKill

instance (world : World π ι) :
    (action : Threads.Action (Agent ι) (Call π) Empty) → Decidable (Spares world action)
  | .perform who _ => inferInstanceAs (Decidable
      (∀ q ∈ victim world who, goesToSleep world.shared (world.thread (some q)) = false))
  | .start _ _ => isTrue trivial
  | .env _ => isTrue trivial

end Runs

def steps (who : Agent Bool) (count : Nat) : List (Threads.Action (Agent Bool) (Call Unit) Empty) :=
  List.replicate count (.perform who 3)

/-- The first process, `false`, forks `true`, which is about to read from an empty pipe. -/
def forkAndRead : List (Threads.Action (Agent Bool) (Call Unit) Empty) :=
  .start (some false) .fork :: steps (some false) 6 ++
    .start (some true) (.pipe () (.piperead 1)) :: steps (some true) 3

def killedAsleep : List (Threads.Action (Agent Bool) (Call Unit) Empty) :=
  forkAndRead ++ steps (some true) 2 ++ .start (some false) (.kill 2) :: steps (some false) 2

theorem noLostKill_of_run_killedAsleep :
    ∃ world, Transition.run (Threads.step (system Unit [false, true] false)) (boot Unit false)
      killedAsleep = some world ∧ NoLostKill world.shared := by
  have hrun : ∃ world, Transition.run (Threads.step (system Unit [false, true] false))
      (boot Unit false) killedAsleep = some world := by
    rw [← Option.isSome_iff_exists]
    decide +kernel
  obtain ⟨world, hworld⟩ := hrun
  have hspares : Transition.Along (Threads.step (system Unit [false, true] false)) Spares
      (boot Unit false) killedAsleep := by
    decide +kernel
  exact ⟨world, hworld, noLostKill_of_run hspares hworld⟩

/-- It is killed after it has found that it is not. -/
def killedInBetween : List (Threads.Action (Agent Bool) (Call Unit) Empty) :=
  forkAndRead ++ steps (some true) 1 ++ .start (some false) (.kill 2) :: steps (some false) 2 ++
    steps (some true) 1

/-- It sleeps, and `kill` has returned 0. -/
theorem not_noLostKill_killedInBetween :
    ∃ world, Transition.run (Threads.step (system Unit [false, true] false)) (boot Unit false)
      killedInBetween = some world ∧ ¬NoLostKill world.shared := by
  have hrun : ∃ world ∈ Transition.run (Threads.step (system Unit [false, true] false))
      (boot Unit false) killedInBetween,
      (world.shared.proc true).killed = true ∧ (world.shared.proc true).state = .sleeping := by
    decide +kernel
  obtain ⟨world, hworld, hkilled, hsleeping⟩ := hrun
  exact ⟨world, hworld, fun h => h true hkilled hsleeping⟩

end Xv6.LostKill
