import Mathlib.Data.Finset.Card
import Mathlib.Logic.Function.Basic
import Xv6.Lib.Transition
import Xv6.Proc.Table

/-!
# Spinlocks, and processors that switch between threads

`spinlock.c` of the riscv64 kernel, with the code of `proc.c` that gives a lock from one thread to another: a process
takes its own lock, `sched` switches to the thread of the scheduler, and the scheduler releases the lock. An access to
what other processors see is a step of its own. What a processor does with interrupts off to its own `struct cpu` goes
with the access before it.
-/

namespace Xv6.Spin

/-- The lock of a process, or another one. -/
inductive LockId (P M : Type) where
  | proc (p : P)
  | other (m : M)
  deriving DecidableEq

structure Spinlock (κ : Type) where
  locked : Bool
  cpu : Option κ

/-- Where a thread goes on that is switched to: in `forkret`, or in `sched` with its `intena`. With it there is what the
thread itself knows: whether it was interrupted, and whether interrupts are on where it has no locks. -/
inductive Context where
  | forkret
  | sched (intena trap want : Bool)
  deriving DecidableEq

structure Process where
  state : ProcState
  context : Context

/-- Where a processor is inside these functions. -/
inductive Pc (P M : Type) where
  /-- In the code that uses them. -/
  | rest
  /-- `acquire`: `holding` reads `locked`, and then `cpu`. -/
  | acquire (lk : LockId P M)
  | acquireCpu (lk : LockId P M)
  /-- The exchange, until it finds 0. -/
  | spin (lk : LockId P M)
  /-- `lk->cpu = mycpu()`. -/
  | record (lk : LockId P M)
  /-- `release`: `holding` reads `locked`, and then `cpu`. -/
  | release (lk : LockId P M)
  | releaseCpu (lk : LockId P M)
  /-- `lk->cpu = 0`. -/
  | unrecord (lk : LockId P M)
  | unlock (lk : LockId P M)
  | popOff
  /-- `sched`: `holding` reads `locked`, and then `cpu`. -/
  | sched (p : P)
  | schedCpu (p : P)
  | swtch (p : P)
  /-- Back from `swtch` in `sched`. -/
  | resumed (intena : Bool)
  /-- Back from `swtch` in `scheduler`. -/
  | switched
  /-- `scheduler` has found the process runnable. -/
  | choose (p : P)
  | panic (message : String)
  deriving DecidableEq

/-- `struct cpu`, and below it what the thread that runs knows: the locks it holds, its own calls of `push_off` that have
no `pop_off` yet, whether it is in `kerneltrap`, and whether interrupts are on where it has no locks. -/
structure Cpu (P M : Type) where
  sie : Bool
  noff : Nat
  intena : Bool
  proc : Option P
  pc : Pc P M
  held : Finset (LockId P M)
  pushes : Nat
  trap : Bool
  want : Bool

structure State (κ P M : Type) where
  cpu : κ → Cpu P M
  lock : LockId P M → Spinlock κ
  proc : P → Process

/-- What the code on a processor does next. -/
inductive Op (P M : Type) where
  | acquire (lk : LockId P M)
  | release (lk : LockId P M)
  | pushOff
  | popOff
  | intrOn
  | intrOff
  | sched
  /-- `scheduler` reads the state of the process. -/
  | choose (p : P)
  | setState (p : P) (state : ProcState)
  /-- `allocproc` sets the context. -/
  | initContext (p : P)
  /-- A device interrupts the processor. -/
  | interrupt
  /-- `kerneltrap` returns. -/
  | sret
  /-- The function goes on. -/
  | next
  deriving DecidableEq

namespace Cpu

variable {P M : Type}

def pushOff (cpu : Cpu P M) : Cpu P M :=
  { cpu with
    sie := false
    intena := if cpu.noff = 0 then cpu.sie else cpu.intena
    noff := cpu.noff + 1 }

def popOff (cpu : Cpu P M) : Cpu P M :=
  if cpu.sie then { cpu with pc := .panic "pop_off - interruptible" }
  else if cpu.noff < 1 then { cpu with pc := .panic "pop_off" }
  else { cpu with noff := cpu.noff - 1, sie := cpu.noff - 1 = 0 && cpu.intena, pc := .rest }

/-- The processor goes on with this thread of a process, back from `swtch`. -/
def switchTo (cpu : Cpu P M) [DecidableEq P] [DecidableEq M] (p : P) : Context → Cpu P M
  | .forkret =>
      { cpu with
        proc := some p, pc := .release (.proc p), held := cpu.held.erase (.proc p), trap := false, want := false }
  | .sched intena trap want => { cpu with proc := some p, pc := .resumed intena, trap := trap, want := want }

end Cpu

section Step

variable {κ P M : Type} [DecidableEq κ] [DecidableEq P] [DecidableEq M] (s : State κ P M) (c : κ)

def State.setCpu (cpu : Cpu P M) : State κ P M := { s with cpu := Function.update s.cpu c cpu }

def State.setPc (pc : Pc P M) : State κ P M := s.setCpu c { s.cpu c with pc := pc }

def State.setLock (lk : LockId P M) (lock : Spinlock κ) : State κ P M :=
  { s with lock := Function.update s.lock lk lock }

def State.setProc (p : P) (proc : Process) : State κ P M := { s with proc := Function.update s.proc p proc }

/-- One more step of the function that the processor is in. -/
def State.next : Option (State κ P M) :=
  match (s.cpu c).pc with
  | .rest => none
  | .acquire lk => some (s.setPc c (if (s.lock lk).locked then .acquireCpu lk else .spin lk))
  | .acquireCpu lk => some (s.setPc c (if (s.lock lk).cpu = some c then .panic "acquire" else .spin lk))
  | .spin lk =>
      if (s.lock lk).locked then some s
      else some ((s.setLock lk { s.lock lk with locked := true }).setPc c (.record lk))
  | .record lk =>
      some ((s.setLock lk { s.lock lk with cpu := some c }).setCpu c
        { s.cpu c with pc := .rest, held := insert lk (s.cpu c).held })
  | .release lk => some (s.setPc c (if (s.lock lk).locked then .releaseCpu lk else .panic "release"))
  | .releaseCpu lk => some (s.setPc c (if (s.lock lk).cpu = some c then .unrecord lk else .panic "release"))
  | .unrecord lk => some ((s.setLock lk { s.lock lk with cpu := none }).setPc c (.unlock lk))
  | .unlock lk => some ((s.setLock lk { s.lock lk with locked := false }).setPc c .popOff)
  | .popOff => some (s.setCpu c (s.cpu c).popOff)
  | .sched p => some (s.setPc c (if (s.lock (.proc p)).locked then .schedCpu p else .panic "sched p->lock"))
  | .schedCpu p => some (s.setPc c (if (s.lock (.proc p)).cpu = some c then .swtch p else .panic "sched p->lock"))
  | .swtch p =>
      if (s.cpu c).noff ≠ 1 then some (s.setPc c (.panic "sched locks"))
      else if (s.proc p).state = .running then some (s.setPc c (.panic "sched RUNNING"))
      else if (s.cpu c).sie then some (s.setPc c (.panic "sched interruptible"))
      else
        some ((s.setProc p { s.proc p with context := .sched (s.cpu c).intena (s.cpu c).trap (s.cpu c).want }).setCpu c
          { s.cpu c with pc := .switched, trap := false, want := false })
  | .resumed intena => some (s.setCpu c { s.cpu c with pc := .rest, intena := intena })
  | .switched => some (s.setCpu c { s.cpu c with pc := .rest, intena := false, proc := none })
  | .choose p =>
      some ((s.setProc p { s.proc p with state := .running }).setCpu c ((s.cpu c).switchTo p (s.proc p).context))
  | .panic _ => none

/-- What an operation does that starts in the code around. -/
def State.start : Op P M → Option (State κ P M)
  | .acquire lk => some (s.setCpu c { (s.cpu c).pushOff with pc := .acquire lk })
  | .release lk => some (s.setCpu c { s.cpu c with pc := .release lk, held := (s.cpu c).held.erase lk })
  | .pushOff => some (s.setCpu c { (s.cpu c).pushOff with pushes := (s.cpu c).pushes + 1 })
  | .popOff => some (s.setCpu c { s.cpu c with pc := .popOff, pushes := (s.cpu c).pushes - 1 })
  | .intrOn => some (s.setCpu c { s.cpu c with sie := true, want := true })
  | .intrOff => some (s.setCpu c { s.cpu c with sie := false, want := false })
  | .sched => (s.cpu c).proc.map fun p => s.setPc c (.sched p)
  | .choose p => some (if (s.proc p).state = .runnable then s.setPc c (.choose p) else s)
  | .setState p state => some (s.setProc p { s.proc p with state := state })
  | .initContext p => some (s.setProc p { s.proc p with context := .forkret })
  -- only where interrupts are on; the processor turns them off
  | .interrupt => if (s.cpu c).sie then some (s.setCpu c { s.cpu c with sie := false, trap := true, want := false }) else none
  | .sret => some (s.setCpu c { s.cpu c with sie := true, trap := false, want := true })
  | .next => none

def step (s : State κ P M) (action : κ × Op P M) : Option (State κ P M) :=
  if action.2 = .next then s.next action.1
  else if (s.cpu action.1).pc = .rest then s.start action.1 action.2
  else none

/-- The rules of the code around. A thread releases the locks that it holds and acquires others; it enables and disables
interrupts without locks; a process that is not running any more goes to `sched` with its own lock alone; and what
writes the state of another process holds the lock of that, which does not run. -/
def Allowed (s : State κ P M) (action : κ × Op P M) : Prop :=
  let cpu := s.cpu action.1
  match action.2 with
  | .acquire lk => lk ∉ cpu.held
  | .release lk => lk ∈ cpu.held ∧ ∀ p ∈ cpu.proc, lk = .proc p → (s.proc p).state = .running
  | .popOff => 0 < cpu.pushes
  | .intrOn | .intrOff => cpu.held = ∅ ∧ cpu.pushes = 0 ∧ cpu.trap = false
  | .sched => ∃ p ∈ cpu.proc, cpu.held = {.proc p} ∧ cpu.pushes = 0 ∧ (s.proc p).state ≠ .running
  | .choose p => cpu.proc = none ∧ cpu.held = {.proc p} ∧ cpu.pushes = 0 ∧ cpu.trap = false ∧ cpu.want = false
  | .setState p state =>
      .proc p ∈ cpu.held ∧ state ≠ .running ∧ (cpu.proc = some p ∨ (s.proc p).state ≠ .running)
  | .initContext p => .proc p ∈ cpu.held ∧ (s.proc p).state = .used
  | .sret => cpu.trap = true ∧ cpu.held = ∅ ∧ cpu.pushes = 0
  | .pushOff | .interrupt | .next => True

instance decidableAllowed : (action : κ × Op P M) → Decidable (Allowed s action)
  | (c, .acquire lk) => inferInstanceAs (Decidable (lk ∉ (s.cpu c).held))
  | (c, .release lk) => inferInstanceAs (Decidable (lk ∈ (s.cpu c).held ∧ ∀ p ∈ (s.cpu c).proc, lk = _ → _ = _))
  | (c, .popOff) => inferInstanceAs (Decidable (0 < (s.cpu c).pushes))
  | (c, .intrOn) | (c, .intrOff) =>
      inferInstanceAs (Decidable ((s.cpu c).held = ∅ ∧ (s.cpu c).pushes = 0 ∧ (s.cpu c).trap = false))
  | (c, .sched) => inferInstanceAs (Decidable (∃ p ∈ (s.cpu c).proc, _ = _ ∧ _ = _ ∧ _ ≠ _))
  | (c, .choose _) => inferInstanceAs (Decidable ((s.cpu c).proc = none ∧ _ = _ ∧ _ = _ ∧ _ = _ ∧ _ = _))
  | (c, .setState p state) =>
      inferInstanceAs (Decidable (.proc p ∈ (s.cpu c).held ∧ state ≠ .running ∧
        ((s.cpu c).proc = some p ∨ (s.proc p).state ≠ .running)))
  | (c, .initContext p) => inferInstanceAs (Decidable (.proc p ∈ (s.cpu c).held ∧ (s.proc p).state = .used))
  | (c, .sret) => inferInstanceAs (Decidable ((s.cpu c).trap = true ∧ _ = _ ∧ _ = _))
  | (_, .pushOff) | (_, .interrupt) | (_, .next) => isTrue trivial

end Step

end Xv6.Spin
