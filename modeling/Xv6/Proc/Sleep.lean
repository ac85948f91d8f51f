import Mathlib.Data.List.FinRange
import Mathlib.Logic.Function.Basic
import Xv6.Lib.Transition
import Xv6.Proc.Table

/-!
# Sleeping in two steps

`sleep_prepare`, `sleep`, `wakeup` and `kkill` of the riscv64 kernel, and `arch_sleep_release` over
them, one section under a `p->lock` at a time. The agents are the processes and, as `wakeup` is also
called by interrupt handlers, any number of others that only take locks and wake.
-/

namespace Xv6.Sleep

variable {n : Nat} {κ Chan Lock : Type}

/-- Where a process is in `arch_sleep_release(chan, lk)`. -/
inductive Pc (Chan Lock : Type) where
  | idle
  /-- `sleep_prepare` has returned. -/
  | prepared (chan : Chan) (lk : Lock)
  /-- The condition lock is released. -/
  | released (chan : Chan) (lk : Lock)
  /-- In `sched`, called by `sleep`. -/
  | asleep (chan : Chan) (lk : Lock)
  /-- `sleep` has returned. -/
  | returned (lk : Lock)
  deriving DecidableEq

/-- Where an agent is in the loop of `wakeup` or of `kkill`: the slots it has yet to look at. -/
inductive Scan (n : Nat) (Chan : Type) where
  | wakeup (chan : Chan) (rest : List (Fin n))
  | kkill (pid : Nat) (rest : List (Fin n))
  deriving DecidableEq

structure State (n : Nat) (κ Chan Lock : Type) where
  proc : Fin n → Proc (Fin n) Chan
  pc : Fin n → Pc Chan Lock
  scan : Fin n ⊕ κ → Option (Scan n Chan)
  /-- Who holds each condition lock. -/
  holder : Lock → Option (Fin n ⊕ κ)
  nextpid : Nat

inductive Action (n : Nat) (κ Chan Lock : Type) where
  | acquire (who : Fin n ⊕ κ) (lk : Lock)
  | release (who : Fin n ⊕ κ) (lk : Lock)
  | sleepPrepare (who : Fin n) (chan : Chan) (lk : Lock)
  /-- The caller of `sleep_prepare` returns without having slept. -/
  | giveUp (who : Fin n)
  | sleepRelease (who : Fin n) (chan : Chan) (lk : Lock)
  | sleep (who : Fin n)
  /-- `sched` returns. -/
  | resume (who : Fin n)
  | reacquire (who : Fin n) (lk : Lock)
  | wakeup (who : Fin n ⊕ κ) (chan : Chan)
  | visit (who : Fin n ⊕ κ)
  | wakeupReturn (who : Fin n ⊕ κ)
  | kkill (who : Fin n ⊕ κ) (pid : Nat)
  | kkillVisit (who : Fin n ⊕ κ)
  | kkillReturn (who : Fin n ⊕ κ)
  | dispatch (who : Fin n)
  | yield (who : Fin n)
  | alloc (who : Fin n)
  | exit (who : Fin n)
  | free (who : Fin n)

/-- Every slot unused, every lock free. -/
def start : State n κ Chan Lock where
  proc := fun _ => .empty
  pc := fun _ => .idle
  scan := fun _ => none
  holder := fun _ => none
  nextpid := 1

section Steps

variable [DecidableEq κ] [DecidableEq Chan] [DecidableEq Lock]

/-- One process moves. -/
def State.setProc (state : State n κ Chan Lock) (who : Fin n) (pc : Pc Chan Lock)
    (proc : Proc (Fin n) Chan) : State n κ Chan Lock :=
  { state with
    pc := Function.update state.pc who pc
    proc := Function.update state.proc who proc }

def State.setScan (state : State n κ Chan Lock) (who : Fin n ⊕ κ) (scan : Option (Scan n Chan)) :
    State n κ Chan Lock :=
  { state with scan := Function.update state.scan who scan }

def State.setHolder (state : State n κ Chan Lock) (lk : Lock) (holder : Option (Fin n ⊕ κ)) :
    State n κ Chan Lock :=
  { state with holder := Function.update state.holder lk holder }

/-- The agent runs, and is not in `arch_sleep_release`. A handler runs whenever it is there. -/
def State.Runs (state : State n κ Chan Lock) : Fin n ⊕ κ → Prop
  | .inl p => (state.proc p).state = .running ∧ state.pc p = .idle
  | .inr _ => True

instance (state : State n κ Chan Lock) : DecidablePred state.Runs
  | .inl _ => inferInstanceAs (Decidable (_ ∧ _))
  | .inr _ => isTrue trivial

/-- One section. A process takes one only while it runs. -/
def step (state : State n κ Chan Lock) : Action n κ Chan Lock → Option (State n κ Chan Lock)
  | .acquire who lk =>
      if state.Runs who ∧ state.scan who = none ∧ state.holder lk = none then
        some (state.setHolder lk (some who))
      else none
  | .release who lk =>
      if state.Runs who ∧ state.scan who = none ∧ state.holder lk = some who then
        some (state.setHolder lk none)
      else none
  | .sleepPrepare who chan lk =>
      if state.Runs (.inl who) ∧ state.scan (.inl who) = none ∧
          state.holder lk = some (.inl who) then
        some (state.setProc who (.prepared chan lk) ((state.proc who).sleepPrepare chan))
      else none
  | .giveUp who =>
      match state.pc who with
      | .prepared _ _ =>
          if (state.proc who).state = .running then some (state.setProc who .idle (state.proc who))
          else none
      | _ => none
  | .sleepRelease who chan lk =>
      if state.pc who = .prepared chan lk ∧ (state.proc who).state = .running then
        some ((state.setProc who (.released chan lk) (state.proc who)).setHolder lk none)
      else none
  | .sleep who =>
      match state.pc who with
      | .released chan lk =>
          if (state.proc who).state = .running then
            some (state.setProc who
              (if (state.proc who).chan.isSome then .asleep chan lk else .returned lk)
              (state.proc who).sleep)
          else none
      | _ => none
  | .resume who =>
      match state.pc who with
      | .asleep _ lk =>
          if (state.proc who).state = .running then
            some (state.setProc who (.returned lk) (state.proc who))
          else none
      | _ => none
  | .reacquire who lk =>
      if state.pc who = .returned lk ∧ (state.proc who).state = .running ∧
          state.holder lk = none then
        some ((state.setProc who .idle (state.proc who)).setHolder lk (some (.inl who)))
      else none
  | .wakeup who chan =>
      if state.Runs who ∧ state.scan who = none then
        some (state.setScan who (some (.wakeup chan (List.finRange n))))
      else none
  | .visit who =>
      match state.scan who with
      | some (.wakeup chan (p :: rest)) =>
          some ((state.setProc p (state.pc p) ((state.proc p).wakeup chan)).setScan who
            (some (.wakeup chan rest)))
      | _ => none
  | .wakeupReturn who =>
      match state.scan who with
      | some (.wakeup _ []) => some (state.setScan who none)
      | _ => none
  | .kkill who pid =>
      if state.Runs who ∧ state.scan who = none then
        some (state.setScan who (some (.kkill pid (List.finRange n))))
      else none
  | .kkillVisit who =>
      match state.scan who with
      | some (.kkill pid (p :: rest)) =>
          if (state.proc p).pid = pid then
            some ((state.setProc p (state.pc p) (state.proc p).kill).setScan who none)
          else some (state.setScan who (some (.kkill pid rest)))
      | _ => none
  | .kkillReturn who =>
      match state.scan who with
      | some (.kkill _ []) => some (state.setScan who none)
      | _ => none
  | .dispatch who =>
      if (state.proc who).state = .runnable then
        some (state.setProc who (state.pc who) { state.proc who with state := .running })
      else none
  | .yield who =>
      if (state.proc who).state = .running then
        some (state.setProc who (state.pc who) { state.proc who with state := .runnable })
      else none
  | .alloc who =>
      if (state.proc who).state = .unused then
        some { state.setProc who (state.pc who)
            { state.proc who with state := .runnable, pid := state.nextpid } with
          nextpid := state.nextpid + 1 }
      else none
  | .exit who =>
      if state.Runs (.inl who) ∧ state.scan (.inl who) = none then
        some (state.setProc who .idle { state.proc who with state := .zombie })
      else none
  | .free who =>
      if (state.proc who).state = .zombie then
        some (state.setProc who (state.pc who) (state.proc who).free)
      else none

theorem step_cases {state next : State n κ Chan Lock} {action : Action n κ Chan Lock}
    (hstep : step state action = some next) :
    match action with
    | .acquire who lk => (state.Runs who ∧ state.scan who = none ∧ state.holder lk = none) ∧
        next = state.setHolder lk (some who)
    | .release who lk => (state.Runs who ∧ state.scan who = none ∧ state.holder lk = some who) ∧
        next = state.setHolder lk none
    | .sleepPrepare who chan lk => (state.Runs (.inl who) ∧ state.scan (.inl who) = none ∧
          state.holder lk = some (.inl who)) ∧
        next = state.setProc who (.prepared chan lk) ((state.proc who).sleepPrepare chan)
    | .giveUp who => ∃ chan lk, state.pc who = .prepared chan lk ∧
        (state.proc who).state = .running ∧ next = state.setProc who .idle (state.proc who)
    | .sleepRelease who chan lk =>
        (state.pc who = .prepared chan lk ∧ (state.proc who).state = .running) ∧
          next = (state.setProc who (.released chan lk) (state.proc who)).setHolder lk none
    | .sleep who => ∃ chan lk, state.pc who = .released chan lk ∧
        (state.proc who).state = .running ∧ next = state.setProc who
          (if (state.proc who).chan.isSome then .asleep chan lk else .returned lk)
          (state.proc who).sleep
    | .resume who => ∃ chan lk, state.pc who = .asleep chan lk ∧
        (state.proc who).state = .running ∧ next = state.setProc who (.returned lk) (state.proc who)
    | .reacquire who lk => (state.pc who = .returned lk ∧ (state.proc who).state = .running ∧
          state.holder lk = none) ∧
        next = (state.setProc who .idle (state.proc who)).setHolder lk (some (.inl who))
    | .wakeup who chan => (state.Runs who ∧ state.scan who = none) ∧
        next = state.setScan who (some (.wakeup chan (List.finRange n)))
    | .visit who => ∃ chan p rest, state.scan who = some (.wakeup chan (p :: rest)) ∧
        next = (state.setProc p (state.pc p) ((state.proc p).wakeup chan)).setScan who
          (some (.wakeup chan rest))
    | .wakeupReturn who => ∃ chan, state.scan who = some (.wakeup chan []) ∧
        next = state.setScan who none
    | .kkill who pid => (state.Runs who ∧ state.scan who = none) ∧
        next = state.setScan who (some (.kkill pid (List.finRange n)))
    | .kkillVisit who => ∃ pid p rest, state.scan who = some (.kkill pid (p :: rest)) ∧
        (next = (state.setProc p (state.pc p) (state.proc p).kill).setScan who none ∨
          next = state.setScan who (some (.kkill pid rest)))
    | .kkillReturn who => ∃ pid, state.scan who = some (.kkill pid []) ∧
        next = state.setScan who none
    | .dispatch who => (state.proc who).state = .runnable ∧
        next = state.setProc who (state.pc who) { state.proc who with state := .running }
    | .yield who => (state.proc who).state = .running ∧
        next = state.setProc who (state.pc who) { state.proc who with state := .runnable }
    | .alloc who => (state.proc who).state = .unused ∧
        next = { state.setProc who (state.pc who)
            { state.proc who with state := .runnable, pid := state.nextpid } with
          nextpid := state.nextpid + 1 }
    | .exit who => (state.Runs (.inl who) ∧ state.scan (.inl who) = none) ∧
        next = state.setProc who .idle { state.proc who with state := .zombie }
    | .free who => (state.proc who).state = .zombie ∧
        next = state.setProc who (state.pc who) (state.proc who).free := by
  cases action with
  | giveUp who | sleep who | resume who =>
      simp only [step] at hstep
      split at hstep
      · next hpc =>
          obtain ⟨hrunning, hnext⟩ := Option.ite_none_right_eq_some.mp hstep
          exact ⟨_, _, hpc, hrunning, (Option.some.inj hnext).symm⟩
      · cases hstep
  | visit who =>
      simp only [step] at hstep
      split at hstep
      · next hscan => exact ⟨_, _, _, hscan, (Option.some.inj hstep).symm⟩
      · cases hstep
  | wakeupReturn who | kkillReturn who =>
      simp only [step] at hstep
      split at hstep
      · next hscan => exact ⟨_, hscan, (Option.some.inj hstep).symm⟩
      · cases hstep
  | kkillVisit who =>
      simp only [step] at hstep
      split at hstep
      · next hscan =>
          refine ⟨_, _, _, hscan, ?_⟩
          split at hstep
          · exact Or.inl (Option.some.inj hstep).symm
          · exact Or.inr (Option.some.inj hstep).symm
      · cases hstep
  | _ =>
      obtain ⟨hguard, hnext⟩ := Option.ite_none_right_eq_some.mp hstep
      exact ⟨hguard, (Option.some.inj hnext).symm⟩

end Steps

end Xv6.Sleep
