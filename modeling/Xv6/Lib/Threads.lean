import Xv6.Lib.Program
import Xv6.Lib.Transition

/-!
# Threads running programs over a shared state

Each thread holds what is left of its program. A step lets one thread perform its next operation, or
lets a thread that has finished start another program from a menu, or lets the environment act. A
schedule is a list of such steps, so a statement about all schedules is one about all interleavings.

The soundness theorem (`Threads.sound`) is the usual one for thread-modular reasoning: give each
thread a ghost state, relate the shared state to all of them by an invariant, check each operation
once against that invariant, and every program verified with `wp` keeps it under every schedule.
-/

/-- How the operations act: who performs it, the shared state, the operation, and a number that
settles whatever the operation leaves open. `none` where the operation cannot be performed now. -/
abbrev Handler (S : Signature) (σ ι : Type) :=
  ι → σ → (op : S.Op) → Nat → Option (S.Resp op × σ)

/-- Threads over a shared state. A thread at `ret value` has finished, keeping `value`. -/
structure Threads (S : Signature) (σ ι α : Type) where
  shared : σ
  thread : ι → Program S α

namespace Threads

variable {S : Signature} {σ ι α Call Env : Type}

inductive Action (ι Call Env : Type) where
  | perform (who : ι) (choice : Nat)
  | start (who : ι) (call : Call)
  | env (event : Env)
  deriving DecidableEq

/-- The pieces a threaded system is made of. -/
structure System (S : Signature) (σ ι α Call Env : Type) where
  handler : Handler S σ ι
  /-- The program a call runs, from the value the thread kept. `none` where it cannot be called. -/
  menu : ι → Call → α → Option (Program S α)
  /-- What happens from outside: a device acts, or a crash ends every program. -/
  environment : Threads S σ ι α → Env → Option (Threads S σ ι α)

/-- Thread `who` performs its next operation. -/
def performStep [DecidableEq ι] (handler : Handler S σ ι) (world : Threads S σ ι α) (who : ι)
    (choice : Nat) : Option (Threads S σ ι α) :=
  match world.thread who with
  | .ret _ => none
  | .call op next => (handler who world.shared op choice).map fun result =>
      ⟨result.2, Function.update world.thread who (next result.1)⟩

/-- Thread `who`, having finished, starts the program of a call. -/
def startStep [DecidableEq ι] (menu : ι → Call → α → Option (Program S α))
    (world : Threads S σ ι α) (who : ι) (call : Call) : Option (Threads S σ ι α) :=
  match world.thread who with
  | .ret value => (menu who call value).map fun program =>
      { world with thread := Function.update world.thread who program }
  | .call _ _ => none

def step [DecidableEq ι] (system : System S σ ι α Call Env) :
    Transition.Step (Threads S σ ι α) (Action ι Call Env)
  | world, .perform who choice => performStep system.handler world who choice
  | world, .start who call => startStep system.menu world who call
  | world, .env event => system.environment world event

/-- The operation a thread is about to perform, if it has one. -/
def nextOp (world : Threads S σ ι α) (who : ι) : Option S.Op :=
  match world.thread who with
  | .ret _ => none
  | .call op _ => some op

def Idle (world : Threads S σ ι α) : Prop := ∀ who, ∃ value, world.thread who = .ret value

/-- A condition on operations, read at a step: the operation it performs, if any, meets it. -/
def Meets (allowed : σ → ι → S.Op → Prop) (world : Threads S σ ι α) :
    Action ι Call Env → Prop
  | .perform who _ => ∀ op, world.nextOp who = some op → allowed world.shared who op
  | _ => True

/-- A condition on operations and what settles them, read at a step. -/
def Settles (settled : σ → ι → S.Op → Nat → Prop) (world : Threads S σ ι α) :
    Action ι Call Env → Prop
  | .perform who choice => ∀ op, world.nextOp who = some op → settled world.shared who op choice
  | _ => True

instance decidableSettles {settled : σ → ι → S.Op → Nat → Prop}
    [∀ shared who op choice, Decidable (settled shared who op choice)] (world : Threads S σ ι α) :
    (action : Action ι Call Env) → Decidable (Settles settled world action)
  | .perform who choice =>
      inferInstanceAs (Decidable (∀ op ∈ world.nextOp who, settled world.shared who op choice))
  | .start _ _ => isTrue trivial
  | .env _ => isTrue trivial

instance decidableMeets {allowed : σ → ι → S.Op → Prop}
    [∀ shared who op, Decidable (allowed shared who op)] (world : Threads S σ ι α) :
    (action : Action ι Call Env) → Decidable (Meets allowed world action)
  | .perform who _ =>
      inferInstanceAs (Decidable (∀ op ∈ world.nextOp who, allowed world.shared who op))
  | .start _ _ => isTrue trivial
  | .env _ => isTrue trivial

section Soundness

variable [DecidableEq ι] {G : Type} {system : System S σ ι α Call Env} {rule : Rule S G}
  {inv : σ → (ι → G) → Prop} {allowed : σ → ι → S.Op → Prop} {post : ι → α → G → Prop}

def HandlerSound (handler : Handler S σ ι) (rule : Rule S G) (inv : σ → (ι → G) → Prop)
    (allowed : σ → ι → S.Op → Prop) : Prop :=
  ∀ who shared ghosts op choice response shared' (Q : S.Resp op → G → Prop),
    inv shared ghosts → allowed shared who op → rule op (ghosts who) Q →
      handler who shared op choice = some (response, shared') →
        ∃ ghost, Q response ghost ∧ inv shared' (Function.update ghosts who ghost)

def MenuSound (menu : ι → Call → α → Option (Program S α)) (rule : Rule S G)
    (post : ι → α → G → Prop) : Prop :=
  ∀ who call value program ghost, menu who call value = some program → post who value ghost →
    program.wp rule ghost (post who)

def Verified (rule : Rule S G) (inv : σ → (ι → G) → Prop) (post : ι → α → G → Prop)
    (world : Threads S σ ι α) : Prop :=
  ∃ ghosts : ι → G, inv world.shared ghosts ∧
    ∀ who, (world.thread who).wp rule (ghosts who) (post who)

def EnvSound (environment : Threads S σ ι α → Env → Option (Threads S σ ι α)) (rule : Rule S G)
    (inv : σ → (ι → G) → Prop) (post : ι → α → G → Prop) : Prop :=
  ∀ world event world', Verified rule inv post world → environment world event = some world' →
    Verified rule inv post world'

def HandlerSettled (handler : Handler S σ ι) (rule : Rule S G) (inv : σ → (ι → G) → Prop)
    (settled : σ → ι → S.Op → Nat → Prop) : Prop :=
  ∀ who shared ghosts op choice response shared' (Q : S.Resp op → G → Prop),
    inv shared ghosts → settled shared who op choice → rule op (ghosts who) Q →
      handler who shared op choice = some (response, shared') →
        ∃ ghost, Q response ghost ∧ inv shared' (Function.update ghosts who ghost)

theorem HandlerSound.settled {handler : Handler S σ ι}
    (h : HandlerSound handler rule inv allowed) :
    HandlerSettled handler rule inv fun shared who op _ => allowed shared who op :=
  fun who shared ghosts op choice response shared' Q =>
    h who shared ghosts op choice response shared' Q

theorem verified_performStep {settled : σ → ι → S.Op → Nat → Prop}
    (hhandler : HandlerSettled system.handler rule inv settled)
    {world world' : Threads S σ ι α} {who : ι} {choice : Nat}
    (hverified : Verified rule inv post world)
    (hsettled : ∀ op, world.nextOp who = some op → settled world.shared who op choice)
    (hstep : performStep system.handler world who choice = some world') :
    Verified rule inv post world' := by
  obtain ⟨ghosts, hinv, hwp⟩ := hverified
  unfold performStep at hstep
  cases hthread : world.thread who with
  | ret value => simp [hthread] at hstep
  | call op next =>
      simp only [hthread, Option.map_eq_some_iff] at hstep
      obtain ⟨⟨response, shared'⟩, hresult, rfl⟩ := hstep
      have hrule := hwp who
      rw [hthread, Program.wp_call] at hrule
      obtain ⟨ghost, hnext, hinv'⟩ := hhandler _ _ _ _ _ _ _ _ hinv
        (hsettled op (by simp [nextOp, hthread])) hrule hresult
      refine ⟨Function.update ghosts who ghost, hinv', fun other => ?_⟩
      by_cases hother : other = who
      · subst hother
        simpa using hnext
      · simpa [hother] using hwp other

theorem verified_startStep_of {world world' : Threads S σ ι α} {who : ι} {call : Call}
    (hmenu : ∀ value program ghost, system.menu who call value = some program →
      post who value ghost → program.wp rule ghost (post who))
    (hverified : Verified rule inv post world)
    (hstep : startStep system.menu world who call = some world') :
    Verified rule inv post world' := by
  obtain ⟨ghosts, hinv, hwp⟩ := hverified
  unfold startStep at hstep
  cases hthread : world.thread who with
  | call op next => simp [hthread] at hstep
  | ret value =>
      simp only [hthread, Option.map_eq_some_iff] at hstep
      obtain ⟨program, hprogram, rfl⟩ := hstep
      have hpost := hwp who
      rw [hthread, Program.wp_ret] at hpost
      refine ⟨ghosts, hinv, fun other => ?_⟩
      by_cases hother : other = who
      · subst hother
        simpa using hmenu _ _ _ hprogram hpost
      · simpa [hother] using hwp other

theorem verified_startStep (hmenu : MenuSound system.menu rule post)
    {world world' : Threads S σ ι α} {who : ι} {call : Call}
    (hverified : Verified rule inv post world)
    (hstep : startStep system.menu world who call = some world') :
    Verified rule inv post world' := verified_startStep_of (hmenu who call) hverified hstep

theorem performStep_of_call {handler : Handler S σ ι} {world world' : Threads S σ ι α} {who : ι}
    {choice : Nat} {op : S.Op} {next : S.Resp op → Program S α}
    (hthread : world.thread who = .call op next)
    (hstep : performStep handler world who choice = some world') :
    ∃ response shared', handler who world.shared op choice = some (response, shared') ∧
      world' = ⟨shared', Function.update world.thread who (next response)⟩ := by
  simp only [performStep, hthread, Option.map_eq_some_iff] at hstep
  obtain ⟨⟨response, shared'⟩, hresult, rfl⟩ := hstep
  exact ⟨response, shared', hresult, rfl⟩

theorem startStep_cases {menu : ι → Call → α → Option (Program S α)} {world world' : Threads S σ ι α}
    {who : ι} {call : Call} (hstep : startStep menu world who call = some world') :
    ∃ value program, menu who call value = some program ∧
      world' = { world with thread := Function.update world.thread who program } := by
  unfold startStep at hstep
  cases hthread : world.thread who with
  | call op next => simp [hthread] at hstep
  | ret value =>
      simp only [hthread, Option.map_eq_some_iff] at hstep
      obtain ⟨program, hprogram, rfl⟩ := hstep
      exact ⟨value, program, hprogram, rfl⟩

omit [DecidableEq ι] in
theorem thread_of_nextOp_eq_none {world : Threads S σ ι α} {who : ι}
    (hnone : world.nextOp who = none) : ∃ value, world.thread who = .ret value := by
  unfold nextOp at hnone
  cases hthread : world.thread who with
  | ret value => exact ⟨value, rfl⟩
  | call op next => simp [hthread] at hnone

theorem Verified.shared_step {world world' : Threads S σ ι α} {action : Action ι Call Env}
    (h : Verified rule inv post world) (goal : σ → Prop)
    (hperform : ∀ ghosts who op choice response shared' Q, inv world.shared ghosts →
      rule op (ghosts who) Q → system.handler who world.shared op choice = some (response, shared') →
        goal shared')
    (hstart : goal world.shared)
    (henv : ∀ event, action = .env event → system.environment world event = some world' →
      goal world'.shared)
    (hstep : step system world action = some world') : goal world'.shared := by
  obtain ⟨ghosts, hinv, hwp⟩ := h
  cases action with
  | perform who choice =>
      change performStep system.handler world who choice = some world' at hstep
      cases hthread : world.thread who with
      | ret value => simp [performStep, hthread] at hstep
      | call op next =>
          obtain ⟨response, shared', hresult, rfl⟩ := performStep_of_call hthread hstep
          have hrule := hwp who
          rw [hthread, Program.wp_call] at hrule
          exact hperform ghosts who op choice response shared' _ hinv hrule hresult
  | start who call =>
      obtain ⟨value, program, -, rfl⟩ := startStep_cases hstep
      exact hstart
  | env event => exact henv event rfl hstep

theorem thread_performStep_of_ne {handler : Handler S σ ι} {world world' : Threads S σ ι α}
    {who other : ι} {choice : Nat} (hstep : performStep handler world other choice = some world')
    (hne : other ≠ who) : world'.thread who = world.thread who := by
  unfold performStep at hstep
  cases hthread : world.thread other with
  | ret value => simp [hthread] at hstep
  | call op next =>
      simp only [hthread, Option.map_eq_some_iff] at hstep
      obtain ⟨result, -, rfl⟩ := hstep
      exact Function.update_of_ne hne.symm _ _

theorem thread_startStep_of_ne {menu : ι → Call → α → Option (Program S α)}
    {world world' : Threads S σ ι α} {who other : ι} {call : Call}
    (hstep : startStep menu world other call = some world') (hne : other ≠ who) :
    world'.thread who = world.thread who := by
  obtain ⟨value, program, -, rfl⟩ := startStep_cases hstep
  exact Function.update_of_ne hne.symm _ _

theorem sound (hhandler : HandlerSound system.handler rule inv allowed)
    (henv : EnvSound system.environment rule inv post) (hmenu : MenuSound system.menu rule post)
    {world world' : Threads S σ ι α} {actions : List (Action ι Call Env)}
    (hverified : Verified rule inv post world)
    (halong : Transition.Along (step system) (Meets allowed) world actions)
    (hrun : Transition.run (step system) world actions = some world') :
    Verified rule inv post world' := by
  refine Transition.invariant_along ?_ hverified halong hrun
  intro world action next hverified hmeets hstep
  cases action with
  | perform who choice => exact verified_performStep hhandler.settled hverified hmeets hstep
  | start who call => exact verified_startStep hmenu hverified hstep
  | env event =>
      exact henv _ _ _ hverified hstep

theorem verified_step {settled : σ → ι → S.Op → Nat → Prop}
    (hhandler : HandlerSettled system.handler rule inv settled)
    (henv : EnvSound system.environment rule inv post) (hmenu : MenuSound system.menu rule post)
    {world world' : Threads S σ ι α} {action : Action ι Call Env}
    (hverified : Verified rule inv post world) (hsettles : Settles settled world action)
    (hstep : step system world action = some world') : Verified rule inv post world' := by
  cases action with
  | perform who choice => exact verified_performStep hhandler hverified hsettles hstep
  | start who call => exact verified_startStep hmenu hverified hstep
  | env event => exact henv _ _ _ hverified hstep

theorem sound_run (hhandler : HandlerSound system.handler rule inv fun _ _ _ => True)
    (henv : EnvSound system.environment rule inv post) (hmenu : MenuSound system.menu rule post)
    {world world' : Threads S σ ι α} {actions : List (Action ι Call Env)}
    (hverified : Verified rule inv post world)
    (hrun : Transition.run (step system) world actions = some world') :
    Verified rule inv post world' := by
  refine sound hhandler henv hmenu hverified (Transition.along_of_forall ?_ actions) hrun
  intro world action
  cases action with
  | perform who choice => exact fun _ _ => trivial
  | start who call => trivial
  | env event => trivial

/-! ### Runs whose calls are good -/

end Soundness

end Threads
