import Mathlib.Data.List.Induction
import Mathlib.Tactic.Common

/-!
# Transition systems

A system is a partial step function: an action taken in a state either leads to one next state or is
not enabled there. A run is a list of actions. Every safety argument of the development has the same
shape, a property of one step carried along a run, and this module holds that shape once.
-/

namespace Transition

variable {σ α : Type*}

/-- A partial step function: `none` where the action is not enabled. -/
abbrev Step (σ α : Type*) := σ → α → Option σ

/-- Take the actions of a list in order. -/
def run (step : Step σ α) : σ → List α → Option σ
  | state, [] => some state
  | state, action :: rest => (step state action).bind fun next => run step next rest

/-- Every step of the run meets a condition on the state before it and the action taken. -/
def Along (step : Step σ α) (condition : σ → α → Prop) : σ → List α → Prop
  | _, [] => True
  | state, action :: rest =>
      condition state action ∧ ∀ next ∈ step state action, Along step condition next rest

/-- A condition that can be tested can be tested along a run. -/
instance decidableAlong (step : Step σ α) (condition : σ → α → Prop)
    [∀ state action, Decidable (condition state action)] :
    (state : σ) → (actions : List α) → Decidable (Along step condition state actions)
  | _, [] => isTrue trivial
  | state, action :: rest =>
      have : DecidablePred fun next => Along step condition next rest :=
        fun next => decidableAlong step condition next rest
      inferInstanceAs (Decidable (condition state action ∧
        ∀ next ∈ step state action, Along step condition next rest))

def Reachable (step : Step σ α) (start state : σ) : Prop :=
  ∃ actions, run step start actions = some state

section Run

variable {step : Step σ α} {condition : σ → α → Prop} {start state : σ}

theorem run_cons {action : α} {rest : List α} :
    run step start (action :: rest) = some state ↔
      ∃ next, step start action = some next ∧ run step next rest = some state := by
  simp [run, Option.bind_eq_some_iff]

theorem run_append (actions rest : List α) :
    run step start (actions ++ rest) = (run step start actions).bind fun next =>
      run step next rest := by
  induction actions generalizing start with
  | nil => rfl
  | cons action actions ih =>
      simp only [List.cons_append, run, Option.bind_assoc]
      exact congrArg _ (funext fun next => ih)

theorem run_concat {actions : List α} {action : α} :
    run step start (actions ++ [action]) = some state ↔
      ∃ next, run step start actions = some next ∧ step next action = some state := by
  simp [run_append, run, Option.bind_eq_some_iff]

theorem run_congr {step' : Step σ α} {actions : List α}
    (h : ∀ action ∈ actions, ∀ state, step' state action = step state action) :
    run step' start actions = run step start actions := by
  induction actions generalizing start with
  | nil => rfl
  | cons action rest ih =>
      rw [run, run, h action List.mem_cons_self]
      exact congrArg _ (funext fun next => ih fun other hother =>
        h other (List.mem_cons_of_mem _ hother))

theorem Along.head {action : α} {rest : List α}
    (h : Along step condition start (action :: rest)) : condition start action := h.1

theorem Along.tail {action : α} {rest : List α} {next : σ}
    (h : Along step condition start (action :: rest)) (hstep : step start action = some next) :
    Along step condition next rest := h.2 next hstep

theorem along_of_forall (hall : ∀ state action, condition state action) (actions : List α) :
    Along step condition start actions := by
  induction actions generalizing start with
  | nil => trivial
  | cons action rest ih => exact ⟨hall _ _, fun _ _ => ih⟩

theorem along_of_forall_mem {actions : List α} {allowed : α → Prop}
    (hall : ∀ action ∈ actions, allowed action) :
    Along step (fun _ action => allowed action) start actions := by
  induction actions generalizing start with
  | nil => trivial
  | cons action rest ih =>
      exact ⟨hall _ List.mem_cons_self, fun _ _ => ih fun other hother =>
        hall other (List.mem_cons_of_mem _ hother)⟩

theorem invariant_along {inv : σ → Prop}
    (hstep : ∀ state action next, inv state → condition state action →
      step state action = some next → inv next)
    {actions : List α} (hstart : inv start) (halong : Along step condition start actions)
    (hrun : run step start actions = some state) : inv state := by
  induction actions generalizing start with
  | nil =>
      cases hrun
      exact hstart
  | cons action rest ih =>
      obtain ⟨next, hnext, hrest⟩ := run_cons.mp hrun
      exact ih (hstep _ _ _ hstart halong.head hnext) (halong.tail hnext) hrest

theorem invariant_run {inv : σ → Prop}
    (hstep : ∀ state action next, inv state → step state action = some next → inv next)
    {actions : List α} (hstart : inv start) (hrun : run step start actions = some state) :
    inv state :=
  invariant_along (fun state action next hinv (_ : True) => hstep state action next hinv) hstart
    (along_of_forall (fun _ _ => trivial) actions) hrun

theorem invariant_history {inv : List α → σ → Prop} (hstart : inv [] start)
    (hstep : ∀ actions state action next, inv actions state → step state action = some next →
      inv (actions ++ [action]) next)
    {actions : List α} (hrun : run step start actions = some state) : inv actions state := by
  induction actions using List.reverseRecOn generalizing state with
  | nil =>
      cases hrun
      exact hstart
  | append_singleton actions action ih =>
      obtain ⟨before, hbefore, hlast⟩ := run_concat.mp hrun
      exact hstep _ _ _ _ (ih hbefore) hlast

theorem Reachable.refl (start : σ) : Reachable step start start := ⟨[], rfl⟩

end Run

/-! ### Simulation -/

section Simulation

variable {τ β ε : Type*} {step : Step σ α} {spec : Step τ β} {abs : σ → τ} {inv : σ → Prop}
  {visible : α → Option ε} {specVisible : β → Option ε} {start state : σ}

theorem simulation
    (hinv : ∀ state action next, inv state → step state action = some next → inv next)
    (hstep : ∀ state action next, inv state → step state action = some next →
      ∃ matched, run spec (abs state) matched = some (abs next) ∧
        matched.filterMap specVisible = (visible action).toList)
    (hstart : inv start) {actions : List α} (hrun : run step start actions = some state) :
    ∃ matched, run spec (abs start) matched = some (abs state) ∧
      matched.filterMap specVisible = actions.filterMap visible := by
  induction actions generalizing start with
  | nil =>
      cases hrun
      exact ⟨[], rfl, rfl⟩
  | cons action rest ih =>
      obtain ⟨next, hnext, hrest⟩ := run_cons.mp hrun
      obtain ⟨first, hfirst, hvisible⟩ := hstep _ _ _ hstart hnext
      obtain ⟨more, hmore, hvisibles⟩ := ih (hinv _ _ _ hstart hnext) hrest
      refine ⟨first ++ more, ?_, ?_⟩
      · rw [run_append, hfirst]
        exact hmore
      · rw [List.filterMap_append, hvisible, hvisibles, List.filterMap_cons]
        cases visible action <;> rfl

end Simulation

end Transition
