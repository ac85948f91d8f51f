import Xv6.Proc.Reaping

/-!
# Pids and kills

`nextpid` is an `int`, and `kkill` finds its victim by looking for a pid in the slots, one after the
other, each under its lock. The tree of processes counts the calls of `allocpid`: the pid in a slot is
the number of the call as an `int`, which wraps around.
-/

namespace Xv6.Pids

open Tree (Chan)

/-- What an `int` holds that has been counted up to `count`. -/
@[irreducible]
def toInt (count : Nat) : Int := Int.bmod count (2 ^ 32)

section Table

variable {n : Nat} {Other : Type}

abbrev Table (n : Nat) (Other : Type) := Fin n → Proc (Fin n) (Chan n Other)

/-- `p->pid`. -/
def pidOf (proc : Table n Other) (q : Fin n) : Int := toInt (proc q).pid

def InUse (proc : Table n Other) (q : Fin n) : Prop := (proc q).state ≠ .unused

/-- The loop of `kkill` from a slot on, when nobody else takes a step: what it returns, and the table
it leaves. -/
def kkillFrom (pid : Int) : List (Fin n) → Table n Other → Int × Table n Other
  | [], proc => (-1, proc)
  | q :: rest, proc =>
      if pidOf proc q = pid then (0, Function.update proc q (proc q).kill)
      else kkillFrom pid rest proc

def kkill (pid : Int) (proc : Table n Other) : Int × Table n Other :=
  kkillFrom pid (List.finRange n) proc

end Table

/-! ### The system -/

structure State (n : Nat) (Other : Type) where
  tree : Tree.State n Other
  /-- The variable `pid` of `kfork`. -/
  pid : Fin n → Int
  /-- In `kkill`: the pid, and the slots it has yet to look at. -/
  scan : Fin n → Option (Int × List (Fin n))

inductive Action (n : Nat) (Other : Type) where
  | tree (action : Tree.Action n Other)
  | kkill (who : Fin n) (pid : Int)
  /-- `kkill` looks at its next slot, or has looked at all of them. -/
  | visit (who : Fin n)

section Steps

variable {n : Nat} {Other : Type}

/-- After `userinit`. -/
def start (initproc : Fin n) : State n Other where
  tree := Tree.start initproc
  pid := fun _ => 0
  scan := fun _ => none

/-- A process in `kkill` makes no other call, and nobody is killed but by `kkill`. -/
def Allowed (scan : Fin n → Option (Int × List (Fin n))) : Tree.Action n Other → Bool
  | .kfork who _ | .kforkFails who _ | .sleepPrepare who _ | .giveUp who | .kexit who _
  | .kwait who | .advance who _ => (scan who).isNone
  | .kkill _ => false
  | .wakeupOther _ _ | .dispatch _ | .yield _ => true

/-- `pid = np->pid`, in `kfork`. -/
def setPid (proc : Table n Other) (pid : Fin n → Int) : Tree.Action n Other → Fin n → Int
  | .kfork who np => Function.update pid who (pidOf proc np)
  | _ => pid

variable [DecidableEq Other]

def step (initproc : Fin n) (state : State n Other) : Action n Other → Option (State n Other)
  | .tree action =>
      if Allowed state.scan action then
        (Tree.step initproc state.tree action).map fun tree =>
          { state with tree, pid := setPid tree.proc state.pid action }
      else none
  | .kkill who pid =>
      if (state.tree.proc who).state = .running ∧ state.tree.pc who = .idle ∧
          state.scan who = none then
        some { state with scan := Function.update state.scan who (some (pid, List.finRange n)) }
      else none
  | .visit who =>
      if (state.tree.proc who).state = .running then
        match state.scan who with
        | none => none
        | some (_, []) => some { state with scan := Function.update state.scan who none }
        | some (pid, q :: rest) =>
            if pidOf state.tree.proc q = pid then
              some { state with
                tree := state.tree.setProc q (state.tree.proc q).kill
                scan := Function.update state.scan who none }
            else
              some { state with scan := Function.update state.scan who (some (pid, rest)) }
      else none

/-! ### What a step does to the slots -/

/-- What the tree does to a slot, as far as its pid and `killed` are concerned. -/
inductive Change (state next : Tree.State n Other) (action : Tree.Action n Other) (q : Fin n) :
    Prop where
  /-- The slot is free after the step, and was free or a zombie before it. -/
  | freed (hbefore : (state.proc q).state = .unused ∨ (state.proc q).state = .zombie)
      (hpid : (next.proc q).pid = 0) (hkilled : (next.proc q).killed = false)
      (hunused : (next.proc q).state = .unused)
  | allocated (who : Fin n) (haction : action = .kfork who q)
      (hbefore : (state.proc q).state = .unused) (hafter : (next.proc q).state = .used)
      (hpid : (next.proc q).pid = state.nextpid)
      (hkilled : (next.proc q).killed = (state.proc q).killed)
  | killed (haction : action = .kkill q) (hproc : next.proc q = (state.proc q).kill)
  | kept (hpid : (next.proc q).pid = (state.proc q).pid)
      (hkilled : (next.proc q).killed = (state.proc q).killed)
      (hunused : (next.proc q).state = .unused ↔ (state.proc q).state = .unused)

omit [DecidableEq Other] in
theorem unused_kill {p : Proc (Fin n) (Chan n Other)} :
    p.kill.state = .unused ↔ p.state = .unused := by
  unfold Proc.kill
  grind

section Change

variable {initproc who q c : Fin n} {state next : Tree.State n Other}
  {action : Tree.Action n Other}

omit [DecidableEq Other] in
theorem Change.of_same (hproc : next.proc = state.proc) : Change state next action c :=
  .kept (by rw [hproc]) (by rw [hproc]) (by rw [hproc])

omit [DecidableEq Other] in
theorem Change.of_slot {proc : Proc (Fin n) (Chan n Other)}
    (hproc : next.proc = Function.update state.proc q proc) (hpid : proc.pid = (state.proc q).pid)
    (hkilled : proc.killed = (state.proc q).killed)
    (hunused : proc.state = .unused ↔ (state.proc q).state = .unused) :
    Change state next action c := by
  by_cases hc : c = q
  · subst hc
    apply Change.kept
    · rw [hproc, Function.update_self, hpid]
    · rw [hproc, Function.update_self, hkilled]
    · rw [hproc, Function.update_self, hunused]
  · have hsame : next.proc c = state.proc c := by rw [hproc, Function.update_of_ne hc]
    exact .kept (by rw [hsame]) (by rw [hsame]) (by rw [hsame])

theorem Change.of_wakeup {chan : Chan n Other}
    (hproc : next.proc = Function.update state.proc q ((state.proc q).wakeup chan)) :
    Change state next action c := by
  refine .of_slot hproc ?_ ?_ ?_
  all_goals
    unfold Proc.wakeup
    grind

omit [DecidableEq Other] in
theorem Change.of_sleep (hwho : (state.proc q).state = .running)
    (hproc : next.proc = Function.update state.proc q (state.proc q).sleep) :
    Change state next action c := by
  refine .of_slot hproc ?_ ?_ ?_
  all_goals
    unfold Proc.sleep
    grind

theorem advance_change (hinv : Tree.Inv initproc state) {copied : Bool}
    (hwho : (state.proc who).state = .running)
    (hstep : state.advance initproc who copied = some next) (c : Fin n) :
    Change state next action c := by
  cases hpc : state.pc who with
  | idle => simp [Tree.State.advance, hpc] at hstep
  | forking np =>
      simp only [Tree.State.advance, hpc, Option.ite_none_right_eq_some, Option.some.injEq] at hstep
      obtain ⟨-, rfl⟩ := hstep
      exact .of_slot rfl rfl rfl Iff.rfl
  | parented np =>
      simp only [Tree.State.advance, hpc, Option.some.injEq] at hstep
      subst hstep
      have hused := (hinv.family.parented who np (by simp [Tree.State.family, hpc, Tree.roleOf])).1
      have hne : (state.proc np).state ≠ .unused := by
        rw [Tree.kindOf_eq_used.mp hused]
        decide
      exact .of_slot rfl rfl rfl (by simp [hne])
  | prepared | waitReleased =>
      simp only [Tree.State.advance, hpc, Option.some.injEq] at hstep
      subst hstep
      exact .of_sleep hwho rfl
  | napping | waitPrepared | waitAsleep =>
      simp only [Tree.State.advance, hpc, Option.some.injEq] at hstep
      subst hstep
      exact .of_same rfl
  | reparent status rest =>
      cases rest with
      | nil =>
          simp only [Tree.State.advance, hpc, Option.some.injEq] at hstep
          subst hstep
          exact .of_same rfl
      | cons q rest =>
          simp only [Tree.State.advance, hpc] at hstep
          split at hstep
          · cases hstep
            exact .of_slot rfl rfl rfl Iff.rfl
          · cases hstep
            exact .of_same rfl
  | wakeInit status rest slots =>
      cases slots with
      | nil =>
          simp only [Tree.State.advance, hpc, Option.some.injEq] at hstep
          subst hstep
          exact .of_same rfl
      | cons q slots =>
          simp only [Tree.State.advance, hpc, Option.some.injEq] at hstep
          subst hstep
          exact .of_wakeup rfl
  | wakeParent status parent slots =>
      cases slots with
      | nil =>
          simp only [Tree.State.advance, hpc, Option.some.injEq] at hstep
          subst hstep
          exact .of_slot rfl rfl rfl (by simp [hwho])
      | cons q slots =>
          simp only [Tree.State.advance, hpc, Option.some.injEq] at hstep
          subst hstep
          cases parent with
          | none => exact .of_slot rfl rfl rfl Iff.rfl
          | some parent => exact .of_wakeup rfl
  | scanning rest havekids =>
      cases rest with
      | nil =>
          simp only [Tree.State.advance, hpc] at hstep
          split at hstep
          · cases hstep
            exact .of_same rfl
          · cases hstep
            exact .of_same rfl
      | cons q rest =>
          simp only [Tree.State.advance, hpc] at hstep
          split at hstep
          next =>
            split at hstep
            next hzombie =>
              split at hstep
              next =>
                cases hstep
                by_cases hc : c = q
                · subst hc
                  refine .freed (Or.inr hzombie) ?_ ?_ ?_
                  all_goals
                    simp [Tree.State.reap, Tree.State.setProc, Tree.State.unlockWait,
                      Tree.State.setPc, Proc.free]
                · have hsame : (state.reap who q).proc c = state.proc c := Function.update_of_ne hc ..
                  exact .kept (by rw [hsame]) (by rw [hsame]) (by rw [hsame])
              next =>
                cases hstep
                exact .of_same rfl
            next =>
              cases hstep
              exact .of_same rfl
          next =>
            cases hstep
            exact .of_same rfl
  | waiting =>
      simp only [Tree.State.advance, hpc, Option.some.injEq] at hstep
      subst hstep
      exact .of_slot rfl rfl rfl Iff.rfl
  | waitReturned =>
      simp only [Tree.State.advance, hpc, Tree.State.lockWait, Option.ite_none_right_eq_some,
        Option.some.injEq] at hstep
      obtain ⟨-, rfl⟩ := hstep
      exact .of_same rfl

theorem step_change (hinv : Tree.Inv initproc state)
    (hstep : Tree.step initproc state action = some next) (c : Fin n) :
    Change state next action c := by
  cases action with
  | kfork who np =>
      simp only [Tree.step, Option.ite_none_right_eq_some, Option.some.injEq] at hstep
      obtain ⟨⟨-, -, hnp⟩, rfl⟩ := hstep
      by_cases hc : c = np
      · subst hc
        refine .allocated who rfl hnp ?_ ?_ ?_
        all_goals simp [Tree.State.setPc, Tree.State.setProc]
      · refine .kept ?_ ?_ ?_
        all_goals simp [Tree.State.setPc, Tree.State.setProc, Function.update_of_ne hc]
  | kforkFails who np =>
      simp only [Tree.step, Option.ite_none_right_eq_some, Option.some.injEq] at hstep
      obtain ⟨⟨-, -, hnp⟩, rfl⟩ := hstep
      by_cases hc : c = np
      · subst hc
        refine .freed (Or.inl hnp) ?_ ?_ ?_
        all_goals simp [Tree.State.setProc, Proc.free]
      · refine .kept ?_ ?_ ?_
        all_goals simp [Tree.State.setProc, Function.update_of_ne hc]
  | sleepPrepare who chan =>
      simp only [Tree.step, Option.ite_none_right_eq_some, Option.some.injEq] at hstep
      obtain ⟨-, rfl⟩ := hstep
      exact .of_slot rfl rfl rfl Iff.rfl
  | giveUp who | kexit who status =>
      simp only [Tree.step, Option.ite_none_right_eq_some, Option.some.injEq] at hstep
      obtain ⟨-, rfl⟩ := hstep
      exact .of_same rfl
  | kwait who =>
      simp only [Tree.step, Tree.State.lockWait, Option.ite_none_right_eq_some,
        Option.some.injEq] at hstep
      obtain ⟨-, -, rfl⟩ := hstep
      exact .of_same rfl
  | advance who copied =>
      simp only [Tree.step, Option.ite_none_right_eq_some] at hstep
      exact advance_change hinv hstep.1 hstep.2 c
  | wakeupOther q chan =>
      cases hstep
      exact .of_wakeup rfl
  | kkill q =>
      cases hstep
      by_cases hc : c = q
      · subst hc
        exact .killed rfl (Function.update_self ..)
      · refine .kept ?_ ?_ ?_
        all_goals simp [Tree.State.setProc, Function.update_of_ne hc]
  | dispatch q | yield q =>
      simp only [Tree.step, Option.ite_none_right_eq_some, Option.some.injEq] at hstep
      obtain ⟨hstate, rfl⟩ := hstep
      exact .of_slot rfl rfl rfl (by simp [hstate])

end Change

/-- The slot that `kfork` is filling. -/
def fills : Tree.Pc n → Option (Fin n)
  | .forking np | .parented np => some np
  | _ => none

section Fills

variable {initproc who np p : Fin n} {state next : Tree.State n Other} {action : Tree.Action n Other}

omit [DecidableEq Other] in
theorem fills_of_setPc {pc : Tree.Pc n} (hpc : next.pc = Function.update state.pc p pc)
    (hfills : fills pc = none ∨ fills pc = fills (state.pc p)) (hnp : fills (next.pc who) = some np) :
    fills (state.pc who) = some np := by
  rw [hpc] at hnp
  by_cases hwho : who = p
  · subst hwho
    rw [Function.update_self] at hnp
    rcases hfills with hnone | hsame
    · rw [hnone] at hnp
      cases hnp
    · rwa [← hsame]
  · rwa [Function.update_of_ne hwho] at hnp

theorem fills_step (hstep : Tree.step initproc state action = some next)
    (hnp : fills (next.pc who) = some np) :
    action = .kfork who np ∨ fills (state.pc who) = some np := by
  cases action with
  | kfork p c =>
      simp only [Tree.step, Option.ite_none_right_eq_some, Option.some.injEq] at hstep
      obtain ⟨-, rfl⟩ := hstep
      simp only [Tree.State.setPc, Tree.State.setProc] at hnp
      by_cases hwho : who = p
      · subst hwho
        rw [Function.update_self] at hnp
        exact Or.inl (by rw [Option.some.inj hnp])
      · rw [Function.update_of_ne hwho] at hnp
        exact Or.inr hnp
  | kforkFails p c | dispatch q | yield q =>
      simp only [Tree.step, Option.ite_none_right_eq_some, Option.some.injEq] at hstep
      obtain ⟨-, rfl⟩ := hstep
      exact Or.inr hnp
  | sleepPrepare p chan | giveUp p | kexit p status =>
      simp only [Tree.step, Option.ite_none_right_eq_some, Option.some.injEq] at hstep
      obtain ⟨-, rfl⟩ := hstep
      exact Or.inr (fills_of_setPc rfl (Or.inl rfl) hnp)
  | kwait p =>
      simp only [Tree.step, Tree.State.lockWait, Option.ite_none_right_eq_some,
        Option.some.injEq] at hstep
      obtain ⟨-, -, rfl⟩ := hstep
      exact Or.inr (fills_of_setPc rfl (Or.inl rfl) hnp)
  | wakeupOther q chan | kkill q =>
      cases hstep
      exact Or.inr hnp
  | advance p copied =>
      simp only [Tree.step, Option.ite_none_right_eq_some] at hstep
      obtain ⟨-, hstep⟩ := hstep
      refine Or.inr ?_
      cases hpc : state.pc p with
      | idle => simp [Tree.State.advance, hpc] at hstep
      | forking c =>
          simp only [Tree.State.advance, hpc, Option.ite_none_right_eq_some,
            Option.some.injEq] at hstep
          obtain ⟨-, rfl⟩ := hstep
          exact fills_of_setPc rfl (Or.inr (by rw [hpc]; rfl)) hnp
      | prepared | waitReleased =>
          simp only [Tree.State.advance, hpc, Option.some.injEq] at hstep
          subst hstep
          exact fills_of_setPc rfl (Or.inl (by split <;> rfl)) hnp
      | reparent status rest =>
          cases rest with
          | nil =>
              simp only [Tree.State.advance, hpc, Option.some.injEq] at hstep
              subst hstep
              exact fills_of_setPc rfl (Or.inl rfl) hnp
          | cons q rest =>
              simp only [Tree.State.advance, hpc] at hstep
              split at hstep
              · cases hstep
                exact fills_of_setPc rfl (Or.inl rfl) hnp
              · cases hstep
                exact fills_of_setPc rfl (Or.inl rfl) hnp
      | wakeInit status rest slots | wakeParent status parent slots =>
          cases slots with
          | nil =>
              simp only [Tree.State.advance, hpc, Option.some.injEq] at hstep
              subst hstep
              exact fills_of_setPc rfl (Or.inl rfl) hnp
          | cons q slots =>
              simp only [Tree.State.advance, hpc, Option.some.injEq] at hstep
              subst hstep
              exact fills_of_setPc rfl (Or.inl rfl) hnp
      | scanning rest havekids =>
          cases rest with
          | nil =>
              simp only [Tree.State.advance, hpc] at hstep
              split at hstep
              · cases hstep
                exact fills_of_setPc rfl (Or.inl rfl) hnp
              · cases hstep
                exact fills_of_setPc rfl (Or.inl rfl) hnp
          | cons q rest =>
              simp only [Tree.State.advance, hpc] at hstep
              split at hstep
              · split at hstep
                · split at hstep
                  · cases hstep
                    exact fills_of_setPc rfl (Or.inl rfl) hnp
                  · cases hstep
                    exact fills_of_setPc rfl (Or.inl rfl) hnp
                · cases hstep
                  exact fills_of_setPc rfl (Or.inl rfl) hnp
              · cases hstep
                exact fills_of_setPc rfl (Or.inl rfl) hnp
      | waitReturned =>
          simp only [Tree.State.advance, hpc, Tree.State.lockWait, Option.ite_none_right_eq_some,
            Option.some.injEq] at hstep
          obtain ⟨-, rfl⟩ := hstep
          exact fills_of_setPc rfl (Or.inl rfl) hnp
      | _ =>
          simp only [Tree.State.advance, hpc, Option.some.injEq] at hstep
          subst hstep
          exact fills_of_setPc rfl (Or.inl rfl) hnp

end Fills

/-! ### Every state -/

structure Inv (initproc : Fin n) (state : State n Other) : Prop where
  tree : Tree.Inv initproc state.tree
  ledger : Tree.Ledger state.tree
  pid : ∀ who np, fills (state.tree.pc who) = some np → state.pid who = pidOf state.tree.proc np
  used : ∀ q, InUse state.tree.proc q → 0 < (state.tree.proc q).pid
  free : ∀ q, (state.tree.proc q).state = .unused → (state.tree.proc q).pid = 0

omit [DecidableEq Other] in
/-- A slot that somebody fills is in use and has not run. -/
theorem used_of_fills {initproc who np : Fin n} {tree : Tree.State n Other}
    (h : Tree.Inv initproc tree) (hfills : fills (tree.pc who) = some np) :
    (tree.proc np).state = .used := by
  have hrole : tree.family.role who = Tree.roleOf (tree.pc who) := rfl
  cases hpc : tree.pc who with
  | forking c =>
      rw [hpc] at hfills hrole
      cases hfills
      exact Tree.kindOf_eq_used.mp (h.family.forking who np hrole).1
  | parented c =>
      rw [hpc] at hfills hrole
      cases hfills
      exact Tree.kindOf_eq_used.mp (h.family.parented who np hrole).1
  | _ =>
      rw [hpc] at hfills
      cases hfills

namespace Inv

variable {initproc who np q : Fin n} {state next : State n Other}

omit [DecidableEq Other] in
/-- Pids start at 1. -/
theorem nextpid_pos (h : Inv initproc state) : 0 < state.tree.nextpid := by
  have hlive : Tree.kindOf (state.tree.proc initproc).state = .live := h.tree.family.first
  have huse : (state.tree.proc initproc).state ≠ .unused := by
    intro hunused
    rw [hunused] at hlive
    cases hlive
  have hmem : (state.tree.proc initproc).pid ∈ state.tree.pids := by
    refine Multiset.mem_add.mpr (Or.inl ?_)
    refine Multiset.mem_sum.mpr ⟨initproc, Finset.mem_univ _, ?_⟩
    rw [Tree.State.pid, if_neg huse]
    exact Multiset.mem_singleton_self _
  exact Nat.zero_lt_of_lt (h.ledger.fresh _ hmem)

theorem start (initproc : Fin n) : Inv initproc (start initproc : State n Other) where
  tree := Tree.Inv.start initproc
  ledger := Tree.Ledger.start initproc
  pid who np hfills := by cases hfills
  used q huse := by
    by_cases hq : q = initproc
    · simp [Pids.start, Tree.start, hq]
    · exact absurd (by simp [Pids.start, Tree.start, hq, Proc.empty]) huse
  free q hunused := by
    by_cases hq : q = initproc
    · simp [Pids.start, Tree.start, hq] at hunused
    · simp [Pids.start, Tree.start, hq, Proc.empty]

theorem treeStep (h : Inv initproc state) {action : Tree.Action n Other} {tree : Tree.State n Other}
    {pid : Fin n → Int} (hstep : Tree.step initproc state.tree action = some tree)
    (hpid : pid = setPid tree.proc state.pid action)
    {scan : Fin n → Option (Int × List (Fin n))} : Inv initproc ⟨tree, pid, scan⟩ := by
  refine ⟨h.tree.step hstep, h.ledger.step h.tree hstep, fun p c hfills => ?_, fun q huse => ?_,
    fun q hunused => ?_⟩
  · subst hpid
    change setPid tree.proc state.pid action p = pidOf tree.proc c
    rcases fills_step hstep hfills with rfl | hbefore
    · exact Function.update_self ..
    · have hused := used_of_fills h.tree hbefore
      have hsame : (tree.proc c).pid = (state.tree.proc c).pid := by
        cases step_change h.tree hstep c with
        | freed hstate =>
            rw [hused] at hstate
            rcases hstate with hstate | hstate <;> cases hstate
        | allocated who haction hstate =>
            rw [hused] at hstate
            cases hstate
        | killed _ hproc =>
            rw [hproc]
            rfl
        | kept hpid => exact hpid
      have hvar : setPid tree.proc state.pid action p = state.pid p := by
        cases action with
        | kfork who np =>
            have hne : p ≠ who := by
              rintro rfl
              simp only [Tree.step, Option.ite_none_right_eq_some] at hstep
              rw [hstep.1.2.1] at hbefore
              cases hbefore
            exact Function.update_of_ne hne ..
        | _ => rfl
      rw [hvar, h.pid p c hbefore, pidOf, pidOf, hsame]
  · cases step_change h.tree hstep q with
    | freed _ _ _ hunused => exact absurd hunused huse
    | allocated who haction hstate hafter hpid =>
        rw [hpid]
        exact h.nextpid_pos
    | killed _ hproc =>
        change (tree.proc q).state ≠ _ at huse
        rw [hproc] at huse ⊢
        exact h.used q fun hunused => huse (unused_kill.mpr hunused)
    | kept hpid hkilled hunused =>
        rw [hpid]
        exact h.used q fun hstate => huse (hunused.mpr hstate)
  · cases step_change h.tree hstep q with
    | freed _ hpid => exact hpid
    | allocated who haction hstate hafter =>
        rw [hafter] at hunused
        cases hunused
    | killed _ hproc =>
        change (tree.proc q).state = _ at hunused
        rw [hproc] at hunused ⊢
        exact h.free q (unused_kill.mp hunused)
    | kept hpid hkilled hsame =>
        rw [hpid]
        exact h.free q (hsame.mp hunused)

theorem step (h : Inv initproc state) {action : Action n Other}
    (hstep : Pids.step initproc state action = some next) : Inv initproc next := by
  cases action with
  | tree action =>
      simp only [Pids.step, Option.ite_none_right_eq_some, Option.map_eq_some_iff] at hstep
      obtain ⟨-, tree, hstep, rfl⟩ := hstep
      exact h.treeStep hstep rfl
  | kkill who pid =>
      simp only [Pids.step, Option.ite_none_right_eq_some, Option.some.injEq] at hstep
      obtain ⟨-, rfl⟩ := hstep
      exact { h with }
  | visit who =>
      simp only [Pids.step, Option.ite_none_right_eq_some] at hstep
      obtain ⟨-, hstep⟩ := hstep
      split at hstep
      · cases hstep
      · cases hstep
        exact { h with }
      · split at hstep
        · next q rest _ _ =>
            cases hstep
            exact h.treeStep (show Tree.step initproc state.tree (.kkill q) = _ from rfl) rfl
        · cases hstep
          exact { h with }

end Inv

theorem inv_of_run {initproc : Fin n} {state : State n Other} {actions : List (Action n Other)}
    (hrun : Transition.run (step initproc) (start initproc) actions = some state) :
    Inv initproc state :=
  Transition.invariant_run (fun _ _ _ h hstep => h.step hstep) (Inv.start initproc) hrun

end Steps

/-! ### Pids -/

theorem toInt_of_lt {count : Nat} (h : count < 2 ^ 31) : toInt count = count := by
  unfold toInt
  rw [Int.bmod_def]
  split <;> omega

theorem toInt_max : toInt (2 ^ 31) = -2 ^ 31 := by
  unfold toInt
  decide

section Pids

variable {n : Nat} {Other : Type}

def Quiet (state : State n Other) : Prop :=
  ∀ q, state.tree.pc q = .idle ∧ state.scan q = none

/-- How often `allocpid` has been called. The first call was that of `userinit`. -/
def State.allocs (state : State n Other) : Nat := state.tree.nextpid - 1

/-- The pids of the slots in use are positive, and no two are the same. -/
structure Identifies (proc : Table n Other) : Prop where
  distinct : ∀ p q, InUse proc p → InUse proc q → pidOf proc p = pidOf proc q → p = q
  positive : ∀ q, InUse proc q → 0 < pidOf proc q

/-- What `kfork` returns, when it is about to, is the pid of the child. -/
def Returns (state : State n Other) : Prop :=
  ∀ who np, state.tree.pc who = .parented np →
    state.pid who = pidOf state.tree.proc np ∧ state.pid who ≠ 0 ∧ state.pid who ≠ -1

variable {initproc p q : Fin n} {state : State n Other}

theorem pid_inj {tree : Tree.State n Other} (h : Tree.Ledger tree) (hp : InUse tree.proc p)
    (hq : InUse tree.proc q) (heq : (tree.proc p).pid = (tree.proc q).pid) : p = q := by
  by_contra hne
  have hle : tree.pid p + tree.pid q ≤ tree.pids := by
    refine le_trans ?_ (Multiset.le_add_right _ _)
    rw [← Finset.add_sum_erase _ _ (Finset.mem_univ p)]
    refine add_le_add_right (Finset.single_le_sum (fun _ _ => Multiset.zero_le _) ?_) _
    exact Finset.mem_erase.mpr ⟨fun hqp => hne hqp.symm, Finset.mem_univ q⟩
  have hnodup := Multiset.nodup_of_le hle h.pids
  rw [Tree.State.pid, if_neg hp, Tree.State.pid, if_neg hq, heq] at hnodup
  rw [Multiset.singleton_add] at hnodup
  exact (Multiset.nodup_cons.mp hnodup).1 (Multiset.mem_singleton_self _)

theorem Inv.pidOf_eq (h : Inv initproc state) (hallocs : state.allocs < 2 ^ 31)
    (hq : InUse state.tree.proc q) :
    pidOf state.tree.proc q = (state.tree.proc q).pid ∧ 0 < (state.tree.proc q).pid ∧
      (state.tree.proc q).pid < 2 ^ 31 := by
  have hmem : (state.tree.proc q).pid ∈ state.tree.pids := by
    refine Multiset.mem_add.mpr (Or.inl (Multiset.mem_sum.mpr ⟨q, Finset.mem_univ _, ?_⟩))
    rw [Tree.State.pid, if_neg hq]
    exact Multiset.mem_singleton_self _
  have hlt := h.ledger.fresh _ hmem
  have hpos := h.used q hq
  have hsmall : (state.tree.proc q).pid < 2 ^ 31 := by
    unfold State.allocs at hallocs
    omega
  exact ⟨toInt_of_lt hsmall, hpos, hsmall⟩

theorem Inv.identifies (h : Inv initproc state) (hallocs : state.allocs < 2 ^ 31) :
    Identifies state.tree.proc where
  distinct p q hp hq heq := by
    rw [(h.pidOf_eq hallocs hp).1, (h.pidOf_eq hallocs hq).1] at heq
    exact pid_inj h.ledger hp hq (Int.natCast_inj.mp heq)
  positive q hq := by
    obtain ⟨heq, hpos, -⟩ := h.pidOf_eq hallocs hq
    rw [heq]
    exact Int.natCast_pos.mpr hpos

theorem Inv.returns (h : Inv initproc state) (hallocs : state.allocs < 2 ^ 31) : Returns state := by
  intro who np hpc
  have hfills : fills (state.tree.pc who) = some np := by
    rw [hpc]
    rfl
  have huse : InUse state.tree.proc np := by
    intro hunused
    rw [used_of_fills h.tree hfills] at hunused
    cases hunused
  have hpos := (h.identifies hallocs).positive np huse
  have heq := h.pid who np hfills
  exact ⟨heq, by omega, by omega⟩

/-! #### When the counter passes its maximum -/

def first : Fin (n + 2) := ⟨0, Nat.zero_lt_succ _⟩

def second : Fin (n + 2) := ⟨1, Nat.succ_lt_succ (Nat.zero_lt_succ _)⟩

theorem first_ne_second : (first : Fin (n + 2)) ≠ second := by
  intro heq
  exact absurd (Fin.mk.inj heq) Nat.zero_ne_one

variable [DecidableEq Other]

/-- The first process runs and the other slots are free, after so many more calls of `allocpid`. -/
def forked (n count : Nat) (Other : Type) : State (n + 2) Other where
  tree := {
    proc q := if q = first then { Proc.empty with state := .running, pid := 1 } else .empty
    pc := fun _ => .idle
    waitLock := none
    nextpid := count + 2
    exits := []
    reaped := [] }
  pid := fun _ => 0
  scan := fun _ => none

omit [DecidableEq Other] in
theorem proc_first (count : Nat) : (forked n count Other).tree.proc first =
    { Proc.empty with state := .running, pid := 1 } := by
  simp [forked]

omit [DecidableEq Other] in
theorem proc_second (count : Nat) : (forked n count Other).tree.proc second = .empty := by
  simp [forked, first_ne_second.symm]

theorem step_fails (count : Nat) :
    step first (forked n count Other) (.tree (.kforkFails first second)) =
      some (forked n (count + 1) Other) := by
  have hguard : ((forked n count Other).tree.proc first).state = .running ∧
      (forked n count Other).tree.pc first = .idle ∧
        ((forked n count Other).tree.proc second).state = .unused := by
    rw [proc_first, proc_second]
    exact ⟨rfl, rfl, rfl⟩
  have hfree : Function.update (forked n count Other).tree.proc second
      ((forked n count Other).tree.proc second).free = (forked n count Other).tree.proc := by
    rw [proc_second]
    exact Function.update_eq_self_iff.mpr (proc_second count).symm
  simp only [step, Allowed, Tree.step, if_pos hguard, Tree.State.setProc, hfree]
  rfl

theorem run_fails (count more : Nat) :
    Transition.run (step first) (forked n count Other)
      (List.replicate more (.tree (.kforkFails first second))) =
        some (forked n (count + more) Other) := by
  induction more generalizing count with
  | zero => rfl
  | succ more ih =>
      rw [List.replicate_succ, Transition.run, step_fails, Option.bind_some, ih, Nat.add_assoc,
        Nat.add_comm 1]

def forkLate (count : Nat) : List (Action (n + 2) Other) :=
  .tree (.dispatch first) :: List.replicate count (.tree (.kforkFails first second)) ++
    [.tree (.kfork first second), .tree (.advance first true), .tree (.advance first true)]

theorem run_forkLate (count : Nat) :
    ∃ state : State (n + 2) Other,
      Transition.run (step first) (start first) (forkLate count) = some state ∧
        state.allocs = count + 2 ∧ Quiet state ∧ InUse state.tree.proc second ∧
          (state.tree.proc second).pid = count + 2 := by
  have hboot : step first (start first : State (n + 2) Other) (.tree (.dispatch first)) =
      some (forked n 0 Other) := by
    have hrunnable : ((start first : State (n + 2) Other).tree.proc first).state = .runnable := by
      simp [start, Tree.start]
    have hproc : Function.update (start first : State (n + 2) Other).tree.proc first
        { (start first : State (n + 2) Other).tree.proc first with state := .running } =
          (forked n 0 Other).tree.proc := by
      funext q
      by_cases hq : q = first
      · subst hq
        simp [start, Tree.start, forked]
      · simp [start, Tree.start, forked, hq]
    simp only [step, Allowed, Tree.step, if_pos hrunnable, Tree.State.setProc, hproc]
    rfl
  have hguard : ((forked n count Other).tree.proc first).state = .running ∧
      (forked n count Other).tree.pc first = .idle ∧
        ((forked n count Other).tree.proc second).state = .unused := by
    rw [proc_first, proc_second]
    exact ⟨rfl, rfl, rfl⟩
  have hne : (first : Fin (n + 2)) ≠ second := first_ne_second
  have hrunning : (forked n count Other).tree.proc first = _ := proc_first count
  rw [forkLate, List.cons_append, Transition.run, hboot, Option.bind_some, Transition.run_append,
    run_fails, Nat.zero_add, Option.bind_some]
  refine ⟨?last, Transition.run_cons.mpr ⟨?forking, ?kfork, Transition.run_cons.mpr ⟨?parented,
    ?adopt, Transition.run_cons.mpr ⟨?last, ?begin, rfl⟩⟩⟩, ?after⟩
  case kfork =>
    simp only [step, Allowed, Tree.step, if_pos hguard]
    rfl
  case adopt =>
    simp [step, Allowed, Tree.step, Tree.State.advance, Tree.State.setPc, Tree.State.setProc,
      forked, hne]
    rfl
  case begin =>
    simp [step, Allowed, Tree.step, Tree.State.advance, Tree.State.setPc, Tree.State.setProc, hne]
    rfl
  case after =>
    refine ⟨rfl, fun q => ⟨?_, rfl⟩, ?_, ?_⟩
    · simp
    · simp [InUse]
    · simp

theorem last_call : 2 ^ 31 - 2 + 2 = 2 ^ 31 := Nat.sub_add_cancel (by decide)

/-- **Pids identify processes**, in all runs that call `allocpid` so many times at most, exactly where
`nextpid` cannot have passed its maximum. -/
theorem pids_iff (n count : Nat) :
    (∀ (actions : List (Action (n + 2) Other)) state,
      Transition.run (step first) (start first) actions = some state → state.allocs ≤ count →
        (Quiet state → Identifies state.tree.proc) ∧ Returns state) ↔ count < 2 ^ 31 := by
  constructor
  · intro hall
    by_contra hcount
    obtain ⟨state, hrun, hallocs, hquiet, huse, hpid⟩ :=
      @run_forkLate n Other _ (2 ^ 31 - 2)
    rw [last_call] at hpid
    have hpositive := ((hall _ _ hrun (by omega)).1 hquiet).positive second huse
    rw [pidOf, hpid, toInt_max] at hpositive
    omega
  · intro hcount actions state hrun hallocs
    have hinv := inv_of_run hrun
    have hlt : state.allocs < 2 ^ 31 := Nat.lt_of_le_of_lt hallocs hcount
    exact ⟨fun _ => hinv.identifies hlt, hinv.returns hlt⟩

/-- The child with a negative pid, in a table of 64 slots. -/
theorem not_identifies_forkLate :
    ∃ (actions : List (Action 64 Unit)) (state : State 64 Unit),
      Transition.run (step (@first 62)) (start first) actions = some state ∧ Quiet state ∧
        pidOf state.tree.proc second = -2 ^ 31 ∧ ¬Identifies state.tree.proc := by
  obtain ⟨state, hrun, -, hquiet, huse, hpid⟩ := @run_forkLate 62 Unit _ (2 ^ 31 - 2)
  have hnegative : pidOf state.tree.proc second = -2 ^ 31 := by
    rw [pidOf, hpid, last_call]
    exact toInt_max
  refine ⟨_, state, hrun, hquiet, hnegative, fun hidentifies => ?_⟩
  have hpositive := hidentifies.positive second huse
  rw [hnegative] at hpositive
  exact absurd hpositive (by decide)

end Pids

end Xv6.Pids
