import Mathlib.Data.List.FinRange
import Xv6.Proc.Pids

/-!
# Whom `kkill` kills

A free slot has pid 0, and `kkill` does not look at the state. With a pid of 0 it marks a free slot,
and the process that is created there later is born killed.
-/

namespace Xv6.Pids

section Kills

variable {n : Nat} {Other : Type}

/-- `kkill` succeeds where a process has the pid, and then marks one that has it and nothing else. -/
structure KillsOne (pid : Int) (proc : Table n Other) : Prop where
  result : (kkill pid proc).1 = 0 ↔ ∃ q, InUse proc q ∧ pidOf proc q = pid
  marks : (kkill pid proc).1 = 0 → ∃ q, InUse proc q ∧ pidOf proc q = pid ∧
    (kkill pid proc).2 = Function.update proc q (proc q).kill
  nothing : (kkill pid proc).1 ≠ 0 → (kkill pid proc).2 = proc

def Shielded (proc : Table n Other) : Prop :=
  ∀ q, (proc q).state = .unused → ∃ r, r < q ∧ InUse proc r ∧ pidOf proc r = 0

/-- The pid that `kkill` looks for, and the slot it looks at next. -/
def State.look (state : State n Other) (who : Fin n) : Option (Int × Fin n) :=
  (state.scan who).bind fun call => call.2.head?.map fun q => (call.1, q)

/-- A section of `kkill` does not find the pid in a free slot. -/
def Aimed (state : State n Other) : Action n Other → Prop
  | .visit who => ∀ look ∈ state.look who,
      pidOf state.tree.proc look.2 = look.1 → InUse state.tree.proc look.2
  | _ => True

instance (proc : Table n Other) (q : Fin n) : Decidable (InUse proc q) :=
  inferInstanceAs (Decidable (_ ≠ _))

instance (state : State n Other) : (action : Action n Other) → Decidable (Aimed state action)
  | .visit who => inferInstanceAs (Decidable (∀ look ∈ state.look who,
      pidOf state.tree.proc look.2 = look.1 → InUse state.tree.proc look.2))
  | .tree _ => isTrue trivial
  | .kkill _ _ => isTrue trivial

/-! ### One call -/

theorem kkillFrom_cases {pid : Int} {proc : Table n Other} {slots : List (Fin n)}
    (hsorted : slots.Pairwise (· < ·)) :
    (kkillFrom pid slots proc = (-1, proc) ∧ ∀ q ∈ slots, pidOf proc q ≠ pid) ∨
      ∃ q ∈ slots, pidOf proc q = pid ∧
        kkillFrom pid slots proc = (0, Function.update proc q (proc q).kill) ∧
          ∀ r ∈ slots, r < q → pidOf proc r ≠ pid := by
  induction slots with
  | nil => exact Or.inl ⟨rfl, fun q hq => absurd hq List.not_mem_nil⟩
  | cons a rest ih =>
      obtain ⟨hbefore, hrest⟩ := List.pairwise_cons.mp hsorted
      rw [kkillFrom]
      by_cases ha : pidOf proc a = pid
      · rw [if_pos ha]
        refine Or.inr ⟨a, List.mem_cons_self, ha, rfl, fun r hr hlt => ?_⟩
        rcases List.mem_cons.mp hr with rfl | hr
        · exact absurd hlt (lt_irrefl _)
        · exact absurd hlt (hbefore r hr).asymm
      · rw [if_neg ha]
        rcases ih hrest with ⟨hnone, hall⟩ | ⟨q, hq, hpid, hresult, hall⟩
        · exact Or.inl ⟨hnone, List.forall_mem_cons.mpr ⟨ha, hall⟩⟩
        · refine Or.inr ⟨q, List.mem_cons_of_mem _ hq, hpid, hresult, ?_⟩
          exact List.forall_mem_cons.mpr ⟨fun _ => ha, hall⟩

theorem kkill_cases (pid : Int) (proc : Table n Other) :
    (kkill pid proc = (-1, proc) ∧ ∀ q, pidOf proc q ≠ pid) ∨
      ∃ q, pidOf proc q = pid ∧ kkill pid proc = (0, Function.update proc q (proc q).kill) ∧
        ∀ r, r < q → pidOf proc r ≠ pid := by
  rcases @kkillFrom_cases n Other pid proc _ (List.pairwise_lt_finRange n) with
    ⟨hnone, hall⟩ | ⟨q, -, hpid, hresult, hall⟩
  · exact Or.inl ⟨hnone, fun q => hall q (List.mem_finRange q)⟩
  · exact Or.inr ⟨q, hpid, hresult, fun r => hall r (List.mem_finRange r)⟩

theorem killsOne_iff {pid : Int} {proc : Table n Other}
    (hfree : ∀ q, (proc q).state = .unused → pidOf proc q = 0)
    (hclean : ∀ q, (proc q).state = .unused → (proc q).killed = false) :
    KillsOne pid proc ↔ (pid = 0 → Shielded proc) := by
  rcases kkill_cases pid proc with ⟨hresult, hnone⟩ | ⟨q, hpid, hresult, hbefore⟩
  · refine iff_of_true ⟨?_, ?_, ?_⟩ ?_
    · rw [hresult]
      refine iff_of_false (show (-1 : Int) ≠ 0 by decide) ?_
      rintro ⟨q, -, hq⟩
      exact hnone q hq
    · rw [hresult]
      exact fun hzero => absurd hzero (show (-1 : Int) ≠ 0 by decide)
    · rw [hresult]
      exact fun _ => rfl
    · rintro rfl q hunused
      exact absurd (hfree q hunused) (hnone q)
  · constructor
    · rintro hkills rfl c hunused
      have huse : InUse proc q := by
        intro hq
        -- the mark is in the free slot, and not in a process
        obtain ⟨r, hr, -, hmarks⟩ := hkills.marks (by rw [hresult])
        have hne : q ≠ r := by
          rintro rfl
          exact hr hq
        rw [hresult] at hmarks
        have hproc : Function.update proc q (proc q).kill q = Function.update proc r (proc r).kill q :=
          congrFun hmarks q
        rw [Function.update_self, Function.update_of_ne hne] at hproc
        have hkilled : (proc q).killed = true := by
          rw [← hproc]
          rfl
        rw [hclean q hq] at hkilled
        cases hkilled
      refine ⟨q, ?_, huse, hpid⟩
      rcases lt_trichotomy q c with hlt | rfl | hlt
      · exact hlt
      · exact absurd hunused huse
      · exact absurd (hfree c hunused) (hbefore c hlt)
    · intro hshielded
      have huse : InUse proc q := by
        intro hq
        have hzero : pid = 0 := hpid.symm.trans (hfree q hq)
        obtain ⟨r, hlt, -, hr⟩ := hshielded hzero q hq
        exact hbefore r hlt (hr.trans hzero.symm)
      refine ⟨?_, ?_, ?_⟩
      · rw [hresult]
        exact iff_of_true rfl ⟨q, huse, hpid⟩
      · rw [hresult]
        exact fun _ => ⟨q, huse, hpid, rfl⟩
      · rw [hresult]
        exact fun hne => absurd rfl hne

/-! ### Every run -/

def Clean (proc : Table n Other) : Prop := ∀ q, (proc q).state = .unused → (proc q).killed = false

theorem toInt_zero : toInt 0 = 0 := toInt_of_lt (by decide)

variable [DecidableEq Other] {initproc : Fin n} {state next : State n Other}
  {actions : List (Action n Other)}

omit [DecidableEq Other] in
theorem Inv.pidOf_unused (h : Inv initproc state) (q : Fin n)
    (hunused : (state.tree.proc q).state = .unused) : pidOf state.tree.proc q = 0 := by
  rw [pidOf, h.free q hunused, toInt_zero]

omit [DecidableEq Other] in
/-- A section of `kkill` that looks for another pid than 0 does find a process. -/
theorem Inv.inUse_of_ne_zero (h : Inv initproc state) {pid : Int} {q : Fin n} (hpid : pid ≠ 0)
    (hq : pidOf state.tree.proc q = pid) : InUse state.tree.proc q := by
  intro hunused
  exact hpid (hq.symm.trans (h.pidOf_unused q hunused))

theorem Clean.step (hclean : Clean state.tree.proc) (hinv : Inv initproc state)
    {action : Action n Other} (haimed : Aimed state action)
    (hstep : Pids.step initproc state action = some next) : Clean next.tree.proc := by
  cases action with
  | tree action =>
      simp only [Pids.step, Option.ite_none_right_eq_some, Option.map_eq_some_iff] at hstep
      obtain ⟨hallowed, tree, hstep, rfl⟩ := hstep
      intro q hunused
      cases step_change hinv.tree hstep q with
      | freed _ _ hkilled => exact hkilled
      | allocated who _ _ hafter =>
          rw [hafter] at hunused
          cases hunused
      | killed haction =>
          subst haction
          cases hallowed
      | kept _ hkilled hsame => exact hkilled.trans (hclean q (hsame.mp hunused))
  | kkill who pid =>
      simp only [Pids.step, Option.ite_none_right_eq_some, Option.some.injEq] at hstep
      obtain ⟨-, rfl⟩ := hstep
      exact hclean
  | visit who =>
      simp only [Pids.step, Option.ite_none_right_eq_some] at hstep
      obtain ⟨-, hstep⟩ := hstep
      split at hstep
      · cases hstep
      · cases hstep
        exact hclean
      · next pid q rest hscan =>
          split at hstep
          · next hpid =>
              cases hstep
              have huse := haimed (pid, q) (by simp [State.look, hscan]) hpid
              intro c hunused
              simp only [Tree.State.setProc] at hunused ⊢
              by_cases hc : c = q
              · subst hc
                rw [Function.update_self, unused_kill] at hunused
                exact absurd hunused huse
              · rw [Function.update_of_ne hc] at hunused ⊢
                exact hclean c hunused
          · cases hstep
            exact hclean

omit [DecidableEq Other] in
theorem clean_start (initproc : Fin n) : Clean (start initproc : State n Other).tree.proc := by
  intro q _
  by_cases hq : q = initproc
  · simp [start, Tree.start, hq, Proc.empty]
  · simp [start, Tree.start, hq, Proc.empty]

/-- **A kill hits one process.** In runs in which `kkill` has not found its pid in a free slot, which
it can only if the pid is 0, a call kills exactly the process with its pid unless the pid is 0 and a
free slot comes first, and processes are created alive. -/
theorem kills_of_run (halong : Transition.Along (step initproc) Aimed (start initproc) actions)
    (hrun : Transition.run (step initproc) (start initproc) actions = some state) :
    (∀ pid, KillsOne pid state.tree.proc ↔ (pid = 0 → Shielded state.tree.proc)) ∧
      (∀ who, ∀ look ∈ state.look who, look.1 ≠ 0 →
        pidOf state.tree.proc look.2 = look.1 → InUse state.tree.proc look.2) ∧
      ∀ who np next, step initproc state (.tree (.kfork who np)) = some next →
        (next.tree.proc np).killed = false := by
  have hstep : ∀ (state : State n Other) action next,
      Inv initproc state ∧ Clean state.tree.proc → Aimed state action →
        step initproc state action = some next → Inv initproc next ∧ Clean next.tree.proc :=
    fun _ _ _ h haimed hstep => ⟨h.1.step hstep, h.2.step h.1 haimed hstep⟩
  obtain ⟨hinv, hclean⟩ := Transition.invariant_along hstep
    ⟨Inv.start initproc, clean_start initproc⟩ halong hrun
  refine ⟨fun pid => killsOne_iff hinv.pidOf_unused hclean,
    fun who look _ hne => hinv.inUse_of_ne_zero hne, fun who np next hfork => ?_⟩
  simp only [step, Option.ite_none_right_eq_some, Option.map_eq_some_iff] at hfork
  obtain ⟨-, tree, hfork, rfl⟩ := hfork
  cases step_change hinv.tree hfork np with
  | freed hbefore _ hkilled => exact hkilled
  | allocated _ _ hbefore _ _ hkilled => exact hkilled.trans (hclean np hbefore)
  | killed haction => cases haction
  | kept _ hkilled hsame =>
      simp only [Tree.step, Option.ite_none_right_eq_some] at hfork
      exact hkilled.trans (hclean np hfork.1.2.2)

end Kills

/-- The first process forks and kills the child. -/
def forkAndKill : List (Action 2 Unit) :=
  [.tree (.dispatch first), .tree (.kfork first second), .tree (.advance first true),
    .tree (.advance first true), .kkill first 2, .visit first, .visit first]

theorem kills_of_run_forkAndKill :
    ∃ state : State 2 Unit,
      Transition.run (step (@first 0)) (start first) forkAndKill = some state ∧
        (state.tree.proc second).killed = true ∧ KillsOne 2 state.tree.proc := by
  have halong : Transition.Along (step (@first 0)) Aimed (start first) forkAndKill := by
    decide +kernel
  have hkilled : ∃ state ∈ Transition.run (step (@first 0)) (start first) forkAndKill,
      (state.tree.proc second).killed = true := by
    decide +kernel
  obtain ⟨state, hrun, hkilled⟩ := hkilled
  exact ⟨state, hrun, hkilled, ((kills_of_run halong hrun).1 2).mpr fun hzero => by cases hzero⟩

/-- The first process calls `kkill(0)` and then `kfork`, in a table of 64 slots. -/
def killAndFork : List (Action 64 Unit) :=
  [.tree (.dispatch first), .kkill first 0, .visit first, .visit first,
    .tree (.kfork first second)]

/-- The call marks the free slot, and the child is born killed. -/
theorem not_killsOne_killAndFork :
    ¬KillsOne 0 (start first : State 64 Unit).tree.proc ∧
      ∃ state : State 64 Unit,
        Transition.run (step (@first 62)) (start first) killAndFork = some state ∧
          (state.tree.proc second).state = .used ∧ (state.tree.proc second).killed = true := by
  constructor
  · have hinv : Inv first (start (@first 62) : State 64 Unit) := Inv.start first
    rw [killsOne_iff hinv.pidOf_unused (clean_start first)]
    intro hshielded
    obtain ⟨r, hlt, -, hpid⟩ := hshielded rfl second
      (by simp [start, Tree.start, first_ne_second.symm, Proc.empty])
    have hr : r = first := Fin.ext (Nat.lt_one_iff.mp hlt)
    have hone : ((start (@first 62) : State 64 Unit).tree.proc first).pid = 1 := by
      simp [start, Tree.start]
    rw [hr, pidOf, hone, toInt_of_lt (by decide)] at hpid
    exact absurd hpid (by decide)
  · have hmarked : ∃ state ∈ Transition.run (step (@first 62)) (start first) killAndFork,
        (state.tree.proc second).state = .used ∧ (state.tree.proc second).killed = true := by
      decide +kernel
    exact hmarked

end Xv6.Pids
