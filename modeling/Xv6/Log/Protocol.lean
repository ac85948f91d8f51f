import Mathlib.Algebra.BigOperators.Ring.Finset
import Xv6.Lib.Tally
import Xv6.Lib.Transition
import Xv6.Log.Log

/-!
# The transaction protocol of the log

`begin_op`, `log_write`, `end_op` and `sys_sync` as their processes interleave: a step is a section
under `log.lock`, or the part of `commit` that runs without it. A process that calls `sleep` on the
log is asleep from the section that decided so until a `wakeup(&log)`, or until somebody kills it.
-/

namespace Xv6.LogProtocol

/-- Where a process is. The flag of a loop says that the process sleeps in it. -/
inductive Phase where
  | outside
  /-- In the loop of `begin_op`. -/
  | beginning (asleep : Bool)
  /-- Between `begin_op` and `end_op`, having added some blocks to the log. -/
  | inside (added : Nat)
  /-- In `end_op`, about to run `commit`. -/
  | committing
  /-- In `end_op`, back from `commit`. -/
  | committed
  /-- In the loop of `sys_sync`, until `ncommit` reaches the target. -/
  | syncing (target : Nat) (asleep : Bool)
  deriving DecidableEq

namespace Phase

def Asleep : Phase → Prop
  | .beginning asleep | .syncing _ asleep => asleep = true
  | _ => False

def woken : Phase → Phase
  | .beginning _ => .beginning false
  | .syncing target _ => .syncing target false
  | phase => phase

/-- Whether an operation is in progress, as a number. -/
def operations : Phase → Nat
  | .inside _ => 1
  | _ => 0

/-- Whether the process is inside `commit`, as a number. -/
def commits : Phase → Nat
  | .committing | .committed => 1
  | _ => 0

/-- What is left of the budget of the operation in progress. -/
def left : Phase → Nat
  | .inside added => maxOpBlocks - added
  | _ => 0

@[simp]
theorem operations_woken (phase : Phase) : phase.woken.operations = phase.operations := by
  cases phase <;> rfl

@[simp]
theorem commits_woken (phase : Phase) : phase.woken.commits = phase.commits := by
  cases phase <;> rfl

@[simp]
theorem left_woken (phase : Phase) : phase.woken.left = phase.left := by
  cases phase <;> rfl

theorem not_asleep_woken (phase : Phase) : ¬phase.woken.Asleep := by
  cases phase <;> simp [woken, Asleep]

end Phase

structure State (ι : Type) where
  log : Log
  phase : ι → Phase
  panicked : Option Log.Panic

inductive Action (ι : Type) where
  | beginOp (who : ι)
  | logWrite (who : ι) (blockno : Nat)
  | endOp (who : ι)
  | commit (who : ι)
  | finishCommit (who : ι)
  | sysSync (who : ι)
  | kill (who : ι)
  deriving DecidableEq

/-- After `initlog`: recovery has left the log empty. -/
def start {ι : Type} (sb : Superblock) : State ι where
  log := Log.init sb
  phase := fun _ => .outside
  panicked := none

namespace State

variable {ι : Type}

/-- `wakeup(&log)`. -/
def wakeup (state : State ι) : State ι :=
  { state with phase := fun who => (state.phase who).woken }

variable [DecidableEq ι]

def setPhase (state : State ι) (who : ι) (phase : Phase) : State ι :=
  { state with phase := Function.update state.phase who phase }

/-- One pass of the loop of `begin_op`. -/
def beginOp (state : State ι) (who : ι) : State ι :=
  match state.log.beginOp with
  | none => state.setPhase who (.beginning true)
  | some log => { state.setPhase who (.inside 0) with log }

def logWrite (state : State ι) (who : ι) (added blockno : Nat) : State ι :=
  match state.log.logWrite blockno with
  | .error panic => { state with panicked := some panic }
  | .ok (log, fresh) =>
      { state.setPhase who (.inside (if fresh then added + 1 else added)) with log }

/-- The first section of `end_op`. -/
def endOp (state : State ι) (who : ι) : State ι :=
  match state.log.endOp with
  | .error panic => { state with panicked := some panic }
  | .ok (log, true) => { state.setPhase who .committing with log }
  -- begin_op() may be waiting for log space.
  | .ok (log, false) => { state.wakeup.setPhase who .outside with log }

/-- What `commit` does to the memory the processes share. -/
def commit (state : State ι) (who : ι) : State ι :=
  { state.setPhase who .committed with log := state.log.commit }

/-- The second section of `end_op`. -/
def finishCommit (state : State ι) (who : ι) : State ι :=
  { state.wakeup.setPhase who .outside with log := state.log.finishCommit }

/-- One pass of the loop of `sys_sync`. -/
def syncLoop (state : State ι) (who : ι) (target : Nat) : State ι :=
  if state.log.ncommit < target then state.setPhase who (.syncing target true)
  else state.setPhase who .outside

/-- `sys_sync`, up to where it first sleeps or returns. -/
def sysSync (state : State ι) (who : ι) : State ι :=
  match state.log.syncTarget with
  | none => state
  | some target => state.syncLoop who target

end State

theorem not_asleep_wakeup {ι : Type} [DecidableEq ι] {state : State ι} {who : ι} {log : Log}
    {phase : Phase} (hphase : ¬phase.Asleep) (other : ι) :
    ¬(({ state.wakeup.setPhase who phase with log } : State ι).phase other).Asleep := by
  by_cases hother : other = who
  · subst hother
    simpa [State.setPhase] using hphase
  · simpa [State.setPhase, State.wakeup, hother] using Phase.not_asleep_woken _

section Steps

variable {ι : Type} [DecidableEq ι]

/-- One section of one process. A sleeping process takes none, and nothing runs after a panic. -/
def step (state : State ι) (action : Action ι) : Option (State ι) :=
  if state.panicked.isSome then
    none
  else
    match action with
    | .beginOp who =>
        match state.phase who with
        | .outside | .beginning false => some (state.beginOp who)
        | _ => none
    | .logWrite who blockno =>
        match state.phase who with
        | .inside added => some (state.logWrite who added blockno)
        | _ => none
    | .endOp who =>
        match state.phase who with
        | .inside _ => some (state.endOp who)
        | _ => none
    | .commit who =>
        match state.phase who with
        | .committing => some (state.commit who)
        | _ => none
    | .finishCommit who =>
        match state.phase who with
        | .committed => some (state.finishCommit who)
        | _ => none
    | .sysSync who =>
        match state.phase who with
        | .outside => some (state.sysSync who)
        | .syncing target false => some (state.syncLoop who target)
        | _ => none
    | .kill who => some (state.setPhase who (state.phase who).woken)

theorem step_cases {state next : State ι} {action : Action ι}
    (hstep : step state action = some next) :
    match action with
    | .beginOp who => (state.phase who = .outside ∨ state.phase who = .beginning false) ∧
        next = state.beginOp who
    | .logWrite who blockno => ∃ added, state.phase who = .inside added ∧
        next = state.logWrite who added blockno
    | .endOp who => (∃ added, state.phase who = .inside added) ∧ next = state.endOp who
    | .commit who => state.phase who = .committing ∧ next = state.commit who
    | .finishCommit who => state.phase who = .committed ∧ next = state.finishCommit who
    | .sysSync who => state.phase who = .outside ∧ next = state.sysSync who ∨
        ∃ target, state.phase who = .syncing target false ∧ next = state.syncLoop who target
    | .kill who => next = state.setPhase who (state.phase who).woken := by
  unfold step at hstep
  split at hstep
  · cases hstep
  cases action with
  | kill who => exact (Option.some.inj hstep).symm
  | _ =>
      dsimp only at hstep ⊢
      split at hstep <;> cases hstep <;> simp [*]

end Steps

def Busy (log : Log) : Prop := log.committing = true ∨ 0 < log.outstanding

def Phase.Ok (log : Log) : Phase → Prop
  | .beginning asleep => asleep = true → Busy log
  | .committed => log.committing = true ∧ log.lh = []
  | .syncing target asleep =>
      target = log.ncommit + 1 ∧ Busy log ∨ asleep = false ∧ target ≤ log.ncommit
  | _ => True

namespace Phase.Ok

variable {log log' : Log} {phase : Phase}

theorem mono (h : phase.Ok log) (hbusy : Busy log → Busy log') (hncommit : log'.ncommit = log.ncommit)
    (hcommitted : log.committing = true → log.lh = [] → log'.committing = true ∧ log'.lh = []) :
    phase.Ok log' := by
  cases phase with
  | beginning asleep => exact fun hasleep => hbusy (h hasleep)
  | committed => exact hcommitted h.1 h.2
  | syncing target asleep =>
      unfold Ok
      rw [hncommit]
      exact h.imp_left fun hnext => ⟨hnext.1, hbusy hnext.2⟩
  | outside => trivial
  | inside added => trivial
  | committing => trivial

theorem woken (h : phase.Ok log) : phase.woken.Ok log := by
  cases phase with
  | beginning asleep => exact fun hasleep => absurd hasleep Bool.false_ne_true
  | syncing target asleep => exact h.imp_right fun hpast => ⟨rfl, hpast.2⟩
  | committed => exact h
  | outside => trivial
  | inside added => trivial
  | committing => trivial

theorem woken_finishCommit (h : phase.Ok log) (hcommits : phase.commits = 0) :
    phase.woken.Ok log.finishCommit := by
  cases phase with
  | beginning asleep => exact fun hasleep => absurd hasleep Bool.false_ne_true
  | syncing target asleep =>
      have htarget : target ≤ log.ncommit + 1 := by
        obtain ⟨hnext, -⟩ | ⟨-, hpast⟩ := h <;> omega
      exact Or.inr ⟨rfl, htarget⟩
  | committed => cases hcommits
  | outside => trivial
  | inside added => trivial
  | committing => trivial

end Phase.Ok

section Invariant

variable {ι : Type} [Fintype ι]

structure Inv (state : State ι) : Prop where
  outstanding : state.log.outstanding = ∑ who, (state.phase who).operations
  commits : ∑ who, (state.phase who).commits = if state.log.committing then 1 else 0
  quiet : state.log.committing = true → state.log.outstanding = 0
  empty : ¬Busy state.log → state.log.lh = []
  phase : ∀ who, (state.phase who).Ok state.log

namespace Inv

variable {state next : State ι} {who : ι} {added blockno target : Nat}

theorem start (sb : Superblock) : Inv (start sb : State ι) where
  outstanding := by simp [LogProtocol.start, Log.init, Phase.operations]
  commits := by simp [LogProtocol.start, Log.init, Phase.commits]
  quiet _ := rfl
  empty _ := rfl
  phase _ := trivial

theorem wakeup (h : Inv state) : Inv state.wakeup where
  outstanding :=
    h.outstanding.trans (Finset.sum_congr rfl fun _ _ => (Phase.operations_woken _).symm)
  commits := (Finset.sum_congr rfl fun _ _ => Phase.commits_woken _).trans h.commits
  quiet := h.quiet
  empty := h.empty
  phase who := (h.phase who).woken

theorem panic (h : Inv state) (panicked : Option Log.Panic) : Inv { state with panicked } :=
  ⟨h.outstanding, h.commits, h.quiet, h.empty, h.phase⟩

theorem outstanding_pos (h : Inv state) (hinside : state.phase who = .inside added) :
    0 < state.log.outstanding := by
  have hle := Tally.le_sum state.phase Phase.operations who
  rw [← h.outstanding, hinside] at hle
  exact hle

theorem not_committing (h : Inv state) (hpos : 0 < state.log.outstanding) :
    state.log.committing = false := by
  by_contra hcommitting
  have hzero := h.quiet (by simpa using hcommitting)
  omega

theorem committing (h : Inv state) (hcommits : (state.phase who).commits = 1) :
    state.log.committing = true := by
  have hle := Tally.le_sum state.phase Phase.commits who
  rw [h.commits, hcommits] at hle
  by_contra hcommitting
  simp [hcommitting] at hle

theorem operations_eq_zero (h : Inv state) (hzero : state.log.outstanding = 0) (who : ι) :
    (state.phase who).operations = 0 := by
  have hle := Tally.le_sum state.phase Phase.operations who
  rw [← h.outstanding, hzero] at hle
  exact Nat.le_zero.mp hle

theorem exists_commits (h : Inv state) (hcommitting : state.log.committing = true) :
    ∃ who, (state.phase who).commits = 1 := by
  have hsum := h.commits
  rw [hcommitting, if_pos rfl] at hsum
  obtain ⟨who, -, hne⟩ := Finset.exists_ne_zero_of_sum_ne_zero (hsum.trans_ne one_ne_zero)
  refine ⟨who, ?_⟩
  have hle := Tally.le_sum state.phase Phase.commits who
  omega

theorem exists_operations (h : Inv state) (hpos : 0 < state.log.outstanding) :
    ∃ who, (state.phase who).operations = 1 := by
  rw [h.outstanding] at hpos
  obtain ⟨who, -, hne⟩ := Finset.exists_ne_zero_of_sum_ne_zero hpos.ne'
  refine ⟨who, ?_⟩
  cases hphase : state.phase who <;> simp_all [Phase.operations]

theorem busy_of_asleep (h : Inv state) (hasleep : (state.phase who).Asleep) : Busy state.log := by
  have hok := h.phase who
  cases hphase : state.phase who with
  | beginning asleep =>
      rw [hphase] at hok hasleep
      exact hok hasleep
  | syncing target asleep =>
      rw [hphase] at hok hasleep
      obtain ⟨-, hbusy⟩ | ⟨hawake, -⟩ := hok
      · exact hbusy
      · exact absurd (hasleep.symm.trans hawake) (by simp)
  | _ =>
      rw [hphase] at hasleep
      exact hasleep.elim

variable [DecidableEq ι]

theorem update (h : Inv state) {phase : Phase} {log : Log}
    (houtstanding : log.outstanding + (state.phase who).operations =
      state.log.outstanding + phase.operations)
    (hcommits : (if log.committing then 1 else 0) + (state.phase who).commits =
      (if state.log.committing then 1 else 0) + phase.commits)
    (hquiet : log.committing = true → log.outstanding = 0) (hempty : ¬Busy log → log.lh = [])
    (hphase : phase.Ok log)
    (hothers : ∀ other ≠ who, (state.phase other).Ok state.log → (state.phase other).Ok log) :
    Inv { state.setPhase who phase with log } where
  outstanding := by
    have hsum := Tally.sum_update state.phase Phase.operations who phase
    have hbefore := h.outstanding
    simp only [State.setPhase]
    omega
  commits := by
    have hsum := Tally.sum_update state.phase Phase.commits who phase
    have hbefore := h.commits
    simp only [State.setPhase]
    omega
  quiet := hquiet
  empty := hempty
  phase other := by
    by_cases hother : other = who
    · subst hother
      simpa [State.setPhase] using hphase
    · simpa [State.setPhase, hother] using hothers other hother (h.phase other)

theorem setPhase (h : Inv state) {phase : Phase}
    (hoperations : (state.phase who).operations = phase.operations)
    (hcommits : (state.phase who).commits = phase.commits) (hphase : phase.Ok state.log) :
    Inv (state.setPhase who phase) := by
  have hsame : Inv { state.setPhase who phase with log := state.log } := by
    apply h.update
    · rw [hoperations]
    · rw [hcommits]
    · exact h.quiet
    · exact h.empty
    · exact hphase
    · exact fun _ _ hother => hother
  exact hsame

/-! ### The sections keep the invariant -/

theorem beginOp (h : Inv state) (hphase : (state.phase who).operations = 0)
    (hcommits : (state.phase who).commits = 0) : Inv (state.beginOp who) := by
  unfold State.beginOp
  split
  · next hsleeps =>
      apply h.setPhase hphase hcommits
      intro _
      by_contra hbusy
      have hlog : ¬(state.log.committing = true ∨ 0 < state.log.outstanding) := hbusy
      have hroom : state.log.lh.length + (state.log.outstanding + 1) * maxOpBlocks ≤ logSize := by
        have hzero : state.log.outstanding = 0 := by omega
        rw [h.empty hbusy, hzero]
        decide
      have hcommitting : state.log.committing = false := by simpa using fun hc => hlog (Or.inl hc)
      have hbegins := Log.beginOp_eq_some_iff.mpr ⟨hcommitting, hroom, rfl⟩
      rw [hsleeps] at hbegins
      cases hbegins
  · next log hbegins =>
      obtain ⟨hcommitting, -, rfl⟩ := Log.beginOp_eq_some_iff.mp hbegins
      have hbusy : Busy { state.log with outstanding := state.log.outstanding + 1 } :=
        Or.inr (Nat.succ_pos _)
      apply h.update
      · rw [hphase]
        rfl
      · rw [hcommits]
        rfl
      · intro hset
        rw [hcommitting] at hset
        cases hset
      · exact fun hidle => absurd hbusy hidle
      · trivial
      · intro other _ hother
        exact hother.mono (fun _ => hbusy) rfl fun hset hempty => ⟨hset, hempty⟩

theorem logWrite (h : Inv state) (hinside : state.phase who = .inside added) :
    Inv (state.logWrite who added blockno) := by
  unfold State.logWrite
  split
  · exact h.panic _
  · next log fresh hwrites =>
      obtain ⟨-, -, hpos, hresult⟩ := Log.logWrite_eq_ok_iff.mp hwrites
      have hcommitting := h.not_committing hpos
      have hlog : log.outstanding = state.log.outstanding ∧
          log.committing = state.log.committing ∧ log.ncommit = state.log.ncommit := by
        obtain ⟨-, rfl, -⟩ | ⟨-, rfl, -⟩ := hresult <;> exact ⟨rfl, rfl, rfl⟩
      have hbusy : Busy log := Or.inr (by omega)
      apply h.update
      · rw [hlog.1, hinside]
        rfl
      · rw [hlog.2.1, hinside]
        rfl
      · rw [hlog.1, hlog.2.1]
        exact h.quiet
      · exact fun hidle => absurd hbusy hidle
      · trivial
      · intro other _ hother
        refine hother.mono (fun _ => hbusy) hlog.2.2 fun hset => ?_
        rw [hcommitting] at hset
        cases hset

theorem endOp (h : Inv state) (hinside : state.phase who = .inside added) :
    Inv (state.endOp who) := by
  have hpos := h.outstanding_pos hinside
  unfold State.endOp
  split
  · exact h.panic _
  · next log hends =>
      obtain ⟨hcommitting, ⟨hlast, rfl, -⟩ | ⟨-, -, hfalse⟩⟩ := Log.endOp_eq_ok_iff.mp hends
      · apply h.update
        · rw [hinside]
          change 0 + 1 = state.log.outstanding + 0
          omega
        · rw [hinside, hcommitting]
          rfl
        · exact fun _ => rfl
        · exact fun hidle => absurd (Or.inl rfl) hidle
        · trivial
        · intro other _ hother
          refine hother.mono (fun _ => Or.inl rfl) rfl fun hset => ?_
          rw [hcommitting] at hset
          cases hset
      · cases hfalse
  · next log hends =>
      obtain ⟨hcommitting, ⟨-, -, hfalse⟩ | ⟨hmore, rfl, -⟩⟩ := Log.endOp_eq_ok_iff.mp hends
      · cases hfalse
      · have hbusy : Busy { state.log with outstanding := state.log.outstanding - 1 } :=
          Or.inr (by simp only; omega)
        have hwoken : (state.wakeup.phase who) = .inside added := by
          simp [State.wakeup, hinside, Phase.woken]
        apply h.wakeup.update
        · rw [hwoken]
          change state.log.outstanding - 1 + 1 = state.log.outstanding + 0
          omega
        · rw [hwoken]
          rfl
        · intro hset
          change state.log.committing = true at hset
          rw [hcommitting] at hset
          cases hset
        · exact fun hidle => absurd hbusy hidle
        · trivial
        · intro other _ hother
          exact hother.mono (fun _ => hbusy) rfl fun hset hempty => ⟨hset, hempty⟩

theorem commit (h : Inv state) (hphase : state.phase who = .committing) :
    Inv (state.commit who) := by
  have hcommitting := h.committing (congrArg Phase.commits hphase)
  have hbusy : Busy state.log.commit := Or.inl hcommitting
  apply h.update
  · rw [hphase]
    rfl
  · rw [hphase]
    rfl
  · exact h.quiet
  · exact fun hidle => absurd hbusy hidle
  · exact ⟨hcommitting, rfl⟩
  · intro other _ hother
    exact hother.mono (fun _ => hbusy) rfl fun hset _ => ⟨hset, rfl⟩

theorem finishCommit (h : Inv state) (hphase : state.phase who = .committed) :
    Inv (state.finishCommit who) := by
  have hok : (Phase.committed).Ok state.log := hphase ▸ h.phase who
  have hwoken : state.wakeup.phase who = .committed := by
    simp [State.wakeup, hphase, Phase.woken]
  have hcommitting : state.wakeup.log.committing = true := hok.1
  apply h.wakeup.update
  · rw [hwoken]
    rfl
  · rw [hwoken, hcommitting]
    rfl
  · exact fun hset => absurd hset Bool.false_ne_true
  · exact fun _ => hok.2
  · trivial
  · intro other hother _
    apply (h.phase other).woken_finishCommit
    -- two processes inside `commit` would count as two
    have hle := Tally.add_le_sum state.phase Phase.commits hother
    rw [h.commits, hok.1, hphase] at hle
    change (state.phase other).commits + 1 ≤ 1 at hle
    omega

theorem syncLoop (h : Inv state) (hoperations : (state.phase who).operations = 0)
    (hcommits : (state.phase who).commits = 0)
    (htarget : target ≤ state.log.ncommit ∨ target = state.log.ncommit + 1 ∧ Busy state.log) :
    Inv (state.syncLoop who target) := by
  unfold State.syncLoop
  split
  · next hbefore =>
      apply h.setPhase hoperations hcommits
      exact Or.inl (htarget.resolve_left (Nat.not_le.mpr hbefore))
  · exact h.setPhase hoperations hcommits trivial

theorem sysSync (h : Inv state) (hphase : state.phase who = .outside) :
    Inv (state.sysSync who) := by
  unfold State.sysSync
  split
  · exact h
  · next htarget =>
      obtain ⟨hbusy, rfl⟩ := Log.syncTarget_eq_some_iff.mp htarget
      exact h.syncLoop (congrArg Phase.operations hphase) (congrArg Phase.commits hphase)
        (Or.inr ⟨rfl, hbusy⟩)

theorem step {action : Action ι} (h : Inv state) (hstep : LogProtocol.step state action = some next) :
    Inv next := by
  have hcases := step_cases hstep
  cases action with
  | beginOp who =>
      obtain ⟨hphase | hphase, rfl⟩ := hcases <;>
        exact h.beginOp (congrArg Phase.operations hphase) (congrArg Phase.commits hphase)
  | logWrite who blockno =>
      obtain ⟨added, hphase, rfl⟩ := hcases
      exact h.logWrite hphase
  | endOp who =>
      obtain ⟨⟨added, hphase⟩, rfl⟩ := hcases
      exact h.endOp hphase
  | commit who =>
      obtain ⟨hphase, rfl⟩ := hcases
      exact h.commit hphase
  | finishCommit who =>
      obtain ⟨hphase, rfl⟩ := hcases
      exact h.finishCommit hphase
  | sysSync who =>
      obtain ⟨hphase, rfl⟩ | ⟨target, hphase, rfl⟩ := hcases
      · exact h.sysSync hphase
      · apply h.syncLoop (congrArg Phase.operations hphase) (congrArg Phase.commits hphase)
        have hok : (Phase.syncing target false).Ok state.log := hphase ▸ h.phase who
        exact hok.symm.imp_left fun hpast => hpast.2
  | kill who =>
      cases hcases
      exact h.setPhase (Phase.operations_woken _).symm (Phase.commits_woken _).symm
        (h.phase who).woken

end Inv

theorem inv_of_run [DecidableEq ι] {sb : Superblock} {actions : List (Action ι)} {state : State ι}
    (hrun : Transition.run step (start sb) actions = some state) : Inv state :=
  Transition.invariant_run (fun _ _ _ h hstep => h.step hstep) (Inv.start sb) hrun

end Invariant

/-! ### What is reserved -/

section Reserved

/-- An operation adds at most `MAXOPBLOCKS` blocks to the log. -/
def WithinBudget {ι : Type} (state : State ι) : Action ι → Prop
  | .logWrite who blockno => blockno ∉ state.log.lh → 0 < (state.phase who).left
  | _ => True

instance {ι : Type} (state : State ι) : DecidablePred (WithinBudget state)
  | .logWrite who blockno =>
      inferInstanceAs (Decidable (blockno ∉ state.log.lh → 0 < (state.phase who).left))
  | .beginOp _ | .endOp _ | .commit _ | .finishCommit _ | .sysSync _ | .kill _ => isTrue trivial

variable {ι : Type} [Fintype ι] {state next : State ι} {who : ι}

def State.reserved (state : State ι) : Nat := state.log.lh.length + ∑ who, (state.phase who).left

theorem left_le_operations (phase : Phase) : phase.left ≤ phase.operations * maxOpBlocks := by
  cases phase with
  | inside added => exact (Nat.sub_le _ _).trans_eq (Nat.one_mul _).symm
  | _ => exact Nat.zero_le _

theorem sum_left_le (h : Inv state) :
    ∑ who, (state.phase who).left ≤ state.log.outstanding * maxOpBlocks := by
  calc ∑ who, (state.phase who).left
      ≤ ∑ who, (state.phase who).operations * maxOpBlocks :=
        Finset.sum_le_sum fun who _ => left_le_operations _
    _ = state.log.outstanding * maxOpBlocks := by rw [← Finset.sum_mul, ← h.outstanding]

theorem reserved_wakeup : state.wakeup.reserved = state.reserved :=
  congrArg (state.log.lh.length + ·) (Finset.sum_congr rfl fun _ _ => Phase.left_woken _)

variable [DecidableEq ι]

theorem reserved_setPhase_le {phase : Phase} {log : Log}
    (hlength : log.lh.length + phase.left ≤ state.log.lh.length + (state.phase who).left) :
    ({ state.setPhase who phase with log } : State ι).reserved ≤ state.reserved := by
  have hsum := Tally.sum_update state.phase Phase.left who phase
  simp only [State.reserved, State.setPhase]
  omega

theorem reserved_beginOp (h : Inv state) (hreserved : state.reserved ≤ logSize)
    (hphase : (state.phase who).left = 0) : (state.beginOp who).reserved ≤ logSize := by
  unfold State.beginOp
  split
  · refine le_trans (reserved_setPhase_le ?_) hreserved
    rw [hphase]
    exact Nat.le_refl _
  · next log hbegins =>
      obtain ⟨-, hroom, rfl⟩ := Log.beginOp_eq_some_iff.mp hbegins
      have hsum := Tally.sum_update state.phase Phase.left who (.inside 0)
      have hleft := sum_left_le h
      have hnew : (Phase.inside 0).left = maxOpBlocks := rfl
      rw [Nat.add_mul, Nat.one_mul] at hroom
      simp only [State.reserved, State.setPhase]
      omega

theorem reserved_logWrite {added blockno : Nat} (hreserved : state.reserved ≤ logSize)
    (hinside : state.phase who = .inside added)
    (hbudget : blockno ∉ state.log.lh → 0 < (state.phase who).left) :
    (state.logWrite who added blockno).reserved ≤ logSize := by
  unfold State.logWrite
  split
  · exact hreserved
  · next log fresh hwrites =>
      obtain ⟨-, -, -, ⟨-, rfl, rfl⟩ | ⟨hfresh, rfl, rfl⟩⟩ := Log.logWrite_eq_ok_iff.mp hwrites
      · refine le_trans (reserved_setPhase_le ?_) hreserved
        rw [hinside]
        exact Nat.le_refl _
      · refine le_trans (reserved_setPhase_le ?_) hreserved
        have hroom := hbudget hfresh
        rw [hinside, Phase.left] at hroom
        simp only [hinside, Phase.left, List.length_append, List.length_cons, List.length_nil,
          if_true]
        omega

theorem reserved_endOp (hreserved : state.reserved ≤ logSize) :
    (state.endOp who).reserved ≤ logSize := by
  unfold State.endOp
  split
  · exact hreserved
  · next log hends =>
      obtain ⟨-, ⟨-, rfl, -⟩ | ⟨-, -, hfalse⟩⟩ := Log.endOp_eq_ok_iff.mp hends
      · exact le_trans (reserved_setPhase_le (Nat.add_le_add_left (Nat.zero_le _) _)) hreserved
      · cases hfalse
  · next log hends =>
      obtain ⟨-, ⟨-, -, hfalse⟩ | ⟨-, rfl, -⟩⟩ := Log.endOp_eq_ok_iff.mp hends
      · cases hfalse
      · rw [← reserved_wakeup] at hreserved
        exact le_trans (reserved_setPhase_le (Nat.add_le_add_left (Nat.zero_le _) _)) hreserved

theorem reserved_syncLoop {target : Nat} (hreserved : state.reserved ≤ logSize) :
    (state.syncLoop who target).reserved ≤ logSize := by
  unfold State.syncLoop
  split <;>
    exact le_trans (reserved_setPhase_le (Nat.add_le_add_left (Nat.zero_le _) _)) hreserved

theorem reserved_step {action : Action ι} (h : Inv state) (hreserved : state.reserved ≤ logSize)
    (hbudget : WithinBudget state action) (hstep : step state action = some next) :
    next.reserved ≤ logSize := by
  have hcases := step_cases hstep
  cases action with
  | beginOp who =>
      obtain ⟨hphase | hphase, rfl⟩ := hcases <;>
        exact reserved_beginOp h hreserved (congrArg Phase.left hphase)
  | logWrite who blockno =>
      obtain ⟨added, hphase, rfl⟩ := hcases
      exact reserved_logWrite hreserved hphase hbudget
  | endOp who =>
      obtain ⟨-, rfl⟩ := hcases
      exact reserved_endOp hreserved
  | commit who =>
      obtain ⟨-, rfl⟩ := hcases
      exact le_trans (reserved_setPhase_le (Nat.zero_le _)) hreserved
  | finishCommit who =>
      obtain ⟨-, rfl⟩ := hcases
      rw [← reserved_wakeup] at hreserved
      exact le_trans (reserved_setPhase_le (Nat.add_le_add_left (Nat.zero_le _) _)) hreserved
  | sysSync who =>
      obtain ⟨-, rfl⟩ | ⟨target, -, rfl⟩ := hcases
      · unfold State.sysSync
        split
        · exact hreserved
        · exact reserved_syncLoop hreserved
      · exact reserved_syncLoop hreserved
  | kill who =>
      cases hcases
      refine le_trans (reserved_setPhase_le ?_) hreserved
      rw [Phase.left_woken]

theorem reserved_of_run {sb : Superblock} {actions : List (Action ι)}
    (hbudget : Transition.Along step WithinBudget (start sb) actions)
    (hrun : Transition.run step (start sb) actions = some state) : state.reserved ≤ logSize := by
  have hstart : Inv (start sb : State ι) ∧ (start sb : State ι).reserved ≤ logSize := by
    refine ⟨Inv.start sb, ?_⟩
    simp [State.reserved, start, Log.init, Phase.left]
  have hstep : ∀ (state : State ι) (action : Action ι) (next : State ι),
      Inv state ∧ state.reserved ≤ logSize → WithinBudget state action →
        step state action = some next → Inv next ∧ next.reserved ≤ logSize :=
    fun _ _ _ h hmeets hstep => ⟨h.1.step hstep, reserved_step h.1 h.2 hmeets hstep⟩
  exact (Transition.invariant_along hstep hstart hbudget hrun).2

end Reserved

/-! ### The protocol -/

section Safe

variable {ι : Type} [Fintype ι] [DecidableEq ι] {state next : State ι} {who : ι}

/-- What the protocol promises whenever `log.lock` is free. -/
structure Safe (state : State ι) : Prop where
  quiet : state.log.committing = true → state.log.outstanding = 0
  exclusive : ∀ who other, (state.phase who).commits = 1 → (state.phase other).commits = 1 →
    who = other
  /-- While a process is inside `commit`, no `log_write` and no `begin_op` completes. -/
  undisturbed : ∀ who action next, (state.phase who).commits = 1 → step state action = some next →
    (∀ other blockno, action ≠ .logWrite other blockno) ∧
      ∀ other, (next.phase other).operations = 0
  outstanding : state.log.outstanding = ∑ who, (state.phase who).operations
  /-- A process sleeps only while a commit or an operation is in progress. -/
  stranded : ∀ who, (state.phase who).Asleep →
    state.log.committing = true ∧ (∃ other, (state.phase other).commits = 1) ∨
      0 < state.log.outstanding ∧ ∃ other, (state.phase other).operations = 1
  /-- The end of a commit wakes everybody. -/
  finishCommit : ∀ who next, step state (.finishCommit who) = some next →
    ∀ other, ¬(next.phase other).Asleep
  /-- The end of an operation wakes everybody or leads to a commit. -/
  endOp : ∀ who next, step state (.endOp who) = some next → next.panicked = none ∧
    ((next.phase who).commits = 1 ∨ ∀ other, ¬(next.phase other).Asleep)

namespace Inv

theorem exclusive (h : Inv state) {other : ι} (hwho : (state.phase who).commits = 1)
    (hother : (state.phase other).commits = 1) : who = other := by
  by_contra hne
  have hle := Tally.add_le_sum state.phase Phase.commits hne
  rw [h.commits, h.committing hwho, hwho, hother] at hle
  exact absurd hle (by decide)

theorem undisturbed (h : Inv state) {action : Action ι} (hcommits : (state.phase who).commits = 1)
    (hstep : LogProtocol.step state action = some next) :
    (∀ other blockno, action ≠ .logWrite other blockno) ∧
      ∀ other, (next.phase other).operations = 0 := by
  have hcommitting := h.committing hcommits
  have hzero := h.quiet hcommitting
  constructor
  · rintro other blockno rfl
    obtain ⟨added, hphase, -⟩ := step_cases hstep
    exact absurd (h.outstanding_pos hphase) (by omega)
  · have hnext := h.step hstep
    apply hnext.operations_eq_zero
    -- only `begin_op` raises the count, and it finds `committing` set
    have hcases := step_cases hstep
    cases action with
    | beginOp other =>
        have hsleeps : state.log.beginOp = none := by simp [Log.beginOp, hcommitting]
        rw [hcases.2, State.beginOp, hsleeps]
        exact hzero
    | logWrite other blockno =>
        obtain ⟨added, hphase, -⟩ := hcases
        exact absurd (h.outstanding_pos hphase) (by omega)
    | endOp other =>
        obtain ⟨⟨added, hphase⟩, -⟩ := hcases
        exact absurd (h.outstanding_pos hphase) (by omega)
    | commit other =>
        rw [hcases.2]
        exact hzero
    | finishCommit other =>
        rw [hcases.2]
        exact hzero
    | sysSync other =>
        obtain ⟨-, rfl⟩ | ⟨target, -, rfl⟩ := hcases
        · unfold State.sysSync State.syncLoop
          split
          · exact hzero
          · split <;> exact hzero
        · unfold State.syncLoop
          split <;> exact hzero
    | kill other =>
        rw [hcases]
        exact hzero

theorem endOp_wakes (h : Inv state) (hstep : LogProtocol.step state (.endOp who) = some next)
    (hpanicked : state.panicked = none) : next.panicked = none ∧
      ((next.phase who).commits = 1 ∨ ∀ other, ¬(next.phase other).Asleep) := by
  obtain ⟨⟨added, hphase⟩, rfl⟩ := step_cases hstep
  have hpos := h.outstanding_pos hphase
  unfold State.endOp
  split
  · next panic hpanics =>
      have hends : ∃ log doCommit, state.log.endOp = .ok (log, doCommit) := by
        by_cases hlast : state.log.outstanding ≤ 1
        · exact ⟨_, _, Log.endOp_eq_ok_iff.mpr
            ⟨h.not_committing hpos, Or.inl ⟨hlast, rfl, rfl⟩⟩⟩
        · exact ⟨_, _, Log.endOp_eq_ok_iff.mpr
            ⟨h.not_committing hpos, Or.inr ⟨Nat.not_le.mp hlast, rfl, rfl⟩⟩⟩
      obtain ⟨log, doCommit, hends⟩ := hends
      rw [hpanics] at hends
      cases hends
  · next log _ =>
      refine ⟨hpanicked, Or.inl ?_⟩
      simp [State.setPhase, Phase.commits]
  · next log _ => exact ⟨hpanicked, Or.inr (not_asleep_wakeup not_false)⟩

theorem safe (h : Inv state) : Safe state where
  quiet := h.quiet
  exclusive _ _ := h.exclusive
  undisturbed _ _ _ := h.undisturbed
  outstanding := h.outstanding
  stranded who hasleep :=
    (h.busy_of_asleep hasleep).imp (fun hcommitting => ⟨hcommitting, h.exists_commits hcommitting⟩)
      fun hpos => ⟨hpos, h.exists_operations hpos⟩
  finishCommit who next hstep := by
    rw [(step_cases hstep).2]
    exact not_asleep_wakeup not_false
  endOp who next hstep := by
    refine h.endOp_wakes hstep ?_
    by_contra hpanicked
    simp [LogProtocol.step, Option.isSome_iff_ne_none.mpr hpanicked] at hstep

end Inv

/-- **The log protocol.** Under every interleaving, what the log counts is what its processes do,
commits are exclusive, nobody sleeps on the log with no wakeup to come, and the reservation covers
the operations in progress. -/
theorem safe_of_run {sb : Superblock} {actions : List (Action ι)}
    (hrun : Transition.run step (start sb) actions = some state) :
    Safe state ∧ (Transition.Along step WithinBudget (start sb) actions →
      state.log.lh.length + ∑ who, (state.phase who).left ≤ logSize) :=
  ⟨(inv_of_run hrun).safe, fun hbudget => reserved_of_run hbudget hrun⟩

/-- One operation logs five blocks, a second one begins and logs nine. -/
def fiveAndNine : List (Action Bool) :=
  .beginOp false :: (List.range 5).map (fun k => .logWrite false (100 + k)) ++
    .beginOp true :: (List.range 9).map (fun k => .logWrite true (200 + k))

theorem safe_of_run_fiveAndNine :
    ∃ state, Transition.run step (start (Mkfs.superblock logSize 1500)) fiveAndNine = some state ∧
      Safe state := by
  have hrun : (Transition.run step (start (Mkfs.superblock logSize 1500)) fiveAndNine).isSome := by
    decide
  obtain ⟨state, hstate⟩ := Option.isSome_iff_exists.mp hrun
  exact ⟨state, hstate, (safe_of_run hstate).1⟩

/-- The whole budget of every operation that has some of it left does not fit: the blocks such an
operation has logged already would count twice. -/
theorem not_whole_budget_fiveAndNine :
    ¬ ∀ (actions : List (Action Bool)) state,
      Transition.Along step WithinBudget (start (Mkfs.superblock logSize 1500)) actions →
        Transition.run step (start (Mkfs.superblock logSize 1500)) actions = some state →
          state.log.lh.length + maxOpBlocks *
            (Finset.univ.filter fun who => 0 < (state.phase who).left).card ≤ logSize := by
  intro hfits
  have hbudget : Transition.Along step WithinBudget (start (Mkfs.superblock logSize 1500))
      fiveAndNine := by
    decide
  have hrun : ∃ state ∈ Transition.run step (start (Mkfs.superblock logSize 1500)) fiveAndNine,
      ¬state.log.lh.length + maxOpBlocks *
        (Finset.univ.filter fun who => 0 < (state.phase who).left).card ≤ logSize := by
    decide
  obtain ⟨state, hstate, hlarge⟩ := hrun
  exact hlarge (hfits _ state hbudget hstate)

end Safe

end Xv6.LogProtocol
