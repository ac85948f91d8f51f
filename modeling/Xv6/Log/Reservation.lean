import Mathlib.Data.Finset.Card
import Xv6.Log.Log
import Xv6.Lib.Transition

/-!
# Whether the reservation of `begin_op` covers the space test of `log_write`

Any number of processes call `begin_op`, `log_write` and `end_op` in any order, each call taking
`log.lock`. `begin_op` reserves against `LOGSIZE` while `log_write` tests against `log.size - 1`,
and on an image `mkfs` builds the two differ by one slot: `nlog` counts the header block.
-/

namespace Xv6.Reservation

variable {ι : Type} [DecidableEq ι]

/-- Where a process is: outside a transaction, inside one having logged some blocks, about to run
`commit`, or back from it. -/
inductive Phase where
  | outside
  | inside (logged : Finset Nat)
  | committing
  | committed

/-- The blocks an operation in progress has logged so far. -/
def Phase.logged : Phase → Finset Nat
  | .inside logged => logged
  | _ => ∅

structure State (ι : Type) where
  log : Log
  phase : ι → Phase
  panicked : Option Log.Panic

inductive Action (ι : Type) where
  | beginOp (who : ι)
  | logWrite (who : ι) (blockno : Nat)
  | endOp (who : ι)
  | commit (who : ι)
  | finishCommit (who : ι)
  deriving DecidableEq

/-- The state after `initlog` on an image. -/
def start (sb : Superblock) : State ι where
  log := Log.init sb
  phase := fun _ => .outside
  panicked := none

def State.setPhase (state : State ι) (who : ι) (phase : Phase) : State ι :=
  { state with phase := Function.update state.phase who phase }

/-- One call of one process. Nothing runs after a panic. -/
def step (state : State ι) (action : Action ι) : Option (State ι) :=
  if state.panicked.isSome then
    none
  else
    match action with
    | .beginOp who =>
        match state.phase who with
        | .outside => state.log.beginOp.map fun log =>
            { state.setPhase who (.inside ∅) with log }
        | _ => none
    | .logWrite who blockno =>
        match state.phase who with
        | .inside logged =>
            match state.log.logWrite blockno with
            | .error panic => some { state with panicked := some panic }
            | .ok (log, _) => some { state.setPhase who (.inside (insert blockno logged)) with log }
        | _ => none
    | .endOp who =>
        match state.phase who with
        | .inside _ =>
            match state.log.endOp with
            | .error panic => some { state with panicked := some panic }
            | .ok (log, doCommit) =>
                some { state.setPhase who (if doCommit then .committing else .outside) with log }
        | _ => none
    | .commit who =>
        match state.phase who with
        | .committing => some { state.setPhase who .committed with log := state.log.commit }
        | _ => none
    | .finishCommit who =>
        match state.phase who with
        | .committed => some { state.setPhase who .outside with log := state.log.finishCommit }
        | _ => none

/-- Each operation logs at most `MAXOPBLOCKS` distinct blocks. -/
def WithinBudget (state : State ι) : Action ι → Prop
  | .logWrite who blockno => (insert blockno (state.phase who).logged).card ≤ maxOpBlocks
  | _ => True

instance (state : State ι) (action : Action ι) : Decidable (WithinBudget state action) :=
  match action with
  | .logWrite who blockno =>
      inferInstanceAs (Decidable ((insert blockno (state.phase who).logged).card ≤ maxOpBlocks))
  | .beginOp _ | .endOp _ | .commit _ | .finishCommit _ => isTrue trivial

/-- The distinct blocks passed to `log_write` since the last commit. -/
def groupBlocks (actions : List (Action ι)) : Finset Nat :=
  actions.foldl (fun group action =>
    match action with
    | .logWrite _ blockno => insert blockno group
    | .commit _ => ∅
    | _ => group) ∅

omit [DecidableEq ι] in
theorem groupBlocks_concat (actions : List (Action ι)) (action : Action ι) :
    groupBlocks (actions ++ [action]) =
      match action with
      | .logWrite _ blockno => insert blockno (groupBlocks actions)
      | .commit _ => ∅
      | _ => groupBlocks actions := by
  simp [groupBlocks, List.foldl_append]

structure Tracks (sb : Superblock) (actions : List (Action ι)) (state : State ι) : Prop where
  size : state.log.size = sb.nlog
  blocks : state.panicked = none → state.log.lh.toFinset = groupBlocks actions
  nodup : state.log.lh.Nodup

omit [DecidableEq ι] in
theorem tracks_start (sb : Superblock) : Tracks sb ([] : List (Action ι)) (start sb) where
  size := rfl
  blocks := fun _ => rfl
  nodup := List.nodup_nil

theorem tracks_logWrite {sb : Superblock} {actions : List (Action ι)} {state : State ι} {who : ι}
    {blockno : Nat} {log : Log} {fresh : Bool} (phase : Phase) (h : Tracks sb actions state)
    (hnone : state.panicked = none) (hwrite : state.log.logWrite blockno = .ok (log, fresh)) :
    Tracks sb (actions ++ [.logWrite who blockno]) { state.setPhase who phase with log } := by
  obtain ⟨-, -, -, ⟨hmem, rfl, -⟩ | ⟨hmem, rfl, -⟩⟩ := Log.logWrite_eq_ok_iff.mp hwrite
  · refine ⟨h.size, fun _ => ?_, h.nodup⟩
    rw [groupBlocks_concat, ← h.blocks hnone]
    exact (Finset.insert_eq_of_mem (List.mem_toFinset.mpr hmem)).symm
  · refine ⟨h.size, fun _ => ?_, List.nodup_append.mpr ⟨h.nodup, List.nodup_singleton _, ?_⟩⟩
    · rw [groupBlocks_concat, ← h.blocks hnone, List.toFinset_append]
      simp
    · intro block hblock other hother
      rw [List.mem_singleton.mp hother]
      exact fun heq => hmem (heq ▸ hblock)

theorem tracks_step {sb : Superblock} {actions : List (Action ι)} {state next : State ι}
    {action : Action ι} (h : Tracks sb actions state) (hstep : step state action = some next) :
    Tracks sb (actions ++ [action]) next := by
  have hnone : state.panicked = none := by
    cases hpanicked : state.panicked with
    | none => rfl
    | some panic => simp [step, hpanicked] at hstep
  simp only [step, hnone, Option.isSome_none, Bool.false_eq_true, if_false] at hstep
  cases action with
  | beginOp who =>
      simp only at hstep
      split at hstep
      · obtain ⟨log, hbegin, rfl⟩ := Option.map_eq_some_iff.mp hstep
        obtain ⟨-, -, rfl⟩ := Log.beginOp_eq_some_iff.mp hbegin
        exact ⟨h.size, fun _ => by rw [groupBlocks_concat]; exact h.blocks hnone, h.nodup⟩
      · cases hstep
  | logWrite who blockno =>
      simp only at hstep
      split at hstep
      · split at hstep
        · cases hstep
          exact ⟨h.size, nofun, h.nodup⟩
        · rename_i hwrite
          cases hstep
          exact tracks_logWrite _ h hnone hwrite
      · cases hstep
  | endOp who =>
      simp only at hstep
      split at hstep
      · split at hstep
        · cases hstep
          exact ⟨h.size, nofun, h.nodup⟩
        · rename_i hend
          cases hstep
          obtain ⟨-, ⟨-, rfl, -⟩ | ⟨-, rfl, -⟩⟩ := Log.endOp_eq_ok_iff.mp hend <;>
            exact ⟨h.size, fun _ => by rw [groupBlocks_concat]; exact h.blocks hnone, h.nodup⟩
      · cases hstep
  | commit who =>
      simp only at hstep
      split at hstep
      · cases hstep
        exact ⟨h.size, fun _ => by rw [groupBlocks_concat]; rfl, List.nodup_nil⟩
      · cases hstep
  | finishCommit who =>
      simp only at hstep
      split at hstep
      · cases hstep
        exact ⟨h.size, fun _ => by rw [groupBlocks_concat]; exact h.blocks hnone, h.nodup⟩
      · cases hstep

theorem panicked_eq_none_of_step {state next : State ι} {action : Action ι}
    (hstep : step state action = some next) : state.panicked = none := by
  cases hpanicked : state.panicked with
  | none => rfl
  | some panic => simp [step, hpanicked] at hstep

theorem tracks_run {sb : Superblock} {actions : List (Action ι)} {state : State ι}
    (hrun : Transition.run step (start sb) actions = some state) : Tracks sb actions state :=
  Transition.invariant_history (tracks_start sb) (fun _ _ _ _ h hstep => tracks_step h hstep) hrun

theorem tooBig_step_iff {fsSize : Nat} {actions : List (Action ι)} {state next : State ι}
    {action : Action ι} (h : Tracks (Mkfs.superblock logSize fsSize) actions state)
    (hstep : step state action = some next) :
    next.panicked = some .tooBigATransaction ↔
      ∃ who blockno, action = .logWrite who blockno ∧
        logSize - 1 ≤ (groupBlocks actions).card := by
  have hnone := panicked_eq_none_of_step hstep
  have hlength : state.log.lh.length = (groupBlocks actions).card := by
    rw [← h.blocks hnone, List.toFinset_card_of_nodup h.nodup]
  have hsize : state.log.size - 1 = logSize - 1 := by rw [h.size]; rfl
  simp only [step, hnone, Option.isSome_none, Bool.false_eq_true, if_false] at hstep
  cases action with
  | beginOp who =>
      simp only at hstep
      split at hstep
      · obtain ⟨log, -, rfl⟩ := Option.map_eq_some_iff.mp hstep
        simp [State.setPhase, hnone]
      · cases hstep
  | logWrite who blockno =>
      simp only at hstep
      split at hstep
      · split at hstep
        · rename_i panic hwrite
          cases hstep
          have hpanic : panic = .tooBigATransaction ↔
              state.log.logWrite blockno = .error .tooBigATransaction := by
            rw [hwrite, Except.error.injEq]
          rw [Option.some.injEq, hpanic, Log.logWrite_eq_tooBig_iff, hlength, hsize]
          constructor
          · exact fun hfull => ⟨who, blockno, rfl, by omega⟩
          · rintro ⟨-, -, -, hfull⟩
            exact Or.inr hfull
        · rename_i hwrite
          cases hstep
          have hroom := (Log.logWrite_eq_ok_iff.mp hwrite).2.1
          rw [hlength, hsize] at hroom
          constructor
          · exact fun hpanicked => by simp [State.setPhase, hnone] at hpanicked
          · rintro ⟨-, -, -, hfull⟩
            omega
      · cases hstep
  | endOp who =>
      simp only at hstep
      split at hstep
      · split at hstep
        · rename_i panic hend
          cases hstep
          have hpanic : panic ≠ .tooBigATransaction := by
            rintro rfl
            exact Log.endOp_ne_tooBig _ hend
          simp [hpanic]
        · cases hstep
          simp [State.setPhase, hnone]
      · cases hstep
  | commit who =>
      simp only at hstep
      split at hstep <;> cases hstep
      simp [State.setPhase, hnone]
  | finishCommit who =>
      simp only at hstep
      split at hstep <;> cases hstep
      simp [State.setPhase, hnone]

/-- **When the log of a `mkfs` image suffices.** A run stays clear of the panic exactly when every
`log_write` is made while its group has logged fewer than `LOGSIZE - 1` distinct blocks. -/
theorem not_tooBig_iff {fsSize : Nat} {actions : List (Action ι)} {state : State ι}
    (hrun : Transition.run step (start (Mkfs.superblock logSize fsSize)) actions = some state) :
    state.panicked ≠ some .tooBigATransaction ↔
      ∀ before who blockno, before ++ [.logWrite who blockno] <+: actions →
        (groupBlocks before).card < logSize - 1 := by
  constructor
  · rintro hpanicked before who blockno ⟨rest, rfl⟩
    by_contra hfull
    obtain ⟨next, hnext, hrest⟩ := Option.bind_eq_some_iff.mp
      ((Transition.run_append _ _).symm.trans hrun)
    obtain ⟨state₀, hbefore, hwrite⟩ := Transition.run_concat.mp hnext
    have htooBig : next.panicked = some .tooBigATransaction :=
      (tooBig_step_iff (tracks_run hbefore) hwrite).mpr ⟨who, blockno, rfl, by omega⟩
    -- nothing runs after a panic, so the run ends there
    cases rest with
    | nil =>
        cases hrest
        exact hpanicked htooBig
    | cons action rest =>
        obtain ⟨after, hafter, -⟩ := Transition.run_cons.mp hrest
        rw [panicked_eq_none_of_step hafter] at htooBig
        cases htooBig
  · intro hroom hpanicked
    cases actions using List.reverseRecOn with
    | nil =>
        cases hrun
        cases hpanicked
    | append_singleton before action =>
        obtain ⟨state₀, hbefore, hlast⟩ := Transition.run_concat.mp hrun
        obtain ⟨who, blockno, rfl, hfull⟩ :=
          (tooBig_step_iff (tracks_run hbefore) hlast).mp hpanicked
        exact absurd (hroom before who blockno (List.prefix_refl _)) (by omega)

def twoBlocks : List (Action Unit) := [.beginOp (), .logWrite () 100, .logWrite () 101]

theorem not_tooBig_iff_twoBlocks :
    ∃ state, Transition.run step (start (Mkfs.superblock logSize 1500)) twoBlocks = some state ∧
      (state.panicked ≠ some .tooBigATransaction ↔
        ∀ before who blockno, before ++ [.logWrite who blockno] <+: twoBlocks →
          (groupBlocks before).card < logSize - 1) :=
  ⟨_, rfl, not_tooBig_iff rfl⟩

def threeFullOps : List (Action (Fin 3)) :=
  [.beginOp 0, .beginOp 1, .beginOp 2] ++
    (List.range 30).map fun i => .logWrite (Fin.ofNat 3 (i / 10)) (100 + i)

/-- The thirtieth block of three operations, each within its budget, does not fit. -/
theorem threeFullOps_tooBig :
    ¬ ∀ (ι : Type) [DecidableEq ι] (fsSize : Nat) (actions : List (Action ι)) (state : State ι),
      Transition.Along step WithinBudget (start (Mkfs.superblock logSize fsSize)) actions →
        Transition.run step (start (Mkfs.superblock logSize fsSize)) actions = some state →
          state.panicked ≠ some .tooBigATransaction := by
  have hbudget : Transition.Along step WithinBudget (start (Mkfs.superblock logSize 1500))
      threeFullOps := by
    decide +kernel
  have hpanicked : ((Transition.run step (start (Mkfs.superblock logSize 1500))
      threeFullOps).map State.panicked) = some (some .tooBigATransaction) := by
    decide +kernel
  intro hnever
  obtain ⟨state, hrun, htooBig⟩ := Option.map_eq_some_iff.mp hpanicked
  exact hnever (Fin 3) 1500 threeFullOps state hbudget hrun htooBig

end Xv6.Reservation
