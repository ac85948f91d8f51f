import Xv6.Layout

/-!
# The log in memory

`struct log` of `log.c` and the sections of its functions that run under `log.lock`. The entries of
`lh.block` at or after `lh.n` are never read, so the header is the list of its first `n` entries.
-/

namespace Xv6

structure Log where
  start : Nat
  size : Nat
  /-- How many file system calls are executing. -/
  outstanding : Nat
  /-- In `commit`, please wait. -/
  committing : Bool
  /-- How many commits have completed. -/
  ncommit : Nat
  /-- `lh.block[0 .. lh.n)`. -/
  lh : List Nat
  deriving DecidableEq, Repr

namespace Log

inductive Panic where
  | tooBigATransaction
  | logWriteOutsideOfTrans
  | logCommitting
  deriving DecidableEq, Repr

/-- `initlog`, once recovery has left the log empty. -/
def init (sb : Superblock) : Log where
  start := sb.logstart
  size := sb.nlog
  outstanding := 0
  committing := false
  ncommit := 0
  lh := []

/-- One pass of the loop of `begin_op`: `none` where the caller sleeps on the log. -/
def beginOp (log : Log) : Option Log :=
  if log.committing then
    none
  else if log.lh.length + (log.outstanding + 1) * maxOpBlocks > logSize then
    -- this op might exhaust log space; wait for commit.
    none
  else
    some { log with outstanding := log.outstanding + 1 }

/-- `log_write`. The flag says whether the block is new to the transaction, and so pinned. -/
def logWrite (log : Log) (blockno : Nat) : Except Panic (Log × Bool) :=
  if log.lh.length ≥ logSize ∨ log.lh.length ≥ log.size - 1 then
    .error .tooBigATransaction
  else if log.outstanding < 1 then
    .error .logWriteOutsideOfTrans
  else if blockno ∈ log.lh then
    .ok (log, false)
  else
    .ok ({ log with lh := log.lh ++ [blockno] }, true)

/-- The first locked section of `end_op`. The flag is `do_commit`. -/
def endOp (log : Log) : Except Panic (Log × Bool) :=
  let log := { log with outstanding := log.outstanding - 1 }
  if log.committing then
    .error .logCommitting
  else if log.outstanding = 0 then
    .ok ({ log with committing := true }, true)
  else
    .ok (log, false)

/-- What `commit` leaves in memory: the header is empty once the blocks are installed. -/
def commit (log : Log) : Log := { log with lh := [] }

/-- The second locked section of `end_op`, after `commit`. -/
def finishCommit (log : Log) : Log :=
  { log with committing := false, ncommit := log.ncommit + 1 }

/-- What `sys_sync` finds under the lock: the number of commits to wait for, if it has to wait.
`ncommit` is an `int`, and C gives a run that overflows it no meaning. -/
def syncTarget (log : Log) : Option Nat :=
  if log.committing ∨ log.outstanding > 0 then some (log.ncommit + 1) else none

theorem beginOp_eq_some_iff {log log' : Log} :
    log.beginOp = some log' ↔ log.committing = false ∧
      log.lh.length + (log.outstanding + 1) * maxOpBlocks ≤ logSize ∧
      { log with outstanding := log.outstanding + 1 } = log' := by
  unfold beginOp
  split
  · simp_all
  · split
    · rename_i hroom
      simp [Nat.not_le.mpr hroom]
    · rename_i hcommitting hroom
      simp [hcommitting, Nat.not_lt.mp hroom]

theorem logWrite_eq_ok_iff {log log' : Log} {blockno : Nat} {fresh : Bool} :
    log.logWrite blockno = .ok (log', fresh) ↔
      log.lh.length < logSize ∧ log.lh.length < log.size - 1 ∧ 1 ≤ log.outstanding ∧
      (blockno ∈ log.lh ∧ log = log' ∧ fresh = false ∨
        blockno ∉ log.lh ∧ { log with lh := log.lh ++ [blockno] } = log' ∧ fresh = true) := by
  unfold logWrite
  split
  · rename_i hfull
    have hnot : ¬ (log.lh.length < logSize ∧ log.lh.length < log.size - 1) := by omega
    simp only [reduceCtorEq, false_iff]
    exact fun h => hnot ⟨h.1, h.2.1⟩
  · rename_i hfull
    have hroom : log.lh.length < logSize ∧ log.lh.length < log.size - 1 := by omega
    split
    · rename_i hnone
      have hnot : ¬ 1 ≤ log.outstanding := by omega
      simp [hnot]
    · rename_i hsome
      have hone : 1 ≤ log.outstanding := by omega
      split <;> rename_i hmem <;> simp [hroom, hone, hmem, eq_comm]

theorem logWrite_eq_tooBig_iff {log : Log} {blockno : Nat} :
    log.logWrite blockno = .error .tooBigATransaction ↔
      logSize ≤ log.lh.length ∨ log.size - 1 ≤ log.lh.length := by
  unfold logWrite
  split
  · simp_all
  · split
    · simp_all
    · split <;> simp_all

theorem endOp_eq_ok_iff {log log' : Log} {doCommit : Bool} :
    log.endOp = .ok (log', doCommit) ↔ log.committing = false ∧
      (log.outstanding ≤ 1 ∧ { log with outstanding := 0, committing := true } = log' ∧
          doCommit = true ∨
        1 < log.outstanding ∧ { log with outstanding := log.outstanding - 1 } = log' ∧
          doCommit = false) := by
  unfold endOp
  by_cases hcommitting : log.committing = true
  · simp [hcommitting]
  · by_cases hlast : log.outstanding ≤ 1
    · have hzero : log.outstanding - 1 = 0 := by omega
      have hnot : ¬ 1 < log.outstanding := by omega
      simp [hcommitting, hlast, hzero, hnot, eq_comm]
    · have hne : log.outstanding - 1 ≠ 0 := by omega
      have hlt : 1 < log.outstanding := by omega
      simp [hcommitting, hlast, hne, hlt, eq_comm]

theorem syncTarget_eq_some_iff {log : Log} {target : Nat} :
    log.syncTarget = some target ↔
      (log.committing = true ∨ 0 < log.outstanding) ∧ log.ncommit + 1 = target := by
  simp [syncTarget]

theorem syncTarget_eq_none_iff {log : Log} :
    log.syncTarget = none ↔ log.committing = false ∧ log.outstanding = 0 := by
  simp [syncTarget]

theorem endOp_ne_tooBig (log : Log) : log.endOp ≠ .error .tooBigATransaction := by
  simp only [endOp]
  split
  · simp
  · split <;> simp

end Log

end Xv6
