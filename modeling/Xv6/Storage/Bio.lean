import Mathlib.Data.Finset.Basic
import Xv6.Storage.Bcache
import Xv6.Lib.Transition

/-!
# The buffer cache

`bio.c` and any number of processes using it. The machine interleaves the sections of its functions
that hold a lock; the data of the buffers plays no part here, and their content is the valid flag.
-/

namespace Xv6.Bio

/-- The rest of `bread` once `bget` returns: `arch_disk_rw` fills a buffer that is not valid. -/
def fill {n : Nat} {ι : Type} (cache : Bcache n ι Bool) (b : Fin n) : Bcache n ι Bool :=
  if (cache.buf b).content then cache
  else cache.setBuf b { cache.buf b with content := true }

/-- Where a process is inside the functions of the cache. -/
inductive Pc (n : Nat) where
  | idle
  /-- In `bget`, past `bcache.lock`, before `acquiresleep` returns. -/
  | waiting (b : Fin n)
  /-- In `bread`, holding the sleep-lock. -/
  | reading (b : Fin n)
  /-- In `brelse`, past `releasesleep`, before `bcache.lock`. -/
  | releasing (b : Fin n)
  deriving DecidableEq

structure Proc (n : Nat) where
  pc : Pc n
  /-- The buffers `bread` has returned and `brelse` has not been called on. -/
  held : Finset (Fin n)

/-- How often a process is counted in the `refcnt` of a buffer. -/
def Proc.uses {n : Nat} (proc : Proc n) (b : Fin n) : Nat :=
  (if proc.pc = .waiting b ∨ proc.pc = .reading b ∨ proc.pc = .releasing b then 1 else 0) +
    (if b ∈ proc.held then 1 else 0)

/-- The cache, the processes, and what the statements about a history need: the pins of each buffer
not undone yet, and when each was last released, in ticks of a clock that counts releases. -/
structure State (n : Nat) (ι : Type) where
  cache : Bcache n ι Bool
  proc : ι → Proc n
  pins : Fin n → Nat
  clock : Nat
  released : Fin n → Nat

inductive Action (n : Nat) (ι : Type) where
  | bget (who : ι) (dev blockno : Nat)
  | acquiresleep (who : ι)
  | bread (who : ι)
  | bwrite (who : ι) (b : Fin n)
  | releasesleep (who : ι) (b : Fin n)
  | brelse (who : ι)
  | bpin (who : ι) (b : Fin n)
  | bunpin (who : ι) (b : Fin n)

variable {n : Nat} {ι : Type} [DecidableEq ι]

def start : State n ι where
  cache := .binit
  proc := fun _ => ⟨.idle, ∅⟩
  pins := fun _ => 0
  clock := 0
  released := fun _ => 0

def State.setProc (state : State n ι) (who : ι) (pc : Pc n) (held : Finset (Fin n)) : State n ι :=
  { state with proc := Function.update state.proc who ⟨pc, held⟩ }

@[simp]
theorem setProc_proc_self (state : State n ι) (who : ι) (pc : Pc n) (held : Finset (Fin n)) :
    (state.setProc who pc held).proc who = ⟨pc, held⟩ := Function.update_self ..

@[simp]
theorem setProc_proc_of_ne (state : State n ι) {who other : ι} (pc : Pc n)
    (held : Finset (Fin n)) (hne : other ≠ who) :
    (state.setProc who pc held).proc other = state.proc other := Function.update_of_ne hne ..

/-- One atomic section of one process. A section that would panic is not a step. -/
def step (state : State n ι) : Action n ι → Option (State n ι)
  | .bget who dev blockno =>
      if (state.proc who).pc = .idle then
        (state.cache.bget (fun _ => false) dev blockno).map fun result =>
          { state.setProc who (.waiting result.1) (state.proc who).held with cache := result.2 }
      else none
  | .acquiresleep who =>
      match (state.proc who).pc with
      | .waiting b => (state.cache.acquiresleep who b).map fun cache =>
          { state.setProc who (.reading b) (state.proc who).held with cache }
      | _ => none
  | .bread who =>
      match (state.proc who).pc with
      | .reading b => some
          { state.setProc who .idle (insert b (state.proc who).held) with
            cache := fill state.cache b }
      | _ => none
  | .bwrite who b =>
      if (state.proc who).pc = .idle ∧ b ∈ (state.proc who).held ∧
          state.cache.holdingsleep who b then
        some state
      else none
  | .releasesleep who b =>
      if (state.proc who).pc = .idle ∧ b ∈ (state.proc who).held ∧
          state.cache.holdingsleep who b then
        some { state.setProc who (.releasing b) ((state.proc who).held.erase b) with
          cache := state.cache.releasesleep b }
      else none
  | .brelse who =>
      match (state.proc who).pc with
      | .releasing b => some
          { state.setProc who .idle (state.proc who).held with
            cache := state.cache.brelse b
            clock := state.clock + 1
            released := Function.update state.released b (state.clock + 1) }
      | _ => none
  | .bpin who b =>
      if (state.proc who).pc = .idle ∧ b ∈ (state.proc who).held then
        some { state with
          cache := state.cache.bpin b
          pins := Function.update state.pins b (state.pins b + 1) }
      else none
  | .bunpin who b =>
      if (state.proc who).pc = .idle ∧ b ∈ (state.proc who).held ∧ 0 < state.pins b then
        some { state with
          cache := state.cache.bunpin b
          pins := Function.update state.pins b (state.pins b - 1) }
      else none

end Xv6.Bio
