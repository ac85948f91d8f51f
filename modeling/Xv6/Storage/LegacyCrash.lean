import Xv6.Storage.Crash
import Xv6.Storage.Legacy

/-!
# Crashes and the recovery of the legacy log

The legacy cache and log once more, with `initlog`, and with crashes between any two sections. A
crash keeps the sectors of the disk. The first process recovers the log, and the processes run
system calls after that.
-/

namespace Xv6.Legacy.Recovery

/-- Where the log is, how its header is laid out, and the size of the disk. -/
structure Disk (D : Type) where
  log : Kernel.Config D
  disksize : Nat

def entries (lh : Logheader) : List Nat := (List.range lh.n).map lh.sector

def Disk.conf {D : Type} (disk : Disk D) : Config D where
  start := disk.log.start
  size := disk.log.size
  disksize := disk.disksize
  encode lh data := disk.log.header.encode (entries lh) data

/-- `current` and `committed` are for the statements: what the transaction in progress has logged,
and what the transactions did whose header has reached the disk. -/
structure State (n : Nat) (ι D : Type) where
  kernel : Kernel n ι D
  current : List (Nat × D)
  committed : List (List (Nat × D))

section Programs

variable {n : Nat} {D : Type}

def readHead (disk : Disk D) : Code n D Unit := do
  let buf ← bread disk.conf rootDev disk.log.start
  let content ← content buf
  let lh := disk.log.header.decode content.data
  setN lh.length
  (List.range lh.length).forM fun i => setSector i (lh.getD i 0)
  brelse buf

def recoverFromLog (disk : Disk D) : Code n D Unit := do
  readHead disk
  let lh ← lh
  installTrans disk.conf lh
  setN 0
  writeHead disk.conf

end Programs

section Handler

variable {n : Nat} {ι D : Type} [DecidableEq ι]

def note (disk : Disk D) (state : State n ι D) (kernel : Kernel n ι D) : Op n D → State n ι D
  | .beginTrans => { state with kernel, current := [] }
  | .logged b =>
      let buf := state.kernel.cache.buf b
      { state with kernel, current := state.current ++ [(buf.blockno, buf.content.data)] }
  | .writeSector blockno data =>
      if blockno = disk.log.start ∧ disk.log.header.decode data ≠ [] then
        ⟨kernel, [], state.committed ++ [state.current]⟩
      else { state with kernel }
  | _ => { state with kernel }

def handler (disk : Disk D) : Handler (sections n D) (State n ι D) ι :=
  fun who state op choice => (Legacy.handler who state.kernel op choice).map fun result =>
    (result.1, note disk state result.2 op)

end Handler

def WellTyped {n : Nat} {D : Type} : Call n D → Prop
  | .bread blockno => blockno < 2 ^ 32
  | _ => True

instance {n : Nat} {D : Type} : (call : Call n D) → Decidable (WellTyped call)
  | .bread blockno => inferInstanceAs (Decidable (blockno < 2 ^ 32))
  | .beginTrans | .modify _ _ | .logWrite _ | .brelse _ | .commitTrans => isTrue trivial

/-- The calls of a process that runs; `none` is a process that does not run yet. -/
def menu {n : Nat} {D : Type} (disk : Disk D) (value : Option (Local n)) (call : Call n D) :
    Option (Code n D (Option (Local n))) :=
  value.bind fun value =>
    if WellTyped call then
      (Legacy.menu disk.conf value call).map fun program => do
        let value ← program
        pure (some value)
    else none

/-- What happens from outside. -/
inductive Event (ι : Type) where
  /-- The machine stops between two sections, and starts again. -/
  | crash
  /-- A process starts to run: the first one when it has recovered the log, the others when they
  are forked. -/
  | run (who : ι)

section System

variable {n : Nat} {ι D : Type} [DecidableEq ι] [Inhabited D]

/-- Memory after a reset, and the disk. -/
def boot (disk : Disk D) (first : ι) (memdisk : Nat → D) (committed : List (List (Nat × D))) :
    Threads (sections n D) (State n ι D) ι (Option (Local n)) where
  shared := ⟨⟨.binit, memdisk, false, ⟨0, fun _ => 0⟩, fun _ => none⟩, [], committed⟩
  thread who := do
    Program.when (who = first) (recoverFromLog disk)
    pure none

def environment (disk : Disk D) (first : ι)
    (world : Threads (sections n D) (State n ι D) ι (Option (Local n))) :
    Event ι → Option (Threads (sections n D) (State n ι D) ι (Option (Local n)))
  | .crash => some (boot disk first world.shared.kernel.memdisk world.shared.committed)
  | .run who =>
      match world.thread first, world.thread who with
      | .ret _, .ret none => some { world with
          thread := Function.update world.thread who (.ret (some ⟨∅, ∅, false⟩)) }
      | _, _ => none

def system (disk : Disk D) (first : ι) :
    Threads.System (sections n D) (State n ι D) ι (Option (Local n)) (Call n D) (Event ι) where
  handler := handler disk
  menu := fun _ call value => menu disk value call
  environment := environment disk first

end System

end Xv6.Legacy.Recovery
