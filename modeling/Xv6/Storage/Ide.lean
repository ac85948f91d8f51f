import Xv6.Lib.LinkedQueue
import Xv6.Storage.BioSteps

/-!
# The IDE driver under the buffer cache

`ide.c` is used through `bread` and `bwrite` by any number of processes. A section under `idelock` is one step; the
drive works in between, and raises one interrupt for each command that it has finished. The cache is that of
`Bio`, whose content of a buffer is `B_VALID` here.
-/

namespace Xv6.Ide

def fssize : Nat := 2000

/-- `BSIZE / SECTOR_SIZE`. -/
def sectorPerBlock : Nat := 1

/-- What `idestart` writes to the registers of the drive, and then the data of a write. -/
structure Command (D : Type) where
  /-- `0x1f3`, `0x1f4` and `0x1f5`. -/
  sector0 : Nat
  sector1 : Nat
  sector2 : Nat
  /-- `0x1f6`. -/
  select : Nat
  write : Option D

def Command.sector {D : Type} (cmd : Command D) : Nat :=
  cmd.sector0 + 256 * cmd.sector1 + 65536 * cmd.sector2 + 16777216 * (cmd.select % 16)

def Command.unit {D : Type} (cmd : Command D) : Nat := cmd.select / 16 % 2

/-- The drive. When it has finished it has raised its interrupt, and holds its status and what a read has read. -/
inductive Drive (D : Type) where
  | idle
  | busy (cmd : Command D)
  | finished (cmd : Command D) (err : Bool) (read : D)

/-- Where a process is inside `iderw`: `number` tells the calls of `iderw` apart. -/
inductive Call (n : Nat) where
  | idle
  | iderw (b : Fin n) (number : Nat) (asleep : Bool)
  deriving DecidableEq

/-- The cache, the queue, and the drives; and what the statements are about: the buffers passed to `iderw`, those
whose interrupt has been handled, the status that it had, and whether a buffer has the contents of its block since. -/
structure State (n : Nat) (ι D : Type) where
  bio : Bio.State n ι
  /-- `B_DIRTY`. -/
  dirty : Fin n → Bool
  data : Fin n → D
  /-- `idequeue`, and `qnext`. -/
  queue : LinkedQueue (Fin n)
  call : ι → Call n
  drive : Drive D
  disk : Nat → Nat → D
  queued : List (Fin n)
  served : List (Fin n)
  error : Fin n → Bool
  synced : Fin n → Bool

inductive Action (n : Nat) (ι D : Type) where
  /-- A section of the cache that does not use the disk. -/
  | cache (action : Bio.Action n ι)
  | bread (who : ι)
  | bwrite (who : ι) (b : Fin n)
  /-- The process changes the data of a buffer that it holds. -/
  | modify (who : ι) (b : Fin n) (data : D)
  /-- The loop of `iderw` goes on after `sleep`. -/
  | resume (who : ι)
  /-- `kill` makes a sleeping process runnable. -/
  | kill (who : ι)
  /-- The drive finishes; after an error a block that it was to write has any contents. -/
  | finish (err : Option D)
  | ideintr

variable {n : Nat} {ι D : Type} [DecidableEq ι]

namespace State

/-- `(flags & (B_VALID|B_DIRTY)) == B_VALID`. -/
def Done (s : State n ι D) (b : Fin n) : Prop := (s.bio.cache.buf b).content = true ∧ s.dirty b = false

instance (s : State n ι D) (b : Fin n) : Decidable (s.Done b) := inferInstanceAs (Decidable (_ ∧ _))

def setCall (s : State n ι D) (who : ι) (call : Call n) : State n ι D :=
  { s with call := Function.update s.call who call }

def setDisk (s : State n ι D) (unit sector : Nat) (data : D) : State n ι D :=
  { s with disk := Function.update s.disk unit (Function.update (s.disk unit) sector data) }

/-- What `idestart` makes the drive do. -/
def command (s : State n ι D) (b : Fin n) : Command D :=
  let buf := s.bio.cache.buf b
  let sector := buf.blockno * sectorPerBlock
  { sector0 := sector % 256
    sector1 := sector / 256 % 256
    sector2 := sector / 65536 % 256
    select := 224 + buf.dev % 2 * 16 + sector / 16777216 % 16
    write := if s.dirty b then some (s.data b) else none }

/-- `idestart`. While the drive is busy `idewait` does not return, and a block out of range is a panic. -/
def idestart (s : State n ι D) (b : Fin n) : Option (State n ι D) :=
  if (s.bio.cache.buf b).blockno ≥ fssize then none
  else
    match s.drive with
    | .busy _ => none
    | _ => some { s with drive := .busy (s.command b) }

/-- The test of the loop in `iderw`: return, or sleep. `bread` returns with `iderw`. -/
def wait (s : State n ι D) (who : ι) (b : Fin n) (number : Nat) : Option (State n ι D) :=
  if s.Done b then
    let s := s.setCall who .idle
    match (s.bio.proc who).pc with
    | .reading _ => (Bio.step s.bio (.bread who)).map fun bio => { s with bio }
    | _ => some s
  else some (s.setCall who (.iderw b number true))

/-- `iderw`, up to its first `sleep`. A panic is no step. -/
def iderw (havedisk1 : Bool) (s : State n ι D) (who : ι) (b : Fin n) : Option (State n ι D) :=
  if s.bio.cache.holdingsleep who b = false ∨ s.Done b ∨ (s.bio.cache.buf b).dev ≠ 0 ∧ havedisk1 = false then none
  else
    (s.queue.append n b).bind fun queue =>
      let s := { s with queue, queued := s.queued ++ [b], synced := Function.update s.synced b false }
      (if queue.head = some b then s.idestart b else some s).bind fun s => s.wait who b (s.queued.length - 1)

def wakeup (s : State n ι D) (b : Fin n) (who : ι) : Call n :=
  match s.call who with
  | .iderw b' number asleep => .iderw b' number (if b' = b then false else asleep)
  | .idle => .idle

/-- The request for the first buffer is done: `ideintr` up to where it starts the next one. -/
def complete (s : State n ι D) (b : Fin n) (err : Bool) (read : D) : State n ι D :=
  { s with
    bio := { s.bio with cache := s.bio.cache.setBuf b { s.bio.cache.buf b with content := true } }
    data := if s.dirty b = false ∧ err = false then Function.update s.data b read else s.data
    queue := { s.queue with head := s.queue.next b }
    dirty := Function.update s.dirty b false
    call := s.wakeup b
    drive := .idle
    served := s.served ++ [b]
    error := Function.update s.error b err
    synced := Function.update s.synced b (!err) }

/-- `ideintr`, for a drive that has finished. -/
def ideintr (s : State n ι D) (err : Bool) (read : D) : Option (State n ι D) :=
  match s.queue.head with
  | none => some { s with drive := .idle }
  | some b =>
      let s := s.complete b err read
      match s.queue.head with
      | none => some s
      | some next => s.idestart next

end State

/-- The section of the cache is one that only uses the cache, by a process outside `iderw`. -/
def Outside (s : State n ι D) : Bio.Action n ι → Prop
  -- There are two drives.
  | .bget who dev _ => s.call who = .idle ∧ dev < 2
  | .acquiresleep who | .brelse who => s.call who = .idle
  | .releasesleep who _ | .bpin who _ | .bunpin who _ => s.call who = .idle
  | .bread _ | .bwrite _ _ => False

instance (s : State n ι D) (action : Bio.Action n ι) : Decidable (Outside s action) := by
  cases action <;> unfold Outside <;> infer_instance

/-- The buffer that a section of the cache recycles: `bget` clears its flags. -/
def recycled (s : State n ι D) : Bio.Action n ι → Option (Fin n)
  | .bget _ dev blockno => if (s.bio.cache.cached dev blockno).isSome then none else s.bio.cache.unused
  | _ => none

def step (havedisk1 : Bool) (s : State n ι D) : Action n ι D → Option (State n ι D)
  | .cache action =>
      if Outside s action then
        (Bio.step s.bio action).map fun bio =>
          match recycled s action with
          | none => { s with bio }
          | some b => { s with
              bio
              dirty := Function.update s.dirty b false
              synced := Function.update s.synced b false }
      else none
  | .bread who =>
      match s.call who, (s.bio.proc who).pc with
      | .idle, .reading b =>
          if (s.bio.cache.buf b).content then (Bio.step s.bio (.bread who)).map fun bio => { s with bio }
          else s.iderw havedisk1 who b
      | _, _ => none
  | .bwrite who b =>
      if s.call who = .idle ∧ (Bio.step s.bio (.bwrite who b)).isSome then
        State.iderw havedisk1 { s with dirty := Function.update s.dirty b true } who b
      else none
  | .modify who b data =>
      if s.call who = .idle ∧ (s.bio.proc who).pc = .idle ∧ b ∈ (s.bio.proc who).held then
        some { s with data := Function.update s.data b data, synced := Function.update s.synced b false }
      else none
  | .resume who =>
      match s.call who with
      | .iderw b number false => s.wait who b number
      | _ => none
  | .kill who =>
      match s.call who with
      | .iderw b number true => some (s.setCall who (.iderw b number false))
      | _ => none
  | .finish err =>
      match s.drive with
      | .busy cmd =>
          let s := { s with drive := .finished cmd err.isSome (s.disk cmd.unit cmd.sector) }
          match cmd.write with
          | none => some s
          | some data => some (s.setDisk cmd.unit cmd.sector (err.getD data))
      | _ => none
  | .ideintr =>
      match s.drive with
      | .finished _ err read => s.ideintr err read
      | _ => none

/-- The kernel as it boots, with what is on the disks. -/
def start (zero : D) (disk : Nat → Nat → D) : State n ι D where
  bio := Bio.start
  dirty _ := false
  data _ := zero
  queue := ⟨none, fun _ => none⟩
  call _ := .idle
  drive := .idle
  disk := disk
  queued := []
  served := []
  error _ := false
  synced _ := false

end Xv6.Ide
