import Xv6.Lib.CircularBuffer
import Xv6.Lib.Threads

/-!
# The virtio disk

`virtio_disk_rw` and `virtio_disk_intr` of the arm64 kernel, with the device. The driver and the device share
the descriptors and two rings: the driver puts the first descriptor of a request into `avail`, and the device
puts it into `used` when it has done the request. The driver works under `vdisk_lock`, and the device at any
time; each step of either that the other can see is a step here.
-/

namespace Xv6.Virtio

def num : Nat := 8

instance : NeZero num := ⟨by decide⟩

def descFNext : Nat := 1

def descFWrite : Nat := 2

def blkTIn : Nat := 0

def blkTOut : Nat := 1

def bsize : Nat := 1024

inductive Addr (β : Type) where
  | null
  | ops (i : Nat)
  | data (b : β)
  | status (i : Nat)
  deriving DecidableEq

structure VirtqDesc (β : Type) where
  addr : Addr β
  len : Nat
  flags : Nat
  next : Nat

structure VirtioBlkReq where
  type : Nat
  reserved : Nat
  sector : Nat

structure Info (β : Type) where
  b : Option β
  status : Nat

structure Buf (D : Type) where
  /-- Does the disk own the buffer? -/
  disk : Bool
  blockno : Nat
  data : D

/-- `disk`. A ring is kept with the two indices into it: of `avail` the device keeps how far it has come, and of
`used` the driver does, in `used_idx`. -/
structure Disk (β : Type) where
  desc : Nat → VirtqDesc β
  avail : CircularBuffer 16 num Nat
  used : CircularBuffer 16 num Nat
  free : Nat → Bool
  info : Nat → Info β
  ops : Nat → VirtioBlkReq

/-- A request that the device has read. -/
structure Request (β : Type) where
  head : Nat
  write : Bool
  sector : Nat
  b : β
  status : Nat
  /-- The data was moved. -/
  moved : Bool

/-- The channels. -/
inductive Chan (β : Type) where
  /-- `&disk.free[0]` -/
  | free
  | buf (b : β)
  deriving DecidableEq

/-- A call of `virtio_disk_rw`, for the statements: the data of the buffer at its start, and the data that was
moved for it. -/
structure Request.Call (β D : Type) where
  b : β
  write : Bool
  sector : Nat
  before : D
  moved : Option D

/-- What was moved between the disk and a buffer, and for whom. -/
structure Entry (ι D : Type) where
  who : ι
  write : Bool
  sector : Nat
  data : D

/-- What the driver and the device share. The last five are for the statements: who has locked a buffer, the
calls that go on, the descriptors that they have allocated, what the device has moved, and what calls that have
ended were to move. -/
structure State (ι β D : Type) where
  disk : Disk β
  buf : β → Buf D
  vdiskLock : Option ι
  asleep : ι → Option (Chan β)
  panicked : Option String
  /-- The requests that the device is working on. -/
  busy : List (Request β)
  /-- The device has read a request that makes no sense. -/
  broken : Bool
  platter : Nat → D
  owner : β → Option ι
  call : ι → Option (Request.Call β D)
  chain : ι → List Nat
  log : List (Entry ι D)
  returned : List (Entry ι D)

inductive Op (β : Type) where
  | acquire
  | release
  /-- `alloc_desc` -/
  | allocDesc
  /-- `free_desc` -/
  | freeDesc (i : Nat)
  /-- `disk.desc[i].flags` and `disk.desc[i].next` -/
  | readDesc (i : Nat)
  /-- Give up the lock and sleep, until woken up. -/
  | sleep (chan : Chan β)
  /-- The three descriptors are formatted, the status is set, and the buffer is recorded. -/
  | format (b : β) (write : Bool) (i j k : Nat)
  /-- `disk.avail->ring[disk.avail->idx % NUM] = i` -/
  | setAvail (i : Nat)
  /-- `disk.avail->idx += 1` -/
  | advanceAvail
  /-- `*R(VIRTIO_MMIO_QUEUE_NOTIFY) = 0` -/
  | notify
  /-- `b->disk == 1` -/
  | onDisk (b : β)
  /-- `disk.info[i].b = 0` -/
  | clearInfo (i : Nat)
  /-- The call has come to its end. -/
  | finish
  /-- `disk.used_idx != disk.used->idx` -/
  | unseen
  /-- The body of the loop of `virtio_disk_intr`. -/
  | complete
  /-- How many rounds a loop makes at most. -/
  | rounds
  /-- The loop has made its rounds. -/
  | stop

def Op.Resp {β : Type} : Op β → Type
  | .allocDesc => Option Nat
  | .readDesc _ => Nat × Nat
  | .onDisk _ | .unseen => Bool
  | .rounds => Nat
  | .stop => Empty
  | _ => Unit

def steps (β : Type) : Signature := ⟨Op β, Op.Resp⟩

abbrev Code (β α : Type) := Program (steps β) α

/-! ### The code -/

section Code

variable {β : Type}

def perform (op : Op β) : Code β op.Resp := Program.call (op : (steps β).Op) .ret

def never {α : Type} (nothing : Empty) : Code β α := nothing.elim

def stop {α : Type} : Code β α := Program.call (Op.stop : (steps β).Op) never

def freeChain : (rounds : Nat) → Nat → Code β Unit
  | 0, _ => stop
  | rounds + 1, i => do
      let (flag, nxt) : Nat × Nat ← perform (.readDesc i)
      perform (.freeDesc i)
      if flag &&& descFNext ≠ 0 then freeChain rounds nxt else pure ()

/-- The loop of `alloc3_desc`, with what it has allocated. -/
def alloc3From : (left : Nat) → List Nat → Code β (Option (List Nat))
  | 0, idx => pure (some idx)
  | left + 1, idx => do
      let i : Option Nat ← perform .allocDesc
      match i with
      | some i => alloc3From left (idx ++ [i])
      | none =>
          idx.forM fun j => perform (.freeDesc j)
          pure none

def alloc3Desc : Code β (Option (List Nat)) := alloc3From 3 []

/-- The loop of `virtio_disk_rw` that allocates the descriptors. -/
def allocate : (rounds : Nat) → Code β (List Nat)
  | 0 => stop
  | rounds + 1 => do
      let idx ← alloc3Desc
      match idx with
      | some idx => pure idx
      | none =>
          perform (.sleep .free)
          perform .acquire
          allocate rounds

/-- Wait for `virtio_disk_intr` to say request has finished. -/
def await (b : β) : (rounds : Nat) → Code β Unit
  | 0 => stop
  | rounds + 1 => do
      let onDisk : Bool ← perform (.onDisk b)
      if onDisk then
        perform (.sleep (.buf b))
        perform .acquire
        await b rounds
      else pure ()

def virtioDiskRw (b : β) (write : Bool) : Code β Unit := do
  perform .acquire
  let rounds : Nat ← perform .rounds
  let idx ← allocate rounds
  match idx with
  | [i, j, k] =>
      perform (.format b write i j k)
      perform (.setAvail i)
      perform .advanceAvail
      perform .notify
      let rounds : Nat ← perform .rounds
      await b rounds
      perform (.clearInfo i)
      let rounds : Nat ← perform .rounds
      freeChain rounds i
      perform .finish
      perform .release
  | _ => stop

/-- The loop of `virtio_disk_intr`. -/
def completeFrom : (rounds : Nat) → Code β Unit
  | 0 => stop
  | rounds + 1 => do
      let unseen : Bool ← perform .unseen
      if unseen then
        perform .complete
        completeFrom rounds
      else pure ()

def virtioDiskIntr : Code β Unit := do
  perform .acquire
  let rounds : Nat ← perform .rounds
  completeFrom rounds
  perform .release

end Code

/-! ### The steps -/

section Steps

variable {ι β D : Type} [DecidableEq ι] [DecidableEq β]

namespace Disk

def setFree (disk : Disk β) (i : Nat) (free : Bool) : Disk β :=
  { disk with free := Function.update disk.free i free }

def firstFree (disk : Disk β) : Option Nat := (List.range num).find? fun i => disk.free i

def setAvail (disk : Disk β) (i : Nat) : Disk β :=
  { disk with avail := { disk.avail with
      data := Function.update disk.avail.data (CircularBuffer.slot disk.avail.nwrite) i } }

/-- The stores of `virtio_disk_rw` between the allocation and the ring. -/
def format (disk : Disk β) (b : β) (write : Bool) (sector i j k : Nat) : Disk β :=
  { disk with
    ops := Function.update disk.ops i ⟨if write then blkTOut else blkTIn, 0, sector⟩
    desc := Function.update (Function.update (Function.update disk.desc
      i ⟨.ops i, 16, descFNext, j⟩)
      j ⟨.data b, bsize, (if write then 0 else descFWrite) ||| descFNext, k⟩)
      k ⟨.status i, 1, descFWrite, 0⟩
    info := Function.update disk.info i ⟨some b, 0xff⟩ }

/-- The device follows the chain of a request. -/
def parse (disk : Disk β) (head : Nat) : Option (Request β) :=
  let first := disk.desc head
  let second := disk.desc first.next
  let third := disk.desc second.next
  match first.addr, second.addr, third.addr with
  | .ops i, .data b, .status s =>
      let write := (disk.ops i).type = blkTOut
      if first.flags = descFNext ∧ second.flags = (if write then 0 else descFWrite) ||| descFNext ∧
          third.flags = descFWrite ∧ second.len = bsize ∧ third.len = 1 then
        some ⟨head, write, (disk.ops i).sector, b, s, false⟩
      else none
  | _, _, _ => none

end Disk

namespace State

variable (state : State ι β D)

def wakeup (chan : Chan β) : State ι β D :=
  { state with asleep := fun who => if state.asleep who = some chan then none else state.asleep who }

def setBuf (b : β) (buf : Buf D) : State ι β D := { state with buf := Function.update state.buf b buf }

def setCall (who : ι) (call : Option (Request.Call β D)) : State ι β D :=
  { state with call := Function.update state.call who call }

def setChain (who : ι) (chain : List Nat) : State ι β D :=
  { state with chain := Function.update state.chain who chain }

def allocDesc (who : ι) : Option Nat × State ι β D :=
  match state.disk.firstFree with
  | none => (none, state)
  | some i =>
      (some i, { state with disk := state.disk.setFree i false }.setChain who (state.chain who ++ [i]))

def freeDesc (who : ι) (i : Nat) : State ι β D :=
  if i ≥ num then { state with panicked := some "free_desc 1" }
  else if state.disk.free i then { state with panicked := some "free_desc 2" }
  else
    ({ state with disk := { state.disk with
        desc := Function.update state.disk.desc i ⟨.null, 0, 0, 0⟩
        free := Function.update state.disk.free i true } }.wakeup .free).setChain who
          ((state.chain who).erase i)

/-- The body of the loop of `virtio_disk_intr`. -/
def complete : State ι β D :=
  let id := state.disk.used.head
  let info := state.disk.info id
  if info.status ≠ 0 then { state with panicked := some "virtio_disk_intr status" }
  else
    match info.b with
    | none => { state with panicked := some "null" }
    | some b =>
        let done := (state.setBuf b { state.buf b with disk := false }).wakeup (.buf b)
        { done with disk := { done.disk with used := done.disk.used.advance } }

def result (who : ι) (call : Request.Call β D) : Entry ι D :=
  ⟨who, call.write, call.sector, if call.write then call.before else (state.buf call.b).data⟩

end State

/-- What each step of the driver does. -/
def act : Handler (steps β) (State ι β D) ι
  | who, state, .acquire, _ =>
      if state.vdiskLock = none then some ((), { state with vdiskLock := some who }) else none
  | _, state, .release, _ => some ((), { state with vdiskLock := none })
  | who, state, .allocDesc, _ => some (state.allocDesc who)
  | who, state, .freeDesc i, _ => some ((), state.freeDesc who i)
  | _, state, .readDesc i, _ => some (((state.disk.desc i).flags, (state.disk.desc i).next), state)
  | who, state, .sleep chan, _ =>
      some ((), { state with vdiskLock := none, asleep := Function.update state.asleep who (some chan) })
  | _, state, .format b write i j k, _ =>
      let sector := (state.buf b).blockno * (bsize / 512)
      some ((), { state.setBuf b { state.buf b with disk := true } with
        disk := state.disk.format b write sector i j k })
  | _, state, .setAvail i, _ => some ((), { state with disk := state.disk.setAvail i })
  | _, state, .advanceAvail, _ =>
      some ((), { state with disk := { state.disk with
        avail := { state.disk.avail with nwrite := state.disk.avail.nwrite + 1 } } })
  | _, state, .notify, _ => some ((), state)
  | _, state, .onDisk b, _ => some ((state.buf b).disk, state)
  | _, state, .clearInfo i, _ =>
      some ((), { state with disk := { state.disk with
        info := Function.update state.disk.info i { state.disk.info i with b := none } } })
  | who, state, .finish, _ =>
      (state.call who).map fun call => ((), { state.setCall who none with
        owner := Function.update state.owner call.b none
        returned := state.returned ++ [state.result who call] })
  | _, state, .unseen, _ => some (state.disk.used.nread != state.disk.used.nwrite, state)
  | _, state, .complete, _ => some ((), state.complete)
  | _, state, .rounds, choice => some (choice, state)
  | _, _, .stop, _ => none

/-- Nobody goes on after a panic, and nobody who sleeps does. -/
def handler : Handler (steps β) (State ι β D) ι :=
  fun who state op choice =>
    if state.panicked.isSome ∨ (state.asleep who).isSome then none else act who state op choice

/-- An interrupt, at any time. -/
inductive Call where
  | virtioDiskIntr
  deriving DecidableEq

/-- A call of `virtio_disk_rw` for a buffer that the caller has locked, what is done with a buffer in between, a
process that runs again for another reason, and the steps of the device, for one of its requests. -/
inductive Env (ι β D : Type) where
  | virtioDiskRw (who : ι) (b : β) (write : Bool)
  | use (b : β) (blockno : Nat) (data : D)
  | rouse (who : ι)
  | take
  | move (k : Nat)
  | answer (k : Nat)

abbrev World (ι β D : Type) := Threads (steps β) (State ι β D) ι Unit

def Returned (world : World ι β D) (who : ι) : Bool :=
  match world.thread who with
  | .ret _ => true
  | .call _ _ => false

namespace State

variable (state : State ι β D)

def take : Option (State ι β D) :=
  if state.disk.avail.nwrite = state.disk.avail.nread then none else
  match state.disk.parse state.disk.avail.head with
  | none => some { state with broken := true }
  | some request => some { state with
      disk := { state.disk with avail := state.disk.avail.advance }
      busy := state.busy ++ [request] }

def moved (who : ι) (data : D) : State ι β D :=
  state.setCall who ((state.call who).map fun call => { call with moved := some data })

/-- The device moves the data of a request. -/
def move (k : Nat) : Option (State ι β D) :=
  (state.busy[k]?).bind fun request =>
    if request.moved then none else
    match state.owner request.b with
    | none => some { state with broken := true }
    | some who =>
        let busy := state.busy.set k { request with moved := true }
        if request.write then
          let data := (state.buf request.b).data
          some { state.moved who data with
            busy := busy
            platter := Function.update state.platter request.sector data
            log := state.log ++ [⟨who, true, request.sector, data⟩] }
        else
          let data := state.platter request.sector
          some { (state.moved who data).setBuf request.b { state.buf request.b with data := data } with
            busy := busy
            log := state.log ++ [⟨who, false, request.sector, data⟩] }

def answer (k : Nat) : Option (State ι β D) :=
  (state.busy[k]?).bind fun request =>
    if request.moved then
      some { state with
        busy := state.busy.eraseIdx k
        disk := { state.disk with
          info := Function.update state.disk.info request.status
            { state.disk.info request.status with status := 0 }
          used := state.disk.used.put request.head } }
    else none

end State

def environment (world : World ι β D) : Env ι β D → Option (World ι β D)
  | .virtioDiskRw who b write =>
      if Returned world who ∧ world.shared.owner b = none then
        let buf := world.shared.buf b
        some ⟨{ world.shared.setCall who (some ⟨b, write, buf.blockno * (bsize / 512), buf.data, none⟩) with
            owner := Function.update world.shared.owner b (some who) },
          Function.update world.thread who (virtioDiskRw b write)⟩
      else none
  | .use b blockno data =>
      if world.shared.owner b = none then
        some { world with
          shared := world.shared.setBuf b { world.shared.buf b with blockno := blockno, data := data } }
      else none
  | .rouse who =>
      some { world with
        shared := { world.shared with asleep := Function.update world.shared.asleep who none } }
  | .take => world.shared.take.map fun shared => { world with shared := shared }
  | .move k => (world.shared.move k).map fun shared => { world with shared := shared }
  | .answer k => (world.shared.answer k).map fun shared => { world with shared := shared }

def system : Threads.System (steps β) (State ι β D) ι Unit Call (Env ι β D) where
  handler := handler
  menu _ _ _ := some virtioDiskIntr
  environment := environment

/-- After `virtio_disk_init`. -/
def boot (buf : β → Buf D) (platter : Nat → D) : World ι β D where
  shared :=
    { disk :=
        { desc := fun _ => ⟨.null, 0, 0, 0⟩, avail := .empty 0, used := .empty 0, free := fun _ => true
          info := fun _ => ⟨none, 0⟩, ops := fun _ => ⟨0, 0, 0⟩ }
      buf := buf, vdiskLock := none, asleep := fun _ => none, panicked := none, busy := [], broken := false
      platter := platter, owner := fun _ => none, call := fun _ => none, chain := fun _ => [], log := [], returned := [] }
  thread := fun _ => .ret ()

end Steps

end Xv6.Virtio
