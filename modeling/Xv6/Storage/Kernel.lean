import Xv6.Log.Log
import Xv6.Storage.Bcache
import Xv6.Lib.Bytes
import Xv6.Lib.Threads

/-!
# The block cache and the log, running

`bio.c` with its data and `log.c`, as programs over the sections that are atomic, interleaved by any
number of processes. The state also holds what the processes copy from, their user pages, and two
histories for the statements: what the group in progress has logged, and the groups whose header has
reached the disk.
-/

namespace Xv6.Kernel

/-- `log.dev`, the device all file system blocks are on. -/
def rootDev : Nat := 1

/-- The valid flag and the data of a buffer. -/
structure Content (D : Type) where
  valid : Bool
  data : D

instance {D : Type} [Inhabited D] : Inhabited (Content D) := ⟨⟨false, default⟩⟩

/-- How a block holds a `struct logheader`: what `write_head` puts there, `read_head` finds. -/
structure HeaderLayout (D : Type) where
  encode : List Nat → D → D
  decode : D → List Nat
  decode_encode : ∀ lh data, lh.length ≤ logSize → (∀ blockno ∈ lh, blockno < 2 ^ 32) →
    decode (encode lh data) = lh

/-- `struct logheader`: the count `n`, then `block[]`, all four bytes wide. -/
def logheader : HeaderLayout Bytes where
  encode lh data := Bytes.setUints 4 (Bytes.setUint 4 data 0 lh.length) 4 lh
  decode data := Bytes.uints 4 data 4 (Bytes.uint 4 data 0)
  decode_encode lh data hlength hlh := by
    have hcount : lh.length < 256 ^ 4 := lt_of_le_of_lt hlength (by decide)
    rw [Bytes.uint_setUints_of_disjoint lh (Or.inl (Nat.le_refl _)),
      Bytes.uint_setUint_self hcount]
    exact Bytes.uints_setUints_self hlh

/-- Where the log is, from the superblock, and how its header is laid out. -/
structure Config (D : Type) where
  start : Nat
  size : Nat
  size_pos : 0 < size
  header : HeaderLayout D

def smallConf : Config Bytes := ⟨2, 10, by decide, logheader⟩

def Config.InLog {D : Type} (conf : Config D) (blockno : Nat) : Prop :=
  conf.start ≤ blockno ∧ blockno < conf.start + conf.size

instance {D : Type} (conf : Config D) (blockno : Nat) : Decidable (conf.InLog blockno) :=
  inferInstanceAs (Decidable (_ ∧ _))

def Config.Home {D : Type} (conf : Config D) (blockno : Nat) : Prop :=
  ¬conf.InLog blockno ∧ blockno < 2 ^ 32

instance {D : Type} (conf : Config D) (blockno : Nat) : Decidable (conf.Home blockno) :=
  inferInstanceAs (Decidable (_ ∧ _))

/-- What the processes share. -/
structure State (n : Nat) (ι D : Type) where
  cache : Bcache n ι (Content D)
  disk : Nat → D
  log : Log
  /-- The user pages of each process, by page number. -/
  user : ι → Nat → Option (Nat → UInt8)
  /-- `fsinit` has returned. -/
  up : Bool
  /-- What the group in progress has logged, in order. -/
  current : List (Nat × D)
  /-- The groups whose header has reached the disk, in order. -/
  committed : List (List (Nat × D))

inductive Op (n : Nat) (D : Type) where
  | bget (dev blockno : Nat)
  | acquiresleep (b : Fin n)
  | holdingsleep (b : Fin n)
  | releasesleep (b : Fin n)
  /-- The part of `brelse` under `bcache.lock`. -/
  | unuse (b : Fin n)
  | key (b : Fin n)
  | content (b : Fin n)
  | setData (b : Fin n) (data : D)
  /-- `arch_disk_rw(b, 0); b->valid = 1`. -/
  | diskRead (b : Fin n)
  /-- `arch_disk_rw(b, 1)`. -/
  | diskWrite (b : Fin n)
  | bunpin (b : Fin n)
  | beginOp
  | logWrite (b : Fin n)
  /-- The first locked section of `end_op`. -/
  | endOp
  /-- The second. -/
  | finishCommit
  /-- `sys_sync`, up to its loop. -/
  | syncTarget
  /-- The pass of the loop of `sys_sync` that finds `log.ncommit` where it waited for it. -/
  | syncWait (target : Nat)
  | lh
  | setLh (lh : List Nat)
  | copyin (src len : Nat)
  | copyout (dst : Nat) (bytes : List UInt8)
  /-- `fsinit` returns. -/
  | up
  /-- A process other than the first exists only once `fsinit` has returned. -/
  | forked
  | panic (message : String)

def Op.Resp {n : Nat} {D : Type} : Op n D → Type
  | .bget _ _ => Fin n
  | .holdingsleep _ => Bool
  | .key _ => Nat × Nat
  | .content _ => Content D
  | .endOp => Bool
  | .syncTarget => Option Nat
  | .lh => List Nat
  | .copyin _ _ => List UInt8 × Bool
  | .copyout _ _ => Bool
  | .panic _ => Empty
  | _ => Unit

/-- The sections of `bio.c` and `log.c`. -/
def sections (n : Nat) (D : Type) : Signature := ⟨Op n D, Op.Resp⟩

abbrev Code (n : Nat) (D α : Type) := Program (sections n D) α

def pgsize : Nat := 4096

/-- `arch_copyin`, for a user source: the bytes it copies, page by page, and whether it got to the
end. The fuel is the number of bytes, as every round copies at least one. -/
def archCopyin (pages : Nat → Option (Nat → UInt8)) : Nat → Nat → Nat → List UInt8 × Bool
  | 0, _, len => ([], len = 0)
  | fuel + 1, srcva, len =>
      if len = 0 then ([], true)
      else
        match pages (srcva / pgsize) with
        | none => ([], false)
        | some page =>
            let count := min (pgsize - srcva % pgsize) len
            let rest := archCopyin pages fuel ((srcva / pgsize + 1) * pgsize) (len - count)
            ((List.range count).map (fun i => page (srcva % pgsize + i)) ++ rest.1, rest.2)

/-- `arch_copyout`, for a user destination: the pages with the bytes it copies, and whether it got to
the end. -/
def archCopyout : Nat → (Nat → Option (Nat → UInt8)) → Nat → List UInt8 →
    (Nat → Option (Nat → UInt8)) × Bool
  | 0, pages, _, bytes => (pages, bytes.isEmpty)
  | fuel + 1, pages, dstva, bytes =>
      if bytes.isEmpty then (pages, true)
      else
        match pages (dstva / pgsize) with
        | none => (pages, false)
        | some page =>
            let count := min (pgsize - dstva % pgsize) bytes.length
            let page := fun i =>
              if dstva % pgsize ≤ i ∧ i < dstva % pgsize + count then
                bytes.getD (i - dstva % pgsize) 0
              else page i
            archCopyout fuel (Function.update pages (dstva / pgsize) (some page))
              ((dstva / pgsize + 1) * pgsize) (bytes.drop count)

section Code

variable {n : Nat} {D : Type}

def perform (op : Op n D) : Code n D op.Resp := Program.call (op : (sections n D).Op) .ret

def bget (dev blockno : Nat) : Code n D (Fin n) := perform (.bget dev blockno)

def acquiresleep (b : Fin n) : Code n D Unit := perform (.acquiresleep b)

def holdingsleep (b : Fin n) : Code n D Bool := perform (.holdingsleep b)

def releasesleep (b : Fin n) : Code n D Unit := perform (.releasesleep b)

def unuse (b : Fin n) : Code n D Unit := perform (.unuse b)

def key (b : Fin n) : Code n D (Nat × Nat) := perform (.key b)

def content (b : Fin n) : Code n D (Content D) := perform (.content b)

def setData (b : Fin n) (data : D) : Code n D Unit := perform (.setData b data)

def diskRead (b : Fin n) : Code n D Unit := perform (.diskRead b)

def diskWrite (b : Fin n) : Code n D Unit := perform (.diskWrite b)

def bunpin (b : Fin n) : Code n D Unit := perform (.bunpin b)

def beginOp : Code n D Unit := perform .beginOp

def logWrite (b : Fin n) : Code n D Unit := perform (.logWrite b)

def lockedEndOp : Code n D Bool := perform .endOp

def finishCommit : Code n D Unit := perform .finishCommit

def syncTarget : Code n D (Option Nat) := perform .syncTarget

def syncWait (target : Nat) : Code n D Unit := perform (.syncWait target)

def lh : Code n D (List Nat) := perform .lh

def setLh (lh : List Nat) : Code n D Unit := perform (.setLh lh)

def copyin (src len : Nat) : Code n D (List UInt8 × Bool) := perform (.copyin src len)

def copyout (dst : Nat) (bytes : List UInt8) : Code n D Bool := perform (.copyout dst bytes)

def up : Code n D Unit := perform .up

def forked : Code n D Unit := perform .forked

def panic {α : Type} (message : String) : Code n D α :=
  Program.call (Op.panic message : (sections n D).Op) fun never => nomatch (never : Empty)

def panicIf (bad : Prop) [Decidable bad] (message : String) : Code n D Unit :=
  Program.when bad (panic message)

/-! ### `bio.c` -/

def bread (dev blockno : Nat) : Code n D (Fin n) := do
  let b ← bget dev blockno
  acquiresleep b
  let content ← content b
  Program.when (!content.valid) (diskRead b)
  pure b

def bwrite (b : Fin n) : Code n D Unit := do
  let holding ← holdingsleep b
  panicIf (!holding) "bwrite"
  diskWrite b

def brelse (b : Fin n) : Code n D Unit := do
  let holding ← holdingsleep b
  panicIf (!holding) "brelse"
  releasesleep b
  unuse b

/-! ### `log.c` -/

variable (conf : Config D)

/-- Copy committed blocks from log to their home location, from entry `tail` on. -/
def installTransFrom (recovering : Bool) : Nat → List Nat → Code n D Unit
  | _, [] => pure ()
  | tail, blockno :: rest => do
      let lbuf ← bread rootDev (conf.start + tail + 1)
      let dbuf ← bread rootDev blockno
      let log ← content lbuf
      setData dbuf log.data
      bwrite dbuf
      Program.when (!recovering) (bunpin dbuf)
      brelse lbuf
      brelse dbuf
      installTransFrom recovering (tail + 1) rest

def installTrans (recovering : Bool) : Code n D Unit := do
  let lh ← lh
  installTransFrom conf recovering 0 lh

def readHead : Code n D Unit := do
  let buf ← bread rootDev conf.start
  let content ← content buf
  setLh (conf.header.decode content.data)
  brelse buf

def writeHead : Code n D Unit := do
  let buf ← bread rootDev conf.start
  let content ← content buf
  let lh ← lh
  setData buf (conf.header.encode lh content.data)
  bwrite buf
  brelse buf

def recoverFromLog : Code n D Unit := do
  readHead conf
  installTrans conf true
  setLh []
  writeHead conf

/-- Copy modified blocks from cache to log, from entry `tail` on. -/
def writeLogFrom : Nat → List Nat → Code n D Unit
  | _, [] => pure ()
  | tail, blockno :: rest => do
      let «to» ← bread rootDev (conf.start + tail + 1)
      let «from» ← bread rootDev blockno
      let cached ← content «from»
      setData «to» cached.data
      bwrite «to»
      brelse «from»
      brelse «to»
      writeLogFrom (tail + 1) rest

def writeLog : Code n D Unit := do
  let lh ← lh
  writeLogFrom conf 0 lh

def commit : Code n D Unit := do
  let header ← lh
  Program.when (header.length > 0) do
    writeLog conf
    writeHead conf
    installTrans conf false
    setLh []
    writeHead conf

def endOp : Code n D Unit := do
  let doCommit ← lockedEndOp
  Program.when (doCommit = true) do
    commit conf
    finishCommit

def sysSync : Code n D Unit := do
  let target ← syncTarget
  match target with
  | none => pure ()
  | some target => syncWait target

/-- `fsinit`: read the superblock and recover the log. -/
def fsinit : Code n D Unit := do
  let sb ← bread rootDev 1
  brelse sb
  recoverFromLog conf
  up

end Code

section Handler

variable {n : Nat} {ι D : Type} [DecidableEq ι]

def State.writeBlock (conf : Config D) (state : State n ι D) (blockno : Nat) (data : D) :
    State n ι D :=
  if blockno = conf.start ∧ conf.header.decode data ≠ [] then
    { state with
      disk := Function.update state.disk blockno data
      current := []
      committed := state.committed ++ [state.current] }
  else
    { state with disk := Function.update state.disk blockno data }

/-- What each section does. A process that has to wait or has panicked does not take it. -/
def handler (conf : Config D) : Handler (sections n D) (State n ι D) ι
  | _, state, .bget dev blockno, _ =>
      (state.cache.bget (fun content => { content with valid := false }) dev blockno).map
        fun result => (result.1, { state with cache := result.2 })
  | who, state, .acquiresleep b, _ =>
      (state.cache.acquiresleep who b).map fun cache => ((), { state with cache })
  | who, state, .holdingsleep b, _ => some (state.cache.holdingsleep who b, state)
  | _, state, .releasesleep b, _ => some ((), { state with cache := state.cache.releasesleep b })
  | _, state, .unuse b, _ => some ((), { state with cache := state.cache.brelse b })
  | _, state, .key b, _ => some ((state.cache.buf b).key, state)
  | _, state, .content b, _ => some ((state.cache.buf b).content, state)
  | _, state, .setData b data, _ =>
      let buf := state.cache.buf b
      some ((), { state with
        cache := state.cache.setBuf b { buf with content := { buf.content with data } } })
  | _, state, .diskRead b, _ =>
      let buf := state.cache.buf b
      some ((), { state with
        cache := state.cache.setBuf b { buf with content := ⟨true, state.disk buf.blockno⟩ } })
  | _, state, .diskWrite b, _ =>
      let buf := state.cache.buf b
      some ((), state.writeBlock conf buf.blockno buf.content.data)
  | _, state, .bunpin b, _ => some ((), { state with cache := state.cache.bunpin b })
  | _, state, .beginOp, _ => state.log.beginOp.map fun log => ((), { state with log })
  | _, state, .logWrite b, _ =>
      let buf := state.cache.buf b
      match state.log.logWrite buf.blockno with
      | .error _ => none
      | .ok (log, fresh) => some ((), { state with
          cache := if fresh then state.cache.bpin b else state.cache
          log
          current := state.current ++ [(buf.blockno, buf.content.data)] })
  | _, state, .endOp, _ =>
      match state.log.endOp with
      | .error _ => none
      | .ok (log, doCommit) => some (doCommit, { state with log })
  | _, state, .finishCommit, _ => some ((), { state with log := state.log.finishCommit })
  | _, state, .syncTarget, _ => some (state.log.syncTarget, state)
  | _, state, .syncWait target, _ => if state.log.ncommit < target then none else some ((), state)
  | _, state, .lh, _ => some (state.log.lh, state)
  | _, state, .setLh lh, _ => some ((), { state with log := { state.log with lh } })
  | who, state, .copyin src len, _ => some (archCopyin (state.user who) len src len, state)
  | who, state, .copyout dst bytes, _ =>
      let result := archCopyout bytes.length (state.user who) dst bytes
      some (result.2, { state with user := Function.update state.user who result.1 })
  | _, state, .up, _ => some ((), { state with up := true })
  | _, state, .forked, _ => if state.up then some ((), state) else none
  | _, _, .panic _, _ => none

end Handler

end Xv6.Kernel
