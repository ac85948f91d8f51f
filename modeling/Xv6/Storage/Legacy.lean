import Mathlib.Data.Finset.Basic
import Xv6.Storage.Bcache
import Xv6.Lib.Threads

/-!
# The legacy cache and log

`bio-legacy.c`, `iderw` of `memide.c` and `log-legacy.c`, as programs over the sections that are
atomic, interleaved by any number of processes. Sectors hold a `D`; `encode` is how `write_head`
lays out the header in one.
-/

namespace Xv6.Legacy

abbrev nbuf : Nat := 10

/-- `LOGSIZE` in this configuration. -/
def logSize : Nat := 10

def rootDev : Nat := 1

/-- The flags and the data of a buffer. -/
structure Content (D : Type) where
  valid : Bool
  dirty : Bool
  data : D

instance {D : Type} [Inhabited D] : Inhabited (Content D) := ⟨⟨false, false, default⟩⟩

structure Logheader where
  n : Nat
  sector : Nat → Nat

/-- What `initlog` and `ideinit` leave fixed, and the layout of the log header. -/
structure Config (D : Type) where
  start : Nat
  size : Nat
  disksize : Nat
  encode : Logheader → D → D

def Config.InLog {D : Type} (conf : Config D) (blockno : Nat) : Prop :=
  conf.start ≤ blockno ∧ blockno < conf.start + conf.size

instance {D : Type} (conf : Config D) (blockno : Nat) : Decidable (conf.InLog blockno) :=
  inferInstanceAs (Decidable (_ ∧ _))

/-- What the processes share. `written` is for the statements: what the transaction in progress
`log_write`d last for each block. -/
structure Kernel (n : Nat) (ι D : Type) where
  cache : Bcache n ι (Content D)
  memdisk : Nat → D
  busy : Bool
  lh : Logheader
  written : Nat → Option D

inductive Op (n : Nat) (D : Type) where
  | bget (dev blockno : Nat)
  | acquiresleep (b : Fin n)
  | holdingsleep (b : Fin n)
  | releasesleep (b : Fin n)
  | unuse (b : Fin n)
  | key (b : Fin n)
  | content (b : Fin n)
  | setContent (b : Fin n) (content : Content D)
  | readSector (blockno : Nat)
  | writeSector (blockno : Nat) (data : D)
  | beginTrans
  | busy
  | lh
  | setSector (i blockno : Nat)
  | setN (n : Nat)
  /-- The last statement of `log_write`, which marks the buffer dirty. -/
  | logged (b : Fin n)
  /-- The test `commit_trans` starts with. -/
  | committing
  | endTrans
  | panic (message : String)

def Op.Resp {n : Nat} {D : Type} : Op n D → Type
  | .bget _ _ => Fin n
  | .holdingsleep _ => Bool
  | .key _ => Nat × Nat
  | .content _ => Content D
  | .readSector _ => D
  | .busy => Bool
  | .lh => Logheader
  | .committing => Logheader
  | .panic _ => Empty
  | _ => Unit

def sections (n : Nat) (D : Type) : Signature := ⟨Op n D, Op.Resp⟩

abbrev Code (n : Nat) (D α : Type) := Program (sections n D) α

section Code

variable {n : Nat} {D : Type}

def perform (op : Op n D) : Code n D op.Resp := Program.call (op : (sections n D).Op) .ret

def bget (dev blockno : Nat) : Code n D (Fin n) :=
  perform (.bget dev blockno)

def acquiresleep (b : Fin n) : Code n D Unit := perform (.acquiresleep b)

def holdingsleep (b : Fin n) : Code n D Bool := perform (.holdingsleep b)

def releasesleep (b : Fin n) : Code n D Unit := perform (.releasesleep b)

/-- The part of `brelse` under `bcache.lock`. -/
def unuse (b : Fin n) : Code n D Unit := perform (.unuse b)

def key (b : Fin n) : Code n D (Nat × Nat) := perform (.key b)

def content (b : Fin n) : Code n D (Content D) := perform (.content b)

def setContent (b : Fin n) (content : Content D) : Code n D Unit :=
  perform (.setContent b content)

def readSector (blockno : Nat) : Code n D D := perform (.readSector blockno)

def writeSector (blockno : Nat) (data : D) : Code n D Unit :=
  perform (.writeSector blockno data)

def beginTrans : Code n D Unit := perform .beginTrans

def busy : Code n D Bool := perform .busy

def lh : Code n D Logheader := perform .lh

def setSector (i blockno : Nat) : Code n D Unit :=
  perform (.setSector i blockno)

def setN (count : Nat) : Code n D Unit := perform (.setN count)

def logged (b : Fin n) : Code n D Unit := perform (.logged b)

def committing : Code n D Logheader := perform .committing

def endTrans : Code n D Unit := perform .endTrans

def panic {α : Type} (message : String) : Code n D α :=
  Program.call (Op.panic message : (sections n D).Op) fun never => nomatch (never : Empty)

def panicIf (bad : Prop) [Decidable bad] (message : String) : Code n D Unit :=
  Program.when bad (panic message)

/-- Sync buf with disk. -/
def iderw (conf : Config D) (b : Fin n) : Code n D Unit := do
  let holding ← holdingsleep b
  panicIf (!holding) "iderw: buf not busy"
  let content ← content b
  panicIf (content.valid && !content.dirty) "iderw: nothing to do"
  let key ← key b
  panicIf (key.1 ≠ 1) "iderw: request not for disk 1"
  panicIf (key.2 ≥ conf.disksize) "iderw: sector out of range"
  if content.dirty then
    writeSector key.2 content.data
    setContent b ⟨true, false, content.data⟩
  else
    let data ← readSector key.2
    setContent b ⟨true, false, data⟩

def bread (conf : Config D) (dev blockno : Nat) : Code n D (Fin n) := do
  let b ← bget dev blockno
  acquiresleep b
  let content ← content b
  Program.when (!content.valid) (iderw conf b)
  pure b

def bwrite (conf : Config D) (b : Fin n) : Code n D Unit := do
  let holding ← holdingsleep b
  panicIf (!holding) "bwrite"
  let content ← content b
  setContent b { content with dirty := true }
  iderw conf b

def brelse (b : Fin n) : Code n D Unit := do
  let holding ← holdingsleep b
  panicIf (!holding) "brelse"
  releasesleep b
  unuse b

/-- `memmove(b->data, data, BSIZE)`. -/
def setData (b : Fin n) (data : D) : Code n D Unit := do
  let content ← content b
  setContent b { content with data }

def writeHead (conf : Config D) : Code n D Unit := do
  let buf ← bread conf rootDev conf.start
  let lh ← lh
  let content ← content buf
  setData buf (conf.encode lh content.data)
  bwrite conf buf
  brelse buf

def installTrans (conf : Config D) (lh : Logheader) : Code n D Unit :=
  (List.range lh.n).forM fun tail => do
    let lbuf ← bread conf rootDev (conf.start + tail + 1)
    let dbuf ← bread conf rootDev (lh.sector tail)
    let log ← content lbuf
    setData dbuf log.data
    bwrite conf dbuf
    brelse lbuf
    brelse dbuf

def commitTrans (conf : Config D) : Code n D Unit := do
  let lh ← committing
  Program.when (lh.n > 0) do
    writeHead conf
    installTrans conf lh
    setN 0
    writeHead conf
  endTrans

/-- The loop of `log_write`: the slot that has the block already, or the next free one. -/
def Logheader.slot (lh : Logheader) (blockno : Nat) : Nat :=
  ((List.range lh.n).find? fun i => lh.sector i = blockno).getD lh.n

def logWrite (conf : Config D) (b : Fin n) : Code n D Unit := do
  let lh ← lh
  panicIf (lh.n ≥ logSize ∨ lh.n ≥ conf.size - 1) "too big a transaction"
  let busy ← busy
  panicIf (!busy) "write outside of trans"
  let key ← key b
  let i := lh.slot key.2
  setSector i key.2
  let lbuf ← bread conf key.1 (conf.start + i + 1)
  let content ← content b
  setData lbuf content.data
  bwrite conf lbuf
  brelse lbuf
  Program.when (i = lh.n) (setN (lh.n + 1))
  logged b

end Code

section Handler

variable {n : Nat} {ι D : Type} [DecidableEq ι]

/-- What each section does. A process that has to wait or has panicked does not take it. -/
def handler : Handler (sections n D) (Kernel n ι D) ι
  | _, kernel, .bget dev blockno, _ =>
      (kernel.cache.bget (fun content => { content with valid := false, dirty := false })
        dev blockno).map fun result => (result.1, { kernel with cache := result.2 })
  | who, kernel, .acquiresleep b, _ =>
      (kernel.cache.acquiresleep who b).map fun cache => ((), { kernel with cache })
  | who, kernel, .holdingsleep b, _ => some (kernel.cache.holdingsleep who b, kernel)
  | _, kernel, .releasesleep b, _ =>
      some ((), { kernel with cache := kernel.cache.releasesleep b })
  | _, kernel, .unuse b, _ => some ((), { kernel with cache := kernel.cache.brelse b })
  | _, kernel, .key b, _ => some ((kernel.cache.buf b).key, kernel)
  | _, kernel, .content b, _ => some ((kernel.cache.buf b).content, kernel)
  | _, kernel, .setContent b content, _ =>
      some ((), { kernel with cache := kernel.cache.setBuf b { kernel.cache.buf b with content } })
  | _, kernel, .readSector blockno, _ => some (kernel.memdisk blockno, kernel)
  | _, kernel, .writeSector blockno data, _ =>
      some ((), { kernel with memdisk := Function.update kernel.memdisk blockno data })
  | _, kernel, .beginTrans, _ =>
      if kernel.busy then none else some ((), { kernel with busy := true })
  | _, kernel, .busy, _ => some (kernel.busy, kernel)
  | _, kernel, .lh, _ => some (kernel.lh, kernel)
  | _, kernel, .setSector i blockno, _ =>
      some ((), { kernel with
        lh := { kernel.lh with sector := Function.update kernel.lh.sector i blockno } })
  | _, kernel, .setN n, _ => some ((), { kernel with lh := { kernel.lh with n } })
  | _, kernel, .logged b, _ =>
      let buf := kernel.cache.buf b
      some ((), { kernel with
        cache := kernel.cache.setBuf b { buf with content := { buf.content with dirty := true } }
        written := Function.update kernel.written buf.blockno (some buf.content.data) })
  | _, kernel, .committing, _ => some (kernel.lh, { kernel with written := fun _ => none })
  | _, kernel, .endTrans, _ => some ((), { kernel with busy := false })
  | _, _, .panic _, _ => none

end Handler

/-- What a process knows between two calls: the buffers it has from `bread`, those it has changed
since it last logged them, and whether it is in a transaction. -/
structure Local (n : Nat) where
  held : Finset (Fin n)
  modified : Finset (Fin n)
  inTrans : Bool

inductive Call (n : Nat) (D : Type) where
  | beginTrans
  | bread (blockno : Nat)
  | modify (b : Fin n) (data : D)
  | logWrite (b : Fin n)
  | brelse (b : Fin n)
  | commitTrans

/-- The calls the file system makes: `bread` of a sector outside the log, and in a transaction
`modify` and then `log_write` before `brelse`. -/
def menu {n : Nat} {D : Type} (conf : Config D) (value : Local n) :
    Call n D → Option (Code n D (Local n))
  | .beginTrans =>
      if value.inTrans then none
      else some do
        beginTrans
        pure { value with inTrans := true }
  | .bread blockno =>
      if conf.InLog blockno then none
      else some do
        let b ← bread conf rootDev blockno
        pure { value with held := insert b value.held }
  | .modify b data =>
      if value.inTrans ∧ b ∈ value.held then some do
        setData b data
        pure { value with modified := insert b value.modified }
      else none
  | .logWrite b =>
      if value.inTrans ∧ b ∈ value.held then some do
        logWrite conf b
        pure { value with modified := value.modified.erase b }
      else none
  | .brelse b =>
      if b ∈ value.held ∧ b ∉ value.modified then some do
        brelse b
        pure { value with held := value.held.erase b }
      else none
  | .commitTrans =>
      if value.inTrans ∧ value.modified = ∅ then some do
        commitTrans conf
        pure { value with inTrans := false }
      else none

/-- The processes over the cache and the log. -/
def system {n : Nat} {ι D : Type} [DecidableEq ι] (conf : Config D) :
    Threads.System (sections n D) (Kernel n ι D) ι (Local n) (Call n D) Empty where
  handler := handler
  menu := fun _ call value => menu conf value call
  environment := fun _ event => nomatch event

/-- Every process between calls, with nothing in hand. -/
def boot {n : Nat} {ι D : Type} (kernel : Kernel n ι D) :
    Threads (sections n D) (Kernel n ι D) ι (Local n) where
  shared := kernel
  thread := fun _ => .ret ⟨∅, ∅, false⟩

end Xv6.Legacy
