import Xv6.Fs.LegacyTables

/-!
# The legacy file system

The functions of `fs-legacy.c`, as programs over the sections of the buffer cache, the log and the
inode cache. A locked inode is read and changed in the inode cache itself, as in the source. Where a
test decides whether a block is allocated or an inode freed, it is a section of its own.
-/

namespace Xv6.Legacy.Fs

open Xv6.Fs (Dinode indirect)

inductive Op (limits : Limits) where
  /-- A section of the buffer cache or the log. -/
  | storage (op : Legacy.Op limits.nbuf Bytes)
  /-- A call of `log_write`. -/
  | logWrite (b : Fin limits.nbuf)
  | iget (dev inum : Nat)
  | idup (i : Fin limits.ninode)
  | ilock (i : Fin limits.ninode)
  | iunlock (i : Fin limits.ninode)
  | iput (i : Fin limits.ninode)
  | ifreed (i : Fin limits.ninode)
  | inode (i : Fin limits.ninode)
  | setDinode (i : Fin limits.ninode) (dip : Dinode)
  | setValid (i : Fin limits.ninode)
  /-- `bmap` reads an entry of `ip->addrs`. -/
  | addr (i : Fin limits.ninode) (k : Fin (ndirect + 1))
  /-- `bmap` reads an entry of the indirect block. -/
  | entry (b : Fin limits.nbuf) (bn : Nat)
  /-- `sys_open` tests whether it truncates a regular file. -/
  | truncates (i : Fin limits.ninode)
  | filealloc
  | filedup (f : Fin limits.nfile)
  | fileclose (f : Fin limits.nfile)
  | file (f : Fin limits.nfile)
  | updateFile (f : Fin limits.nfile) (change : File limits → File limits)
  /-- A process enters the kernel, which one that does not run cannot. -/
  | trap
  | self
  | proc (p : Fin limits.nproc)
  | updateProc (p : Fin limits.nproc) (change : Proc limits → Proc limits)
  | allocproc
  | exited
  | wait
  /-- What depends on memory, a device or a pipe, which are left out. -/
  | outside

def Op.Resp {limits : Limits} : Op limits → Type
  | .storage op => op.Resp
  | .iget _ _ => Option (Fin limits.ninode)
  | .iput _ => State.Iput
  | .inode _ => Inode
  | .addr _ _ => Nat
  | .entry _ _ => Nat
  | .truncates _ => Bool
  | .filealloc => Option (Fin limits.nfile)
  | .filedup _ => Bool
  | .fileclose _ => Option (Option (File limits))
  | .file _ => File limits
  | .self => Fin limits.nproc
  | .proc _ => Proc limits
  | .allocproc => Option (Fin limits.nproc)
  | .wait => Option (Fin limits.nproc)
  | .outside => Nat
  | _ => Unit

def sections (limits : Limits) : Signature := ⟨Op limits, Op.Resp⟩

abbrev Code (limits : Limits) (α : Type) := Program (sections limits) α

/-- What stays fixed: where `initlog` has found the log, and which process `initproc` is. -/
structure Machine (limits : Limits) where
  disk : Recovery.Disk Bytes
  initproc : Fin limits.nproc

section Handler

variable {limits : Limits}

def owner (who : Fin limits.nproc) (before : Option (Fin limits.nproc)) :
    Legacy.Op limits.nbuf Bytes → Option (Fin limits.nproc)
  | .beginTrans => some who
  | .endTrans => none
  | _ => before

/-- What each section does. A process that has to wait or has panicked does not take it. -/
def handler (machine : Machine limits) :
    Handler (sections limits) (State limits) (Fin limits.nproc)
  | who, state, .storage op, choice =>
      (Legacy.handler who state.kernel op choice).map fun result =>
        (result.1, { state with kernel := result.2, owner := owner who state.owner op })
  | _, state, .logWrite _, _ => some ((), state)
  | _, state, .iget dev inum, _ =>
      some (((state.iget dev inum).map (·.1)), (state.iget dev inum).elim state (·.2))
  | _, state, .idup i, _ => some ((), state.idup i)
  | _, state, .ilock i, _ => (state.ilock i).map fun state => ((), state)
  | _, state, .iunlock i, _ => some ((), state.iunlock i)
  | _, state, .iput i, _ => some (state.iput i)
  | _, state, .ifreed i, _ => some ((), state.ifreed i)
  | _, state, .inode i, _ => some (state.icache i, state)
  | _, state, .setDinode i dip, _ =>
      some ((), state.setInode i { state.icache i with toDinode := dip })
  | _, state, .setValid i, _ => some ((), state.setInode i { state.icache i with valid := true })
  | _, state, .addr i k, _ => some ((state.icache i).addrs k, state)
  | _, state, .entry b bn, _ =>
      some (Bytes.uint 4 (state.kernel.cache.buf b).content.data (4 * bn), state)
  | _, state, .truncates i, _ => some (decide ((state.icache i).type = tFile), state)
  | _, state, .filealloc, _ => some state.filealloc
  | _, state, .filedup f, _ =>
      if (state.ftable f).ref < 1 then some (false, state) else some (true, state.filedup f)
  | _, state, .fileclose f, _ =>
      if (state.ftable f).ref < 1 then some (none, state)
      else some (some (state.fileclose f).1, (state.fileclose f).2)
  | _, state, .file f, _ => some (state.ftable f, state)
  | _, state, .updateFile f change, _ => some ((), state.updateFile f change)
  | who, state, .trap, _ => if (state.ptable who).state = .runnable then some ((), state) else none
  | who, state, .self, _ => some (who, state)
  | _, state, .proc p, _ => some (state.ptable p, state)
  | _, state, .updateProc p change, _ => some ((), state.updateProc p change)
  | _, state, .allocproc, _ => some state.allocproc
  | who, state, .exited, _ => some ((), state.exited machine.initproc who)
  | who, state, .wait, choice => state.wait who (decide (choice ≠ 0))
  | _, state, .outside, choice => some (choice, state)

end Handler

section Code

variable {limits : Limits}

def perform (op : Op limits) : Code limits op.Resp := Program.call (op : (sections limits).Op) .ret

def storage {α : Type} (program : Legacy.Code limits.nbuf Bytes α) : Code limits α :=
  program.translate fun op => perform (.storage op)

def panic {α : Type} (message : String) : Code limits α := storage (Legacy.panic message)

def panicIf (bad : Prop) [Decidable bad] (message : String) : Code limits Unit :=
  Program.when bad (panic message)

def inode (i : Fin limits.ninode) : Code limits Inode := perform (.inode i)

def addr (i : Fin limits.ninode) (k : Fin (ndirect + 1)) : Code limits Nat := perform (.addr i k)

def entry (b : Fin limits.nbuf) (bn : Nat) : Code limits Nat := perform (.entry b bn)

def self : Code limits (Fin limits.nproc) := perform .self

def proc (p : Fin limits.nproc) : Code limits (Proc limits) := perform (.proc p)

def updateProc (p : Fin limits.nproc) (change : Proc limits → Proc limits) : Code limits Unit :=
  perform (.updateProc p change)

def outside : Code limits Nat := perform .outside

def setDinode (i : Fin limits.ninode) (change : Dinode → Dinode) : Code limits Unit := do
  let ip ← inode i
  perform (.setDinode i (change ip.toDinode))

variable (machine : Machine limits)

def bread (dev blockno : Nat) : Code limits (Fin limits.nbuf) :=
  storage (Legacy.bread machine.disk.conf dev blockno)

def brelse (b : Fin limits.nbuf) : Code limits Unit := storage (Legacy.brelse b)

def data (b : Fin limits.nbuf) : Code limits Bytes := do
  let content ← storage (Legacy.content b)
  pure content.data

def modify (b : Fin limits.nbuf) (change : Bytes → Bytes) : Code limits Unit := do
  let bytes ← data b
  storage (Legacy.setData b (change bytes))

def beginTrans : Code limits Unit := storage Legacy.beginTrans

def commitTrans : Code limits Unit := storage (Legacy.commitTrans machine.disk.conf)

def logWrite (b : Fin limits.nbuf) : Code limits Unit := do
  perform (.logWrite b)
  storage (Legacy.logWrite machine.disk.conf b)

/-! ### Blocks -/

def readsb (dev : Nat) : Code limits Superblock := do
  let bp ← bread machine dev 1
  let bytes ← data bp
  brelse bp
  pure (loadSuperblock bytes)

def bzero (dev bno : Nat) : Code limits Unit := do
  let bp ← bread machine dev bno
  modify bp fun _ _ => 0
  logWrite machine bp
  brelse bp

/-- The inner loop of `balloc`: the first free block of those whose bits are in this bitmap block,
from block `b` on. -/
def freeBit (sb : Superblock) (bytes : Bytes) (b : Nat) : Option Nat :=
  (List.range (min bpb (sb.size - b))).find? fun bi => !Bytes.bit bytes bi

/-- The outer loop of `balloc`, over the first blocks of the bitmap blocks that are left. -/
def ballocFrom (dev : Nat) (sb : Superblock) : List Nat → Code limits Nat
  | [] => panic "balloc: out of blocks"
  | b :: rest => do
      let bp ← bread machine dev (bblock sb b)
      let bytes ← data bp
      match freeBit sb bytes b with
      | some bi => do
          modify bp fun bytes => Bytes.setBit bytes bi
          logWrite machine bp
          brelse bp
          bzero machine dev (b + bi)
          pure (b + bi)
      | none => do
          brelse bp
          ballocFrom dev sb rest

def balloc (dev : Nat) : Code limits Nat := do
  let sb ← readsb machine dev
  ballocFrom machine dev sb ((List.range ((sb.size + bpb - 1) / bpb)).map (· * bpb))

def bfree (dev b : Nat) : Code limits Unit := do
  let sb ← readsb machine dev
  let bp ← bread machine dev (bblock sb b)
  let bytes ← data bp
  panicIf (Bytes.bit bytes (b % bpb) = false) "freeing free block"
  modify bp fun bytes => Bytes.clearBit bytes (b % bpb)
  logWrite machine bp
  brelse bp

/-! ### Inodes -/

def iget (dev inum : Nat) : Code limits (Fin limits.ninode) := do
  let found ← igetEntry
  found.elim (panic "iget: no inodes") pure
where
  igetEntry : Code limits (Option (Fin limits.ninode)) := perform (.iget dev inum)

def idup (i : Fin limits.ninode) : Code limits Unit := perform (.idup i)

/-- The loop of `ialloc`, over the inode numbers that are left. -/
def iallocFrom (dev type : Nat) (sb : Superblock) : List Nat → Code limits (Fin limits.ninode)
  | [] => panic "ialloc: no inodes"
  | inum :: rest => do
      let bp ← bread machine dev (iblock sb inum)
      let bytes ← data bp
      if Bytes.uint 2 bytes (dinodeOff inum) = 0 then do
        -- a free inode
        modify bp fun bytes =>
          let zeroed := Bytes.store bytes (dinodeOff inum) (List.replicate dinodeSize 0)
          Bytes.setUint 2 zeroed (dinodeOff inum) type
        logWrite machine bp
        brelse bp
        iget dev inum
      else do
        brelse bp
        iallocFrom dev type sb rest

def ialloc (dev type : Nat) : Code limits (Fin limits.ninode) := do
  let sb ← readsb machine dev
  iallocFrom machine dev type sb (List.range' 1 (sb.ninodes - 1))

def iupdate (i : Fin limits.ninode) : Code limits Unit := do
  let ip ← inode i
  let sb ← readsb machine ip.dev
  let bp ← bread machine ip.dev (iblock sb ip.inum)
  modify bp fun bytes => ip.toDinode.store bytes (dinodeOff ip.inum)
  logWrite machine bp
  brelse bp

/-- Lock the given inode. Reads the inode from disk if necessary. -/
def ilock (i : Fin limits.ninode) : Code limits Unit := do
  let ip ← inode i
  panicIf (ip.ref < 1) "ilock"
  perform (.ilock i)
  let ip ← inode i
  Program.when (ip.valid = false) do
    let sb ← readsb machine ip.dev
    let bp ← bread machine ip.dev (iblock sb ip.inum)
    let bytes ← data bp
    let dip := Dinode.load bytes (dinodeOff ip.inum)
    setDinode i fun _ => dip
    brelse bp
    perform (.setValid i)
    panicIf (dip.type = 0) "ilock: no type"

def iunlock (i : Fin limits.ninode) : Code limits Unit := do
  let ip ← inode i
  panicIf (ip.busy = false ∨ ip.ref < 1) "iunlock"
  perform (.iunlock i)

/-- The first loop of `itrunc`. -/
def itruncDirect (i : Fin limits.ninode) : List (Fin ndirect) → Code limits Unit
  | [] => pure ()
  | k :: rest => do
      let ip ← inode i
      Program.when (ip.addrs k.castSucc ≠ 0) do
        bfree machine ip.dev (ip.addrs k.castSucc)
        setDinode i fun dip => { dip with addrs := Function.update dip.addrs k.castSucc 0 }
      itruncDirect i rest

def itruncIndirect (dev : Nat) : List Nat → Code limits Unit
  | [] => pure ()
  | addr :: rest => do
      Program.when (addr ≠ 0) (bfree machine dev addr)
      itruncIndirect dev rest

/-- Truncate inode (discard contents). -/
def itrunc (i : Fin limits.ninode) : Code limits Unit := do
  itruncDirect machine i (List.finRange ndirect)
  let ip ← inode i
  Program.when (ip.addrs indirect ≠ 0) do
    let bp ← bread machine ip.dev (ip.addrs indirect)
    let bytes ← data bp
    itruncIndirect machine ip.dev (Bytes.uints 4 bytes 0 nindirect)
    brelse bp
    bfree machine ip.dev (ip.addrs indirect)
    setDinode i fun dip => { dip with addrs := Function.update dip.addrs indirect 0 }
  setDinode i fun dip => { dip with size := 0 }
  iupdate machine i

/-- Drop a reference to an in-memory inode. If that was the last reference and the inode has no links
to it, free the inode (and its content) on disk. -/
def iput (i : Fin limits.ninode) : Code limits Unit := do
  let found ← drop
  match found with
  | .dropped => pure ()
  | .busy => panic "iput busy"
  | .last => do
      itrunc machine i
      setDinode i fun dip => { dip with type := 0 }
      iupdate machine i
      perform (.ifreed i)
where
  drop : Code limits State.Iput := perform (.iput i)

def iunlockput (i : Fin limits.ninode) : Code limits Unit := do
  iunlock i
  iput machine i

/-! ### Inode content -/

/-- Return the disk block address of the nth block in inode ip. If there is no such block, bmap
allocates one. -/
def bmap (i : Fin limits.ninode) (bn : Nat) : Code limits Nat :=
  if h : bn < ndirect then
    slot ⟨bn, Nat.lt_succ_of_lt h⟩
  else if bn - ndirect < nindirect then do
    let block ← slot indirect
    let ip ← inode i
    let bp ← bread machine ip.dev block
    let addr ← entry bp (bn - ndirect)
    if addr = 0 then do
      let addr ← balloc machine ip.dev
      modify bp fun bytes => Bytes.setUint 4 bytes (4 * (bn - ndirect)) addr
      logWrite machine bp
      brelse bp
      pure addr
    else do
      brelse bp
      pure addr
  else
    panic "bmap: out of range"
where
  /-- The address in an entry of `ip->addrs`, allocating if necessary. -/
  slot (k : Fin (ndirect + 1)) : Code limits Nat := do
    let addr ← addr i k
    if addr = 0 then do
      let ip ← inode i
      let addr ← balloc machine ip.dev
      setDinode i fun dip => { dip with addrs := Function.update dip.addrs k addr }
      pure addr
    else
      pure addr

/-- The loop of `readi`. It ends with the bytes copied; the fuel is the number of bytes left, as every
round copies at least one. -/
def readiFrom (i : Fin limits.ninode) (count : Nat) :
    Nat → Nat → Nat → List UInt8 → Code limits (List UInt8)
  | 0, _, _, copied => pure copied
  | fuel + 1, off, tot, copied =>
      if tot < count then do
        let ip ← inode i
        let addr ← bmap machine i (off / bsize)
        let bp ← bread machine ip.dev addr
        let m := min (count - tot) (bsize - off % bsize)
        let bytes ← data bp
        brelse bp
        readiFrom i count fuel (off + m) (tot + m) (copied ++ Bytes.load bytes (off % bsize) m)
      else
        pure copied

def bytesOf (count value : Nat) : List UInt8 :=
  (List.range count).map fun k => UInt8.ofNat (value / 256 ^ k)

/-- `consoleread`, which gives up the lock meanwhile: the characters, or -1 if it is killed. -/
def consoleread (i : Fin limits.ninode) (count : Nat) : Code limits (Int × List UInt8) := do
  iunlock i
  let killed ← outside
  let length ← outside
  let input ← outside
  ilock machine i
  if killed ≠ 0 then
    pure (-1, [])
  else
    pure ((min length count : Nat), bytesOf (min length count) input)

def consolewrite (i : Fin limits.ninode) (count : Nat) : Code limits Int := do
  iunlock i
  ilock machine i
  pure count

def HasDriver (ip : Inode) : Prop := 0 ≤ short ip.major ∧ short ip.major < ndev ∧ ip.major = console

instance (ip : Inode) : Decidable (HasDriver ip) := inferInstanceAs (Decidable (_ ∧ _))

def readi (i : Fin limits.ninode) (off count : UInt32) : Code limits (Int × List UInt8) := do
  let ip ← inode i
  if ip.type = tDevice then
    if HasDriver ip then consoleread machine i count.toNat else pure (-1, [])
  else if off.toNat > ip.size ∨ off + count < off then
    pure (-1, [])
  else do
    let count := if (off + count).toNat > ip.size then ip.size - off.toNat else count.toNat
    let copied ← readiFrom machine i count count off.toNat 0 []
    pure ((count : Int), copied)

/-- The loop of `writei`. It ends with `off`. -/
def writeiFrom (i : Fin limits.ninode) (src : Nat → UInt8) (count : Nat) :
    Nat → Nat → Nat → Code limits Nat
  | 0, off, _ => pure off
  | fuel + 1, off, tot =>
      if tot < count then do
        let ip ← inode i
        let addr ← bmap machine i (off / bsize)
        let bp ← bread machine ip.dev addr
        let m := min (count - tot) (bsize - off % bsize)
        modify bp fun bytes =>
          Bytes.store bytes (off % bsize) ((List.range m).map fun k => src (tot + k))
        logWrite machine bp
        brelse bp
        writeiFrom i src count fuel (off + m) (tot + m)
      else
        pure off

/-- Write data to inode. -/
def writei (i : Fin limits.ninode) (src : Nat → UInt8) (off count : UInt32) :
    Code limits Int := do
  let ip ← inode i
  if ip.type = tDevice then
    if HasDriver ip then consolewrite machine i count.toNat else pure (-1)
  else if off.toNat > ip.size ∨ off + count < off then
    pure (-1)
  else if (off + count).toNat > maxFile * bsize then
    pure (-1)
  else do
    let off ← writeiFrom machine i src count.toNat count.toNat off.toNat 0
    let ip ← inode i
    Program.when (count ≠ 0 ∧ off > ip.size) do
      setDinode i fun dip => { dip with size := off }
      iupdate machine i
    pure (count.toNat : Int)

/-! ### Directories -/

/-- The name of a directory entry or a path element: at most `DIRSIZ` characters. -/
abbrev Name := List UInt8

def dirsiz : Nat := 14

/-- `sizeof(struct dirent)`. -/
def direntSize : Nat := 16

structure Dirent where
  inum : Nat
  name : Name

def Dirent.load (bytes : List UInt8) : Dirent where
  inum := Bytes.uint 2 (fun i => bytes.getD i 0) 0
  name := ((bytes.drop 2).take dirsiz).takeWhile (· ≠ 0)

/-- The bytes of a directory entry, the name padded as `strncpy` does. -/
def Dirent.bytes (de : Dirent) : Bytes := fun i =>
  if i < 2 then Bytes.setUint 2 (fun _ => 0) 0 de.inum i else de.name.getD (i - 2) 0

def readDirent (dp : Fin limits.ninode) (off : Nat) (message : String) : Code limits Dirent := do
  let (result, bytes) ← readi machine dp (UInt32.ofNat off) (UInt32.ofNat direntSize)
  panicIf (result ≠ direntSize) message
  pure (Dirent.load bytes)

def offsets (size : Nat) : List Nat :=
  (List.range ((size + direntSize - 1) / direntSize)).map (· * direntSize)

/-- The loop of `dirlookup`. -/
def dirlookupFrom (dp : Fin limits.ninode) (name : Name) :
    List Nat → Code limits (Option (Nat × Nat))
  | [] => pure none
  | off :: rest => do
      let de ← readDirent machine dp off "dirlink read"
      if de.inum ≠ 0 ∧ de.name = name then
        pure (some (off, de.inum))
      else
        dirlookupFrom dp name rest

def dirlookup (dp : Fin limits.ninode) (name : Name) :
    Code limits (Option (Nat × Fin limits.ninode)) := do
  let ip ← inode dp
  panicIf (ip.type ≠ tDir) "dirlookup not DIR"
  let found ← dirlookupFrom machine dp name (offsets ip.size)
  match found with
  | none => pure none
  | some (off, inum) => do
      let i ← iget ip.dev inum
      pure (some (off, i))

/-- The second loop of `dirlink`: the offset of an empty entry, or the end. -/
def emptyFrom (dp : Fin limits.ninode) (size : Nat) : List Nat → Code limits Nat
  | [] => pure ((size + direntSize - 1) / direntSize * direntSize)
  | off :: rest => do
      let de ← readDirent machine dp off "dirlink read"
      if de.inum = 0 then pure off else emptyFrom dp size rest

/-- Write a new directory entry (name, inum) into the directory dp. -/
def dirlink (dp : Fin limits.ninode) (name : Name) (inum : Nat) : Code limits Int := do
  let found ← dirlookup machine dp name
  match found with
  | some (_, ip) => do
      iput machine ip
      pure (-1)
  | none => do
      let ip ← inode dp
      let off ← emptyFrom machine dp ip.size (offsets ip.size)
      let de : Dirent := ⟨inum, name⟩
      let result ← writei machine dp de.bytes (UInt32.ofNat off) (UInt32.ofNat direntSize)
      panicIf (result ≠ direntSize) "dirlink"
      pure 0

/-! ### Paths -/

abbrev Path := List UInt8

/-- The character `/`. -/
def slash : UInt8 := 47

def skipelem (path : Path) : Option (Name × Path) :=
  let path := path.dropWhile (· = slash)
  if path = [] then none
  else
    let rest := path.dropWhile (· ≠ slash)
    some ((path.takeWhile (· ≠ slash)).take dirsiz, rest.dropWhile (· = slash))

/-- The loop of `namex`. The fuel is the length of the path: every element takes at least one
character. -/
def namexFrom (parent : Bool) : Nat → Fin limits.ninode → Path → Name →
    Code limits (Option (Fin limits.ninode × Name))
  | 0, ip, _, name => stop ip name
  | fuel + 1, ip, path, name =>
      match skipelem path with
      | none => stop ip name
      | some (name, rest) => do
          ilock machine ip
          let entry ← inode ip
          if entry.type ≠ tDir then do
            iunlockput machine ip
            pure none
          else if parent = true ∧ rest = [] then do
            -- Stop one level early.
            iunlock ip
            pure (some (ip, name))
          else do
            let next ← dirlookup machine ip name
            iunlockput machine ip
            match next with
            | none => pure none
            | some (_, next) => namexFrom parent fuel next rest name
where
  /-- What `namex` does at the end of the path. -/
  stop (ip : Fin limits.ninode) (name : Name) : Code limits (Option (Fin limits.ninode × Name)) :=
    if parent then do
      iput machine ip
      pure none
    else
      pure (some (ip, name))

/-- Look up and return the inode for a path name, or for the parent and the final path element. -/
def namex (parent : Bool) (path : Path) : Code limits (Option (Fin limits.ninode × Name)) := do
  let ip ← start
  namexFrom machine parent path.length ip path []
where
  start : Code limits (Fin limits.ninode) :=
    if path.head? = some slash then
      iget rootDev rootIno
    else do
      let curproc ← self
      let proc ← proc curproc
      proc.cwd.elim (panic "idup") fun cwd => do
        idup cwd
        pure cwd

def namei (path : Path) : Code limits (Option (Fin limits.ninode)) := do
  let found ← namex machine false path
  pure (found.map (·.1))

def nameiparent (path : Path) : Code limits (Option (Fin limits.ninode × Name)) :=
  namex machine true path

end Code

end Xv6.Legacy.Fs
