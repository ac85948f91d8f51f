import Xv6.Fs.Content
import Xv6.Storage.LegacyCrash

/-!
# The inode cache, the file table and the process table of the legacy kernels

The tables of `fs-legacy.c`, `file-legacy.c` and `proc-legacy.c`, and what the sections under
`icache.lock`, `ftable.lock` and `ptable.lock` do to them. Each section is one definition. The kernel
has no more references than fit in an `int`, so a count is a natural number.
-/

namespace Xv6.Legacy.Fs

open Xv6.Fs (Dinode)

/-! ### The layout, with blocks of 512 bytes -/

def bsize : Nat := 512

def nindirect : Nat := bsize / 4

def maxFile : Nat := ndirect + nindirect

def ipb : Nat := bsize / dinodeSize

def bpb : Nat := bsize * 8

def iblock (sb : Superblock) (inum : Nat) : Nat := inum / ipb + sb.inodestart

def bblock (sb : Superblock) (b : Nat) : Nat := b / bpb + sb.bmapstart

def dinodeOff (inum : Nat) : Nat := inum % ipb * dinodeSize

/-- `memmove(sb, bp->data, sizeof(*sb))`. -/
def loadSuperblock (data : Bytes) : Superblock where
  size := Bytes.uint 4 data 4
  nblocks := Bytes.uint 4 data 8
  ninodes := Bytes.uint 4 data 12
  nlog := Bytes.uint 4 data 16
  logstart := Bytes.uint 4 data 20
  inodestart := Bytes.uint 4 data 24
  bmapstart := Bytes.uint 4 data 28

/-- The value of a `short` with these 16 bits. -/
def short (bits : Nat) : Int := if bits < 2 ^ 15 then bits else bits - 2 ^ 16

def tDir : Nat := 1

def tFile : Nat := 2

def tDevice : Nat := 3

def nofile : Nat := 16

def ndev : Nat := 10

def console : Nat := 1

/-- The sizes of the tables. -/
structure Limits where
  nbuf : Nat
  ninode : Nat
  nfile : Nat
  nproc : Nat

structure Inode extends Dinode where
  dev : Nat
  inum : Nat
  ref : Nat
  /-- `I_BUSY`. -/
  busy : Bool
  /-- `I_VALID`. -/
  valid : Bool

inductive FileType where
  | none
  | pipe
  | inode
  deriving DecidableEq

/-- `struct file`. The pipe a file names is left out. -/
structure File (limits : Limits) where
  type : FileType
  ref : Nat
  readable : Bool
  writable : Bool
  ip : Option (Fin limits.ninode)
  off : UInt32

inductive ProcState where
  | unused
  | embryo
  | runnable
  | zombie
  deriving DecidableEq

/-- The fields of `struct proc` that name files, inodes and processes. -/
structure Proc (limits : Limits) where
  state : ProcState
  parent : Option (Fin limits.nproc)
  ofile : Fin nofile → Option (Fin limits.nfile)
  cwd : Option (Fin limits.ninode)

/-- What the processes share. `owner` is for the statements: who is between its own `begin_trans` and
`commit_trans`. -/
structure State (limits : Limits) where
  kernel : Kernel limits.nbuf (Fin limits.nproc) Bytes
  icache : Fin limits.ninode → Inode
  ftable : Fin limits.nfile → File limits
  ptable : Fin limits.nproc → Proc limits
  owner : Option (Fin limits.nproc)

namespace State

variable {limits : Limits} (state : State limits)

/-! ### `icache` -/

def setInode (i : Fin limits.ninode) (ip : Inode) : State limits :=
  { state with icache := Function.update state.icache i ip }

def iget (dev inum : Nat) : Option (Fin limits.ninode × State limits) :=
  let entries := List.finRange limits.ninode
  let cached := entries.find? fun i =>
    decide ((state.icache i).ref > 0 ∧ (state.icache i).dev = dev ∧ (state.icache i).inum = inum)
  let empty := entries.find? fun i => decide ((state.icache i).ref = 0)
  match cached, empty with
  | some i, _ => some (i, state.setInode i { state.icache i with ref := (state.icache i).ref + 1 })
  | none, some i => some (i, state.setInode i
      { state.icache i with dev, inum, ref := 1, busy := false, valid := false })
  | none, none => none

def idup (i : Fin limits.ninode) : State limits :=
  state.setInode i { state.icache i with ref := (state.icache i).ref + 1 }

/-- The section of `ilock`. A process waits while the inode is busy. -/
def ilock (i : Fin limits.ninode) : Option (State limits) :=
  if (state.icache i).busy then none
  else some (state.setInode i { state.icache i with busy := true })

def iunlock (i : Fin limits.ninode) : State limits :=
  state.setInode i { state.icache i with busy := false }

def Last (i : Fin limits.ninode) : Prop :=
  (state.icache i).ref = 1 ∧ (state.icache i).valid = true ∧ (state.icache i).nlink = 0

instance (i : Fin limits.ninode) : Decidable (state.Last i) := inferInstanceAs (Decidable (_ ∧ _))

/-- What the first section of `iput` finds. -/
inductive Iput where
  /-- The reference is dropped. -/
  | dropped
  /-- The inode is to be freed. -/
  | last
  /-- It panics with "iput busy". -/
  | busy
  deriving DecidableEq

def iput (i : Fin limits.ninode) : Iput × State limits :=
  if state.Last i then
    if (state.icache i).busy then (.busy, state)
    else (.last, state.setInode i { state.icache i with busy := true })
  else (.dropped, state.setInode i { state.icache i with ref := (state.icache i).ref - 1 })

/-- The second section of `iput`. -/
def ifreed (i : Fin limits.ninode) : State limits :=
  state.setInode i { state.icache i with
    busy := false, valid := false, ref := (state.icache i).ref - 1 }

/-! ### `ftable` -/

def updateFile (f : Fin limits.nfile) (change : File limits → File limits) : State limits :=
  { state with ftable := Function.update state.ftable f (change (state.ftable f)) }

def filealloc : Option (Fin limits.nfile) × State limits :=
  let free := (List.finRange limits.nfile).find? fun f => decide ((state.ftable f).ref = 0)
  (free, free.elim state fun f => state.updateFile f fun file => { file with ref := 1 })

def filedup (f : Fin limits.nfile) : State limits :=
  state.updateFile f fun file => { file with ref := file.ref + 1 }

/-- The section of `fileclose` after its test: what the file was, if that was its last reference. -/
def fileclose (f : Fin limits.nfile) : Option (File limits) × State limits :=
  if (state.ftable f).ref > 1 then
    (none, state.updateFile f fun file => { file with ref := file.ref - 1 })
  else
    (some (state.ftable f), state.updateFile f fun file => { file with ref := 0, type := .none })

/-! ### `ptable` -/

def updateProc (p : Fin limits.nproc) (change : Proc limits → Proc limits) : State limits :=
  { state with ptable := Function.update state.ptable p (change (state.ptable p)) }

/-- The part of `allocproc` under the lock: an unused process becomes an embryo. -/
def allocproc : Option (Fin limits.nproc) × State limits :=
  let unused := (List.finRange limits.nproc).find? fun p =>
    decide ((state.ptable p).state = .unused)
  (unused, unused.elim state fun p => state.updateProc p fun proc => { proc with state := .embryo })

/-- The last section of `exit`, where `initproc` is the first process. -/
def exited (initproc who : Fin limits.nproc) : State limits :=
  let reparented : Fin limits.nproc → Proc limits := fun p =>
    if (state.ptable p).parent = some who then { state.ptable p with parent := some initproc }
    else state.ptable p
  { state with
    ptable := Function.update reparented who { reparented who with state := .zombie } }

/-- One round of `wait`: a zombie child is collected, and without children it fails. Otherwise the
process sleeps, unless it has been killed. -/
def wait (who : Fin limits.nproc) (killed : Bool) :
    Option (Option (Fin limits.nproc) × State limits) :=
  let children := (List.finRange limits.nproc).filter fun p =>
    decide ((state.ptable p).parent = some who)
  match children.find? fun p => decide ((state.ptable p).state = .zombie) with
  | some p => some (some p, state.updateProc p fun proc =>
      { proc with state := .unused, parent := none })
  | none => if children = [] ∨ killed = true then some (none, state) else none

end State

end Xv6.Legacy.Fs
