import Mathlib.Data.List.FinRange
import Xv6.Fs.Content
import Xv6.Lib.Transition

/-!
# Inodes on i386

The functions of the i386 `fs.c` about inodes. The inodes on disk, the free map and the blocks are what reads through
the buffer cache find; a block is its words, as an indirect block is read. A function runs to its end with the lock of
its inode, and a panic is no result.
-/

namespace Xv6.Fs.I386

def bsize : Nat := 512

def nindirect : Nat := bsize / 4

def maxFile : Nat := ndirect + nindirect

/-- `struct inode`. The one device is left out. -/
structure Inode extends Dinode where
  inum : Nat
  ref : Nat
  locked : Bool
  valid : Bool

/-- The disk and the table of inodes; and, for the statements, which inode a block was allocated for. -/
structure State (n : Nat) where
  dinode : Nat → Dinode
  /-- The free map. -/
  bit : Nat → Bool
  word : Nat → Nat → Nat
  inode : Fin n → Inode
  owner : Nat → Option Nat

variable {n : Nat}

namespace State

def setInode (s : State n) (i : Fin n) (ip : Inode) : State n := { s with inode := Function.update s.inode i ip }

/-- `ip->addrs[k] = addr`. -/
def setAddr (s : State n) (i : Fin n) (k : Fin (ndirect + 1)) (addr : Nat) : State n :=
  s.setInode i { s.inode i with addrs := Function.update (s.inode i).addrs k addr }

def setWord (s : State n) (b j word : Nat) : State n :=
  { s with word := Function.update s.word b (Function.update (s.word b) j word) }

/-- `balloc`, for an inode. The block is zeroed. -/
def balloc (size : Nat) (s : State n) (inum : Nat) : Option (Nat × State n) :=
  ((List.range size).find? fun b => s.bit b = false).map fun b => (b, { s with
    bit := Function.update s.bit b true
    word := Function.update s.word b fun _ => 0
    owner := Function.update s.owner b (some inum) })

def bfree (s : State n) (b : Nat) : Option (State n) :=
  if s.bit b = false then none
  else some { s with bit := Function.update s.bit b false, owner := Function.update s.owner b none }

def iupdate (s : State n) (i : Fin n) : State n :=
  { s with dinode := Function.update s.dinode (s.inode i).inum (s.inode i).toDinode }

/-- Find the inode with number `inum` and return the in-memory copy. -/
def iget (s : State n) (inum : Nat) : Option (Fin n × State n) :=
  let cached := (List.finRange n).find? fun i => (s.inode i).ref > 0 ∧ (s.inode i).inum = inum
  let empty := (List.finRange n).find? fun i => (s.inode i).ref = 0
  match cached, empty with
  | some i, _ => some (i, s.setInode i { s.inode i with ref := (s.inode i).ref + 1 })
  | none, some i => some (i, s.setInode i { s.inode i with inum, ref := 1, valid := false })
  | none, none => none

/-- Allocate an inode, and return it referenced. -/
def ialloc (ninodes : Nat) (s : State n) (type : Nat) : Option (Fin n × State n) :=
  ((List.range ninodes).find? fun inum => 1 ≤ inum ∧ (s.dinode inum).type = 0).bind fun inum =>
    iget { s with dinode := Function.update s.dinode inum ⟨type, 0, 0, 0, 0, fun _ => 0⟩ } inum

def idup (s : State n) (i : Fin n) : State n := s.setInode i { s.inode i with ref := (s.inode i).ref + 1 }

/-- What `ilock` reads from disk. -/
def load (s : State n) (i : Fin n) : Inode :=
  { s.inode i with toDinode := s.dinode (s.inode i).inum, valid := true }

def ilock (s : State n) (i : Fin n) : Option (State n) :=
  if (s.inode i).ref < 1 ∨ (s.inode i).locked then none
  else if (s.inode i).valid then some (s.setInode i { s.inode i with locked := true })
  else if (s.load i).type = 0 then none
  else some (s.setInode i { s.load i with locked := true })

def iunlock (s : State n) (i : Fin n) : Option (State n) :=
  if (s.inode i).locked = false ∨ (s.inode i).ref < 1 then none
  else some (s.setInode i { s.inode i with locked := false })

def direct (bn : Nat) : Fin (ndirect + 1) := ⟨bn % (ndirect + 1), Nat.mod_lt bn (Nat.succ_pos ndirect)⟩

/-- The address of a block that `addrs` lists. It is allocated if there is none. -/
def listed (size : Nat) (s : State n) (i : Fin n) (k : Fin (ndirect + 1)) : Option (Nat × State n) :=
  if (s.inode i).addrs k = 0 then
    (s.balloc size (s.inode i).inum).map fun result => (result.1, result.2.setAddr i k result.1)
  else some ((s.inode i).addrs k, s)

def bmap (size : Nat) (s : State n) (i : Fin n) (bn : Nat) : Option (Nat × State n) :=
  if bn < ndirect then s.listed size i (direct bn)
  else if bn - ndirect < nindirect then
    (s.listed size i indirect).bind fun bp =>
      if bp.2.word bp.1 (bn - ndirect) = 0 then
        (bp.2.balloc size (bp.2.inode i).inum).map fun result =>
          (result.1, result.2.setWord bp.1 (bn - ndirect) result.1)
      else some (bp.2.word bp.1 (bn - ndirect), bp.2)
  else none

/-- The first loop of `itrunc`. -/
def itruncDirect (i : Fin n) : List (Fin (ndirect + 1)) → State n → Option (State n)
  | [], s => some s
  | k :: rest, s =>
      if (s.inode i).addrs k = 0 then itruncDirect i rest s
      else (s.bfree ((s.inode i).addrs k)).bind fun s => itruncDirect i rest (s.setAddr i k 0)

/-- The second loop of `itrunc`, over the words of the indirect block. -/
def itruncIndirect (bp : Nat) : List Nat → State n → Option (State n)
  | [], s => some s
  | j :: rest, s =>
      if s.word bp j = 0 then itruncIndirect bp rest s
      else (s.bfree (s.word bp j)).bind (itruncIndirect bp rest)

/-- The part of `itrunc` that is about the indirect block. -/
def itruncListed (s : State n) (i : Fin n) : Option (State n) :=
  if (s.inode i).addrs indirect = 0 then some s
  else
    (itruncIndirect ((s.inode i).addrs indirect) (List.range nindirect) s).bind fun s =>
      (s.bfree ((s.inode i).addrs indirect)).map fun s => s.setAddr i indirect 0

def itrunc (s : State n) (i : Fin n) : Option (State n) :=
  (itruncDirect i ((List.range ndirect).map direct) s).bind fun s =>
    (s.itruncListed i).map fun s => (s.setInode i { s.inode i with size := 0 }).iupdate i

def iput (s : State n) (i : Fin n) : Option (State n) :=
  if (s.inode i).ref < 1 ∨ (s.inode i).locked then none
  else
    let freed := if (s.inode i).valid ∧ (s.inode i).nlink = 0 ∧ (s.inode i).ref = 1 then
        (s.itrunc i).map fun s =>
          let s := (s.setInode i { s.inode i with type := 0 }).iupdate i
          s.setInode i { s.inode i with valid := false }
      else some s
    freed.map fun s => s.setInode i { s.inode i with ref := (s.inode i).ref - 1 }

/-- How many bytes a round of `readi` or `writei` copies. -/
def chunk (count off tot : Nat) : Nat := min (count - tot) (bsize - off % bsize)

/-- The loop of `readi`, where `copyout` says which copies succeed. -/
def readiFrom (size : Nat) (copyout : Nat → Bool) (i : Fin n) (count : Nat) :
    (rounds k off tot : Nat) → State n → Option (State n)
  | 0, _, _, _, s => some s
  | rounds + 1, k, off, tot, s =>
      if tot < count then
        (s.bmap size i (off / bsize)).bind fun mapped =>
          if copyout k = false then some mapped.2
          else readiFrom size copyout i count rounds (k + 1) (off + chunk count off tot)
            (tot + chunk count off tot) mapped.2
      else some s

def readi (size : Nat) (copyout : Nat → Bool) (s : State n) (i : Fin n) (off count : UInt32) : Option (State n) :=
  if off.toNat > (s.inode i).size ∨ off + count < off then some s
  else
    let count := if off.toNat + count.toNat > (s.inode i).size then (s.inode i).size - off.toNat else count.toNat
    readiFrom size copyout i count count 0 off.toNat 0 s

/-- The loop of `writei`: `copyin` is what a copy leaves in the block, and whether it succeeds. The result has the
offset that is reached. -/
def writeiFrom (size : Nat) (copyin : Nat → (Nat → Nat) × Bool) (i : Fin n) (count : Nat) :
    (rounds k off tot : Nat) → State n → Option (Nat × State n)
  | 0, _, off, _, s => some (off, s)
  | rounds + 1, k, off, tot, s =>
      if tot < count then
        (s.bmap size i (off / bsize)).bind fun mapped =>
          let s := { mapped.2 with word := Function.update mapped.2.word mapped.1 (copyin k).1 }
          if (copyin k).2 = false then some (off, s)
          else writeiFrom size copyin i count rounds (k + 1) (off + chunk count off tot)
            (tot + chunk count off tot) s
      else some (off, s)

def writei (size : Nat) (copyin : Nat → (Nat → Nat) × Bool) (s : State n) (i : Fin n) (off count : UInt32) :
    Option (State n) :=
  if off.toNat > (s.inode i).size ∨ off + count < off then some s
  else if off.toNat + count.toNat > maxFile * bsize then some s
  else
    (writeiFrom size copyin i count.toNat count.toNat 0 off.toNat 0 s).map fun written =>
      let s := written.2
      if count.toNat > 0 ∧ written.1 > (s.inode i).size then
        (s.setInode i { s.inode i with size := written.1 }).iupdate i
      else s

end State

/-- The calls. A caller that changes a field of an inode calls `iupdate` with the lock. -/
inductive Call (n : Nat) where
  | ialloc (type : Nat)
  | iget (inum : Nat)
  | idup (i : Fin n)
  | ilock (i : Fin n)
  | iunlock (i : Fin n)
  | iupdate (i : Fin n) (major minor nlink : Nat)
  | readi (copyout : Nat → Bool) (i : Fin n) (off count : UInt32)
  | writei (copyin : Nat → (Nat → Nat) × Bool) (i : Fin n) (off count : UInt32)
  | itrunc (i : Fin n)
  | iput (i : Fin n)

/-- One call. The caller has the lock of an inode that it reads or changes. -/
def step (size ninodes : Nat) (s : State n) : Call n → Option (State n)
  | .ialloc type => if type = 0 then none else (s.ialloc ninodes type).map Prod.snd
  | .iget inum => (s.iget inum).map Prod.snd
  | .idup i => if (s.inode i).ref < 1 then none else some (s.idup i)
  | .ilock i => s.ilock i
  | .iunlock i => s.iunlock i
  | .iupdate i major minor nlink =>
      if (s.inode i).locked then some ((s.setInode i { s.inode i with major, minor, nlink }).iupdate i) else none
  | .readi copyout i off count => if (s.inode i).locked then s.readi size copyout i off count else none
  | .writei copyin i off count => if (s.inode i).locked then s.writei size copyin i off count else none
  | .itrunc i => if (s.inode i).locked then s.itrunc i else none
  | .iput i => s.iput i

end Xv6.Fs.I386
