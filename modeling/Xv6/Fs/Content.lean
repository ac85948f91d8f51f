import Mathlib.Data.List.FinRange
import Xv6.Storage.Kernel

/-!
# Blocks and the content of inodes

The functions of `fs.c` that read and change blocks, for a caller that has locked the inode: they
take `struct inode` by value and return it changed. The arm64 and riscv64 versions differ in what
they do when the disk is full and when a user copy fails, which `Fork` says.
-/

namespace Xv6.Fs

open Kernel

/-- Where the two versions of `fs.c` differ. -/
structure Fork where
  /-- `balloc` and `ialloc` return 0 when there is nothing left, and `bmap`, `readi` and `writei`
  check for it. Otherwise they panic, and nobody checks. -/
  returnsZero : Bool
  /-- `writei` logs a chunk whose user copy has failed. -/
  logsFailed : Bool
  deriving DecidableEq

def arm64 : Fork := ⟨false, false⟩

def riscv64 : Fork := ⟨true, true⟩

/-! ### Inodes -/

/-- The fields of `struct dinode` that the kernel uses. The shorts are their 16 bits. -/
structure Dinode where
  type : Nat
  major : Nat
  minor : Nat
  nlink : Nat
  size : Nat
  addrs : Fin (ndirect + 1) → Nat

/-- `struct inode`, as its holder sees it between `ilock` and `iunlock`. -/
structure Inode extends Dinode where
  inum : Nat

/-- The index of the indirect block in `addrs`. -/
def indirect : Fin (ndirect + 1) := Fin.last ndirect

def Inode.setAddr (ip : Inode) (k : Fin (ndirect + 1)) (addr : Nat) : Inode :=
  { ip with addrs := Function.update ip.addrs k addr }

def dinodeOff (inum : Nat) : Nat := inum % ipb * dinodeSize

def Dinode.load (data : Bytes) (off : Nat) : Dinode where
  type := Bytes.uint 2 data off
  major := Bytes.uint 2 data (off + 2)
  minor := Bytes.uint 2 data (off + 4)
  nlink := Bytes.uint 2 data (off + 6)
  size := Bytes.uint 4 data (off + 16)
  addrs := fun k => Bytes.uint 4 data (off + 20 + 4 * k)

def Dinode.store (dip : Dinode) (data : Bytes) (off : Nat) : Bytes :=
  let data := Bytes.setUint 2 data off dip.type
  let data := Bytes.setUint 2 data (off + 2) dip.major
  let data := Bytes.setUint 2 data (off + 4) dip.minor
  let data := Bytes.setUint 2 data (off + 6) dip.nlink
  let data := Bytes.setUint 4 data (off + 16) dip.size
  Bytes.setUints 4 data (off + 20) (List.ofFn dip.addrs)

section Code

variable {n : Nat} (fork : Fork) (sb : Superblock)

/-! ### Blocks -/

def modify (b : Fin n) (change : Bytes → Bytes) : Code n Bytes Unit := do
  let content ← content b
  setData b (change content.data)

def bzero (bno : Nat) : Code n Bytes Unit := do
  let bp ← bread rootDev bno
  setData bp fun _ => 0
  logWrite bp
  brelse bp

/-- The inner loop of `balloc`: the first free block of those whose bits are in this bitmap block,
from block `b` on. -/
def freeBit (data : Bytes) (b : Nat) : Option Nat :=
  (List.range (min bpb (sb.size - b))).find? fun bi => !Bytes.bit data bi

/-- The outer loop of `balloc`, over the first blocks of the bitmap blocks that are left. -/
def ballocFrom : List Nat → Code n Bytes Nat
  | [] => if fork.returnsZero then pure 0 else Kernel.panic "balloc: out of blocks"
  | b :: rest => do
      let bp ← bread rootDev (sb.bblock b)
      let content ← content bp
      match freeBit sb content.data b with
      | some bi => do
          setData bp (Bytes.setBit content.data bi)
          logWrite bp
          brelse bp
          bzero (b + bi)
          pure (b + bi)
      | none => do
          brelse bp
          ballocFrom rest

def balloc : Code n Bytes Nat :=
  ballocFrom fork sb ((List.range ((sb.size + bpb - 1) / bpb)).map (· * bpb))

def bfree (b : Nat) : Code n Bytes Unit := do
  let bp ← bread rootDev (sb.bblock b)
  let content ← content bp
  panicIf (Bytes.bit content.data (b % bpb) = false) "freeing free block"
  setData bp (Bytes.clearBit content.data (b % bpb))
  logWrite bp
  brelse bp

/-! ### Inodes on the disk -/

/-- The loop of `ialloc`, over the inode numbers that are left. -/
def iallocFrom (type : Nat) : List Nat → Code n Bytes (Option Nat)
  | [] => if fork.returnsZero then pure none else Kernel.panic "ialloc: no inodes"
  | inum :: rest => do
      let bp ← bread rootDev (sb.iblock inum)
      let content ← content bp
      if Bytes.uint 2 content.data (dinodeOff inum) = 0 then do
        -- a free inode
        let zeroed := Bytes.store content.data (dinodeOff inum) (List.replicate dinodeSize 0)
        setData bp (Bytes.setUint 2 zeroed (dinodeOff inum) type)
        logWrite bp
        brelse bp
        pure (some inum)
      else do
        brelse bp
        iallocFrom type rest

/-- The part of `ialloc` on the disk: the number of the inode it allocates. -/
def ialloc (type : Nat) : Code n Bytes (Option Nat) :=
  iallocFrom fork sb type (List.range' 1 (sb.ninodes - 1))

def iupdate (ip : Inode) : Code n Bytes Unit := do
  let bp ← bread rootDev (sb.iblock ip.inum)
  modify bp fun data => ip.toDinode.store data (dinodeOff ip.inum)
  logWrite bp
  brelse bp

/-- The part of `ilock` that reads the inode from disk. -/
def iread (inum : Nat) : Code n Bytes Inode := do
  let bp ← bread rootDev (sb.iblock inum)
  let content ← content bp
  let dip := Dinode.load content.data (dinodeOff inum)
  brelse bp
  panicIf (dip.type = 0) "ilock: no type"
  pure { dip with inum }

/-! ### Inode content -/

/-- Return the disk block address of the nth block in inode ip. If there is no such block, bmap
allocates one. -/
def bmap (ip : Inode) (bn : Nat) : Code n Bytes (Nat × Inode) :=
  if h : bn < ndirect then
    let k : Fin (ndirect + 1) := ⟨bn, Nat.lt_succ_of_lt h⟩
    if ip.addrs k = 0 then do
      let addr ← balloc fork sb
      if fork.returnsZero ∧ addr = 0 then
        pure (0, ip)
      else
        pure (addr, ip.setAddr k addr)
    else
      pure (ip.addrs k, ip)
  else
    bmapIndirect ip (bn - ndirect)
where
  /-- The entry of the indirect block, allocating if necessary. -/
  bmapEntry (ip : Inode) (block bn : Nat) : Code n Bytes (Nat × Inode) := do
    let bp ← bread rootDev block
    let content ← content bp
    let addr := Bytes.uint 4 content.data (4 * bn)
    if addr = 0 then do
      let addr ← balloc fork sb
      Program.when (¬(fork.returnsZero ∧ addr = 0)) do
        modify bp fun data => Bytes.setUint 4 data (4 * bn) addr
        logWrite bp
      brelse bp
      pure (addr, ip)
    else do
      brelse bp
      pure (addr, ip)
  /-- Load indirect block, allocating if necessary. -/
  bmapIndirect (ip : Inode) (bn : Nat) : Code n Bytes (Nat × Inode) :=
    if bn < nindirect then
      if ip.addrs indirect = 0 then do
        let addr ← balloc fork sb
        if fork.returnsZero ∧ addr = 0 then
          pure (0, ip)
        else
          bmapEntry (ip.setAddr indirect addr) addr bn
      else
        bmapEntry ip (ip.addrs indirect) bn
    else
      Kernel.panic "bmap: out of range"

/-- The first loop of `itrunc`. -/
def itruncDirect : List (Fin ndirect) → Inode → Code n Bytes Inode
  | [], ip => pure ip
  | i :: rest, ip =>
      if ip.addrs i.castSucc = 0 then
        itruncDirect rest ip
      else do
        bfree sb (ip.addrs i.castSucc)
        itruncDirect rest (ip.setAddr i.castSucc 0)

def itruncIndirect : List Nat → Code n Bytes Unit
  | [] => pure ()
  | addr :: rest => do
      Program.when (addr ≠ 0) (bfree sb addr)
      itruncIndirect rest

/-- Truncate inode (discard contents). -/
def itrunc (ip : Inode) : Code n Bytes Inode := do
  let ip ← itruncDirect sb (List.finRange ndirect) ip
  let ip ← dropIndirect ip
  let ip := { ip with size := 0 }
  iupdate sb ip
  pure ip
where
  dropIndirect (ip : Inode) : Code n Bytes Inode :=
    if ip.addrs indirect = 0 then
      pure ip
    else do
      let bp ← bread rootDev (ip.addrs indirect)
      let content ← content bp
      itruncIndirect sb (Bytes.uints 4 content.data 0 nindirect)
      brelse bp
      bfree sb (ip.addrs indirect)
      pure (ip.setAddr indirect 0)

/-- Where `readi` copies to. -/
inductive Dest where
  | user (va : Nat)
  | kernel

def Dest.advance (dst : Dest) (m : Nat) : Dest :=
  match dst with
  | .user va => .user (va + m)
  | .kernel => .kernel

def eitherCopyout (dst : Dest) (bytes : List UInt8) : Code n Bytes Bool :=
  match dst with
  | .user va => copyout va bytes
  | .kernel => pure true

/-- The loop of `readi`. It ends with what `readi` returns and the bytes copied; the fuel is the
number of bytes left, as every round copies at least one. -/
def readiFrom (count : Nat) : Nat → Inode → Dest → Nat → Nat → List UInt8 →
    Code n Bytes (Int × List UInt8 × Inode)
  | 0, ip, _, _, tot, copied => pure (tot, copied, ip)
  | fuel + 1, ip, dst, off, tot, copied =>
      if tot < count then do
        let (addr, ip) ← bmap fork sb ip (off / bsize)
        if fork.returnsZero ∧ addr = 0 then
          pure ((tot : Int), copied, ip)
        else do
          let bp ← bread rootDev addr
          let m := min (count - tot) (bsize - off % bsize)
          let content ← content bp
          let bytes := Bytes.load content.data (off % bsize) m
          let ok ← eitherCopyout dst bytes
          brelse bp
          if ok then
            readiFrom count fuel ip (dst.advance m) (off + m) (tot + m) (copied ++ bytes)
          else
            pure (-1, copied, ip)
      else
        pure ((tot : Int), copied, ip)

/-- Read data from inode: the result, the bytes copied and the inode. -/
def readi (ip : Inode) (dst : Dest) (off count : UInt32) :
    Code n Bytes (Int × List UInt8 × Inode) :=
  if off.toNat > ip.size ∨ off + count < off then
    pure (0, [], ip)
  else
    let count := if (off + count).toNat > ip.size then ip.size - off.toNat else count.toNat
    readiFrom fork sb count count ip dst off.toNat 0 []

/-- Where `writei` copies from. -/
inductive Source where
  | user (va : Nat)
  | kernel (bytes : Nat → UInt8)

def Source.advance (src : Source) (m : Nat) : Source :=
  match src with
  | .user va => .user (va + m)
  | .kernel bytes => .kernel fun i => bytes (i + m)

/-- Copy `len` bytes to a buffer, from `off` on. A user copy that fails may have copied some. -/
def eitherCopyin (b : Fin n) (off : Nat) (src : Source) (len : Nat) : Code n Bytes Bool :=
  match src with
  | .user va => do
      let (bytes, ok) ← copyin va len
      Program.when (bytes ≠ []) (modify b fun data => Bytes.store data off bytes)
      pure ok
  | .kernel bytes => do
      modify b fun data => Bytes.store data off ((List.range len).map bytes)
      pure true

/-- The loop of `writei`. It ends with the inode, `off` and `tot`. -/
def writeiFrom (count : Nat) : Nat → Inode → Source → Nat → Nat → Code n Bytes (Inode × Nat × Nat)
  | 0, ip, _, off, tot => pure (ip, off, tot)
  | fuel + 1, ip, src, off, tot =>
      if tot < count then do
        let (addr, ip) ← bmap fork sb ip (off / bsize)
        if fork.returnsZero ∧ addr = 0 then
          pure (ip, off, tot)
        else do
          let bp ← bread rootDev addr
          let m := min (count - tot) (bsize - off % bsize)
          let ok ← eitherCopyin bp (off % bsize) src m
          if ok then do
            logWrite bp
            brelse bp
            writeiFrom count fuel ip (src.advance m) (off + m) (tot + m)
          else do
            Program.when (fork.logsFailed = true) (logWrite bp)
            brelse bp
            pure (ip, off, tot)
      else
        pure (ip, off, tot)

def writei (ip : Inode) (src : Source) (off count : UInt32) : Code n Bytes (Int × Inode) :=
  if off.toNat > ip.size ∨ off + count < off then
    pure (-1, ip)
  else if (off + count).toNat > maxFile * bsize then
    pure (-1, ip)
  else do
    let (ip, off, tot) ← writeiFrom fork sb count.toNat count.toNat ip src off.toNat 0
    let ip := if off > ip.size then { ip with size := off } else ip
    -- write the i-node back to disk even if the size didn't change
    iupdate sb ip
    pure ((tot : Int), ip)

end Code

end Xv6.Fs
