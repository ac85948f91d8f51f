import Mathlib.Tactic.Common

/-!
# Parameters and the disk layout

The constants of `param.h`, `conf.h` and `fs.h`, and the superblock `tools/mkfs.c` writes. They are
those of the arm64 configuration; a fork that differs says so where it is modelled.
-/

namespace Xv6

def maxOpBlocks : Nat := 10

def logSize : Nat := maxOpBlocks * 3

def nbuf : Nat := maxOpBlocks * 3

def bsize : Nat := 1024

def ndirect : Nat := 58

/-- Entries of an indirect block: `BSIZE / sizeof(uint)`. -/
def nindirect : Nat := bsize / 4

def maxFile : Nat := ndirect + nindirect

/-- Bytes of `struct dinode`. -/
def dinodeSize : Nat := 256

def ipb : Nat := bsize / dinodeSize

def bpb : Nat := bsize * 8

def rootIno : Nat := 1

/-- The superblock, without its magic number: the kernel only compares it at boot. -/
structure Superblock where
  size : Nat
  nblocks : Nat
  ninodes : Nat
  nlog : Nat
  logstart : Nat
  inodestart : Nat
  bmapstart : Nat
  deriving DecidableEq, Repr

/-- The block that holds inode `inum`. -/
def Superblock.iblock (sb : Superblock) (inum : Nat) : Nat := inum / ipb + sb.inodestart

/-- The bitmap block that holds the bit of block `b`. -/
def Superblock.bblock (sb : Superblock) (b : Nat) : Nat := b / bpb + sb.bmapstart

namespace Mkfs

def ninodes : Nat := 200

def ninodeBlocks : Nat := ninodes / ipb + 1

def nbitmap (fsSize : Nat) : Nat := fsSize / bpb + 1

def nmeta (nlog fsSize : Nat) : Nat := 2 + nlog + ninodeBlocks + nbitmap fsSize

/-- The superblock `main` writes, for the `nlog` and the `FSSIZE` it was compiled with. -/
def superblock (nlog fsSize : Nat) : Superblock where
  size := fsSize
  nblocks := fsSize - nmeta nlog fsSize
  ninodes := ninodes
  nlog := nlog
  logstart := 2
  inodestart := 2 + nlog
  bmapstart := 2 + nlog + ninodeBlocks

end Mkfs

end Xv6
