import Xv6.Layout
import Xv6.Lib.Bytes

/-!
# The tool that builds the file system image

`tools/mkfs.c`. The image is a file of blocks, and what the tool keeps between calls is the image, the
next inode number and the next block. The tool runs on a little-endian host: `IBLOCK` uses the fields
of the superblock as they stand on the disk. The calls of the host on the image file succeed, other
than a read past its end.
-/

namespace Xv6.Mkfs

/-- What `param.h` of a fork says. -/
structure Conf where
  /-- `LOGSIZE` -/
  nlog : Nat
  /-- `FSSIZE` -/
  fsSize : Nat
  nmeta_lt : nmeta nlog fsSize < fsSize
  /-- The one bitmap block that `balloc` writes has a bit for every block. -/
  fsSize_lt : fsSize < bpb

def Conf.nmeta (conf : Conf) : Nat := Mkfs.nmeta conf.nlog conf.fsSize

def Conf.sb (conf : Conf) : Superblock := superblock conf.nlog conf.fsSize

/-- The values of `kernel/conf/arm64/param.h`. -/
def arm64 : Conf where
  nlog := logSize
  fsSize := 1500
  nmeta_lt := by decide
  fsSize_lt := by decide

/-- How the tool stops before its end. -/
inductive Failure where
  /-- `die`, for a host call on the image. -/
  | die (call : String)
  /-- `die`, for a file that cannot be opened. -/
  | noFile (path : List UInt8)
  | assertion (condition : String)
  /-- The check for free blocks, with the numbers of its message: the free blocks, the data blocks of
  the image, those the files use and how many files there are. -/
  | margin (free nblocks used files : Nat)
  deriving DecidableEq

/-- The image file: how many blocks it has, and what they hold. -/
structure Image where
  size : Nat
  block : Nat → Bytes

structure State where
  image : Image
  freeinode : Nat
  freeblock : Nat

def xshort (x : Nat) : Nat := Bytes.uint 2 (Bytes.setUint 2 (fun _ => 0) 0 x) 0

def xint (x : Nat) : Nat := Bytes.uint 4 (Bytes.setUint 4 (fun _ => 0) 0 x) 0

/-! ### Blocks and inodes of the image -/

/-- The block a seek ends at: `sec * BSIZE` is a `uint`. -/
def seek (sec : Nat) : Nat := sec * bsize % 2 ^ 32 / bsize

def wsect (image : Image) (sec : Nat) (buf : Bytes) : Image where
  size := max image.size (seek sec + 1)
  block := Function.update image.block (seek sec) buf

def rsect (image : Image) (sec : Nat) : Except Failure Bytes :=
  if seek sec < image.size then .ok (image.block (seek sec)) else .error (.die "read")

def dinodeOff (inum : Nat) : Nat := inum % ipb * dinodeSize

def winode (conf : Conf) (inum : Nat) (ip : Bytes) (image : Image) : Except Failure Image := do
  let bn := conf.sb.iblock inum
  let buf ← rsect image bn
  pure (wsect image bn (Bytes.store buf (dinodeOff inum) (Bytes.load ip 0 dinodeSize)))

def rinode (conf : Conf) (inum : Nat) (image : Image) : Except Failure Bytes := do
  let bn := conf.sb.iblock inum
  let buf ← rsect image bn
  pure fun i => buf (dinodeOff inum + i)

/-- Where `size` and an entry of `addrs` stand in a `struct dinode`. -/
def sizeOff : Nat := 16

def addrOff (k : Nat) : Nat := 20 + 4 * k

inductive FileType where
  | dir
  | file
  deriving DecidableEq

/-- `T_DIR` and `T_FILE`. -/
def FileType.code : FileType → Nat
  | dir => 1
  | file => 2

/-- The number of the inode it allocates, and the state. -/
def ialloc (conf : Conf) (type : FileType) (state : State) : Except Failure (Nat × State) := do
  let inum := state.freeinode
  let din : Bytes := fun _ => 0
  let din := Bytes.setUint 2 din 0 (xshort type.code)
  let din := Bytes.setUint 2 din 6 (xshort 1)
  let din := Bytes.setUint 4 din sizeOff (xint 0)
  let image ← winode conf inum din state.image
  pure (inum, { state with image, freeinode := state.freeinode + 1 })

/-- Mark the first `used` blocks in the bitmap. -/
def balloc (conf : Conf) (used : Nat) (image : Image) : Except Failure Image :=
  if used < bsize * 8 then
    .ok (wsect image conf.sb.bmapstart ((List.range used).foldl Bytes.setBit fun _ => 0))
  else
    .error (.assertion "used < BSIZE*8")

/-! ### Appending to a file -/

/-- The address of block `fbn` of a file, allocating it and the indirect block if necessary. -/
def appendBlock (din : Bytes) (fbn : Nat) (state : State) :
    Except Failure (Nat × Bytes × State) :=
  if fbn < ndirect then
    if xint (Bytes.uint 4 din (addrOff fbn)) = 0 then
      let din := Bytes.setUint 4 din (addrOff fbn) (xint state.freeblock)
      .ok (xint (Bytes.uint 4 din (addrOff fbn)), din,
        { state with freeblock := state.freeblock + 1 })
    else
      .ok (xint (Bytes.uint 4 din (addrOff fbn)), din, state)
  else if xint (Bytes.uint 4 din (addrOff ndirect)) = 0 then
    let din := Bytes.setUint 4 din (addrOff ndirect) (xint state.freeblock)
    entry din { state with freeblock := state.freeblock + 1 }
  else
    entry din state
where
  /-- The entry of the indirect block, allocating if necessary. -/
  entry (din : Bytes) (state : State) : Except Failure (Nat × Bytes × State) := do
    let indirect ← rsect state.image (xint (Bytes.uint 4 din (addrOff ndirect)))
    if Bytes.uint 4 indirect (4 * (fbn - ndirect)) = 0 then
      let indirect := Bytes.setUint 4 indirect (4 * (fbn - ndirect)) (xint state.freeblock)
      let image := wsect state.image (xint (Bytes.uint 4 din (addrOff ndirect))) indirect
      pure (xint (Bytes.uint 4 indirect (4 * (fbn - ndirect))), din,
        { state with image, freeblock := state.freeblock + 1 })
    else
      pure (xint (Bytes.uint 4 indirect (4 * (fbn - ndirect))), din, state)

/-- The loop of `iappend`. The fuel is the number of bytes left, as every round writes at least
one. -/
def iappendFrom : Nat → Bytes → Nat → List UInt8 → State → Except Failure (Bytes × Nat × State)
  | 0, din, off, _, state => .ok (din, off, state)
  | fuel + 1, din, off, p, state =>
      if 0 < p.length then
        let fbn := off / bsize
        if fbn < maxFile then do
          let (x, din, state) ← appendBlock din fbn state
          let n1 := min p.length ((fbn + 1) * bsize - off)
          let buf ← rsect state.image x
          let image := wsect state.image x (Bytes.store buf (off - fbn * bsize) (p.take n1))
          iappendFrom fuel din (off + n1) (p.drop n1) { state with image }
        else
          .error (.assertion "fbn < MAXFILE")
      else
        .ok (din, off, state)

def iappend (conf : Conf) (inum : Nat) (xp : List UInt8) (state : State) :
    Except Failure State := do
  let din ← rinode conf inum state.image
  let off := xint (Bytes.uint 4 din sizeOff)
  let (din, off, state) ← iappendFrom xp.length din off xp state
  let din := Bytes.setUint 4 din sizeOff (xint off)
  let image ← winode conf inum din state.image
  pure { state with image }

/-! ### The tool -/

def dirSiz : Nat := 14

/-- `struct dirent`, with the name copied and padded as `strncpy` does. -/
def dirent (inum : Nat) (name : List UInt8) : List UInt8 :=
  let de : Bytes := fun _ => 0
  let de := Bytes.setUint 2 de 0 (xshort inum)
  let de := Bytes.store de 2 (name.take dirSiz)
  Bytes.load de 0 16

/-- What one call of `read` returned. -/
abbrev Chunk := { bytes : List UInt8 // 0 < bytes.length ∧ bytes.length ≤ bsize }

/-- A file named on the command line. -/
structure Input where
  path : List UInt8
  /-- A path is a C string. -/
  path_ok : 0 ∉ path
  /-- What the calls of `read` returned up to the first that returned nothing, or `none` where the
  file cannot be opened. -/
  reads : Option (List Chunk)

/-- The path from its last slash on, without a leading underscore. -/
def Input.shortname (input : Input) : List UInt8 :=
  match (input.path.reverse.takeWhile (· ≠ 47)).reverse with
  | 95 :: rest => rest
  | name => name

/-- A round of the loop of `main`. -/
def addFile (conf : Conf) (rootino : Nat) (state : State) (input : Input) :
    Except Failure State :=
  match input.reads with
  | none => .error (.noFile input.path)
  | some chunks => do
      let (inum, state) ← ialloc conf .file state
      let state ← iappend conf rootino (dirent inum input.shortname) state
      chunks.foldlM (fun state (cc : Chunk) => iappend conf inum cc.1 state) state

/-- The superblock, as `main` writes it. -/
def sbBlock (sb : Superblock) : Bytes :=
  Bytes.setUints 4 (fun _ => 0) 0 [xint 0x10203040, xint sb.size, xint sb.nblocks, xint sb.ninodes,
    xint sb.nlog, xint sb.logstart, xint sb.inodestart, xint sb.bmapstart]

/-- The image of zeroed blocks and the superblock, from which `main` allocates. -/
def blank (conf : Conf) : State where
  image :=
    let zeroed := (List.range conf.fsSize).foldl (fun image i => wsect image i fun _ => 0)
      { size := 0, block := fun _ _ => 0 }
    wsect zeroed 1 (sbBlock conf.sb)
  freeinode := 1
  freeblock := conf.nmeta

def fixRoot (conf : Conf) (rootino : Nat) (image : Image) : Except Failure Image := do
  let din ← rinode conf rootino image
  let off := xint (Bytes.uint 4 din sizeOff)
  let off := (off / bsize + 1) * bsize
  winode conf rootino (Bytes.setUint 4 din sizeOff (xint off)) image

/-- The end of `main`: the check for free blocks, then the size of the root directory and the
bitmap. -/
def finish (conf : Conf) (rootino before files : Nat) (state : State) : Except Failure Image :=
  let used := state.freeblock - before
  -- a subtraction of unsigned numbers
  let free := (conf.sb.nblocks + 2 ^ 32 - used) % 2 ^ 32
  if free < 2 * maxFile then
    .error (.margin free conf.sb.nblocks used files)
  else do
    let image ← fixRoot conf rootino state.image
    balloc conf state.freeblock image

/-- The image with which the tool exits with status 0. -/
def main (conf : Conf) (inputs : List Input) : Except Failure Image := do
  let (rootino, state) ← ialloc conf .dir (blank conf)
  if rootino = rootIno then
    let state ← iappend conf rootino (dirent rootino [46]) state
    let state ← iappend conf rootino (dirent rootino [46, 46]) state
    let before := state.freeblock
    let state ← inputs.foldlM (addFile conf rootino) state
    finish conf rootino before inputs.length state
  else
    .error (.assertion "rootino == ROOTINO")

end Xv6.Mkfs
