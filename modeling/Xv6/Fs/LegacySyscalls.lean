import Xv6.Fs.LegacyCode

/-!
# The system calls of the legacy kernels

`file-legacy.c`, `sysfile-legacy.c`, and `fork`, `exit`, `wait` and `exec` as far as they touch
files and inodes. An argument is `none` where it cannot be fetched. What the calls do to memory, what
a pipe holds and the process numbers are left out: where one of them decides, the outcome comes from
`outside`.
-/

namespace Xv6.Legacy.Fs

/-- `O_WRONLY`, `O_RDWR`, `O_CREATE` and `O_TRUNC` of `fcntl.h`. -/
def oWronly : Nat := 0x001

def oRdwr : Nat := 0x002

def oCreate : Nat := 0x200

def oTrunc : Nat := 0x400

def flag (omode bits : Nat) : Bool := omode &&& bits != 0

section Code

variable {limits : Limits} (machine : Machine limits)

/-! ### Files -/

def filealloc : Code limits (Option (Fin limits.nfile)) := perform .filealloc

def file (f : Fin limits.nfile) : Code limits (File limits) := perform (.file f)

def updateFile (f : Fin limits.nfile) (change : File limits → File limits) : Code limits Unit :=
  perform (.updateFile f change)

def filedup (f : Fin limits.nfile) : Code limits Unit := do
  let live ← dup
  panicIf (live = false) "filedup"
where
  dup : Code limits Bool := perform (.filedup f)

/-- Close file f. (Decrement ref count, close when reaches 0.) -/
def fileclose (f : Fin limits.nfile) : Code limits Unit := do
  let found ← drop
  match found with
  | none => panic "fileclose"
  | some none => pure ()
  | some (some ff) =>
      Program.when (ff.type = .inode) do
        beginTrans
        ff.ip.elim (panic "iput") (iput machine)
        commitTrans machine
where
  drop : Code limits (Option (Option (File limits))) := perform (.fileclose f)

def fileInode (file : File limits) : Code limits (Fin limits.ninode) :=
  file.ip.elim (panic "ilock") pure

def filestat (f : Fin limits.nfile) : Code limits Int := do
  let file ← file f
  if file.type = .inode then do
    let ip ← fileInode file
    ilock machine ip
    iunlock ip
    pure 0
  else
    pure (-1)

/-- Read from file f. -/
def fileread (f : Fin limits.nfile) (count : UInt32) : Code limits Int := do
  let file ← file f
  if file.readable = false then
    pure (-1)
  else
    match file.type with
    | .pipe => do
        let result ← outside
        pure ((result : Int) - 1)
    | .inode => do
        let ip ← fileInode file
        ilock machine ip
        let now ← Fs.file f
        let (result, _) ← readi machine ip now.off count
        Program.when (result > 0) do
          updateFile f fun file => { file with off := file.off + UInt32.ofNat result.toNat }
        iunlock ip
        pure result
    | .none => panic "fileread"

def maxWrite : Nat := ((logSize - 1 - 1 - 2) / 2) * 512

/-- The loop of `filewrite`, at byte `done`. The fuel is the number of bytes left. -/
def filewriteFrom (f : Fin limits.nfile) (ip : Fin limits.ninode) (src : Nat → UInt8) (count : Nat) :
    Nat → Nat → Code limits Int
  | 0, done => pure (if done = count then count else -1)
  | fuel + 1, done =>
      if done < count then do
        let n1 := min (count - done) maxWrite
        beginTrans
        ilock machine ip
        let now ← file f
        let result ← writei machine ip (fun k => src (done + k)) now.off (UInt32.ofNat n1)
        Program.when (result > 0) do
          updateFile f fun file => { file with off := file.off + UInt32.ofNat result.toNat }
        iunlock ip
        commitTrans machine
        if result < 0 then
          pure (if done = count then count else -1)
        else do
          panicIf (result ≠ n1) "short filewrite"
          filewriteFrom f ip src count fuel (done + n1)
      else
        pure (if done = count then count else -1)

/-- Write to file f. -/
def filewrite (f : Fin limits.nfile) (src : Nat → UInt8) (count : Int) : Code limits Int := do
  let file ← file f
  if file.writable = false then
    pure (-1)
  else
    match file.type with
    | .pipe => do
        let result ← outside
        pure ((result : Int) - 1)
    | .inode =>
        if count < 0 then
          pure (-1)
        else do
          let ip ← fileInode file
          filewriteFrom machine f ip src count.toNat count.toNat 0
    | .none => panic "filewrite"

/-! ### File descriptors -/

def argfd (fd : Int) : Code limits (Option (Fin nofile × Fin limits.nfile)) := do
  let curproc ← self
  let proc ← proc curproc
  if h : 0 ≤ fd ∧ fd.toNat < nofile then
    pure ((proc.ofile ⟨fd.toNat, h.2⟩).map fun f => (⟨fd.toNat, h.2⟩, f))
  else
    pure none

def setOfile (fd : Fin nofile) (f : Option (Fin limits.nfile)) : Code limits Unit := do
  let curproc ← self
  updateProc curproc fun proc => { proc with ofile := Function.update proc.ofile fd f }

def fdalloc (f : Fin limits.nfile) : Code limits (Option (Fin nofile)) := do
  let curproc ← self
  let proc ← proc curproc
  match (List.finRange nofile).find? fun fd => (proc.ofile fd).isNone with
  | none => pure none
  | some fd => do
      setOfile fd (some f)
      pure (some fd)

def sysDup (fd : Int) : Code limits Int := do
  let found ← argfd fd
  match found with
  | none => pure (-1)
  | some (_, f) => do
      let fd ← fdalloc f
      match fd with
      | none => pure (-1)
      | some fd => do
          filedup f
          pure (fd : Nat)

def sysRead (fd : Int) (count : Option UInt32) : Code limits Int := do
  let found ← argfd fd
  match found, count with
  | some (_, f), some count => fileread machine f count
  | _, _ => pure (-1)

def sysWrite (fd : Int) (src : Nat → UInt8) (count : Option Int) : Code limits Int := do
  let found ← argfd fd
  match found, count with
  | some (_, f), some count => filewrite machine f src count
  | _, _ => pure (-1)

def sysClose (fd : Int) : Code limits Int := do
  let found ← argfd fd
  match found with
  | none => pure (-1)
  | some (fd, f) => do
      setOfile fd none
      fileclose machine f
      pure 0

def sysFstat (fd : Int) : Code limits Int := do
  let found ← argfd fd
  match found with
  | none => pure (-1)
  | some (_, f) => filestat machine f

/-! ### Directories -/

def incNlink (i : Fin limits.ninode) : Code limits Unit :=
  setDinode i fun dip => { dip with nlink := (dip.nlink + 1) % 2 ^ 16 }

def decNlink (i : Fin limits.ninode) : Code limits Unit :=
  setDinode i fun dip => { dip with nlink := (dip.nlink + 2 ^ 16 - 1) % 2 ^ 16 }

/-- The part of `sys_link` after `bad`. -/
def linkBad (ip : Fin limits.ninode) : Code limits Int := do
  ilock machine ip
  decNlink ip
  iupdate machine ip
  iunlockput machine ip
  commitTrans machine
  pure (-1)

/-- Create the path new as a link to the same inode as old. -/
def sysLink (old new : Option Path) : Code limits Int :=
  match old, new with
  | some old, some new => do
      let found ← namei machine old
      match found with
      | none => pure (-1)
      | some ip => do
          beginTrans
          ilock machine ip
          let entry ← inode ip
          if entry.type = tDir then do
            iunlockput machine ip
            commitTrans machine
            pure (-1)
          else do
            incNlink ip
            iupdate machine ip
            iunlock ip
            linkTo ip new
  | _, _ => pure (-1)
where
  /-- Write the entry in the directory of the new path. -/
  linkTo (ip : Fin limits.ninode) (new : Path) : Code limits Int := do
    let parent ← nameiparent machine new
    match parent with
    | none => linkBad machine ip
    | some (dp, name) => do
        ilock machine dp
        let dir ← inode dp
        let entry ← inode ip
        let linked ← (if dir.dev ≠ entry.dev then pure (-1)
          else dirlink machine dp name entry.inum)
        iunlockput machine dp
        if linked < 0 then
          linkBad machine ip
        else do
          iput machine ip
          commitTrans machine
          pure 0

/-- The loop of `isdirempty`. -/
def isdiremptyFrom (dp : Fin limits.ninode) : List Nat → Code limits Bool
  | [] => pure true
  | off :: rest => do
      let de ← readDirent machine dp off "isdirempty: readi"
      if de.inum ≠ 0 then pure false else isdiremptyFrom dp rest

def isdirempty (dp : Fin limits.ninode) : Code limits Bool := do
  let ip ← inode dp
  isdiremptyFrom machine dp ((offsets ip.size).drop 2)

def dot : Name := [46]

def dotdot : Name := [46, 46]

def sysUnlink (path : Option Path) : Code limits Int :=
  match path with
  | none => pure (-1)
  | some path => do
      let parent ← nameiparent machine path
      match parent with
      | none => pure (-1)
      | some (dp, name) => do
          beginTrans
          ilock machine dp
          -- Cannot unlink "." or "..".
          if name = dot ∨ name = dotdot then
            bad dp
          else do
            let found ← dirlookup machine dp name
            match found with
            | none => bad dp
            | some (off, ip) => do
                ilock machine ip
                remove dp off ip
where
  bad (dp : Fin limits.ninode) : Code limits Int := do
    iunlockput machine dp
    commitTrans machine
    pure (-1)
  /-- `ip->type == T_DIR && !isdirempty(ip)`. -/
  full (ip : Fin limits.ninode) : Code limits Bool := do
    let entry ← inode ip
    if entry.type = tDir then do
      let empty ← isdirempty machine ip
      pure !empty
    else
      pure false
  /-- Erase the entry and drop the link. -/
  remove (dp : Fin limits.ninode) (off : Nat) (ip : Fin limits.ninode) : Code limits Int := do
    let entry ← inode ip
    panicIf (short entry.nlink < 1) "unlink: nlink < 1"
    let full ← full ip
    if full then do
      iunlockput machine ip
      bad dp
    else do
      let result ← writei machine dp (fun _ => 0) (UInt32.ofNat off) (UInt32.ofNat direntSize)
      panicIf (result ≠ direntSize) "unlink: writei"
      Program.when (entry.type = tDir) do
        decNlink dp
        iupdate machine dp
      iunlockput machine dp
      decNlink ip
      iupdate machine ip
      iunlockput machine ip
      commitTrans machine
      pure 0

/-- The part of `create` that makes a new inode. -/
def createNew (dp : Fin limits.ninode) (name : Name) (type major minor : Nat) :
    Code limits (Fin limits.ninode) := do
  let dir ← inode dp
  let ip ← ialloc machine dir.dev type
  ilock machine ip
  setDinode ip fun dip => { dip with major, minor, nlink := 1 }
  iupdate machine ip
  let entry ← inode ip
  Program.when (type = tDir) do
    -- Create . and .. entries.
    incNlink dp
    iupdate machine dp
    let first ← dirlink machine ip dot entry.inum
    panicIf (first < 0) "create dots"
    let second ← dirlink machine ip dotdot dir.inum
    panicIf (second < 0) "create dots"
  let linked ← dirlink machine dp name entry.inum
  panicIf (linked < 0) "create: dirlink"
  iunlockput machine dp
  pure ip

def create (path : Path) (type major minor : Nat) : Code limits (Option (Fin limits.ninode)) := do
  let parent ← nameiparent machine path
  match parent with
  | none => pure none
  | some (dp, name) => do
      ilock machine dp
      let found ← dirlookup machine dp name
      match found with
      | some (_, ip) => do
          iunlockput machine dp
          ilock machine ip
          let entry ← inode ip
          if type = tFile ∧ entry.type = tFile then
            pure (some ip)
          else do
            iunlockput machine ip
            pure none
      | none => do
          let ip ← createNew machine dp name type major minor
          pure (some ip)

/-- Does `sys_open` truncate the inode? -/
def truncates (ip : Fin limits.ninode) : Code limits Bool := perform (.truncates ip)

/-- `sys_open` once it has the inode. -/
def openInode (ip : Fin limits.ninode) (omode : Nat) : Code limits Int := do
  let f ← filealloc
  match f with
  | none => do
      iunlockput machine ip
      pure (-1)
  | some f => do
      let fd ← fdalloc f
      match fd with
      | none => do
          fileclose machine f
          iunlockput machine ip
          pure (-1)
      | some fd => do
          Program.when (flag omode oTrunc) do
            let truncates ← truncates ip
            Program.when (truncates = true) (itrunc machine ip)
          iunlock ip
          updateFile f fun file => { file with
            type := .inode
            ip := some ip
            off := 0
            readable := !flag omode oWronly
            writable := flag omode oWronly || flag omode oRdwr }
          pure (fd : Nat)

def sysOpen (path : Option Path) (omode : Nat) : Code limits Int :=
  match path with
  | none => pure (-1)
  | some path =>
      if flag omode oCreate then do
        beginTrans
        let ip ← create machine path tFile 0 0
        commitTrans machine
        ip.elim (pure (-1)) fun ip => openInode machine ip omode
      else do
        let ip ← namei machine path
        match ip with
        | none => pure (-1)
        | some ip => do
            ilock machine ip
            let entry ← inode ip
            if entry.type = tDir ∧ omode ≠ 0 then do
              iunlockput machine ip
              pure (-1)
            else
              openInode machine ip omode

/-- `sys_mkdir` and `sys_mknod`: the path and the rest of the arguments of `create`. -/
def sysCreate (path : Option Path) (type : Nat) (device : Option (Nat × Nat)) :
    Code limits Int := do
  beginTrans
  let ip ← made
  match ip with
  | none => do
      commitTrans machine
      pure (-1)
  | some ip => do
      iunlockput machine ip
      commitTrans machine
      pure 0
where
  made : Code limits (Option (Fin limits.ninode)) :=
    match path, device with
    | some path, some (major, minor) => create machine path type major minor
    | _, _ => pure none

def sysMkdir (path : Option Path) : Code limits Int := sysCreate machine path tDir (some (0, 0))

def sysMknod (path : Option Path) (device : Option (Nat × Nat)) : Code limits Int :=
  sysCreate machine path tDevice device

def setCwd (ip : Option (Fin limits.ninode)) : Code limits Unit := do
  let curproc ← self
  updateProc curproc fun proc => { proc with cwd := ip }

/-- `iput(curr_proc->cwd)`. -/
def putCwd : Code limits Unit := do
  let curproc ← self
  let proc ← proc curproc
  proc.cwd.elim (panic "iput") (iput machine)

def sysChdir (path : Option Path) : Code limits Int :=
  match path with
  | none => pure (-1)
  | some path => do
      let ip ← namei machine path
      match ip with
      | none => pure (-1)
      | some ip => do
          ilock machine ip
          let entry ← inode ip
          if entry.type ≠ tDir then do
            iunlockput machine ip
            pure (-1)
          else do
            iunlock ip
            putCwd machine
            setCwd (some ip)
            pure 0

/-! ### `exec` -/

/-- `sizeof(struct elf32hdr)` and `sizeof(struct proghdr32)`. -/
def elfSize : Nat := 52

def phSize : Nat := 32

def elfMagic : Nat := 0x464C457F

def elfProgLoad : Nat := 1

def pgsize : Nat := 4096

/-- The loop of `loaduvm`, over the pages that are left. -/
def loaduvmFrom (ip : Fin limits.ninode) (offset size : UInt32) : List Nat → Code limits Bool
  | [] => pure true
  | page :: rest => do
      let count := min (size.toNat - page * pgsize) pgsize
      let (result, _) ←
        readi machine ip (offset + UInt32.ofNat (page * pgsize)) (UInt32.ofNat count)
      if result ≠ count then pure false else loaduvmFrom ip offset size rest

def loaduvm (ip : Fin limits.ninode) (offset size : UInt32) : Code limits Bool :=
  loaduvmFrom machine ip offset size (List.range ((size.toNat + pgsize - 1) / pgsize))

/-- The loop of `exec` over the program headers that are left: whether all are loaded. -/
def loadFrom (ip : Fin limits.ninode) : Nat → UInt32 → Code limits Bool
  | 0, _ => pure true
  | count + 1, off => do
      let (result, bytes) ← readi machine ip off (UInt32.ofNat phSize)
      if result ≠ phSize then
        pure false
      else do
        let ph : Bytes := fun k => bytes.getD k 0
        if Bytes.uint 4 ph 0 ≠ elfProgLoad then
          loadFrom ip count (off + UInt32.ofNat phSize)
        else do
          let grown ← outside
          if Bytes.uint 4 ph 20 < Bytes.uint 4 ph 16 ∨ grown = 0 then
            pure false
          else do
            let loaded ← loaduvm machine ip (UInt32.ofNat (Bytes.uint 4 ph 4))
              (UInt32.ofNat (Bytes.uint 4 ph 16))
            if loaded then loadFrom ip count (off + UInt32.ofNat phSize) else pure false

def sysExec (path : Option Path) : Code limits Int :=
  match path with
  | none => pure (-1)
  | some path => do
      let ip ← namei machine path
      match ip with
      | none => pure (-1)
      | some ip => do
          ilock machine ip
          let loaded ← load ip
          iunlockput machine ip
          -- The new image is committed unless memory runs out.
          let committed ← outside
          pure (if loaded = true ∧ committed ≠ 0 then 0 else -1)
where
  /-- Check the header and load the program. The test of what `readi` returns is one of unsigned
  numbers, so that a header that could not be read is used as it is on the stack. -/
  load (ip : Fin limits.ninode) : Code limits Bool := do
    let (result, bytes) ← readi machine ip 0 (UInt32.ofNat elfSize)
    let stack ← outside
    let header := if result = -1 then bytesOf elfSize stack else bytes
    let elf : Bytes := fun k => header.getD k 0
    let pgdir ← outside
    if (result ≠ -1 ∧ result < elfSize) ∨ Bytes.uint 4 elf 0 ≠ elfMagic ∨ pgdir = 0 then
      pure false
    else
      loadFrom machine ip (Bytes.uint 2 elf 44) (UInt32.ofNat (Bytes.uint 4 elf 28))

/-! ### Pipes -/

/-- The files of a new pipe. -/
def pipealloc : Code limits (Option (Fin limits.nfile × Fin limits.nfile)) := do
  let f0 ← filealloc
  match f0 with
  | none => pure none
  | some f0 => do
      let f1 ← filealloc
      match f1 with
      | none => do
          fileclose machine f0
          pure none
      | some f1 => do
          let page ← outside
          if page = 0 then do
            fileclose machine f0
            fileclose machine f1
            pure none
          else do
            updateFile f0 fun file => { file with type := .pipe, readable := true, writable := false }
            updateFile f1 fun file => { file with type := .pipe, readable := false, writable := true }
            pure (some (f0, f1))

def sysPipe (fetched : Bool) : Code limits Int :=
  if fetched then do
    let files ← pipealloc machine
    match files with
    | none => pure (-1)
    | some (rf, wf) => do
        let fd0 ← fdalloc rf
        match fd0 with
        | none => bad rf wf
        | some fd0 => do
            let fd1 ← fdalloc wf
            match fd1 with
            | none => do
                setOfile fd0 none
                bad rf wf
            | some _ => pure 0
  else
    pure (-1)
where
  bad (rf wf : Fin limits.nfile) : Code limits Int := do
    fileclose machine rf
    fileclose machine wf
    pure (-1)

/-! ### Processes -/

def allocproc : Code limits (Option (Fin limits.nproc)) := perform .allocproc

def dupFiles (np : Fin limits.nproc) : List (Fin nofile) → Code limits Unit
  | [] => pure ()
  | fd :: rest => do
      let curproc ← self
      let proc ← proc curproc
      (proc.ofile fd).elim (pure ()) fun f => do
        filedup f
        updateProc np fun child => { child with ofile := Function.update child.ofile fd (some f) }
      dupFiles np rest

/-- Create a new process copying the caller. -/
def sysFork : Code limits Int := do
  let np ← allocproc
  match np with
  | none => pure (-1)
  | some np => do
      let kstack ← outside
      let pagetable ← outside
      if kstack = 0 ∨ pagetable = 0 then do
        updateProc np fun child => { child with state := .unused }
        pure (-1)
      else do
        let curproc ← self
        updateProc np fun child => { child with parent := some curproc }
        dupFiles np (List.finRange nofile)
        let proc ← proc curproc
        proc.cwd.elim (panic "idup") fun cwd => do
          idup cwd
          updateProc np fun child => { child with cwd := some cwd }
        updateProc np fun child => { child with state := .runnable }
        pure 0

def closeFiles : List (Fin nofile) → Code limits Unit
  | [] => pure ()
  | fd :: rest => do
      let curproc ← self
      let proc ← proc curproc
      (proc.ofile fd).elim (pure ()) fun f => do
        fileclose machine f
        setOfile fd none
      closeFiles rest

def sysExit : Code limits Int := do
  let curproc ← self
  panicIf (curproc = machine.initproc) "init exiting"
  closeFiles machine (List.finRange nofile)
  putCwd machine
  setCwd none
  perform .exited
  pure 0

def sysWait : Code limits Int := do
  let child ← collect
  pure (if child.isSome then 0 else -1)
where
  collect : Code limits (Option (Fin limits.nproc)) := perform .wait

end Code

/-- The system calls that touch files or inodes. -/
inductive Call where
  | dup (fd : Int)
  | read (fd : Int) (count : Option UInt32)
  | write (fd : Int) (src : Nat → UInt8) (count : Option Int)
  | close (fd : Int)
  | fstat (fd : Int)
  | link (old new : Option Path)
  | unlink (path : Option Path)
  | «open» (path : Option Path) (omode : Nat)
  | mkdir (path : Option Path)
  | mknod (path : Option Path) (device : Option (Nat × Nat))
  | chdir (path : Option Path)
  | exec (path : Option Path)
  | pipe (fetched : Bool)
  | fork
  | exit
  | wait

section System

variable {limits : Limits} (machine : Machine limits)

/-- The table `syscalls` of `syscall.c`. -/
def syscall : Call → Code limits Int
  | .dup fd => sysDup fd
  | .read fd count => sysRead machine fd count
  | .write fd src count => sysWrite machine fd src count
  | .close fd => sysClose machine fd
  | .fstat fd => sysFstat machine fd
  | .link old new => sysLink machine old new
  | .unlink path => sysUnlink machine path
  | .open path omode => sysOpen machine path omode
  | .mkdir path => sysMkdir machine path
  | .mknod path device => sysMknod machine path device
  | .chdir path => sysChdir machine path
  | .exec path => sysExec machine path
  | .pipe fetched => sysPipe machine fetched
  | .fork => sysFork
  | .exit => sysExit machine
  | .wait => sysWait

/-- The processes. Between two calls a process keeps what the last one returned. -/
def system :
    Threads.System (sections limits) (State limits) (Fin limits.nproc) Int Call Empty where
  handler := handler machine
  menu := fun _ call _ => some do
    perform .trap
    syscall machine call
  environment := fun _ _ => none

/-- The tables after `userinit`: the first process has the root as current directory. -/
def userinit (root : Fin limits.ninode) (memdisk : Nat → Bytes) : State limits where
  kernel := ⟨.binit, memdisk, false, ⟨0, fun _ => 0⟩, fun _ => none⟩
  icache := Function.update (fun _ => ⟨⟨0, 0, 0, 0, 0, fun _ => 0⟩, 0, 0, 0, false, false⟩) root
    ⟨⟨0, 0, 0, 0, 0, fun _ => 0⟩, rootDev, rootIno, 1, false, false⟩
  ftable := fun _ => ⟨.none, 0, false, false, none, 0⟩
  ptable := Function.update (fun _ => ⟨.unused, none, fun _ => none, none⟩) machine.initproc
    ⟨.runnable, none, fun _ => none, some root⟩
  owner := none

/-- The first process recovers the log (`initlog`, called in `forkret`) before it enters user space. -/
def boot (root : Fin limits.ninode) (memdisk : Nat → Bytes) :
    Threads (sections limits) (State limits) (Fin limits.nproc) Int where
  shared := userinit machine root memdisk
  thread who := do
    Program.when (who = machine.initproc) (storage (Recovery.recoverFromLog machine.disk))
    pure 0

end System

end Xv6.Legacy.Fs
