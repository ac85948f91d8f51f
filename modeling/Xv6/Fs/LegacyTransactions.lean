import Xv6.Fs.LegacyMoves

/-!
# Disk updates of the legacy system calls

In every run whose tests all go right, `log_write` is called inside a transaction of the caller. One
run that truncates a file shows that the tests can go wrong: nobody is in a transaction there, and the
kernel panics.
-/

namespace Xv6.Legacy.Fs

variable {limits : Limits}

/-- Is this a call of `log_write`? -/
def Op.IsLogWrite : (sections limits).Op → Prop
  | .logWrite _ => True
  | _ => False

instance : (op : (sections limits).Op) → Decidable (Op.IsLogWrite op)
  | .logWrite _ => isTrue trivial
  | .storage _ | .iget _ _ | .idup _ | .ilock _ | .iunlock _ | .iput _ | .ifreed _ | .inode _
  | .setDinode _ _ | .setValid _ | .addr _ _ | .entry _ _ | .truncates _ | .filealloc
  | .filedup _ | .fileclose _ | .file _ | .updateFile _ _ | .trap | .self | .proc _
  | .updateProc _ _ | .allocproc | .exited | .wait | .outside => isFalse id

/-- Every call of `log_write` is made by a process between its own `begin_trans` and `commit_trans`,
and nobody is about to panic because there is no transaction. -/
def LogsInside (world : Threads (sections limits) (State limits) (Fin limits.nproc) Int) : Prop :=
  ∀ who op, world.nextOp who = some op →
    (Op.IsLogWrite op → world.shared.owner = some who ∧ world.shared.kernel.busy = true) ∧
      op ≠ .storage (.panic "write outside of trans")

section Functions

variable {before : Bool} (machine : Machine limits)

/-! ### `file-legacy.c` -/

theorem filealloc_moves : Moves before before (filealloc : Code limits _) := .perform fun _ h => h

theorem file_moves (f : Fin limits.nfile) : Moves before before (file f : Code limits _) :=
  .perform fun _ h => h

theorem updateFile_moves (f : Fin limits.nfile) (change : File limits → File limits) :
    Moves before before (updateFile f change) := .perform fun _ h => h

theorem filedup_moves (f : Fin limits.nfile) : Moves before before (filedup f) :=
  .bind (.perform fun _ h => h) fun _ => .panicIf (by decide)

theorem fileclose_moves (f : Fin limits.nfile) : Moves false false (fileclose machine f) := by
  refine .bind (.perform fun _ h => h) fun found => ?_
  cases found with
  | none => exact .panic (by decide)
  | some last =>
      cases last with
      | none => exact .ret _
      | some ff =>
          refine .when (.bind beginTrans_moves fun _ => .bind ?_ fun _ => commitTrans_moves machine)
          exact .elim (.panic (by decide)) fun ip => iput_moves machine ip

theorem fileInode_moves (file : File limits) : Moves before before (fileInode file) :=
  .elim (.panic (by decide)) fun _ => .ret _

theorem filestat_moves (f : Fin limits.nfile) : Moves before before (filestat machine f) := by
  refine .bind (file_moves f) fun file => .ite (.bind (fileInode_moves file) fun ip => ?_) (.ret _)
  exact .bind (ilock_moves machine ip) fun _ => .bind (iunlock_moves ip) fun _ => .ret _

theorem fileread_moves (f : Fin limits.nfile) (count : UInt32) :
    Moves before before (fileread machine f count) := by
  refine .bind (file_moves f) fun file => .ite (.ret _) ?_
  cases file.type with
  | pipe => exact .bind outside_moves fun _ => .ret _
  | inode =>
      exact .bind (fileInode_moves file) fun ip => .bind (ilock_moves machine ip) fun _ =>
        .bind (file_moves f) fun _ => .bind (readi_moves machine ip _ _) fun _ =>
          .bind (.when (updateFile_moves f _)) fun _ => .bind (iunlock_moves ip) fun _ => .ret _
  | none => exact .panic (by decide)

theorem filewriteFrom_moves (f : Fin limits.nfile) (ip : Fin limits.ninode) (src : Nat → UInt8)
    (count fuel done : Nat) : Moves false false (filewriteFrom machine f ip src count fuel done) := by
  induction fuel generalizing done with
  | zero => exact .ret _
  | succ fuel ih =>
      refine .ite ?_ (.ret _)
      refine .bind beginTrans_moves fun _ => .bind (ilock_moves machine ip) fun _ =>
        .bind (file_moves f) fun _ => .bind (writei_moves machine ip _ _ _) fun _ =>
          .bind (.when (updateFile_moves f _)) fun _ => .bind (iunlock_moves ip) fun _ =>
            .bind (commitTrans_moves machine) fun _ => .ite (.ret _) ?_
      exact .bind (.panicIf (by decide)) fun _ => ih _

theorem filewrite_moves (f : Fin limits.nfile) (src : Nat → UInt8) (count : Int) :
    Moves false false (filewrite machine f src count) := by
  refine .bind (file_moves f) fun file => .ite (.ret _) ?_
  cases file.type with
  | pipe => exact .bind outside_moves fun _ => .ret _
  | inode =>
      exact .ite (.ret _) (.bind (fileInode_moves file) fun ip =>
        filewriteFrom_moves machine f ip src _ _ _)
  | none => exact .panic (by decide)

/-! ### `sysfile-legacy.c` -/

theorem argfd_moves (fd : Int) : Moves before before (argfd fd : Code limits _) := by
  refine .bind self_moves fun _ => .bind (proc_moves _) fun _ => ?_
  split
  · exact .ret _
  · exact .ret _

theorem updateProc_moves (p : Fin limits.nproc) (change : Proc limits → Proc limits) :
    Moves before before (updateProc p change) := .perform fun _ h => h

theorem setOfile_moves (fd : Fin nofile) (f : Option (Fin limits.nfile)) :
    Moves before before (setOfile fd f) :=
  .bind self_moves fun _ => updateProc_moves _ _

theorem fdalloc_moves (f : Fin limits.nfile) : Moves before before (fdalloc f) := by
  refine .bind self_moves fun _ => .bind (proc_moves _) fun proc => ?_
  cases (List.finRange nofile).find? fun fd => (proc.ofile fd).isNone with
  | none => exact .ret _
  | some fd => exact .bind (setOfile_moves fd _) fun _ => .ret _

theorem sysDup_moves (fd : Int) : Moves before before (sysDup fd : Code limits Int) := by
  refine .bind (argfd_moves fd) fun found => ?_
  cases found with
  | none => exact .ret _
  | some found =>
      refine .bind (fdalloc_moves _) fun fd => ?_
      cases fd with
      | none => exact .ret _
      | some fd => exact .bind (filedup_moves _) fun _ => .ret _

theorem sysRead_moves (fd : Int) (count : Option UInt32) :
    Moves before before (sysRead machine fd count) := by
  refine .bind (argfd_moves fd) fun found => ?_
  cases found with
  | none => exact .ret _
  | some found =>
      cases count with
      | none => exact .ret _
      | some count => exact fileread_moves machine _ _

theorem sysWrite_moves (fd : Int) (src : Nat → UInt8) (count : Option Int) :
    Moves false false (sysWrite machine fd src count) := by
  refine .bind (argfd_moves fd) fun found => ?_
  cases found with
  | none => exact .ret _
  | some found =>
      cases count with
      | none => exact .ret _
      | some count => exact filewrite_moves machine _ _ _

theorem sysClose_moves (fd : Int) : Moves false false (sysClose machine fd) := by
  refine .bind (argfd_moves fd) fun found => ?_
  cases found with
  | none => exact .ret _
  | some found =>
      exact .bind (setOfile_moves _ _) fun _ => .bind (fileclose_moves machine _) fun _ => .ret _

theorem sysFstat_moves (fd : Int) : Moves before before (sysFstat machine fd) := by
  refine .bind (argfd_moves fd) fun found => ?_
  cases found with
  | none => exact .ret _
  | some found => exact filestat_moves machine _

theorem linkBad_moves (ip : Fin limits.ninode) : Moves true false (linkBad machine ip) :=
  .bind (ilock_moves machine ip) fun _ => .bind (setDinode_moves ip _) fun _ =>
    .bind (iupdate_moves machine ip) fun _ => .bind (iunlockput_moves machine ip) fun _ =>
      .bind (commitTrans_moves machine) fun _ => .ret _

theorem linkTo_moves (ip : Fin limits.ninode) (new : Path) :
    Moves true false (sysLink.linkTo machine ip new) := by
  refine .bind (nameiparent_moves machine new) fun parent => ?_
  cases parent with
  | none => exact linkBad_moves machine ip
  | some parent =>
      refine .bind (ilock_moves machine _) fun _ => .bind (inode_moves _) fun _ =>
        .bind (inode_moves ip) fun _ => .bind (.ite (.ret _) (dirlink_moves machine _ _ _)) fun _ =>
          .bind (iunlockput_moves machine _) fun _ => .ite (linkBad_moves machine ip) ?_
      exact .bind (iput_moves machine ip) fun _ => .bind (commitTrans_moves machine) fun _ => .ret _

theorem sysLink_moves (old new : Option Path) : Moves false false (sysLink machine old new) := by
  cases old with
  | none => exact .ret _
  | some old =>
      cases new with
      | none => exact .ret _
      | some new =>
          refine .bind (namei_moves machine old) fun found => ?_
          cases found with
          | none => exact .ret _
          | some ip =>
              refine .bind beginTrans_moves fun _ => .bind (ilock_moves machine ip) fun _ =>
                .bind (inode_moves ip) fun _ => .ite ?_ ?_
              · exact .bind (iunlockput_moves machine ip) fun _ =>
                  .bind (commitTrans_moves machine) fun _ => .ret _
              · exact .bind (setDinode_moves ip _) fun _ => .bind (iupdate_moves machine ip) fun _ =>
                  .bind (iunlock_moves ip) fun _ => linkTo_moves machine ip new

theorem isdiremptyFrom_moves (dp : Fin limits.ninode) (offs : List Nat) :
    Moves before before (isdiremptyFrom machine dp offs) := by
  induction offs with
  | nil => exact .ret _
  | cons off rest ih =>
      exact .bind (readDirent_moves machine dp off (by decide)) fun _ => .ite (.ret _) ih

theorem full_moves (ip : Fin limits.ninode) : Moves before before (sysUnlink.full machine ip) := by
  refine .bind (inode_moves ip) fun _ => .ite (.bind ?_ fun _ => .ret _) (.ret _)
  exact .bind (inode_moves ip) fun _ => isdiremptyFrom_moves machine ip _

theorem bad_moves (dp : Fin limits.ninode) : Moves true false (sysUnlink.bad machine dp) :=
  .bind (iunlockput_moves machine dp) fun _ => .bind (commitTrans_moves machine) fun _ => .ret _

theorem remove_moves (dp : Fin limits.ninode) (off : Nat) (ip : Fin limits.ninode) :
    Moves true false (sysUnlink.remove machine dp off ip) := by
  refine .bind (inode_moves ip) fun _ => .bind (.panicIf (by decide)) fun _ =>
    .bind (full_moves machine ip) fun _ => .ite ?_ ?_
  · exact .bind (iunlockput_moves machine ip) fun _ => bad_moves machine dp
  · refine .bind (writei_moves machine dp _ _ _) fun _ => .bind (.panicIf (by decide)) fun _ =>
      .bind (.when (.bind (setDinode_moves dp _) fun _ => iupdate_moves machine dp)) fun _ =>
        .bind (iunlockput_moves machine dp) fun _ => .bind (setDinode_moves ip _) fun _ => ?_
    exact .bind (iupdate_moves machine ip) fun _ => .bind (iunlockput_moves machine ip) fun _ =>
      .bind (commitTrans_moves machine) fun _ => .ret _

theorem sysUnlink_moves (path : Option Path) : Moves false false (sysUnlink machine path) := by
  cases path with
  | none => exact .ret _
  | some path =>
      refine .bind (nameiparent_moves machine path) fun parent => ?_
      cases parent with
      | none => exact .ret _
      | some parent =>
          refine .bind beginTrans_moves fun _ => .bind (ilock_moves machine _) fun _ =>
            .ite (bad_moves machine _) (.bind (dirlookup_moves machine _ _) fun found => ?_)
          cases found with
          | none => exact bad_moves machine _
          | some found => exact .bind (ilock_moves machine _) fun _ => remove_moves machine _ _ _

theorem createNew_moves (dp : Fin limits.ninode) (name : Name) (type major minor : Nat) :
    Moves true true (createNew machine dp name type major minor) := by
  refine .bind (inode_moves dp) fun _ => .bind (ialloc_moves machine _ _) fun ip =>
    .bind (ilock_moves machine ip) fun _ => .bind (setDinode_moves ip _) fun _ =>
      .bind (iupdate_moves machine ip) fun _ => .bind (inode_moves ip) fun _ =>
        .bind (.when ?_) fun _ => .bind (dirlink_moves machine dp _ _) fun _ =>
          .bind (.panicIf (by decide)) fun _ => .bind (iunlockput_moves machine dp) fun _ => .ret _
  exact .bind (setDinode_moves dp _) fun _ => .bind (iupdate_moves machine dp) fun _ =>
    .bind (dirlink_moves machine ip _ _) fun _ => .bind (.panicIf (by decide)) fun _ =>
      .bind (dirlink_moves machine ip _ _) fun _ => .panicIf (by decide)

theorem create_moves (path : Path) (type major minor : Nat) :
    Moves true true (create machine path type major minor) := by
  refine .bind (nameiparent_moves machine path) fun parent => ?_
  cases parent with
  | none => exact .ret _
  | some parent =>
      refine .bind (ilock_moves machine _) fun _ => .bind (dirlookup_moves machine _ _) fun found => ?_
      cases found with
      | some found =>
          exact .bind (iunlockput_moves machine _) fun _ => .bind (ilock_moves machine _) fun _ =>
            .bind (inode_moves _) fun _ => .ite (.ret _)
              (.bind (iunlockput_moves machine _) fun _ => .ret _)
      | none => exact .bind (createNew_moves machine _ _ _ _ _) fun _ => .ret _

theorem openInode_moves (ip : Fin limits.ninode) (omode : Nat) :
    Moves false false (openInode machine ip omode) := by
  refine .bind filealloc_moves fun f => ?_
  cases f with
  | none => exact .bind (iunlockput_moves machine ip) fun _ => .ret _
  | some f =>
      refine .bind (fdalloc_moves f) fun fd => ?_
      cases fd with
      | none =>
          exact .bind (fileclose_moves machine f) fun _ =>
            .bind (iunlockput_moves machine ip) fun _ => .ret _
      | some fd =>
          refine .bind (.when (.truncates fun found hfound => ?_)) fun _ =>
            .bind (iunlock_moves ip) fun _ => .bind (updateFile_moves f _) fun _ => .ret _
          obtain rfl := hfound rfl
          exact .ret _

theorem sysOpen_moves (path : Option Path) (omode : Nat) :
    Moves false false (sysOpen machine path omode) := by
  cases path with
  | none => exact .ret _
  | some path =>
      refine .ite ?_ (.bind (namei_moves machine path) fun ip => ?_)
      · exact .bind beginTrans_moves fun _ => .bind (create_moves machine path _ _ _) fun ip =>
          .bind (commitTrans_moves machine) fun _ => .elim (.ret _) fun ip =>
            openInode_moves machine ip omode
      · cases ip with
        | none => exact .ret _
        | some ip =>
            exact .bind (ilock_moves machine ip) fun _ => .bind (inode_moves ip) fun _ =>
              .ite (.bind (iunlockput_moves machine ip) fun _ => .ret _)
                (openInode_moves machine ip omode)

theorem sysCreate_moves (path : Option Path) (type : Nat) (device : Option (Nat × Nat)) :
    Moves false false (sysCreate machine path type device) := by
  have hmade : Moves true true (sysCreate.made machine path type device) := by
    cases path with
    | none => exact .ret _
    | some path =>
        cases device with
        | none => exact .ret _
        | some device => exact create_moves machine path _ _ _
  refine .bind beginTrans_moves fun _ => .bind hmade fun ip => ?_
  cases ip with
  | none => exact .bind (commitTrans_moves machine) fun _ => .ret _
  | some ip =>
      exact .bind (iunlockput_moves machine ip) fun _ =>
        .bind (commitTrans_moves machine) fun _ => .ret _

theorem setCwd_moves (ip : Option (Fin limits.ninode)) : Moves before before (setCwd ip) :=
  .bind self_moves fun _ => updateProc_moves _ _

theorem putCwd_moves : Moves before before (putCwd machine) :=
  .bind self_moves fun _ => .bind (proc_moves _) fun _ =>
    .elim (.panic (by decide)) fun ip => iput_moves machine ip

theorem sysChdir_moves (path : Option Path) : Moves before before (sysChdir machine path) := by
  cases path with
  | none => exact .ret _
  | some path =>
      refine .bind (namei_moves machine path) fun ip => ?_
      cases ip with
      | none => exact .ret _
      | some ip =>
          refine .bind (ilock_moves machine ip) fun _ => .bind (inode_moves ip) fun _ =>
            .ite (.bind (iunlockput_moves machine ip) fun _ => .ret _) ?_
          exact .bind (iunlock_moves ip) fun _ => .bind (putCwd_moves machine) fun _ =>
            .bind (setCwd_moves _) fun _ => .ret _

/-! ### Processes -/

theorem loaduvmFrom_moves (ip : Fin limits.ninode) (offset size : UInt32) (pages : List Nat) :
    Moves before before (loaduvmFrom machine ip offset size pages) := by
  induction pages with
  | nil => exact .ret _
  | cons page rest ih => exact .bind (readi_moves machine ip _ _) fun _ => .ite (.ret _) ih

theorem loadFrom_moves (ip : Fin limits.ninode) (count : Nat) (off : UInt32) :
    Moves before before (loadFrom machine ip count off) := by
  induction count generalizing off with
  | zero => exact .ret _
  | succ count ih =>
      refine .bind (readi_moves machine ip _ _) fun _ => .ite (.ret _) (.ite (ih _) ?_)
      exact .bind outside_moves fun _ => .ite (.ret _)
        (.bind (loaduvmFrom_moves machine ip _ _ _) fun _ => .ite (ih _) (.ret _))

theorem load_moves (ip : Fin limits.ninode) : Moves before before (sysExec.load machine ip) :=
  .bind (readi_moves machine ip _ _) fun _ => .bind outside_moves fun _ =>
    .bind outside_moves fun _ => .ite (.ret _) (loadFrom_moves machine ip _ _)

theorem sysExec_moves (path : Option Path) : Moves before before (sysExec machine path) := by
  cases path with
  | none => exact .ret _
  | some path =>
      refine .bind (namei_moves machine path) fun ip => ?_
      cases ip with
      | none => exact .ret _
      | some ip =>
          exact .bind (ilock_moves machine ip) fun _ => .bind (load_moves machine ip) fun _ =>
            .bind (iunlockput_moves machine ip) fun _ => .bind outside_moves fun _ => .ret _

theorem pipealloc_moves : Moves false false (pipealloc machine) := by
  refine .bind filealloc_moves fun f0 => ?_
  cases f0 with
  | none => exact .ret _
  | some f0 =>
      refine .bind filealloc_moves fun f1 => ?_
      cases f1 with
      | none => exact .bind (fileclose_moves machine f0) fun _ => .ret _
      | some f1 =>
          refine .bind outside_moves fun _ => .ite ?_ ?_
          · exact .bind (fileclose_moves machine f0) fun _ =>
              .bind (fileclose_moves machine f1) fun _ => .ret _
          · exact .bind (updateFile_moves f0 _) fun _ => .bind (updateFile_moves f1 _) fun _ => .ret _

theorem sysPipe_moves (fetched : Bool) : Moves false false (sysPipe machine fetched) := by
  have hbad : ∀ rf wf, Moves false false (sysPipe.bad machine rf wf) := fun rf wf =>
    .bind (fileclose_moves machine rf) fun _ => .bind (fileclose_moves machine wf) fun _ => .ret _
  refine .ite (.bind (pipealloc_moves machine) fun files => ?_) (.ret _)
  cases files with
  | none => exact .ret _
  | some files =>
      refine .bind (fdalloc_moves _) fun fd0 => ?_
      cases fd0 with
      | none => exact hbad _ _
      | some fd0 =>
          refine .bind (fdalloc_moves _) fun fd1 => ?_
          cases fd1 with
          | none => exact .bind (setOfile_moves fd0 _) fun _ => hbad _ _
          | some fd1 => exact .ret _

theorem dupFiles_moves (np : Fin limits.nproc) (fds : List (Fin nofile)) :
    Moves before before (dupFiles np fds) := by
  induction fds with
  | nil => exact .ret _
  | cons fd rest ih =>
      refine .bind self_moves fun _ => .bind (proc_moves _) fun _ =>
        .bind (.elim (.ret _) fun f => ?_) fun _ => ih
      exact .bind (filedup_moves f) fun _ => updateProc_moves np _

theorem sysFork_moves : Moves before before (sysFork : Code limits Int) := by
  refine .bind (.perform fun _ h => h) fun np => ?_
  cases np with
  | none => exact .ret _
  | some np =>
      refine .bind outside_moves fun _ => .bind outside_moves fun _ =>
        .ite (.bind (updateProc_moves np _) fun _ => .ret _) (.bind self_moves fun curproc => ?_)
      refine .bind (updateProc_moves np _) fun _ => .bind (dupFiles_moves np _) fun _ =>
        .bind (proc_moves curproc) fun _ => .bind (.elim (.panic (by decide)) fun cwd => ?_) fun _ =>
          .bind (updateProc_moves np _) fun _ => .ret _
      exact .bind (.perform fun _ h => h) fun _ => updateProc_moves np _

theorem closeFiles_moves (fds : List (Fin nofile)) :
    Moves false false (closeFiles machine fds) := by
  induction fds with
  | nil => exact .ret _
  | cons fd rest ih =>
      refine .bind self_moves fun _ => .bind (proc_moves _) fun _ =>
        .bind (.elim (.ret _) fun f => ?_) fun _ => ih
      exact .bind (fileclose_moves machine f) fun _ => setOfile_moves fd _

theorem sysExit_moves : Moves false false (sysExit machine) :=
  .bind self_moves fun _ => .bind (.panicIf (by decide)) fun _ =>
    .bind (closeFiles_moves machine _) fun _ => .bind (putCwd_moves machine) fun _ =>
      .bind (setCwd_moves _) fun _ => .bind (.perform fun _ h => h) fun _ => .ret _

theorem syscall_moves (call : Call) : Moves false false (syscall machine call) := by
  cases call with
  | dup fd => exact sysDup_moves fd
  | read fd count => exact sysRead_moves machine fd count
  | write fd src count => exact sysWrite_moves machine fd src count
  | close fd => exact sysClose_moves machine fd
  | fstat fd => exact sysFstat_moves machine fd
  | link old new => exact sysLink_moves machine old new
  | unlink path => exact sysUnlink_moves machine path
  | «open» path omode => exact sysOpen_moves machine path omode
  | mkdir path => exact sysCreate_moves machine path _ _
  | mknod path device => exact sysCreate_moves machine path _ device
  | chdir path => exact sysChdir_moves machine path
  | exec path => exact sysExec_moves machine path
  | pipe fetched => exact sysPipe_moves machine fetched
  | fork => exact sysFork_moves
  | exit => exact sysExit_moves machine
  | wait => exact .bind (.perform fun _ h => h) fun _ => .ret _

end Functions

/-! ### Runs -/

theorem menu_sound (machine : Machine limits) :
    Threads.MenuSound (system machine).menu rule fun _ _ inTrans => inTrans = false := by
  intro who call value program inTrans hprogram hout
  cases hprogram
  rw [hout]
  exact Moves.bind (.perform fun _ h => h) fun _ => syscall_moves machine call

theorem verified_boot (machine : Machine limits) (root : Fin limits.ninode) (memdisk : Nat → Bytes) :
    Threads.Verified rule Inv (fun _ _ inTrans => inTrans = false) (boot machine root memdisk) := by
  refine ⟨fun _ => false, ⟨rfl, fun who => ⟨fun h => (by cases h), fun h => (by cases h)⟩⟩,
    fun who => ?_⟩
  exact Moves.bind (.when (Stores.recoverFromLog _)) fun _ => .ret _

/-- **Logging inside transactions.** In every run whose tests all go right, a process that calls
`log_write` is in a transaction of its own. -/
theorem logsInside_of_run (machine : Machine limits) (root : Fin limits.ninode)
    (memdisk : Nat → Bytes) {actions : List (Threads.Action (Fin limits.nproc) Call Empty)}
    {world : Threads (sections limits) (State limits) (Fin limits.nproc) Int}
    (hallowed : Transition.Along (Threads.step (system machine)) (Threads.Meets Allowed)
      (boot machine root memdisk) actions)
    (hrun : Transition.run (Threads.step (system machine)) (boot machine root memdisk) actions =
      some world) : LogsInside world := by
  have henv : Threads.EnvSound (system machine).environment rule Inv
      fun _ _ inTrans => inTrans = false := by
    intro _ _ _ _ hnone
    cases hnone
  obtain ⟨inTrans, hinv, hwp⟩ := Threads.sound (handler_sound machine) henv (menu_sound machine)
    (verified_boot machine root memdisk) hallowed hrun
  intro who op hop
  have hnext := hwp who
  unfold Threads.nextOp at hop
  cases hthread : world.thread who with
  | ret value => simp [hthread] at hop
  | call next rest =>
      rw [hthread] at hop hnext
      obtain rfl := Option.some.inj hop
      refine ⟨fun hlogs => ?_, fun hpanic => ?_⟩
      · cases next with
        | logWrite b =>
            have howner := (hinv.owner who).mp hnext.1
            exact ⟨howner, by rw [hinv.busy, howner]; rfl⟩
        | _ => exact absurd hlogs id
      · subst hpanic
        exact hnext rfl

abbrev smallLimits : Limits := ⟨3, 2, 1, 1⟩

abbrev smallProc : Fin smallLimits.nproc := Fin.last 0

def smallMachine : Machine smallLimits := ⟨⟨Kernel.smallConf, 1000⟩, smallProc⟩

/-- A disk with one empty file, `f`, in the root directory. -/
def smallImage (blockno : Nat) : Bytes :=
  if blockno = 1 then Bytes.setUints 4 (fun _ => 0) 4 [1000, 900, 10, 10, 2, 12, 20]
  else if blockno = 12 then
    Xv6.Fs.Dinode.store ⟨tDir, 0, 0, 1, 16, Function.update (fun _ => 0) 0 30⟩ (fun _ => 0) 256
  else if blockno = 13 then Xv6.Fs.Dinode.store ⟨tFile, 0, 0, 1, 0, fun _ => 0⟩ (fun _ => 0) 0
  else if blockno = 20 then fun i => if i < 4 then 255 else 0
  else if blockno = 30 then Dirent.bytes ⟨2, [102]⟩
  else fun _ => 0

abbrev smallBoot : Threads (sections smallLimits) (State smallLimits) (Fin smallLimits.nproc) Int :=
  boot smallMachine (Fin.last 0).castSucc smallImage

def steps (count : Nat) : List (Threads.Action (Fin smallLimits.nproc) Call Empty) :=
  List.replicate count (.perform smallProc 0)

/-- The first process opens `f` to write to it, and writes four bytes. -/
def openAndWrite : List (Threads.Action (Fin smallLimits.nproc) Call Empty) :=
  steps 33 ++ .start smallProc (.open (some [102]) oRdwr) :: steps 89 ++
    .start smallProc (.write 0 (fun _ => 7) (some 4)) :: steps 32

theorem logsInside_of_run_openAndWrite :
    ∃ world, Transition.run (Threads.step (system smallMachine)) smallBoot openAndWrite = some world ∧
      LogsInside world := by
  have hrun : ∃ world, Transition.run (Threads.step (system smallMachine)) smallBoot openAndWrite =
      some world := by
    rw [← Option.isSome_iff_exists]
    decide +kernel
  obtain ⟨world, hworld⟩ := hrun
  have hallowed : Transition.Along (Threads.step (system smallMachine)) (Threads.Meets Allowed)
      smallBoot openAndWrite := by
    decide +kernel
  exact ⟨world, hworld, logsInside_of_run smallMachine _ smallImage hallowed hworld⟩

/-- The first process opens `f` with `O_TRUNC`. -/
def openTruncating : List (Threads.Action (Fin smallLimits.nproc) Call Empty) :=
  steps 33 ++ .start smallProc (.open (some [102]) (oRdwr + oTrunc)) :: steps 162

/-- The file is truncated while nobody is in a transaction. -/
theorem not_logsInside_openTruncating :
    ∃ world, Transition.run (Threads.step (system smallMachine)) smallBoot openTruncating =
      some world ∧ ¬LogsInside world := by
  have hrun : ∃ world ∈ Transition.run (Threads.step (system smallMachine)) smallBoot openTruncating,
      world.shared.owner = none ∧
        ∃ op ∈ world.nextOp smallProc, Op.IsLogWrite op := by
    decide +kernel
  obtain ⟨world, hworld, hnobody, op, hop, hlogs⟩ := hrun
  refine ⟨world, hworld, fun hinside => ?_⟩
  have howner := ((hinside smallProc op hop).1 hlogs).1
  rw [hnobody] at howner
  cases howner

end Xv6.Legacy.Fs
