import Xv6.Names.Namex

/-!
# Opening a file

`create` and `sys_open` of `sysfile.c`, with `filealloc` and `fileclose` of `file.c`. Pipes are not in the
state.
-/

namespace Xv6.Names

open Fs (direntSize tDir dirsiz Dirent)

def tFile : Nat := 2

def tDevice : Nat := 3

def ndev : Int := 10

/-- `ip` is changed and written to the disk with `iupdate`. -/
def update (i : Fin ninode) (dinode : Dinode) : Code Unit := fun s =>
  let ip := s.inode i
  .ok ((), { s.set i { ip with dinode } with disk := Function.update s.disk ip.id dinode })

def itrunc (i : Fin ninode) : Code Unit := do
  let ip ← locked i
  update i { ip.dinode with data := [] }

def ialloc (ninodes dev type : Nat) : Code (Fin ninode) := fun s =>
  match (List.range ninodes).find? fun inum => 1 ≤ inum ∧ (s.disk ⟨dev, inum⟩).type = 0 with
  | none => .error "ialloc: no inodes"
  | some inum =>
      iget ⟨dev, inum⟩ { s with disk := Function.update s.disk ⟨dev, inum⟩ ⟨type, 0, 0, 0, []⟩ }

/-- Write data of the kernel to inode. `bmap` says whether there is a block at an offset, or a free one. -/
def writei (bmap : Nat → Bool) (i : Fin ninode) (bytes : List UInt8) (off : Nat) : Code Int := do
  let ip ← locked i
  if off > ip.dinode.data.length then
    pure (-1)
  else if off + bytes.length > maxFile * bsize then
    pure (-1)
  else if bmap off = false then
    panic "balloc: out of blocks"
  else do
    let data := ip.dinode.data.take off ++ bytes ++ ip.dinode.data.drop (off + bytes.length)
    update i { ip.dinode with data }
    pure bytes.length

/-- The loop of `dirlink` that looks for an empty dirent. -/
def emptyFrom (dp : Dinode) : List Nat → Except String Nat
  | [] => .ok ((dp.data.length + direntSize - 1) / direntSize * direntSize)
  | off :: rest =>
      let bytes := (dp.data.drop off).take direntSize
      if bytes.length ≠ direntSize then .error "dirlink read"
      else if (Dirent.load bytes).inum = 0 then .ok off
      else emptyFrom dp rest

/-- The bytes of a new entry. The name is copied with `strncpy`. -/
def direntBytes (name : Bytes) (inum : Nat) : List UInt8 :=
  Bytes.load (Dirent.bytes ⟨inum, cstring (charsOf name dirsiz)⟩) 0 direntSize

/-- Write a new directory entry (name, inum) into the directory dp. -/
def dirlink (bmap : Nat → Bool) (i : Fin ninode) (name : Bytes) (inum : Nat) : Code Int := do
  -- Check that name is not present.
  let found ← dirlookup i name
  match found with
  | some (ip, _) => do
      iput ip
      pure (-1)
  | none => do
      let dp ← locked i
      match emptyFrom dp.dinode (Fs.offsets dp.dinode.data.length) with
      | .error message => panic message
      | .ok off => do
          let written ← writei bmap i (direntBytes name inum) off
          if written ≠ direntSize then panic "dirlink" else pure 0

/-- `"."` and `".."`. -/
def dot : Bytes := cstring [46]
def dotdot : Bytes := cstring [46, 46]

section Create

variable (ninodes : Nat) (bmap : Nat → Bool)

def createDots (dp i : Fin ninode) : Code Unit := do
  let parent ← locked dp
  let ip ← locked i
  update dp { parent.dinode with nlink := parent.dinode.nlink + 1 }
  let here ← dirlink bmap i dot ip.id.inum
  let above ← dirlink bmap i dotdot parent.id.inum
  if here < 0 ∨ above < 0 then panic "create dots" else pure ()

def newInode (dev type : Nat) (major minor : Int) : Code (Fin ninode) := do
  let i ← ialloc ninodes dev type
  ilock i
  let ip ← locked i
  update i { ip.dinode with major, minor, nlink := 1 }
  pure i

/-- `create` for a name that is not there: `dp` and the new inode are locked. -/
def createNew (dp : Fin ninode) (name : Bytes) (type : Nat) (major minor : Int) : Code (Fin ninode) := do
  let parent ← locked dp
  let i ← newInode ninodes parent.id.dev type major minor
  if type = tDir then createDots bmap dp i else pure ()
  let ip ← locked i
  let linked ← dirlink bmap dp name ip.id.inum
  if linked < 0 then
    panic "create: dirlink"
  else do
    iunlockput dp
    pure i

/-- The inode of a path, locked: the one that is there, if it may be opened, or a new one. -/
def create (path : Path) (buffer : Bytes) (type : Nat) (major minor : Int) : Code (Option (Fin ninode)) := do
  let (dp, name) ← nameiparent path buffer
  match dp with
  | none => pure none
  | some dp => do
      ilock dp
      let found ← dirlookup dp name
      match found with
      | some (i, _) => do
          iunlockput dp
          ilock i
          let ip ← locked i
          if type = tFile ∧ (ip.dinode.type = tFile ∨ ip.dinode.type = tDevice) then
            pure (some i)
          else do
            iunlockput i
            pure none
      | none => do
          let i ← createNew ninodes bmap dp name type major minor
          pure (some i)

end Create

def filealloc : Code (Option (Fin nfile)) := fun s =>
  match (List.finRange nfile).find? fun f => (s.file f).ref = 0 with
  | none => .ok (none, s)
  | some f => .ok (some f, { s with file := Function.update s.file f { s.file f with ref := 1 } })

def fdalloc (f : Fin nfile) : Code (Option (Fin nofile)) := fun s =>
  match (List.finRange nofile).find? fun fd => s.ofile fd = none with
  | none => .ok (none, s)
  | some fd => .ok (some fd, { s with ofile := Function.update s.ofile fd (some f) })

def fileclose (f : Fin nfile) : Code Unit := do
  let s ← get
  let ff := s.file f
  if ff.ref < 1 then
    panic "fileclose"
  else if ff.ref > 1 then
    set { s with file := Function.update s.file f { ff with ref := ff.ref - 1 } }
  else do
    set { s with file := Function.update s.file f { ff with ref := 0, type := .none } }
    if ff.type = .inode ∨ ff.type = .device then iput ff.ip else pure ()

/-- A mode is an `int` of flags. -/
abbrev Mode := BitVec 32

def oRdonly : Mode := 0
def oWronly : Mode := 1
def oRdwr : Mode := 2
def oCreate : Mode := 0x200
def oTrunc : Mode := 0x400

section Open

variable (ninodes : Nat) (bmap : Nat → Bool)

/-- The inode that `sys_open` opens, locked. -/
def openInode (path : Path) (buffer : Bytes) (omode : Mode) : Code (Option (Fin ninode)) :=
  if omode &&& oCreate ≠ 0 then
    create ninodes bmap path buffer tFile 0 0
  else do
    let found ← namei path buffer
    match found with
    | none => pure none
    | some i => do
        ilock i
        let ip ← locked i
        if ip.dinode.type = tDir ∧ omode ≠ oRdonly then do
          iunlockput i
          pure none
        else
          pure (some i)

/-- A file structure and a descriptor for it, or neither. -/
def fileAndDescriptor : Code (Option (Fin nfile × Fin nofile)) := do
  let file ← filealloc
  match file with
  | none => pure none
  | some f => do
      let fd ← fdalloc f
      match fd with
      | none => do
          fileclose f
          pure none
      | some fd => pure (some (f, fd))

/-- The file is filled in, and its inode truncated. -/
def install (f : Fin nfile) (i : Fin ninode) (omode : Mode) : Code Unit := do
  let ip ← locked i
  modify fun s => { s with file := Function.update s.file f { s.file f with
    type := if ip.dinode.type = tDevice then .device else .inode
    major := if ip.dinode.type = tDevice then ip.dinode.major else (s.file f).major
    off := if ip.dinode.type = tDevice then (s.file f).off else 0
    ip := i
    readable := decide (omode &&& oWronly = 0)
    writable := decide (omode &&& oWronly ≠ 0 ∨ omode &&& oRdwr ≠ 0) } }
  if omode &&& oTrunc ≠ 0 ∧ ip.dinode.type = tFile then itrunc i else pure ()
  iunlock i

/-- `sys_open`, with its arguments if they are right. -/
def sysOpen (args : Option (Path × Mode)) (buffer : Bytes) : Code Int :=
  match args with
  | none => pure (-1)
  | some (path, omode) => do
      let found ← openInode ninodes bmap path buffer omode
      match found with
      | none => pure (-1)
      | some i => do
          let ip ← locked i
          if ip.dinode.type = tDevice ∧ (ip.dinode.major < 0 ∨ ip.dinode.major ≥ ndev) then do
            iunlockput i
            pure (-1)
          else do
            let slot ← fileAndDescriptor
            match slot with
            | none => do
                iunlockput i
                pure (-1)
            | some (f, fd) => do
                install f i omode
                pure fd.val

end Open

/-! ### A new inode -/

section New

variable {s s' mid : State} {i dp : Fin ninode} {id dir : Id} {name : Bytes} {bmap : Nat → Bool}

theorem bind_eq_ok {α β : Type} {code : Code α} {rest : α → Code β} {b : β}
    (h : (code >>= rest) s = .ok (b, s')) : ∃ a mid, code s = .ok (a, mid) ∧ rest a mid = .ok (b, s') := by
  cases hcode : code s with
  | error message =>
      rw [bind_error hcode] at h
      cases h
  | ok r =>
      obtain ⟨a, mid⟩ := r
      rw [bind_ok hcode] at h
      exact ⟨a, mid, rfl, h⟩

structure Touches (i : Fin ninode) (id : Id) (s s' : State) : Prop where
  names : (s.inode i).id = id → (s'.inode i).id = id
  inode : ∀ j, j ≠ i → s'.inode j = s.inode j
  disk : ∀ other, other ≠ id → s'.disk other = s.disk other
  file : s'.file = s.file
  ofile : s'.ofile = s.ofile

theorem Touches.refl (i : Fin ninode) (id : Id) (s : State) : Touches i id s s :=
  ⟨fun hid => hid, fun _ _ => rfl, fun _ _ => rfl, rfl, rfl⟩

theorem Touches.trans (h : Touches i id s mid) (h' : Touches i id mid s') : Touches i id s s' where
  names hid := h'.names (h.names hid)
  inode j hj := (h'.inode j hj).trans (h.inode j hj)
  disk other hother := (h'.disk other hother).trans (h.disk other hother)
  file := h'.file.trans h.file
  ofile := h'.ofile.trans h.ofile

theorem Touches.set {ip : Inode} (hid : ip.id = (s.inode i).id) : Touches i id s (s.set i ip) :=
  ⟨fun h => by rw [set_self, hid, h], fun _ hj => set_of_ne hj, fun _ _ => rfl, rfl, rfl⟩

theorem Touches.setDisk {ip : Inode} {dinode : Dinode} (hid : ip.id = (s.inode i).id) :
    Touches i (s.inode i).id s { s.set i ip with disk := Function.update s.disk (s.inode i).id dinode } :=
  ⟨fun _ => (congrArg Inode.id (set_self s i ip)).trans hid, fun _ hj => set_of_ne hj,
    fun _ hother => Function.update_of_ne hother .., rfl, rfl⟩

theorem iput_touches (hid : (s.inode i).id = id) (h : iput i s = .ok ((), s')) : Touches i id s s' := by
  subst hid
  unfold iput at h
  dsimp only at h
  split_ifs at h
  · cases h
    exact Touches.setDisk rfl
  · cases h
    exact Touches.set rfl

theorem iunlock_touches (h : iunlock i s = .ok ((), s')) : Touches i id s s' := by
  unfold iunlock at h
  dsimp only at h
  split_ifs at h
  cases h
  exact Touches.set rfl

theorem iunlockput_touches (hid : (s.inode i).id = id) (h : iunlockput i s = .ok ((), s')) :
    Touches i id s s' := by
  obtain ⟨_, mid, hunlock, hput⟩ := bind_eq_ok h
  have hfirst := @iunlock_touches s mid i id hunlock
  exact hfirst.trans (iput_touches (hfirst.names hid) hput)

theorem iunlockput_disk (hnlink : (s.inode i).dinode.nlink ≠ 0) (h : iunlockput i s = .ok ((), s')) :
    s'.disk = s.disk := by
  obtain ⟨_, mid, hunlock, hput⟩ := bind_eq_ok h
  unfold iunlock at hunlock
  dsimp only at hunlock
  split_ifs at hunlock
  cases hunlock
  unfold iput at hput
  dsimp only at hput
  rw [set_self, if_neg fun hfreed => hnlink hfreed.2.2] at hput
  cases hput
  rfl

theorem dirlookup_none (h : dirlookup i name s = .ok (none, s')) : s' = s := by
  obtain ⟨dp, mid, hlocked, hrest⟩ := bind_eq_ok h
  cases hlocked
  split_ifs at hrest
  · cases hrest
  · cases hfrom : dirlookupFrom (s.inode i).dinode name (Fs.offsets (s.inode i).dinode.data.length) with
    | error message =>
        rw [hfrom] at hrest
        cases hrest
    | ok found =>
        rw [hfrom] at hrest
        cases found with
        | none =>
            cases hrest
            rfl
        | some found =>
            obtain ⟨_, _, _, hpure⟩ := bind_eq_ok hrest
            cases hpure

theorem writei_touches {bytes : List UInt8} {off : Nat} {r : Int} (hid : (s.inode i).id = id)
    (h : writei bmap i bytes off s = .ok (r, s')) : Touches i id s s' := by
  subst hid
  obtain ⟨ip, mid, hlocked, hrest⟩ := bind_eq_ok h
  cases hlocked
  split_ifs at hrest
  · cases hrest
    exact .refl _ _ _
  · cases hrest
    exact .refl _ _ _
  · cases hrest
  · obtain ⟨_, after, hupdate, hpure⟩ := bind_eq_ok hrest
    cases hupdate
    cases hpure
    exact Touches.setDisk rfl

theorem dirlink_touches {inum : Nat} {r : Int} (hid : (s.inode i).id = id) (hr : ¬r < 0)
    (h : dirlink bmap i name inum s = .ok (r, s')) : Touches i id s s' := by
  obtain ⟨found, mid, hlookup, hrest⟩ := bind_eq_ok h
  cases found with
  | some found =>
      obtain ⟨_, _, _, hpure⟩ := bind_eq_ok hrest
      cases hpure
      exact absurd (by decide : (-1 : Int) < 0) hr
  | none =>
      obtain rfl := dirlookup_none hlookup
      obtain ⟨dp, mid', hlocked, hwrite⟩ := bind_eq_ok hrest
      cases hlocked
      cases hempty : emptyFrom (mid.inode i).dinode (Fs.offsets (mid.inode i).dinode.data.length) with
      | error message =>
          rw [hempty] at hwrite
          cases hwrite
      | ok off =>
          rw [hempty] at hwrite
          obtain ⟨written, after, hwritten, hend⟩ := bind_eq_ok hwrite
          have htouches := writei_touches hid hwritten
          split_ifs at hend
          · cases hend
          · cases hend
            exact htouches

/-- The entry `i` has an inode that was free, and that is a file with one link now. -/
structure Made (s s' : State) (i : Fin ninode) : Prop where
  free : (s.disk (s'.inode i).id).type = 0
  disk : (s'.disk (s'.inode i).id).type = tFile
  type : (s'.inode i).dinode.type = tFile
  nlink : (s'.inode i).dinode.nlink ≠ 0
  file : s'.file = s.file
  ofile : s'.ofile = s.ofile

theorem Made.touches (h : Made s mid i) (hother : dp ≠ i) (hdir : (s.disk dir).type ≠ 0)
    (htouches : Touches dp dir mid s') : Made s s' i := by
  have hsame := htouches.inode i hother.symm
  have hne : (mid.inode i).id ≠ dir := fun heq => hdir (heq ▸ h.free)
  have hdisk := htouches.disk _ hne
  exact ⟨hsame ▸ h.free, by rw [hsame, hdisk]; exact h.disk, hsame ▸ h.type, hsame ▸ h.nlink,
    htouches.file.trans h.file, htouches.ofile.trans h.ofile⟩

theorem iget_entry (h : iget id s = .ok (i, s')) :
    ∃ ip : Inode, s' = s.set i ip ∧ ip.id = id ∧ (0 < (s.inode i).ref → (s.inode i).id = id) ∧
      (ip.valid = true → 0 < (s.inode i).ref ∧ (s.inode i).valid = true) := by
  unfold iget at h
  split at h
  · next j hfound =>
    have hj : 0 < (s.inode j).ref ∧ (s.inode j).id = id := by simpa using find_some hfound
    cases h
    exact ⟨_, rfl, hj.2, fun _ => hj.2, fun hvalid => ⟨hj.1, hvalid⟩⟩
  · split at h
    · cases h
    · next j hempty =>
      have hj : (s.inode j).ref = 0 := by simpa using find_some hempty
      cases h
      exact ⟨_, rfl, rfl, fun hpos => absurd hpos (by omega), fun hvalid => absurd hvalid Bool.false_ne_true⟩

theorem ilock_unread (hvalid : (s.inode i).valid = false) (h : ilock i s = .ok ((), s')) :
    s' = s.set i { s.inode i with held := true, valid := true, dinode := s.disk (s.inode i).id } := by
  unfold ilock at h
  dsimp only at h
  rw [hvalid, if_neg Bool.false_ne_true] at h
  split_ifs at h
  cases h
  rfl

theorem newInode_made {start : State} {ninodes dev : Nat} {major minor : Int} (h : During start s [dir] (some dp))
    (hdp : At s dp dir) (hdir : (start.disk dir).type ≠ 0)
    (hrun : newInode ninodes dev tFile major minor s = .ok (i, s')) :
    Made start s' i ∧ dp ≠ i ∧ (s'.inode dp).id = dir := by
  have hfile : s.file = start.file := by
    have hrest := congrArg State.file h.rest
    exact hrest
  have hofile : s.ofile = start.ofile := by
    have hrest := congrArg State.ofile h.rest
    exact hrest
  obtain ⟨j, s1, halloc, hrest⟩ := bind_eq_ok hrun
  unfold ialloc at halloc
  cases hfind : (List.range ninodes).find? fun inum => 1 ≤ inum ∧ (s.disk ⟨dev, inum⟩).type = 0 with
  | none =>
      rw [hfind] at halloc
      cases halloc
  | some inum =>
      rw [hfind] at halloc
      have hfound := List.find?_some hfind
      simp only [decide_eq_true_eq] at hfound
      dsimp only at halloc
      generalize (⟨dev, inum⟩ : Id) = new at hfound halloc
      have hfree : (start.disk new).type = 0 := h.disk ▸ hfound.2
      obtain ⟨ip, rfl, hid, hold, hvalid⟩ := iget_entry halloc
      -- the entry is not that of the directory, and has not been read
      have hne : dp ≠ j := by
        rintro rfl
        have hsame := hdp.1.symm.trans (hold hdp.2)
        exact hdir (hsame ▸ hfree)
      have hunread : ip.valid = false := by
        by_contra htrue
        obtain ⟨href, hread⟩ := hvalid (by simpa using htrue)
        have hfresh := h.table.fresh j href hread
        rw [show (s.inode j).id = new from hold href, h.disk] at hfresh
        exact hfresh.2 (hfresh.1 ▸ hfree)
      obtain ⟨_, s2, hlock, hrest⟩ := bind_eq_ok hrest
      have hlocked := ilock_unread (by rw [set_self]; exact hunread) hlock
      subst hlocked
      obtain ⟨ip', s3, hread, hrest⟩ := bind_eq_ok hrest
      cases hread
      obtain ⟨_, s4, hupdate, hpure⟩ := bind_eq_ok hrest
      cases hupdate
      cases hpure
      refine ⟨?_, hne, ?_⟩
      · constructor <;> simp [hid, hfree, hfile, hofile, State.set]
      · simp [State.set, hne, hdp.1]

theorem createNew_made {start : State} {ninodes : Nat} {major minor : Int} (h : During start s [dir] (some dp))
    (hdp : At s dp dir) (hdir : (start.disk dir).type ≠ 0)
    (hrun : createNew ninodes bmap dp name tFile major minor s = .ok (i, s')) : Made start s' i := by
  obtain ⟨parent, mid, hparent, hrest⟩ := bind_eq_ok hrun
  cases hparent
  obtain ⟨j, s1, hnew, hrest⟩ := bind_eq_ok hrest
  obtain ⟨hmade, hne, hid⟩ := newInode_made h hdp hdir hnew
  rw [if_neg (by decide : ¬tFile = tDir)] at hrest
  obtain ⟨ip, s3, hread, hrest⟩ := bind_eq_ok hrest
  cases hread
  obtain ⟨linked, s4, hlink, hrest⟩ := bind_eq_ok hrest
  split_ifs at hrest with hlinked
  · cases hrest
  · obtain ⟨_, s5, hput, hpure⟩ := bind_eq_ok hrest
    cases hpure
    have hfirst := dirlink_touches hid hlinked hlink
    exact hmade.touches hne hdir (hfirst.trans (iunlockput_touches (hfirst.names hid) hput))

end New

/-! ### Failure -/

section Failure

variable {s s' : State} {ninodes : Nat} {bmap : Nat → Bool} {path : Path} {omode : Mode} {buffer : Bytes}

/-- The tree, the open files and the descriptors are as before, and the inodes in the table are as on the
disk. -/
structure Same (s s' : State) : Prop where
  disk : s'.disk = s.disk
  table : Table s'
  file : s'.file = s.file
  ofile : s'.ofile = s.ofile

theorem During.same {extra : List Id} {lock : Option (Fin ninode)} (h : During s s' extra lock) : Same s s' where
  disk := h.disk
  table := h.table
  file := by
    have hfile := congrArg State.file h.rest
    exact hfile
  ofile := by
    have hofile := congrArg State.ofile h.rest
    exact hofile

/-- `create` is to make a new inode: the path leads to a directory that does not have the last component. -/
def Makes (s : State) (path : Path) (omode : Mode) : Prop :=
  omode &&& oCreate ≠ 0 ∧ ∃ dir last, s.resolveParent path = .ok (some dir) ∧
    (components path).getLast? = some last ∧ lookup (s.disk dir) last = .ok none

def Full (s : State) : Prop := (∀ f, (s.file f).ref ≠ 0) ∨ ∀ fd, s.ofile fd ≠ none

/-- What `openInode` may come to. -/
def Opened (s : State) (path : Path) (omode : Mode) : Option (Fin ninode) → State → Prop
  | none, s' => ¬Makes s path omode ∧ During s s' [] none
  | some i, s' => (¬Makes s path omode ∧ ∃ id, At s' i id ∧ During s s' [id] (some i)) ∨
      Makes s path omode ∧ Made s s' i

theorem lookup_of_child {disk : Id → Dinode} {used : Finset Id} {dir : Id} {name : Path}
    (h : child disk used dir name = .ok none) : lookup (disk dir) name = .ok none := by
  unfold child at h
  cases hlookup : lookup (disk dir) name with
  | error message =>
      rw [hlookup] at h
      cases h
  | ok found =>
      cases found with
      | none => rfl
      | some inum =>
          rw [hlookup] at h
          unfold enter at h
          dsimp only [bind, Except.bind] at h
          split_ifs at h <;> cases h

theorem child_of_lookup {disk : Id → Dinode} {used : Finset Id} {dir : Id} {name : Path}
    (h : lookup (disk dir) name = .ok none) : child disk used dir name = .ok none := by
  rw [child, h]
  rfl

theorem isDir_of_resolveParent {dir : Id} (h : s.resolveParent path = .ok (some dir)) :
    (s.disk dir).type = tDir ∧ ∃ last, (components path).getLast? = some last := by
  unfold State.resolveParent at h
  cases horigin : s.origin path with
  | error message =>
      rw [horigin] at h
      cases h
  | ok origin =>
      rw [horigin] at h
      change (if components path = [] then Except.ok none else _) = _ at h
      have hnil : components path ≠ [] := by
        intro hnil
        rw [if_pos hnil] at h
        cases h
      rw [if_neg hnil] at h
      cases hwalk : walk s.disk s.used (components path).dropLast origin with
      | error message =>
          rw [hwalk] at h
          cases h
      | ok reached =>
          rw [hwalk] at h
          cases reached with
          | none => cases h
          | some reached =>
              change (isDir s.disk reached >>= _) = _ at h
              unfold isDir at h
              split_ifs at h
              · cases h
              · dsimp only [bind, Except.bind] at h
                by_cases htype : (s.disk reached).type = tDir
                · rw [decide_eq_true htype] at h
                  cases h
                  exact ⟨htype, _, List.getLast?_eq_some_getLast hnil⟩
                · rw [decide_eq_false htype] at h
                  cases h

theorem not_error {α : Type} {run : Except String (α × State)} {r : α × State} {message : String}
    (hrun : run = .ok r) (herror : run = .error message) : False := by
  rw [hrun] at herror
  cases herror

theorem create_spec (h : Quiet s) (hpath : 0 ∉ path) (hcreate : omode &&& oCreate ≠ 0)
    {found : Option (Fin ninode)} (hrun : create ninodes bmap path buffer tFile 0 0 s = .ok (found, s')) :
    Opened s path omode found s' := by
  obtain ⟨⟨dp, name⟩, s1, hparent, hrest⟩ := bind_eq_ok hrun
  rcases nameiparent_spec h hpath buffer with
    ⟨message, -, herror⟩ | ⟨hresolve, r, s2, hok, hentry, hs1⟩ | ⟨dir, i, r, s2, hresolve, hok, hentry, hi, hs1, hname⟩
  · exact (not_error hparent herror).elim
  · cases hok.symm.trans hparent
    obtain rfl : dp = none := hentry
    cases hrest
    refine ⟨?_, hs1⟩
    rintro ⟨-, dir, last, hdir, -⟩
    rw [hresolve] at hdir
    cases hdir
  · cases hok.symm.trans hparent
    obtain rfl : dp = some i := hentry
    obtain ⟨htype, last, hlast⟩ := isDir_of_resolveParent hresolve
    have hname : charsOf name dirsiz = last.take dirsiz := hname last hlast
    have hmakes : Makes s path omode ↔ lookup (s.disk dir) last = .ok none := by
      constructor
      · rintro ⟨-, dir', last', hdir', hlast', hnone⟩
        cases hresolve.symm.trans hdir'
        cases hlast.symm.trans hlast'
        exact hnone
      · exact fun hnone => ⟨hcreate, dir, last, hresolve, hlast, hnone⟩
    rcases ilock_spec hs1 hi with ⟨hfree, -⟩ | ⟨hused, s2, hlock, hs2, hdinode, hstays⟩
    · exact absurd (htype.symm.trans hfree) (by decide)
    · dsimp only at hrest
      rw [bind_ok hlock] at hrest
      have hi2 := hstays i dir hi
      rcases dirlookup_spec hname hs2 hi2 hdinode htype with
        ⟨message, -, herror⟩ | ⟨hchild, hlookup⟩ | ⟨next, j, off, s3, hchild, hlookup, hj, hs3, hi3⟩
      · exact (not_error hrest (bind_error herror)).elim
      · rw [bind_ok hlookup] at hrest
        obtain ⟨j, s4, hnew, hpure⟩ := bind_eq_ok hrest
        cases hpure
        exact Or.inr ⟨hmakes.mpr (lookup_of_child hchild), createNew_made hs2 hi2 hused hnew⟩
      · have hnot : ¬Makes s path omode := by
          intro hyes
          cases hchild.symm.trans (child_of_lookup (hmakes.mp hyes))
        rw [bind_ok hlookup] at hrest
        have hswap : During s s3 [dir, next] (some i) :=
          { hs3 with refs := fun other => by rw [hs3.refs, (List.Perm.swap dir next []).count_eq] }
        obtain ⟨s4, hput, hs4, hkeeps⟩ := iunlockput_spec h.linked hswap hi3
        have hj4 := hkeeps j next List.mem_cons_self hj
        dsimp only at hrest
        rw [bind_ok hput] at hrest
        rcases ilock_spec hs4 hj4 with ⟨-, herror⟩ | ⟨-, s5, hlock, hs5, -, hstays⟩
        · exact (not_error hrest (bind_error herror)).elim
        · have hj5 := hstays j next hj4
          rw [bind_ok hlock, bind_ok (show locked j s5 = .ok (s5.inode j, s5) from rfl)] at hrest
          split_ifs at hrest
          · cases hrest
            exact Or.inl ⟨hnot, next, hj5, hs5⟩
          · obtain ⟨s6, hput, hs6, -⟩ := iunlockput_spec h.linked hs5 hj5
            rw [bind_ok hput] at hrest
            cases hrest
            exact ⟨hnot, hs6⟩

theorem openInode_spec (h : Quiet s) (hpath : 0 ∉ path) {found : Option (Fin ninode)}
    (hrun : openInode ninodes bmap path buffer omode s = .ok (found, s')) : Opened s path omode found s' := by
  unfold openInode at hrun
  by_cases hcreate : omode &&& oCreate ≠ 0
  · rw [if_pos hcreate] at hrun
    exact create_spec h hpath hcreate hrun
  · rw [if_neg hcreate] at hrun
    have hnot : ¬Makes s path omode := fun hmakes => hcreate hmakes.1
    obtain ⟨found, s1, hnamei, hrest⟩ := bind_eq_ok hrun
    rcases namei_spec h hpath buffer with
      ⟨message, -, herror⟩ | ⟨-, r, s2, hok, hentry, hs1⟩ | ⟨id, i, r, s2, -, hok, hentry, hi, hs1, -⟩
    · exact (not_error hnamei herror).elim
    · cases hok.symm.trans hnamei
      obtain rfl : found = none := hentry
      cases hrest
      exact ⟨hnot, hs1⟩
    · cases hok.symm.trans hnamei
      obtain rfl : found = some i := hentry
      dsimp only at hrest
      rcases ilock_spec hs1 hi with ⟨-, herror⟩ | ⟨-, s2, hlock, hs2, -, hstays⟩
      · exact (not_error hrest (bind_error herror)).elim
      · have hi2 := hstays i id hi
        rw [bind_ok hlock, bind_ok (show locked i s2 = .ok (s2.inode i, s2) from rfl)] at hrest
        split_ifs at hrest
        · obtain ⟨s3, hput, hs3, -⟩ := iunlockput_spec h.linked hs2 hi2
          rw [bind_ok hput] at hrest
          cases hrest
          exact ⟨hnot, hs3⟩
        · cases hrest
          exact Or.inl ⟨hnot, id, hi2, hs2⟩

def Unused (s : State) : Prop := ∀ f, (s.file f).ref = 0 → (s.file f).type = .none

theorem fileclose_last {f : Fin nfile} {ff : File} (hff : s.file f = ff) (href : ff.ref = 1)
    (htype : ff.type = .none) :
    fileclose f s = .ok ((), { s with file := Function.update s.file f { ff with ref := 0, type := .none } }) := by
  unfold fileclose
  rw [bind_ok (show (get : Code State) s = .ok (s, s) from rfl), hff]
  rw [if_neg (by omega), if_neg (by omega), if_neg (by rw [htype]; decide)]
  rfl

theorem fileAndDescriptor_spec (hunused : Unused s) {slot : Option (Fin nfile × Fin nofile)}
    (hrun : fileAndDescriptor s = .ok (slot, s')) : (slot = none ∧ Full s ∧ s' = s) ∨ (slot ≠ none ∧ ¬Full s) := by
  obtain ⟨file, s1, halloc, hrest⟩ := bind_eq_ok hrun
  unfold filealloc at halloc
  cases hfile : (List.finRange nfile).find? fun f => (s.file f).ref = 0 with
  | none =>
      rw [hfile] at halloc
      cases halloc
      cases hrest
      refine Or.inl ⟨rfl, Or.inl fun f href => ?_, rfl⟩
      have hnone := List.find?_eq_none.mp hfile f (List.mem_finRange f)
      exact hnone (decide_eq_true href)
  | some f =>
      have href : (s.file f).ref = 0 := by simpa using List.find?_some hfile
      rw [hfile] at halloc
      cases halloc
      obtain ⟨fd, s2, hfd, hrest⟩ := bind_eq_ok hrest
      unfold fdalloc at hfd
      dsimp only at hfd
      cases hofile : (List.finRange nofile).find? fun fd => s.ofile fd = none with
      | none =>
          rw [hofile] at hfd
          cases hfd
          have hfull : ∀ fd, s.ofile fd ≠ none := by
            intro fd hnone
            exact List.find?_eq_none.mp hofile fd (List.mem_finRange fd) (decide_eq_true hnone)
          have hback : { s.file f with ref := 0, type := FileType.none } = s.file f := by
            rw [← href, ← hunused f href]
          obtain ⟨_, s3, hclose, hpure⟩ := bind_eq_ok hrest
          cases hpure
          cases (@fileclose_last { s with file := Function.update s.file f { s.file f with ref := 1 } } f _
            (Function.update_self ..) rfl (hunused f href)).symm.trans hclose
          refine Or.inl ⟨rfl, Or.inr hfull, ?_⟩
          dsimp only at hback ⊢
          rw [Function.update_idem, hback, Function.update_eq_self]
      | some fd =>
          have hfree : s.ofile fd = none := by simpa using List.find?_some hofile
          rw [hofile] at hfd
          cases hfd
          cases hrest
          refine Or.inr ⟨Option.some_ne_none _, ?_⟩
          rintro (hall | hall)
          · exact hall f href
          · exact hall fd hfree

theorem same_iff_of_args (h : Quiet s) (hunused : Unused s) (hpath : 0 ∉ path)
    (hrun : sysOpen ninodes bmap (some (path, omode)) buffer s = .ok (-1, s')) :
    Same s s' ↔ ¬(Makes s path omode ∧ Full s) := by
  obtain ⟨found, s1, hopen, hrest⟩ := bind_eq_ok hrun
  have hopened := openInode_spec h hpath hopen
  cases found with
  | none =>
      cases hrest
      exact iff_of_true hopened.2.same fun hboth => hopened.1 hboth.1
  | some i =>
      dsimp only at hrest
      rw [bind_ok (show locked i s1 = .ok (s1.inode i, s1) from rfl)] at hrest
      have hslot : ∀ {slot s2}, fileAndDescriptor s1 = .ok (slot, s2) → s1.file = s.file → s1.ofile = s.ofile →
          (slot = none ∧ Full s ∧ s2 = s1) ∨ (slot ≠ none ∧ ¬Full s) := by
        intro slot s2 hslot hfile hofile
        have hspec := fileAndDescriptor_spec (fun f href => by rw [hfile] at href ⊢; exact hunused f href) hslot
        unfold Full at hspec ⊢
        rwa [hfile, hofile] at hspec
      have hinstall : ∀ {f : Fin nfile} {fd : Fin nofile} {s2 : State}, (do
          install f i omode
          pure (fd.val : Int) : Code Int) s2 ≠ .ok (-1, s') := by
        intro f fd s2 hok
        obtain ⟨_, s3, -, hpure⟩ := bind_eq_ok hok
        have hfd : (fd.val : Int) = -1 := congrArg Prod.fst (Except.ok.inj hpure)
        omega
      rcases hopened with ⟨hnot, id, hi, hs1⟩ | ⟨hmakes, hmade⟩
      · split_ifs at hrest
        · obtain ⟨s2, hput, hs2, -⟩ := iunlockput_spec h.linked hs1 hi
          rw [bind_ok hput] at hrest
          cases hrest
          exact iff_of_true hs2.same fun hboth => hnot hboth.1
        · obtain ⟨slot, s2, hfd, hend⟩ := bind_eq_ok hrest
          rcases hslot hfd hs1.same.file hs1.same.ofile with ⟨rfl, -, rfl⟩ | ⟨hsome, -⟩
          · obtain ⟨s3, hput, hs3, -⟩ := iunlockput_spec h.linked hs1 hi
            cases (bind_ok hput).symm.trans hend
            exact iff_of_true hs3.same fun hboth => hnot hboth.1
          · cases slot with
            | none => exact absurd rfl hsome
            | some slot => exact absurd hend hinstall
      · rw [if_neg (by rw [hmade.type]; exact fun hdevice => absurd hdevice.1 (by decide))] at hrest
        obtain ⟨slot, s2, hfd, hend⟩ := bind_eq_ok hrest
        rcases hslot hfd hmade.file hmade.ofile with ⟨rfl, hfull, rfl⟩ | ⟨hsome, -⟩
        · obtain ⟨_, s3, hput, hpure⟩ := bind_eq_ok hend
          cases hpure
          refine iff_of_false (fun hsame => ?_) fun hnot => hnot ⟨hmakes, hfull⟩
          have hdisk := hmade.disk
          rw [← iunlockput_disk hmade.nlink hput, hsame.disk, hmade.free] at hdisk
          exact absurd hdisk (by decide)
        · cases slot with
          | none => exact absurd rfl hsome
          | some slot => exact absurd hend hinstall

/-- **A failed open** leaves everything as it was, just if it has not made a file that it then had no room to
open. -/
theorem open_unchanged_iff {args : Option (Path × Mode)} (h : Quiet s) (hunused : Unused s)
    (hpath : ∀ a ∈ args, 0 ∉ a.1) (hrun : sysOpen ninodes bmap args buffer s = .ok (-1, s')) :
    Same s s' ↔ ¬∃ a ∈ args, Makes s a.1 a.2 ∧ Full s := by
  cases args with
  | none =>
      cases hrun
      exact iff_of_true (During.refl h.table h.held).same fun hmakes => by simp at hmakes
  | some a =>
      rw [same_iff_of_args h hunused (hpath a rfl) hrun]
      simp

end Failure

theorem nfile_pos : 0 < nfile := by decide

/-- The process uses all its descriptors. On the disk there is the root, empty but for `.`, alone. -/
def crowded : State := { small with
  disk := fun id => if id = root then small.disk root else ⟨0, 0, 0, 0, []⟩
  file := fun f => if f.val = 0 then ⟨.inode, 16, true, false, ⟨0, ninode_pos⟩, 0, 0⟩ else small.file f
  ofile := fun _ => some ⟨0, nfile_pos⟩ }

theorem crowded_quiet : Quiet crowded where
  table := {
    unique := small_quiet.table.unique
    fresh := fun _ _ hvalid => absurd hvalid Bool.false_ne_true }
  linked id htype := by
    by_cases hid : id = root
    · exact Or.inl (by rw [crowded]; dsimp only; rw [if_pos hid]; exact Nat.one_ne_zero)
    · exact absurd (by rw [crowded]; dsimp only; rw [if_neg hid]) htype
  held _ := rfl
  cwd := Nat.one_pos

theorem crowded_unused : Unused crowded := by
  intro f href
  by_cases hf : f.val = 0
  · rw [crowded] at href
    dsimp only at href
    rw [if_pos hf] at href
    cases href
  · rw [crowded]
    dsimp only
    rw [if_neg hf]
    rfl

theorem open_unchanged_iff_crowded : ∃ s',
    sysOpen 200 (fun _ => true) (some ([120], oCreate)) (fun _ => 0) crowded = .ok (-1, s') ∧
      (Same crowded s' ↔ ¬∃ a ∈ some ([120], oCreate), Makes crowded a.1 a.2 ∧ Full crowded) := by
  obtain ⟨s', hrun⟩ : ∃ s',
      sysOpen 200 (fun _ => true) (some ([120], oCreate)) (fun _ => 0) crowded = .ok (-1, s') := ⟨_, rfl⟩
  exact ⟨s', hrun, open_unchanged_iff crowded_quiet crowded_unused (by decide) hrun⟩

/-- The call fails, and the file `x` is there. -/
theorem not_unchanged_crowded : Quiet crowded ∧ Unused crowded ∧ ∃ s',
    sysOpen 200 (fun _ => true) (some ([120], oCreate)) (fun _ => 0) crowded = .ok (-1, s') ∧
      ¬Same crowded s' := by
  refine ⟨crowded_quiet, crowded_unused, _, rfl, fun hsame => ?_⟩
  have htype : tFile = 0 := congrArg Dinode.type (congrFun hsame.disk ⟨1, 2⟩)
  exact absurd htype (by decide)

end Xv6.Names
