import Xv6.Storage.Kernel
import Xv6.Storage.Sharing

/-!
# What the functions of the cache and the log do for their caller

The sections are read as transformers of what the calling process has and knows: its share of the
cache, the buffers it has changed since it last logged or wrote them, and, for the one process that
commits or recovers, its `Job`. The functions are specified against this reading alone.
-/

namespace Xv6.Kernel

structure Job (D : Type) where
  /-- The header being committed or recovered. -/
  lh : List Nat
  /-- `log.lh` in memory. -/
  mem : List Nat
  /-- What the blocks of the header are to hold. -/
  group : Nat → D
  /-- How many slots of the log hold their block. -/
  slots : Nat
  /-- The header is on the disk. -/
  onDisk : Bool
  recovering : Bool
  /-- The blocks not installed yet. -/
  todo : List Nat
  /-- The blocks not unpinned yet. -/
  pinned : List Nat

namespace Job

variable {D : Type}

def pending (job : Job D) : List Nat := if job.recovering then [] else job.todo

/-- The job of the last `end_op` of a group. -/
def committing (lh : List Nat) (group : Nat → D) : Job D := ⟨lh, lh, group, 0, false, false, lh, lh⟩

/-- The job of `fsinit`, given the header on the disk. -/
def recover (lh : List Nat) (group : Nat → D) : Job D :=
  ⟨lh, [], group, lh.length, !lh.isEmpty, true, lh, []⟩

structure WellFormed (conf : Config D) (lh : List Nat) : Prop where
  nodup : lh.Nodup
  length_le : lh.length ≤ logSize
  length_lt : lh ≠ [] → lh.length < conf.size
  home : ∀ blockno ∈ lh, conf.Home blockno

structure Knows (conf : Config D) (job : Job D) (blockno : Nat) (data : D) : Prop where
  pending : blockno ∈ job.pending → data = job.group blockno
  slot : ∀ i, (hi : i < job.lh.length) → i < job.slots → blockno = conf.start + i + 1 →
    data = job.group job.lh[i]
  header : blockno = conf.start → conf.header.decode data = if job.onDisk then job.lh else []

inductive Writes (conf : Config D) (job : Job D) : Nat → D → Job D → Prop where
  /-- `write_log` fills the next slot. -/
  | slot (hbefore : job.onDisk = false ∧ job.recovering = false ∧ job.todo = job.lh)
      (hi : job.slots < job.lh.length) :
      Writes conf job (conf.start + job.slots + 1) (job.group job.lh[job.slots])
        { job with slots := job.slots + 1 }
  /-- `write_head` with the blocks of the group: the commit. -/
  | commit {data : D} (hbefore : job.onDisk = false ∧ job.recovering = false ∧ job.todo = job.lh)
      (hslots : job.slots = job.lh.length) (hlh : job.lh ≠ [])
      (hheader : conf.header.decode data = job.lh) :
      Writes conf job conf.start data { job with onDisk := true }
  /-- `install_trans` brings the next block home. -/
  | install {blockno : Nat} {rest : List Nat} (honDisk : job.onDisk = true)
      (htodo : job.todo = blockno :: rest) :
      Writes conf job blockno (job.group blockno) { job with todo := rest }
  /-- `write_head` with no blocks. -/
  | clear {data : D} (htodo : job.todo = []) (hheader : conf.header.decode data = []) :
      Writes conf job conf.start data { job with onDisk := false }

end Job

structure Ghost (n : Nat) (D : Type) where
  share : Share n (Content D)
  /-- The buffers changed since they were last logged or written. -/
  dirty : Finset (Fin n)
  job : Option (Job D)
  /-- The process knows that `fsinit` has returned. -/
  booted : Bool

variable {n : Nat} {D : Type} {conf : Config D}

def Ghost.Knows (conf : Config D) (ghost : Ghost n D) (key : Nat × Nat) (data : D) : Prop :=
  key.1 = rootDev → ∀ job, ghost.job = some job → job.Knows conf key.2 data

/-- The sections as transformers of the ghost state of the process that takes them. -/
def rule (conf : Config D) : Rule (sections n D) (Ghost n D)
  | .bget dev blockno, ghost, post =>
      ∀ b, post b { ghost with share := ghost.share.get b (dev, blockno) }
  | .acquiresleep b, ghost, post =>
      0 < ghost.share.pending b ∧ ∀ content, b ∉ ghost.share.locked →
        (content.valid = true → ghost.Knows conf (ghost.share.key b) content.data) →
          post () { ghost with share := ghost.share.lock b content }
  | .holdingsleep b, ghost, post => b ∈ ghost.share.locked ∧ post true ghost
  | .releasesleep b, ghost, post =>
      b ∈ ghost.share.locked ∧ b ∉ ghost.dirty ∧
        post () { ghost with share := ghost.share.unlock b }
  | .unuse b, ghost, post =>
      0 < ghost.share.pending b ∧ post () { ghost with share := ghost.share.drop b }
  | .key b, ghost, post => b ∈ ghost.share.locked ∧ post (ghost.share.key b) ghost
  | .content b, ghost, post => b ∈ ghost.share.locked ∧ post (ghost.share.content b) ghost
  | .setData b data, ghost, post =>
      b ∈ ghost.share.locked ∧ post () { ghost with
        share := ghost.share.store b { ghost.share.content b with data }
        dirty := insert b ghost.dirty }
  | .diskRead b, ghost, post =>
      b ∈ ghost.share.locked ∧ (ghost.share.content b).valid = false ∧ ∀ data,
        ghost.Knows conf (ghost.share.key b) data →
          post () { ghost with share := ghost.share.store b ⟨true, data⟩ }
  | .diskWrite b, ghost, post =>
      b ∈ ghost.share.locked ∧ (ghost.share.content b).valid = true ∧
        (ghost.share.key b).1 = rootDev ∧ ∃ job after, ghost.job = some job ∧
          job.Writes conf (ghost.share.key b).2 (ghost.share.content b).data after ∧
          post () { ghost with dirty := ghost.dirty.erase b, job := some after }
  | .bunpin b, ghost, post =>
      b ∈ ghost.share.locked ∧ (ghost.share.key b).1 = rootDev ∧ ∃ job rest,
        ghost.job = some job ∧ job.pinned = (ghost.share.key b).2 :: rest ∧
          (ghost.share.key b).2 ∉ job.pending ∧
          post () { ghost with job := some { job with pinned := rest } }
  | .beginOp, ghost, post => ghost.booted = true ∧ post () ghost
  | .logWrite b, ghost, post =>
      b ∈ ghost.share.locked ∧ (ghost.share.content b).valid = true ∧
        (ghost.share.key b).1 = rootDev ∧ conf.Home (ghost.share.key b).2 ∧
        post () { ghost with dirty := ghost.dirty.erase b }
  | .endOp, ghost, post =>
      ghost.job = none ∧ ghost.booted = true ∧ post false ghost ∧
        ∀ lh group, Job.WellFormed conf lh →
          post true { ghost with job := some (Job.committing lh group) }
  | .finishCommit, ghost, post =>
      ∃ job, ghost.job = some job ∧ job.recovering = false ∧ job.onDisk = false ∧ job.todo = [] ∧
        job.pinned = [] ∧ job.mem = [] ∧ post () { ghost with job := none }
  | .syncTarget, ghost, post => ghost.booted = true ∧ ∀ target, post target ghost
  | .syncWait _, ghost, post => post () ghost
  | .lh, ghost, post => ∀ lh, (∀ job, ghost.job = some job → lh = job.mem) → post lh ghost
  | .setLh lh, ghost, post =>
      ∃ job, ghost.job = some job ∧
        (job.recovering = true ∧ lh = job.lh ∨ lh = [] ∧ job.todo = [] ∧ job.pinned = []) ∧
        post () { ghost with job := some { job with mem := lh } }
  | .copyin _ _, ghost, post => ∀ result, post result ghost
  | .copyout _ _, ghost, post => ∀ ok, post ok ghost
  | .up, ghost, post =>
      ∃ job, ghost.job = some job ∧ job.recovering = true ∧ job.onDisk = false ∧ job.todo = [] ∧
        job.mem = [] ∧ post () { ghost with job := none, booted := true }
  | .forked, ghost, post => post () { ghost with booted := true }
  | .panic _, _, _ => True

theorem rule_monotone : (rule conf : Rule (sections n D) (Ghost n D)).Monotone := by
  intro op ghost post post' hpost hrule
  cases op with
  | bget dev blockno => exact fun b => hpost _ _ (hrule b)
  | acquiresleep b =>
      exact ⟨hrule.1, fun content hfree hknows => hpost _ _ (hrule.2 content hfree hknows)⟩
  | holdingsleep b => exact ⟨hrule.1, hpost _ _ hrule.2⟩
  | releasesleep b => exact ⟨hrule.1, hrule.2.1, hpost _ _ hrule.2.2⟩
  | unuse b => exact ⟨hrule.1, hpost _ _ hrule.2⟩
  | key b => exact ⟨hrule.1, hpost _ _ hrule.2⟩
  | content b => exact ⟨hrule.1, hpost _ _ hrule.2⟩
  | setData b data => exact ⟨hrule.1, hpost _ _ hrule.2⟩
  | diskRead b =>
      exact ⟨hrule.1, hrule.2.1, fun data hknows => hpost _ _ (hrule.2.2 data hknows)⟩
  | diskWrite b =>
      obtain ⟨hlocked, hvalid, hdev, job, after, hjob, hwrites, hnext⟩ := hrule
      exact ⟨hlocked, hvalid, hdev, job, after, hjob, hwrites, hpost _ _ hnext⟩
  | bunpin b =>
      obtain ⟨hlocked, hdev, job, rest, hjob, hpinned, hpending, hnext⟩ := hrule
      exact ⟨hlocked, hdev, job, rest, hjob, hpinned, hpending, hpost _ _ hnext⟩
  | beginOp => exact ⟨hrule.1, hpost _ _ hrule.2⟩
  | logWrite b =>
      obtain ⟨hlocked, hvalid, hdev, hhome, hnext⟩ := hrule
      exact ⟨hlocked, hvalid, hdev, hhome, hpost _ _ hnext⟩
  | endOp =>
      obtain ⟨hjob, hbooted, hnot, hcommit⟩ := hrule
      exact ⟨hjob, hbooted, hpost _ _ hnot, fun lh group hlh => hpost _ _ (hcommit lh group hlh)⟩
  | finishCommit =>
      obtain ⟨job, hjob, hrecovering, honDisk, htodo, hpinned, hmem, hnext⟩ := hrule
      exact ⟨job, hjob, hrecovering, honDisk, htodo, hpinned, hmem, hpost _ _ hnext⟩
  | syncTarget => exact ⟨hrule.1, fun target => hpost _ _ (hrule.2 target)⟩
  | syncWait target => exact hpost _ _ hrule
  | lh => exact fun lh hlh => hpost _ _ (hrule lh hlh)
  | setLh lh =>
      obtain ⟨job, hjob, hlh, hnext⟩ := hrule
      exact ⟨job, hjob, hlh, hpost _ _ hnext⟩
  | copyin src len => exact fun result => hpost _ _ (hrule result)
  | copyout dst bytes => exact fun ok => hpost _ _ (hrule ok)
  | up =>
      obtain ⟨job, hjob, hrecovering, honDisk, htodo, hmem, hnext⟩ := hrule
      exact ⟨job, hjob, hrecovering, honDisk, htodo, hmem, hpost _ _ hnext⟩
  | forked => exact hpost _ _ hrule
  | panic message => trivial

section Wp

variable (ghost : Ghost n D) (b : Fin n)

@[simp]
theorem wp_bget (dev blockno : Nat) (post : Fin n → Ghost n D → Prop) :
    (bget dev blockno).wp (rule conf) ghost post ↔
      ∀ b, post b { ghost with share := ghost.share.get b (dev, blockno) } := Iff.rfl

@[simp]
theorem wp_acquiresleep (post : Unit → Ghost n D → Prop) :
    (acquiresleep b).wp (rule conf) ghost post ↔
      0 < ghost.share.pending b ∧ ∀ content, b ∉ ghost.share.locked →
        (content.valid = true → ghost.Knows conf (ghost.share.key b) content.data) →
          post () { ghost with share := ghost.share.lock b content } := Iff.rfl

@[simp]
theorem wp_holdingsleep (post : Bool → Ghost n D → Prop) :
    (holdingsleep b).wp (rule conf) ghost post ↔ b ∈ ghost.share.locked ∧ post true ghost := Iff.rfl

@[simp]
theorem wp_releasesleep (post : Unit → Ghost n D → Prop) :
    (releasesleep b).wp (rule conf) ghost post ↔
      b ∈ ghost.share.locked ∧ b ∉ ghost.dirty ∧
        post () { ghost with share := ghost.share.unlock b } := Iff.rfl

@[simp]
theorem wp_unuse (post : Unit → Ghost n D → Prop) :
    (unuse b).wp (rule conf) ghost post ↔
      0 < ghost.share.pending b ∧ post () { ghost with share := ghost.share.drop b } := Iff.rfl

@[simp]
theorem wp_content (post : Content D → Ghost n D → Prop) :
    (content b).wp (rule conf) ghost post ↔
      b ∈ ghost.share.locked ∧ post (ghost.share.content b) ghost := Iff.rfl

@[simp]
theorem wp_setData (data : D) (post : Unit → Ghost n D → Prop) :
    (setData b data).wp (rule conf) ghost post ↔
      b ∈ ghost.share.locked ∧ post () { ghost with
        share := ghost.share.store b { ghost.share.content b with data }
        dirty := insert b ghost.dirty } := Iff.rfl

@[simp]
theorem wp_diskWrite (post : Unit → Ghost n D → Prop) :
    (diskWrite b).wp (rule conf) ghost post ↔
      b ∈ ghost.share.locked ∧ (ghost.share.content b).valid = true ∧
        (ghost.share.key b).1 = rootDev ∧ ∃ job after, ghost.job = some job ∧
          job.Writes conf (ghost.share.key b).2 (ghost.share.content b).data after ∧
          post () { ghost with dirty := ghost.dirty.erase b, job := some after } := Iff.rfl

@[simp]
theorem wp_bunpin (post : Unit → Ghost n D → Prop) :
    (bunpin b).wp (rule conf) ghost post ↔
      b ∈ ghost.share.locked ∧ (ghost.share.key b).1 = rootDev ∧ ∃ job rest,
        ghost.job = some job ∧ job.pinned = (ghost.share.key b).2 :: rest ∧
          (ghost.share.key b).2 ∉ job.pending ∧
          post () { ghost with job := some { job with pinned := rest } } := Iff.rfl

@[simp]
theorem wp_beginOp (post : Unit → Ghost n D → Prop) :
    beginOp.wp (rule conf) ghost post ↔ ghost.booted = true ∧ post () ghost := Iff.rfl

@[simp]
theorem wp_logWrite (post : Unit → Ghost n D → Prop) :
    (logWrite b).wp (rule conf) ghost post ↔
      b ∈ ghost.share.locked ∧ (ghost.share.content b).valid = true ∧
        (ghost.share.key b).1 = rootDev ∧ conf.Home (ghost.share.key b).2 ∧
        post () { ghost with dirty := ghost.dirty.erase b } := Iff.rfl

@[simp]
theorem wp_lockedEndOp (post : Bool → Ghost n D → Prop) :
    lockedEndOp.wp (rule conf) ghost post ↔
      ghost.job = none ∧ ghost.booted = true ∧ post false ghost ∧
        ∀ lh group, Job.WellFormed conf lh →
          post true { ghost with job := some (Job.committing lh group) } := Iff.rfl

@[simp]
theorem wp_finishCommit (post : Unit → Ghost n D → Prop) :
    finishCommit.wp (rule conf) ghost post ↔
      ∃ job, ghost.job = some job ∧ job.recovering = false ∧ job.onDisk = false ∧ job.todo = [] ∧
        job.pinned = [] ∧ job.mem = [] ∧ post () { ghost with job := none } := Iff.rfl

@[simp]
theorem wp_lh (post : List Nat → Ghost n D → Prop) :
    lh.wp (rule conf) ghost post ↔
      ∀ lh, (∀ job, ghost.job = some job → lh = job.mem) → post lh ghost := Iff.rfl

@[simp]
theorem wp_setLh (lh : List Nat) (post : Unit → Ghost n D → Prop) :
    (setLh lh).wp (rule conf) ghost post ↔ ∃ job, ghost.job = some job ∧
      (job.recovering = true ∧ lh = job.lh ∨ lh = [] ∧ job.todo = [] ∧ job.pinned = []) ∧
      post () { ghost with job := some { job with mem := lh } } := Iff.rfl

@[simp]
theorem wp_copyin (src len : Nat) (post : List UInt8 × Bool → Ghost n D → Prop) :
    (copyin src len).wp (rule conf) ghost post ↔ ∀ result, post result ghost := Iff.rfl

@[simp]
theorem wp_syncTarget (post : Option Nat → Ghost n D → Prop) :
    syncTarget.wp (rule conf) ghost post ↔
      ghost.booted = true ∧ ∀ target, post target ghost := Iff.rfl

@[simp]
theorem wp_up (post : Unit → Ghost n D → Prop) :
    up.wp (rule conf) ghost post ↔
      ∃ job, ghost.job = some job ∧ job.recovering = true ∧ job.onDisk = false ∧ job.todo = [] ∧
        job.mem = [] ∧ post () { ghost with job := none, booted := true } := Iff.rfl

@[simp]
theorem wp_forked (post : Unit → Ghost n D → Prop) :
    forked.wp (rule conf) ghost post ↔ post () { ghost with booted := true } := Iff.rfl

@[simp]
theorem wp_panic {α : Type} (message : String) (post : α → Ghost n D → Prop) :
    (panic message : Code n D α).wp (rule conf) ghost post := trivial

@[simp]
theorem wp_panicIf (bad : Prop) [Decidable bad] (message : String)
    (post : Unit → Ghost n D → Prop) :
    (panicIf bad message : Code n D Unit).wp (rule conf) ghost post ↔ (¬bad → post () ghost) := by
  simp [panicIf]

theorem wp_sysSync (post : Unit → Ghost n D → Prop) :
    sysSync.wp (rule conf) ghost post ↔ ghost.booted = true ∧ post () ghost := by
  simp only [sysSync, Program.wp_bind, wp_syncTarget]
  refine and_congr_right fun _ => ⟨fun h => h none, fun h target => ?_⟩
  cases target <;> exact h

end Wp

/-! ### The cache -/

structure Ghost.Keeps (ghost after : Ghost n D) : Prop where
  share : ghost.share.Keeps after.share
  dirty : after.dirty = ghost.dirty
  booted : after.booted = ghost.booted

theorem Ghost.Keeps.refl (ghost : Ghost n D) : ghost.Keeps ghost := ⟨.refl _, rfl, rfl⟩

theorem Ghost.Keeps.trans {first second third : Ghost n D} (h : first.Keeps second)
    (h' : second.Keeps third) : first.Keeps third :=
  ⟨h.share.trans h'.share, h'.dirty.trans h.dirty, h'.booted.trans h.booted⟩

structure Ghost.Takes (ghost : Ghost n D) (b : Fin n) (key : Nat × Nat) (data : D)
    (after : Ghost n D) : Prop where
  share : ghost.share.Takes b key ⟨true, data⟩ after.share
  dirty : after.dirty = ghost.dirty
  booted : after.booted = ghost.booted

def Ghost.Clean (ghost : Ghost n D) : Prop := ghost.dirty ⊆ ghost.share.locked

theorem Ghost.Keeps.clean {ghost after : Ghost n D} (h : ghost.Keeps after) (hclean : ghost.Clean) :
    after.Clean := by
  unfold Ghost.Clean
  rw [h.dirty, h.share.locked]
  exact hclean

theorem Ghost.Takes.clean {ghost after : Ghost n D} {b : Fin n} {key : Nat × Nat} {data : D}
    (h : ghost.Takes b key data after) (hclean : ghost.Clean) : after.Clean := by
  unfold Ghost.Clean
  rw [h.dirty, h.share.locked]
  exact hclean.trans (Finset.subset_insert _ _)

theorem Ghost.Takes.not_dirty {ghost after : Ghost n D} {b : Fin n} {key : Nat × Nat} {data : D}
    (h : ghost.Takes b key data after) (hclean : ghost.Clean) : b ∉ ghost.dirty :=
  fun hmem => h.share.free (hclean hmem)

theorem Ghost.Takes.swap {ghost mid after : Ghost n D} {b b' : Fin n} {key key' : Nat × Nat}
    {data data' : D} (h : ghost.Takes b key data mid) (h' : mid.Takes b' key' data' after) :
    ∃ mid', ghost.Takes b' key' data' mid' ∧ mid'.Takes b key data after := by
  obtain ⟨share, hfirst, hsecond⟩ := h.share.swap h'.share
  exact ⟨{ ghost with share }, ⟨hfirst, rfl, rfl⟩, hsecond, h'.dirty.trans h.dirty,
    h'.booted.trans h.booted⟩

theorem bread_spec (ghost : Ghost n D) (dev blockno : Nat) :
    (bread dev blockno).wp (rule conf) ghost fun b after => ∃ data,
      ghost.Takes b (dev, blockno) data after ∧ after.job = ghost.job ∧
        ghost.Knows conf (dev, blockno) data := by
  simp only [bread, Program.wp_bind, wp_bget, wp_acquiresleep, wp_content]
  intro b
  have hkey : (ghost.share.get b (dev, blockno)).key b = (dev, blockno) := Function.update_self ..
  refine ⟨by simp [Share.get], fun content hfree hknows => ⟨Finset.mem_insert_self _ _, ?_⟩⟩
  have hnew : b ∉ ghost.share.locked := hfree
  have htakes := Share.Takes.get_lock hnew (dev, blockno) content
  rw [Program.wp_when, htakes.content_self]
  constructor
  · intro hinvalid
    refine ⟨htakes.mem, ?_, fun data hread => ⟨data, ⟨htakes.store _, rfl, rfl⟩, rfl, ?_⟩⟩
    · rw [htakes.content_self]
      simpa using hinvalid
    · rw [htakes.key_self] at hread
      exact hread
  · intro hvalid
    have hvalid' : content.valid = true := by simpa using hvalid
    have hcontent : content = ⟨true, content.data⟩ := by rw [← hvalid']
    refine ⟨content.data, ⟨hcontent ▸ htakes, rfl, rfl⟩, rfl, ?_⟩
    have hread := hknows hvalid'
    rw [hkey] at hread
    exact hread

theorem brelse_spec {ghost : Ghost n D} {b : Fin n} (hlocked : b ∈ ghost.share.locked)
    (hdirty : b ∉ ghost.dirty) :
    (brelse b).wp (rule conf) ghost fun _ after =>
      after = { ghost with share := (ghost.share.unlock b).drop b } := by
  simp only [brelse, Program.wp_bind, wp_holdingsleep, wp_panicIf, wp_releasesleep, wp_unuse]
  refine ⟨hlocked, fun _ => ⟨hlocked, hdirty, ?_, trivial⟩⟩
  simp [Share.unlock]

theorem brelse_takes {ghost after : Ghost n D} {b : Fin n} {key : Nat × Nat} {data : D}
    (htakes : ghost.Takes b key data after) (hclean : ghost.Clean) :
    (brelse b).wp (rule conf) after fun _ done => ghost.Keeps done ∧ done.job = after.job := by
  refine Program.wp_mono rule_monotone ?_ (brelse_spec htakes.share.mem ?_)
  · rintro _ _ rfl
    exact ⟨⟨htakes.share.release, htakes.dirty, htakes.booted⟩, rfl⟩
  · rw [htakes.dirty]
    exact htakes.not_dirty hclean

theorem brelse_takes_first {ghost mid after : Ghost n D} {b b' : Fin n} {key key' : Nat × Nat}
    {data data' : D} (htakes : ghost.Takes b key data mid) (htakes' : mid.Takes b' key' data' after)
    (hclean : ghost.Clean) :
    (brelse b).wp (rule conf) after fun _ done =>
      ghost.Takes b' key' data' done ∧ done.job = after.job := by
  refine Program.wp_mono rule_monotone ?_
    (brelse_spec (htakes'.share.mem_of_mem htakes.share.mem) ?_)
  · rintro _ _ rfl
    exact ⟨⟨htakes.share.release_first htakes'.share, htakes'.dirty.trans htakes.dirty,
      htakes'.booted.trans htakes.booted⟩, rfl⟩
  · rw [htakes'.dirty, htakes.dirty]
    exact htakes.not_dirty hclean

theorem overwrite_spec {ghost after : Ghost n D} {b : Fin n} {blockno : Nat} {old data : D}
    {job next : Job D} {post : Unit → Ghost n D → Prop}
    (htakes : ghost.Takes b (rootDev, blockno) old after)
    (hclean : ghost.Clean) (hjob : after.job = some job)
    (hwrites : job.Writes conf blockno data next)
    (hpost : ∀ done, ghost.Takes b (rootDev, blockno) data done → done.job = some next →
      post () done) :
    (setData b data).wp (rule conf) after fun _ mid => (bwrite b).wp (rule conf) mid post := by
  have hstored := htakes.share.store ⟨true, data⟩
  simp only [Program.wp_bind, wp_setData, bwrite, wp_holdingsleep, wp_panicIf, wp_diskWrite]
  rw [htakes.share.content_self]
  refine ⟨htakes.share.mem, hstored.mem, fun _ => ⟨hstored.mem, ?_, ?_, job, next, hjob, ?_, ?_⟩⟩
  · rw [hstored.content_self]
  · rw [hstored.key_self]
  · rw [hstored.key_self, hstored.content_self]
    exact hwrites
  · refine hpost _ ⟨hstored, ?_, htakes.booted⟩ rfl
    dsimp only
    rw [htakes.dirty, Finset.erase_insert (htakes.not_dirty hclean)]

/-! ### The log -/

theorem writeLogFrom_spec {ghost : Ghost n D} {job : Job D} (hclean : ghost.Clean)
    (hjob : ghost.job = some job)
    (hbefore : job.onDisk = false ∧ job.recovering = false ∧ job.todo = job.lh) {rest : List Nat}
    (hrest : job.lh.drop job.slots = rest) (hslots : job.slots ≤ job.lh.length) :
    (writeLogFrom conf job.slots rest).wp (rule conf) ghost fun _ after =>
      ghost.Keeps after ∧ after.job = some { job with slots := job.lh.length } := by
  induction rest generalizing ghost job with
  | nil =>
      have hlength : job.lh.length ≤ job.slots := List.drop_eq_nil_iff.mp hrest
      obtain hslots := Nat.le_antisymm hslots hlength
      refine ⟨.refl _, ?_⟩
      rw [← hslots]
      exact hjob
  | cons blockno rest ih =>
      have hi : job.slots < job.lh.length := by
        by_contra hnot
        rw [List.drop_of_length_le (Nat.not_lt.mp hnot)] at hrest
        cases hrest
      have hget : job.lh[job.slots] = blockno ∧ job.lh.drop (job.slots + 1) = rest := by
        rw [List.drop_eq_getElem_cons hi] at hrest
        exact List.cons.inj hrest
      unfold writeLogFrom
      refine Program.wp_seq rule_monotone (bread_spec ghost _ _) ?_
      rintro slot ghost₁ ⟨old, htakes₁, hjob₁, -⟩
      refine Program.wp_seq rule_monotone (bread_spec ghost₁ _ _) ?_
      rintro cache ghost₂ ⟨data, htakes₂, hjob₂, hknows⟩
      have hclean₁ := htakes₁.clean hclean
      have hmem : blockno ∈ job.pending := by
        rw [Job.pending, if_neg (by simp [hbefore.2.1]), hbefore.2.2, ← hget.1]
        exact List.getElem_mem hi
      have hdata : data = job.group job.lh[job.slots] := by
        rw [hget.1]
        exact (hknows rfl job (hjob₁.trans hjob)).pending hmem
      simp only [Program.wp_bind, wp_content]
      refine ⟨htakes₂.share.mem, ?_⟩
      rw [htakes₂.share.content_self]
      obtain ⟨mid, htakes₁', htakes₂'⟩ := htakes₁.swap htakes₂
      subst hdata
      refine overwrite_spec htakes₂' (htakes₁'.clean hclean) (hjob₂.trans (hjob₁.trans hjob))
        (.slot hbefore hi) fun ghost₃ htakes₃ hjob₃ => ?_
      refine Program.wp_mono rule_monotone ?_ (brelse_takes_first htakes₁' htakes₃ hclean)
      rintro _ ghost₄ ⟨htakes₄, hjob₄⟩
      refine Program.wp_mono rule_monotone ?_ (brelse_takes htakes₄ hclean)
      rintro _ ghost₅ ⟨hkeeps₅, hjob₅⟩
      refine Program.wp_mono rule_monotone ?_ (@ih ghost₅ { job with slots := job.slots + 1 }
        (hkeeps₅.clean hclean) (hjob₅.trans (hjob₄.trans hjob₃)) hbefore hget.2 hi)
      rintro _ ghost₆ ⟨hkeeps₆, hjob₆⟩
      exact ⟨hkeeps₅.trans hkeeps₆, hjob₆⟩

theorem installTransFrom_spec {ghost : Ghost n D} {job : Job D} {rest : List Nat} {tail : Nat}
    (hclean : ghost.Clean) (hjob : ghost.job = some job) (honDisk : job.onDisk = true)
    (hslots : job.slots = job.lh.length) (htodo : job.todo = rest)
    (hpinned : job.pinned = if job.recovering then [] else rest)
    (hrest : job.lh.drop tail = rest) (hnodup : job.lh.Nodup) :
    (installTransFrom conf job.recovering tail rest).wp (rule conf) ghost fun _ after =>
      ghost.Keeps after ∧ after.job = some { job with todo := [], pinned := [] } := by
  induction rest generalizing ghost job tail with
  | nil =>
      have hnone : job.pinned = [] := by
        rw [hpinned]
        split <;> rfl
      have hdone : job = { job with todo := [], pinned := [] } := by
        cases job
        simp_all
      exact ⟨.refl _, hdone ▸ hjob⟩
  | cons blockno rest ih =>
      have hi : tail < job.lh.length := by
        by_contra hnot
        rw [List.drop_of_length_le (Nat.not_lt.mp hnot)] at hrest
        cases hrest
      have hget : job.lh[tail] = blockno ∧ job.lh.drop (tail + 1) = rest := by
        rw [List.drop_eq_getElem_cons hi] at hrest
        exact List.cons.inj hrest
      have hfresh : blockno ∉ rest := by
        have hdrop : (blockno :: rest).Nodup := hrest ▸ hnodup.sublist (List.drop_sublist _ _)
        exact (List.nodup_cons.mp hdrop).1
      unfold installTransFrom
      refine Program.wp_seq rule_monotone (bread_spec ghost _ _) ?_
      rintro lbuf ghost₁ ⟨data, htakes₁, hjob₁, hknows⟩
      refine Program.wp_seq rule_monotone (bread_spec ghost₁ _ _) ?_
      rintro dbuf ghost₂ ⟨old, htakes₂, hjob₂, -⟩
      have hjob₂' : ghost₂.job = some job := hjob₂.trans (hjob₁.trans hjob)
      have hdata : data = job.group blockno := by
        rw [← hget.1]
        exact (hknows rfl job hjob).slot tail hi (hslots ▸ hi) rfl
      simp only [Program.wp_bind, wp_content]
      refine ⟨htakes₂.share.mem_of_mem htakes₁.share.mem, ?_⟩
      rw [htakes₂.share.content lbuf htakes₁.share.mem, htakes₁.share.content_self, hdata]
      refine overwrite_spec htakes₂ (htakes₁.clean hclean) hjob₂' (.install honDisk htodo)
        fun ghost₃ htakes₃ hjob₃ => ?_
      -- what is left to do once the block is unpinned, or when it never was pinned
      have hlast : ∀ (ghost₄ : Ghost n D), ghost₁.Takes dbuf (rootDev, blockno)
          (job.group blockno) ghost₄ →
          ghost₄.job = some { job with
            todo := rest, pinned := if job.recovering then [] else rest } →
          (brelse lbuf).wp (rule conf) ghost₄ fun _ ghost₅ =>
            (brelse dbuf).wp (rule conf) ghost₅ fun _ ghost₆ =>
              (installTransFrom conf job.recovering (tail + 1) rest).wp (rule conf) ghost₆
                fun _ after => ghost.Keeps after ∧
                  after.job = some { job with todo := [], pinned := [] } := by
        intro ghost₄ htakes₄ hjob₄
        refine Program.wp_mono rule_monotone ?_ (brelse_takes_first htakes₁ htakes₄ hclean)
        rintro _ ghost₅ ⟨htakes₅, hjob₅⟩
        refine Program.wp_mono rule_monotone ?_ (brelse_takes htakes₅ hclean)
        rintro _ ghost₆ ⟨hkeeps₆, hjob₆⟩
        refine Program.wp_mono rule_monotone ?_ (@ih ghost₆ { job with
            todo := rest, pinned := if job.recovering then [] else rest } (tail + 1)
          (hkeeps₆.clean hclean) (hjob₆.trans (hjob₅.trans hjob₄)) honDisk hslots rfl rfl hget.2
          hnodup)
        rintro _ ghost₇ ⟨hkeeps₇, hjob₇⟩
        exact ⟨hkeeps₆.trans hkeeps₇, hjob₇⟩
      rw [Program.wp_when]
      constructor
      · intro hcommit
        have hnot : job.recovering = false := by simpa using hcommit
        rw [wp_bunpin, htakes₃.share.key_self]
        refine ⟨htakes₃.share.mem, rfl, _, rest, hjob₃, ?_, ?_, hlast _ ?_ ?_⟩
        · simp [hpinned, hnot]
        · simp [Job.pending, hnot, hfresh]
        · exact ⟨htakes₃.share, htakes₃.dirty, htakes₃.booted⟩
        · simp [hnot]
      · intro hrecover
        have hrecovering : job.recovering = true := by simpa using hrecover
        refine hlast ghost₃ htakes₃ ?_
        rw [hjob₃]
        simp [hpinned, hrecovering]

theorem writeHead_spec {ghost : Ghost n D} {job next : Job D} (hclean : ghost.Clean)
    (hjob : ghost.job = some job)
    (hwrites : ∀ data, job.Writes conf conf.start (conf.header.encode job.mem data) next) :
    (writeHead conf).wp (rule conf) ghost fun _ after =>
      ghost.Keeps after ∧ after.job = some next := by
  unfold writeHead
  refine Program.wp_seq rule_monotone (bread_spec ghost _ _) ?_
  rintro buf ghost₁ ⟨data, htakes₁, hjob₁, -⟩
  simp only [Program.wp_bind, wp_content, wp_lh]
  refine ⟨htakes₁.share.mem, fun lh hlh => ?_⟩
  rw [hlh job (hjob₁.trans hjob), htakes₁.share.content_self]
  refine overwrite_spec htakes₁ hclean (hjob₁.trans hjob) (hwrites data)
    fun ghost₂ htakes₂ hjob₂ => ?_
  refine Program.wp_mono rule_monotone ?_ (brelse_takes htakes₂ hclean)
  rintro _ ghost₃ ⟨hkeeps₃, hjob₃⟩
  exact ⟨hkeeps₃, hjob₃.trans hjob₂⟩

theorem installTrans_spec {ghost : Ghost n D} {job : Job D} (hclean : ghost.Clean)
    (hjob : ghost.job = some job) (honDisk : job.onDisk = true)
    (hslots : job.slots = job.lh.length) (hmem : job.mem = job.lh) (htodo : job.todo = job.lh)
    (hpinned : job.pinned = if job.recovering then [] else job.lh) (hnodup : job.lh.Nodup)
    {recovering : Bool} (hrecovering : recovering = job.recovering) :
    (installTrans conf recovering).wp (rule conf) ghost fun _ after =>
      ghost.Keeps after ∧ after.job = some { job with todo := [], pinned := [] } := by
  simp only [installTrans, Program.wp_bind, wp_lh]
  intro lh hlh
  obtain rfl : lh = job.lh := (hlh job hjob).trans hmem
  subst hrecovering
  exact installTransFrom_spec hclean hjob honDisk hslots htodo hpinned (List.drop_zero ..) hnodup

theorem commit_spec {ghost : Ghost n D} {lh : List Nat} {group : Nat → D} (hclean : ghost.Clean)
    (hwf : Job.WellFormed conf lh) (hjob : ghost.job = some (Job.committing lh group)) :
    (commit conf).wp (rule conf) ghost fun _ after => ghost.Keeps after ∧
      ∃ job, after.job = some job ∧ job.recovering = false ∧ job.onDisk = false ∧ job.todo = [] ∧
        job.pinned = [] ∧ job.mem = [] := by
  simp only [commit, Program.wp_bind, wp_lh]
  intro header hheader
  obtain rfl : header = lh := hheader _ hjob
  rw [Program.wp_when]
  constructor
  · intro hne
    have hne' : header ≠ [] := List.ne_nil_of_length_pos hne
    simp only [Program.wp_bind, writeLog, wp_lh]
    intro header' hheader'
    obtain rfl : header' = header := hheader' _ hjob
    refine Program.wp_mono rule_monotone ?_ (writeLogFrom_spec hclean hjob ⟨rfl, rfl, rfl⟩
      (List.drop_zero ..) (Nat.zero_le _))
    rintro _ ghost₁ ⟨hkeeps₁, hjob₁⟩
    have hdecode : ∀ data, conf.header.decode (conf.header.encode header' data) = header' :=
      fun data => conf.header.decode_encode header' data hwf.length_le
        fun blockno hmem => (hwf.home blockno hmem).2
    refine Program.wp_mono rule_monotone ?_ (writeHead_spec (hkeeps₁.clean hclean) hjob₁
      fun data => .commit ⟨rfl, rfl, rfl⟩ rfl hne' (hdecode data))
    rintro _ ghost₂ ⟨hkeeps₂, hjob₂⟩
    have hkeeps₂ := hkeeps₁.trans hkeeps₂
    refine Program.wp_mono rule_monotone ?_ (installTrans_spec (hkeeps₂.clean hclean) hjob₂ rfl rfl
      rfl rfl rfl hwf.nodup rfl)
    rintro _ ghost₃ ⟨hkeeps₃, hjob₃⟩
    have hkeeps₃ := hkeeps₂.trans hkeeps₃
    rw [wp_setLh]
    refine ⟨_, hjob₃, Or.inr ⟨rfl, rfl, rfl⟩, ?_⟩
    refine Program.wp_mono rule_monotone ?_ (writeHead_spec (hkeeps₃.clean hclean) rfl
      fun data => .clear rfl (conf.header.decode_encode [] data (Nat.zero_le _) (by simp)))
    rintro _ ghost₄ ⟨hkeeps₄, hjob₄⟩
    exact ⟨hkeeps₃.trans ⟨hkeeps₄.share, hkeeps₄.dirty, hkeeps₄.booted⟩, _, hjob₄, rfl, rfl, rfl,
      rfl, rfl⟩
  · intro hempty
    have hnil : header = [] := by simpa using hempty
    subst hnil
    exact ⟨.refl _, _, hjob, rfl, rfl, rfl, rfl, rfl⟩

theorem endOp_spec {ghost : Ghost n D} (hclean : ghost.Clean) (hjob : ghost.job = none)
    (hbooted : ghost.booted = true) :
    (endOp conf).wp (rule conf) ghost fun _ after => ghost.Keeps after ∧ after.job = none := by
  simp only [endOp, Program.wp_bind, wp_lockedEndOp, Program.wp_when]
  refine ⟨hjob, hbooted, ⟨fun hfalse => absurd hfalse (by simp), fun _ => ⟨.refl _, hjob⟩⟩,
    fun lh group hwf => ⟨fun _ => ?_, fun hnot => absurd trivial hnot⟩⟩
  refine Program.wp_mono rule_monotone ?_ (commit_spec hclean hwf rfl)
  rintro _ ghost₁ ⟨hkeeps, job, hjob₁, hrecovering, honDisk, htodo, hpinned, hmem⟩
  rw [wp_finishCommit]
  exact ⟨job, hjob₁, hrecovering, honDisk, htodo, hpinned, hmem,
    ⟨hkeeps.share, hkeeps.dirty, hkeeps.booted⟩, rfl⟩

theorem fsinit_spec {ghost : Ghost n D} {lh : List Nat} {group : Nat → D} (hclean : ghost.Clean)
    (hwf : Job.WellFormed conf lh) (hjob : ghost.job = some (Job.recover lh group)) :
    (fsinit conf).wp (rule conf) ghost fun _ after =>
      Ghost.Keeps { ghost with booted := true } after ∧ after.job = none := by
  unfold fsinit
  refine Program.wp_seq rule_monotone (bread_spec ghost _ _) ?_
  rintro sb ghost₁ ⟨_, htakes₁, hjob₁, -⟩
  refine Program.wp_seq rule_monotone (brelse_takes htakes₁ hclean) ?_
  rintro _ ghost₂ ⟨hkeeps₂, hjob₂⟩
  have hclean₂ := hkeeps₂.clean hclean
  have hjob₂' : ghost₂.job = some (Job.recover lh group) := hjob₂.trans (hjob₁.trans hjob)
  simp only [recoverFromLog, readHead, bind_assoc]
  refine Program.wp_seq rule_monotone (bread_spec ghost₂ _ _) ?_
  rintro buf ghost₃ ⟨data, htakes₃, hjob₃, hknows⟩
  simp only [Program.wp_bind, wp_content, wp_setLh]
  refine ⟨htakes₃.share.mem, _, hjob₃.trans hjob₂', Or.inl ⟨rfl, ?_⟩, ?_⟩
  · rw [htakes₃.share.content_self, (hknows rfl _ hjob₂').header rfl]
    cases lh <;> rfl
  have htakes₃' : ghost₂.Takes buf (rootDev, conf.start) data
      { ghost₃ with job := some { Job.recover lh group with mem := lh } } :=
    ⟨htakes₃.share, htakes₃.dirty, htakes₃.booted⟩
  have hmem : conf.header.decode (ghost₃.share.content buf).data = lh := by
    rw [htakes₃.share.content_self, (hknows rfl _ hjob₂').header rfl]
    cases lh <;> rfl
  rw [hmem]
  refine Program.wp_mono rule_monotone ?_ (brelse_takes htakes₃' hclean₂)
  rintro _ ghost₄ ⟨hkeeps₄, hjob₄⟩
  have hkeeps₄ := hkeeps₂.trans hkeeps₄
  have hclean₄ := hkeeps₄.clean hclean
  -- with blocks to install, or with an empty header, the job ends up with nothing left to do
  have hinstalled : (installTrans conf true).wp (rule conf) ghost₄ fun _ after =>
      ghost₄.Keeps after ∧ ∃ job, after.job = some job ∧ job.recovering = true ∧ job.todo = [] ∧
        job.pinned = [] := by
    by_cases hne : lh = []
    · subst hne
      simp only [installTrans, Program.wp_bind, wp_lh]
      intro header hheader
      obtain rfl : header = [] := hheader _ hjob₄
      exact ⟨.refl _, _, hjob₄, rfl, rfl, rfl⟩
    · have honDisk : (!lh.isEmpty) = true := by simpa using hne
      refine Program.wp_mono rule_monotone ?_ (installTrans_spec hclean₄ hjob₄ honDisk rfl rfl rfl
        rfl hwf.nodup rfl)
      rintro _ ghost₅ ⟨hkeeps₅, hjob₅⟩
      exact ⟨hkeeps₅, _, hjob₅, rfl, rfl, rfl⟩
  refine Program.wp_mono rule_monotone ?_ hinstalled
  rintro _ ghost₅ ⟨hkeeps₅, job, hjob₅, hrecovering, htodo, hpinned⟩
  have hkeeps₅ := hkeeps₄.trans hkeeps₅
  refine ⟨job, hjob₅, Or.inr ⟨trivial, htodo, hpinned⟩, ?_⟩
  refine Program.wp_mono rule_monotone ?_ (writeHead_spec (hkeeps₅.clean hclean) rfl
    fun data => .clear htodo (conf.header.decode_encode [] data (Nat.zero_le _) (by simp)))
  rintro _ ghost₆ ⟨hkeeps₆, hjob₆⟩
  rw [wp_up]
  have hkeeps := hkeeps₅.trans ⟨hkeeps₆.share, hkeeps₆.dirty, hkeeps₆.booted⟩
  exact ⟨_, hjob₆, hrecovering, rfl, htodo, rfl, ⟨hkeeps.share, hkeeps.dirty, rfl⟩, rfl⟩

end Xv6.Kernel
