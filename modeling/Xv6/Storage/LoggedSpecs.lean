import Xv6.Storage.KernelSpecs

/-!
# Logging what is changed, whatever the blocks hold

A second reading of the sections, which asks nothing of the contents of the disk: the block numbers
a file system follows may be any. It keeps track of the buffers a process has changed since it last
logged them, which it may not give back, and of the blocks the log has yet to bring home. That is
enough to know that the cache shows what is on the disk, or else what is in the log.
-/

namespace Xv6.Kernel

def Job.wrote {D : Type} (job : Job D) (blockno : Nat) : Job D :=
  { job with todo := job.todo.filter (· ≠ blockno) }

theorem Job.mem_pending_wrote {D : Type} {job : Job D} {blockno k : Nat} :
    k ∈ (job.wrote blockno).pending ↔ k ∈ job.pending ∧ k ≠ blockno := by
  have hrecovering : (job.wrote blockno).recovering = job.recovering := rfl
  cases hflag : job.recovering with
  | true => simp [Job.pending, hrecovering, hflag]
  | false => simp [Job.pending, hflag, Job.wrote]

variable {n : Nat} {D : Type} {conf : Config D}

/-- The sections as transformers of the ghost state, when nothing is known of the disk. -/
def looseRule : Rule (sections n D) (Ghost n D)
  | .bget dev blockno, ghost, post =>
      dev = rootDev ∧ ∀ b, post b { ghost with share := ghost.share.get b (dev, blockno) }
  | .acquiresleep b, ghost, post =>
      0 < ghost.share.pending b ∧ ∀ content, b ∉ ghost.share.locked →
        post () { ghost with share := ghost.share.lock b content }
  | .holdingsleep b, ghost, post => b ∈ ghost.share.locked ∧ post true ghost
  | .releasesleep b, ghost, post =>
      b ∈ ghost.share.locked ∧ b ∉ ghost.dirty ∧
        post () { ghost with share := ghost.share.unlock b }
  | .unuse b, ghost, post =>
      0 < ghost.share.pending b ∧ post () { ghost with share := ghost.share.drop b }
  | .key b, ghost, post => b ∈ ghost.share.locked ∧ post (ghost.share.key b) ghost
  | .content b, ghost, post => b ∈ ghost.share.locked ∧ post (ghost.share.content b) ghost
  | .setData b data, ghost, post =>
      b ∈ ghost.share.locked ∧ post () { ghost with
        share := ghost.share.store b { ghost.share.content b with data }
        dirty := insert b ghost.dirty }
  | .diskRead b, ghost, post =>
      b ∈ ghost.share.locked ∧ (ghost.share.key b).1 = rootDev ∧ ∀ data,
        post () { ghost with share := ghost.share.store b ⟨true, data⟩ }
  | .diskWrite b, ghost, post =>
      b ∈ ghost.share.locked ∧ (ghost.share.key b).1 = rootDev ∧ post () { ghost with
        dirty := ghost.dirty.erase b
        job := ghost.job.map fun job => job.wrote (ghost.share.key b).2 }
  | .bunpin b, ghost, post =>
      b ∈ ghost.share.locked ∧ (ghost.share.key b).1 = rootDev ∧ ∃ job rest,
        ghost.job = some job ∧ job.pinned = (ghost.share.key b).2 :: rest ∧
          post () { ghost with job := some { job with pinned := rest } }
  | .beginOp, ghost, post => ghost.booted = true ∧ post () ghost
  | .logWrite b, ghost, post =>
      b ∈ ghost.share.locked ∧ (ghost.share.key b).1 = rootDev ∧
        post () { ghost with dirty := ghost.dirty.erase b }
  | .endOp, ghost, post =>
      ghost.job = none ∧ ghost.booted = true ∧ post false ghost ∧
        ∀ lh group, post true { ghost with job := some (Job.committing lh group) }
  | .finishCommit, ghost, post =>
      ∃ job, ghost.job = some job ∧ job.recovering = false ∧ job.pinned = [] ∧ job.mem = [] ∧
        post () { ghost with job := none }
  | .syncTarget, ghost, post => ∀ target, post target ghost
  | .syncWait _, ghost, post => post () ghost
  | .lh, ghost, post => ∀ lh, (∀ job, ghost.job = some job → lh = job.mem) → post lh ghost
  | .setLh lh, ghost, post =>
      ∃ job, ghost.job = some job ∧ job.todo = [] ∧ job.pinned = [] ∧
        post () { ghost with job := some { job with mem := lh } }
  | .copyin _ _, ghost, post =>
      ∀ result : List UInt8 × Bool, (result.2 = true ∨ result.1 = []) → post result ghost
  | .copyout _ _, ghost, post => ∀ ok, post ok ghost
  | .up, ghost, post =>
      ∃ job, ghost.job = some job ∧ job.recovering = true ∧ job.mem = [] ∧
        post () { ghost with job := none, booted := true }
  | .forked, ghost, post => post () { ghost with booted := true }
  | .panic _, _, _ => True

theorem looseRule_monotone : (looseRule : Rule (sections n D) (Ghost n D)).Monotone := by
  intro op ghost post post' hpost hrule
  cases op with
  | bget dev blockno => exact ⟨hrule.1, fun b => hpost _ _ (hrule.2 b)⟩
  | acquiresleep b => exact ⟨hrule.1, fun content hfree => hpost _ _ (hrule.2 content hfree)⟩
  | holdingsleep b => exact ⟨hrule.1, hpost _ _ hrule.2⟩
  | releasesleep b => exact ⟨hrule.1, hrule.2.1, hpost _ _ hrule.2.2⟩
  | unuse b => exact ⟨hrule.1, hpost _ _ hrule.2⟩
  | key b => exact ⟨hrule.1, hpost _ _ hrule.2⟩
  | content b => exact ⟨hrule.1, hpost _ _ hrule.2⟩
  | setData b data => exact ⟨hrule.1, hpost _ _ hrule.2⟩
  | diskRead b => exact ⟨hrule.1, hrule.2.1, fun data => hpost _ _ (hrule.2.2 data)⟩
  | diskWrite b => exact ⟨hrule.1, hrule.2.1, hpost _ _ hrule.2.2⟩
  | bunpin b =>
      obtain ⟨hlocked, hdev, job, rest, hjob, hpinned, hnext⟩ := hrule
      exact ⟨hlocked, hdev, job, rest, hjob, hpinned, hpost _ _ hnext⟩
  | beginOp => exact ⟨hrule.1, hpost _ _ hrule.2⟩
  | logWrite b => exact ⟨hrule.1, hrule.2.1, hpost _ _ hrule.2.2⟩
  | endOp =>
      obtain ⟨hjob, hbooted, hnot, hcommit⟩ := hrule
      exact ⟨hjob, hbooted, hpost _ _ hnot, fun lh group => hpost _ _ (hcommit lh group)⟩
  | finishCommit =>
      obtain ⟨job, hjob, hrecovering, hpinned, hmem, hnext⟩ := hrule
      exact ⟨job, hjob, hrecovering, hpinned, hmem, hpost _ _ hnext⟩
  | syncTarget => exact fun target => hpost _ _ (hrule target)
  | syncWait target => exact hpost _ _ hrule
  | lh => exact fun lh hlh => hpost _ _ (hrule lh hlh)
  | setLh lh =>
      obtain ⟨job, hjob, htodo, hpinned, hnext⟩ := hrule
      exact ⟨job, hjob, htodo, hpinned, hpost _ _ hnext⟩
  | copyin src len => exact fun result hwhole => hpost _ _ (hrule result hwhole)
  | copyout dst bytes => exact fun ok => hpost _ _ (hrule ok)
  | up =>
      obtain ⟨job, hjob, hrecovering, hmem, hnext⟩ := hrule
      exact ⟨job, hjob, hrecovering, hmem, hpost _ _ hnext⟩
  | forked => exact hpost _ _ hrule
  | panic message => trivial

section Wp

variable (ghost : Ghost n D) (b : Fin n)

@[simp]
theorem wp_bget_loose (dev blockno : Nat) (post : Fin n → Ghost n D → Prop) :
    (bget dev blockno).wp looseRule ghost post ↔ dev = rootDev ∧
      ∀ b, post b { ghost with share := ghost.share.get b (dev, blockno) } := Iff.rfl

@[simp]
theorem wp_acquiresleep_loose (post : Unit → Ghost n D → Prop) :
    (acquiresleep b).wp looseRule ghost post ↔
      0 < ghost.share.pending b ∧ ∀ content, b ∉ ghost.share.locked →
        post () { ghost with share := ghost.share.lock b content } := Iff.rfl

@[simp]
theorem wp_holdingsleep_loose (post : Bool → Ghost n D → Prop) :
    (holdingsleep b).wp looseRule ghost post ↔ b ∈ ghost.share.locked ∧ post true ghost := Iff.rfl

@[simp]
theorem wp_releasesleep_loose (post : Unit → Ghost n D → Prop) :
    (releasesleep b).wp looseRule ghost post ↔
      b ∈ ghost.share.locked ∧ b ∉ ghost.dirty ∧
        post () { ghost with share := ghost.share.unlock b } := Iff.rfl

@[simp]
theorem wp_unuse_loose (post : Unit → Ghost n D → Prop) :
    (unuse b).wp looseRule ghost post ↔
      0 < ghost.share.pending b ∧ post () { ghost with share := ghost.share.drop b } := Iff.rfl

@[simp]
theorem wp_content_loose (post : Content D → Ghost n D → Prop) :
    (content b).wp looseRule ghost post ↔
      b ∈ ghost.share.locked ∧ post (ghost.share.content b) ghost := Iff.rfl

@[simp]
theorem wp_setData_loose (data : D) (post : Unit → Ghost n D → Prop) :
    (setData b data).wp looseRule ghost post ↔
      b ∈ ghost.share.locked ∧ post () { ghost with
        share := ghost.share.store b { ghost.share.content b with data }
        dirty := insert b ghost.dirty } := Iff.rfl

@[simp]
theorem wp_diskWrite_loose (post : Unit → Ghost n D → Prop) :
    (diskWrite b).wp looseRule ghost post ↔
      b ∈ ghost.share.locked ∧ (ghost.share.key b).1 = rootDev ∧ post () { ghost with
        dirty := ghost.dirty.erase b
        job := ghost.job.map fun job => job.wrote (ghost.share.key b).2 } := Iff.rfl

@[simp]
theorem wp_bunpin_loose (post : Unit → Ghost n D → Prop) :
    (bunpin b).wp looseRule ghost post ↔
      b ∈ ghost.share.locked ∧ (ghost.share.key b).1 = rootDev ∧ ∃ job rest,
        ghost.job = some job ∧ job.pinned = (ghost.share.key b).2 :: rest ∧
          post () { ghost with job := some { job with pinned := rest } } := Iff.rfl

@[simp]
theorem wp_logWrite_loose (post : Unit → Ghost n D → Prop) :
    (logWrite b).wp looseRule ghost post ↔
      b ∈ ghost.share.locked ∧ (ghost.share.key b).1 = rootDev ∧
        post () { ghost with dirty := ghost.dirty.erase b } := Iff.rfl

@[simp]
theorem wp_lockedEndOp_loose (post : Bool → Ghost n D → Prop) :
    lockedEndOp.wp looseRule ghost post ↔
      ghost.job = none ∧ ghost.booted = true ∧ post false ghost ∧
        ∀ lh group, post true { ghost with job := some (Job.committing lh group) } := Iff.rfl

@[simp]
theorem wp_finishCommit_loose (post : Unit → Ghost n D → Prop) :
    finishCommit.wp looseRule ghost post ↔
      ∃ job, ghost.job = some job ∧ job.recovering = false ∧ job.pinned = [] ∧ job.mem = [] ∧
        post () { ghost with job := none } := Iff.rfl

@[simp]
theorem wp_lh_loose (post : List Nat → Ghost n D → Prop) :
    lh.wp looseRule ghost post ↔
      ∀ lh, (∀ job, ghost.job = some job → lh = job.mem) → post lh ghost := Iff.rfl

@[simp]
theorem wp_setLh_loose (lh : List Nat) (post : Unit → Ghost n D → Prop) :
    (setLh lh).wp looseRule ghost post ↔
      ∃ job, ghost.job = some job ∧ job.todo = [] ∧ job.pinned = [] ∧
        post () { ghost with job := some { job with mem := lh } } := Iff.rfl

@[simp]
theorem wp_copyin_loose (src len : Nat) (post : List UInt8 × Bool → Ghost n D → Prop) :
    (copyin src len).wp looseRule ghost post ↔
      ∀ result : List UInt8 × Bool, (result.2 = true ∨ result.1 = []) → post result ghost := Iff.rfl

@[simp]
theorem wp_up_loose (post : Unit → Ghost n D → Prop) :
    up.wp looseRule ghost post ↔ ∃ job, ghost.job = some job ∧ job.recovering = true ∧
      job.mem = [] ∧ post () { ghost with job := none, booted := true } := Iff.rfl

@[simp]
theorem wp_forked_loose (post : Unit → Ghost n D → Prop) :
    forked.wp looseRule ghost post ↔ post () { ghost with booted := true } := Iff.rfl

@[simp]
theorem wp_panic_loose {α : Type} (message : String) (post : α → Ghost n D → Prop) :
    (panic message : Code n D α).wp looseRule ghost post := trivial

@[simp]
theorem wp_panicIf_loose (bad : Prop) [Decidable bad] (message : String)
    (post : Unit → Ghost n D → Prop) :
    (panicIf bad message : Code n D Unit).wp looseRule ghost post ↔ (¬bad → post () ghost) := by
  simp [panicIf]

end Wp

/-! ### The cache -/

structure Ghost.Same (ghost after : Ghost n D) : Prop where
  keeps : ghost.Keeps after
  job : after.job = ghost.job

theorem Ghost.Same.refl (ghost : Ghost n D) : ghost.Same ghost := ⟨.refl _, rfl⟩

theorem Ghost.Same.trans {first second third : Ghost n D} (h : first.Same second)
    (h' : second.Same third) : first.Same third :=
  ⟨h.keeps.trans h'.keeps, h'.job.trans h.job⟩

theorem Ghost.Same.clean {ghost after : Ghost n D} (h : ghost.Same after) (hclean : ghost.Clean) :
    after.Clean := h.keeps.clean hclean

theorem Ghost.Takes.keeps {ghost mid after : Ghost n D} {b : Fin n} {key : Nat × Nat} {data : D}
    (h : ghost.Takes b key data mid) (hkeeps : mid.Keeps after) : ghost.Takes b key data after :=
  ⟨h.share.keeps hkeeps.share, hkeeps.dirty.trans h.dirty, hkeeps.booted.trans h.booted⟩

theorem bread_loose (ghost : Ghost n D) (blockno : Nat) :
    (bread rootDev blockno).wp looseRule ghost fun b after => ∃ data,
      ghost.Takes b (rootDev, blockno) data after ∧ after.job = ghost.job := by
  simp only [bread, Program.wp_bind, wp_bget_loose, wp_acquiresleep_loose, wp_content_loose]
  refine ⟨trivial, fun b => ⟨by simp [Share.get], fun content hfree =>
    ⟨Finset.mem_insert_self _ _, ?_⟩⟩⟩
  have hnew : b ∉ ghost.share.locked := hfree
  have htakes := Share.Takes.get_lock hnew (rootDev, blockno) content
  rw [Program.wp_when, htakes.content_self]
  constructor
  · intro hinvalid
    refine ⟨htakes.mem, ?_, fun data => ⟨data, ⟨htakes.store _, rfl, rfl⟩, rfl⟩⟩
    rw [htakes.key_self]
  · intro hvalid
    have hvalid' : content.valid = true := by simpa using hvalid
    have hcontent : content = ⟨true, content.data⟩ := by rw [← hvalid']
    exact ⟨content.data, ⟨hcontent ▸ htakes, rfl, rfl⟩, rfl⟩

theorem brelse_loose {ghost : Ghost n D} {b : Fin n} (hlocked : b ∈ ghost.share.locked)
    (hdirty : b ∉ ghost.dirty) :
    (brelse b).wp looseRule ghost fun _ after =>
      after = { ghost with share := (ghost.share.unlock b).drop b } := by
  simp only [brelse, Program.wp_bind, wp_holdingsleep_loose, wp_panicIf_loose,
    wp_releasesleep_loose, wp_unuse_loose]
  refine ⟨hlocked, fun _ => ⟨hlocked, hdirty, ?_, trivial⟩⟩
  simp [Share.unlock]

theorem brelse_loose_takes {ghost after : Ghost n D} {b : Fin n} {key : Nat × Nat} {data : D}
    (htakes : ghost.Takes b key data after) (hclean : ghost.Clean) :
    (brelse b).wp looseRule after fun _ done => ghost.Keeps done ∧ done.job = after.job := by
  refine Program.wp_mono looseRule_monotone ?_ (brelse_loose htakes.share.mem ?_)
  · rintro _ _ rfl
    exact ⟨⟨htakes.share.release, htakes.dirty, htakes.booted⟩, rfl⟩
  · rw [htakes.dirty]
    exact htakes.not_dirty hclean

theorem brelse_loose_takes_first {ghost mid after : Ghost n D} {b b' : Fin n} {key key' : Nat × Nat}
    {data data' : D} (htakes : ghost.Takes b key data mid) (htakes' : mid.Takes b' key' data' after)
    (hclean : ghost.Clean) :
    (brelse b).wp looseRule after fun _ done =>
      ghost.Takes b' key' data' done ∧ done.job = after.job := by
  refine Program.wp_mono looseRule_monotone ?_
    (brelse_loose (htakes'.share.mem_of_mem htakes.share.mem) ?_)
  · rintro _ _ rfl
    exact ⟨⟨htakes.share.release_first htakes'.share, htakes'.dirty.trans htakes.dirty,
      htakes'.booted.trans htakes.booted⟩, rfl⟩
  · rw [htakes'.dirty, htakes.dirty]
    exact htakes.not_dirty hclean

theorem overwrite_loose {ghost after : Ghost n D} {b : Fin n} {blockno : Nat} {old data : D}
    {post : Unit → Ghost n D → Prop} (htakes : ghost.Takes b (rootDev, blockno) old after)
    (hclean : ghost.Clean)
    (hpost : ∀ done, ghost.Takes b (rootDev, blockno) data done →
      done.job = after.job.map (fun job => job.wrote blockno) → post () done) :
    (setData b data).wp looseRule after fun _ mid => (bwrite b).wp looseRule mid post := by
  have hstored := htakes.share.store ⟨true, data⟩
  simp only [Program.wp_bind, wp_setData_loose, bwrite, wp_holdingsleep_loose, wp_panicIf_loose,
    wp_diskWrite_loose]
  rw [htakes.share.content_self]
  refine ⟨htakes.share.mem, hstored.mem, fun _ => ⟨hstored.mem, ?_, ?_⟩⟩
  · rw [hstored.key_self]
  · refine hpost _ ⟨hstored, ?_, htakes.booted⟩ ?_
    · dsimp only
      rw [htakes.dirty, Finset.erase_insert (htakes.not_dirty hclean)]
    · rw [hstored.key_self]

theorem logged_loose {ghost after : Ghost n D} {b : Fin n} {blockno : Nat} {old data : D}
    {post : Unit → Ghost n D → Prop} (htakes : ghost.Takes b (rootDev, blockno) old after)
    (hclean : ghost.Clean)
    (hpost : ∀ done, ghost.Takes b (rootDev, blockno) data done → done.job = after.job →
      post () done) :
    (setData b data).wp looseRule after fun _ mid => (logWrite b).wp looseRule mid post := by
  have hstored := htakes.share.store ⟨true, data⟩
  simp only [wp_setData_loose, wp_logWrite_loose]
  rw [htakes.share.content_self]
  refine ⟨htakes.share.mem, hstored.mem, ?_, ?_⟩
  · rw [hstored.key_self]
  · refine hpost _ ⟨hstored, ?_, htakes.booted⟩ rfl
    dsimp only
    rw [htakes.dirty, Finset.erase_insert (htakes.not_dirty hclean)]

/-! ### The log -/

def Ghost.Works (ghost : Ghost n D) (recovering : Bool) (mem pinned todo : List Nat) : Prop :=
  ∃ job, ghost.job = some job ∧ job.recovering = recovering ∧ job.mem = mem ∧
    job.pinned = pinned ∧ ∀ blockno ∈ job.todo, blockno ∈ todo

namespace Ghost.Works

variable {ghost after : Ghost n D} {recovering : Bool} {mem pinned todo todo' : List Nat}

theorem same (h : ghost.Works recovering mem pinned todo) (hjob : after.job = ghost.job) :
    after.Works recovering mem pinned todo := by
  obtain ⟨job, hold, hrest⟩ := h
  exact ⟨job, hjob.trans hold, hrest⟩

theorem wrote (h : ghost.Works recovering mem pinned todo) {blockno : Nat}
    (hjob : after.job = ghost.job.map fun job => job.wrote blockno)
    (htodo : ∀ k ∈ todo, k ≠ blockno → k ∈ todo') : after.Works recovering mem pinned todo' := by
  obtain ⟨job, hold, hrecovering, hmem, hpinned, hleft⟩ := h
  refine ⟨job.wrote blockno, by rw [hjob, hold]; rfl, hrecovering, hmem, hpinned, fun k hk => ?_⟩
  obtain ⟨hk, hne⟩ := List.mem_filter.mp hk
  exact htodo k (hleft k hk) (by simpa using hne)

theorem mono (h : ghost.Works recovering mem pinned todo) (htodo : ∀ k ∈ todo, k ∈ todo') :
    ghost.Works recovering mem pinned todo' := by
  obtain ⟨job, hjob, hrecovering, hmem, hpinned, hleft⟩ := h
  exact ⟨job, hjob, hrecovering, hmem, hpinned, fun k hk => htodo k (hleft k hk)⟩

end Ghost.Works

variable {ghost : Ghost n D} {recovering : Bool} {mem pinned todo : List Nat}

theorem writeLogFrom_loose (hclean : ghost.Clean) (hworks : ghost.Works recovering mem pinned todo)
    (tail : Nat) (rest : List Nat) :
    (writeLogFrom conf tail rest).wp looseRule ghost fun _ after =>
      ghost.Keeps after ∧ after.Works recovering mem pinned todo := by
  induction rest generalizing ghost tail with
  | nil => exact ⟨.refl _, hworks⟩
  | cons blockno rest ih =>
      unfold writeLogFrom
      refine Program.wp_seq looseRule_monotone (bread_loose ghost _) ?_
      rintro slot ghost₁ ⟨old, htakes₁, hjob₁⟩
      refine Program.wp_seq looseRule_monotone (bread_loose ghost₁ _) ?_
      rintro cache ghost₂ ⟨data, htakes₂, hjob₂⟩
      simp only [Program.wp_bind, wp_content_loose]
      refine ⟨htakes₂.share.mem, ?_⟩
      rw [htakes₂.share.content_self]
      obtain ⟨mid, htakes₁', htakes₂'⟩ := htakes₁.swap htakes₂
      refine overwrite_loose htakes₂' (htakes₁'.clean hclean) fun ghost₃ htakes₃ hjob₃ => ?_
      refine Program.wp_mono looseRule_monotone ?_ (brelse_loose_takes_first htakes₁' htakes₃ hclean)
      rintro _ ghost₄ ⟨htakes₄, hjob₄⟩
      refine Program.wp_mono looseRule_monotone ?_ (brelse_loose_takes htakes₄ hclean)
      rintro _ ghost₅ ⟨hkeeps₅, hjob₅⟩
      have hworks₅ : ghost₅.Works recovering mem pinned todo :=
        (((hworks.same hjob₁).same hjob₂).wrote hjob₃ fun k hk _ => hk).same (hjob₅.trans hjob₄)
      refine Program.wp_mono looseRule_monotone ?_ (ih (hkeeps₅.clean hclean) hworks₅ (tail + 1))
      rintro _ ghost₆ ⟨hkeeps₆, hworks₆⟩
      exact ⟨hkeeps₅.trans hkeeps₆, hworks₆⟩

theorem installTransFrom_loose (hclean : ghost.Clean) {rest : List Nat}
    (hworks : ghost.Works recovering mem (if recovering then [] else rest) rest) (tail : Nat) :
    (installTransFrom conf recovering tail rest).wp looseRule ghost fun _ after =>
      ghost.Keeps after ∧ after.Works recovering mem [] [] := by
  induction rest generalizing ghost tail with
  | nil =>
      rw [ite_self] at hworks
      exact ⟨.refl _, hworks⟩
  | cons blockno rest ih =>
      unfold installTransFrom
      refine Program.wp_seq looseRule_monotone (bread_loose ghost _) ?_
      rintro lbuf ghost₁ ⟨data, htakes₁, hjob₁⟩
      refine Program.wp_seq looseRule_monotone (bread_loose ghost₁ _) ?_
      rintro dbuf ghost₂ ⟨old, htakes₂, hjob₂⟩
      simp only [Program.wp_bind, wp_content_loose]
      refine ⟨htakes₂.share.mem_of_mem htakes₁.share.mem, ?_⟩
      refine overwrite_loose htakes₂ (htakes₁.clean hclean) fun ghost₃ htakes₃ hjob₃ => ?_
      have hworks₃ : ghost₃.Works recovering mem (if recovering then [] else blockno :: rest) rest :=
        ((hworks.same hjob₁).same hjob₂).wrote hjob₃ fun k hk hne =>
          (List.mem_cons.mp hk).resolve_left hne
      have hlast : ∀ (data : D) (ghost₄ : Ghost n D),
          ghost₁.Takes dbuf (rootDev, blockno) data ghost₄ →
          ghost₄.Works recovering mem (if recovering then [] else rest) rest →
          (brelse lbuf).wp looseRule ghost₄ fun _ ghost₅ =>
            (brelse dbuf).wp looseRule ghost₅ fun _ ghost₆ =>
              (installTransFrom conf recovering (tail + 1) rest).wp looseRule ghost₆
                fun _ after => ghost.Keeps after ∧ after.Works recovering mem [] [] := by
        intro data ghost₄ htakes₄ hworks₄
        refine Program.wp_mono looseRule_monotone ?_
          (brelse_loose_takes_first htakes₁ htakes₄ hclean)
        rintro _ ghost₅ ⟨htakes₅, hjob₅⟩
        refine Program.wp_mono looseRule_monotone ?_ (brelse_loose_takes htakes₅ hclean)
        rintro _ ghost₆ ⟨hkeeps₆, hjob₆⟩
        refine Program.wp_mono looseRule_monotone ?_ (ih (hkeeps₆.clean hclean)
          (hworks₄.same (hjob₆.trans hjob₅)) (tail + 1))
        rintro _ ghost₇ ⟨hkeeps₇, hworks₇⟩
        exact ⟨hkeeps₆.trans hkeeps₇, hworks₇⟩
      rw [Program.wp_when]
      constructor
      · intro hcommit
        have hnot : recovering = false := by simpa using hcommit
        subst hnot
        obtain ⟨job, hjob, hrecovering, hmem, hpinned, hleft⟩ := hworks₃
        rw [wp_bunpin_loose, htakes₃.share.key_self]
        refine ⟨htakes₃.share.mem, rfl, job, rest, hjob, hpinned,
          hlast (ghost₂.share.content lbuf).data _ ?_ ?_⟩
        · exact ⟨htakes₃.share, htakes₃.dirty, htakes₃.booted⟩
        · exact ⟨_, rfl, hrecovering, hmem, rfl, hleft⟩
      · intro hrecover
        have hrecovering : recovering = true := by simpa using hrecover
        subst hrecovering
        exact hlast _ ghost₃ htakes₃ hworks₃

theorem installTrans_loose (hclean : ghost.Clean)
    (hworks : ghost.Works recovering mem (if recovering then [] else mem) mem) :
    (installTrans conf recovering).wp looseRule ghost fun _ after =>
      ghost.Keeps after ∧ after.Works recovering mem [] [] := by
  simp only [installTrans, Program.wp_bind, wp_lh_loose]
  intro lh hlh
  have hlh : lh = mem := by
    obtain ⟨job, hjob, -, hmem, -, -⟩ := hworks
    exact (hlh job hjob).trans hmem
  subst hlh
  exact installTransFrom_loose hclean hworks 0

theorem writeHead_loose (hclean : ghost.Clean) (hworks : ghost.Works recovering mem pinned todo) :
    (writeHead conf).wp looseRule ghost fun _ after =>
      ghost.Keeps after ∧ after.Works recovering mem pinned todo := by
  unfold writeHead
  refine Program.wp_seq looseRule_monotone (bread_loose ghost _) ?_
  rintro buf ghost₁ ⟨data, htakes₁, hjob₁⟩
  simp only [Program.wp_bind, wp_content_loose, wp_lh_loose]
  refine ⟨htakes₁.share.mem, fun lh _ => ?_⟩
  refine overwrite_loose htakes₁ hclean fun ghost₂ htakes₂ hjob₂ => ?_
  refine Program.wp_mono looseRule_monotone ?_ (brelse_loose_takes htakes₂ hclean)
  rintro _ ghost₃ ⟨hkeeps₃, hjob₃⟩
  exact ⟨hkeeps₃, ((hworks.same hjob₁).wrote hjob₂ fun k hk _ => hk).same hjob₃⟩

theorem setLh_loose (hworks : ghost.Works recovering mem [] []) (lh : List Nat)
    {post : Unit → Ghost n D → Prop}
    (hpost : ∀ after, ghost.Keeps after → after.Works recovering lh [] [] → post () after) :
    (setLh lh).wp looseRule ghost post := by
  obtain ⟨job, hjob, hrecovering, -, hpinned, hleft⟩ := hworks
  have htodo : job.todo = [] :=
    List.eq_nil_iff_forall_not_mem.mpr fun k hk => List.not_mem_nil (hleft k hk)
  rw [wp_setLh_loose]
  exact ⟨job, hjob, htodo, hpinned, hpost _ ⟨.refl _, rfl, rfl⟩
    ⟨_, rfl, hrecovering, rfl, hpinned, hleft⟩⟩

theorem commit_loose (hclean : ghost.Clean) (hworks : ghost.Works false mem mem mem) :
    (commit conf).wp looseRule ghost fun _ after =>
      ghost.Keeps after ∧ after.Works false [] [] [] := by
  simp only [commit, Program.wp_bind, wp_lh_loose]
  intro header hheader
  have hmem : header = mem := by
    obtain ⟨job, hjob, -, hmem, -, -⟩ := hworks
    exact (hheader job hjob).trans hmem
  subst hmem
  rw [Program.wp_when]
  constructor
  · intro _
    simp only [Program.wp_bind, writeLog, wp_lh_loose]
    intro header' _
    refine Program.wp_mono looseRule_monotone ?_ (writeLogFrom_loose hclean hworks 0 header')
    rintro _ ghost₁ ⟨hkeeps₁, hworks₁⟩
    refine Program.wp_mono looseRule_monotone ?_ (writeHead_loose (hkeeps₁.clean hclean) hworks₁)
    rintro _ ghost₂ ⟨hkeeps₂, hworks₂⟩
    have hkeeps₂ := hkeeps₁.trans hkeeps₂
    refine Program.wp_mono looseRule_monotone ?_
      (installTrans_loose (hkeeps₂.clean hclean) hworks₂)
    rintro _ ghost₃ ⟨hkeeps₃, hworks₃⟩
    have hkeeps₃ := hkeeps₂.trans hkeeps₃
    refine setLh_loose hworks₃ [] fun ghost₄ hkeeps₄ hworks₄ => ?_
    have hkeeps₄ := hkeeps₃.trans hkeeps₄
    refine Program.wp_mono looseRule_monotone ?_
      (writeHead_loose (hkeeps₄.clean hclean) hworks₄)
    rintro _ ghost₅ ⟨hkeeps₅, hworks₅⟩
    exact ⟨hkeeps₄.trans hkeeps₅, hworks₅⟩
  · intro hempty
    have hnil : header = [] := by simpa using hempty
    subst hnil
    exact ⟨.refl _, hworks⟩

theorem endOp_loose (hclean : ghost.Clean) (hjob : ghost.job = none)
    (hbooted : ghost.booted = true) :
    (endOp conf).wp looseRule ghost fun _ after => ghost.Same after := by
  simp only [endOp, Program.wp_bind, wp_lockedEndOp_loose, Program.wp_when]
  refine ⟨hjob, hbooted, ⟨fun hfalse => absurd hfalse (by simp), fun _ => .refl _⟩,
    fun lh group => ⟨fun _ => ?_, fun hnot => absurd trivial hnot⟩⟩
  have hworks : Ghost.Works { ghost with job := some (Job.committing lh group) } false lh lh lh :=
    ⟨_, rfl, rfl, rfl, rfl, fun _ hk => hk⟩
  refine Program.wp_mono looseRule_monotone ?_ (commit_loose hclean hworks)
  rintro _ ghost₁ ⟨hkeeps, job, hjob₁, hrecovering, hmem, hpinned, -⟩
  rw [wp_finishCommit_loose]
  exact ⟨job, hjob₁, hrecovering, hpinned, hmem,
    ⟨hkeeps.share, hkeeps.dirty, hkeeps.booted⟩, hjob.symm⟩

theorem fsinit_loose (hclean : ghost.Clean) (hworks : ghost.Works true [] [] []) :
    (fsinit conf).wp looseRule ghost fun _ after =>
      Ghost.Keeps { ghost with booted := true } after ∧ after.job = none := by
  unfold fsinit
  refine Program.wp_seq looseRule_monotone (bread_loose ghost _) ?_
  rintro sb ghost₁ ⟨_, htakes₁, hjob₁⟩
  refine Program.wp_seq looseRule_monotone (brelse_loose_takes htakes₁ hclean) ?_
  rintro _ ghost₂ ⟨hkeeps₂, hjob₂⟩
  have hclean₂ := hkeeps₂.clean hclean
  simp only [recoverFromLog, readHead, bind_assoc]
  refine Program.wp_seq looseRule_monotone (bread_loose ghost₂ _) ?_
  rintro buf ghost₃ ⟨data, htakes₃, hjob₃⟩
  have hworks₃ := ((hworks.same hjob₁).same hjob₂).same hjob₃
  simp only [Program.wp_bind, wp_content_loose]
  refine ⟨htakes₃.share.mem, ?_⟩
  generalize conf.header.decode (ghost₃.share.content buf).data = lh
  refine setLh_loose hworks₃ lh fun ghost₄ hkeeps₄ hworks₄ => ?_
  refine Program.wp_mono looseRule_monotone ?_ (brelse_loose_takes (htakes₃.keeps hkeeps₄) hclean₂)
  rintro _ ghost₅ ⟨hkeeps₅, hjob₅⟩
  have hkeeps₅ := hkeeps₂.trans hkeeps₅
  refine Program.wp_mono looseRule_monotone ?_ (installTrans_loose (hkeeps₅.clean hclean)
    ((hworks₄.same hjob₅).mono fun _ hk => absurd hk List.not_mem_nil))
  rintro _ ghost₆ ⟨hkeeps₆, hworks₆⟩
  have hkeeps₆ := hkeeps₅.trans hkeeps₆
  refine setLh_loose hworks₆ [] fun ghost₇ hkeeps₇ hworks₇ => ?_
  have hkeeps₇ := hkeeps₆.trans hkeeps₇
  refine Program.wp_mono looseRule_monotone ?_ (writeHead_loose (hkeeps₇.clean hclean) hworks₇)
  rintro _ ghost₈ ⟨hkeeps₈, job, hjob₈, hrecovering, hmem, -⟩
  have hkeeps := hkeeps₇.trans hkeeps₈
  rw [wp_up_loose]
  exact ⟨job, hjob₈, hrecovering, hmem, ⟨hkeeps.share, hkeeps.dirty, rfl⟩, rfl⟩

end Xv6.Kernel
