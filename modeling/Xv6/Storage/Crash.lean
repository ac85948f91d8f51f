import Xv6.Storage.KernelSteps

/-!
# Crashes and reboots

A crash keeps the disk and nothing else. What it may find there is `Recoverable`: a header that is
empty, or names a whole group whose contents are in the slots of the log, while every block the
header does not name is as the groups committed so far left it. Every intermediate state of a commit
and of a recovery is recoverable, and from a recoverable disk `fsinit` has its job to do.
-/

set_option linter.unusedSectionVars false

namespace Xv6.Kernel

/-- What happens from outside. -/
inductive Event (ι : Type) where
  /-- The machine stops between two sections, and starts again. -/
  | crash
  /-- A process changes its own memory or its mappings. -/
  | remap (who : ι) (pages : Nat → Option (Nat → UInt8))

/-- Memory after a reset, and the disk. The first process runs `fsinit`, the others are forked once
it has returned. -/
def boot {n : Nat} {ι D α : Type} [DecidableEq ι] [Inhabited D] (conf : Config D) (first : ι)
    (value : α) (disk : Nat → D) (user : ι → Nat → Option (Nat → UInt8))
    (committed : List (List (Nat × D))) : Threads (sections n D) (State n ι D) ι α where
  shared := ⟨.binit, disk, ⟨conf.start, conf.size, 0, false, 0, []⟩, user, false, [], committed⟩
  thread who := (if who = first then fsinit conf else forked) >>= fun _ => pure value

def environment {n : Nat} {ι D α : Type} [DecidableEq ι] [Inhabited D] (conf : Config D) (first : ι)
    (value : α) (world : Threads (sections n D) (State n ι D) ι α) :
    Event ι → Option (Threads (sections n D) (State n ι D) ι α)
  | .crash => some (boot conf first value world.shared.disk world.shared.user world.shared.committed)
  | .remap who pages => some { world with
      shared := { world.shared with user := Function.update world.shared.user who pages } }

variable {n : Nat} {ι D : Type} [DecidableEq ι] [Fintype ι] {conf : Config D}

/-- What a crash may leave on the disk: the header names `lh`, the slots hold `group`. -/
structure Recoverable (conf : Config D) (disk : Nat → D) (based : Nat → D) (lh : List Nat)
    (group : Nat → D) : Prop where
  wellFormed : Job.WellFormed conf lh
  header : conf.header.decode (disk conf.start) = lh
  slot : ∀ i, (hi : i < lh.length) → disk (conf.start + i + 1) = group lh[i]
  named : ∀ blockno ∈ lh, based blockno = group blockno
  other : ∀ blockno, conf.Home blockno → blockno ∉ lh → disk blockno = based blockno

theorem Recoverable.nil {disk based : Nat → D} (hheader : conf.header.decode (disk conf.start) = [])
    (hhome : ∀ blockno, conf.Home blockno → disk blockno = based blockno) :
    Recoverable conf disk based [] based where
  wellFormed := ⟨List.nodup_nil, Nat.zero_le _, fun hnil => absurd rfl hnil, by simp⟩
  header := hheader
  slot i hi := absurd hi (Nat.not_lt_zero i)
  named blockno hmem := absurd hmem List.not_mem_nil
  other blockno hhome' _ := hhome blockno hhome'

theorem LogOk.recoverable {disk based : Nat → D} {log : Log} {current : List (Nat × D)}
    {job : Option (Job D)} (h : LogOk conf disk based log current job) :
    ∃ lh group, Recoverable conf disk based lh group := by
  cases job with
  | none =>
      have hidle : IdleOk conf disk based log current := h
      exact ⟨[], based, .nil hidle.header hidle.home⟩
  | some job =>
      have hjob : JobOk conf disk based log current job := h
      cases honDisk : job.onDisk with
      | false => exact ⟨[], based, .nil (by simp [hjob.header, honDisk]) (hjob.before honDisk)⟩
      | true =>
          obtain ⟨hslots, hlh⟩ := hjob.after honDisk
          refine ⟨job.lh, job.group, hjob.wellFormed, by simp [hjob.header, honDisk],
            fun i hi => hjob.slot i hi (hslots ▸ hi), fun k hk => (hlh k hk).1, hjob.other⟩

variable [Inhabited D]

def bootGhost (first : ι) (lh : List Nat) (group : Nat → D) (who : ι) : Ghost n D where
  share := .idle fun _ => default
  dirty := ∅
  job := if who = first then some (Job.recover lh group) else none
  booted := false

theorem sharing_boot {first : ι} {lh : List Nat} {group : Nat → D} :
    Sharing (Bcache.binit : Bcache n ι (Content D))
      (fun who => (bootGhost first lh group who : Ghost n D).share)
      (pinsOf (Bcache.binit : Bcache n ι (Content D)) []) := by
  have hpins : pinsOf (Bcache.binit : Bcache n ι (Content D)) [] = fun _ => 0 := by
    funext b
    simp [pinsOf]
  exact hpins ▸ Sharing.binit fun _ => default

theorem roles_boot (first : ι) (lh : List Nat) (group : Nat → D) :
    Roles (some (Job.recover lh group)) false
      (fun who => (bootGhost first lh group who : Ghost n D)) := by
  have hjob : ∀ who held, (bootGhost first lh group who : Ghost n D).job = some held →
      who = first ∧ Job.recover lh group = held := by
    intro who held hheld
    simpa [bootGhost, Option.ite_none_right_eq_some] using hheld
  refine ⟨fun who held hheld => congrArg some (hjob who held hheld).2,
    fun who other hwho hother => ?_, fun who hbooted => (nomatch hbooted), fun _ _ _ => rfl⟩
  obtain ⟨held, hheld⟩ := Option.ne_none_iff_exists'.mp hwho
  obtain ⟨held', hheld'⟩ := Option.ne_none_iff_exists'.mp hother
  rw [(hjob who held hheld).1, (hjob other held' hheld').1]

theorem Recoverable.jobOk {disk based : Nat → D} {lh : List Nat} {group : Nat → D} {log : Log}
    (h : Recoverable conf disk based lh group) (houtstanding : log.outstanding = 0)
    (hcommitting : log.committing = false) (hlog : log.lh = []) :
    JobOk conf disk based log [] (Job.recover lh group) where
  outstanding := houtstanding
  committing := by
    rw [hcommitting]
    rfl
  lh := hlog
  wellFormed := h.wellFormed
  todo := List.suffix_refl _
  pinned := List.nil_suffix
  recovering _ := rfl
  pending_pinned := by simp [Job.pending, Job.recover]
  pending_mem := by simp [Job.pending, Job.recover]
  slot i hi _ := h.slot i hi
  header := by
    rw [h.header]
    cases lh <;> rfl
  other := h.other
  before honDisk blockno hhome := by
    have hnil : lh = [] := by simpa [Job.recover] using honDisk
    exact h.other blockno hhome (by simp [hnil])
  after _ := ⟨rfl, fun blockno hmem => ⟨h.named blockno hmem, fun hnot => absurd hmem hnot⟩⟩
  current blockno := by simp [Job.recover, pendingOf]

theorem Recoverable.invAt {init disk : Nat → D} {committed : List (List (Nat × D))} {lh : List Nat}
    {group : Nat → D} {α : Type} (h : Recoverable conf disk (base init committed) lh group)
    (first : ι) (value : α) (user : ι → Nat → Option (Nat → UInt8)) :
    InvAt conf init (some (Job.recover lh group))
      (boot conf first value disk user committed : Threads (sections n D) _ ι α).shared (bootGhost first lh group) where
  sharing := sharing_boot
  clean who := Finset.Subset.refl _
  roles := roles_boot first lh group
  size := rfl
  coherent := by
    refine ⟨fun b hvalid => (nomatch hvalid), fun blockno data hpending => ?_⟩
    simp [pendingMap, Job.pending, Job.recover] at hpending
  pinned := by simp [pinnedList, Job.recover]
  log := h.jobOk rfl rfl rfl

/-- What is between calls at boot: nothing in hand, `fsinit` done. -/
structure Ghost.Fresh (ghost : Ghost n D) : Prop where
  locked : ghost.share.locked = ∅
  dirty : ghost.dirty = ∅
  job : ghost.job = none
  booted : ghost.booted = true

theorem verified_boot {init disk : Nat → D} {committed : List (List (Nat × D))} {lh : List Nat}
    {group : Nat → D} {α : Type} {post : ι → α → Ghost n D → Prop} {value : α}
    (h : Recoverable conf disk (base init committed) lh group) (first : ι)
    (user : ι → Nat → Option (Nat → UInt8))
    (hpost : ∀ who ghost, ghost.Fresh → post who value ghost) :
    Threads.Verified (rule conf) (Inv conf init) post
      (boot conf first value disk user committed) := by
  refine ⟨bootGhost first lh group, ⟨_, h.invAt first value user⟩, fun who => ?_⟩
  simp only [boot, Program.wp_bind, Program.wp_pure, Program.wp_ite]
  by_cases hfirst : who = first
  · rw [if_pos hfirst]
    have hjob : (bootGhost first lh group who : Ghost n D).job = some (Job.recover lh group) :=
      if_pos hfirst
    refine Program.wp_mono rule_monotone ?_ (fsinit_spec (Finset.Subset.refl _) h.wellFormed hjob)
    rintro _ after ⟨hkeeps, hjob⟩
    exact hpost who after ⟨hkeeps.share.locked, hkeeps.dirty, hjob, hkeeps.booted⟩
  · rw [if_neg hfirst, wp_forked]
    exact hpost who _ ⟨rfl, rfl, by simp [bootGhost, hfirst], rfl⟩

theorem environment_sound {init : Nat → D} {α : Type} {post : ι → α → Ghost n D → Prop} {value : α}
    (first : ι) (hpost : ∀ who ghost, ghost.Fresh → post who value ghost) :
    Threads.EnvSound (environment conf first value) (rule conf) (Inv conf init) post := by
  rintro world event world' ⟨ghosts, ⟨job, hinv⟩, hwp⟩ hevent
  cases event with
  | crash =>
      cases hevent
      obtain ⟨lh, group, hrecoverable⟩ := hinv.log.recoverable
      exact verified_boot hrecoverable first _ hpost
  | remap who pages =>
      cases hevent
      exact ⟨ghosts, ⟨job, hinv.remap⟩, hwp⟩

theorem Inv.home {init : Nat → D} {state : State n ι D} {ghosts : ι → Ghost n D}
    (h : Inv conf init state ghosts) (hup : state.up = true)
    (hcommitting : state.log.committing = false) {blockno : Nat} (hhome : conf.Home blockno) :
    state.disk blockno = base init state.committed blockno := by
  obtain ⟨job, hinv⟩ := h
  cases job with
  | none =>
      have hidle : IdleOk _ _ _ _ _ := hinv.log
      exact hidle.home blockno hhome
  | some job =>
      have hjob : JobOk _ _ _ _ _ _ := hinv.log
      have hrecovering : job.recovering = true := by simpa [hcommitting] using hjob.committing
      have hdown := hinv.roles.recovering job rfl hrecovering
      exact absurd (hup.symm.trans hdown) (by simp)

end Xv6.Kernel
