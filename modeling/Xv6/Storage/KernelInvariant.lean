import Xv6.Storage.KernelSpecs

/-!
# The cache, the log and the disk, between any two sections

A block that the group in progress has logged is pending: its home contents are out of date, and the
cache has it right, pinned, until `install_trans` brings it home. Every valid buffer that nobody is
changing holds the pending contents of its block, or else those on the disk. The header on the disk
is empty except between the commit and the end of the installation, and then the slots of the log
hold what it names.
-/

set_option linter.unusedSectionVars false

namespace Xv6.Kernel

variable {n : Nat} {ι D : Type} [DecidableEq ι] [Fintype ι] {conf : Config D}

/-! ### Groups of writes -/

def pendingOf (writes : List (Nat × D)) : Nat → Option D :=
  writes.foldl (fun pending write => Function.update pending write.1 (some write.2)) fun _ => none

def overwrite (disk : Nat → D) (writes : List (Nat × D)) : Nat → D :=
  writes.foldl (fun disk write => Function.update disk write.1 write.2) disk

theorem pendingOf_append (writes : List (Nat × D)) (blockno : Nat) (data : D) :
    pendingOf (writes ++ [(blockno, data)]) =
      Function.update (pendingOf writes) blockno (some data) := by
  simp [pendingOf]

theorem overwrite_apply (disk : Nat → D) (writes : List (Nat × D)) (blockno : Nat) :
    overwrite disk writes blockno = (pendingOf writes blockno).getD (disk blockno) := by
  induction writes using List.reverseRecOn with
  | nil => rfl
  | append_singleton writes write ih =>
      have hlast : overwrite disk (writes ++ [write]) =
          Function.update (overwrite disk writes) write.1 write.2 := by
        simp [overwrite]
      rw [hlast, show write = (write.1, write.2) from rfl, pendingOf_append]
      by_cases hb : blockno = write.1
      · subst hb
        rw [Function.update_self, Function.update_self]
        rfl
      · rw [Function.update_of_ne hb, Function.update_of_ne hb]
        exact ih

def base (init : Nat → D) (committed : List (List (Nat × D))) : Nat → D :=
  committed.foldl overwrite init

theorem base_append (init : Nat → D) (committed : List (List (Nat × D)))
    (group : List (Nat × D)) (blockno : Nat) :
    base init (committed ++ [group]) blockno =
      (pendingOf group blockno).getD (base init committed blockno) := by
  simp [base, overwrite_apply]

/-! ### The parts of the invariant -/

theorem Config.not_home_start (conf : Config D) : ¬conf.Home conf.start := by
  have hpos := conf.size_pos
  simp only [Config.Home, Config.InLog]
  omega

theorem Config.not_home_slot (conf : Config D) {i : Nat} (hi : i + 1 < conf.size) :
    ¬conf.Home (conf.start + i + 1) := by
  simp only [Config.Home, Config.InLog]
  omega

def pendingMap (job : Option (Job D)) (current : List (Nat × D)) (blockno : Nat) : Option D :=
  match job with
  | none => pendingOf current blockno
  | some job => if blockno ∈ job.pending then some (job.group blockno) else none

def pinnedList (job : Option (Job D)) (log : Log) : List Nat :=
  match job with
  | none => log.lh
  | some job => job.pinned

def pinsOf (cache : Bcache n ι (Content D)) (pinned : List Nat) (b : Fin n) : Nat :=
  if (cache.buf b).dev = rootDev ∧ (cache.buf b).blockno ∈ pinned then 1 else 0

structure Coherent (cache : Bcache n ι (Content D)) (disk : Nat → D) (pending : Nat → Option D)
    (dirty : ι → Finset (Fin n)) : Prop where
  clean : ∀ b, (cache.buf b).content.valid = true → (cache.buf b).dev = rootDev →
    (∀ who, b ∉ dirty who) → (cache.buf b).content.data =
      (pending (cache.buf b).blockno).getD (disk (cache.buf b).blockno)
  cached : ∀ blockno data, pending blockno = some data → ∃ b,
    (cache.buf b).key = (rootDev, blockno) ∧ (cache.buf b).content.valid = true

structure IdleOk (conf : Config D) (disk : Nat → D) (based : Nat → D) (log : Log)
    (current : List (Nat × D)) : Prop where
  committing : log.committing = false
  wellFormed : Job.WellFormed conf log.lh
  logged : ∀ blockno, blockno ∈ log.lh ↔ (pendingOf current blockno).isSome
  header : conf.header.decode (disk conf.start) = []
  home : ∀ blockno, conf.Home blockno → disk blockno = based blockno

structure JobOk (conf : Config D) (disk : Nat → D) (based : Nat → D) (log : Log)
    (current : List (Nat × D)) (job : Job D) : Prop where
  outstanding : log.outstanding = 0
  committing : log.committing = !job.recovering
  lh : log.lh = job.mem
  wellFormed : Job.WellFormed conf job.lh
  todo : job.todo <:+ job.lh
  pinned : job.pinned <:+ job.lh
  recovering : job.recovering = true → job.pinned = []
  pending_pinned : ∀ blockno ∈ job.pending, blockno ∈ job.pinned
  pending_mem : ∀ blockno ∈ job.pending, blockno ∈ job.mem
  slot : ∀ i, (hi : i < job.lh.length) → i < job.slots →
    disk (conf.start + i + 1) = job.group job.lh[i]
  header : conf.header.decode (disk conf.start) = if job.onDisk then job.lh else []
  other : ∀ blockno, conf.Home blockno → blockno ∉ job.lh → disk blockno = based blockno
  before : job.onDisk = false → ∀ blockno, conf.Home blockno → disk blockno = based blockno
  after : job.onDisk = true → job.slots = job.lh.length ∧ ∀ blockno ∈ job.lh,
    based blockno = job.group blockno ∧ (blockno ∉ job.todo → disk blockno = job.group blockno)
  current : ∀ blockno, pendingOf current blockno =
    if (job.onDisk = false ∧ job.recovering = false ∧ job.todo = job.lh) ∧ blockno ∈ job.lh then
      some (job.group blockno) else none

def LogOk (conf : Config D) (disk : Nat → D) (based : Nat → D) (log : Log)
    (current : List (Nat × D)) : Option (Job D) → Prop
  | none => IdleOk conf disk based log current
  | some job => JobOk conf disk based log current job

/-- Who has the job, and who knows that `fsinit` has returned. -/
structure Roles (job : Option (Job D)) (up : Bool) (ghosts : ι → Ghost n D) : Prop where
  held : ∀ who held, (ghosts who).job = some held → job = some held
  single : ∀ who other, (ghosts who).job ≠ none → (ghosts other).job ≠ none → who = other
  booted : ∀ who, (ghosts who).booted = true → up = true
  recovering : ∀ current, job = some current → current.recovering = true → up = false

structure InvAt (conf : Config D) (init : Nat → D) (job : Option (Job D)) (state : State n ι D)
    (ghosts : ι → Ghost n D) : Prop where
  sharing : Sharing state.cache (fun who => (ghosts who).share)
    (pinsOf state.cache (pinnedList job state.log))
  clean : ∀ who, (ghosts who).Clean
  roles : Roles job state.up ghosts
  size : state.log.size = conf.size
  coherent : Coherent state.cache state.disk (pendingMap job state.current)
    fun who => (ghosts who).dirty
  pinned : ∀ blockno ∈ pinnedList job state.log, ∃ b, (state.cache.buf b).key = (rootDev, blockno)
  log : LogOk conf state.disk (base init state.committed) state.log state.current job

def Inv (conf : Config D) (init : Nat → D) (state : State n ι D) (ghosts : ι → Ghost n D) : Prop :=
  ∃ job, InvAt conf init job state ghosts

theorem pinsOf_congr {cache cache' : Bcache n ι (Content D)} (pinned : List Nat)
    (hkey : ∀ b, (cache'.buf b).key = (cache.buf b).key) :
    pinsOf cache' pinned = pinsOf cache pinned := by
  funext b
  have hdev : (cache'.buf b).dev = (cache.buf b).dev := congrArg Prod.fst (hkey b)
  have hblockno : (cache'.buf b).blockno = (cache.buf b).blockno := congrArg Prod.snd (hkey b)
  simp [pinsOf, hdev, hblockno]

section Pins

variable {cache : Bcache n ι (Content D)} {shares : ι → Share n (Content D)} {pinned : List Nat}
  {b : Fin n}

theorem key_ne_of_unused (h : Sharing cache shares (pinsOf cache pinned))
    (hunused : cache.unused = some b) {blockno : Nat} (hmem : blockno ∈ pinned) :
    (cache.buf b).key ≠ (rootDev, blockno) := by
  intro hkey
  have hzero := h.refcnt_of_unused hunused
  have hrefcnt := h.refcnt b
  have hdev : (cache.buf b).dev = rootDev := congrArg Prod.fst hkey
  have hblockno : (cache.buf b).blockno = blockno := congrArg Prod.snd hkey
  have hpin : pinsOf cache pinned b = 1 := by simp [pinsOf, hdev, hblockno, hmem]
  omega

theorem pinsOf_recycle (h : Sharing cache shares (pinsOf cache pinned))
    (hcached : ∀ blockno ∈ pinned, ∃ b, (cache.buf b).key = (rootDev, blockno))
    {dev blockno : Nat} (hmiss : cache.cached dev blockno = none)
    (hunused : cache.unused = some b) (content : Content D) (refcnt : Nat) :
    pinsOf (cache.setBuf b { cache.buf b with dev, blockno, content, refcnt }) pinned =
      pinsOf cache pinned := by
  have hfresh : ¬(dev = rootDev ∧ blockno ∈ pinned) := by
    rintro ⟨rfl, hmem⟩
    obtain ⟨b', hkey⟩ := hcached blockno hmem
    exact h.key_ne_of_cached_eq_none hmiss b' hkey
  funext b'
  by_cases hb : b' = b
  · subst hb
    have hold : ¬((cache.buf b').dev = rootDev ∧ (cache.buf b').blockno ∈ pinned) := by
      rintro ⟨hdev, hmem⟩
      exact key_ne_of_unused h hunused hmem (by rw [Buf.key, hdev])
    simp only [pinsOf, Bcache.setBuf_buf_self, if_neg hfresh, if_neg hold]
  · simp [pinsOf, hb]

theorem blockno_ne_of_ne {pins : Fin n → Nat} (h : Sharing cache shares pins) {b' : Fin n}
    (hb : b' ≠ b) (hdev' : (cache.buf b').dev = rootDev) (hdev : (cache.buf b).dev = rootDev) :
    (cache.buf b').blockno ≠ (cache.buf b).blockno := by
  intro hblockno
  refine hb (h.unique b' b (by simp [hdev', rootDev]) ?_)
  rw [Buf.key, Buf.key, hdev', hdev, hblockno]

theorem pinsOf_bpin {pins : Fin n → Nat} (h : Sharing cache shares pins)
    (hdev : (cache.buf b).dev = rootDev) (hnot : (cache.buf b).blockno ∉ pinned) :
    pinsOf (cache.bpin b) (pinned ++ [(cache.buf b).blockno]) =
      Function.update (pinsOf cache pinned) b (pinsOf cache pinned b + 1) := by
  funext b'
  by_cases hb : b' = b
  · subst hb
    rw [Function.update_self]
    simp [pinsOf, Bcache.bpin, hdev, hnot]
  · rw [Function.update_of_ne hb]
    have hsame : (Bcache.bpin cache b).buf b' = cache.buf b' := by simp [Bcache.bpin, hb]
    by_cases hdev' : (cache.buf b').dev = rootDev
    · simp [pinsOf, hsame, blockno_ne_of_ne h hb hdev' hdev]
    · simp [pinsOf, hsame, hdev']

theorem pinsOf_bunpin {pins : Fin n → Nat} (h : Sharing cache shares pins)
    (hdev : (cache.buf b).dev = rootDev) {rest : List Nat}
    (hpinned : pinned = (cache.buf b).blockno :: rest) (hnodup : pinned.Nodup) :
    pinsOf cache pinned b = 1 ∧ pinsOf (cache.bunpin b) rest =
      Function.update (pinsOf cache pinned) b (pinsOf cache pinned b - 1) := by
  have hfresh : (cache.buf b).blockno ∉ rest := by
    rw [hpinned] at hnodup
    exact (List.nodup_cons.mp hnodup).1
  have hone : pinsOf cache pinned b = 1 := by simp [pinsOf, hdev, hpinned]
  refine ⟨hone, funext fun b' => ?_⟩
  by_cases hb : b' = b
  · subst hb
    rw [Function.update_self, hone]
    simp [pinsOf, Bcache.bunpin, hfresh]
  · rw [Function.update_of_ne hb]
    have hsame : (Bcache.bunpin cache b).buf b' = cache.buf b' := by simp [Bcache.bunpin, hb]
    by_cases hdev' : (cache.buf b').dev = rootDev
    · simp [pinsOf, hsame, hpinned, blockno_ne_of_ne h hb hdev' hdev]
    · simp [pinsOf, hsame, hdev']

end Pins

theorem map_update {κ : Type} (ghosts : ι → Ghost n D) (who : ι) (ghost : Ghost n D)
    (f : Ghost n D → κ) : (fun other => f (Function.update ghosts who ghost other)) =
      Function.update (fun other => f (ghosts other)) who (f ghost) := by
  funext other
  by_cases hother : other = who
  · subst hother
    rw [Function.update_self, Function.update_self]
  · rw [Function.update_of_ne hother, Function.update_of_ne hother]

theorem field_update {κ : Type} {ghosts : ι → Ghost n D} {who : ι} {ghost : Ghost n D}
    (f : Ghost n D → κ) (hself : f ghost = f (ghosts who)) (other : ι) :
    f (Function.update ghosts who ghost other) = f (ghosts other) := by
  by_cases hother : other = who
  · subst hother
    rwa [Function.update_self]
  · rw [Function.update_of_ne hother]

theorem clean_update {ghosts : ι → Ghost n D} {who : ι} {ghost : Ghost n D}
    (h : ∀ other, (ghosts other).Clean) (hself : ghost.Clean) (other : ι) :
    (Function.update ghosts who ghost other).Clean := by
  by_cases hother : other = who
  · subst hother
    rwa [Function.update_self]
  · rw [Function.update_of_ne hother]
    exact h other

theorem Roles.update {job : Option (Job D)} {up : Bool} {ghosts : ι → Ghost n D} {who : ι}
    {ghost : Ghost n D} (h : Roles job up ghosts) (hjob : ghost.job = (ghosts who).job)
    (hbooted : ghost.booted = (ghosts who).booted) :
    Roles job up (Function.update ghosts who ghost) := by
  have hjobs : ∀ other, (Function.update ghosts who ghost other).job = (ghosts other).job :=
    field_update Ghost.job hjob
  have hall : ∀ other, (Function.update ghosts who ghost other).booted = (ghosts other).booted :=
    field_update Ghost.booted hbooted
  refine ⟨fun other => ?_, fun other other' => ?_, fun other => ?_, h.recovering⟩
  · rw [hjobs]
    exact h.held other
  · rw [hjobs, hjobs]
    exact h.single other other'
  · rw [hall]
    exact h.booted other

theorem Roles.advance {job next : Job D} {up : Bool} {ghosts : ι → Ghost n D} {who : ι}
    {ghost : Ghost n D} (h : Roles (some job) up ghosts) (hheld : (ghosts who).job = some job)
    (hjob : ghost.job = some next) (hbooted : ghost.booted = (ghosts who).booted)
    (hrecovering : next.recovering = job.recovering) :
    Roles (some next) up (Function.update ghosts who ghost) := by
  have hothers : ∀ other, other ≠ who → (ghosts other).job = none := by
    intro other hne
    by_contra hnot
    exact hne (h.single other who hnot (by simp [hheld]))
  have hall : ∀ other, (Function.update ghosts who ghost other).booted = (ghosts other).booted :=
    field_update Ghost.booted hbooted
  refine ⟨fun other held => ?_, fun other other' => ?_, fun other => ?_, fun current hcurrent => ?_⟩
  · by_cases hother : other = who
    · subst hother
      rw [Function.update_self, hjob]
      exact id
    · rw [Function.update_of_ne hother, hothers other hother]
      exact fun hnone => nomatch hnone
  · by_cases hother : other = who
    · by_cases hother' : other' = who
      · rw [hother, hother']
        exact fun _ _ => rfl
      · rw [Function.update_of_ne hother', hothers other' hother']
        exact fun _ hnone => absurd rfl hnone
    · rw [Function.update_of_ne hother, hothers other hother]
      exact fun hnone => absurd rfl hnone
  · rw [hall]
    exact h.booted other
  · obtain rfl := Option.some.inj hcurrent
    rw [hrecovering]
    exact h.recovering job rfl

theorem Roles.take {job : Job D} {up : Bool} {ghosts : ι → Ghost n D} {who : ι} {ghost : Ghost n D}
    (h : Roles none up ghosts) (hjob : ghost.job = some job)
    (hbooted : ghost.booted = (ghosts who).booted) (hrecovering : job.recovering = false) :
    Roles (some job) up (Function.update ghosts who ghost) := by
  have hnone : ∀ other, (ghosts other).job = none := by
    intro other
    cases hother : (ghosts other).job with
    | none => rfl
    | some held => exact absurd (h.held other held hother) (by simp)
  have hall : ∀ other, (Function.update ghosts who ghost other).booted = (ghosts other).booted :=
    field_update Ghost.booted hbooted
  refine ⟨fun other held => ?_, fun other other' => ?_, fun other => ?_, fun current hcurrent => ?_⟩
  · by_cases hother : other = who
    · subst hother
      rw [Function.update_self, hjob]
      exact id
    · rw [Function.update_of_ne hother, hnone other]
      exact fun hsome => nomatch hsome
  · by_cases hother : other = who
    · by_cases hother' : other' = who
      · rw [hother, hother']
        exact fun _ _ => rfl
      · rw [Function.update_of_ne hother', hnone other']
        exact fun _ hsome => absurd rfl hsome
    · rw [Function.update_of_ne hother, hnone other]
      exact fun hsome => absurd rfl hsome
  · rw [hall]
    exact h.booted other
  · obtain rfl := Option.some.inj hcurrent
    rw [hrecovering]
    exact fun hfalse => nomatch hfalse

theorem Roles.finish {job : Job D} {up up' : Bool} {ghosts : ι → Ghost n D} {who : ι}
    {ghost : Ghost n D} (h : Roles (some job) up ghosts) (hheld : (ghosts who).job = some job)
    (hjob : ghost.job = none) (hup : up = true → up' = true)
    (hbooted : ghost.booted = true → up' = true) :
    Roles none up' (Function.update ghosts who ghost) := by
  have hnone : ∀ other, (Function.update ghosts who ghost other).job = none := by
    intro other
    by_cases hother : other = who
    · subst hother
      rw [Function.update_self, hjob]
    · rw [Function.update_of_ne hother]
      by_contra hnot
      exact hother (h.single other who hnot (by simp [hheld]))
  refine ⟨fun other held => ?_, fun other other' => ?_, fun other => ?_,
    fun current hcurrent => (nomatch hcurrent)⟩
  · rw [hnone]
    exact fun hsome => nomatch hsome
  · rw [hnone]
    exact fun hsome => absurd rfl hsome
  · by_cases hother : other = who
    · subst hother
      rw [Function.update_self]
      exact hbooted
    · rw [Function.update_of_ne hother]
      exact fun hother => hup (h.booted other hother)

theorem Roles.boot {job : Option (Job D)} {up : Bool} {ghosts : ι → Ghost n D} {who : ι}
    {ghost : Ghost n D} (h : Roles job up ghosts) (hjob : ghost.job = (ghosts who).job)
    (hup : up = true) : Roles job up (Function.update ghosts who ghost) := by
  have hjobs : ∀ other, (Function.update ghosts who ghost other).job = (ghosts other).job :=
    field_update Ghost.job hjob
  refine ⟨fun other held => ?_, fun other other' => ?_, fun _ _ => hup, h.recovering⟩
  · rw [hjobs]
    exact h.held other held
  · rw [hjobs, hjobs]
    exact h.single other other'

namespace InvAt

variable {init : Nat → D} {job : Option (Job D)} {state : State n ι D} {ghosts : ι → Ghost n D}
  {who : ι} {b : Fin n}

theorem home_of_pending (h : InvAt conf init job state ghosts) {blockno : Nat} {data : D}
    (hpending : pendingMap job state.current blockno = some data) :
    conf.Home blockno ∧ blockno ∈ pinnedList job state.log := by
  have hlog := h.log
  cases job with
  | none =>
      have hmem := (hlog.logged blockno).mpr (by simp [show pendingOf _ _ = some data from hpending])
      exact ⟨hlog.wellFormed.home blockno hmem, hmem⟩
  | some job =>
      have hmem : blockno ∈ job.pending := by
        by_contra hnot
        simp [pendingMap, hnot] at hpending
      have hpinned := hlog.pending_pinned blockno hmem
      exact ⟨hlog.wellFormed.home blockno (hlog.pinned.subset hpinned), hpinned⟩

theorem knows (h : InvAt conf init job state ghosts) (blockno : Nat) :
    ∀ held, (ghosts who).job = some held → held.Knows conf blockno
      ((pendingMap job state.current blockno).getD (state.disk blockno)) := by
  intro held hheld
  obtain rfl := h.roles.held who held hheld
  have hlog : JobOk _ _ _ _ _ _ := h.log
  have hdisk : ¬conf.Home blockno →
      (pendingMap (some held) state.current blockno).getD (state.disk blockno) =
        state.disk blockno := by
    intro hnot
    have hnone : pendingMap (some held) state.current blockno = none := by
      cases hpending : pendingMap (some held) state.current blockno with
      | none => rfl
      | some data => exact absurd (h.home_of_pending hpending).1 hnot
    rw [hnone]
    rfl
  refine ⟨fun hmem => ?_, fun i hi hslots hslot => ?_, fun hstart => ?_⟩
  · simp [pendingMap, hmem]
  · have hsize := hlog.wellFormed.length_lt (List.ne_nil_of_length_pos (by omega))
    rw [hdisk (hslot ▸ conf.not_home_slot (by omega)), hslot]
    exact hlog.slot i hi hslots
  · rw [hdisk (hstart ▸ conf.not_home_start), hstart]
    exact hlog.header

end InvAt

end Xv6.Kernel
