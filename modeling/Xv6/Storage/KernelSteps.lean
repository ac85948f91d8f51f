import Xv6.Storage.KernelInvariant

/-!
# Every section keeps the invariant

One lemma for each kind of section, and `handler_sound` from them.
-/

set_option linter.unusedSectionVars false

namespace Xv6.Kernel

variable {n : Nat} {ι D : Type} [DecidableEq ι] [Fintype ι] {conf : Config D}

theorem Coherent.of_same {cache cache' : Bcache n ι (Content D)} {disk : Nat → D}
    {pending : Nat → Option D} {dirty : ι → Finset (Fin n)}
    (h : Coherent cache disk pending dirty)
    (hsame : ∀ b, (cache'.buf b).content.valid = true →
      (cache'.buf b).key = (cache.buf b).key ∧ (cache'.buf b).content = (cache.buf b).content)
    (hkept : ∀ b blockno data, pending blockno = some data →
      (cache.buf b).key = (rootDev, blockno) → (cache.buf b).content.valid = true →
        (cache'.buf b).key = (cache.buf b).key ∧ (cache'.buf b).content.valid = true) :
    Coherent cache' disk pending dirty where
  clean b hvalid hdev hnobody := by
    obtain ⟨hkey, hcontent⟩ := hsame b hvalid
    have hdev' : (cache'.buf b).dev = (cache.buf b).dev := congrArg Prod.fst hkey
    have hblockno : (cache'.buf b).blockno = (cache.buf b).blockno := congrArg Prod.snd hkey
    rw [hcontent, hblockno]
    exact h.clean b (hcontent ▸ hvalid) (hdev' ▸ hdev) hnobody
  cached blockno data hpending := by
    obtain ⟨b, hkey, hvalid⟩ := h.cached blockno data hpending
    obtain ⟨hkey', hvalid'⟩ := hkept b blockno data hpending hkey hvalid
    exact ⟨b, hkey'.trans hkey, hvalid'⟩

theorem Coherent.same {cache cache' : Bcache n ι (Content D)} {disk : Nat → D}
    {pending : Nat → Option D} {dirty : ι → Finset (Fin n)}
    (h : Coherent cache disk pending dirty) (hsame : cache.Same cache') :
    Coherent cache' disk pending dirty :=
  Coherent.of_same h (fun b _ => ⟨hsame.key b, hsame.content b⟩) fun b _ _ _ _ hvalid =>
    ⟨hsame.key b, by rw [hsame.content b]; exact hvalid⟩

namespace InvAt

variable {init : Nat → D} {job : Option (Job D)} {state : State n ι D} {ghosts : ι → Ghost n D}
  {who : ι} {b : Fin n}

theorem remap (h : InvAt conf init job state ghosts) {user : ι → Nat → Option (Nat → UInt8)} :
    InvAt conf init job { state with user } ghosts :=
  ⟨h.sharing, h.clean, h.roles, h.size, h.coherent, h.pinned, h.log⟩

theorem cacheStep (h : InvAt conf init job state ghosts) {cache : Bcache n ι (Content D)}
    {share : Share n (Content D)} {dirty : Finset (Fin n)}
    (hsharing : Sharing cache (Function.update (fun other => (ghosts other).share) who share)
      (pinsOf cache (pinnedList job state.log)))
    (hclean : dirty ⊆ share.locked)
    (hcoherent : Coherent cache state.disk (pendingMap job state.current)
      (Function.update (fun other => (ghosts other).dirty) who dirty))
    (hpinned : ∀ blockno ∈ pinnedList job state.log, ∃ b,
      (cache.buf b).key = (rootDev, blockno)) :
    InvAt conf init job { state with cache }
      (Function.update ghosts who { ghosts who with share, dirty }) where
  sharing := by
    rw [map_update ghosts who _ Ghost.share]
    exact hsharing
  clean := clean_update h.clean hclean
  roles := h.roles.update rfl rfl
  size := h.size
  coherent := by
    rw [map_update ghosts who _ Ghost.dirty]
    exact hcoherent
  pinned := hpinned
  log := h.log

theorem shareStep (h : InvAt conf init job state ghosts) {cache : Bcache n ι (Content D)}
    {share : Share n (Content D)}
    (hsharing : Sharing cache (Function.update (fun other => (ghosts other).share) who share)
      (pinsOf state.cache (pinnedList job state.log)))
    (hclean : (ghosts who).dirty ⊆ share.locked) (hsame : state.cache.Same cache) :
    InvAt conf init job { state with cache }
      (Function.update ghosts who { ghosts who with share }) := by
  refine h.cacheStep ?_ hclean ?_ fun blockno hmem => ?_
  · rw [pinsOf_congr _ hsame.key]
    exact hsharing
  · rw [Function.update_eq_self who fun other => (ghosts other).dirty]
    exact h.coherent.same hsame
  · obtain ⟨b, hb⟩ := h.pinned blockno hmem
    exact ⟨b, (hsame.key b).trans hb⟩

theorem bget (h : InvAt conf init job state ghosts) {cache : Bcache n ι (Content D)}
    {dev blockno : Nat} (hbget : state.cache.bget (fun content => { content with valid := false })
      dev blockno = some (b, cache)) :
    InvAt conf init job { state with cache } (Function.update ghosts who { ghosts who with
      share := (ghosts who).share.get b (dev, blockno) }) := by
  have hsharing : Sharing cache (Function.update (fun other => (ghosts other).share) who
      ((ghosts who).share.get b (dev, blockno))) _ := h.sharing.bget hbget
  obtain ⟨-, rfl⟩ | ⟨hcached, hunused, rfl⟩ := Bcache.bget_cases hbget
  · exact h.shareStep hsharing (h.clean who) (Bcache.setBuf_same rfl rfl)
  · have hunpinned : ∀ k ∈ pinnedList job state.log, (state.cache.buf b).key ≠ (rootDev, k) :=
      fun k hmem => key_ne_of_unused h.sharing hunused hmem
    have hpins := pinsOf_recycle h.sharing h.pinned hcached hunused
      { (state.cache.buf b).content with valid := false } 1
    refine h.cacheStep (hpins ▸ hsharing) (h.clean who) ?_ fun k hmem => ?_
    · rw [Function.update_eq_self who fun other => (ghosts other).dirty]
      refine Coherent.of_same h.coherent (fun b' hvalid => ?_) fun b' k data hpending hkey hvalid => ?_
      · by_cases hb : b' = b
        · subst hb
          simp at hvalid
        · simp [hb]
      · have hb : b' ≠ b := by
          rintro rfl
          exact hunpinned k (h.home_of_pending hpending).2 hkey
        simpa [hb] using hvalid
    · obtain ⟨b', hkey⟩ := h.pinned k hmem
      have hb : b' ≠ b := by
        rintro rfl
        exact hunpinned k hmem hkey
      exact ⟨b', by simpa [hb] using hkey⟩

theorem setBuf_key (cache : Bcache n ι (Content D)) (b b' : Fin n) (content : Content D) :
    ((cache.setBuf b { cache.buf b with content }).buf b').key = (cache.buf b').key := by
  by_cases hb : b' = b
  · subst hb
    simp [Buf.key]
  · simp [hb]

theorem setData (h : InvAt conf init job state ghosts) (hlocked : b ∈ (ghosts who).share.locked)
    (data : D) :
    InvAt conf init job { state with
      cache := state.cache.setBuf b { state.cache.buf b with
        content := { (state.cache.buf b).content with data } } }
      (Function.update ghosts who { ghosts who with
        share := (ghosts who).share.store b { (ghosts who).share.content b with data }
        dirty := insert b (ghosts who).dirty }) := by
  have hcontent := h.sharing.content who b hlocked
  have hkey := setBuf_key state.cache b
  refine h.cacheStep ?_ (Finset.insert_subset hlocked (h.clean who)) ⟨fun b' => ?_, ?_⟩ ?_
  · rw [pinsOf_congr _ fun b' => hkey b' _, hcontent]
    exact h.sharing.store hlocked _
  · by_cases hb : b' = b
    · subst hb
      intro _ _ hnobody
      have hnot := hnobody who
      simp at hnot
    · rw [Bcache.setBuf_buf_of_ne _ _ hb]
      refine fun hvalid hdev hnobody => h.coherent.clean b' hvalid hdev fun other => ?_
      have hnot := hnobody other
      by_cases hother : other = who
      · subst hother
        rw [Function.update_self] at hnot
        exact fun hmem => hnot (Finset.mem_insert_of_mem hmem)
      · rwa [Function.update_of_ne hother] at hnot
  · intro blockno pending hpending
    obtain ⟨b', hkey', hvalid⟩ := h.coherent.cached blockno pending hpending
    refine ⟨b', (hkey b' _).trans hkey', ?_⟩
    by_cases hb : b' = b
    · subst hb
      simpa using hvalid
    · simpa [hb] using hvalid
  · intro blockno hmem
    obtain ⟨b', hkey'⟩ := h.pinned blockno hmem
    exact ⟨b', (hkey b' _).trans hkey'⟩

theorem not_pending_of_invalid (h : InvAt conf init job state ghosts)
    (hdev : (state.cache.buf b).dev = rootDev)
    (hvalid : (state.cache.buf b).content.valid = false) :
    pendingMap job state.current (state.cache.buf b).blockno = none := by
  cases hpending : pendingMap job state.current (state.cache.buf b).blockno with
  | none => rfl
  | some data =>
      obtain ⟨b', hkey, hvalid'⟩ := h.coherent.cached _ data hpending
      have hsame : (state.cache.buf b).key = (state.cache.buf b').key := by
        rw [hkey, Buf.key, hdev]
      obtain rfl := h.sharing.unique b b' (by simp [hdev, rootDev]) hsame
      rw [hvalid] at hvalid'
      cases hvalid'

theorem diskRead (h : InvAt conf init job state ghosts) (hlocked : b ∈ (ghosts who).share.locked)
    (hvalid : ((ghosts who).share.content b).valid = false) :
    InvAt conf init job { state with
      cache := state.cache.setBuf b { state.cache.buf b with
        content := ⟨true, state.disk (state.cache.buf b).blockno⟩ } }
      (Function.update ghosts who { ghosts who with
        share := (ghosts who).share.store b ⟨true, state.disk (state.cache.buf b).blockno⟩ }) := by
  have hcontent := h.sharing.content who b hlocked
  have hkey := setBuf_key state.cache b
  refine h.cacheStep ?_ (h.clean who) ⟨fun b' => ?_, ?_⟩ ?_
  · rw [pinsOf_congr _ fun b' => hkey b' _]
    exact h.sharing.store hlocked _
  · rw [Function.update_eq_self who fun other => (ghosts other).dirty]
    by_cases hb : b' = b
    · subst hb
      rw [Bcache.setBuf_buf_self]
      intro _ hdev _
      have hnone := h.not_pending_of_invalid hdev (hcontent ▸ hvalid)
      dsimp only at hdev ⊢
      rw [hnone]
      rfl
    · rw [Bcache.setBuf_buf_of_ne _ _ hb]
      exact h.coherent.clean b'
  · intro blockno pending hpending
    obtain ⟨b', hkey', hvalid'⟩ := h.coherent.cached blockno pending hpending
    refine ⟨b', (hkey b' _).trans hkey', ?_⟩
    by_cases hb : b' = b
    · subst hb
      simp
    · simpa [hb] using hvalid'
  · intro blockno hmem
    obtain ⟨b', hkey'⟩ := h.pinned blockno hmem
    exact ⟨b', (hkey b' _).trans hkey'⟩

theorem knows_of_acquire (h : InvAt conf init job state ghosts)
    (hfree : (state.cache.buf b).owner = none)
    (hpending : 0 < (ghosts who).share.pending b)
    (hvalid : (state.cache.buf b).content.valid = true) :
    (ghosts who).Knows conf ((ghosts who).share.key b) (state.cache.buf b).content.data := by
  intro hdev held hheld
  have huses : 0 < (ghosts who).share.uses b := by simp [Share.uses]; omega
  have hkey := h.sharing.key who b huses
  have hblockno : (state.cache.buf b).blockno = ((ghosts who).share.key b).2 :=
    congrArg Prod.snd hkey
  have hnobody : ∀ other, b ∉ (ghosts other).dirty := by
    intro other hmem
    have howner := (h.sharing.owner other b).mpr (h.clean other hmem)
    rw [hfree] at howner
    cases howner
  have hdev' : (state.cache.buf b).dev = rootDev := by
    rw [← hdev, ← hkey]
    rfl
  rw [h.coherent.clean b hvalid hdev' hnobody, ← hblockno]
  exact h.knows _ held hheld

theorem knows_of_diskRead (h : InvAt conf init job state ghosts)
    (hlocked : b ∈ (ghosts who).share.locked)
    (hvalid : ((ghosts who).share.content b).valid = false) :
    (ghosts who).Knows conf ((ghosts who).share.key b)
      (state.disk (state.cache.buf b).blockno) := by
  intro hdev held hheld
  have hkey := h.sharing.key_of_locked hlocked
  have hcontent := h.sharing.content who b hlocked
  have hblockno : (state.cache.buf b).blockno = ((ghosts who).share.key b).2 :=
    congrArg Prod.snd hkey
  have hdev' : (state.cache.buf b).dev = rootDev := by
    rw [← hdev, ← hkey]
    rfl
  have hnone := h.not_pending_of_invalid hdev' (hcontent ▸ hvalid)
  have hknows := h.knows (state.cache.buf b).blockno held hheld
  rw [hnone, Option.getD_none, hblockno] at hknows
  rw [hblockno]
  exact hknows

/-! ### The disk -/

theorem coherent_diskWrite (h : InvAt conf init job state ghosts) {blockno : Nat}
    (hlocked : b ∈ (ghosts who).share.locked)
    (hkey : (state.cache.buf b).key = (rootDev, blockno))
    (hvalid : (state.cache.buf b).content.valid = true) {pending : Nat → Option D}
    (hsame : ∀ k, k ≠ blockno → pending k = pendingMap job state.current k)
    (hself : ∀ data, pending blockno = some data → data = (state.cache.buf b).content.data) :
    Coherent state.cache
      (Function.update state.disk blockno (state.cache.buf b).content.data) pending
      (Function.update (fun other => (ghosts other).dirty) who ((ghosts who).dirty.erase b)) where
  clean b' hvalid' hdev hnobody := by
    by_cases hb : b' = b
    · subst hb
      have hblockno : (state.cache.buf b').blockno = blockno := congrArg Prod.snd hkey
      rw [hblockno, Function.update_self]
      cases hpending : pending blockno with
      | none => rfl
      | some data => exact (hself data hpending).symm
    · have hne : (state.cache.buf b').blockno ≠ blockno := by
        rw [← show (state.cache.buf b).blockno = blockno from congrArg Prod.snd hkey]
        exact blockno_ne_of_ne h.sharing hb hdev (congrArg Prod.fst hkey)
      rw [hsame _ hne, Function.update_of_ne hne]
      refine h.coherent.clean b' hvalid' hdev fun other => ?_
      have hnot := hnobody other
      by_cases hother : other = who
      · subst hother
        rw [Function.update_self] at hnot
        exact fun hmem => hnot (Finset.mem_erase.mpr ⟨hb, hmem⟩)
      · rwa [Function.update_of_ne hother] at hnot
  cached k data hpending := by
    by_cases hk : k = blockno
    · subst hk
      exact ⟨b, hkey, hvalid⟩
    · rw [hsame k hk] at hpending
      exact h.coherent.cached k data hpending

end InvAt

namespace JobOk

variable {disk based : Nat → D} {log : Log} {current : List (Nat × D)} {job : Job D} {data : D}

theorem slot_lt (h : JobOk conf disk based log current job) {i : Nat} (hi : i < job.lh.length) :
    i + 1 < conf.size := by
  have hlength := h.wellFormed.length_lt (List.ne_nil_of_length_pos (Nat.zero_lt_of_lt hi))
  omega

theorem home_update {blockno home : Nat} (hlog : ¬conf.Home blockno) (hhome : conf.Home home) :
    Function.update disk blockno data home = disk home := by
  refine Function.update_of_ne ?_ ..
  rintro rfl
  exact hlog hhome

theorem log_update {blockno home : Nat} (hlog : ¬conf.Home blockno) (hhome : conf.Home home) :
    Function.update disk home data blockno = disk blockno := by
  refine Function.update_of_ne ?_ ..
  rintro rfl
  exact hlog hhome

theorem fillSlot (h : JobOk conf disk based log current job)
    (hbefore : job.onDisk = false ∧ job.recovering = false ∧ job.todo = job.lh)
    (hi : job.slots < job.lh.length) :
    JobOk conf (Function.update disk (conf.start + job.slots + 1) (job.group job.lh[job.slots]))
      based log current { job with slots := job.slots + 1 } := by
  have hnot := conf.not_home_slot (h.slot_lt hi)
  refine ⟨h.outstanding, h.committing, h.lh, h.wellFormed, h.todo, h.pinned, h.recovering,
    h.pending_pinned, h.pending_mem, fun i hlt hslots => ?_, ?_, fun k hhome hk => ?_,
    fun honDisk k hhome => ?_, fun honDisk => ?_, h.current⟩
  · by_cases heq : i = job.slots
    · subst heq
      exact Function.update_self ..
    · have hlt' : i < job.slots := by
        have hle : i < job.slots + 1 := hslots
        omega
      rw [Function.update_of_ne (by omega)]
      exact h.slot i hlt hlt'
  · rw [Function.update_of_ne (by omega)]
    exact h.header
  · rw [home_update hnot hhome]
    exact h.other k hhome hk
  · rw [home_update hnot hhome]
    exact h.before honDisk k hhome
  · rw [hbefore.1] at honDisk
    cases honDisk

theorem commit (h : JobOk conf disk based log current job)
    (hbefore : job.onDisk = false ∧ job.recovering = false ∧ job.todo = job.lh)
    (hslots : job.slots = job.lh.length) (hheader : conf.header.decode data = job.lh) :
    JobOk conf (Function.update disk conf.start data)
      (fun k => (pendingOf current k).getD (based k)) log [] { job with onDisk := true } := by
  have hnot := conf.not_home_start
  refine ⟨h.outstanding, h.committing, h.lh, h.wellFormed, h.todo, h.pinned, h.recovering,
    h.pending_pinned, h.pending_mem, fun i hlt hslots => ?_, ?_, fun k hhome hk => ?_,
    fun honDisk => (nomatch honDisk), fun _ => ⟨hslots, fun k hk => ⟨?_, fun htodo => ?_⟩⟩,
    fun k => ?_⟩
  · rw [Function.update_of_ne (by omega)]
    exact h.slot i hlt hslots
  · rw [Function.update_self]
    exact hheader
  · rw [home_update hnot hhome, h.current k, if_neg fun hin => hk hin.2]
    exact h.other k hhome hk
  · simp only [h.current k, hbefore, hk, and_self, if_true]
    rfl
  · exact absurd (hbefore.2.2 ▸ hk) htodo
  · simp [pendingOf]

theorem install (h : JobOk conf disk based log current job) (honDisk : job.onDisk = true)
    {blockno : Nat} {rest : List Nat} (htodo : job.todo = blockno :: rest) :
    JobOk conf (Function.update disk blockno (job.group blockno)) based log current
      { job with todo := rest } := by
  have hmem : blockno ∈ job.lh := h.todo.subset (by simp [htodo])
  have hhome := h.wellFormed.home blockno hmem
  have hsuffix : rest <:+ job.lh := by
    have htail : rest <:+ job.todo := by
      rw [htodo]
      exact List.suffix_cons blockno rest
    exact htail.trans h.todo
  have hpending : ∀ k ∈ ({ job with todo := rest } : Job D).pending, k ∈ job.pending := by
    intro k hk
    unfold Job.pending at hk ⊢
    dsimp only at hk
    split at hk
    · cases hk
    · next hnot =>
        rw [if_neg hnot, htodo]
        exact List.mem_cons_of_mem _ hk
  obtain ⟨hslots, hafter⟩ := h.after honDisk
  refine ⟨h.outstanding, h.committing, h.lh, h.wellFormed, hsuffix, h.pinned, h.recovering,
    fun k hk => h.pending_pinned k (hpending k hk), fun k hk => h.pending_mem k (hpending k hk),
    fun i hlt hi => ?_, ?_, fun k hk hnot => ?_, fun hfalse => ?_, fun _ => ⟨hslots, fun k hk =>
      ⟨(hafter k hk).1, fun hrest => ?_⟩⟩, fun k => ?_⟩
  · rw [log_update (conf.not_home_slot (h.slot_lt hlt)) hhome]
    exact h.slot i hlt hi
  · rw [log_update conf.not_home_start hhome]
    exact h.header
  · have hne : k ≠ blockno := by
      rintro rfl
      exact hnot hmem
    rw [Function.update_of_ne hne]
    exact h.other k hk hnot
  · exact absurd (honDisk.symm.trans hfalse) (by simp)
  · by_cases hkb : k = blockno
    · subst hkb
      exact Function.update_self ..
    · rw [Function.update_of_ne hkb]
      refine (hafter k hk).2 ?_
      rw [htodo]
      simp [hkb, show k ∉ rest from hrest]
  · rw [h.current k, if_neg (by simp [honDisk]), if_neg (by simp [honDisk])]

theorem clear (h : JobOk conf disk based log current job) (htodo : job.todo = [])
    (hheader : conf.header.decode data = []) :
    JobOk conf (Function.update disk conf.start data) based log current
      { job with onDisk := false } := by
  have hnot := conf.not_home_start
  refine ⟨h.outstanding, h.committing, h.lh, h.wellFormed, h.todo, h.pinned, h.recovering,
    h.pending_pinned, h.pending_mem, fun i hlt hslots => ?_, ?_, fun k hhome hk => ?_,
    fun _ k hhome => ?_, fun honDisk => (nomatch honDisk), fun k => ?_⟩
  · rw [Function.update_of_ne (by omega)]
    exact h.slot i hlt hslots
  · rw [Function.update_self]
    exact hheader
  · rw [home_update hnot hhome]
    exact h.other k hhome hk
  · rw [home_update hnot hhome]
    cases honDisk : job.onDisk with
    | false => exact h.before honDisk k hhome
    | true =>
        by_cases hk : k ∈ job.lh
        · obtain ⟨hbased, hdisk⟩ := (h.after honDisk).2 k hk
          rw [hbased, hdisk (by simp [htodo])]
        · exact h.other k hhome hk
  · -- with nothing to do left, the job is before the commit only if its header is empty
    have hempty : ∀ onDisk : Bool,
        ¬((onDisk = false ∧ job.recovering = false ∧ job.todo = job.lh) ∧ k ∈ job.lh) := by
      rintro onDisk ⟨⟨-, -, hsame⟩, hk⟩
      rw [← hsame, htodo] at hk
      cases hk
    rw [h.current k, if_neg (hempty _), if_neg (hempty _)]

end JobOk

namespace InvAt

variable {init : Nat → D} {job : Option (Job D)} {state : State n ι D} {ghosts : ι → Ghost n D}
  {who : ι} {b : Fin n}

theorem diskWrite (h : InvAt conf init job state ghosts) (hlocked : b ∈ (ghosts who).share.locked)
    (hvalid : ((ghosts who).share.content b).valid = true)
    (hdev : ((ghosts who).share.key b).1 = rootDev) {held next : Job D}
    (hheld : (ghosts who).job = some held)
    (hwrites : held.Writes conf ((ghosts who).share.key b).2 ((ghosts who).share.content b).data
      next) :
    InvAt conf init (some next)
      (state.writeBlock conf (state.cache.buf b).blockno (state.cache.buf b).content.data)
      (Function.update ghosts who { ghosts who with
        dirty := (ghosts who).dirty.erase b, job := some next }) := by
  obtain rfl := h.roles.held who held hheld
  have hlog : JobOk _ _ _ _ _ _ := h.log
  have hkey := h.sharing.key_of_locked hlocked
  have hcontent := h.sharing.content who b hlocked
  have hblockno : (state.cache.buf b).blockno = ((ghosts who).share.key b).2 :=
    congrArg Prod.snd hkey
  rw [← hblockno, ← hcontent] at hwrites
  rw [← hcontent] at hvalid
  have hkey' : (state.cache.buf b).key = (rootDev, (state.cache.buf b).blockno) := by
    rw [hkey, ← hdev, hblockno]
  have hsharing : ∀ dirty, (fun other => (Function.update ghosts who
      { ghosts who with dirty, job := some next } other).share) =
        fun other => (ghosts other).share := by
    intro dirty
    rw [map_update ghosts who _ Ghost.share]
    exact Function.update_eq_self who fun other => (ghosts other).share
  have hclean : Ghost.Clean { ghosts who with
      dirty := (ghosts who).dirty.erase b, job := some next } :=
    (Finset.erase_subset _ _).trans (h.clean who)
  -- the writes differ in what the job has pending and pinned, and in what they do to the histories
  have hstep : ∀ {state' : State n ι D}, state'.cache = state.cache → state'.log = state.log →
      state'.up = state.up → state'.disk = Function.update state.disk (state.cache.buf b).blockno
        (state.cache.buf b).content.data →
      next.recovering = held.recovering → next.pinned = held.pinned →
      (∀ k, k ≠ (state.cache.buf b).blockno → (k ∈ next.pending ↔ k ∈ held.pending)) →
      ((state.cache.buf b).blockno ∉ next.pending) → next.group = held.group →
      JobOk conf state'.disk (base init state'.committed) state.log state'.current next →
      InvAt conf init (some next) state' (Function.update ghosts who { ghosts who with
        dirty := (ghosts who).dirty.erase b, job := some next }) := by
    intro state' hcache hlogs hup hdisk hrecovering hpinned hpending hself hgroup hok
    refine ⟨?_, clean_update h.clean hclean, ?_, hlogs ▸ h.size, ?_, ?_, ?_⟩
    · rw [hsharing, hcache]
      have hlist : pinnedList (some next) state'.log = pinnedList (some held) state.log := hpinned
      rw [hlist]
      exact h.sharing
    · rw [hup]
      exact h.roles.advance hheld rfl rfl hrecovering
    · rw [map_update ghosts who _ Ghost.dirty, hcache, hdisk]
      refine h.coherent_diskWrite hlocked hkey' hvalid (fun k hk => ?_) fun data hdata => ?_
      · simp only [pendingMap, hpending k hk, hgroup]
      · simp [pendingMap, hself] at hdata
    · rw [hcache]
      have hlist : pinnedList (some next) state'.log = pinnedList (some held) state.log := hpinned
      rw [hlist]
      exact h.pinned
    · rw [hlogs]
      exact hok
  have hpendingHome : ∀ k ∈ held.pending, conf.Home k := fun k hk =>
    hlog.wellFormed.home k (hlog.pinned.subset (hlog.pending_pinned k hk))
  generalize hk : (state.cache.buf b).blockno = k at hwrites hstep
  generalize hd : (state.cache.buf b).content.data = data at hwrites hstep
  cases hwrites with
  | slot hbefore hi =>
      have hnot := conf.not_home_slot (hlog.slot_lt hi)
      have hplain : state.writeBlock conf (conf.start + held.slots + 1)
          (held.group held.lh[held.slots]) = { state with
            disk := Function.update state.disk (conf.start + held.slots + 1)
              (held.group held.lh[held.slots]) } := by
        rw [State.writeBlock, if_neg (by omega)]
      rw [hplain]
      exact hstep rfl rfl rfl rfl rfl rfl (fun _ _ => Iff.rfl) (fun hmem => hnot (hpendingHome _ hmem))
        rfl (hlog.fillSlot hbefore hi)
  | commit hbefore hslots hlh hheader =>
      have hcommit : state.writeBlock conf conf.start data = { state with
          disk := Function.update state.disk conf.start data
          current := []
          committed := state.committed ++ [state.current] } := by
        rw [State.writeBlock, if_pos ⟨rfl, by rw [hheader]; exact hlh⟩]
      rw [hcommit]
      refine hstep rfl rfl rfl rfl rfl rfl (fun _ _ => Iff.rfl)
        (fun hmem => conf.not_home_start (hpendingHome _ hmem)) rfl ?_
      have hbase : base init (state.committed ++ [state.current]) =
          fun k => (pendingOf state.current k).getD (base init state.committed k) :=
        funext fun k => base_append init state.committed state.current k
      dsimp only
      rw [hbase]
      exact hlog.commit hbefore hslots hheader
  | install honDisk htodo =>
      rename_i rest
      have hmem : k ∈ held.lh := hlog.todo.subset (by simp [htodo])
      have hhome := hlog.wellFormed.home k hmem
      have hfresh : k ∉ rest := by
        have hnodup : (k :: rest).Nodup := htodo ▸ hlog.wellFormed.nodup.sublist hlog.todo.sublist
        exact (List.nodup_cons.mp hnodup).1
      have hplain : state.writeBlock conf k (held.group k) =
          { state with disk := Function.update state.disk k (held.group k) } := by
        have hne : k ≠ conf.start := by
          rintro rfl
          exact conf.not_home_start hhome
        rw [State.writeBlock, if_neg fun hcommit => hne hcommit.1]
      rw [hplain]
      refine hstep rfl rfl rfl rfl rfl rfl (fun k' hk' => ?_) ?_ rfl (hlog.install honDisk htodo)
      · cases hrecovering : held.recovering with
        | true => simp [Job.pending, hrecovering]
        | false => simp [Job.pending, hrecovering, htodo, hk']
      · cases hrecovering : held.recovering with
        | true => simp [Job.pending]
        | false => simpa [Job.pending] using hfresh
  | clear htodo hheader =>
      have hplain : state.writeBlock conf conf.start data =
          { state with disk := Function.update state.disk conf.start data } := by
        rw [State.writeBlock, if_neg fun hcommit => hcommit.2 hheader]
      rw [hplain]
      exact hstep rfl rfl rfl rfl rfl rfl (fun _ _ => Iff.rfl)
        (fun hmem => conf.not_home_start (hpendingHome _ hmem)) rfl (hlog.clear htodo hheader)

theorem bunpin (h : InvAt conf init job state ghosts)
    (hkey : (state.cache.buf b).dev = rootDev) {held : Job D} {rest : List Nat}
    (hheld : (ghosts who).job = some held)
    (hpinned : held.pinned = (state.cache.buf b).blockno :: rest)
    (hpending : (state.cache.buf b).blockno ∉ held.pending) :
    InvAt conf init (some { held with pinned := rest })
      { state with cache := state.cache.bunpin b }
      (Function.update ghosts who { ghosts who with job := some { held with pinned := rest } }) := by
  obtain rfl := h.roles.held who held hheld
  have hlog : JobOk _ _ _ _ _ _ := h.log
  have hsuffix : rest <:+ held.pinned := by
    rw [hpinned]
    exact List.suffix_cons _ _
  have hnodup : (held.pinned).Nodup := hlog.wellFormed.nodup.sublist hlog.pinned.sublist
  obtain ⟨hone, hpins⟩ := pinsOf_bunpin h.sharing hkey hpinned hnodup
  refine ⟨?_, clean_update h.clean (h.clean who), h.roles.advance hheld rfl rfl rfl, h.size, ?_,
    fun k hk => ?_, ?_⟩
  · rw [map_update ghosts who _ Ghost.share,
      Function.update_eq_self who fun other => (ghosts other).share]
    have hsharing := h.sharing.bunpin (b := b) (by
      show 0 < pinsOf state.cache held.pinned b
      omega)
    have hlist : pinnedList (some { held with pinned := rest }) state.log = rest := rfl
    rw [hlist, hpins]
    exact hsharing
  · rw [map_update ghosts who _ Ghost.dirty,
      Function.update_eq_self who fun other => (ghosts other).dirty]
    exact h.coherent.same (Bcache.bunpin_same state.cache b)
  · obtain ⟨b', hb'⟩ := h.pinned k (hsuffix.subset hk)
    exact ⟨b', ((Bcache.bunpin_same state.cache b).key b').trans hb'⟩
  · refine ⟨hlog.outstanding, hlog.committing, hlog.lh, hlog.wellFormed, hlog.todo,
      hsuffix.trans hlog.pinned, fun hrecovering => ?_, fun k hk => ?_, hlog.pending_mem, hlog.slot,
      hlog.header, hlog.other, hlog.before, hlog.after, hlog.current⟩
    · have hnone := hlog.recovering hrecovering
      rw [hpinned] at hnone
      cases hnone
    · have hmem := hlog.pending_pinned k hk
      rw [hpinned] at hmem
      obtain rfl | hmem := List.mem_cons.mp hmem
      · exact absurd hk hpending
      · exact hmem

theorem logWrite (h : InvAt conf init job state ghosts) (hlocked : b ∈ (ghosts who).share.locked)
    (hvalid : (state.cache.buf b).content.valid = true)
    (hdev : (state.cache.buf b).dev = rootDev) (hhome : conf.Home (state.cache.buf b).blockno)
    {log : Log} {fresh : Bool}
    (hlogged : state.log.logWrite (state.cache.buf b).blockno = .ok (log, fresh)) :
    InvAt conf init job { state with
      cache := if fresh then state.cache.bpin b else state.cache
      log
      current := state.current ++ [((state.cache.buf b).blockno, (state.cache.buf b).content.data)] }
      (Function.update ghosts who { ghosts who with dirty := (ghosts who).dirty.erase b }) := by
  obtain ⟨hroom, hroom', hone, hresult⟩ := Log.logWrite_eq_ok_iff.mp hlogged
  cases job with
  | some held =>
      have hlog : JobOk _ _ _ _ _ _ := h.log
      have hnone := hlog.outstanding
      omega
  | none =>
  have hidle : IdleOk _ _ _ _ _ := h.log
  have hsize := h.size
  set blockno := (state.cache.buf b).blockno with hblockno
  have hkey : (state.cache.buf b).key = (rootDev, blockno) := by rw [Buf.key, hdev]
  -- the block is in the log afterwards, and whatever else was
  have hlh : ∀ k, k ∈ log.lh ↔ k ∈ state.log.lh ∨ k = blockno := by
    intro k
    obtain ⟨hmem, rfl, -⟩ | ⟨-, rfl, -⟩ := hresult
    · refine ⟨Or.inl, ?_⟩
      rintro (hk | rfl)
      · exact hk
      · exact hmem
    · simp
  have hsame : state.cache.Same (if fresh then state.cache.bpin b else state.cache) := by
    cases fresh with
    | false => exact ⟨fun _ => rfl, fun _ => rfl⟩
    | true => exact Bcache.bpin_same state.cache b
  have hshare : (fun other => (Function.update ghosts who { ghosts who with
      dirty := (ghosts who).dirty.erase b } other).share) = fun other => (ghosts other).share := by
    rw [map_update ghosts who _ Ghost.share]
    exact Function.update_eq_self who fun other => (ghosts other).share
  have hpendings : pendingMap none (state.current ++ [(blockno, (state.cache.buf b).content.data)]) =
      Function.update (pendingMap none state.current) blockno
        (some (state.cache.buf b).content.data) :=
    pendingOf_append state.current blockno _
  refine ⟨?_, clean_update h.clean ((Finset.erase_subset _ _).trans (h.clean who)),
    h.roles.update rfl rfl, ?_, ⟨fun b' hvalid' hdev' hnobody => ?_, fun k data hpending => ?_⟩,
    fun k hk => ?_, ?_⟩
  · rw [hshare]
    obtain ⟨hmem, rfl, rfl⟩ | ⟨hnot, rfl, rfl⟩ := hresult
    · exact h.sharing
    · show Sharing (state.cache.bpin b) _ (pinsOf (state.cache.bpin b) (state.log.lh ++ [blockno]))
      rw [pinsOf_bpin h.sharing hdev hnot]
      exact h.sharing.bpin
  · obtain ⟨-, rfl, -⟩ | ⟨-, rfl, -⟩ := hresult <;> exact hsize
  · have hdev'' : (state.cache.buf b').dev = rootDev := by
      rw [← hdev']
      exact (congrArg Prod.fst (hsame.key b')).symm
    have hblock : ((if fresh then state.cache.bpin b else state.cache).buf b').blockno =
        (state.cache.buf b').blockno := congrArg Prod.snd (hsame.key b')
    dsimp only at hvalid' ⊢
    rw [hsame.content b'] at hvalid' ⊢
    rw [hblock, hpendings]
    by_cases hb : b' = b
    · subst hb
      rw [← hblockno, Function.update_self]
      rfl
    · rw [Function.update_of_ne (blockno_ne_of_ne h.sharing hb hdev'' hdev)]
      refine h.coherent.clean b' hvalid' hdev'' fun other => ?_
      have hnot := hnobody other
      by_cases hother : other = who
      · subst hother
        rw [Function.update_self] at hnot
        exact fun hmem => hnot (Finset.mem_erase.mpr ⟨hb, hmem⟩)
      · rwa [Function.update_of_ne hother] at hnot
  · dsimp only at hpending
    rw [hpendings] at hpending
    by_cases hk : k = blockno
    · subst hk
      exact ⟨b, (hsame.key b).trans hkey, by rw [hsame.content b]; exact hvalid⟩
    · rw [Function.update_of_ne hk] at hpending
      obtain ⟨b', hkey', hvalid'⟩ := h.coherent.cached k data hpending
      exact ⟨b', (hsame.key b').trans hkey', by rw [hsame.content b']; exact hvalid'⟩
  · obtain hk | rfl := (hlh k).mp hk
    · obtain ⟨b', hb'⟩ := h.pinned k hk
      exact ⟨b', (hsame.key b').trans hb'⟩
    · exact ⟨b, (hsame.key b).trans hkey⟩
  · have hcommitting : log.committing = false := by
      obtain ⟨-, rfl, -⟩ | ⟨-, rfl, -⟩ := hresult <;> exact hidle.committing
    refine ⟨hcommitting, ?_, fun k => ?_, hidle.header, hidle.home⟩
    · obtain ⟨-, rfl, -⟩ | ⟨hnot, rfl, -⟩ := hresult
      · exact hidle.wellFormed
      · refine ⟨?_, ?_, fun _ => ?_, fun k hk => ?_⟩
        · rw [List.nodup_append]
          refine ⟨hidle.wellFormed.nodup, List.nodup_singleton _, fun x hx y hy => ?_⟩
          obtain rfl := List.mem_singleton.mp hy
          rintro rfl
          exact hnot hx
        · simp only [List.length_append, List.length_singleton]
          omega
        · simp only [List.length_append, List.length_singleton]
          omega
        · obtain hk | rfl := (hlh k).mp hk
          · exact hidle.wellFormed.home k hk
          · exact hhome
    · rw [hlh, pendingOf_append]
      by_cases hk : k = blockno
      · subst hk
        simp
      · rw [Function.update_of_ne hk, ← hidle.logged]
        simp [hk]

theorem logStep (h : InvAt conf init job state ghosts) {next : Option (Job D)} {log : Log}
    {up : Bool} {ghost : Ghost n D} (hshare : ghost.share = (ghosts who).share)
    (hdirty : ghost.dirty = (ghosts who).dirty)
    (hroles : Roles next up (Function.update ghosts who ghost))
    (hsize : log.size = state.log.size)
    (hpending : ∀ k, pendingMap next state.current k = pendingMap job state.current k)
    (hpinned : pinnedList next log = pinnedList job state.log)
    (hlog : LogOk conf state.disk (base init state.committed) log state.current next) :
    InvAt conf init next { state with log, up } (Function.update ghosts who ghost) := by
  refine ⟨?_, clean_update h.clean ?_, hroles, hsize.trans h.size, ?_, ?_, hlog⟩
  · rw [map_update ghosts who _ Ghost.share, hshare, hpinned,
      Function.update_eq_self who fun other => (ghosts other).share]
    exact h.sharing
  · unfold Ghost.Clean
    rw [hshare, hdirty]
    exact h.clean who
  · rw [map_update ghosts who _ Ghost.dirty, hdirty,
      Function.update_eq_self who fun other => (ghosts other).dirty, funext hpending]
    exact h.coherent
  · rw [hpinned]
    exact h.pinned

theorem idle_of_booted (h : InvAt conf init job state ghosts)
    (hbooted : (ghosts who).booted = true) (hcommitting : state.log.committing = false) :
    job = none := by
  cases job with
  | none => rfl
  | some held =>
      have hlog : JobOk _ _ _ _ _ _ := h.log
      have hrecovering : held.recovering = true := by
        have hflag := hlog.committing
        rw [hcommitting] at hflag
        simpa using hflag.symm
      have hdown := h.roles.recovering held rfl hrecovering
      rw [h.roles.booted who hbooted] at hdown
      cases hdown

theorem beginOp (h : InvAt conf init job state ghosts) (hbooted : (ghosts who).booted = true)
    {log : Log} (hbegin : state.log.beginOp = some log) :
    InvAt conf init job { state with log } (Function.update ghosts who (ghosts who)) := by
  obtain ⟨hcommitting, -, rfl⟩ := Log.beginOp_eq_some_iff.mp hbegin
  obtain rfl := h.idle_of_booted hbooted hcommitting
  have hidle : IdleOk _ _ _ _ _ := h.log
  exact h.logStep rfl rfl (h.roles.update rfl rfl) rfl (fun _ => rfl) rfl
    ⟨hcommitting, hidle.wellFormed, hidle.logged, hidle.header, hidle.home⟩

theorem endOp_commit (h : InvAt conf init none state ghosts) :
    ∃ group, Job.WellFormed conf state.log.lh ∧
      InvAt conf init (some (Job.committing state.log.lh group))
        { state with log := { state.log with outstanding := 0, committing := true } }
        (Function.update ghosts who { ghosts who with
          job := some (Job.committing state.log.lh group) }) := by
  have hidle : IdleOk _ _ _ _ _ := h.log
  have hcurrent : ∀ k, pendingOf state.current k = if k ∈ state.log.lh then
      some ((pendingOf state.current k).getD (state.disk k)) else none := by
    intro k
    by_cases hk : k ∈ state.log.lh
    · obtain ⟨data, hdata⟩ := Option.isSome_iff_exists.mp ((hidle.logged k).mp hk)
      simp [hk, hdata]
    · have hnone : pendingOf state.current k = none := by
        cases hpending : pendingOf state.current k with
        | none => rfl
        | some data => exact absurd ((hidle.logged k).mpr (by simp [hpending])) hk
      simp [hk, hnone]
  refine ⟨fun k => (pendingOf state.current k).getD (state.disk k), hidle.wellFormed,
    h.logStep rfl rfl ?_ rfl (fun k => ?_) rfl ?_⟩
  · exact h.roles.take rfl rfl rfl
  · exact (hcurrent k).symm
  · refine ⟨rfl, rfl, rfl, hidle.wellFormed, List.suffix_refl _, List.suffix_refl _,
      fun hrecovering => (nomatch hrecovering), fun _ hk => hk, fun _ hk => hk,
      fun i hi hslots => absurd hslots (Nat.not_lt_zero i), hidle.header, fun k hhome _ =>
      hidle.home k hhome, fun _ => hidle.home, fun honDisk => (nomatch honDisk), fun k => ?_⟩
    simpa [Job.committing] using hcurrent k

theorem finish (h : InvAt conf init job state ghosts) {held : Job D}
    (hheld : (ghosts who).job = some held) (honDisk : held.onDisk = false) (htodo : held.todo = [])
    (hpinned : held.pinned = []) (hmem : held.mem = []) {log : Log} {up : Bool}
    (hlh : log.lh = state.log.lh) (hcommitting : log.committing = false)
    (hsize : log.size = state.log.size) {ghost : Ghost n D}
    (hshare : ghost.share = (ghosts who).share) (hdirty : ghost.dirty = (ghosts who).dirty)
    (hjob : ghost.job = none) (hup : state.up = true → up = true)
    (hbooted : ghost.booted = true → up = true) :
    InvAt conf init none { state with log, up } (Function.update ghosts who ghost) := by
  obtain rfl := h.roles.held who held hheld
  have hlog : JobOk _ _ _ _ _ _ := h.log
  have hnil : log.lh = [] := hlh.trans (hlog.lh.trans hmem)
  have hcurrent : ∀ k, pendingOf state.current k = none := by
    intro k
    rw [hlog.current k]
    refine if_neg ?_
    rintro ⟨⟨-, -, hsame⟩, hk⟩
    rw [← hsame, htodo] at hk
    cases hk
  refine h.logStep hshare hdirty (h.roles.finish hheld hjob hup hbooted) hsize (fun k => ?_) ?_ ?_
  · simp only [pendingMap, hcurrent k]
    simp [Job.pending, htodo]
  · simp only [pinnedList, hnil, hpinned]
  · refine ⟨hcommitting, ?_, fun k => ?_, ?_, hlog.before honDisk⟩
    · rw [hnil]
      exact ⟨List.nodup_nil, Nat.zero_le _, fun hne => absurd rfl hne, fun k hk => by cases hk⟩
    · simp [hnil, hcurrent k]
    · simpa [honDisk] using hlog.header

theorem setLh (h : InvAt conf init job state ghosts) {held : Job D} {lh : List Nat}
    (hheld : (ghosts who).job = some held)
    (hlh : held.recovering = true ∧ lh = held.lh ∨ lh = [] ∧ held.todo = [] ∧ held.pinned = []) :
    InvAt conf init (some { held with mem := lh }) { state with log := { state.log with lh } }
      (Function.update ghosts who { ghosts who with job := some { held with mem := lh } }) := by
  obtain rfl := h.roles.held who held hheld
  have hlog : JobOk _ _ _ _ _ _ := h.log
  have hpending : ∀ k, k ∉ held.pending := by
    intro k hk
    obtain ⟨hrecovering, -⟩ | ⟨-, htodo, -⟩ := hlh
    · simp [Job.pending, hrecovering] at hk
    · simp [Job.pending, htodo] at hk
  refine h.logStep rfl rfl (h.roles.advance hheld rfl rfl rfl) rfl (fun _ => rfl) rfl
    ⟨hlog.outstanding, hlog.committing, rfl, hlog.wellFormed, hlog.todo, hlog.pinned,
      hlog.recovering, hlog.pending_pinned, fun k hk => absurd hk (hpending k), hlog.slot,
      hlog.header, hlog.other, hlog.before, hlog.after, hlog.current⟩

theorem forked (h : InvAt conf init job state ghosts) (hup : state.up = true) :
    InvAt conf init job state (Function.update ghosts who { ghosts who with booted := true }) :=
  h.logStep rfl rfl (h.roles.boot rfl hup) rfl (fun _ => rfl) rfl h.log

end InvAt

theorem handler_sound (init : Nat → D) :
    Threads.HandlerSound (handler conf : Handler (sections n D) (State n ι D) ι)
      (rule conf : Rule (sections n D) (Ghost n D)) (Inv conf init) fun _ _ _ => True := by
  rintro who state ghosts op choice response state' Q ⟨job, h⟩ - hrule hstep
  have hsame : InvAt conf init job state (Function.update ghosts who (ghosts who)) := by
    rwa [Function.update_eq_self]
  cases op with
  | bget dev blockno =>
      obtain ⟨⟨b, cache⟩, hbget, hresult⟩ := Option.map_eq_some_iff.mp hstep
      cases hresult
      exact ⟨_, hrule b, job, h.bget hbget⟩
  | acquiresleep b =>
      obtain ⟨cache, hacquire, hresult⟩ := Option.map_eq_some_iff.mp hstep
      cases hresult
      have howner := Bcache.owner_of_acquiresleep hacquire
      have hnew : b ∉ (ghosts who).share.locked := by
        intro hmem
        rw [← h.sharing.owner, howner] at hmem
        cases hmem
      refine ⟨_, hrule.2 (state.cache.buf b).content hnew
        fun hvalid => h.knows_of_acquire howner hrule.1 hvalid, job,
        h.shareStep (h.sharing.acquiresleep hrule.1 hacquire)
          ((h.clean who).trans (Finset.subset_insert _ _)) (Bcache.acquiresleep_same hacquire)⟩
  | holdingsleep b =>
      cases hstep
      have howner := (h.sharing.owner who b).mpr hrule.1
      have hholding : state.cache.holdingsleep who b = true := by
        simp [Bcache.holdingsleep, howner]
      exact ⟨_, hholding ▸ hrule.2, job, hsame⟩
  | releasesleep b =>
      cases hstep
      refine ⟨_, hrule.2.2, job, h.shareStep (h.sharing.releasesleep hrule.1) (fun b' hb' => ?_)
        (Bcache.releasesleep_same state.cache b)⟩
      refine Finset.mem_erase.mpr ⟨?_, h.clean who hb'⟩
      rintro rfl
      exact hrule.2.1 hb'
  | unuse b =>
      cases hstep
      exact ⟨_, hrule.2, job, h.shareStep (h.sharing.brelse hrule.1) (h.clean who)
        (Bcache.brelse_same state.cache b)⟩
  | key b =>
      cases hstep
      exact ⟨_, h.sharing.key_of_locked hrule.1 ▸ hrule.2, job, hsame⟩
  | content b =>
      cases hstep
      exact ⟨_, h.sharing.content who b hrule.1 ▸ hrule.2, job, hsame⟩
  | setData b data =>
      cases hstep
      exact ⟨_, hrule.2, job, h.setData hrule.1 data⟩
  | diskRead b =>
      cases hstep
      exact ⟨_, hrule.2.2 _ (h.knows_of_diskRead hrule.1 hrule.2.1), job,
        h.diskRead hrule.1 hrule.2.1⟩
  | diskWrite b =>
      cases hstep
      obtain ⟨hlocked, hvalid, hdev, held, next, hheld, hwrites, hnext⟩ := hrule
      exact ⟨_, hnext, _, h.diskWrite hlocked hvalid hdev hheld hwrites⟩
  | bunpin b =>
      cases hstep
      obtain ⟨hlocked, hdev, held, rest, hheld, hpinned, hpending, hnext⟩ := hrule
      have hkey := h.sharing.key_of_locked hlocked
      rw [← hkey] at hdev hpinned hpending
      exact ⟨_, hnext, _, h.bunpin hdev hheld hpinned hpending⟩
  | beginOp =>
      obtain ⟨log, hbegin, hresult⟩ := Option.map_eq_some_iff.mp hstep
      cases hresult
      exact ⟨_, hrule.2, job, h.beginOp hrule.1 hbegin⟩
  | logWrite b =>
      obtain ⟨hlocked, hvalid, hdev, hhome, hnext⟩ := hrule
      have hkey := h.sharing.key_of_locked hlocked
      rw [← hkey] at hdev hhome
      rw [← h.sharing.content who b hlocked] at hvalid
      simp only [handler] at hstep
      split at hstep
      · cases hstep
      · next hlogged =>
          cases hstep
          exact ⟨_, hnext, job, h.logWrite hlocked hvalid hdev hhome hlogged⟩
  | endOp =>
      obtain ⟨hjob, hbooted, hnot, hcommit⟩ := hrule
      simp only [handler] at hstep
      split at hstep
      · cases hstep
      · next hend =>
          cases hstep
          obtain ⟨hcommitting, hresult⟩ := Log.endOp_eq_ok_iff.mp hend
          obtain rfl := h.idle_of_booted hbooted hcommitting
          obtain ⟨-, rfl, rfl⟩ | ⟨-, rfl, rfl⟩ := hresult
          · obtain ⟨group, hwf, hinv⟩ := h.endOp_commit
            exact ⟨_, hcommit _ group hwf, _, hinv⟩
          · have hidle : IdleOk _ _ _ _ _ := h.log
            refine ⟨_, hnot, none, h.logStep rfl rfl (h.roles.update rfl rfl) rfl (fun _ => rfl) rfl
              ⟨hcommitting, hidle.wellFormed, hidle.logged, hidle.header, hidle.home⟩⟩
  | finishCommit =>
      cases hstep
      obtain ⟨held, hheld, -, honDisk, htodo, hpinned, hmem, hnext⟩ := hrule
      have hinv : InvAt conf init none { state with log := state.log.finishCommit }
          (Function.update ghosts who { ghosts who with job := none }) := by
        refine h.finish hheld honDisk htodo hpinned hmem ?_ ?_ ?_ rfl rfl rfl id
          fun hbooted => h.roles.booted who hbooted
        all_goals rfl
      exact ⟨_, hnext, none, hinv⟩
  | syncTarget =>
      cases hstep
      exact ⟨_, hrule.2 _, job, hsame⟩
  | syncWait target =>
      simp only [handler] at hstep
      split at hstep
      · cases hstep
      · cases hstep
        exact ⟨_, hrule, job, hsame⟩
  | lh =>
      cases hstep
      refine ⟨_, hrule _ fun held hheld => ?_, job, hsame⟩
      obtain rfl := h.roles.held who held hheld
      have hlog : JobOk _ _ _ _ _ _ := h.log
      exact hlog.lh
  | setLh lh =>
      cases hstep
      obtain ⟨held, hheld, hlh, hnext⟩ := hrule
      exact ⟨_, hnext, _, h.setLh hheld hlh⟩
  | copyin src len =>
      cases hstep
      exact ⟨_, hrule _, job, hsame⟩
  | copyout dst bytes =>
      cases hstep
      exact ⟨_, hrule _, job, hsame.remap⟩
  | up =>
      cases hstep
      obtain ⟨held, hheld, hrecovering, honDisk, htodo, hmem, hnext⟩ := hrule
      obtain rfl := h.roles.held who held hheld
      have hlog : JobOk _ _ _ _ _ _ := h.log
      have hcommitting : state.log.committing = false := by
        rw [hlog.committing, hrecovering]
        rfl
      exact ⟨_, hnext, none, h.finish hheld honDisk htodo (hlog.recovering hrecovering) hmem rfl
        hcommitting rfl rfl rfl rfl (fun _ => rfl) fun _ => rfl⟩
  | forked =>
      simp only [handler] at hstep
      split at hstep
      · next hup =>
          cases hstep
          exact ⟨_, hrule, job, h.forked hup⟩
      · cases hstep
  | panic message => cases hstep

end Xv6.Kernel
