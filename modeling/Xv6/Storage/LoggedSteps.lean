import Xv6.Storage.LoggedSpecs
import Xv6.Storage.Crash

/-!
# Every section keeps the cache showing the disk or the log

The invariant of the second reading. A valid buffer that nobody is changing holds what is on the
disk, unless the log has its block and has not installed it yet.
-/

set_option linter.unusedSectionVars false

namespace Xv6.Kernel

variable {n : Nat} {ι D : Type} [DecidableEq ι] [Fintype ι] {conf : Config D}

def unsaved (job : Option (Job D)) (log : Log) : List Nat :=
  match job with
  | none => log.lh
  | some job => job.pending

def LooseLog (log : Log) : Option (Job D) → Prop
  | none => log.committing = false
  | some job => log.outstanding = 0 ∧ log.committing = !job.recovering ∧ log.lh = job.mem ∧
      (∀ blockno ∈ job.pending, blockno ∈ job.mem) ∧ (job.recovering = true → job.pinned = [])

structure LooseAt (job : Option (Job D)) (state : State n ι D) (ghosts : ι → Ghost n D) : Prop where
  sharing : Sharing state.cache (fun who => (ghosts who).share)
    (pinsOf state.cache (pinnedList job state.log))
  clean : ∀ who, (ghosts who).Clean
  roles : Roles job state.up ghosts
  dev : ∀ b, (state.cache.buf b).content.valid = true → (state.cache.buf b).dev = rootDev
  shown : ∀ b, (state.cache.buf b).content.valid = true → (∀ who, b ∉ (ghosts who).dirty) →
    (state.cache.buf b).blockno ∉ unsaved job state.log →
      (state.cache.buf b).content.data = state.disk (state.cache.buf b).blockno
  pinned : ∀ blockno ∈ pinnedList job state.log, ∃ b, (state.cache.buf b).key = (rootDev, blockno)
  nodup : (pinnedList job state.log).Nodup
  log : LooseLog state.log job

def Loose (state : State n ι D) (ghosts : ι → Ghost n D) : Prop := ∃ job, LooseAt job state ghosts

/-- Every cached modification is logged: a valid buffer whose sleep-lock is free holds what is on the
disk, unless its block is in the log. -/
def Shown (state : State n ι D) : Prop :=
  ∀ b, (state.cache.buf b).owner = none → (state.cache.buf b).content.valid = true →
    (state.cache.buf b).blockno ∉ state.log.lh →
      (state.cache.buf b).content.data = state.disk (state.cache.buf b).blockno

theorem Loose.shown {state : State n ι D} {ghosts : ι → Ghost n D} (h : Loose state ghosts) :
    Shown state := by
  obtain ⟨job, h⟩ := h
  intro b hfree hvalid hlh
  refine h.shown b hvalid (fun who hmem => ?_) fun hunsaved => hlh ?_
  · have howner := (h.sharing.owner who b).mpr (h.clean who hmem)
    rw [hfree] at howner
    cases howner
  · cases job with
    | none => exact hunsaved
    | some job =>
        have hlog : LooseLog state.log (some job) := h.log
        rw [hlog.2.2.1]
        exact hlog.2.2.2.1 _ hunsaved

namespace LooseAt

variable {job : Option (Job D)} {state : State n ι D} {ghosts : ι → Ghost n D} {who : ι} {b : Fin n}

theorem remap (h : LooseAt job state ghosts) {user : ι → Nat → Option (Nat → UInt8)} :
    LooseAt job { state with user } ghosts :=
  ⟨h.sharing, h.clean, h.roles, h.dev, h.shown, h.pinned, h.nodup, h.log⟩

theorem not_dirty_of_update {dirty : Finset (Fin n)} {ghost : Ghost n D} {b' : Fin n}
    (hnobody : ∀ other, b' ∉ (Function.update ghosts who ghost other).dirty)
    (hdirty : ghost.dirty = dirty) (hsub : b' ∈ (ghosts who).dirty → b' ∈ dirty) (other : ι) :
    b' ∉ (ghosts other).dirty := by
  have hnot := hnobody other
  by_cases hother : other = who
  · subst hother
    rw [Function.update_self, hdirty] at hnot
    exact fun hmem => hnot (hsub hmem)
  · rwa [Function.update_of_ne hother] at hnot

theorem shareStep (h : LooseAt job state ghosts) {cache : Bcache n ι (Content D)}
    {share : Share n (Content D)}
    (hsharing : Sharing cache (Function.update (fun other => (ghosts other).share) who share)
      (pinsOf cache (pinnedList job state.log)))
    (hclean : (ghosts who).dirty ⊆ share.locked)
    (hsame : ∀ b, (cache.buf b).content.valid = true →
      (cache.buf b).key = (state.cache.buf b).key ∧
        (cache.buf b).content = (state.cache.buf b).content)
    (hpinned : ∀ blockno ∈ pinnedList job state.log, ∃ b,
      (cache.buf b).key = (rootDev, blockno)) :
    LooseAt job { state with cache } (Function.update ghosts who { ghosts who with share }) where
  sharing := by
    rw [map_update ghosts who _ Ghost.share]
    exact hsharing
  clean := clean_update h.clean hclean
  roles := h.roles.update rfl rfl
  dev b hvalid := by
    obtain ⟨hkey, hcontent⟩ := hsame b hvalid
    have hdev : (cache.buf b).dev = (state.cache.buf b).dev := congrArg Prod.fst hkey
    exact hdev.trans (h.dev b (hcontent ▸ hvalid))
  shown b hvalid hnobody hsaved := by
    obtain ⟨hkey, hcontent⟩ := hsame b hvalid
    have hblockno : (cache.buf b).blockno = (state.cache.buf b).blockno := congrArg Prod.snd hkey
    dsimp only at hsaved ⊢
    rw [hcontent, hblockno]
    exact h.shown b (hcontent ▸ hvalid) (not_dirty_of_update hnobody rfl id) (hblockno ▸ hsaved)
  pinned := hpinned
  nodup := h.nodup
  log := h.log

theorem countStep (h : LooseAt job state ghosts) {cache : Bcache n ι (Content D)}
    {share : Share n (Content D)}
    (hsharing : Sharing cache (Function.update (fun other => (ghosts other).share) who share)
      (pinsOf state.cache (pinnedList job state.log)))
    (hclean : (ghosts who).dirty ⊆ share.locked) (hsame : state.cache.Same cache) :
    LooseAt job { state with cache } (Function.update ghosts who { ghosts who with share }) := by
  refine h.shareStep ?_ hclean (fun b _ => ⟨hsame.key b, hsame.content b⟩) fun blockno hmem => ?_
  · rw [pinsOf_congr _ hsame.key]
    exact hsharing
  · obtain ⟨b, hb⟩ := h.pinned blockno hmem
    exact ⟨b, (hsame.key b).trans hb⟩

theorem bget (h : LooseAt job state ghosts) {cache : Bcache n ι (Content D)}
    {dev blockno : Nat} (hbget : state.cache.bget (fun content => { content with valid := false })
      dev blockno = some (b, cache)) :
    LooseAt job { state with cache } (Function.update ghosts who { ghosts who with
      share := (ghosts who).share.get b (dev, blockno) }) := by
  have hsharing : Sharing cache (Function.update (fun other => (ghosts other).share) who
      ((ghosts who).share.get b (dev, blockno))) _ := h.sharing.bget hbget
  obtain ⟨-, rfl⟩ | ⟨hcached, hunused, rfl⟩ := Bcache.bget_cases hbget
  · exact h.countStep hsharing (h.clean who) (Bcache.setBuf_same rfl rfl)
  · have hpins := pinsOf_recycle h.sharing h.pinned hcached hunused
      { (state.cache.buf b).content with valid := false } 1
    refine h.shareStep (hpins ▸ hsharing) (h.clean who) (fun b' hvalid => ?_) fun k hmem => ?_
    · by_cases hb : b' = b
      · subst hb
        simp at hvalid
      · simp [hb]
    · obtain ⟨b', hkey⟩ := h.pinned k hmem
      have hb : b' ≠ b := by
        rintro rfl
        exact key_ne_of_unused h.sharing hunused hmem hkey
      exact ⟨b', by simpa [hb] using hkey⟩

theorem store (h : LooseAt job state ghosts) (hlocked : b ∈ (ghosts who).share.locked)
    (content : Content D) {dirty : Finset (Fin n)}
    (hdev : content.valid = true → (state.cache.buf b).dev = rootDev)
    (hclean : dirty ⊆ (ghosts who).share.locked)
    (hsub : ∀ b' ∈ (ghosts who).dirty, b' ≠ b → b' ∈ dirty)
    (hself : b ∈ dirty ∨ content.data = state.disk (state.cache.buf b).blockno) :
    LooseAt job { state with
      cache := state.cache.setBuf b { state.cache.buf b with content } }
      (Function.update ghosts who { ghosts who with
        share := (ghosts who).share.store b content, dirty }) where
  sharing := by
    rw [map_update ghosts who _ Ghost.share, pinsOf_congr _ fun b' => InvAt.setBuf_key _ b b' _]
    exact h.sharing.store hlocked _
  clean := clean_update h.clean hclean
  roles := h.roles.update rfl rfl
  dev b' hvalid := by
    by_cases hb : b' = b
    · subst hb
      simp only [Bcache.setBuf_buf_self] at hvalid ⊢
      exact hdev hvalid
    · simp only [Bcache.setBuf_buf_of_ne _ _ hb] at hvalid ⊢
      exact h.dev b' hvalid
  shown b' hvalid hnobody hsaved := by
    by_cases hb : b' = b
    · subst hb
      have hnot := hnobody who
      rw [Function.update_self] at hnot
      simp only [Bcache.setBuf_buf_self]
      exact hself.resolve_left hnot
    · simp only [Bcache.setBuf_buf_of_ne _ _ hb] at hvalid hsaved ⊢
      exact h.shown b' hvalid (not_dirty_of_update hnobody rfl fun hmem => hsub b' hmem hb) hsaved
  pinned k hmem := by
    obtain ⟨b', hkey⟩ := h.pinned k hmem
    exact ⟨b', (InvAt.setBuf_key _ b b' _).trans hkey⟩
  nodup := h.nodup
  log := h.log

theorem logStep (h : LooseAt job state ghosts) {next : Option (Job D)} {log : Log} {up : Bool}
    {ghost : Ghost n D} (hshare : ghost.share = (ghosts who).share)
    (hdirty : ghost.dirty = (ghosts who).dirty)
    (hroles : Roles next up (Function.update ghosts who ghost))
    (hunsaved : ∀ k, k ∈ unsaved job state.log → k ∈ unsaved next log)
    (hpinned : pinnedList next log = pinnedList job state.log) (hlog : LooseLog log next) :
    LooseAt next { state with log, up } (Function.update ghosts who ghost) where
  sharing := by
    rw [map_update ghosts who _ Ghost.share, hshare, hpinned,
      Function.update_eq_self who fun other => (ghosts other).share]
    exact h.sharing
  clean := clean_update h.clean (by
    unfold Ghost.Clean
    rw [hshare, hdirty]
    exact h.clean who)
  roles := hroles
  dev := h.dev
  shown b hvalid hnobody hsaved :=
    h.shown b hvalid (not_dirty_of_update hnobody hdirty id) fun hmem => hsaved (hunsaved _ hmem)
  pinned := by
    rw [hpinned]
    exact h.pinned
  nodup := by
    rw [hpinned]
    exact h.nodup
  log := hlog

theorem diskWrite (h : LooseAt job state ghosts) (conf : Config D) (hlocked : b ∈ (ghosts who).share.locked)
    (hdev : ((ghosts who).share.key b).1 = rootDev) :
    ∃ next, LooseAt next
      (state.writeBlock conf (state.cache.buf b).blockno (state.cache.buf b).content.data)
      (Function.update ghosts who { ghosts who with
        dirty := (ghosts who).dirty.erase b
        job := (ghosts who).job.map fun job => job.wrote ((ghosts who).share.key b).2 }) := by
  have hkey := h.sharing.key_of_locked hlocked
  have hblockno : (state.cache.buf b).blockno = ((ghosts who).share.key b).2 :=
    congrArg Prod.snd hkey
  have hdev' : (state.cache.buf b).dev = rootDev := (congrArg Prod.fst hkey).trans hdev
  rw [← hblockno]
  -- the histories aside, only the disk changes
  obtain ⟨current, committed, hwrite⟩ : ∃ current committed,
      state.writeBlock conf (state.cache.buf b).blockno (state.cache.buf b).content.data =
        { state with
          disk := Function.update state.disk (state.cache.buf b).blockno
            (state.cache.buf b).content.data
          current, committed } := by
    unfold State.writeBlock
    split
    · exact ⟨_, _, rfl⟩
    · exact ⟨_, _, rfl⟩
  rw [hwrite]
  have hstep : ∀ {next : Option (Job D)} {held : Option (Job D)},
      Roles next state.up (Function.update ghosts who { ghosts who with
        dirty := (ghosts who).dirty.erase b, job := held }) →
      (∀ k ∈ unsaved job state.log, k ≠ (state.cache.buf b).blockno → k ∈ unsaved next state.log) →
      pinnedList next state.log = pinnedList job state.log → LooseLog state.log next →
      LooseAt next { state with
        disk := Function.update state.disk (state.cache.buf b).blockno
          (state.cache.buf b).content.data
        current, committed }
        (Function.update ghosts who { ghosts who with
          dirty := (ghosts who).dirty.erase b, job := held }) := by
    intro next held hroles hunsaved hpinned hlog
    refine ⟨?_, clean_update h.clean ((Finset.erase_subset _ _).trans (h.clean who)), hroles, h.dev,
      fun b' hvalid hnobody hsaved => ?_, hpinned ▸ h.pinned, hpinned ▸ h.nodup, hlog⟩
    · rw [map_update ghosts who _ Ghost.share, hpinned,
        Function.update_eq_self who fun other => (ghosts other).share]
      exact h.sharing
    · by_cases hb : b' = b
      · subst hb
        exact (Function.update_self (state.cache.buf b').blockno _ state.disk).symm
      · have hne := blockno_ne_of_ne h.sharing hb (h.dev b' hvalid) hdev'
        dsimp only
        rw [Function.update_of_ne hne]
        refine h.shown b' hvalid (not_dirty_of_update hnobody rfl fun hmem =>
          Finset.mem_erase.mpr ⟨hb, hmem⟩) fun hmem => hsaved (hunsaved _ hmem hne)
  cases hheld : (ghosts who).job with
  | none =>
      exact ⟨job, hstep (h.roles.update hheld.symm rfl) (fun _ hk _ => hk) rfl h.log⟩
  | some held =>
      obtain rfl := h.roles.held who held hheld
      obtain ⟨houtstanding, hcommitting, hlh, hpending, hrecovering⟩ := h.log
      refine ⟨some (held.wrote (state.cache.buf b).blockno),
        hstep (h.roles.advance hheld rfl rfl rfl)
          (fun k hk hne => Job.mem_pending_wrote.mpr ⟨hk, hne⟩) rfl
          ⟨houtstanding, hcommitting, hlh, fun k hk => hpending k (Job.mem_pending_wrote.mp hk).1,
            hrecovering⟩⟩

theorem bunpin (h : LooseAt job state ghosts) (hdev : (state.cache.buf b).dev = rootDev)
    {held : Job D} {rest : List Nat} (hheld : (ghosts who).job = some held)
    (hpinned : held.pinned = (state.cache.buf b).blockno :: rest) :
    LooseAt (some { held with pinned := rest }) { state with cache := state.cache.bunpin b }
      (Function.update ghosts who { ghosts who with job := some { held with pinned := rest } }) := by
  obtain rfl := h.roles.held who held hheld
  obtain ⟨houtstanding, hcommitting, hlh, hpending, hrecovering⟩ := h.log
  obtain ⟨hone, hpins⟩ := pinsOf_bunpin h.sharing hdev hpinned h.nodup
  have hsame := Bcache.bunpin_same state.cache b
  have hdevs : ∀ b', ((state.cache.bunpin b).buf b').dev = (state.cache.buf b').dev :=
    fun b' => congrArg Prod.fst (hsame.key b')
  have hblocks : ∀ b', ((state.cache.bunpin b).buf b').blockno = (state.cache.buf b').blockno :=
    fun b' => congrArg Prod.snd (hsame.key b')
  refine ⟨?_, clean_update h.clean (h.clean who), h.roles.advance hheld rfl rfl rfl,
    fun b' hvalid => ?_, fun b' hvalid hnobody hsaved => ?_, fun k hk => ?_, ?_,
    houtstanding, hcommitting, hlh, hpending, fun hrec => ?_⟩
  · rw [map_update ghosts who _ Ghost.share,
      Function.update_eq_self who fun other => (ghosts other).share]
    have hsharing := h.sharing.bunpin (b := b) (by
      show 0 < pinsOf state.cache held.pinned b
      omega)
    have hlist : pinnedList (some { held with pinned := rest }) state.log = rest := rfl
    rw [hlist, hpins]
    exact hsharing
  · rw [hdevs]
    exact h.dev b' (hsame.content b' ▸ hvalid)
  · dsimp only at hsaved ⊢
    rw [hsame.content b', hblocks]
    exact h.shown b' (hsame.content b' ▸ hvalid) (not_dirty_of_update hnobody rfl id)
      (hblocks b' ▸ hsaved)
  · obtain ⟨b', hb'⟩ := h.pinned k (show k ∈ held.pinned by
      rw [hpinned]
      exact List.mem_cons_of_mem _ hk)
    exact ⟨b', (hsame.key b').trans hb'⟩
  · have hnodup : held.pinned.Nodup := h.nodup
    rw [hpinned] at hnodup
    exact (List.nodup_cons.mp hnodup).2
  · have hnone := hrecovering hrec
    rw [hpinned] at hnone
    cases hnone

theorem logWrite (h : LooseAt job state ghosts) (hdev : (state.cache.buf b).dev = rootDev)
    {log : Log} {fresh : Bool}
    (hlogged : state.log.logWrite (state.cache.buf b).blockno = .ok (log, fresh)) :
    LooseAt job { state with
      cache := if fresh then state.cache.bpin b else state.cache
      log
      current := state.current ++ [((state.cache.buf b).blockno, (state.cache.buf b).content.data)] }
      (Function.update ghosts who { ghosts who with dirty := (ghosts who).dirty.erase b }) := by
  obtain ⟨-, -, hone, hresult⟩ := Log.logWrite_eq_ok_iff.mp hlogged
  cases job with
  | some held =>
      have hnone := h.log.1
      omega
  | none =>
  have hcommitting : state.log.committing = false := h.log
  have hclean : Ghost.Clean { ghosts who with dirty := (ghosts who).dirty.erase b } :=
    (Finset.erase_subset _ _).trans (h.clean who)
  -- a buffer nobody has changed now either was as the disk has it, or is the one just logged
  have hshown : ∀ b', (state.cache.buf b').content.valid = true →
      (∀ other, b' ∉ (Function.update ghosts who
        { ghosts who with dirty := (ghosts who).dirty.erase b } other).dirty) →
      (state.cache.buf b').blockno ∉ state.log.lh →
      (state.cache.buf b').blockno ≠ (state.cache.buf b).blockno →
      (state.cache.buf b').content.data = state.disk (state.cache.buf b').blockno := by
    intro b' hvalid hnobody hsaved hne
    refine h.shown b' hvalid (not_dirty_of_update hnobody rfl fun hmem => ?_) hsaved
    refine Finset.mem_erase.mpr ⟨?_, hmem⟩
    rintro rfl
    exact hne rfl
  have hshare : (fun other => (Function.update ghosts who { ghosts who with
      dirty := (ghosts who).dirty.erase b } other).share) = fun other => (ghosts other).share := by
    rw [map_update ghosts who _ Ghost.share]
    exact Function.update_eq_self who fun other => (ghosts other).share
  obtain ⟨hmem, rfl, rfl⟩ | ⟨hnot, rfl, rfl⟩ := hresult
  · refine ⟨by rw [hshare]; exact h.sharing, clean_update h.clean hclean, h.roles.update rfl rfl,
      h.dev, fun b' hvalid hnobody hsaved => ?_, h.pinned, h.nodup, h.log⟩
    refine hshown b' hvalid hnobody hsaved fun heq => hsaved ?_
    have hmem' : (state.cache.buf b').blockno ∈ state.log.lh := by
      rw [heq]
      exact hmem
    exact hmem'
  · have hsame := Bcache.bpin_same state.cache b
    have hblocks : ∀ b', ((state.cache.bpin b).buf b').blockno = (state.cache.buf b').blockno :=
      fun b' => congrArg Prod.snd (hsame.key b')
    refine ⟨?_, clean_update h.clean hclean, h.roles.update rfl rfl, fun b' hvalid => ?_,
      fun b' hvalid hnobody hsaved => ?_, fun k hk => ?_, ?_, hcommitting⟩
    · show Sharing (state.cache.bpin b) _ (pinsOf (state.cache.bpin b)
        (state.log.lh ++ [(state.cache.buf b).blockno]))
      rw [pinsOf_bpin h.sharing hdev hnot, hshare]
      exact h.sharing.bpin
    · exact (congrArg Prod.fst (hsame.key b')).trans (h.dev b' (hsame.content b' ▸ hvalid))
    · simp only [unsaved, if_true, List.mem_append, List.mem_singleton, not_or] at hvalid hsaved ⊢
      rw [hblocks] at hsaved ⊢
      rw [hsame.content b']
      exact hshown b' (hsame.content b' ▸ hvalid) hnobody hsaved.1 hsaved.2
    · obtain hk | hk := List.mem_append.mp hk
      · obtain ⟨b', hb'⟩ := h.pinned k hk
        exact ⟨b', (hsame.key b').trans hb'⟩
      · obtain rfl := List.mem_singleton.mp hk
        refine ⟨b, (hsame.key b).trans ?_⟩
        rw [Buf.key, hdev]
    · show (state.log.lh ++ [(state.cache.buf b).blockno]).Nodup
      rw [List.nodup_append]
      refine ⟨h.nodup, List.nodup_singleton _, fun x hx y hy => ?_⟩
      obtain rfl := List.mem_singleton.mp hy
      rintro rfl
      exact hnot hx

theorem idle_of_booted (h : LooseAt job state ghosts) (hbooted : (ghosts who).booted = true)
    (hcommitting : state.log.committing = false) : job = none := by
  cases job with
  | none => rfl
  | some held =>
      obtain ⟨-, hflag, -⟩ := h.log
      have hrecovering : held.recovering = true := by
        rw [hcommitting] at hflag
        simpa using hflag.symm
      have hdown := h.roles.recovering held rfl hrecovering
      rw [h.roles.booted who hbooted] at hdown
      cases hdown

theorem finish (h : LooseAt job state ghosts) {held : Job D} (hheld : (ghosts who).job = some held)
    (hpinned : held.pinned = []) (hmem : held.mem = []) {log : Log} {up : Bool}
    (hlh : log.lh = state.log.lh) (hcommitting : log.committing = false) {ghost : Ghost n D}
    (hroles : Roles none up (Function.update ghosts who ghost))
    (hshare : ghost.share = (ghosts who).share) (hdirty : ghost.dirty = (ghosts who).dirty) :
    LooseAt none { state with log, up } (Function.update ghosts who ghost) := by
  obtain rfl := h.roles.held who held hheld
  obtain ⟨-, -, hheader, hpending, -⟩ := h.log
  have hnil : log.lh = [] := hlh.trans (hheader.trans hmem)
  refine h.logStep hshare hdirty hroles (fun k hk => ?_) ?_ hcommitting
  · exact absurd (hpending k hk) (by simp [hmem])
  · simp only [pinnedList, hnil, hpinned]

end LooseAt

/-! ### All sections -/

/-- What the second reading asks of the user copies: those that fail have copied nothing. -/
def CopiesWhole (state : State n ι D) (who : ι) : (sections n D).Op → Prop
  | .copyin src len =>
      (archCopyin (state.user who) len src len).2 = true ∨
        (archCopyin (state.user who) len src len).1 = []
  | _ => True

instance (state : State n ι D) (who : ι) :
    (op : (sections n D).Op) → Decidable (CopiesWhole state who op)
  | .copyin _ _ => inferInstanceAs (Decidable (_ ∨ _))
  | .bget _ _ | .acquiresleep _ | .holdingsleep _ | .releasesleep _ | .unuse _ | .key _
  | .content _ | .setData _ _ | .diskRead _ | .diskWrite _ | .bunpin _ | .beginOp | .logWrite _
  | .endOp | .finishCommit | .syncTarget | .syncWait _ | .lh | .setLh _ | .copyout _ _ | .up | .forked | .panic _ =>
      isTrue trivial

open LooseAt in
/-- Each section keeps the second invariant and does for its process what `looseRule` says. -/
theorem handler_loose :
    Threads.HandlerSound (handler conf : Handler (sections n D) (State n ι D) ι)
      (looseRule : Rule (sections n D) (Ghost n D)) Loose CopiesWhole := by
  rintro who state ghosts op choice response state' Q ⟨job, h⟩ hallowed hrule hstep
  have hsame : LooseAt job state (Function.update ghosts who (ghosts who)) := by
    rwa [Function.update_eq_self]
  cases op with
  | bget dev blockno =>
      obtain ⟨⟨b, cache⟩, hbget, hresult⟩ := Option.map_eq_some_iff.mp hstep
      cases hresult
      exact ⟨_, hrule.2 b, job, h.bget hbget⟩
  | acquiresleep b =>
      obtain ⟨cache, hacquire, hresult⟩ := Option.map_eq_some_iff.mp hstep
      cases hresult
      have hnew : b ∉ (ghosts who).share.locked := by
        intro hmem
        rw [← h.sharing.owner, Bcache.owner_of_acquiresleep hacquire] at hmem
        cases hmem
      exact ⟨_, hrule.2 (state.cache.buf b).content hnew, job,
        h.countStep (h.sharing.acquiresleep hrule.1 hacquire)
          ((h.clean who).trans (Finset.subset_insert _ _)) (Bcache.acquiresleep_same hacquire)⟩
  | holdingsleep b =>
      cases hstep
      have howner := (h.sharing.owner who b).mpr hrule.1
      have hholding : state.cache.holdingsleep who b = true := by
        simp [Bcache.holdingsleep, howner]
      exact ⟨_, hholding ▸ hrule.2, job, hsame⟩
  | releasesleep b =>
      cases hstep
      refine ⟨_, hrule.2.2, job, h.countStep (h.sharing.releasesleep hrule.1) (fun b' hb' => ?_)
        (Bcache.releasesleep_same state.cache b)⟩
      refine Finset.mem_erase.mpr ⟨?_, h.clean who hb'⟩
      rintro rfl
      exact hrule.2.1 hb'
  | unuse b =>
      cases hstep
      exact ⟨_, hrule.2, job, h.countStep (h.sharing.brelse hrule.1) (h.clean who)
        (Bcache.brelse_same state.cache b)⟩
  | key b =>
      cases hstep
      exact ⟨_, h.sharing.key_of_locked hrule.1 ▸ hrule.2, job, hsame⟩
  | content b =>
      cases hstep
      exact ⟨_, h.sharing.content who b hrule.1 ▸ hrule.2, job, hsame⟩
  | setData b data =>
      cases hstep
      have hcontent := h.sharing.content who b hrule.1
      refine ⟨_, hrule.2, job, ?_⟩
      rw [← hcontent]
      exact h.store hrule.1 _ (h.dev b) (Finset.insert_subset hrule.1 (h.clean who))
        (fun b' hmem _ => Finset.mem_insert_of_mem hmem) (Or.inl (Finset.mem_insert_self _ _))
  | diskRead b =>
      cases hstep
      have hdev : (state.cache.buf b).dev = rootDev :=
        (congrArg Prod.fst (h.sharing.key_of_locked hrule.1)).trans hrule.2.1
      exact ⟨_, hrule.2.2 _, job, h.store hrule.1 _ (fun _ => hdev) (h.clean who)
        (fun b' hmem _ => hmem) (Or.inr rfl)⟩
  | diskWrite b =>
      cases hstep
      obtain ⟨next, hnext⟩ := h.diskWrite conf hrule.1 hrule.2.1
      exact ⟨_, hrule.2.2, next, hnext⟩
  | bunpin b =>
      cases hstep
      obtain ⟨hlocked, hdev, held, rest, hheld, hpinned, hnext⟩ := hrule
      have hkey := h.sharing.key_of_locked hlocked
      rw [← hkey] at hdev hpinned
      exact ⟨_, hnext, _, h.bunpin hdev hheld hpinned⟩
  | beginOp =>
      obtain ⟨log, hbegin, hresult⟩ := Option.map_eq_some_iff.mp hstep
      cases hresult
      obtain ⟨hcommitting, -, rfl⟩ := Log.beginOp_eq_some_iff.mp hbegin
      obtain rfl := h.idle_of_booted hrule.1 hcommitting
      exact ⟨_, hrule.2, none, h.logStep rfl rfl (h.roles.update rfl rfl) (fun _ hk => hk) rfl
        hcommitting⟩
  | logWrite b =>
      obtain ⟨hlocked, hdev, hnext⟩ := hrule
      rw [← h.sharing.key_of_locked hlocked] at hdev
      simp only [handler] at hstep
      split at hstep
      · cases hstep
      · next hlogged =>
          cases hstep
          exact ⟨_, hnext, job, h.logWrite hdev hlogged⟩
  | endOp =>
      obtain ⟨hjob, hbooted, hnot, hcommit⟩ := hrule
      simp only [handler] at hstep
      split at hstep
      · cases hstep
      · next hend =>
          cases hstep
          obtain ⟨hcommitting, hresult⟩ := Log.endOp_eq_ok_iff.mp hend
          obtain rfl := h.idle_of_booted hbooted hcommitting
          obtain ⟨-, rfl, rfl⟩ | ⟨-, rfl, rfl⟩ := hresult
          · have hcommits : (Job.committing state.log.lh state.disk).recovering ≠ true :=
              Bool.false_ne_true
            exact ⟨_, hcommit state.log.lh state.disk, _, h.logStep rfl rfl (h.roles.take rfl rfl rfl)
              (fun _ hk => hk) rfl ⟨rfl, rfl, rfl, fun _ hk => hk, fun hrec => absurd hrec hcommits⟩⟩
          · exact ⟨_, hnot, none, h.logStep rfl rfl (h.roles.update rfl rfl) (fun _ hk => hk) rfl
              hcommitting⟩
  | finishCommit =>
      cases hstep
      obtain ⟨held, hheld, hrecovering, hpinned, hmem, hnext⟩ := hrule
      obtain rfl := h.roles.held who held hheld
      have hroles : Roles none state.up
          (Function.update ghosts who { ghosts who with job := none }) :=
        h.roles.finish hheld rfl id fun hbooted => h.roles.booted who hbooted
      have hlh : state.log.finishCommit.lh = state.log.lh := rfl
      have hcommitting : state.log.finishCommit.committing = false := rfl
      exact ⟨_, hnext, none, h.finish hheld hpinned hmem hlh hcommitting hroles rfl rfl⟩
  | syncTarget =>
      cases hstep
      exact ⟨_, hrule _, job, hsame⟩
  | syncWait target =>
      simp only [handler] at hstep
      split at hstep
      · cases hstep
      · cases hstep
        exact ⟨_, hrule, job, hsame⟩
  | lh =>
      cases hstep
      refine ⟨_, hrule _ fun held hheld => ?_, job, hsame⟩
      obtain rfl := h.roles.held who held hheld
      exact h.log.2.2.1
  | setLh lh =>
      cases hstep
      obtain ⟨held, hheld, htodo, hpinned, hnext⟩ := hrule
      obtain rfl := h.roles.held who held hheld
      obtain ⟨houtstanding, hcommitting, -, -, hrecovering⟩ := h.log
      refine ⟨_, hnext, _, h.logStep rfl rfl (h.roles.advance hheld rfl rfl rfl) (fun _ hk => hk) rfl
        ⟨houtstanding, hcommitting, rfl, fun k hk => ?_, hrecovering⟩⟩
      simp [Job.pending, htodo] at hk
  | copyin src len =>
      cases hstep
      exact ⟨_, hrule _ hallowed, job, hsame⟩
  | copyout dst bytes =>
      cases hstep
      exact ⟨_, hrule _, job, hsame.remap⟩
  | up =>
      cases hstep
      obtain ⟨held, hheld, hrecovering, hmem, hnext⟩ := hrule
      obtain rfl := h.roles.held who held hheld
      obtain ⟨-, hcommitting, -, -, hpinned⟩ := h.log
      refine ⟨_, hnext, none, h.finish hheld (hpinned hrecovering) hmem rfl ?_
        (h.roles.finish hheld rfl (fun _ => rfl) fun _ => rfl) rfl rfl⟩
      rw [hcommitting, hrecovering]
      rfl
  | forked =>
      simp only [handler] at hstep
      split at hstep
      · next hup =>
          cases hstep
          exact ⟨_, hrule, job, h.logStep rfl rfl (h.roles.boot rfl hup) (fun _ hk => hk) rfl h.log⟩
      · cases hstep
  | panic message => cases hstep

/-! ### Boot -/

variable [Inhabited D]

theorem looseAt_boot {α : Type} (first : ι) (value : α) (disk : Nat → D)
    (user : ι → Nat → Option (Nat → UInt8)) (committed : List (List (Nat × D))) :
    LooseAt (some (Job.recover [] fun _ => default))
      (boot conf first value disk user committed : Threads (sections n D) _ ι α).shared
      (bootGhost first [] fun _ => default) where
  sharing := sharing_boot
  clean _ := Finset.Subset.refl _
  roles := roles_boot first [] _
  dev b hvalid := nomatch hvalid
  shown b hvalid := nomatch hvalid
  pinned := by simp [pinnedList, Job.recover]
  nodup := List.nodup_nil
  log := ⟨rfl, rfl, rfl, by simp [Job.pending, Job.recover], fun _ => rfl⟩

theorem loose_boot {α : Type} {post : ι → α → Ghost n D → Prop} {value : α} (first : ι)
    (disk : Nat → D) (user : ι → Nat → Option (Nat → UInt8)) (committed : List (List (Nat × D)))
    (hpost : ∀ who ghost, ghost.Fresh → post who value ghost) :
    Threads.Verified looseRule Loose post (boot conf first value disk user committed) := by
  refine ⟨bootGhost first [] fun _ => default, ⟨_, looseAt_boot first value disk user committed⟩,
    fun who => ?_⟩
  simp only [boot, Program.wp_bind, Program.wp_pure, Program.wp_ite]
  by_cases hfirst : who = first
  · rw [if_pos hfirst]
    have hworks : (bootGhost first [] (fun _ => default) who : Ghost n D).Works true [] [] [] :=
      ⟨_, if_pos hfirst, rfl, rfl, rfl, by simp [Job.recover]⟩
    refine Program.wp_mono looseRule_monotone ?_ (fsinit_loose (Finset.Subset.refl _) hworks)
    rintro _ after ⟨hkeeps, hjob⟩
    exact hpost who after ⟨hkeeps.share.locked, hkeeps.dirty, hjob, hkeeps.booted⟩
  · rw [if_neg hfirst, wp_forked_loose]
    exact hpost who _ ⟨rfl, rfl, by simp [bootGhost, hfirst], rfl⟩

theorem environment_loose {α : Type} {post : ι → α → Ghost n D → Prop} {value : α} (first : ι)
    (hpost : ∀ who ghost, ghost.Fresh → post who value ghost) :
    Threads.EnvSound (environment conf first value) looseRule Loose post := by
  rintro world event world' ⟨ghosts, ⟨job, hinv⟩, hwp⟩ hevent
  cases event with
  | crash =>
      cases hevent
      exact loose_boot first _ _ _ hpost
  | remap who pages =>
      cases hevent
      exact ⟨ghosts, ⟨job, hinv.remap⟩, hwp⟩

end Xv6.Kernel
