import Xv6.Storage.LegacyJournalSpecs

/-!
# The legacy log survives crashes

At any moment the log can be recovered from the disk, by whoever owns it now or by the first process
after a crash; while nobody owns it, the home blocks are as the committed transactions left them.
-/

set_option linter.unusedSectionVars false

namespace Xv6.Legacy.Recovery

open Xv6.Kernel (base)

variable {n : Nat} {ι D : Type} [DecidableEq ι] [Fintype ι] {disk : Disk D} {init : Nat → D}

def State.journal (state : State n ι D) : Journal D :=
  ⟨state.kernel.memdisk, state.kernel.lh, state.current, state.committed⟩

structure Inv (disk : Disk D) (init : Nat → D) (first : ι) (state : State n ι D)
    (ghosts : ι → Ghost n D) : Prop where
  sharing : Sharing state.kernel.cache (fun who => (ghosts who).share) fun _ => 0
  settled : ∀ b, (∀ who, b ∉ (ghosts who).share.locked) →
    Settled disk (some state.journal) (state.kernel.cache.buf b).key
      (state.kernel.cache.buf b).content
  /-- Only the owner of the log uses its sectors. -/
  inLog : ∀ who b, b ∈ (ghosts who).share.locked →
    disk.log.InLog (state.kernel.cache.buf b).blockno → (ghosts who).journal.isSome = true
  knows : ∀ who journal, (ghosts who).journal = some journal → journal = state.journal
  single : ∀ who other, (ghosts who).journal.isSome = true → (ghosts other).journal.isSome = true →
    who = other
  /-- The first process recovers the log without setting `busy`, and no process runs then. -/
  busy : state.kernel.busy = false → ∀ who, (ghosts who).journal.isSome = true →
    who = first ∧ ∀ other, (ghosts other).runs = false
  quiet : (∀ who, (ghosts who).journal = none) → state.journal.Quiet disk init
  recoverable : ∃ lh, state.journal.Recoverable disk init lh

section Settled

variable {journal : Option (Journal D)} {known : Journal D} {key : Nat × Nat} {content : Content D}

theorem Settled.of_known (h : Settled disk (some known) key content)
    (hknown : ∀ journal', journal = some journal' → journal' = known) :
    Settled disk journal key content where
  dirty := h.dirty
  dev := h.dev
  log journal' hjournal hlog hvalid := by
    rw [hknown journal' hjournal]
    exact h.log known rfl hlog hvalid

theorem Settled.settle (h : Settled disk journal key content)
    (hlog : disk.log.InLog key.2 → journal.isSome = true)
    (hknown : ∀ journal', journal = some journal' → journal' = known) :
    Settled disk (some known) key content where
  dirty := h.dirty
  dev := h.dev
  log journal' hjournal hin hvalid := by
    cases hjournal
    obtain ⟨mine, hmine⟩ := Option.isSome_iff_exists.mp (hlog hin)
    rw [h.log mine hmine hin hvalid, hknown mine hmine]

end Settled

theorem forall_of_ne {ghosts : ι → Ghost n D} {who : ι} {b : Fin n}
    (hself : b ∉ (ghosts who).share.locked)
    (hothers : ∀ other, other ≠ who → b ∉ (ghosts other).share.locked) (other : ι) :
    b ∉ (ghosts other).share.locked := by
  by_cases hother : other = who
  · exact hother ▸ hself
  · exact hothers other hother

namespace Inv

variable {state state' : State n ι D} {ghosts : ι → Ghost n D} {first who : ι} {b : Fin n}

theorem share_update (ghosts : ι → Ghost n D) (who : ι) (ghost : Ghost n D) :
    (fun other => (Function.update ghosts who ghost other).share) =
      Function.update (fun other => (ghosts other).share) who ghost.share := by
  funext other
  by_cases hother : other = who
  · subst hother
    rw [Function.update_self, Function.update_self]
  · rw [Function.update_of_ne hother, Function.update_of_ne hother]

theorem journal_update (ghosts : ι → Ghost n D) (who other : ι) (share : Share n (Content D)) :
    (Function.update ghosts who { ghosts who with share } other).journal =
      (ghosts other).journal := by
  by_cases hother : other = who
  · subst hother
    rw [Function.update_self]
  · rw [Function.update_of_ne hother]

theorem runs_update (ghosts : ι → Ghost n D) (who other : ι) {ghost : Ghost n D}
    (hruns : ghost.runs = (ghosts who).runs) :
    (Function.update ghosts who ghost other).runs = (ghosts other).runs := by
  by_cases hother : other = who
  · subst hother
    rw [Function.update_self, hruns]
  · rw [Function.update_of_ne hother]

theorem journal_eq (h : Inv disk init first state ghosts) {journal : Journal D}
    (hjournal : (ghosts who).journal = some journal) : journal = state.journal :=
  h.knows who journal hjournal

theorem journal_eq_none (h : Inv disk init first state ghosts) (howner : (ghosts who).journal.isSome = true)
    {other : ι} (hother : other ≠ who) : (ghosts other).journal = none := by
  rw [← Option.not_isSome_iff_eq_none]
  exact fun hsome => hother (h.single other who hsome howner)

theorem readStep (h : Inv disk init first state ghosts)
    (hcache : state'.kernel.cache = state.kernel.cache)
    (hjournal : state'.journal = state.journal) (hbusy : state'.kernel.busy = state.kernel.busy) :
    Inv disk init first state' (Function.update ghosts who (ghosts who)) := by
  rw [Function.update_eq_self]
  obtain ⟨hsharing, hsettled, hinLog, hknows, hsingle, hidle, hquiet, hrecoverable⟩ := h
  rw [← hcache] at hsharing hsettled hinLog
  rw [← hjournal] at hsettled hknows hquiet hrecoverable
  rw [← hbusy] at hidle
  exact ⟨hsharing, hsettled, hinLog, hknows, hsingle, hidle, hquiet, hrecoverable⟩

theorem cacheStep (h : Inv disk init first state ghosts) {cache : Bcache n ι (Content D)}
    {share : Share n (Content D)}
    (hsharing : Sharing cache
      (Function.update (fun other => (ghosts other).share) who share) fun _ => 0)
    (hsettled : ∀ b, b ∉ share.locked → (∀ other, other ≠ who → b ∉ (ghosts other).share.locked) →
      Settled disk (some state.journal) (cache.buf b).key (cache.buf b).content)
    (hinLog : ∀ b ∈ share.locked, disk.log.InLog (cache.buf b).blockno →
      (ghosts who).journal.isSome = true) :
    Inv disk init first { state with kernel := { state.kernel with cache } }
      (Function.update ghosts who { ghosts who with share }) := by
  have hjournal := fun other => journal_update ghosts who other share
  refine ⟨share_update ghosts who _ ▸ hsharing, fun b hfree => ?_, fun other b hlocked hlog => ?_,
    fun other journal hother => ?_, fun other other' hother hother' => ?_, fun hidle => ?_,
    fun hnobody => ?_, h.recoverable⟩
  · refine hsettled b ?_ fun other hother => ?_
    · simpa using hfree who
    · simpa [hother] using hfree other
  · rw [hjournal]
    by_cases hother : other = who
    · subst hother
      rw [Function.update_self] at hlocked
      exact hinLog b hlocked hlog
    · rw [Function.update_of_ne hother] at hlocked
      -- the buffers of other processes carry the same blocks as before
      have hbefore := h.sharing.key_of_locked hlocked
      have hlocked' : b ∈ (Function.update (fun other => (ghosts other).share) who share
          other).locked := by
        rwa [Function.update_of_ne hother]
      have hafter := hsharing.key_of_locked hlocked'
      rw [Function.update_of_ne hother, ← hbefore] at hafter
      have hblock : (cache.buf b).blockno = (state.kernel.cache.buf b).blockno :=
        congrArg Prod.snd hafter
      rw [hblock] at hlog
      exact h.inLog other b hlocked hlog
  · rw [hjournal] at hother
    exact h.knows other journal hother
  · rw [hjournal] at hother hother'
    exact h.single other other' hother hother'
  · intro other howns
    rw [hjournal] at howns
    obtain ⟨hfirst, hruns⟩ := h.busy hidle other howns
    refine ⟨hfirst, fun other' => Eq.trans (runs_update ghosts who other' ?_) (hruns other')⟩
    rfl
  · exact h.quiet fun other => (hjournal other).symm.trans (hnobody other)

theorem setContent (h : Inv disk init first state ghosts) (hlocked : b ∈ (ghosts who).share.locked)
    (content : Content D) :
    Inv disk init first { state with kernel := { state.kernel with
      cache := state.kernel.cache.setBuf b { state.kernel.cache.buf b with content } } }
      (Function.update ghosts who { ghosts who with
        share := (ghosts who).share.store b content }) := by
  refine h.cacheStep (h.sharing.store hlocked content) (fun b' hfree hothers => ?_)
    fun b' hmem hlog => ?_
  · have hb : b' ≠ b := by
      rintro rfl
      exact hfree hlocked
    rw [Bcache.setBuf_buf_of_ne _ _ hb]
    exact h.settled b' (forall_of_ne hfree hothers)
  · refine h.inLog who b' hmem ?_
    by_cases hb : b' = b
    · subst hb
      simpa using hlog
    · simpa [hb] using hlog

theorem own (h : Inv disk init first state ghosts)
    (hothers : ∀ other, other ≠ who → (ghosts other).journal = none)
    (hcache : state'.kernel.cache = state.kernel.cache)
    (hbusy : state'.kernel.busy = false → who = first ∧ ∀ other, (ghosts other).runs = false)
    (hsame : ∀ b, (∀ other, b ∉ (ghosts other).share.locked) →
      (state.kernel.cache.buf b).dev = rootDev →
      state'.kernel.memdisk (state.kernel.cache.buf b).blockno =
        state.kernel.memdisk (state.kernel.cache.buf b).blockno)
    (hrecoverable : ∃ lh, state'.journal.Recoverable disk init lh) :
    Inv disk init first state'
      (Function.update ghosts who { ghosts who with journal := some state'.journal }) := by
  have hself : (Function.update ghosts who { ghosts who with journal := some state'.journal }
      who).journal = some state'.journal := by
    rw [Function.update_self]
  have hother : ∀ other, other ≠ who → (Function.update ghosts who
      { ghosts who with journal := some state'.journal } other).journal = none := by
    intro other hne
    rw [Function.update_of_ne hne]
    exact hothers other hne
  have hshare : ∀ other, (Function.update ghosts who
      { ghosts who with journal := some state'.journal } other).share = (ghosts other).share := by
    intro other
    by_cases hne : other = who
    · subst hne
      rw [Function.update_self]
    · rw [Function.update_of_ne hne]
  refine ⟨?_, fun b hfree => ?_, fun other b hlocked hlog => ?_, fun other journal hsome => ?_,
    fun other other' hsome hsome' => ?_, fun hidle => ?_, fun hnobody => ?_, hrecoverable⟩
  · rw [hcache, funext hshare]
    exact h.sharing
  · rw [hcache]
    have hfree' : ∀ other, b ∉ (ghosts other).share.locked := fun other => hshare other ▸ hfree other
    have hold := h.settled b hfree'
    refine ⟨hold.dirty, hold.dev, fun known hknown hlog hvalid => ?_⟩
    cases hknown
    exact (hold.log _ rfl hlog hvalid).trans (hsame b hfree' (hold.dev hvalid)).symm
  · by_cases hne : other = who
    · rw [hne, hself]
      rfl
    · rw [hshare] at hlocked
      rw [hcache] at hlog
      have howns := h.inLog other b hlocked hlog
      rw [hothers other hne] at howns
      cases howns
  · by_cases hne : other = who
    · rw [hne, hself] at hsome
      exact (Option.some.inj hsome).symm
    · rw [hother other hne] at hsome
      cases hsome
  · by_cases hne : other = who
    · by_cases hne' : other' = who
      · rw [hne, hne']
      · rw [hother other' hne'] at hsome'
        cases hsome'
    · rw [hother other hne] at hsome
      cases hsome
  · intro other howns
    have hself' : other = who := by
      by_contra hne
      rw [hother other hne] at howns
      cases howns
    refine ⟨hself'.trans (hbusy hidle).1, fun other' =>
      Eq.trans (runs_update ghosts who other' ?_) ((hbusy hidle).2 other')⟩
    rfl
  · rw [hnobody who] at hself
    cases hself

theorem journalStep (h : Inv disk init first state ghosts) (howner : (ghosts who).journal.isSome = true)
    (hcache : state'.kernel.cache = state.kernel.cache)
    (hbusy : state'.kernel.busy = state.kernel.busy)
    (hsame : ∀ b, (∀ other, b ∉ (ghosts other).share.locked) →
      (state.kernel.cache.buf b).dev = rootDev →
      state'.kernel.memdisk (state.kernel.cache.buf b).blockno =
        state.kernel.memdisk (state.kernel.cache.buf b).blockno)
    (hrecoverable : ∃ lh, state'.journal.Recoverable disk init lh) :
    Inv disk init first state'
      (Function.update ghosts who { ghosts who with journal := some state'.journal }) := by
  refine h.own (fun other => h.journal_eq_none howner) hcache (fun hidle => ?_) hsame hrecoverable
  rw [hbusy] at hidle
  exact h.busy hidle who howner

theorem logged (h : Inv disk init first state ghosts) (hlocked : b ∈ (ghosts who).share.locked)
    (howner : (ghosts who).journal.isSome = true) :
    let buf := state.kernel.cache.buf b
    let next : State n ι D := { state with
      kernel := { state.kernel with
        cache := state.kernel.cache.setBuf b
          { buf with content := { buf.content with dirty := true } }
        written := Function.update state.kernel.written buf.blockno (some buf.content.data) }
      current := state.current ++ [(buf.blockno, buf.content.data)] }
    Inv disk init first next (Function.update ghosts who { ghosts who with
      share := (ghosts who).share.store b { buf.content with dirty := true }
      journal := some next.journal }) := by
  intro buf next
  have hdirty := h.setContent hlocked { buf.content with dirty := true }
  have howner' : (Function.update ghosts who { ghosts who with
      share := (ghosts who).share.store b { buf.content with dirty := true } } who).journal.isSome =
        true := by
    rwa [Function.update_self]
  have hnext : Inv disk init first next _ :=
    hdirty.journalStep howner' rfl rfl (fun _ _ _ => rfl) h.recoverable
  rwa [Function.update_idem, Function.update_self] at hnext

theorem beginTrans (h : Inv disk init first state ghosts) (hruns : (ghosts who).runs = true)
    (hidle : state.kernel.busy = false) :
    let next : State n ι D := { state with
      kernel := { state.kernel with busy := true }
      current := [] }
    next.journal.Quiet disk init ∧ Inv disk init first next
      (Function.update ghosts who { ghosts who with journal := some next.journal }) := by
  have hnobody : ∀ other, (ghosts other).journal = none := by
    intro other
    rw [← Option.not_isSome_iff_eq_none]
    intro howns
    rw [(h.busy hidle other howns).2 who] at hruns
    cases hruns
  have hquiet := h.quiet hnobody
  refine ⟨⟨hquiet.n, hquiet.header, hquiet.home⟩, ?_⟩
  exact h.own (fun other _ => hnobody other) rfl (fun hnot => by cases hnot)
    (fun _ _ _ => rfl) h.recoverable

theorem endTrans (h : Inv disk init first state ghosts) (howner : (ghosts who).journal.isSome = true)
    (hquiet : state.journal.Quiet disk init)
    (hhome : ∀ b ∈ (ghosts who).share.locked, ¬disk.log.InLog ((ghosts who).share.key b).2)
    (hcache : state'.kernel.cache = state.kernel.cache)
    (hjournal : state'.journal = state.journal) :
    Inv disk init first state' (Function.update ghosts who { ghosts who with journal := none }) := by
  have hnone : ∀ other, (Function.update ghosts who { ghosts who with journal := none }
      other).journal = none := by
    intro other
    by_cases hne : other = who
    · subst hne
      rw [Function.update_self]
    · rw [Function.update_of_ne hne]
      exact h.journal_eq_none howner hne
  have hshare : ∀ other, (Function.update ghosts who { ghosts who with journal := none }
      other).share = (ghosts other).share := by
    intro other
    by_cases hne : other = who
    · subst hne
      rw [Function.update_self]
    · rw [Function.update_of_ne hne]
  refine ⟨?_, fun b hfree => ?_, fun other b hlocked hlog => ?_, fun other journal hsome => ?_,
    fun other other' hsome _ => ?_, fun _ other hsome => ?_, fun _ => hjournal ▸ hquiet,
    hjournal ▸ h.recoverable⟩
  · rw [hcache, funext hshare]
    exact h.sharing
  · rw [hcache, hjournal]
    exact h.settled b fun other => hshare other ▸ hfree other
  · rw [hshare] at hlocked
    rw [hcache] at hlog
    obtain rfl := h.single other who (h.inLog other b hlocked hlog) howner
    have hkey := congrArg Prod.snd (h.sharing.key_of_locked hlocked)
    exact absurd (hkey ▸ hlog) (hhome b hlocked)
  · rw [hnone] at hsome
    cases hsome
  · rw [hnone] at hsome
    cases hsome
  · rw [hnone] at hsome
    cases hsome

end Inv

theorem handler_sound (first : ι) : Threads.HandlerSound (handler disk : Handler (sections n D) (State n ι D) ι)
    (rule disk init : Rule (sections n D) (Ghost n D)) (Inv disk init first) fun _ _ _ => True := by
  intro who state ghosts op choice response state' Q h _ hrule hstep
  obtain ⟨⟨answer, kernel⟩, hhandler, hresult⟩ := Option.map_eq_some_iff.mp hstep
  cases op with
  | bget dev blockno =>
      obtain ⟨⟨b, cache⟩, hbget, hkernel⟩ := Option.map_eq_some_iff.mp hhandler
      cases hkernel
      cases hresult
      obtain ⟨rfl, hnext⟩ := hrule
      refine ⟨_, hnext b, h.cacheStep (h.sharing.bget hbget) (fun b' hfree hothers => ?_)
        fun b' hlocked hlog => ?_⟩
      · have hold := h.settled b' (forall_of_ne hfree hothers)
        obtain ⟨-, rfl⟩ | ⟨-, -, rfl⟩ := Bcache.bget_cases hbget
        · by_cases hb : b' = b
          · subst hb
            simpa [Buf.key] using hold
          · simpa [hb] using hold
        · by_cases hb : b' = b
          · subst hb
            rw [Bcache.setBuf_buf_self]
            exact ⟨id, fun hvalid => absurd hvalid Bool.false_ne_true,
              fun _ _ _ hvalid => absurd hvalid Bool.false_ne_true⟩
          · simpa [hb] using hold
      · refine h.inLog who b' hlocked ?_
        obtain ⟨-, rfl⟩ | ⟨-, hunused, rfl⟩ := Bcache.bget_cases hbget
        · by_cases hb : b' = b
          · subst hb
            simpa using hlog
          · simpa [hb] using hlog
        · have hb : b' ≠ b := by
            rintro rfl
            have hmem : b' ∈ (ghosts who).share.locked := hlocked
            have huses := h.sharing.uses_eq_zero (h.sharing.refcnt_of_unused hunused) who
            have hpos := Sharing.uses_pos_of_locked hmem
            omega
          simpa [hb] using hlog
  | acquiresleep b =>
      obtain ⟨cache, hacquire, hkernel⟩ := Option.map_eq_some_iff.mp hhandler
      cases hkernel
      cases hresult
      have hsame := Bcache.acquiresleep_same hacquire
      have hnobody : ∀ other, b ∉ (ghosts other).share.locked := by
        intro other hmem
        have howner := (h.sharing.owner other b).mpr hmem
        rw [Bcache.owner_of_acquiresleep hacquire] at howner
        cases howner
      have hsharing := h.sharing.acquiresleep hrule.1 hacquire
      have hkey : (state.kernel.cache.buf b).key = (ghosts who).share.key b :=
        h.sharing.key who b (by simp only [Share.uses]; have := hrule.1; omega)
      have hsettled := (hkey ▸ h.settled b hnobody).of_known fun known hknown =>
        h.knows who known hknown
      refine ⟨_, hrule.2.2 _ (hnobody who) hsettled, h.cacheStep hsharing
        (fun b' hfree hothers => ?_) fun b' hlocked hlog => ?_⟩
      · rw [hsame.key, hsame.content]
        exact h.settled b' (forall_of_ne (fun hmem => hfree (Finset.mem_insert_of_mem hmem)) hothers)
      · rw [hsame.blockno] at hlog
        obtain rfl | hlocked := Finset.mem_insert.mp hlocked
        · refine hrule.2.1 ?_
          rw [← hkey]
          exact hlog
        · exact h.inLog who b' hlocked hlog
  | holdingsleep b =>
      cases hhandler
      cases hresult
      have howner := (h.sharing.owner who b).mpr hrule.1
      have hholding : state.kernel.cache.holdingsleep who b = true := by
        simp [Bcache.holdingsleep, howner]
      exact ⟨_, hholding ▸ hrule.2, h.readStep rfl rfl rfl⟩
  | releasesleep b =>
      cases hhandler
      cases hresult
      obtain ⟨hlocked, hsettled, hnext⟩ := hrule
      have hsame := Bcache.releasesleep_same state.kernel.cache b
      have hkey := h.sharing.key_of_locked hlocked
      rw [← hkey, ← h.sharing.content who b hlocked] at hsettled
      refine ⟨_, hnext, h.cacheStep (h.sharing.releasesleep hlocked) (fun b' hfree hothers => ?_)
        fun b' hmem hlog => ?_⟩
      · rw [hsame.key, hsame.content]
        by_cases hb : b' = b
        · subst hb
          exact hsettled.settle (h.inLog who b' hlocked) fun known hknown => h.knows who known hknown
        · exact h.settled b' (forall_of_ne (fun hmem =>
            hfree (Finset.mem_erase.mpr ⟨hb, hmem⟩)) hothers)
      · rw [hsame.blockno] at hlog
        exact h.inLog who b' (Finset.mem_of_mem_erase hmem) hlog
  | unuse b =>
      cases hhandler
      cases hresult
      have hsame := Bcache.brelse_same state.kernel.cache b
      refine ⟨_, hrule.2, h.cacheStep (h.sharing.brelse hrule.1) (fun b' hfree hothers => ?_)
        fun b' hmem hlog => ?_⟩
      · rw [hsame.key, hsame.content]
        exact h.settled b' (forall_of_ne hfree hothers)
      · rw [hsame.blockno] at hlog
        exact h.inLog who b' hmem hlog
  | key b =>
      cases hhandler
      cases hresult
      exact ⟨_, h.sharing.key_of_locked hrule.1 ▸ hrule.2, h.readStep rfl rfl rfl⟩
  | content b =>
      cases hhandler
      cases hresult
      exact ⟨_, h.sharing.content who b hrule.1 ▸ hrule.2, h.readStep rfl rfl rfl⟩
  | setContent b content =>
      cases hhandler
      cases hresult
      obtain ⟨hlocked, hnext⟩ := hrule
      exact ⟨_, hnext, h.setContent hlocked content⟩
  | readSector blockno =>
      cases hhandler
      cases hresult
      refine ⟨_, hrule _ fun known hknown => ?_, h.readStep rfl rfl rfl⟩
      rw [h.journal_eq hknown]
      rfl
  | writeSector blockno data =>
      cases hhandler
      obtain ⟨⟨b, hlocked, hkey⟩, journal, hjournal, ⟨lh, hrecoverable⟩, hnext⟩ := hrule
      obtain rfl := h.journal_eq hjournal
      have hwritten : state'.journal = state.journal.write disk blockno data := by
        have hstate := congrArg Prod.snd hresult
        subst hstate
        simp only [note, Journal.write, State.journal]
        split <;> rfl
      have hshared : state'.kernel.cache = state.kernel.cache ∧
          state'.kernel.busy = state.kernel.busy := by
        have hstate := congrArg Prod.snd hresult
        subst hstate
        simp only [note]
        split <;> exact ⟨rfl, rfl⟩
      cases hresult
      refine ⟨_, hnext, hwritten ▸ h.journalStep (by rw [hjournal]; rfl) hshared.1 hshared.2
        (fun b' hfree hdev => ?_) ⟨lh, hwritten ▸ hrecoverable⟩⟩
      have hmemdisk := congrArg Journal.memdisk hwritten
      rw [Journal.memdisk_write] at hmemdisk
      refine (congrFun hmemdisk _).trans (Function.update_of_ne ?_ ..)
      -- another buffer carries another sector
      rintro rfl
      have hsame : (state.kernel.cache.buf b).key = (state.kernel.cache.buf b').key := by
        rw [h.sharing.key_of_locked hlocked, hkey, Buf.key, hdev]
      have hdev' : (state.kernel.cache.buf b).dev ≠ 0 := by
        have hfirst := congrArg Prod.fst hsame
        simp only [Buf.key] at hfirst
        rw [hfirst, hdev]
        decide
      obtain rfl := h.sharing.unique b b' hdev' hsame
      exact hfree who hlocked
  | beginTrans =>
      simp only [Legacy.handler] at hhandler
      split at hhandler
      · cases hhandler
      next hidle =>
        cases hhandler
        cases hresult
        obtain ⟨hruns, -, hnext⟩ := hrule
        obtain ⟨hquiet, hinv⟩ := h.beginTrans hruns (by simpa using hidle)
        exact ⟨_, hnext _ hquiet rfl, hinv⟩
  | busy =>
      cases hhandler
      cases hresult
      exact ⟨_, hrule _, h.readStep rfl rfl rfl⟩
  | lh =>
      cases hhandler
      cases hresult
      obtain ⟨journal, hjournal, hnext⟩ := hrule
      obtain rfl := h.journal_eq hjournal
      exact ⟨_, hnext, h.readStep rfl rfl rfl⟩
  | setSector i blockno =>
      cases hhandler
      cases hresult
      obtain ⟨journal, hjournal, hnext⟩ := hrule
      obtain rfl := h.journal_eq hjournal
      exact ⟨_, hnext, h.journalStep (by rw [hjournal]; rfl) rfl rfl (fun _ _ _ => rfl)
        h.recoverable⟩
  | setN count =>
      cases hhandler
      cases hresult
      obtain ⟨journal, hjournal, hnext⟩ := hrule
      obtain rfl := h.journal_eq hjournal
      exact ⟨_, hnext, h.journalStep (by rw [hjournal]; rfl) rfl rfl (fun _ _ _ => rfl)
        h.recoverable⟩
  | logged b =>
      cases hhandler
      cases hresult
      obtain ⟨hlocked, journal, hjournal, hnext⟩ := hrule
      obtain rfl := h.journal_eq hjournal
      rw [← h.sharing.key_of_locked hlocked, ← h.sharing.content who b hlocked] at hnext
      exact ⟨_, hnext, h.logged hlocked (by rw [hjournal]; rfl)⟩
  | committing =>
      cases hhandler
      cases hresult
      obtain ⟨journal, hjournal, hnext⟩ := hrule
      obtain rfl := h.journal_eq hjournal
      exact ⟨_, hnext, h.readStep rfl rfl rfl⟩
  | endTrans =>
      cases hhandler
      cases hresult
      obtain ⟨⟨journal, hjournal, hquiet⟩, hhome, hnext⟩ := hrule
      obtain rfl := h.journal_eq hjournal
      exact ⟨_, hnext, h.endTrans (by rw [hjournal]; rfl) hquiet hhome rfl rfl⟩
  | panic message => cases hhandler

end Xv6.Legacy.Recovery
