import Xv6.Storage.LegacySpecs

/-!
# What a read returns after `log_write`

The buffer of a block logged in the transaction in progress is dirty and holds what was logged, as
long as it stays in the cache. `bget` does not look at the dirty flag when it recycles, so it stays
there only where the least recently used unused buffer is never a dirty one.
-/

set_option linter.unusedSectionVars false

namespace Xv6.Legacy

variable {n : Nat} {ι D : Type} [DecidableEq ι] [Fintype ι] {conf : Config D}

/-- When `bget` recycles, it does not recycle a dirty buffer. -/
def RecyclesClean (kernel : Kernel n ι D) (_ : ι) : (sections n D).Op → Prop
  | .bget dev blockno => kernel.cache.cached dev blockno = none →
      ∀ b, kernel.cache.unused = some b → (kernel.cache.buf b).content.dirty = false
  | _ => True

instance (kernel : Kernel n ι D) (who : ι) :
    (op : (sections n D).Op) → Decidable (RecyclesClean kernel who op)
  | .bget dev blockno => inferInstanceAs (Decidable (kernel.cache.cached dev blockno = none →
      ∀ b, kernel.cache.unused = some b → (kernel.cache.buf b).content.dirty = false))
  | .acquiresleep _ | .holdingsleep _ | .releasesleep _ | .unuse _ | .key _ | .content _
  | .setContent _ _ | .readSector _ | .writeSector _ _ | .beginTrans | .busy | .lh
  | .setSector _ _ | .setN _ | .logged _ | .committing | .endTrans | .panic _ => isTrue trivial

structure Inv (conf : Config D) (kernel : Kernel n ι D) (ghosts : ι → Ghost n D) : Prop where
  sharing : Sharing kernel.cache (fun who => (ghosts who).share) fun _ => 0
  modified : ∀ who, (ghosts who).modified ⊆ (ghosts who).share.locked
  single : ∀ who other, (ghosts who).role ≠ .outside → (ghosts other).role ≠ .outside → who = other
  busy : kernel.busy = false → ∀ who, (ghosts who).role = .outside
  /-- Nothing is written outside a transaction. -/
  inTrans : ∀ k data, kernel.written k = some data → ∃ who, (ghosts who).role = .inTrans
  kept : ∀ k data, kernel.written k = some data → ¬conf.InLog k ∧
    ∃ b, (kernel.cache.buf b).key = (rootDev, k) ∧ (kernel.cache.buf b).content.valid = true ∧
      (kernel.cache.buf b).content.dirty = true ∧
      ((∀ who, b ∉ (ghosts who).modified) → (kernel.cache.buf b).content.data = data)

namespace Inv

variable {kernel kernel' : Kernel n ι D} {ghosts : ι → Ghost n D} {who : ι} {b : Fin n}

theorem share_update (ghosts : ι → Ghost n D) (who : ι) (ghost : Ghost n D) :
    (fun other => (Function.update ghosts who ghost other).share) =
      Function.update (fun other => (ghosts other).share) who ghost.share := by
  funext other
  by_cases hother : other = who
  · subst hother
    rw [Function.update_self, Function.update_self]
  · rw [Function.update_of_ne hother, Function.update_of_ne hother]

theorem cacheStep (h : Inv conf kernel ghosts) {cache : Bcache n ι (Content D)}
    {share : Share n (Content D)}
    (hsharing : Sharing cache
      (Function.update (fun other => (ghosts other).share) who share) fun _ => 0)
    (hmodified : (ghosts who).modified ⊆ share.locked)
    (hkept : ∀ b, (∃ k data, kernel.written k = some data ∧
        (kernel.cache.buf b).key = (rootDev, k)) →
      (kernel.cache.buf b).content.valid = true → (kernel.cache.buf b).content.dirty = true →
        (cache.buf b).key = (kernel.cache.buf b).key ∧
          (cache.buf b).content = (kernel.cache.buf b).content) :
    Inv conf { kernel with cache } (Function.update ghosts who { ghosts who with share }) := by
  have hrole : ∀ other, (Function.update ghosts who { ghosts who with share } other).role =
      (ghosts other).role := by
    intro other
    by_cases hother : other = who
    · subst hother
      rw [Function.update_self]
    · rw [Function.update_of_ne hother]
  have hsame : ∀ other, (Function.update ghosts who { ghosts who with share } other).modified =
      (ghosts other).modified := by
    intro other
    by_cases hother : other = who
    · subst hother
      rw [Function.update_self]
    · rw [Function.update_of_ne hother]
  refine ⟨share_update ghosts who _ ▸ hsharing, fun other => ?_, fun other other' => ?_,
    fun hbusy other => ?_, fun k data hwritten => ?_, fun k data hwritten => ?_⟩
  · by_cases hother : other = who
    · subst hother
      rwa [Function.update_self]
    · rw [Function.update_of_ne hother]
      exact h.modified other
  · rw [hrole, hrole]
    exact h.single other other'
  · rw [hrole]
    exact h.busy hbusy other
  · obtain ⟨other, hother⟩ := h.inTrans k data hwritten
    exact ⟨other, (hrole other).trans hother⟩
  · obtain ⟨hhome, b, hkey, hvalid, hdirty, hdata⟩ := h.kept k data hwritten
    obtain ⟨hkey', hcontent'⟩ := hkept b ⟨k, data, hwritten, hkey⟩ hvalid hdirty
    refine ⟨hhome, b, hkey'.trans hkey, ?_, ?_, fun hnobody => ?_⟩
    · simpa [hcontent'] using hvalid
    · simpa [hcontent'] using hdirty
    · simp only [hcontent']
      exact hdata fun other => hsame other ▸ hnobody other

theorem otherStep (h : Inv conf kernel ghosts) (hcache : kernel'.cache = kernel.cache)
    (hbusy : kernel'.busy = kernel.busy) (hwritten : kernel'.written = kernel.written) :
    Inv conf kernel' (Function.update ghosts who (ghosts who)) := by
  rw [Function.update_eq_self]
  refine ⟨hcache ▸ h.sharing, h.modified, h.single, hbusy ▸ h.busy, hwritten ▸ h.inTrans, ?_⟩
  rw [hcache, hwritten]
  exact h.kept

theorem ne_of_free (h : Inv conf kernel ghosts) (hlocked : b ∈ (ghosts who).share.locked)
    (hfree : ((ghosts who).share.content b).valid = false ∨ (ghosts who).Loose conf b) {b' : Fin n}
    (hwritten : ∃ k data, kernel.written k = some data ∧ (kernel.cache.buf b').key = (rootDev, k))
    (hvalid : (kernel.cache.buf b').content.valid = true) : b' ≠ b := by
  rintro rfl
  obtain ⟨k, data, hwritten, hkey⟩ := hwritten
  have hcontent := h.sharing.content who b' hlocked
  have hknown := h.sharing.key_of_locked hlocked
  obtain hinvalid | hlog | hrole := hfree
  · rw [← hcontent, hvalid] at hinvalid
    cases hinvalid
  · rw [← hknown, hkey] at hlog
    exact (h.kept k data hwritten).1 hlog
  · obtain ⟨other, hother⟩ := h.inTrans k data hwritten
    obtain rfl : who = other := h.single who other (by simp [hrole]) (by simp [hother])
    rw [hrole] at hother
    cases hother

theorem setContent_free (h : Inv conf kernel ghosts) (hlocked : b ∈ (ghosts who).share.locked)
    (hfree : ((ghosts who).share.content b).valid = false ∨ (ghosts who).Loose conf b)
    (content : Content D) :
    Inv conf { kernel with
      cache := kernel.cache.setBuf b { kernel.cache.buf b with content } }
      (Function.update ghosts who { ghosts who with
        share := (ghosts who).share.store b content }) := by
  refine h.cacheStep (h.sharing.store hlocked content) (h.modified who)
    fun b' hwritten hvalid _ => ?_
  have hne := h.ne_of_free hlocked hfree hwritten hvalid
  simp [hne]

theorem setContent_modify (h : Inv conf kernel ghosts) (hlocked : b ∈ (ghosts who).share.locked)
    {content : Content D} (hvalid : content.valid = ((ghosts who).share.content b).valid)
    (hdirty : content.dirty = ((ghosts who).share.content b).dirty) :
    Inv conf { kernel with
      cache := kernel.cache.setBuf b { kernel.cache.buf b with content } }
      (Function.update ghosts who { ghosts who with
        share := (ghosts who).share.store b content
        modified := insert b (ghosts who).modified }) := by
  have hrole : ∀ other, (Function.update ghosts who { ghosts who with
      share := (ghosts who).share.store b content
      modified := insert b (ghosts who).modified } other).role = (ghosts other).role := by
    intro other
    by_cases hother : other = who
    · subst hother
      rw [Function.update_self]
    · rw [Function.update_of_ne hother]
  have hcontent := h.sharing.content who b hlocked
  refine ⟨share_update ghosts who _ ▸ h.sharing.store hlocked content, fun other => ?_,
    fun other other' => ?_, fun hbusy other => ?_, fun k data hwritten => ?_,
    fun k data hwritten => ?_⟩
  · by_cases hother : other = who
    · subst hother
      rw [Function.update_self]
      exact Finset.insert_subset hlocked (h.modified other)
    · rw [Function.update_of_ne hother]
      exact h.modified other
  · rw [hrole, hrole]
    exact h.single other other'
  · rw [hrole]
    exact h.busy hbusy other
  · obtain ⟨other, hother⟩ := h.inTrans k data hwritten
    exact ⟨other, (hrole other).trans hother⟩
  · obtain ⟨hhome, b', hkey, hvalid', hdirty', hdata⟩ := h.kept k data hwritten
    refine ⟨hhome, b', ?_⟩
    by_cases hb : b' = b
    · subst hb
      refine ⟨by simpa [Buf.key] using hkey, ?_, ?_, fun hnobody => ?_⟩
      · simpa [hvalid, ← hcontent] using hvalid'
      · simpa [hdirty, ← hcontent] using hdirty'
      · have hmodified := hnobody who
        simp at hmodified
    · refine ⟨by simpa [hb] using hkey, by simpa [hb] using hvalid', by simpa [hb] using hdirty',
        fun hnobody => ?_⟩
      simp only [Bcache.setBuf_buf_of_ne _ _ hb]
      refine hdata fun other => ?_
      have hnot := hnobody other
      by_cases hother : other = who
      · subst hother
        rw [Function.update_self] at hnot
        exact fun hmem => hnot (Finset.mem_insert_of_mem hmem)
      · rwa [Function.update_of_ne hother] at hnot

theorem logged (h : Inv conf kernel ghosts) (hrole : (ghosts who).role = .inTrans)
    (hlocked : b ∈ (ghosts who).share.locked)
    (hvalid : ((ghosts who).share.content b).valid = true)
    (hdev : ((ghosts who).share.key b).1 = rootDev)
    (hhome : ¬conf.InLog ((ghosts who).share.key b).2) :
    Inv conf { kernel with
      cache := kernel.cache.setBuf b { kernel.cache.buf b with
        content := { (kernel.cache.buf b).content with dirty := true } }
      written := Function.update kernel.written (kernel.cache.buf b).blockno
        (some (kernel.cache.buf b).content.data) }
      (Function.update ghosts who { ghosts who with
        share := (ghosts who).share.store b { (ghosts who).share.content b with dirty := true }
        modified := (ghosts who).modified.erase b }) := by
  have hcontent := h.sharing.content who b hlocked
  have hkey := h.sharing.key_of_locked hlocked
  have hroles : ∀ other, (Function.update ghosts who { ghosts who with
      share := (ghosts who).share.store b { (ghosts who).share.content b with dirty := true }
      modified := (ghosts who).modified.erase b } other).role = (ghosts other).role := by
    intro other
    by_cases hother : other = who
    · subst hother
      rw [Function.update_self]
    · rw [Function.update_of_ne hother]
  have hsharing := h.sharing.store hlocked { (ghosts who).share.content b with dirty := true }
  refine ⟨share_update ghosts who _ ▸ (hcontent ▸ hsharing), fun other => ?_,
    fun other other' => ?_, fun hbusy other => ?_, fun k data _ => ⟨who, ?_⟩,
    fun k data hwritten => ?_⟩
  · by_cases hother : other = who
    · subst hother
      rw [Function.update_self]
      exact (Finset.erase_subset b _).trans (h.modified other)
    · rw [Function.update_of_ne hother]
      exact h.modified other
  · rw [hroles, hroles]
    exact h.single other other'
  · rw [hroles]
    exact h.busy hbusy other
  · exact (hroles who).trans hrole
  · dsimp only at hwritten
    by_cases hk : k = (kernel.cache.buf b).blockno
    · subst hk
      rw [Function.update_self, Option.some.injEq] at hwritten
      have hsecond : ((ghosts who).share.key b).2 = (kernel.cache.buf b).blockno := by
        rw [← hkey]
        rfl
      refine ⟨hsecond ▸ hhome, b, ?_, ?_, by simp, fun _ => by simpa using hwritten⟩
      · have hfirst : (kernel.cache.buf b).dev = rootDev := by
          rw [← hdev, ← hkey]
          rfl
        simp [Buf.key, hfirst]
      · simpa [hcontent] using hvalid
    · rw [Function.update_of_ne hk] at hwritten
      obtain ⟨hhome', b', hkey', hvalid', hdirty', hdata'⟩ := h.kept k data hwritten
      have hb : b' ≠ b := by
        rintro rfl
        exact hk (congrArg Prod.snd hkey').symm
      refine ⟨hhome', b', by simpa [hb] using hkey', by simpa [hb] using hvalid',
        by simpa [hb] using hdirty', fun hnobody => ?_⟩
      simp only [Bcache.setBuf_buf_of_ne _ _ hb]
      refine hdata' fun other => ?_
      have hnot := hnobody other
      by_cases hother : other = who
      · subst hother
        rw [Function.update_self] at hnot
        exact fun hmem => hnot (Finset.mem_erase.mpr ⟨hb, hmem⟩)
      · rwa [Function.update_of_ne hother] at hnot

theorem setRole (h : Inv conf kernel ghosts) {role : Role} {busy : Bool}
    {written : Nat → Option D}
    (hsingle : role ≠ .outside → ∀ other, other ≠ who → (ghosts other).role = .outside)
    (hbusy : busy = false → role = .outside ∧ ∀ other, other ≠ who → (ghosts other).role = .outside)
    (hwritten : ∀ k, written k = none) :
    Inv conf { kernel with busy, written }
      (Function.update ghosts who { ghosts who with role }) := by
  have hself : (Function.update ghosts who { ghosts who with role } who).role = role := by
    rw [Function.update_self]
  have hother : ∀ other, other ≠ who →
      (Function.update ghosts who { ghosts who with role } other).role = (ghosts other).role := by
    intro other hne
    rw [Function.update_of_ne hne]
  refine ⟨?_, fun other => ?_, fun other other' hfirst hsecond => ?_, fun hidle other => ?_,
    fun k data hsome => ?_, fun k data hsome => ?_⟩
  · rw [share_update ghosts who, Function.update_eq_self]
    exact h.sharing
  · by_cases hne : other = who
    · subst hne
      rw [Function.update_self]
      exact h.modified other
    · rw [Function.update_of_ne hne]
      exact h.modified other
  · by_cases hne : other = who
    · by_cases hne' : other' = who
      · rw [hne, hne']
      · rw [hother other' hne'] at hsecond
        rw [hne, hself] at hfirst
        exact absurd (hsingle hfirst other' hne') hsecond
    · rw [hother other hne] at hfirst
      by_cases hne' : other' = who
      · rw [hne', hself] at hsecond
        exact absurd (hsingle hsecond other hne) hfirst
      · rw [hother other' hne'] at hsecond
        exact h.single other other' hfirst hsecond
  · by_cases hne : other = who
    · rw [hne, hself]
      exact (hbusy hidle).1
    · rw [hother other hne]
      exact (hbusy hidle).2 other hne
  · exact absurd ((hwritten k).symm.trans hsome) (by simp)
  · exact absurd ((hwritten k).symm.trans hsome) (by simp)

theorem outside_of_ne (h : Inv conf kernel ghosts) (hrole : (ghosts who).role ≠ .outside)
    {other : ι} (hother : other ≠ who) : (ghosts other).role = .outside := by
  by_contra hnot
  exact hother (h.single other who hnot hrole)

end Inv

theorem handler_sound :
    Threads.HandlerSound (handler : Handler (sections n D) (Kernel n ι D) ι) (rule conf : Rule (sections n D) (Ghost n D))
      (Inv conf) RecyclesClean := by
  intro who kernel ghosts op choice response kernel' Q h hallowed hrule hstep
  cases op with
  | bget dev blockno =>
      obtain ⟨⟨b, cache⟩, hbget, hresult⟩ := Option.map_eq_some_iff.mp hstep
      cases hresult
      refine ⟨_, hrule b, h.cacheStep (h.sharing.bget hbget) (h.modified who) ?_⟩
      intro b' _ _ hdirty
      obtain ⟨-, rfl⟩ | ⟨hcached, hunused, rfl⟩ := Bcache.bget_cases hbget
      · by_cases hb : b' = b
        · subst hb
          simp [Buf.key]
        · simp [hb]
      · have hclean := hallowed hcached b hunused
        have hb : b' ≠ b := by
          rintro rfl
          rw [hclean] at hdirty
          cases hdirty
        simp [hb]
  | acquiresleep b =>
      obtain ⟨cache, hacquire, hresult⟩ := Option.map_eq_some_iff.mp hstep
      cases hresult
      have hfree : b ∉ (ghosts who).share.locked := by
        intro hmem
        have howner := (h.sharing.owner who b).mpr hmem
        simp [Bcache.acquiresleep, howner] at hacquire
      refine ⟨_, hrule.2 (kernel.cache.buf b).content hfree,
        h.cacheStep (h.sharing.acquiresleep hrule.1 hacquire)
          ((h.modified who).trans (Finset.subset_insert _ _)) fun b' _ _ _ => ?_⟩
      unfold Bcache.acquiresleep at hacquire
      split at hacquire
      · cases hacquire
      · cases hacquire
        by_cases hb : b' = b
        · subst hb
          simp [Buf.key]
        · simp [hb]
  | holdingsleep b =>
      cases hstep
      have howner := (h.sharing.owner who b).mpr hrule.1
      have hholding : kernel.cache.holdingsleep who b = true := by
        simp [Bcache.holdingsleep, howner]
      exact ⟨_, hholding ▸ hrule.2, h.otherStep rfl rfl rfl⟩
  | releasesleep b =>
      cases hstep
      refine ⟨_, hrule.2.2, h.cacheStep (h.sharing.releasesleep hrule.1) (fun b' hb' => ?_)
        fun b' _ _ _ => ?_⟩
      · refine Finset.mem_erase.mpr ⟨?_, h.modified who hb'⟩
        rintro rfl
        exact hrule.2.1 hb'
      · by_cases hb : b' = b
        · subst hb
          simp [Bcache.releasesleep, Buf.key]
        · simp [Bcache.releasesleep, hb]
  | unuse b =>
      cases hstep
      refine ⟨_, hrule.2, h.cacheStep (h.sharing.brelse hrule.1) (h.modified who)
        fun b' _ _ _ => ?_⟩
      unfold Bcache.brelse
      dsimp only
      split <;>
      · by_cases hb : b' = b
        · subst hb
          simp [Buf.key]
        · simp [hb]
  | key b =>
      cases hstep
      exact ⟨_, h.sharing.key_of_locked hrule.1 ▸ hrule.2, h.otherStep rfl rfl rfl⟩
  | content b =>
      cases hstep
      exact ⟨_, h.sharing.content who b hrule.1 ▸ hrule.2, h.otherStep rfl rfl rfl⟩
  | setContent b content =>
      cases hstep
      obtain ⟨hlocked, ⟨hfree, hnext⟩ | ⟨hrole, hvalid, hdirty, hnext⟩⟩ := hrule
      · exact ⟨_, hnext, h.setContent_free hlocked hfree content⟩
      · exact ⟨_, hnext, h.setContent_modify hlocked hvalid hdirty⟩
  | readSector blockno =>
      cases hstep
      exact ⟨_, hrule _, h.otherStep rfl rfl rfl⟩
  | writeSector blockno data =>
      cases hstep
      exact ⟨_, hrule, h.otherStep rfl rfl rfl⟩
  | beginTrans =>
      simp only [handler] at hstep
      split at hstep
      · cases hstep
      · next hidle =>
          cases hstep
          have hnobody := h.busy (by simpa using hidle)
          refine ⟨_, hrule.2, h.setRole (fun _ other _ => hnobody other) (fun hnot => by cases hnot)
            fun k => ?_⟩
          cases hwritten : kernel.written k with
          | none => rfl
          | some data =>
              obtain ⟨other, hother⟩ := h.inTrans k data hwritten
              rw [hnobody other] at hother
              cases hother
  | busy =>
      cases hstep
      exact ⟨_, hrule _, h.otherStep rfl rfl rfl⟩
  | lh =>
      cases hstep
      exact ⟨_, hrule _, h.otherStep rfl rfl rfl⟩
  | setSector i blockno =>
      cases hstep
      exact ⟨_, hrule, h.otherStep rfl rfl rfl⟩
  | setN count =>
      cases hstep
      exact ⟨_, hrule, h.otherStep rfl rfl rfl⟩
  | logged b =>
      cases hstep
      obtain ⟨hrole, hlocked, hvalid, hdev, hhome, hnext⟩ := hrule
      exact ⟨_, hnext, h.logged hrole hlocked hvalid hdev hhome⟩
  | committing =>
      cases hstep
      have hnot : (ghosts who).role ≠ .outside := by simp [hrule.1]
      refine ⟨_, hrule.2 _, h.setRole (fun _ other hother => h.outside_of_ne hnot hother)
        (fun hidle => ?_) fun k => rfl⟩
      exact absurd (h.busy hidle who) hnot
  | endTrans =>
      cases hstep
      have hnot : (ghosts who).role ≠ .outside := by simp [hrule.1]
      refine ⟨_, hrule.2, h.setRole (fun hrole => absurd rfl hrole)
        (fun _ => ⟨rfl, fun other hother => h.outside_of_ne hnot hother⟩) fun k => ?_⟩
      cases hwritten : kernel.written k with
      | none => rfl
      | some data =>
          obtain ⟨other, hother⟩ := h.inTrans k data hwritten
          obtain rfl : who = other := h.single who other hnot (by simp [hother])
          rw [hrule.1] at hother
          cases hother
  | panic message => cases hstep

/-! ### The calls -/

structure Between (conf : Config D) (value : Local n) (ghost : Ghost n D) : Prop where
  locked : ghost.share.locked = value.held
  modified : ghost.modified = value.modified
  subset : value.modified ⊆ value.held
  role : ghost.role = if value.inTrans then .inTrans else .outside
  home : ∀ b ∈ value.held, (ghost.share.key b).1 = rootDev ∧ ¬conf.InLog (ghost.share.key b).2
  valid : ∀ b ∈ value.held, (ghost.share.content b).valid = true

namespace Between

variable {value : Local n} {ghost after : Ghost n D} {b : Fin n}

theorem keeps (h : Between conf value ghost) (hkeeps : ghost.Keeps after) :
    Between conf value after where
  locked := hkeeps.share.locked.trans h.locked
  modified := hkeeps.modified.trans h.modified
  subset := h.subset
  role := hkeeps.role.trans h.role
  home b hb := by
    rw [hkeeps.share.key b (h.locked ▸ hb)]
    exact h.home b hb
  valid b hb := by
    rw [hkeeps.share.content b (h.locked ▸ hb)]
    exact h.valid b hb

theorem modified_subset (h : Between conf value ghost) : ghost.modified ⊆ ghost.share.locked := by
  rw [h.locked, h.modified]
  exact h.subset

theorem bread (h : Between conf value ghost) {blockno : Nat} (hhome : ¬conf.InLog blockno) :
    (Legacy.bread conf rootDev blockno).wp (rule conf) ghost fun b after =>
      Between conf { value with held := insert b value.held } after := by
  refine Program.wp_mono rule_monotone ?_ (bread_spec ghost rootDev blockno)
  rintro b after ⟨content, hvalid, htakes⟩
  refine ⟨htakes.share.locked.trans (congrArg _ h.locked), htakes.modified.trans h.modified,
    h.subset.trans (Finset.subset_insert _ _), htakes.role.trans h.role, fun b' hb' => ?_,
    fun b' hb' => ?_⟩
  · obtain rfl | hb' := Finset.mem_insert.mp hb'
    · rw [htakes.share.key_self]
      exact ⟨rfl, hhome⟩
    · rw [htakes.share.key b' (h.locked ▸ hb')]
      exact h.home b' hb'
  · obtain rfl | hb' := Finset.mem_insert.mp hb'
    · rw [htakes.share.content_self]
      exact hvalid
    · rw [htakes.share.content b' (h.locked ▸ hb')]
      exact h.valid b' hb'

theorem store_valid (h : Between conf value ghost) {content : Content D}
    (hvalid : content.valid = true) {b' : Fin n} (hb' : b' ∈ value.held) :
    ((ghost.share.store b content).content b').valid = true := by
  by_cases hb : b' = b
  · subst hb
    simpa [Share.store] using hvalid
  · simpa [Share.store, hb] using h.valid b' hb'

theorem modify (h : Between conf value ghost) (hin : value.inTrans = true) (hheld : b ∈ value.held)
    (data : D) : (setData b data).wp (rule conf) ghost fun _ after =>
      Between conf { value with modified := insert b value.modified } after := by
  have hlocked : b ∈ ghost.share.locked := h.locked ▸ hheld
  have hrole : ghost.role = .inTrans := by simp [h.role, hin]
  simp only [setData, Program.wp_bind, wp_content, wp_setContent]
  refine ⟨hlocked, hlocked, Or.inr ⟨hrole, trivial, trivial, ?_⟩⟩
  exact ⟨h.locked, congrArg (insert b) h.modified, Finset.insert_subset hheld h.subset, h.role,
    h.home, fun b' hb' => h.store_valid (by exact h.valid b hheld) hb'⟩

theorem logWrite (h : Between conf value ghost) (hin : value.inTrans = true)
    (hheld : b ∈ value.held) : (Legacy.logWrite conf b).wp (rule conf) ghost fun _ after =>
      Between conf { value with modified := value.modified.erase b } after := by
  have hlocked : b ∈ ghost.share.locked := h.locked ▸ hheld
  have hrole : ghost.role = .inTrans := by simp [h.role, hin]
  obtain ⟨hdev, hhome⟩ := h.home b hheld
  refine Program.wp_mono rule_monotone (fun _ after hkeeps => ?_)
    (logWrite_spec hrole h.modified_subset hlocked (h.valid b hheld) hdev hhome)
  refine keeps ?_ hkeeps
  exact ⟨h.locked, congrArg (fun modified : Finset (Fin n) => modified.erase b) h.modified,
    (Finset.erase_subset _ _).trans h.subset, h.role, h.home,
    fun b' hb' => h.store_valid (by exact h.valid b hheld) hb'⟩

theorem brelse (h : Between conf value ghost) (hheld : b ∈ value.held)
    (hclean : b ∉ value.modified) : (Legacy.brelse b).wp (rule conf) ghost fun _ after =>
      Between conf { value with held := value.held.erase b } after := by
  refine Program.wp_mono rule_monotone ?_
    (brelse_spec (h.locked ▸ hheld) (h.modified ▸ hclean))
  rintro _ _ rfl
  refine ⟨congrArg (fun held : Finset (Fin n) => held.erase b) h.locked, h.modified,
    fun b' hb' => ?_, h.role, fun b' hb' => h.home b' (Finset.mem_of_mem_erase hb'),
    fun b' hb' => h.valid b' (Finset.mem_of_mem_erase hb')⟩
  refine Finset.mem_erase.mpr ⟨?_, h.subset hb'⟩
  rintro rfl
  exact hclean hb'

end Between

theorem menu_sound :
    Threads.MenuSound (fun (_ : ι) call value => menu conf value call)
      (rule conf : Rule (sections n D) (Ghost n D)) fun _ => Between conf := by
  intro who call value program ghost hcall h
  cases call with
  | beginTrans =>
      simp only [menu] at hcall
      split at hcall
      · cases hcall
      · next hout =>
          cases hcall
          have hrole : ghost.role = .outside := by simpa [hout] using h.role
          simp only [Program.wp_bind, wp_beginTrans, Program.wp_pure]
          exact ⟨hrole, h.locked, h.modified, h.subset, rfl, h.home, h.valid⟩
  | bread blockno =>
      simp only [menu] at hcall
      split at hcall
      · cases hcall
      · next hhome =>
          cases hcall
          simp only [Program.wp_bind, Program.wp_pure]
          exact h.bread hhome
  | modify b data =>
      simp only [menu] at hcall
      split at hcall
      · next hheld =>
          cases hcall
          simp only [Program.wp_bind, Program.wp_pure]
          exact h.modify hheld.1 hheld.2 data
      · cases hcall
  | logWrite b =>
      simp only [menu] at hcall
      split at hcall
      · next hheld =>
          cases hcall
          simp only [Program.wp_bind, Program.wp_pure]
          exact h.logWrite hheld.1 hheld.2
      · cases hcall
  | brelse b =>
      simp only [menu] at hcall
      split at hcall
      · next hheld =>
          cases hcall
          simp only [Program.wp_bind, Program.wp_pure]
          exact h.brelse hheld.1 hheld.2
      · cases hcall
  | commitTrans =>
      simp only [menu] at hcall
      split at hcall
      · next hin =>
          cases hcall
          simp only [Program.wp_bind, Program.wp_pure]
          have hrole : ghost.role = .inTrans := by simpa [hin.1] using h.role
          refine Program.wp_mono rule_monotone (fun _ after hkeeps => ?_)
            (commitTrans_spec hrole h.modified_subset)
          refine Between.keeps ?_ hkeeps
          exact ⟨h.locked, h.modified, h.subset, rfl, h.home, h.valid⟩
      · cases hcall

/-! ### Runs -/

/-- A kernel that has recovered its log: no buffer in use, no transaction. -/
structure Booted (kernel : Kernel n ι D) : Prop where
  sharing : Sharing kernel.cache (fun _ => Share.idle fun b => (kernel.cache.buf b).content)
    fun _ => 0
  idle : kernel.busy = false
  written : ∀ k, kernel.written k = none

theorem Booted.binit [Inhabited D] (memdisk : Nat → D) (lh : Logheader) :
    Booted (⟨.binit, memdisk, false, lh, fun _ => none⟩ : Kernel n ι D) :=
  ⟨Sharing.binit _, rfl, fun _ => rfl⟩

/-- What a written block and its buffer look like, and what a process that has the buffer from
`bread`, and has not changed it since, reads in it. -/
def ReadsWritten (world : Threads (sections n D) (Kernel n ι D) ι (Local n)) : Prop :=
  (∀ k data, world.shared.written k = some data → ∃ b,
    (world.shared.cache.buf b).key = (rootDev, k) ∧
      (world.shared.cache.buf b).content.valid = true) ∧
  ∀ who value b, world.thread who = .ret value → b ∈ value.held → b ∉ value.modified →
    ∀ data, world.shared.written (world.shared.cache.buf b).blockno = some data →
      (world.shared.cache.buf b).content.data = data

/-- **Read your own writes.** Where `bget` never recycles a dirty buffer, every `bread` of a block
that the transaction has logged returns what it logged last. -/
theorem readsWritten_of_run {kernel : Kernel n ι D} (hboot : Booted kernel)
    {actions : List (Threads.Action ι (Call n D) Empty)}
    {world : Threads (sections n D) (Kernel n ι D) ι (Local n)}
    (halong : Transition.Along (Threads.step (system conf)) (Threads.Meets RecyclesClean)
      (boot kernel) actions)
    (hrun : Transition.run (Threads.step (system conf)) (boot kernel) actions = some world) :
    ReadsWritten world := by
  have hstart : Threads.Verified (rule conf) (Inv conf) (fun _ => Between conf) (boot kernel) := by
    refine ⟨fun _ => ⟨Share.idle fun b => (kernel.cache.buf b).content, ∅, .outside⟩,
      ⟨hboot.sharing, fun _ => Finset.Subset.refl _, fun _ _ hrole => absurd rfl hrole,
        fun _ _ => rfl, fun k data hwritten => ?_, fun k data hwritten => ?_⟩, fun who => ?_⟩
    · exact absurd ((hboot.written k).symm.trans hwritten) (by simp)
    · exact absurd ((hboot.written k).symm.trans hwritten) (by simp)
    · exact ⟨rfl, rfl, Finset.Subset.refl _, rfl, by simp, by simp⟩
  obtain ⟨ghosts, hinv, hthreads⟩ := Threads.sound handler_sound (fun _ event => nomatch event)
    menu_sound hstart halong hrun
  refine ⟨fun k data hwritten => ?_, fun who value b hthread hheld hclean data hwritten => ?_⟩
  · obtain ⟨-, b, hkey, hvalid, -⟩ := hinv.kept k data hwritten
    exact ⟨b, hkey, hvalid⟩
  · have hbetween := hthreads who
    rw [hthread, Program.wp_ret] at hbetween
    have hlocked : b ∈ (ghosts who).share.locked := hbetween.locked ▸ hheld
    obtain ⟨-, b', hkey', -, -, hdata⟩ := hinv.kept _ data hwritten
    have hdev : (world.shared.cache.buf b).dev = rootDev := by
      rw [← (hbetween.home b hheld).1, ← hinv.sharing.key_of_locked hlocked]
      rfl
    have hkey : (world.shared.cache.buf b).key = (world.shared.cache.buf b').key := by
      rw [hkey', Buf.key, hdev]
    obtain rfl := hinv.sharing.unique b b' (by simp [hdev, rootDev]) hkey
    refine hdata fun other hmem => ?_
    obtain rfl := hinv.sharing.eq_of_locked hlocked (hinv.modified other hmem)
    exact hclean (hbetween.modified ▸ hmem)

/-! ### Two runs -/

/-- A process makes a call and takes all the steps of its program. -/
def call {n : Nat} (request : Call n Nat) (steps : Nat) :
    List (Threads.Action Unit (Call n Nat) Empty) :=
  .start () request :: List.replicate steps (.perform () 0)

def smallConf : Config Nat := ⟨2, 10, 1000, fun lh _ => lh.n⟩

def smallKernel (n : Nat) : Kernel n Unit Nat :=
  ⟨.binit, fun _ => 0, false, ⟨0, fun _ => 0⟩, fun _ => none⟩

/-- A transaction changes block 100 to `7` and logs it. -/
def logOne (n : Nat) [NeZero n] : List (Threads.Action Unit (Call n Nat) Empty) :=
  call .beginTrans 1 ++ call (.bread 100) 8 ++ call (.modify 0 7) 2 ++ call (.logWrite 0) 28 ++
    call (.brelse 0) 3

theorem readsWritten_of_run_logOne :
    ∃ world, Transition.run (Threads.step (system smallConf)) (boot (smallKernel 3)) (logOne 3) =
      some world ∧ ReadsWritten world := by
  have halong : Transition.Along (Threads.step (system smallConf)) (Threads.Meets RecyclesClean)
      (boot (smallKernel 3)) (logOne 3) := by
    decide +kernel
  have hrun : (Transition.run (Threads.step (system smallConf)) (boot (smallKernel 3))
      (logOne 3)).isSome := by
    decide +kernel
  obtain ⟨world, hworld⟩ := Option.isSome_iff_exists.mp hrun
  exact ⟨world, hworld, readsWritten_of_run (Booted.binit _ _) halong hworld⟩

def logAndRead : List (Threads.Action Unit (Call nbuf Nat) Empty) :=
  logOne nbuf ++ [2, 3, 4, 5, 6, 7, 8, 9, 1, 0].flatMap (fun b : Fin nbuf =>
    call (.bread (200 + b)) 8 ++ call (.brelse b) 3) ++ call (.bread 100) 8

theorem not_readsWritten_logAndRead :
    ¬ ∀ actions world,
      Transition.run (Threads.step (system smallConf)) (boot (smallKernel nbuf)) actions =
        some world → ReadsWritten world := by
  have hrun : ∃ world ∈ Transition.run (Threads.step (system smallConf)) (boot (smallKernel nbuf))
      logAndRead, (match world.thread () with
        | .ret value => decide (2 ∈ value.held ∧ 2 ∉ value.modified)
        | .call _ _ => false) = true ∧
      world.shared.written (world.shared.cache.buf 2).blockno = some 7 ∧
        (world.shared.cache.buf 2).content.data = 0 := by
    decide +kernel
  intro hreads
  obtain ⟨world, hworld, hthread, hwritten, hdata⟩ := hrun
  cases hvalue : world.thread () with
  | call op next => simp [hvalue] at hthread
  | ret value =>
      have hheld : 2 ∈ value.held ∧ 2 ∉ value.modified := by simpa [hvalue] using hthread
      have hread := (hreads _ world hworld).2 () value 2 hvalue hheld.1 hheld.2 7 hwritten
      rw [hdata] at hread
      cases hread

end Xv6.Legacy
