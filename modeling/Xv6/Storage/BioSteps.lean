import Xv6.Storage.BioInvariant

/-!
# Every step of the buffer cache keeps its invariant

One lemma per section of `bio.c`, and the statement about all interleavings assembled from them.
-/

set_option linter.unusedSectionVars false

namespace Xv6.Bio

variable {n : Nat} {ι : Type} [DecidableEq ι] [Fintype ι]

def Proc.Has (proc : Proc n) (b : Fin n) : Prop := b ∈ proc.held ∨ proc.pc = .reading b

instance (proc : Proc n) (b : Fin n) : Decidable (proc.Has b) :=
  inferInstanceAs (Decidable (b ∈ proc.held ∨ proc.pc = .reading b))

namespace Inv

variable {state next : State n ι} {nodes nodes' : List (Fin n)} {who : ι} {b : Fin n}

theorem update (h : Inv state nodes) {changed : Proc n} {buf : Buf ι Bool}
    (hproc : next.proc = Function.update state.proc who changed)
    (hbuf : next.cache.buf = Function.update state.cache.buf b buf)
    (hpins : next.pins = state.pins) (hring : next.cache.list.IsRing nodes')
    (hcomplete : ∀ b', b' ∈ nodes')
    (hids : Identities (Function.update state.cache.buf b buf) next.released nodes')
    (hclock : ∀ b', next.released b' ≤ next.clock)
    (hrefcnt : buf.refcnt + (state.proc who).uses b = (state.cache.buf b).refcnt + changed.uses b)
    (huses : ∀ b', b' ≠ b → changed.uses b' = (state.proc who).uses b')
    (howner : ∀ other, buf.owner = some other ↔
      (Function.update state.proc who changed other).Has b)
    (hhas : ∀ b', b' ≠ b → (changed.Has b' ↔ (state.proc who).Has b'))
    (hnotHeld : ∀ b', changed.pc = .reading b' → b' ∉ changed.held)
    (hvalid : buf.content = false → 0 < buf.refcnt ∧ Unfilled next b)
    (hunfilled : ∀ b', b' ≠ b → Unfilled state b' →
      b' ∉ changed.held ∧ changed.pc ≠ .releasing b') : Inv next nodes' where
  ring := hring
  complete := hcomplete
  refcnt b' := by
    have htotal := totalUses_update state.proc who changed b'
    have hbefore := h.refcnt b'
    rw [hproc, hbuf, hpins]
    by_cases hb : b' = b
    · subst hb
      rw [Function.update_self]
      omega
    · have hsame := huses b' hb
      rw [Function.update_of_ne hb]
      omega
  owner other b' := by
    rw [hproc, hbuf]
    by_cases hb : b' = b
    · subst hb
      rw [Function.update_self]
      exact howner other
    · rw [Function.update_of_ne hb]
      by_cases hother : other = who
      · subst hother
        rw [Function.update_self]
        exact (h.owner other b').trans (hhas b' hb).symm
      · rw [Function.update_of_ne hother]
        exact h.owner other b'
  notHeld other b' := by
    rw [hproc]
    by_cases hother : other = who
    · subst hother
      rw [Function.update_self]
      exact hnotHeld b'
    · rw [Function.update_of_ne hother]
      exact h.notHeld other b'
  ids := hbuf ▸ hids
  invalid b' hb' := by
    by_cases hb : b' = b
    · subst hb
      rw [hbuf, Function.update_self] at hb' ⊢
      exact Or.inr (hvalid hb')
    · rw [hbuf, Function.update_of_ne hb] at hb' ⊢
      refine (h.invalid b' hb').imp_right fun ⟨hpos, hbefore⟩ => ⟨hpos, ?_, fun other => ?_⟩
      · rw [hpins]
        exact hbefore.1
      · rw [hproc]
        by_cases hother : other = who
        · subst hother
          rw [Function.update_self]
          exact hunfilled b' hb hbefore
        · rw [Function.update_of_ne hother]
          exact hbefore.2 other
  clock := hclock

theorem owner_iff_has (h : Inv state nodes) (other : ι) (b : Fin n) :
    (state.cache.buf b).owner = some other ↔ (state.proc other).Has b := h.owner other b

theorem owner_update (h : Inv state nodes) {changed : Proc n}
    (hhas : changed.Has b ↔ (state.proc who).Has b) (other : ι) :
    (state.cache.buf b).owner = some other ↔
      (Function.update state.proc who changed other).Has b := by
  rw [h.owner_iff_has]
  by_cases hother : other = who
  · subst hother
    rw [Function.update_self]
    exact hhas.symm
  · rw [Function.update_of_ne hother]

theorem unfilled_setProc (h : Inv state nodes) {pc : Pc n} {held : Finset (Fin n)}
    (hvalid : (state.cache.buf b).content = false) (hheld : held ⊆ (state.proc who).held)
    (hpc : pc ≠ .releasing b) (cache : Bcache n ι Bool) :
    Unfilled { state.setProc who pc held with cache } b := by
  have hunfilled : Unfilled state b := by
    obtain hzero | ⟨-, hunfilled⟩ := h.invalid b hvalid
    · exact h.unfilled_of_refcnt (by rw [hzero]; rfl)
    · exact hunfilled
  exact hunfilled.setProc (fun hmem => (hunfilled.2 who).1 (hheld hmem)) hpc cache

theorem bget_cached (h : Inv state nodes) {dev blockno : Nat}
    (hpc : (state.proc who).pc = .idle) (hcached : state.cache.cached dev blockno = some b) :
    Inv { state.setProc who (.waiting b) (state.proc who).held with
      cache := state.cache.setBuf b
        { state.cache.buf b with refcnt := (state.cache.buf b).refcnt + 1 } } nodes := by
  have hids : Identities (Function.update state.cache.buf b
      { state.cache.buf b with refcnt := (state.cache.buf b).refcnt + 1 })
      state.released nodes := by
    obtain ⟨hkey, before, after, rfl, hbefore⟩ := h.cached_spec hcached
    refine h.ids.setBuf_of_unique (Nat.succ_pos _) (fun x hx hxkey => ?_)
      (fun hzeroKey x hx hzero => ?_) h.ring.nodup
    · exact h.zero_of_cached hcached hx (hxkey.trans hkey)
    · refine hbefore x hx ?_
      rw [hzero, ← hkey]
      exact hzeroKey.symm
  refine h.update rfl rfl rfl h.ring h.complete hids h.clock ?_ (fun b' hb => ?_)
    (h.owner_update ?_) (fun b' _ => ?_) (by simp) (fun hvalid => ⟨Nat.succ_pos _, ?_⟩)
    (fun b' _ hunfilled => ⟨(hunfilled.2 who).1, by simp⟩)
  · simp [Proc.uses, hpc]
    omega
  · simp [Proc.uses, hpc, hb.symm]
  · simp [Proc.Has, hpc]
  · simp [Proc.Has, hpc]
  · exact h.unfilled_setProc hvalid (Finset.Subset.refl _) (by simp) _

theorem bget_recycle (h : Inv state nodes) {dev blockno : Nat}
    (hpc : (state.proc who).pc = .idle) (hcached : state.cache.cached dev blockno = none)
    (hunused : state.cache.unused = some b) :
    Inv { state.setProc who (.waiting b) (state.proc who).held with
      cache := state.cache.setBuf b
        { state.cache.buf b with dev, blockno, content := false, refcnt := 1 } } nodes := by
  have hzero := (h.unused_spec hunused).1
  have hunfilled := h.unfilled_of_refcnt hzero
  have hids : Identities (Function.update state.cache.buf b
      { state.cache.buf b with dev, blockno, content := false, refcnt := 1 })
      state.released nodes := by
    obtain ⟨before, after, rfl⟩ := List.append_of_mem (h.complete b)
    refine h.ids.setBuf_of_unique Nat.one_pos (fun x _ hxkey => ?_)
      (fun hzeroKey x _ hzero => ?_) h.ring.nodup
    · exact absurd hxkey (h.key_ne_of_cached_eq_none hcached x)
    · refine h.key_ne_of_cached_eq_none hcached x ?_
      rw [hzero]
      exact hzeroKey.symm
  refine h.update rfl rfl rfl h.ring h.complete hids h.clock ?_ (fun b' hb => ?_)
    (h.owner_update ?_) (fun b' _ => ?_) (by simp) (fun _ => ⟨Nat.one_pos, ?_⟩)
    (fun b' _ hunfilled => ⟨(hunfilled.2 who).1, by simp⟩)
  · simp [Proc.uses, hpc, hzero]
  · simp [Proc.uses, hpc, hb.symm]
  · simp [Proc.Has, hpc]
  · simp [Proc.Has, hpc]
  · exact hunfilled.setProc (hunfilled.2 who).1 (by simp) _

theorem acquiresleep (h : Inv state nodes) (hpc : (state.proc who).pc = .waiting b)
    (hfree : (state.cache.buf b).owner = none) :
    Inv { state.setProc who (.reading b) (state.proc who).held with
      cache := state.cache.setBuf b { state.cache.buf b with owner := some who } } nodes := by
  have hpos := h.refcnt_pos_of_pc (Or.inl hpc)
  have hnobody : ∀ other, ¬(state.proc other).Has b := by
    intro other hhas
    rw [← h.owner_iff_has, hfree] at hhas
    cases hhas
  refine h.update rfl rfl rfl h.ring h.complete (h.ids.setBuf_inUse rfl hpos hpos) h.clock ?_
    (fun b' hb => ?_) (fun other => ?_) (fun b' hb => ?_) (fun b' hreading hheld => ?_)
    (fun hvalid => ⟨hpos, ?_⟩) (fun b' _ hunfilled => ⟨(hunfilled.2 who).1, by simp⟩)
  · simp [Proc.uses, hpc]
  · simp [Proc.uses, hpc, hb.symm]
  · by_cases hother : other = who
    · subst hother
      simp [Proc.Has]
    · rw [Function.update_of_ne hother]
      have hne : who ≠ other := Ne.symm hother
      simp [hnobody, hne]
  · simp [Proc.Has, hpc, hb.symm]
  · obtain rfl : b = b' := by simpa using hreading
    exact hnobody who (Or.inl hheld)
  · exact h.unfilled_setProc hvalid (Finset.Subset.refl _) (by simp) _

theorem bread (h : Inv state nodes) (hpc : (state.proc who).pc = .reading b) :
    Inv { state.setProc who .idle (insert b (state.proc who).held) with
      cache := fill state.cache b } nodes := by
  have hpos := h.refcnt_pos_of_pc (Or.inr (Or.inl hpc))
  have hheld := h.notHeld who b hpc
  have hfill : fill state.cache b =
      state.cache.setBuf b { state.cache.buf b with content := true } := by
    unfold fill
    split
    · next hvalid =>
        have hsame : { state.cache.buf b with content := true } = state.cache.buf b := by
          rw [← hvalid]
        rw [hsame, Bcache.setBuf, Function.update_eq_self]
    · rfl
  have hids : Identities (Function.update state.cache.buf b
      { state.cache.buf b with content := true }) state.released nodes :=
    h.ids.setBuf_inUse rfl hpos hpos
  refine h.update rfl (congrArg Bcache.buf hfill) rfl (hfill ▸ h.ring) h.complete
    hids h.clock ?_ (fun b' hb => ?_) (h.owner_update ?_)
    (fun b' hb => ?_) (by simp) (by simp) (fun b' hb hunfilled => ⟨?_, by simp⟩)
  · simp [Proc.uses, hpc, hheld]
  · simp [Proc.uses, hpc, hb, hb.symm]
  · simp [Proc.Has, hpc]
  · simp [Proc.Has, hpc, hb, hb.symm]
  · simpa [hb] using (hunfilled.2 who).1

theorem releasesleep (h : Inv state nodes) (hpc : (state.proc who).pc = .idle)
    (hheld : b ∈ (state.proc who).held) :
    Inv { state.setProc who (.releasing b) ((state.proc who).held.erase b) with
      cache := state.cache.releasesleep b } nodes := by
  have hpos := h.refcnt_pos_of_held hheld
  have howned := (h.owner who b).mpr (Or.inl hheld)
  refine h.update rfl rfl rfl h.ring h.complete (h.ids.setBuf_inUse rfl hpos hpos) h.clock ?_
    (fun b' hb => ?_) (fun other => ?_) (fun b' hb => ?_) (by simp)
    (fun hvalid => ?_) (fun b' hb hunfilled => ⟨?_, ?_⟩)
  · simp [Proc.uses, hpc, hheld]
  · simp [Proc.uses, hpc, hb, hb.symm]
  · by_cases hother : other = who
    · subst hother
      simp [Proc.Has]
    · rw [Function.update_of_ne hother, ← h.owner_iff_has, howned]
      have hne : who ≠ other := Ne.symm hother
      simp [hne]
  · simp [Proc.Has, hpc, hb]
  · obtain hzero | ⟨-, hunfilled⟩ := h.invalid b hvalid
    · exact absurd hzero (Identities.ne_zero_of_refcnt hpos)
    · exact absurd hheld (hunfilled.2 who).1
  · simpa [hb] using (hunfilled.2 who).1
  · simpa using hb.symm

theorem brelse (h : Inv state nodes) (hpc : (state.proc who).pc = .releasing b) :
    ∃ nodes', Inv { state.setProc who .idle (state.proc who).held with
      cache := state.cache.brelse b
      clock := state.clock + 1
      released := Function.update state.released b (state.clock + 1) } nodes' := by
  have hpos := h.refcnt_pos_of_pc (Or.inr (Or.inr hpc))
  have hvalid : (state.cache.buf b).content = true := by
    by_contra hvalid
    obtain hzero | ⟨-, hunfilled⟩ := h.invalid b (by simpa using hvalid)
    · exact Identities.ne_zero_of_refcnt hpos hzero
    · exact (hunfilled.2 who).2 hpc
  have hbuf : (state.cache.brelse b).buf = Function.update state.cache.buf b
      { state.cache.buf b with refcnt := (state.cache.buf b).refcnt - 1 } := by
    unfold Bcache.brelse
    dsimp only
    split <;> rfl
  have hlist : (state.cache.brelse b).list = if (state.cache.buf b).refcnt - 1 = 0 then
      state.cache.list.moveToFront b else state.cache.list := by
    simp only [Bcache.brelse, Bcache.setBuf_buf_self]
    split <;> rfl
  have hclock : ∀ b', Function.update state.released b (state.clock + 1) b' ≤ state.clock + 1 := by
    intro b'
    by_cases hb : b' = b
    · subst hb
      rw [Function.update_self]
    · rw [Function.update_of_ne hb]
      exact (h.clock b').trans (Nat.le_succ _)
  by_cases hlast : (state.cache.buf b).refcnt - 1 = 0
  · have hids : Identities (Function.update state.cache.buf b
        { state.cache.buf b with refcnt := (state.cache.buf b).refcnt - 1 })
        (Function.update state.released b (state.clock + 1)) (b :: nodes.erase b) := by
      refine h.ids.setBuf_release ?_ hpos (fun hzero => ?_) h.clock (h.complete b) h.ring.nodup
      · rfl
      have hinvalid := congrArg Buf.content hzero
      simp [Buf.zero, hvalid] at hinvalid
    refine ⟨b :: nodes.erase b, h.update rfl hbuf rfl ?_ (fun b' => ?_) hids hclock ?_
      (fun b' hb => ?_) (h.owner_update ?_) (fun b' _ => ?_) (by simp) (by simp [hvalid])
      (fun b' _ hunfilled => ⟨(hunfilled.2 who).1, by simp⟩)⟩
    · simpa [hlist, hlast] using h.ring.moveToFront (h.complete b)
    · by_cases hb : b' = b
      · exact List.mem_cons.mpr (Or.inl hb)
      · exact List.mem_cons.mpr (Or.inr ((List.mem_erase_of_ne hb).mpr (h.complete b')))
    · simp [Proc.uses, hpc]
      omega
    · simp [Proc.uses, hpc, hb.symm]
    · simp [Proc.Has, hpc]
    · simp [Proc.Has, hpc]
  · have hids : Identities (Function.update state.cache.buf b
        { state.cache.buf b with refcnt := (state.cache.buf b).refcnt - 1 })
        (Function.update state.released b (state.clock + 1)) nodes := by
      refine (h.ids.setBuf_inUse ?_ hpos (Nat.pos_of_ne_zero hlast)).update_released ?_ _
      · rfl
      rw [Function.update_self]
      exact Nat.pos_of_ne_zero hlast
    refine ⟨nodes, h.update rfl hbuf rfl ?_ h.complete hids hclock ?_
      (fun b' hb => ?_) (h.owner_update ?_) (fun b' _ => ?_) (by simp) (by simp [hvalid])
      (fun b' _ hunfilled => ⟨(hunfilled.2 who).1, by simp⟩)⟩
    · simpa [hlist, hlast] using h.ring
    · simp [Proc.uses, hpc]
      omega
    · simp [Proc.uses, hpc, hb.symm]
    · simp [Proc.Has, hpc]
    · simp [Proc.Has, hpc]

theorem pin (h : Inv state nodes) {buf : Buf ι Bool} {pins : Nat} (hheld : b ∈ (state.proc who).held)
    (hbuf : buf = { state.cache.buf b with refcnt := buf.refcnt })
    (hrefcnt : buf.refcnt = totalUses state.proc b + pins) :
    Inv { state with
      cache := state.cache.setBuf b buf
      pins := Function.update state.pins b pins } nodes := by
  have hbefore := h.refcnt_pos_of_held hheld
  have hafter : 0 < buf.refcnt := by
    have huses := uses_le_totalUses state.proc who b
    rw [Proc.uses, if_pos hheld] at huses
    omega
  have hkey : buf.key = (state.cache.buf b).key := by rw [hbuf]; rfl
  refine ⟨h.ring, h.complete, fun b' => ?_, fun other b' => ?_, h.notHeld,
    h.ids.setBuf_inUse hkey hbefore hafter, fun b' hvalid => ?_, h.clock⟩
  · by_cases hb : b' = b
    · subst hb
      simpa using hrefcnt
    · simpa [hb] using h.refcnt b'
  · by_cases hb : b' = b
    · subst hb
      have howner : buf.owner = (state.cache.buf b').owner := by rw [hbuf]
      simpa [howner] using h.owner other b'
    · simpa [hb] using h.owner other b'
  · by_cases hb : b' = b
    · subst hb
      have hsame : buf.content = (state.cache.buf b').content := by rw [hbuf]
      obtain hzero | ⟨-, hunfilled⟩ := h.invalid b' (by simpa [hsame] using hvalid)
      · exact absurd hzero (Identities.ne_zero_of_refcnt hbefore)
      · exact absurd hheld (hunfilled.2 who).1
    · obtain hzero | hunfilled := h.invalid b' (by simpa [hb] using hvalid)
      · left
        simpa [hb] using hzero
      · right
        obtain ⟨hpos, hpins, hprocs⟩ := hunfilled
        refine ⟨?_, ?_, hprocs⟩
        · simpa [hb] using hpos
        · simpa [hb] using hpins

theorem start : Inv (start : State n ι) (List.finRange n).reverse where
  ring := by
    have hnodup : ((List.finRange n).reverse ++ []).Nodup := by simp [List.nodup_finRange]
    have hring := LinkedRing.IsRing.empty.foldl_pushFront hnodup
    rwa [List.append_nil] at hring
  complete b := by simp
  refcnt b := by simp [Bio.start, Bcache.binit, Buf.zero, totalUses, Proc.uses]
  owner who b := by simp [Bio.start, Bcache.binit, Buf.zero]
  notHeld who b := by simp [Bio.start]
  ids := ⟨fun _ _ _ => Or.inr (Or.inl rfl), List.pairwise_of_forall fun _ _ _ _ => rfl,
    List.pairwise_of_forall fun _ _ _ _ => Or.inr rfl⟩
  invalid b _ := Or.inl rfl
  clock b := Nat.zero_le _

theorem step (h : Inv state nodes) {action : Action n ι} (hstep : Bio.step state action = some next) :
    ∃ nodes', Inv next nodes' := by
  cases action with
  | bget who dev blockno =>
      simp only [Bio.step] at hstep
      split at hstep
      · next hpc =>
          obtain ⟨result, hbget, rfl⟩ := Option.map_eq_some_iff.mp hstep
          unfold Bcache.bget at hbget
          split at hbget
          · next b hcached =>
              cases hbget
              exact ⟨nodes, h.bget_cached hpc hcached⟩
          · next hcached =>
              split at hbget
              · next b hunused =>
                  cases hbget
                  exact ⟨nodes, h.bget_recycle hpc hcached hunused⟩
              · cases hbget
      · cases hstep
  | acquiresleep who =>
      simp only [Bio.step] at hstep
      split at hstep
      · next b hpc =>
          obtain ⟨cache, hacquire, rfl⟩ := Option.map_eq_some_iff.mp hstep
          unfold Bcache.acquiresleep at hacquire
          split at hacquire
          · cases hacquire
          · next hfree =>
              cases hacquire
              exact ⟨nodes, h.acquiresleep hpc (by simpa using hfree)⟩
      · cases hstep
  | bread who =>
      simp only [Bio.step] at hstep
      split at hstep
      · next b hpc =>
          cases hstep
          exact ⟨nodes, h.bread hpc⟩
      · cases hstep
  | bwrite who b =>
      simp only [Bio.step] at hstep
      split at hstep
      · cases hstep
        exact ⟨nodes, h⟩
      · cases hstep
  | releasesleep who b =>
      simp only [Bio.step] at hstep
      split at hstep
      · next hholds =>
          cases hstep
          exact ⟨nodes, h.releasesleep hholds.1 hholds.2.1⟩
      · cases hstep
  | brelse who =>
      simp only [Bio.step] at hstep
      split at hstep
      · next b hpc =>
          cases hstep
          exact h.brelse hpc
      · cases hstep
  | bpin who b =>
      simp only [Bio.step] at hstep
      split at hstep
      · next hholds =>
          cases hstep
          refine ⟨nodes, h.pin hholds.2 rfl ?_⟩
          have hrefcnt := h.refcnt b
          simp only
          omega
      · cases hstep
  | bunpin who b =>
      simp only [Bio.step] at hstep
      split at hstep
      · next hholds =>
          cases hstep
          refine ⟨nodes, h.pin hholds.2.1 rfl ?_⟩
          have hrefcnt := h.refcnt b
          have hpins := hholds.2.2
          simp only
          omega
      · cases hstep

end Inv

theorem recycles_of_key_ne {state next : State n ι} {action : Action n ι} {b : Fin n}
    (hstep : step state action = some next)
    (hkey : (next.cache.buf b).key ≠ (state.cache.buf b).key) : state.cache.unused = some b := by
  have hkept : ∀ {buf : Buf ι Bool} {b' : Fin n}, buf.key = (state.cache.buf b').key →
      ((state.cache.setBuf b' buf).buf b).key = (state.cache.buf b).key := by
    intro buf b' hsame
    by_cases hb : b = b'
    · subst hb
      rw [Bcache.setBuf_buf_self, hsame]
    · rw [Bcache.setBuf_buf_of_ne _ _ hb]
  by_contra hunused
  refine hkey ?_
  cases action with
  | bget who dev blockno =>
      simp only [step] at hstep
      split at hstep
      · obtain ⟨result, hbget, rfl⟩ := Option.map_eq_some_iff.mp hstep
        unfold Bcache.bget at hbget
        split at hbget
        · cases hbget
          exact hkept rfl
        · split at hbget
          · next b' hunused' =>
              cases hbget
              have hne : b ≠ b' := by
                rintro rfl
                exact hunused hunused'
              simp [hne]
          · cases hbget
      · cases hstep
  | acquiresleep who =>
      simp only [step] at hstep
      split at hstep
      · obtain ⟨cache, hacquire, rfl⟩ := Option.map_eq_some_iff.mp hstep
        unfold Bcache.acquiresleep at hacquire
        split at hacquire
        · cases hacquire
        · cases hacquire
          exact hkept rfl
      · cases hstep
  | bread who =>
      simp only [step] at hstep
      split at hstep
      · cases hstep
        simp only [fill]
        split
        · rfl
        · exact hkept rfl
      · cases hstep
  | bwrite who b =>
      simp only [step] at hstep
      split at hstep <;> cases hstep
      rfl
  | releasesleep who b =>
      simp only [step] at hstep
      split at hstep <;> cases hstep
      exact hkept rfl
  | brelse who =>
      simp only [step] at hstep
      split at hstep
      · cases hstep
        simp only [Bcache.brelse]
        split <;> exact hkept rfl
      · cases hstep
  | bpin who b =>
      simp only [step] at hstep
      split at hstep <;> cases hstep
      exact hkept rfl
  | bunpin who b =>
      simp only [step] at hstep
      split at hstep <;> cases hstep
      exact hkept rfl

/-- What the users of the cache rely on, and what the next step may do to an identity. -/
structure Coherent (state : State n ι) : Prop where
  list : ∃ nodes, state.cache.list.IsRing nodes ∧ ∀ b, b ∈ nodes
  inUse : ∀ b b', 0 < (state.cache.buf b).refcnt → 0 < (state.cache.buf b').refcnt →
    (state.cache.buf b).key = (state.cache.buf b').key → b = b'
  valid : ∀ b b', (state.cache.buf b).content = true → (state.cache.buf b).refcnt = 0 → b' ≠ b →
    (state.cache.buf b').key = (state.cache.buf b).key → state.cache.buf b' = .zero
  refcnt : ∀ b, (state.cache.buf b).refcnt = (∑ who, (state.proc who).uses b) + state.pins b
  recycled : ∀ action next b, step state action = some next →
    (next.cache.buf b).key ≠ (state.cache.buf b).key → (state.cache.buf b).refcnt = 0 ∧
      ∀ b', b' ≠ b → (state.cache.buf b').refcnt = 0 →
        state.released b < state.released b' ∨ state.released b = 0
  holder : ∀ who who' b b', (state.proc who).Has b → (state.proc who').Has b' →
    (state.cache.buf b).key = (state.cache.buf b').key → who = who' ∧ b = b'

theorem Proc.Has.uses_pos {proc : Proc n} {b : Fin n} (h : proc.Has b) : 0 < proc.uses b := by
  obtain hheld | hpc := h
  · simp [Proc.uses, hheld]
  · simp [Proc.uses, hpc]

theorem Inv.coherent {state : State n ι} {nodes : List (Fin n)} (h : Inv state nodes) :
    Coherent state := by
  have hinUse : ∀ b b', 0 < (state.cache.buf b).refcnt → 0 < (state.cache.buf b').refcnt →
      (state.cache.buf b).key = (state.cache.buf b').key → b = b' := by
    intro b b' hb hb' hkey
    obtain heq | hzero | hzero := h.ids.key b b' hkey
    · exact heq
    · exact absurd hzero (Identities.ne_zero_of_refcnt hb)
    · exact absurd hzero (Identities.ne_zero_of_refcnt hb')
  have hpos : ∀ who b, (state.proc who).Has b → 0 < (state.cache.buf b).refcnt := by
    intro who b hhas
    exact hhas.uses_pos.trans_le (h.uses_le who b)
  refine ⟨⟨nodes, h.ring, h.complete⟩, hinUse, fun b b' hvalid _ hne hkey => ?_, h.refcnt,
    fun action next b hstep hkey => h.unused_spec (recycles_of_key_ne hstep hkey),
    fun who who' b b' hhas hhas' hkey => ?_⟩
  · obtain heq | hzero | hzero := h.ids.key b' b hkey
    · exact absurd heq hne
    · exact hzero
    · rw [hzero] at hvalid
      cases hvalid
  · obtain rfl := hinUse b b' (hpos who b hhas) (hpos who' b' hhas') hkey
    have howner := (h.owner_iff_has who b).mpr hhas
    rw [(h.owner_iff_has who' b).mpr hhas', Option.some.injEq] at howner
    exact ⟨howner.symm, rfl⟩

/-- **The buffer cache is coherent.** It stays so in every interleaving of its users. -/
theorem coherent_of_run {state : State n ι} {actions : List (Action n ι)}
    (hrun : Transition.run step start actions = some state) : Coherent state := by
  have hstep : ∀ (state : State n ι) (action : Action n ι) (next : State n ι),
      (∃ nodes, Inv state nodes) → step state action = some next → ∃ nodes, Inv next nodes :=
    fun _ _ _ ⟨_, h⟩ hstep => h.step hstep
  obtain ⟨nodes, h⟩ := Transition.invariant_run hstep ⟨_, Inv.start⟩ hrun
  exact h.coherent

/-- A process reads a block into the buffer `bget` picks, and is about to finish `brelse`. -/
def readBlock (dev blockno : Nat) (b : Fin 2) : List (Action 2 Unit) :=
  [.bget () dev blockno, .acquiresleep (), .bread (), .releasesleep () b]

theorem coherent_of_run_readBlock :
    ∃ state, Transition.run step start (readBlock 1 7 0) = some state ∧ Coherent state := by
  have hrun : (Transition.run step start (readBlock 1 7 0)).isSome := by decide
  obtain ⟨state, hstate⟩ := Option.isSome_iff_exists.mp hrun
  exact ⟨state, hstate, coherent_of_run hstate⟩

/-- Between the two halves of `brelse` a buffer counts a process that neither holds it nor waits for
it; and once block 0 of device 0 has been read, every buffer `binit` zeroed still carries it. -/
theorem not_exact_readBlock :
    (¬ ∀ (actions : List (Action 2 Unit)) state,
      Transition.run step start actions = some state → ∀ b, (state.cache.buf b).refcnt =
        (∑ who, if (state.proc who).Has b ∨ (state.proc who).pc = .waiting b then 1 else 0) +
          state.pins b) ∧
    ¬ ∀ (actions : List (Action 2 Unit)) state,
      Transition.run step start actions = some state → ∀ b b',
        (state.cache.buf b).content = true → (state.cache.buf b).refcnt = 0 → b' ≠ b →
          (state.cache.buf b').key ≠ (state.cache.buf b).key := by
  constructor
  · intro hexact
    have hrun : ∃ state ∈ Transition.run step start (readBlock 0 0 1), (state.cache.buf 1).refcnt ≠
        (∑ who, if (state.proc who).Has 1 ∨ (state.proc who).pc = .waiting 1 then 1 else 0) +
          state.pins 1 := by
      decide
    obtain ⟨state, hstate, hcount⟩ := hrun
    exact hcount (hexact _ state hstate 1)
  · intro hunique
    have hrun : ∃ state ∈ Transition.run step start (readBlock 0 0 1 ++ [.brelse ()]),
        (state.cache.buf 1).content = true ∧ (state.cache.buf 1).refcnt = 0 ∧
          (state.cache.buf 0).key = (state.cache.buf 1).key := by
      decide
    obtain ⟨state, hstate, hvalid, hrefcnt, hkey⟩ := hrun
    exact hunique _ state hstate 1 0 hvalid hrefcnt (by decide) hkey

end Xv6.Bio
