import Xv6.Virtio.Device

/-!
# Runs of the virtio disk

Whatever the processes, the interrupts and the device do and in whichever order, no descriptor is used twice, no
request is lost and none is done twice. What was moved, one request after the other, explains what every call of
`virtio_disk_rw` has read and written.
-/

namespace Xv6.Virtio

section Runs

variable {ι β D : Type} [DecidableEq ι] [DecidableEq β] {start : Nat → D} {state : State ι β D}
  {ghosts : ι → Ghost β} {who : ι}

/-! ### Every step keeps the invariant -/

theorem handler_sound : Threads.HandlerSound (handler : Handler (steps β) (State ι β D) ι) rule (Inv start)
    fun _ _ _ => True := by
  intro who state ghosts op choice response state' Q hinv _ hrule hstep
  unfold handler at hstep
  split at hstep
  next => cases hstep
  next hruns =>
    have hawake : state.asleep who = none := by
      rw [← Option.not_isSome_iff_eq_none]
      exact fun hasleep => hruns (Or.inr hasleep)
    have hknows := hinv.locked.knows who
    cases op with
    | acquire =>
        simp only [act] at hstep
        split at hstep
        next hfree =>
          cases hstep
          exact ⟨_, hrule.2, hinv.acquire hfree⟩
        next => cases hstep
    | release =>
        obtain ⟨hholds, hstage, hnext⟩ := hrule
        cases hstep
        exact ⟨_, hnext, hinv.leave hholds (Or.inl hstage) hinv.locked.sleeps⟩
    | allocDesc =>
        obtain ⟨hholds, hstage, hsome, hnone⟩ := hrule
        simp only [act, State.allocDesc] at hstep
        cases hfree : state.disk.firstFree with
        | none =>
            rw [hfree] at hstep
            cases hstep
            refine ⟨_, hnone, hinv.learn hholds hawake hholds rfl rfl rfl ⟨fun spare _ i hi hyes => ?_, hknows.onDisk,
              hknows.unseen⟩⟩
            exact absurd hyes (firstFree_eq_none hfree i hi)
        | some i =>
            rw [hfree] at hstep
            cases hstep
            obtain ⟨hi, hyes⟩ := firstFree_eq_some hfree
            exact ⟨_, hsome i, hinv.allocDesc hholds hawake hstage hi hyes⟩
    | freeDesc i =>
        obtain ⟨hholds, hwhich, hnext⟩ := hrule
        cases hstep
        refine ⟨_, hnext, ?_⟩
        rcases hwhich with ⟨hstage, hi⟩ | ⟨hstage, hi⟩
        · rw [hinv.freeDesc_eq hi]
          exact hinv.freeDesc_called hholds hawake hi hstage
        · rw [hinv.freeDesc_eq (List.mem_of_mem_head? hi)]
          exact hinv.freeDesc_answered hholds hawake hi hstage
    | readDesc i =>
        obtain ⟨-, hstage, hi, hnext⟩ := hrule
        cases hstep
        refine ⟨_, hnext _ _ (hinv.readDesc hi hstage), ?_⟩
        rwa [Function.update_eq_self]
    | sleep chan =>
        cases chan with
        | free =>
            obtain ⟨hholds, hstage, -, ⟨spare, hspare, hlength⟩, hnext⟩ := hrule
            cases hstep
            exact ⟨_, hnext, hinv.sleep hholds (Or.inr (Or.inl hstage))
              ⟨hstage, spare, hlength, hknows.spare spare hspare⟩⟩
        | buf b =>
            obtain ⟨hholds, hstage, ⟨write, hargs⟩, honDisk, hnext⟩ := hrule
            cases hstep
            exact ⟨_, hnext, hinv.sleep hholds (Or.inr (Or.inr hstage))
              ⟨hstage, ⟨write, hargs⟩, hknows.onDisk honDisk b write hargs⟩⟩
    | format b write i j k =>
        obtain ⟨hholds, hstage, hown, hargs, hnext⟩ := hrule
        cases hstep
        exact ⟨_, hnext, hinv.format hholds hawake hstage hown hargs⟩
    | setAvail i =>
        obtain ⟨hholds, hstage, hi, hnext⟩ := hrule
        cases hstep
        exact ⟨_, hnext, hinv.setAvail hholds hawake hstage hi⟩
    | advanceAvail =>
        obtain ⟨hholds, hstage, hnext⟩ := hrule
        cases hstep
        exact ⟨_, hnext, hinv.advanceAvail hholds hawake hstage⟩
    | notify =>
        cases hstep
        refine ⟨_, hrule, ?_⟩
        rwa [Function.update_eq_self]
    | onDisk b =>
        obtain ⟨hholds, hstage, ⟨write, hargs⟩, hyes, hno⟩ := hrule
        cases hstep
        cases hdisk : (state.buf b).disk with
        | true =>
            refine ⟨_, hyes, hinv.learn hholds hawake hholds rfl rfl rfl ⟨hknows.spare, fun _ b' write' hargs' => ?_,
              hknows.unseen⟩⟩
            obtain ⟨rfl, rfl⟩ : b = b' ∧ write = write' := by
              have heq := hargs.symm.trans hargs'
              simpa using heq
            exact hdisk
        | false => exact ⟨_, hno, hinv.answered hholds hawake hstage hargs hdisk⟩
    | clearInfo i =>
        obtain ⟨hholds, hstage, hi, hnext⟩ := hrule
        cases hstep
        exact ⟨_, hnext, hinv.clearInfo hholds hawake hstage hi⟩
    | finish =>
        obtain ⟨hholds, hstage, hown, hnext⟩ := hrule
        obtain ⟨call, hcall, heq⟩ := Option.map_eq_some_iff.mp hstep
        cases heq
        exact ⟨_, hnext, hinv.finish hholds hawake hstage hown hcall⟩
    | unseen =>
        obtain ⟨hholds, hyes, hno⟩ := hrule
        cases hstep
        by_cases hseen : state.disk.used.nread = state.disk.used.nwrite
        · have hfalse : (state.disk.used.nread != state.disk.used.nwrite) = false := by simp [hseen]
          rw [hfalse]
          refine ⟨_, hno, ?_⟩
          rwa [Function.update_eq_self]
        · have htrue : (state.disk.used.nread != state.disk.used.nwrite) = true := by simp [hseen]
          rw [htrue]
          refine ⟨_, hyes, hinv.learn hholds hawake hholds rfl rfl rfl ⟨hknows.spare, hknows.onDisk, fun _ hnil => ?_⟩⟩
          exact hseen (CircularBuffer.contents_eq_nil.mp hnil).symm
    | complete =>
        obtain ⟨hholds, hunseen, honDisk, hnext⟩ := hrule
        cases hstep
        exact ⟨_, hnext, hinv.complete hholds hawake hunseen honDisk⟩
    | rounds =>
        cases hstep
        refine ⟨_, hrule choice, ?_⟩
        rwa [Function.update_eq_self]
    | stop => cases hstep

omit [DecidableEq ι] [DecidableEq β] in
theorem ret_of_returned {world : World ι β D} (h : Returned world who = true) : world.thread who = .ret () := by
  unfold Returned at h
  cases hthread : world.thread who with
  | ret value => rfl
  | call op next =>
      rw [hthread] at h
      cases h

theorem env_sound : Threads.EnvSound
    (environment : World ι β D → Env ι β D → Option (World ι β D)) rule (Inv start) fun _ _ ghost => ghost = .idle := by
  intro world event world' hverified hstep
  obtain ⟨ghosts, hinv, hwp⟩ := hverified
  cases event with
  | virtioDiskRw who b write =>
      simp only [environment] at hstep
      split at hstep
      next hguard =>
        cases hstep
        have hidle := hwp who
        rw [ret_of_returned hguard.1, Program.wp_ret] at hidle
        refine ⟨_, hinv.begun write hidle hguard.2, fun other => ?_⟩
        by_cases hother : other = who
        · subst hother
          dsimp only
          rw [Function.update_self, Function.update_self]
          exact virtioDiskRw_spec b write
        · dsimp only
          rw [Function.update_of_ne hother, Function.update_of_ne hother]
          exact hwp other
      next => cases hstep
  | use b blockno data =>
      simp only [environment] at hstep
      split at hstep
      next hfree =>
        cases hstep
        exact ⟨ghosts, hinv.use blockno data hfree, hwp⟩
      next => cases hstep
  | rouse who =>
      cases hstep
      exact ⟨ghosts, hinv.rouse, hwp⟩
  | take =>
      obtain ⟨shared, hshared, rfl⟩ := Option.map_eq_some_iff.mp hstep
      exact ⟨ghosts, hinv.take hshared, hwp⟩
  | move k =>
      obtain ⟨shared, hshared, rfl⟩ := Option.map_eq_some_iff.mp hstep
      exact ⟨ghosts, hinv.move hshared, hwp⟩
  | answer k =>
      obtain ⟨shared, hshared, rfl⟩ := Option.map_eq_some_iff.mp hstep
      exact ⟨ghosts, hinv.answer hshared, hwp⟩

theorem menu_sound : Threads.MenuSound
    (system : Threads.System (steps β) (State ι β D) ι Unit Call (Env ι β D)).menu rule
      fun _ _ ghost => ghost = .idle := by
  rintro who call value program _ hmenu rfl
  obtain rfl := Option.some.inj hmenu
  exact virtioDiskIntr_spec

omit [DecidableEq β] in
theorem verified_boot (buf : β → Buf D) (platter : Nat → D) :
    Threads.Verified rule (Inv platter) (fun _ _ ghost => ghost = .idle) (boot buf platter : World ι β D) := by
  have htokens : (boot buf platter : World ι β D).shared.tokens = [] := by
    unfold State.tokens
    change CircularBuffer.contents (.empty 0) ++ [] ++ CircularBuffer.contents (.empty 0) = []
    rw [CircularBuffer.contents_empty]
    rfl
  have hout : Outside (.idle : Ghost β) := ⟨Or.inl rfl, rfl, rfl, rfl⟩
  refine ⟨fun _ => .idle, ⟨rfl, rfl, ?_, ?_, ?_, fun _ => rfl, rfl⟩, fun _ => rfl⟩
  · refine ⟨fun _ => rfl, fun _ => List.nodup_nil, fun _ i hi => ?_, fun hone => ?_, fun i _ => ?_⟩
    · cases hi
    · cases hone
    · exact iff_of_true rfl fun _ => List.not_mem_nil
  · refine ⟨fun _ => ⟨rfl, rfl, rfl⟩, htokens ▸ List.nodup_nil, fun i hi => ?_⟩
    rw [htokens] at hi
    cases hi
  · refine ⟨fun who => ?_, fun _ _ => hout, fun who chan hchan => ?_, fun _ => hout.knows⟩
    · exact iff_of_false Bool.false_ne_true (Option.some_ne_none who).symm
    · cases hchan

/-! ### What holds in every state -/

/-- Every descriptor is free or in one chain. -/
structure Partitioned (state : State ι β D) : Prop where
  nodup : ∀ who, (state.chain who).Nodup
  lt : ∀ who, ∀ i ∈ state.chain who, i < num
  apart : ∀ {who other i}, i ∈ state.chain who → i ∈ state.chain other → who = other
  free : ∀ i < num, state.disk.free i = true ↔ ∀ who, i ∉ state.chain who

/-- A descriptor in the rings or in the device is the first of the call that has locked the buffer it is about, and
it is there once. The rings never run over. -/
structure Exchanged (state : State ι β D) : Prop where
  nodup : state.tokens.Nodup
  room : state.disk.avail.count + state.busy.length + state.disk.used.count ≤ num
  asked : ∀ i ∈ state.tokens, ∃ who call, state.call who = some call ∧ (state.chain who).head? = some i ∧
    state.owner call.b = some who ∧ (state.disk.info i).b = some call.b ∧ (state.buf call.b).disk = true
  reads : ∀ r ∈ state.busy, ∃ who call, state.call who = some call ∧ r = request call r.head
  done : ∀ i ∈ state.disk.used.contents, (state.disk.info i).status = 0

/-- Who sleeps has a reason to. -/
structure Waited (state : State ι β D) : Prop where
  free : ∀ who, state.asleep who = some .free → ((List.range num).filter fun i => state.disk.free i).length < 3
  buf : ∀ who b, state.asleep who = some (.buf b) → (state.buf b).disk = true ∧
    ∃ i ∈ state.tokens, (state.disk.info i).b = some b ∧ (state.chain who).head? = some i

structure Intact (start : Nat → D) (state : State ι β D) : Prop where
  calm : state.panicked = none
  sense : state.broken = false
  partitioned : Partitioned state
  exchanged : Exchanged state
  waited : Waited state
  history : History start state

omit [DecidableEq β] in
theorem Inv.waited (h : Inv start state ghosts) : Waited state where
  free who hasleep := by
    obtain ⟨-, spare, hlength, hspare⟩ := h.locked.sleeps who .free hasleep
    refine Nat.lt_of_le_of_lt ?_ hlength
    refine (List.nodup_range.filter _).length_le_of_subset fun i hi => ?_
    obtain ⟨hlt, hyes⟩ := List.mem_filter.mp hi
    exact hspare i (List.mem_range.mp hlt) hyes
  buf who b hasleep := by
    obtain ⟨hstage, ⟨write, hargs⟩, hdisk⟩ := h.locked.sleeps who (.buf b) hasleep
    have hstands := h.talks.stands who
    unfold Stands at hstands
    rw [hstage] at hstands
    obtain ⟨call, i, j, k, hcalled, hown, hform, hsent⟩ := hstands
    obtain rfl : call.b = b := by
      have heq := hcalled.args.symm.trans hargs
      rw [Option.some.injEq, Prod.mk.injEq] at heq
      exact heq.1
    refine ⟨hdisk, i, ?_, hform.info, ?_⟩
    · rcases hsent with ⟨-, havail | hbusy | hused⟩ | ⟨hdone, -⟩
      · exact mem_tokens_of_avail havail.2
      · exact mem_tokens_of_busy hbusy
      · exact mem_tokens_of_used hused.2.2
      · cases hdone.symm.trans hdisk
    · rw [h.chains.chain, hown]
      rfl

omit [DecidableEq β] in
theorem Inv.exchanged (h : Inv start state ghosts) : Exchanged state where
  nodup := h.talks.nodup
  room := count_add_le ▸ h.length_tokens_le
  asked i hi := by
    obtain ⟨who, call, hasked⟩ := h.talks.asked hi
    obtain ⟨j, k, hown, hform⟩ := hasked.own
    refine ⟨who, call, hasked.called.going, ?_, hasked.called.owner, hform.info, hasked.disk⟩
    rw [h.chains.chain, hown]
    rfl
  reads r hr := by
    obtain ⟨who, call, hasked⟩ := h.talks.asked (mem_tokens_of_busy hr)
    exact ⟨who, call, hasked.called.going, hasked.of_busy h.talks hr⟩
  done i hi := by
    obtain ⟨who, call, hasked⟩ := h.talks.asked (mem_tokens_of_used hi)
    exact (hasked.of_used h.talks hi).2

omit [DecidableEq β] in
theorem Inv.intact (h : Inv start state ghosts) : Intact start state where
  calm := h.calm
  sense := h.sense
  partitioned :=
    { nodup := fun who => h.chains.chain who ▸ h.chains.nodup who
      lt := fun who => h.chains.chain who ▸ h.chains.lt who
      apart := fun {who other i} hone hother => by
        rw [h.chains.chain] at hone hother
        exact h.chains.apart hone hother
      free := fun i hi => by
        rw [h.chains.free i hi]
        exact forall_congr' fun who => by rw [h.chains.chain] }
  exchanged := h.exchanged
  waited := h.waited
  history := h.history

/-- **The virtio disk**, along every run: nobody panics, the device reads only requests that make sense, every
descriptor is free or in one chain, every request is once in the rings or in the device, whoever sleeps has a
reason, and each call that has ended has had its data moved once. -/
theorem served_of_run (buf : β → Buf D) (platter : Nat → D) {actions : List (Threads.Action ι Call (Env ι β D))}
    {world : World ι β D} (hrun : Transition.run (Threads.step system) (boot buf platter) actions = some world) :
    Intact platter world.shared := by
  obtain ⟨ghosts, hinv, -⟩ :=
    Threads.sound_run handler_sound env_sound menu_sound (verified_boot buf platter) hrun
  exact hinv.intact

end Runs

/-- A process writes a block: it fills the ring and sleeps, the device does the request, and the interrupt wakes the
process. -/
def writeBlock : List (Threads.Action Bool Call (Env Bool Unit Nat)) :=
  .env (.virtioDiskRw true () true) :: .perform true 0 :: .perform true 1 :: List.replicate 7 (.perform true 0) ++
  .perform true 2 :: .perform true 0 :: .perform true 0 ::
  [.env .take, .env (.move 0), .env (.answer 0), .start false .virtioDiskIntr, .perform false 0, .perform false 2] ++
  List.replicate 4 (.perform false 0) ++ List.replicate 3 (.perform true 0) ++
  .perform true 3 :: List.replicate 8 (.perform true 0)

theorem served_of_run_writeBlock : ∃ world : World Bool Unit Nat,
    Transition.run (Threads.step system) (boot (fun _ => ⟨false, 5, 7⟩) fun _ => 0) writeBlock = some world ∧
      world.shared.platter 10 = 7 ∧ Returned world true = true ∧ Intact (fun _ => 0) world.shared := by
  have hrun : ((Transition.run (Threads.step system) (boot (fun _ => ⟨false, 5, 7⟩) fun _ => 0 : World Bool Unit Nat)
      writeBlock).map fun world => (world.shared.platter 10, Returned world true)) = some (7, true) := by decide +kernel
  obtain ⟨world, hworld, heq⟩ := Option.map_eq_some_iff.mp hrun
  obtain ⟨hplatter, hreturned⟩ := Prod.mk.inj heq
  exact ⟨world, hworld, hplatter, hreturned, served_of_run _ _ hworld⟩

end Xv6.Virtio
