import Xv6.Virtio.Invariant

/-!
# The steps of the driver

Each keeps the invariant. A step under `vdisk_lock` concerns the descriptors and the buffer of its own process
only, but for `virtio_disk_intr`, which is about the process whose request comes back.
-/

namespace Xv6.Virtio

section Steps

variable {ι β D : Type} [DecidableEq ι] [DecidableEq β] {start : Nat → D} {state state' : State ι β D}
  {ghosts : ι → Ghost β} {who : ι} {ghost : Ghost β} {call : Request.Call β D}

/-! ### Where a request is -/

structure Asked (state : State ι β D) (who : ι) (ghost : Ghost β) (call : Request.Call β D) (i : Nat) : Prop where
  stage : ghost.stage = .sent
  called : Called state who ghost call
  own : ∃ j k, ghost.own = [i, j, k] ∧ Formatted state.disk call i j k
  disk : (state.buf call.b).disk = true
  way : Underway state call i

omit [DecidableEq ι] [DecidableEq β] in
theorem Asked.mem {i : Nat} (h : Asked state who ghost call i) : i ∈ ghost.own := by
  obtain ⟨j, k, hown, -⟩ := h.own
  rw [hown]
  exact List.mem_cons_self

omit [DecidableEq ι] [DecidableEq β] in
theorem stands_sent {i j k : Nat} (hstage : ghost.stage = .sent) (hcalled : Called state who ghost call)
    (hown : ghost.own = [i, j, k]) (hform : Formatted state.disk call i j k) (hsent : Sent state call i) :
    Stands state who ghost := by
  unfold Stands
  rw [hstage]
  exact ⟨call, i, j, k, hcalled, hown, hform, hsent⟩

omit [DecidableEq ι] [DecidableEq β] in
/-- Who has a request in the rings or in the device. -/
theorem Talks.asked {i : Nat} (h : Talks state ghosts) (hi : i ∈ state.tokens) :
    ∃ who call, Asked state who (ghosts who) call i := by
  obtain ⟨who, hstage, hhead⟩ := h.sent i hi
  have hstands := h.stands who
  unfold Stands at hstands
  rw [hstage] at hstands
  obtain ⟨call, i', j, k, hcalled, hown, hform, hsent⟩ := hstands
  obtain rfl : i' = i := by
    rw [hown] at hhead
    exact Option.some.inj hhead
  rcases hsent with ⟨hdisk, hway⟩ | ⟨-, -, hgone⟩
  · exact ⟨who, call, hstage, hcalled, ⟨j, k, hown, hform⟩, hdisk, hway⟩
  · exact absurd hi hgone

omit [DecidableEq ι] [DecidableEq β] in
/-- A request is in one place. -/
theorem Talks.apart (h : Talks state ghosts) :
    (state.busy.map Request.head).Nodup ∧
      (∀ i ∈ state.disk.avail.contents, i ∉ state.busy.map Request.head ∧ i ∉ state.disk.used.contents) ∧
        ∀ i ∈ state.busy.map Request.head, i ∉ state.disk.used.contents := by
  have hnodup := h.nodup
  unfold State.tokens at hnodup
  rw [List.nodup_append, List.nodup_append] at hnodup
  obtain ⟨⟨-, hbusy, havail⟩, -, hused⟩ := hnodup
  refine ⟨hbusy, fun i hi => ⟨fun hmem => havail i hi i hmem rfl, fun hmem => ?_⟩, fun i hi hmem => ?_⟩
  · exact hused i (List.mem_append_left _ hi) i hmem rfl
  · exact hused i (List.mem_append_right _ hi) i hmem rfl

omit [DecidableEq ι] [DecidableEq β] in
theorem Asked.of_avail {i : Nat} (h : Talks state ghosts) (hasked : Asked state who ghost call i)
    (hi : i ∈ state.disk.avail.contents) : call.moved = none := by
  obtain ⟨hbusy, hused⟩ := h.apart.2.1 i hi
  rcases hasked.way with ⟨hmoved, -⟩ | hmem | ⟨-, -, hmem⟩
  · exact hmoved
  · exact absurd (List.mem_map.mpr ⟨_, hmem, rfl⟩) hbusy
  · exact absurd hmem hused

omit [DecidableEq ι] [DecidableEq β] in
theorem Asked.of_busy {r : Request β} (h : Talks state ghosts) (hr : r ∈ state.busy)
    (hasked : Asked state who ghost call r.head) : r = request call r.head := by
  have hhead : r.head ∈ state.busy.map Request.head := List.mem_map.mpr ⟨r, hr, rfl⟩
  rcases hasked.way with ⟨-, hmem⟩ | hmem | ⟨-, -, hmem⟩
  · exact absurd hhead (h.apart.2.1 _ hmem).1
  · exact List.inj_on_of_nodup_map h.apart.1 hr hmem rfl
  · exact absurd hmem (h.apart.2.2 _ hhead)

omit [DecidableEq ι] [DecidableEq β] in
theorem Asked.of_used {i : Nat} (h : Talks state ghosts) (hasked : Asked state who ghost call i)
    (hi : i ∈ state.disk.used.contents) : call.moved ≠ none ∧ (state.disk.info i).status = 0 := by
  rcases hasked.way with ⟨-, hmem⟩ | hmem | ⟨hmoved, hstatus, -⟩
  · exact absurd hi (h.apart.2.1 i hmem).2
  · exact absurd hi (h.apart.2.2 i (List.mem_map.mpr ⟨_, hmem, rfl⟩))
  · exact ⟨hmoved, hstatus⟩

omit [DecidableEq β] in
theorem Inv.token_lt {i : Nat} (h : Inv start state ghosts) (hi : i ∈ state.tokens) : i < num := by
  obtain ⟨other, call, hasked⟩ := h.talks.asked hi
  exact h.chains.lt other i hasked.mem

omit [DecidableEq β] in
/-- There is room in the rings for all requests. -/
theorem Inv.length_tokens_le (h : Inv start state ghosts) : state.tokens.length ≤ num := by
  have hsub : state.tokens ⊆ List.range num := fun i hi => List.mem_range.mpr (h.token_lt hi)
  calc state.tokens.length ≤ (List.range num).length := h.talks.nodup.length_le_of_subset hsub
    _ = num := List.length_range

omit [DecidableEq ι] [DecidableEq β] in
theorem count_add_le : state.disk.avail.count + state.busy.length + state.disk.used.count = state.tokens.length := by
  rw [State.tokens, List.length_append, List.length_append, List.length_map, CircularBuffer.length_contents,
    CircularBuffer.length_contents]

omit [DecidableEq β] in
/-- There is room for one that is not on its way. -/
theorem Inv.count_lt {i : Nat} (h : Inv start state ghosts) (hi : i < num) (hgone : i ∉ state.tokens) :
    state.disk.avail.count < num := by
  have hnodup : (i :: state.tokens).Nodup := List.nodup_cons.mpr ⟨hgone, h.talks.nodup⟩
  have hsub : i :: state.tokens ⊆ List.range num := by
    intro n hn
    rcases List.mem_cons.mp hn with rfl | hn
    · exact List.mem_range.mpr hi
    · exact List.mem_range.mpr (h.token_lt hn)
  have hle := hnodup.length_le_of_subset hsub
  rw [List.length_cons, List.length_range, ← count_add_le] at hle
  omega

omit [DecidableEq β] in
/-- Who has not sent its request has none on its way. -/
theorem Inv.not_mem_tokens {i : Nat} (h : Inv start state ghosts) (hstage : (ghosts who).stage ≠ .sent)
    (hi : i ∈ (ghosts who).own) : i ∉ state.tokens := by
  intro hmem
  obtain ⟨other, call, hasked⟩ := h.talks.asked hmem
  obtain rfl := h.chains.apart hi hasked.mem
  exact hstage hasked.stage

/-! ### The lock -/

omit [DecidableEq β] in
theorem Inv.acquire (h : Inv start state ghosts) (hfree : state.vdiskLock = none) :
    Inv start { state with vdiskLock := some who } (Function.update ghosts who { ghosts who with holds := true }) where
  calm := h.calm
  sense := h.sense
  chains := h.chains.same rfl rfl rfl
  talks := h.talks.same (fun _ => .of_eq rfl rfl rfl rfl rfl rfl rfl rfl rfl) rfl rfl rfl rfl
  locked := h.locked.acquire hfree
  history := h.history.same rfl rfl rfl rfl

omit [DecidableEq β] in
/-- The lock is given up. -/
theorem Inv.leave {asleep : ι → Option (Chan β)} (h : Inv start state ghosts) (hholds : (ghosts who).holds = true)
    (hstage : (ghosts who).stage = .idle ∨ (ghosts who).stage = .called ∨ (ghosts who).stage = .sent)
    (hasleep : ∀ other chan, asleep other = some chan → Sleeps state (ghosts other) chan) :
    Inv start { state with vdiskLock := none, asleep } (Function.update ghosts who (ghosts who).leave) where
  calm := h.calm
  sense := h.sense
  chains := h.chains.same rfl rfl rfl
  talks := h.talks.same (fun _ => .of_eq rfl rfl rfl rfl rfl rfl rfl rfl rfl) rfl rfl rfl rfl
  locked := h.locked.leave hholds hstage hasleep
  history := h.history.same rfl rfl rfl rfl

omit [DecidableEq β] in
/-- Who goes to sleep has a reason. -/
theorem Inv.sleep {chan : Chan β} (h : Inv start state ghosts) (hholds : (ghosts who).holds = true)
    (hstage : (ghosts who).stage = .idle ∨ (ghosts who).stage = .called ∨ (ghosts who).stage = .sent)
    (hsleeps : Sleeps state (ghosts who) chan) :
    Inv start { state with vdiskLock := none, asleep := Function.update state.asleep who (some chan) }
      (Function.update ghosts who (ghosts who).leave) := by
  refine h.leave hholds hstage fun other chan' hchan => ?_
  by_cases hother : other = who
  · rw [hother, Function.update_self] at hchan
    obtain rfl := Option.some.inj hchan
    exact hother ▸ hsleeps
  · rw [Function.update_of_ne hother] at hchan
    exact h.locked.sleeps other chan' hchan

omit [DecidableEq β] in
/-- The holder of the lock has seen something. -/
theorem Inv.learn (h : Inv start state ghosts) (hholds : (ghosts who).holds = true) (hawake : state.asleep who = none)
    (hghost : ghost.holds = true) (hown : ghost.own = (ghosts who).own) (hstage : ghost.stage = (ghosts who).stage)
    (hargs : ghost.call = (ghosts who).call) (hknows : Knows state ghost) :
    Inv start state (Function.update ghosts who ghost) where
  calm := h.calm
  sense := h.sense
  chains := h.chains.same rfl rfl hown
  talks := h.talks.same (fun _ => .of_eq rfl rfl rfl rfl rfl rfl rfl rfl rfl) rfl hown hstage hargs
  locked := h.locked.keep hholds hghost rfl hawake (fun _ _ hchan => ⟨hchan, id⟩) hknows
  history := h.history

/-! ### The descriptors -/

omit [DecidableEq ι] [DecidableEq β] in
theorem firstFree_eq_some {disk : Disk β} {i : Nat} (h : disk.firstFree = some i) : i < num ∧ disk.free i = true :=
  ⟨List.mem_range.mp (List.mem_of_find?_eq_some h), by simpa using List.find?_some h⟩

omit [DecidableEq ι] [DecidableEq β] in
theorem firstFree_eq_none {disk : Disk β} (h : disk.firstFree = none) (i : Nat) (hi : i < num) : disk.free i ≠ true := by
  have hnone := List.find?_eq_none.mp h i (List.mem_range.mpr hi)
  exact hnone

omit [DecidableEq β] in
theorem Chains.alloc {i : Nat} (h : Chains state ghosts) (hi : i < num) (hfree : state.disk.free i = true)
    (hchain : state'.chain = Function.update state.chain who (state.chain who ++ [i]))
    (hdisk : state'.disk.free = Function.update state.disk.free i false)
    (hown : ghost.own = (ghosts who).own ++ [i]) : Chains state' (Function.update ghosts who ghost) := by
  have hnobody := (h.free i hi).mp hfree
  have hmem : ∀ other n, n ∈ (Function.update ghosts who ghost other).own ↔
      n ∈ (ghosts other).own ∨ other = who ∧ n = i := by
    intro other n
    by_cases hother : other = who
    · rw [hother, Function.update_self, hown, List.mem_append, List.mem_singleton]
      simp
    · rw [Function.update_of_ne hother]
      simp [hother]
  refine ⟨fun other => ?_, fun other => ?_, fun other n hn => ?_, fun {one other n} hone hother => ?_, fun n hn => ?_⟩
  · rw [hchain]
    by_cases hother : other = who
    · rw [hother, Function.update_self, Function.update_self, hown, h.chain]
    · rw [Function.update_of_ne hother, Function.update_of_ne hother, h.chain]
  · by_cases hother : other = who
    · rw [hother, Function.update_self, hown]
      exact List.nodup_append_comm.mp (List.nodup_cons.mpr ⟨hnobody who, h.nodup who⟩)
    · rw [Function.update_of_ne hother]
      exact h.nodup other
  · rcases (hmem other n).mp hn with hn | ⟨-, rfl⟩
    · exact h.lt other n hn
    · exact hi
  · rcases (hmem one n).mp hone with hfirst | ⟨hfirst, hni⟩
    · rcases (hmem other n).mp hother with hsecond | ⟨-, hni⟩
      · exact h.apart hfirst hsecond
      · exact absurd (hni ▸ hfirst) (hnobody one)
    · rcases (hmem other n).mp hother with hsecond | ⟨hsecond, -⟩
      · exact absurd (hni ▸ hsecond) (hnobody other)
      · exact hfirst.trans hsecond.symm
  · rw [hdisk]
    by_cases hni : n = i
    · rw [hni, Function.update_self]
      exact iff_of_false Bool.false_ne_true fun hall => hall who ((hmem who i).mpr (Or.inr ⟨rfl, rfl⟩))
    · rw [Function.update_of_ne hni, h.free n hn]
      exact forall_congr' fun other => by simp [hmem, hni]

omit [DecidableEq β] in
theorem Chains.dealloc {i : Nat} (h : Chains state ghosts) (hi : i ∈ (ghosts who).own)
    (hchain : state'.chain = Function.update state.chain who ((state.chain who).erase i))
    (hdisk : state'.disk.free = Function.update state.disk.free i true)
    (hown : ghost.own = (ghosts who).own.erase i) : Chains state' (Function.update ghosts who ghost) := by
  have hmem : ∀ other n, n ∈ (Function.update ghosts who ghost other).own ↔ n ∈ (ghosts other).own ∧ n ≠ i := by
    intro other n
    by_cases hother : other = who
    · rw [hother, Function.update_self, hown, (h.nodup who).mem_erase_iff, and_comm]
    · rw [Function.update_of_ne hother]
      refine ⟨fun hn => ⟨hn, ?_⟩, And.left⟩
      rintro rfl
      exact hother (h.apart hn hi)
  refine ⟨fun other => ?_, fun other => ?_, fun other n hn => ?_, fun {one other n} hone hother => ?_, fun n hn => ?_⟩
  · rw [hchain]
    by_cases hother : other = who
    · rw [hother, Function.update_self, Function.update_self, hown, h.chain]
    · rw [Function.update_of_ne hother, Function.update_of_ne hother, h.chain]
  · by_cases hother : other = who
    · rw [hother, Function.update_self, hown]
      exact (h.nodup who).erase i
    · rw [Function.update_of_ne hother]
      exact h.nodup other
  · exact h.lt other n ((hmem other n).mp hn).1
  · exact h.apart ((hmem one n).mp hone).1 ((hmem other n).mp hother).1
  · rw [hdisk]
    by_cases hni : n = i
    · rw [hni, Function.update_self]
      exact iff_of_true rfl fun other hmem' => ((hmem other i).mp hmem').2 rfl
    · rw [Function.update_of_ne hni, h.free n hn]
      exact forall_congr' fun other => by simp [hmem, hni]

omit [DecidableEq ι] [DecidableEq β] in
/-- Before its request, only the call itself matters. -/
theorem Stands.called (h : Stands state who ghost) (hstage : ghost.stage = .called) {ghost' : Ghost β}
    (hframe : Frame state state' who ghost) (hstage' : ghost'.stage = .called) (hargs : ghost'.call = ghost.call) :
    Stands state' who ghost' := by
  unfold Stands at h ⊢
  rw [hstage] at h
  rw [hstage']
  obtain ⟨call, hcalled, hmoved⟩ := h
  exact ⟨call, hcalled.frame hframe hargs, hmoved⟩

omit [DecidableEq β] in
theorem Inv.allocDesc {i : Nat} (h : Inv start state ghosts) (hholds : (ghosts who).holds = true)
    (hawake : state.asleep who = none) (hstage : (ghosts who).stage = .called) (hi : i < num)
    (hfree : state.disk.free i = true) :
    Inv start ({ state with disk := state.disk.setFree i false }.setChain who (state.chain who ++ [i]))
      (Function.update ghosts who { ghosts who with own := (ghosts who).own ++ [i] }) := by
  have hframe : ∀ other, Frame state
      ({ state with disk := state.disk.setFree i false }.setChain who (state.chain who ++ [i])) other (ghosts other) :=
    fun other => .of_eq rfl rfl rfl rfl rfl rfl rfl rfl rfl
  have hfewer : ∀ n, Function.update state.disk.free i false n = true → state.disk.free n = true := by
    intro n hn
    by_cases hni : n = i
    · exact hni ▸ hfree
    · rwa [Function.update_of_ne hni] at hn
  refine ⟨h.calm, h.sense, h.chains.alloc hi hfree rfl rfl rfl, ?_, ?_, h.history.same rfl rfl rfl rfl⟩
  · refine h.talks.quiet (fun other _ => hframe other) ((h.talks.stands who).called hstage (hframe who) hstage rfl) rfl ?_
    intro hsent
    rw [hstage] at hsent
    cases hsent
  · refine h.locked.keep hholds hholds rfl hawake (fun other chan hchan => ⟨hchan, fun hsleeps => ?_⟩) ?_
    · exact hsleeps.mono (fun _ n _ hn => hfewer n hn) fun _ _ => id
    · have hknows := h.locked.knows who
      exact ⟨fun spare hspare n hn hyes => hknows.spare spare hspare n hn (hfewer n hyes), hknows.onDisk, hknows.unseen⟩

/-- The state after `free_desc`. -/
def freed (state : State ι β D) (who : ι) (i : Nat) : State ι β D :=
  ({ state with disk := { state.disk with
      desc := Function.update state.disk.desc i ⟨.null, 0, 0, 0⟩
      free := Function.update state.disk.free i true } }.wakeup .free).setChain who ((state.chain who).erase i)

theorem Inv.freeDesc_eq {i : Nat} (h : Inv start state ghosts) (hi : i ∈ (ghosts who).own) :
    state.freeDesc who i = freed state who i := by
  have hlt := h.chains.lt who i hi
  have hused : state.disk.free i ≠ true := fun hfree => (h.chains.free i hlt).mp hfree who hi
  rw [State.freeDesc, if_neg (Nat.not_le.mpr hlt), if_neg hused]
  rfl

theorem Inv.frame_freed {i : Nat} (h : Inv start state ghosts) (hi : i ∈ (ghosts who).own) (other : ι)
    (hother : other ≠ who) : Frame state (freed state who i) other (ghosts other) := by
  refine .of_quiet rfl (fun _ => id) (fun _ _ => rfl) (fun n hn => ?_) (fun _ _ => rfl) (fun _ _ => rfl) rfl rfl rfl
  refine Function.update_of_ne ?_ _ _
  rintro rfl
  exact hother (h.chains.apart hn hi)

theorem Inv.freeDesc {i : Nat} (h : Inv start state ghosts) (hholds : (ghosts who).holds = true)
    (hawake : state.asleep who = none) (hi : i ∈ (ghosts who).own)
    (hstands : Stands (freed state who i) who
      { ghosts who with own := (ghosts who).own.erase i, spare := (ghosts who).spare.map (i :: ·) })
    (hstage : (ghosts who).stage ≠ .sent) :
    Inv start (freed state who i) (Function.update ghosts who
      { ghosts who with own := (ghosts who).own.erase i, spare := (ghosts who).spare.map (i :: ·) }) := by
  have hmore : ∀ n, Function.update state.disk.free i true n = true → n = i ∨ state.disk.free n = true := by
    intro n hn
    by_cases hni : n = i
    · exact Or.inl hni
    · rw [Function.update_of_ne hni] at hn
      exact Or.inr hn
  refine ⟨h.calm, h.sense, h.chains.dealloc hi rfl rfl rfl, ?_, ?_, h.history.same rfl rfl rfl rfl⟩
  · exact h.talks.quiet (h.frame_freed hi) hstands rfl fun hsent => absurd hsent hstage
  · refine h.locked.keep hholds hholds rfl hawake (fun other chan hchan => ?_) ⟨fun spare hspare n hn hyes => ?_, ?_, ?_⟩
    · change (if state.asleep other = some .free then none else state.asleep other) = some chan at hchan
      split at hchan
      · cases hchan
      · next hfree =>
          refine ⟨hchan, fun hsleeps => hsleeps.mono (fun heq => ?_) fun _ _ => id⟩
          exact absurd (heq ▸ hchan) hfree
    · obtain ⟨before, hbefore, rfl⟩ := Option.map_eq_some_iff.mp hspare
      rcases hmore n hyes with rfl | hyes
      · exact List.mem_cons_self
      · exact List.mem_cons_of_mem _ ((h.locked.knows who).spare before hbefore n hn hyes)
    · exact (h.locked.knows who).onDisk
    · exact (h.locked.knows who).unseen

theorem Inv.freeDesc_called {i : Nat} (h : Inv start state ghosts) (hholds : (ghosts who).holds = true)
    (hawake : state.asleep who = none) (hi : i ∈ (ghosts who).own) (hstage : (ghosts who).stage = .called) :
    Inv start (freed state who i) (Function.update ghosts who
      { ghosts who with own := (ghosts who).own.erase i, spare := (ghosts who).spare.map (i :: ·) }) := by
  refine h.freeDesc hholds hawake hi ?_ (by rw [hstage]; simp)
  have hstands := h.talks.stands who
  unfold Stands at hstands ⊢
  rw [hstage] at hstands
  rw [hstage]
  obtain ⟨call, hcalled, hmoved⟩ := hstands
  exact ⟨call, ⟨hcalled.going, hcalled.args, hcalled.owner, hcalled.sector, hcalled.before, hcalled.moved⟩, hmoved⟩

theorem Inv.freeDesc_answered {i : Nat} (h : Inv start state ghosts) (hholds : (ghosts who).holds = true)
    (hawake : state.asleep who = none) (hi : (ghosts who).own.head? = some i)
    (hstage : (ghosts who).stage = .answered) :
    Inv start (freed state who i) (Function.update ghosts who
      { ghosts who with own := (ghosts who).own.erase i, spare := (ghosts who).spare.map (i :: ·) }) := by
  obtain ⟨rest, hown⟩ := List.head?_eq_some_iff.mp hi
  refine h.freeDesc hholds hawake (by rw [hown]; exact List.mem_cons_self) ?_ (by rw [hstage]; simp)
  have hnodup := h.chains.nodup who
  rw [hown, List.nodup_cons] at hnodup
  have hstands := h.talks.stands who
  unfold Stands at hstands ⊢
  rw [hstage] at hstands
  rw [hstage]
  obtain ⟨call, hcalled, hmoved, hchain⟩ := hstands
  refine ⟨call, ⟨hcalled.going, hcalled.args, hcalled.owner, hcalled.sector, hcalled.before, hcalled.moved⟩, hmoved, ?_⟩
  dsimp only
  rw [hown] at hchain
  rw [hown, List.erase_cons_head]
  refine hchain.tail.frame fun n hn => Function.update_of_ne ?_ _ _
  rintro rfl
  exact hnodup.1 hn

omit [DecidableEq β] in
/-- What a call reads of its chain. -/
theorem Inv.readDesc {i : Nat} (h : Inv start state ghosts) (hi : (ghosts who).own.head? = some i)
    (hstage : (ghosts who).stage = .answered) :
    if (state.disk.desc i).flags &&& descFNext ≠ 0 then
      (ghosts who).own.tail.head? = some (state.disk.desc i).next else (ghosts who).own.tail = [] := by
  obtain ⟨rest, hown⟩ := List.head?_eq_some_iff.mp hi
  have hstands := h.talks.stands who
  unfold Stands at hstands
  rw [hstage] at hstands
  obtain ⟨call, -, -, hchain⟩ := hstands
  rw [hown] at hchain ⊢
  cases rest with
  | nil =>
      have hlast : (state.disk.desc i).flags &&& descFNext = 0 := hchain
      rw [if_neg (not_not.mpr hlast)]
      rfl
  | cons j rest =>
      rw [if_pos hchain.1, hchain.2.1]
      rfl

end Steps

end Xv6.Virtio
