import Xv6.Virtio.Steps

/-!
# A request of the driver, and its end

The driver formats three descriptors, puts the first into `avail` and waits for the buffer. `virtio_disk_intr` finds
in `used` only requests whose data was moved.
-/

namespace Xv6.Virtio

section Requests

variable {ι β D : Type} [DecidableEq ι] [DecidableEq β] {start : Nat → D} {state : State ι β D}
  {ghosts : ι → Ghost β} {who : ι}

/-- The state after the stores of `virtio_disk_rw`. -/
def formatted (state : State ι β D) (b : β) (write : Bool) (i j k : Nat) : State ι β D :=
  { state.setBuf b { state.buf b with disk := true } with
    disk := state.disk.format b write ((state.buf b).blockno * (bsize / 512)) i j k }

omit [DecidableEq ι] in
theorem buf_formatted {b : β} {write : Bool} {i j k : Nat} :
    (formatted state b write i j k).buf b = { state.buf b with disk := true } := Function.update_self ..

omit [DecidableEq ι] in
theorem buf_formatted_of_ne {b b' : β} {write : Bool} {i j k : Nat} (hne : b' ≠ b) :
    (formatted state b write i j k).buf b' = state.buf b' := Function.update_of_ne hne ..

omit [DecidableEq ι] in
theorem disk_formatted {b b' : β} {write : Bool} {i j k : Nat} (h : (state.buf b').disk = true) :
    ((formatted state b write i j k).buf b').disk = true := by
  by_cases heq : b' = b
  · rw [heq, buf_formatted]
  · rw [buf_formatted_of_ne heq]
    exact h

omit [DecidableEq β] in
theorem formatted_format {disk : Disk β} {call : Request.Call β D} {i j k : Nat} (hnodup : [i, j, k].Nodup) :
    Formatted (disk.format call.b call.write call.sector i j k) call i j k := by
  obtain ⟨⟨hij, hik⟩, hjk⟩ : (i ≠ j ∧ i ≠ k) ∧ j ≠ k := by simpa using hnodup
  refine ⟨?_, ?_, Function.update_self .., Function.update_self .., ?_⟩
  · exact (Function.update_of_ne hik _ _).trans ((Function.update_of_ne hij _ _).trans (Function.update_self ..))
  · exact (Function.update_of_ne hjk _ _).trans (Function.update_self ..)
  · exact congrArg Info.b (Function.update_self i (⟨some call.b, 0xff⟩ : Info β) disk.info)

theorem Inv.format {b : β} {write : Bool} {i j k : Nat} (h : Inv start state ghosts)
    (hholds : (ghosts who).holds = true) (hawake : state.asleep who = none) (hstage : (ghosts who).stage = .called)
    (hown : (ghosts who).own = [i, j, k]) (hargs : (ghosts who).call = some (b, write)) :
    Inv start (formatted state b write i j k) (Function.update ghosts who { ghosts who with stage := .formatted }) := by
  have hstands := h.talks.stands who
  unfold Stands at hstands
  rw [hstage] at hstands
  obtain ⟨call, hcalled, hmoved⟩ := hstands
  obtain ⟨rfl, rfl⟩ : call.b = b ∧ call.write = write := by
    have heq := hcalled.args.symm.trans hargs
    simpa using heq
  have hothers : ∀ other, other ≠ who →
      Frame state (formatted state call.b call.write i j k) other (ghosts other) := by
    intro other hother
    have hne : ∀ n ∈ (ghosts other).own, n ≠ i ∧ n ≠ j ∧ n ≠ k := by
      intro n hn
      have hnot : n ∉ (ghosts who).own := fun hmem => hother (h.chains.apart hn hmem)
      simpa [hown] using hnot
    refine .of_quiet rfl (fun _ => id) (fun b hb => buf_formatted_of_ne ?_) (fun n hn => ?_) (fun n hn => ?_)
      (fun n hn => ?_) rfl rfl rfl
    · rintro rfl
      exact hother (Option.some.inj (hb.symm.trans hcalled.owner))
    · obtain ⟨hi, hj, hk⟩ := hne n hn
      exact (Function.update_of_ne hk _ _).trans ((Function.update_of_ne hj _ _).trans (Function.update_of_ne hi _ _))
    · exact Function.update_of_ne (hne n hn).1 _ _
    · exact Function.update_of_ne (hne n hn).1 _ _
  have hform : Formatted (state.disk.format call.b call.write call.sector i j k) call i j k :=
    formatted_format (hown ▸ h.chains.nodup who)
  rw [← hcalled.sector] at hform
  refine ⟨h.calm, h.sense, h.chains.same rfl rfl rfl, ?_, ?_, h.history.same rfl rfl rfl rfl⟩
  · refine h.talks.quiet hothers ?_ rfl fun hsent => ?_
    · unfold Stands
      refine ⟨call, i, j, k, ⟨hcalled.going, hcalled.args, hcalled.owner, ?_, ?_, ?_⟩, hmoved, hown, hform, ?_⟩
      · rw [buf_formatted]
        exact hcalled.sector
      · rw [buf_formatted]
        exact hcalled.before
      · rw [buf_formatted]
        exact hcalled.moved
      · rw [buf_formatted]
    · rw [hstage] at hsent
      cases hsent
  · refine h.locked.keep hholds hholds rfl hawake (fun other chan hchan => ⟨hchan, fun hsleeps => ?_⟩) ?_
    · exact hsleeps.mono (fun _ _ _ => id) fun b _ => disk_formatted
    · have hknows := h.locked.knows who
      exact ⟨hknows.spare, fun hyes b write hcall => disk_formatted (hknows.onDisk hyes b write hcall), hknows.unseen⟩

/-! ### The ring -/

theorem num_lt : num < 2 ^ 16 := by decide

theorem num_dvd : num ∣ 2 ^ 16 := by decide

omit [DecidableEq β] in
theorem Inv.setAvail {i : Nat} (h : Inv start state ghosts) (hholds : (ghosts who).holds = true)
    (hawake : state.asleep who = none) (hstage : (ghosts who).stage = .formatted)
    (hi : (ghosts who).own.head? = some i) :
    Inv start { state with disk := state.disk.setAvail i }
      (Function.update ghosts who { ghosts who with stage := .staged }) := by
  have hmem := List.mem_of_mem_head? hi
  have hgone := h.not_mem_tokens (by rw [hstage]; simp) hmem
  have hcontents : (state.disk.setAvail i).avail.contents = state.disk.avail.contents :=
    CircularBuffer.contents_update i (h.count_lt (h.chains.lt who i hmem) hgone) num_lt num_dvd
  have htokens : State.tokens { state with disk := state.disk.setAvail i } = state.tokens := by
    unfold State.tokens
    rw [hcontents]
    rfl
  have hunderway : ∀ call n, Underway state call n →
      Underway { state with disk := state.disk.setAvail i } call n := by
    intro call n hway
    unfold Underway
    rw [hcontents]
    exact hway
  have hothers : ∀ other, other ≠ who →
      Frame state { state with disk := state.disk.setAvail i } other (ghosts other) := fun other hother =>
    { call := rfl
      owner := fun _ => id
      buf := fun _ _ => rfl
      desc := fun _ _ => rfl
      ops := fun _ _ => rfl
      info := fun _ _ => rfl
      slot := fun hstaged => absurd hstaged (h.locked.unstaged hholds hother)
      underway := fun call n _ => hunderway call n
      tokens := fun n _ hn => htokens ▸ hn }
  have hstands := h.talks.stands who
  unfold Stands at hstands
  rw [hstage] at hstands
  obtain ⟨call, i', j, k, hcalled, hmoved, hown, hform, hdisk⟩ := hstands
  obtain rfl : i' = i := by
    rw [hown] at hi
    exact Option.some.inj hi
  refine ⟨h.calm, h.sense, h.chains.same rfl rfl rfl, ?_, ?_, h.history.same rfl rfl rfl rfl⟩
  · refine h.talks.quiet hothers ?_ htokens fun hsent => ?_
    · exact ⟨call, i', j, k, ⟨hcalled.going, hcalled.args, hcalled.owner, hcalled.sector, hcalled.before, hcalled.moved⟩,
        hmoved, hown, ⟨hform.first, hform.second, hform.third, hform.ops, hform.info⟩, hdisk, Function.update_self ..⟩
    · rw [hstage] at hsent
      cases hsent
  · refine h.locked.keep hholds hholds rfl hawake (fun other chan hchan => ⟨hchan, fun hsleeps => ?_⟩) ?_
    · exact hsleeps.mono (fun _ _ _ => id) fun _ _ => id
    · exact ⟨(h.locked.knows who).spare, (h.locked.knows who).onDisk, (h.locked.knows who).unseen⟩

/-- The state after `disk.avail->idx += 1`. -/
def advanced (state : State ι β D) : State ι β D :=
  { state with disk := { state.disk with
    avail := { state.disk.avail with nwrite := state.disk.avail.nwrite + 1 } } }

omit [DecidableEq β] in
/-- **The device can see the request** now. -/
theorem Inv.advanceAvail (h : Inv start state ghosts) (hholds : (ghosts who).holds = true)
    (hawake : state.asleep who = none) (hstage : (ghosts who).stage = .staged) :
    Inv start (advanced state) (Function.update ghosts who { ghosts who with stage := .sent }) := by
  have hstands := h.talks.stands who
  unfold Stands at hstands
  rw [hstage] at hstands
  obtain ⟨call, i, j, k, hcalled, hmoved, hown, hform, hdisk, hslot⟩ := hstands
  have hmem : i ∈ (ghosts who).own := by rw [hown]; exact List.mem_cons_self
  have hgone := h.not_mem_tokens (by rw [hstage]; simp) hmem
  have hcontents : (advanced state).disk.avail.contents = state.disk.avail.contents ++ [i] := by
    have hcommit := CircularBuffer.contents_commit (h.count_lt (h.chains.lt who i hmem) hgone) num_lt num_dvd
    rwa [hslot] at hcommit
  have hperm : (advanced state).tokens.Perm (i :: state.tokens) := by
    unfold State.tokens
    rw [hcontents, List.append_assoc, List.append_assoc, List.append_assoc]
    exact List.perm_middle
  have htokens : ∀ n ∈ (advanced state).tokens, n = i ∨ n ∈ state.tokens := fun n hn =>
    List.mem_cons.mp (hperm.mem_iff.mp hn)
  have hunderway : ∀ call n, Underway state call n → Underway (advanced state) call n := by
    intro call n hway
    refine hway.imp (fun havail => ⟨havail.1, ?_⟩) id
    rw [hcontents]
    exact List.mem_append_left _ havail.2
  refine ⟨h.calm, h.sense, h.chains.same rfl rfl rfl, ?_, ?_, h.history.same rfl rfl rfl rfl⟩
  · refine h.talks.update (fun other hother => ?_) ?_ ?_ fun n hn => ?_
    · refine
        { call := rfl, owner := fun _ => id, buf := fun _ _ => rfl, desc := fun _ _ => rfl, ops := fun _ _ => rfl
          info := fun _ _ => rfl, slot := fun hstaged => absurd hstaged (h.locked.unstaged hholds hother)
          underway := fun call n _ => hunderway call n
          tokens := fun n hn hmem' => (htokens n hmem').resolve_left ?_ }
      rintro rfl
      exact hother (h.chains.apart hn hmem)
    · refine stands_sent rfl
        ⟨hcalled.going, hcalled.args, hcalled.owner, hcalled.sector, hcalled.before, hcalled.moved⟩ hown
        ⟨hform.first, hform.second, hform.third, hform.ops, hform.info⟩ (Or.inl ⟨hdisk, Or.inl ⟨hmoved, ?_⟩⟩)
      rw [hcontents]
      exact List.mem_append_right _ List.mem_cons_self
    · exact hperm.nodup_iff.mpr (List.nodup_cons.mpr ⟨hgone, h.talks.nodup⟩)
    · rcases htokens n hn with rfl | hn
      · refine Or.inr ⟨rfl, ?_⟩
        rw [hown]
        rfl
      · obtain ⟨other, hsent, hhead⟩ := h.talks.sent n hn
        refine Or.inl ⟨other, ?_, hsent, hhead⟩
        rintro rfl
        rw [hstage] at hsent
        cases hsent
  · refine h.locked.keep hholds hholds rfl hawake (fun other chan hchan => ⟨hchan, fun hsleeps => ?_⟩) ?_
    · exact hsleeps.mono (fun _ _ _ => id) fun _ _ => id
    · exact ⟨(h.locked.knows who).spare, (h.locked.knows who).onDisk, (h.locked.knows who).unseen⟩

/-! ### The end of a call -/

omit [DecidableEq β] in
/-- **Whoever sees that the disk is done** with the buffer has had its data moved. -/
theorem Inv.answered {b : β} {write : Bool} (h : Inv start state ghosts) (hholds : (ghosts who).holds = true)
    (hawake : state.asleep who = none) (hstage : (ghosts who).stage = .sent)
    (hargs : (ghosts who).call = some (b, write)) (hdone : (state.buf b).disk = false) :
    Inv start state (Function.update ghosts who { ghosts who with stage := .answered }) := by
  have hstands := h.talks.stands who
  unfold Stands at hstands
  rw [hstage] at hstands
  obtain ⟨call, i, j, k, hcalled, hown, hform, hsent⟩ := hstands
  obtain rfl : call.b = b := by
    have heq := hcalled.args.symm.trans hargs
    rw [Option.some.injEq, Prod.mk.injEq] at heq
    exact heq.1
  rcases hsent with ⟨hdisk, -⟩ | ⟨-, hmoved, hgone⟩
  · rw [hdone] at hdisk
    cases hdisk
  refine ⟨h.calm, h.sense, h.chains.same rfl rfl rfl, ?_, ?_, h.history⟩
  · refine h.talks.quiet (fun other _ => .of_eq rfl rfl rfl rfl rfl rfl rfl rfl rfl) ?_ rfl fun _ n hhead hn => ?_
    · refine ⟨call, ⟨hcalled.going, hcalled.args, hcalled.owner, hcalled.sector, hcalled.before, hcalled.moved⟩, hmoved, ?_⟩
      change Chained state.disk (ghosts who).own
      rw [hown]
      exact hform.chained
    · rw [hown] at hhead
      obtain rfl : i = n := Option.some.inj hhead
      exact absurd hn hgone
  · refine h.locked.keep hholds hholds rfl hawake (fun other chan hchan => ⟨hchan, id⟩) ?_
    exact ⟨(h.locked.knows who).spare, (h.locked.knows who).onDisk, (h.locked.knows who).unseen⟩

/-- The state after `disk.info[i].b = 0`. -/
def cleared (state : State ι β D) (i : Nat) : State ι β D :=
  { state with disk := { state.disk with
    info := Function.update state.disk.info i { state.disk.info i with b := none } } }

omit [DecidableEq β] in
theorem Inv.clearInfo {i : Nat} (h : Inv start state ghosts) (hholds : (ghosts who).holds = true)
    (hawake : state.asleep who = none) (hstage : (ghosts who).stage = .answered)
    (hi : (ghosts who).own.head? = some i) :
    Inv start (cleared state i) (Function.update ghosts who (ghosts who)) := by
  have hmem := List.mem_of_mem_head? hi
  have hothers : ∀ other, other ≠ who → Frame state (cleared state i) other (ghosts other) := by
    intro other hother
    refine .of_quiet rfl (fun _ => id) (fun _ _ => rfl) (fun _ _ => rfl) (fun _ _ => rfl)
      (fun n hn => Function.update_of_ne ?_ _ _) rfl rfl rfl
    rintro rfl
    exact hother (h.chains.apart hn hmem)
  refine ⟨h.calm, h.sense, h.chains.same rfl rfl rfl, ?_, ?_, h.history.same rfl rfl rfl rfl⟩
  · refine h.talks.quiet hothers ?_ rfl fun hsent => ?_
    · have hstands := h.talks.stands who
      unfold Stands at hstands ⊢
      rw [hstage] at hstands ⊢
      obtain ⟨call, hcalled, hmoved, hchain⟩ := hstands
      exact ⟨call, ⟨hcalled.going, hcalled.args, hcalled.owner, hcalled.sector, hcalled.before, hcalled.moved⟩, hmoved,
        hchain.frame fun _ _ => rfl⟩
    · rw [hstage] at hsent
      cases hsent
  · refine h.locked.keep hholds hholds rfl hawake (fun other chan hchan => ⟨hchan, fun hsleeps => ?_⟩) ?_
    · exact hsleeps.mono (fun _ _ _ => id) fun _ _ => id
    · exact ⟨(h.locked.knows who).spare, (h.locked.knows who).onDisk, (h.locked.knows who).unseen⟩

def finished (state : State ι β D) (who : ι) (call : Request.Call β D) : State ι β D :=
  { state.setCall who none with
    owner := Function.update state.owner call.b none
    returned := state.returned ++ [state.result who call] }

omit [DecidableEq ι] [DecidableEq β] in
/-- What was moved is what was to be moved. -/
theorem Called.result {ghost : Ghost β} {call : Request.Call β D} {data : D} (h : Called state who ghost call)
    (hmoved : call.moved = some data) : state.result who call = ⟨who, call.write, call.sector, data⟩ := by
  have hdata := h.moved data hmoved
  unfold State.result
  cases hwrite : call.write with
  | true =>
      rw [if_pos rfl, ← h.before hwrite, hdata]
  | false =>
      rw [if_neg Bool.false_ne_true, hdata]

theorem Inv.finish {call : Request.Call β D} (h : Inv start state ghosts) (hholds : (ghosts who).holds = true)
    (hawake : state.asleep who = none) (hstage : (ghosts who).stage = .answered) (hown : (ghosts who).own = [])
    (hcall : state.call who = some call) :
    Inv start (finished state who call)
      (Function.update ghosts who { ghosts who with stage := .idle, call := none }) := by
  have hstands := h.talks.stands who
  unfold Stands at hstands
  rw [hstage] at hstands
  obtain ⟨call', hcalled, hmoved, -⟩ := hstands
  obtain rfl : call' = call := Option.some.inj (hcalled.going.symm.trans hcall)
  obtain ⟨data, hdata⟩ := Option.ne_none_iff_exists'.mp hmoved
  have hothers : ∀ other, other ≠ who → Frame state (finished state who call') other (ghosts other) := by
    intro other hother
    refine .of_quiet (Function.update_of_ne hother _ _) (fun b hb => ?_) (fun _ _ => rfl) (fun _ _ => rfl)
      (fun _ _ => rfl) (fun _ _ => rfl) rfl rfl rfl
    refine (Function.update_of_ne ?_ _ _).trans hb
    rintro rfl
    exact hother (Option.some.inj (hb.symm.trans hcalled.owner))
  refine ⟨h.calm, h.sense, h.chains.same rfl rfl rfl, ?_, ?_, ⟨fun other => ?_, h.history.replays⟩⟩
  · refine h.talks.quiet hothers ⟨hown, rfl, Function.update_self ..⟩ rfl fun hsent => ?_
    rw [hstage] at hsent
    cases hsent
  · refine h.locked.keep hholds hholds rfl hawake (fun other chan hchan => ⟨hchan, fun hsleeps => ?_⟩) ?_
    · exact hsleeps.mono (fun _ _ _ => id) fun _ _ => id
    · refine ⟨(h.locked.knows who).spare, fun _ _ _ hnone => ?_, (h.locked.knows who).unseen⟩
      cases hnone
  · have honce := h.history.once other
    change state.log.filter _ = (state.returned ++ [state.result who call']).filter _ ++ State.current _ other
    rw [honce, List.filter_append, hcalled.result hdata]
    by_cases hother : other = who
    · have hafter : (finished state who call').current who = [] := State.current_of_none (Function.update_self ..)
      change _ = _ ++ (finished state who call').current other
      rw [hother, State.current_of_moved hcall hdata, hafter]
      simp
    · have hafter : (finished state who call').current other = state.current other :=
        State.current_congr (Function.update_of_ne hother _ _)
      change _ = _ ++ (finished state who call').current other
      rw [hafter]
      simp [Ne.symm hother]

end Requests

end Xv6.Virtio
