import Xv6.Virtio.Requests

/-!
# The steps of the device, and the interrupt

A request goes from `avail` to the device, its data is moved, and it goes to `used`; `virtio_disk_intr` takes it from
there. Each of these steps is about the process that has sent the request, and about no other.
-/

namespace Xv6.Virtio

section Device

variable {ι β D : Type} [DecidableEq ι] [DecidableEq β] {start : Nat → D} {state state' : State ι β D}
  {ghosts : ι → Ghost β} {who : ι} {call : Request.Call β D}

omit [DecidableEq ι] [DecidableEq β] in
theorem mem_tokens_of_avail {i : Nat} (h : i ∈ state.disk.avail.contents) : i ∈ state.tokens :=
  List.mem_append_left _ (List.mem_append_left _ h)

omit [DecidableEq ι] [DecidableEq β] in
theorem mem_tokens_of_busy {r : Request β} (h : r ∈ state.busy) : r.head ∈ state.tokens :=
  List.mem_append_left _ (List.mem_append_right _ (List.mem_map.mpr ⟨r, h, rfl⟩))

omit [DecidableEq ι] [DecidableEq β] in
theorem mem_tokens_of_used {i : Nat} (h : i ∈ state.disk.used.contents) : i ∈ state.tokens :=
  List.mem_append_right _ h

omit [DecidableEq β] in
/-- Nobody else has the descriptors of a request. -/
theorem Inv.head_ne {i n : Nat} {other : ι} (h : Inv start state ghosts) (hasked : Asked state who (ghosts who) call i)
    (hother : other ≠ who) (hn : n ∈ (ghosts other).own) : n ≠ i := by
  rintro rfl
  exact hother (h.chains.apart hn hasked.mem)

omit [DecidableEq ι] [DecidableEq β] in
/-- Nobody else has the buffer of a request. -/
theorem Called.ne_buf {b : β} {other : ι} {ghost : Ghost β} (h : Called state who ghost call) (hother : other ≠ who)
    (hb : state.owner b = some other) : b ≠ call.b := by
  rintro rfl
  exact hother (Option.some.inj (hb.symm.trans h.owner))

/-! ### The device reads a request -/

omit [DecidableEq ι] [DecidableEq β] in
/-- The device reads the request that the driver has formatted. -/
theorem Formatted.parse {disk : Disk β} {i j k : Nat} (h : Formatted disk call i j k) :
    disk.parse i = some ⟨i, call.write, call.sector, call.b, i, false⟩ := by
  have htype : (if call.write = true then blkTOut else blkTIn) = blkTOut ↔ call.write = true := by
    cases call.write <;> decide
  unfold Disk.parse
  simp only [h.first, h.second, h.third, h.ops, htype, and_self, Bool.decide_eq_true, if_true]

def State.taken (state : State ι β D) (r : Request β) : State ι β D :=
  { state with
    disk := { state.disk with avail := state.disk.avail.advance }
    busy := state.busy ++ [r] }

omit [DecidableEq β] in
theorem Inv.taken {i : Nat} (h : Inv start state ghosts) (hasked : Asked state who (ghosts who) call i)
    (hcontents : state.disk.avail.contents = i :: state.disk.avail.advance.contents) :
    Inv start (state.taken (request call i)) ghosts := by
  have hmoved : call.moved = none := hasked.of_avail h.talks (by rw [hcontents]; exact List.mem_cons_self)
  have hperm : (state.taken (request call i)).tokens.Perm state.tokens := by
    change (state.disk.avail.advance.contents ++ (state.busy ++ [request call i]).map Request.head ++
      state.disk.used.contents).Perm (state.disk.avail.contents ++ _ ++ _)
    rw [hcontents, List.map_append, ← List.append_assoc]
    refine List.Perm.append_right _ ?_
    exact List.perm_append_singleton i _
  obtain ⟨j, k, hown, hform⟩ := hasked.own
  refine ⟨h.calm, h.sense, ?_, ?_, ?_, h.history.same rfl rfl rfl rfl⟩
  · exact ⟨h.chains.chain, h.chains.nodup, h.chains.lt, h.chains.apart, h.chains.free⟩
  · refine @Talks.device _ _ _ _ _ ghosts who _ h.talks (fun other hother => ?_) ?_ ?_ ?_
    · refine
        { call := rfl, owner := fun _ => id, buf := fun _ _ => rfl, desc := fun _ _ => rfl, ops := fun _ _ => rfl
          info := fun _ _ => rfl, slot := fun _ => rfl, underway := fun call' n hn hway => ?_
          tokens := fun n _ hmem => hperm.mem_iff.mp hmem }
      rcases hway with ⟨hmoved', hmem⟩ | hmem | hused
      · rw [hcontents] at hmem
        exact Or.inl ⟨hmoved', (List.mem_cons.mp hmem).resolve_left (h.head_ne hasked hother hn)⟩
      · exact Or.inr (Or.inl (List.mem_append_left _ hmem))
      · exact Or.inr (Or.inr hused)
    · refine stands_sent hasked.stage ?_ hown ?_ (Or.inl ⟨hasked.disk, Or.inr (Or.inl ?_)⟩)
      · have hcalled := hasked.called
        exact ⟨hcalled.going, hcalled.args, hcalled.owner, hcalled.sector, hcalled.before, hcalled.moved⟩
      · exact ⟨hform.first, hform.second, hform.third, hform.ops, hform.info⟩
      · exact List.mem_append_right _ List.mem_cons_self
    · exact hperm.nodup_iff.mpr h.talks.nodup
    · exact fun n hn => hperm.mem_iff.mp hn
  · exact h.locked.device rfl (fun _ _ => id) rfl (fun _ => rfl) id

omit [DecidableEq β] in
/-- **What the device reads** makes sense. -/
theorem Inv.take (h : Inv start state ghosts) (hstep : state.take = some state') : Inv start state' ghosts := by
  unfold State.take at hstep
  split at hstep
  · cases hstep
  · next hne =>
      have hcontents := CircularBuffer.contents_eq_cons hne
      have hmem : state.disk.avail.head ∈ state.disk.avail.contents := by rw [hcontents]; exact List.mem_cons_self
      obtain ⟨who, call, hasked⟩ := h.talks.asked (mem_tokens_of_avail hmem)
      obtain ⟨j, k, hown, hform⟩ := hasked.own
      rw [hform.parse] at hstep
      obtain rfl := Option.some.inj hstep
      have hrequest : request call state.disk.avail.head =
          ⟨state.disk.avail.head, call.write, call.sector, call.b, state.disk.avail.head, false⟩ := by
        rw [request, hasked.of_avail h.talks hmem]
        rfl
      rw [← hrequest]
      exact h.taken hasked hcontents

/-! ### The device moves the data -/

omit [DecidableEq ι] [DecidableEq β] in
theorem map_head_set {busy : List (Request β)} {k : Nat} {r r' : Request β} (hr : busy[k]? = some r)
    (hhead : r'.head = r.head) : (busy.set k r').map Request.head = busy.map Request.head := by
  obtain ⟨hk, rfl⟩ := List.getElem?_eq_some_iff.mp hr
  rw [List.map_set, hhead, ← List.map_set, List.set_getElem_self]

omit [DecidableEq ι] [DecidableEq β] in
theorem mem_set_of_ne {busy : List (Request β)} {k : Nat} {r r' other : Request β} (hr : busy[k]? = some r)
    (hne : other ≠ r) (hmem : other ∈ busy) : other ∈ busy.set k r' := by
  obtain ⟨n, hn, rfl⟩ := List.mem_iff_getElem.mp hmem
  have hnk : k ≠ n := by
    rintro rfl
    exact hne (Option.some.inj ((List.getElem?_eq_getElem hn).symm.trans hr))
  refine List.mem_iff_getElem.mpr ⟨n, by rwa [List.length_set], ?_⟩
  exact List.getElem_set_of_ne hnk _ _

theorem Inv.moved {k : Nat} {r : Request β} {data : D} (h : Inv start state ghosts) (hr : state.busy[k]? = some r)
    (hasked : Asked state who (ghosts who) call r.head) (hrequest : r = request call r.head) (hmoved : call.moved = none)
    (hbefore : call.write = true → data = (state.buf call.b).data)
    (hpanicked : state'.panicked = state.panicked) (hbroken : state'.broken = state.broken)
    (hlock : state'.vdiskLock = state.vdiskLock) (hasleep : state'.asleep = state.asleep)
    (hchain : state'.chain = state.chain) (hdisk : state'.disk = state.disk) (howner : state'.owner = state.owner)
    (hreturned : state'.returned = state.returned)
    (hcall : state'.call = Function.update state.call who (some { call with moved := some data }))
    (hbuf : state'.buf = Function.update state.buf call.b { state.buf call.b with data := data })
    (hbusy : state'.busy = state.busy.set k { r with moved := true })
    (hlog : state'.log = state.log ++ [⟨who, call.write, call.sector, data⟩])
    (hplatter : if call.write then state'.platter = Function.update state.platter call.sector data
      else state.platter call.sector = data ∧ state'.platter = state.platter) : Inv start state' ghosts := by
  have htokens : state'.tokens = state.tokens := by
    unfold State.tokens
    rw [hdisk, hbusy, @map_head_set _ _ _ _ { r with moved := true } hr rfl]
  have hkept : ∀ b, (state'.buf b).disk = (state.buf b).disk := by
    intro b
    rw [hbuf]
    by_cases hb : b = call.b
    · rw [hb, Function.update_self]
    · rw [Function.update_of_ne hb]
  have hgot : state'.buf call.b = { state.buf call.b with data := data } := by rw [hbuf, Function.update_self]
  have hgoing : state'.call who = some { call with moved := some data } := by rw [hcall, Function.update_self]
  obtain ⟨j, l, hown, hform⟩ := hasked.own
  refine ⟨hpanicked.trans h.calm, hbroken.trans h.sense, ?_, ?_, ?_, ⟨fun other => ?_, ?_⟩⟩
  · refine ⟨fun other => ?_, h.chains.nodup, h.chains.lt, h.chains.apart, fun i hi => ?_⟩
    · rw [hchain]
      exact h.chains.chain other
    · rw [hdisk]
      exact h.chains.free i hi
  · refine @Talks.device _ _ _ _ _ ghosts who _ h.talks (fun other hother => ?_) ?_ (htokens ▸ h.talks.nodup)
      fun i hi => htokens ▸ hi
    · refine
        { call := by rw [hcall, Function.update_of_ne hother], owner := fun b hb => howner ▸ hb
          buf := fun b hb => by rw [hbuf, Function.update_of_ne (hasked.called.ne_buf hother hb)]
          desc := fun _ _ => by rw [hdisk], ops := fun _ _ => by rw [hdisk], info := fun _ _ => by rw [hdisk]
          slot := fun _ => by rw [hdisk], underway := fun call' n hn hway => ?_
          tokens := fun n _ hmem => htokens ▸ hmem }
      unfold Underway
      rw [hdisk, hbusy]
      refine hway.imp id (Or.imp_left (mem_set_of_ne hr ?_))
      rintro rfl
      exact h.head_ne hasked hother hn rfl
    · refine stands_sent hasked.stage ⟨hgoing, hasked.called.args, ?_, ?_, fun hwrite => ?_, fun data' hdata => ?_⟩ hown
        ?_ (Or.inl ⟨(hkept _).trans hasked.disk, Or.inr (Or.inl ?_)⟩)
      · rw [howner]
        exact hasked.called.owner
      · rw [hgot]
        exact hasked.called.sector
      · rw [hgot]
        exact (hbefore hwrite).trans (hasked.called.before hwrite)
      · rw [hgot]
        exact Option.some.inj hdata
      · rw [hdisk]
        exact ⟨hform.first, hform.second, hform.third, hform.ops, hform.info⟩
      · have hdone : request { call with moved := some data } r.head = { r with moved := true } := by
          conv_rhs => rw [hrequest]
          rfl
        obtain ⟨hk, -⟩ := List.getElem?_eq_some_iff.mp hr
        rw [hdone, hbusy]
        exact List.mem_set hk _
  · refine h.locked.device hlock (fun _ _ hchan => hasleep ▸ hchan) (by rw [hdisk]) hkept ?_
    rw [hdisk]
    exact id
  · rw [hlog, hreturned, List.filter_append, h.history.once other, List.append_assoc]
    refine congrArg (fun rest => state.returned.filter (fun entry => entry.who = other) ++ rest) ?_
    by_cases hother : other = who
    · subst hother
      rw [State.current_of_moved hgoing rfl, State.current_of_waiting hasked.called.going hmoved]
      simp
    · rw [State.current_congr (by rw [hcall, Function.update_of_ne hother])]
      simp [Ne.symm hother]
  · rw [hlog]
    exact h.history.replays.append hplatter

theorem Inv.move {k : Nat} (h : Inv start state ghosts) (hstep : state.move k = some state') :
    Inv start state' ghosts := by
  obtain ⟨r, hr, hstep⟩ := Option.bind_eq_some_iff.mp hstep
  have hmem : r ∈ state.busy := List.mem_of_getElem? hr
  obtain ⟨who, call, hasked⟩ := h.talks.asked (mem_tokens_of_busy hmem)
  have hrequest := hasked.of_busy h.talks hmem
  have hb : r.b = call.b := congrArg Request.b hrequest
  have hwrite : r.write = call.write := congrArg Request.write hrequest
  have hsector : r.sector = call.sector := congrArg Request.sector hrequest
  have hismoved : r.moved = call.moved.isSome := congrArg Request.moved hrequest
  split at hstep
  · cases hstep
  · next hunmoved =>
      have hmoved : call.moved = none := by
        rw [hismoved, Option.not_isSome_iff_eq_none] at hunmoved
        exact hunmoved
      rw [hb, hasked.called.owner] at hstep
      dsimp only at hstep
      rw [hsector, hwrite] at hstep
      have hcall : ∀ data : D, (state.moved who data).call =
          Function.update state.call who (some { call with moved := some data }) := by
        intro data
        change Function.update state.call who ((state.call who).map _) = _
        rw [hasked.called.going]
        rfl
      split at hstep
      · next hw =>
          obtain rfl := Option.some.inj hstep
          refine @Inv.moved _ _ _ _ _ _ _ _ ghosts who call k r (state.buf call.b).data h hr hasked hrequest hmoved
            (fun _ => rfl) rfl rfl rfl rfl rfl rfl rfl rfl (hcall _) ?_ (by rw [hb, hwrite, hsector]) ?_ ?_
          · exact (Function.update_eq_self _ _).symm
          · rw [hw]
          · rw [if_pos hw]
      · next hw =>
          obtain rfl := Option.some.inj hstep
          refine @Inv.moved _ _ _ _ _ _ _ _ ghosts who call k r (state.platter call.sector) h hr hasked hrequest hmoved
            (fun hyes => absurd hyes hw) rfl rfl rfl rfl rfl rfl rfl rfl (hcall _) rfl (by rw [hb, hwrite, hsector]) ?_ ?_
          · rw [Bool.eq_false_iff.mpr hw]
          · rw [if_neg hw]
            exact ⟨rfl, rfl⟩

/-! ### The device has done a request -/

/-- The state after the device has put a request into `used`. -/
def State.answered (state : State ι β D) (k : Nat) (i : Nat) : State ι β D :=
  { state with
    busy := state.busy.eraseIdx k
    disk := { state.disk with
      info := Function.update state.disk.info i { state.disk.info i with status := 0 }
      used := state.disk.used.put i } }

omit [DecidableEq β] in
theorem Inv.answer_asked {k : Nat} {r : Request β} (h : Inv start state ghosts) (hr : state.busy[k]? = some r)
    (hasked : Asked state who (ghosts who) call r.head) (hmoved : call.moved ≠ none) :
    Inv start (state.answered k r.head) ghosts := by
  obtain ⟨hk, hget⟩ := List.getElem?_eq_some_iff.mp hr
  have hbusy : (r :: state.busy.eraseIdx k).Perm state.busy := by
    have hcons := List.getElem_cons_eraseIdx_perm hk
    rwa [hget] at hcons
  have hroom : state.disk.used.count < num := by
    have hle := h.length_tokens_le
    rw [← count_add_le] at hle
    omega
  have hcontents : (state.answered k r.head).disk.used.contents = state.disk.used.contents ++ [r.head] :=
    CircularBuffer.contents_put r.head hroom num_lt num_dvd
  have hperm : (state.answered k r.head).tokens.Perm state.tokens := by
    change (state.disk.avail.contents ++ (state.busy.eraseIdx k).map Request.head ++
      (state.answered k r.head).disk.used.contents).Perm (state.disk.avail.contents ++ _ ++ _)
    rw [hcontents, List.append_assoc, List.append_assoc]
    refine List.Perm.append_left _ ?_
    calc
      List.Perm ((state.busy.eraseIdx k).map Request.head ++ (state.disk.used.contents ++ [r.head]))
          ((state.busy.eraseIdx k).map Request.head ++ (r.head :: state.disk.used.contents)) :=
        List.Perm.append_left _ (List.perm_append_singleton _ _)
      List.Perm _ (r.head :: ((state.busy.eraseIdx k).map Request.head ++ state.disk.used.contents)) :=
        List.perm_middle
      List.Perm _ (state.busy.map Request.head ++ state.disk.used.contents) :=
        List.Perm.append_right _ (hbusy.map Request.head)
  have hinfo : ∀ n, n ≠ r.head → (state.answered k r.head).disk.info n = state.disk.info n := fun n hn =>
    Function.update_of_ne hn _ _
  have hstatus : (state.answered k r.head).disk.info r.head = { state.disk.info r.head with status := 0 } :=
    Function.update_self ..
  obtain ⟨j, l, hown, hform⟩ := hasked.own
  refine ⟨h.calm, h.sense, ?_, ?_, ?_, h.history.same rfl rfl rfl rfl⟩
  · exact ⟨h.chains.chain, h.chains.nodup, h.chains.lt, h.chains.apart, h.chains.free⟩
  · refine @Talks.device _ _ _ _ _ ghosts who _ h.talks (fun other hother => ?_) ?_
      (hperm.nodup_iff.mpr h.talks.nodup) fun n hn => hperm.mem_iff.mp hn
    · refine
        { call := rfl, owner := fun _ => id, buf := fun _ _ => rfl, desc := fun _ _ => rfl, ops := fun _ _ => rfl
          info := fun n hn => hinfo n (h.head_ne hasked hother hn), slot := fun _ => rfl
          underway := fun call' n hn hway => ?_, tokens := fun n _ hmem => hperm.mem_iff.mp hmem }
      have hne := h.head_ne hasked hother hn
      rcases hway with havail | hmem | ⟨hmoved', hzero, hmem⟩
      · exact Or.inl havail
      · refine Or.inr (Or.inl ((List.mem_cons.mp (hbusy.mem_iff.mpr hmem)).resolve_left ?_))
        rintro rfl
        exact hne rfl
      · refine Or.inr (Or.inr ⟨hmoved', ?_, ?_⟩)
        · rw [hinfo n hne]
          exact hzero
        · rw [hcontents]
          exact List.mem_append_left _ hmem
    · have hcalled := hasked.called
      refine stands_sent hasked.stage
        ⟨hcalled.going, hcalled.args, hcalled.owner, hcalled.sector, hcalled.before, hcalled.moved⟩ hown
        ⟨hform.first, hform.second, hform.third, hform.ops, ?_⟩
        (Or.inl ⟨hasked.disk, Or.inr (Or.inr ⟨hmoved, ?_, ?_⟩)⟩)
      · rw [hstatus]
        exact hform.info
      · rw [hstatus]
      · rw [hcontents]
        exact List.mem_append_right _ List.mem_cons_self
  · refine h.locked.device rfl (fun _ _ => id) rfl (fun _ => rfl) fun _ hnil => ?_
    rw [hcontents] at hnil
    simp at hnil

omit [DecidableEq β] in
/-- **What the device has done** is in `used`, with its status. -/
theorem Inv.answer {k : Nat} (h : Inv start state ghosts) (hstep : state.answer k = some state') :
    Inv start state' ghosts := by
  obtain ⟨r, hr, hstep⟩ := Option.bind_eq_some_iff.mp hstep
  have hmem : r ∈ state.busy := List.mem_of_getElem? hr
  obtain ⟨who, call, hasked⟩ := h.talks.asked (mem_tokens_of_busy hmem)
  have hrequest := hasked.of_busy h.talks hmem
  split at hstep
  · next hmoved =>
      obtain rfl := Option.some.inj hstep
      have hstatus : r.status = r.head := congrArg Request.status hrequest
      have hcall : call.moved ≠ none := by
        rw [congrArg Request.moved hrequest] at hmoved
        exact Option.isSome_iff_ne_none.mp hmoved
      rw [hstatus]
      exact h.answer_asked hr hasked hcall
  · cases hstep

/-! ### `virtio_disk_intr` -/

/-- The state after a request was taken from `used`. -/
def State.completed (state : State ι β D) (b : β) : State ι β D :=
  let done := (state.setBuf b { state.buf b with disk := false }).wakeup (.buf b)
  { done with disk := { done.disk with used := done.disk.used.advance } }

omit [DecidableEq ι] in
theorem buf_completed {b : β} : (state.completed b).buf b = { state.buf b with disk := false } := Function.update_self ..

omit [DecidableEq ι] in
theorem buf_completed_of_ne {b b' : β} (hne : b' ≠ b) : (state.completed b).buf b' = state.buf b' :=
  Function.update_of_ne hne ..

omit [DecidableEq ι] in
/-- **`virtio_disk_intr`** finds a request that was done. -/
theorem Asked.complete_eq (h : Talks state ghosts) (hasked : Asked state who (ghosts who) call state.disk.used.head)
    (hmem : state.disk.used.head ∈ state.disk.used.contents) : state.complete = state.completed call.b := by
  obtain ⟨-, hstatus⟩ := hasked.of_used h hmem
  obtain ⟨j, k, -, hform⟩ := hasked.own
  unfold State.complete
  dsimp only
  rw [if_neg (not_not.mpr hstatus), hform.info]
  rfl

theorem Talks.complete {i : Nat} (h : Inv start state ghosts) (hasked : Asked state who (ghosts who) call i)
    (hcontents : state.disk.used.contents = i :: state.disk.used.advance.contents) :
    Talks (state.completed call.b) ghosts := by
  have hmem : i ∈ state.disk.used.contents := by rw [hcontents]; exact List.mem_cons_self
  have hperm : (i :: (state.completed call.b).tokens).Perm state.tokens := by
    change (i :: (state.disk.avail.contents ++ state.busy.map Request.head ++
      state.disk.used.advance.contents)).Perm (state.disk.avail.contents ++ _ ++ _)
    rw [hcontents]
    exact List.perm_middle.symm
  have hnodup := hperm.nodup_iff.mpr h.talks.nodup
  obtain ⟨j, k, hown, hform⟩ := hasked.own
  refine @Talks.device _ _ _ _ _ ghosts who _ h.talks (fun other hother => ?_) ?_ (List.nodup_cons.mp hnodup).2
    fun n hn => hperm.mem_iff.mp (List.mem_cons_of_mem _ hn)
  · refine
      { call := rfl, owner := fun _ => id, buf := fun b hb => buf_completed_of_ne (hasked.called.ne_buf hother hb)
        desc := fun _ _ => rfl, ops := fun _ _ => rfl, info := fun _ _ => rfl, slot := fun _ => rfl
        underway := fun call' n hn hway => ?_
        tokens := fun n _ hmem' => hperm.mem_iff.mp (List.mem_cons_of_mem _ hmem') }
    refine hway.imp id (Or.imp id fun hused => ⟨hused.1, hused.2.1, ?_⟩)
    have hused := hused.2.2
    rw [hcontents] at hused
    exact (List.mem_cons.mp hused).resolve_left (h.head_ne hasked hother hn)
  · have hcalled := hasked.called
    refine stands_sent hasked.stage ⟨hcalled.going, hcalled.args, hcalled.owner, ?_, ?_, ?_⟩ hown
      ⟨hform.first, hform.second, hform.third, hform.ops, hform.info⟩
      (Or.inr ⟨?_, (hasked.of_used h.talks hmem).1, (List.nodup_cons.mp hnodup).1⟩)
    · rw [buf_completed]
      exact hcalled.sector
    · rw [buf_completed]
      exact hcalled.before
    · rw [buf_completed]
      exact hcalled.moved
    · rw [buf_completed]

theorem Inv.complete (h : Inv start state ghosts) (hholds : (ghosts who).holds = true) (hawake : state.asleep who = none)
    (hunseen : (ghosts who).unseen = true) (honDisk : (ghosts who).onDisk = false) :
    Inv start state.complete (Function.update ghosts who { ghosts who with unseen := false }) := by
  have hne : state.disk.used.nwrite ≠ state.disk.used.nread := fun heq =>
    (h.locked.knows who).unseen hunseen (CircularBuffer.contents_eq_nil.mpr heq)
  have hcontents := CircularBuffer.contents_eq_cons hne
  have hmem : state.disk.used.head ∈ state.disk.used.contents := by rw [hcontents]; exact List.mem_cons_self
  obtain ⟨subject, call, hasked⟩ := h.talks.asked (mem_tokens_of_used hmem)
  rw [hasked.complete_eq h.talks hmem]
  refine ⟨h.calm, h.sense, h.chains.same rfl rfl rfl, ?_, ?_, h.history.same rfl rfl rfl rfl⟩
  · exact (Talks.complete h hasked hcontents).same (fun _ => .of_eq rfl rfl rfl rfl rfl rfl rfl rfl rfl) rfl rfl rfl rfl
  · refine h.locked.keep hholds hholds rfl hawake (fun other chan hchan => ?_)
      ⟨(h.locked.knows who).spare, fun hyes => ?_, fun hyes => ?_⟩
    · change (if state.asleep other = some (.buf call.b) then none else state.asleep other) = some chan at hchan
      split at hchan
      · cases hchan
      · next hchannel =>
          refine ⟨hchan, fun hsleeps => hsleeps.mono (fun _ _ _ => id) fun b heq hdisk => ?_⟩
          rw [buf_completed_of_ne]
          · exact hdisk
          · rintro rfl
            exact hchannel (heq ▸ hchan)
    · exact absurd (honDisk.symm.trans hyes) Bool.false_ne_true
    · cases hyes

/-! ### What else happens -/

def State.begun (state : State ι β D) (who : ι) (b : β) (write : Bool) : State ι β D :=
  let buf := state.buf b
  { state.setCall who (some ⟨b, write, buf.blockno * (bsize / 512), buf.data, none⟩) with
    owner := Function.update state.owner b (some who) }

theorem Inv.begun {b : β} (h : Inv start state ghosts) (write : Bool) (hidle : ghosts who = .idle)
    (hfree : state.owner b = none) :
    Inv start (state.begun who b write) (Function.update ghosts who (.begun b write)) := by
  have hnone : state.call who = none := by
    have hstands := h.talks.stands who
    unfold Stands at hstands
    rw [hidle] at hstands
    exact hstands.2.2
  have hothers : ∀ other, other ≠ who → Frame state (state.begun who b write) other (ghosts other) := by
    intro other hother
    refine .of_quiet (Function.update_of_ne hother _ _) (fun b' hb' => ?_) (fun _ _ => rfl) (fun _ _ => rfl)
      (fun _ _ => rfl) (fun _ _ => rfl) rfl rfl rfl
    refine (Function.update_of_ne ?_ _ _).trans hb'
    rintro rfl
    rw [hfree] at hb'
    cases hb'
  refine ⟨h.calm, h.sense, h.chains.same rfl rfl (by rw [hidle]; rfl), ?_, ?_, ⟨fun other => ?_, h.history.replays⟩⟩
  · refine h.talks.quiet hothers ⟨⟨b, write, _, _, none⟩, ⟨Function.update_self .., rfl, Function.update_self .., rfl,
      fun _ => rfl, fun _ hnot => by cases hnot⟩, rfl⟩ rfl fun hsent => ?_
    rw [hidle] at hsent
    cases hsent
  · have hout : Outside (.begun b write : Ghost β) := ⟨Or.inr (Or.inl rfl), rfl, rfl, rfl⟩
    refine ⟨fun other => ?_, fun other hother => ?_, fun other chan hchan => ?_, fun other => ?_⟩
    · rw [@field_update _ _ ghosts who (.begun b write) _ _ Ghost.holds (by rw [hidle]; rfl)]
      exact h.locked.lock other
    · by_cases heq : other = who
      · rw [heq, Function.update_self]
        exact hout
      · rw [Function.update_of_ne heq] at hother ⊢
        exact h.locked.outside other hother
    · have hsleeps := h.locked.sleeps other chan hchan
      by_cases heq : other = who
      · rw [heq, hidle] at hsleeps
        cases chan with
        | free => cases hsleeps.1
        | buf b => cases hsleeps.1
      · rw [Function.update_of_ne heq]
        exact hsleeps.mono (fun _ _ _ => id) fun _ _ => id
    · by_cases heq : other = who
      · rw [heq, Function.update_self]
        exact hout.knows
      · rw [Function.update_of_ne heq]
        exact ⟨(h.locked.knows other).spare, (h.locked.knows other).onDisk, (h.locked.knows other).unseen⟩
  · refine (h.history.once other).trans (congrArg _ ?_)
    by_cases heq : other = who
    · rw [heq, State.current_of_none hnone]
      exact (State.current_of_waiting (Function.update_self ..) rfl).symm
    · exact (State.current_congr (Function.update_of_ne heq _ _)).symm

theorem Inv.use {b : β} (h : Inv start state ghosts) (blockno : Nat) (data : D) (hfree : state.owner b = none) :
    Inv start (state.setBuf b { state.buf b with blockno := blockno, data := data }) ghosts := by
  have hframe : ∀ other, Frame state (state.setBuf b { state.buf b with blockno := blockno, data := data }) other
      (ghosts other) := by
    intro other
    refine .of_quiet rfl (fun _ => id) (fun b' hb' => Function.update_of_ne ?_ _ _) (fun _ _ => rfl) (fun _ _ => rfl)
      (fun _ _ => rfl) rfl rfl rfl
    rintro rfl
    rw [hfree] at hb'
    cases hb'
  refine ⟨h.calm, h.sense, ?_, ?_, ?_, h.history.same rfl rfl rfl rfl⟩
  · exact ⟨h.chains.chain, h.chains.nodup, h.chains.lt, h.chains.apart, h.chains.free⟩
  · exact ⟨fun other => (h.talks.stands other).frame (hframe other) rfl rfl rfl, h.talks.nodup, h.talks.sent⟩
  · refine h.locked.device rfl (fun _ _ => id) rfl (fun b' => ?_) id
    by_cases hb' : b' = b
    · have hself : (state.setBuf b { state.buf b with blockno := blockno, data := data }).buf b =
          { state.buf b with blockno := blockno, data := data } := Function.update_self ..
      rw [hb', hself]
    · exact congrArg Buf.disk (Function.update_of_ne hb' _ _)

omit [DecidableEq β] in
/-- A process runs again. -/
theorem Inv.rouse (h : Inv start state ghosts) :
    Inv start { state with asleep := Function.update state.asleep who none } ghosts := by
  refine ⟨h.calm, h.sense, ?_, ?_, ?_, h.history.same rfl rfl rfl rfl⟩
  · exact ⟨h.chains.chain, h.chains.nodup, h.chains.lt, h.chains.apart, h.chains.free⟩
  · exact ⟨fun other => (h.talks.stands other).frame (.of_eq rfl rfl rfl rfl rfl rfl rfl rfl rfl) rfl rfl rfl,
      h.talks.nodup, h.talks.sent⟩
  · refine h.locked.device rfl (fun other chan hchan => ?_) rfl (fun _ => rfl) id
    by_cases hother : other = who
    · change Function.update state.asleep who none other = some chan at hchan
      rw [hother, Function.update_self] at hchan
      cases hchan
    · exact (Function.update_of_ne hother _ _).symm.trans hchan

end Device

end Xv6.Virtio
