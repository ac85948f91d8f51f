import Xv6.Storage.Atomicity

/-!
# What `sys_sync` waits for

`sys_sync` waits for one more commit than it finds, if an operation or a commit is in progress, and
for none otherwise. What has been logged by then is in the group in progress, if it is not in an
earlier one, and that group is in the log on the disk before `ncommit` moves. A group whose header
has reached the disk is never forgotten.
-/

set_option linter.unusedSectionVars false

namespace Xv6.Kernel

variable {n : Nat} {ι D : Type} [DecidableEq ι] [Fintype ι] {conf : Config D}

theorem eq_nil_of_pendingOf_eq_none {writes : List (Nat × D)}
    (hnone : ∀ blockno, pendingOf writes blockno = none) : writes = [] := by
  cases writes using List.reverseRecOn with
  | nil => rfl
  | append_singleton writes write =>
      have hlast := hnone write.1
      rw [show write = (write.1, write.2) from rfl, pendingOf_append, Function.update_self] at hlast
      cases hlast

structure SameLog (state state' : State n ι D) : Prop where
  log : state'.log = state.log
  up : state'.up = state.up
  current : state'.current = state.current
  committed : state'.committed = state.committed

theorem handler_cases {who : ι} {state state' : State n ι D} {op : (sections n D).Op} {choice : Nat}
    {response : (sections n D).Resp op}
    (hstep : handler conf who state op choice = some (response, state')) :
    match op with
    | .diskWrite b => state' = state.writeBlock conf (state.cache.buf b).blockno
        (state.cache.buf b).content.data
    | .beginOp => ∃ log, state.log.beginOp = some log ∧ state' = { state with log }
    | .logWrite b => ∃ cache log fresh,
        state.log.logWrite (state.cache.buf b).blockno = .ok (log, fresh) ∧
          state' = { state with
            cache
            log
            current := state.current ++
              [((state.cache.buf b).blockno, (state.cache.buf b).content.data)] }
    | .endOp => ∃ log doCommit, state.log.endOp = .ok (log, doCommit) ∧ state' = { state with log }
    | .finishCommit => state' = { state with log := state.log.finishCommit }
    | .setLh lh => state' = { state with log := { state.log with lh } }
    | .up => state' = { state with up := true }
    | _ => SameLog state state' := by
  cases op with
  | diskWrite b =>
      cases hstep
      rfl
  | beginOp =>
      obtain ⟨log, hbegin, hresult⟩ := Option.map_eq_some_iff.mp hstep
      cases hresult
      exact ⟨log, hbegin, rfl⟩
  | logWrite b =>
      simp only [handler] at hstep
      split at hstep
      · cases hstep
      · next log fresh hlogged =>
          cases hstep
          exact ⟨_, log, fresh, hlogged, rfl⟩
  | endOp =>
      simp only [handler] at hstep
      split at hstep
      · cases hstep
      · next log doCommit hend =>
          cases hstep
          exact ⟨log, _, hend, rfl⟩
  | finishCommit =>
      cases hstep
      rfl
  | setLh lh =>
      cases hstep
      rfl
  | up =>
      cases hstep
      rfl
  | bget dev blockno =>
      obtain ⟨result, -, hresult⟩ := Option.map_eq_some_iff.mp hstep
      cases hresult
      exact ⟨rfl, rfl, rfl, rfl⟩
  | acquiresleep b =>
      obtain ⟨cache, -, hresult⟩ := Option.map_eq_some_iff.mp hstep
      cases hresult
      exact ⟨rfl, rfl, rfl, rfl⟩
  | syncWait target =>
      simp only [handler] at hstep
      split at hstep
      · cases hstep
      · cases hstep
        exact ⟨rfl, rfl, rfl, rfl⟩
  | forked =>
      simp only [handler] at hstep
      split at hstep
      · cases hstep
        exact ⟨rfl, rfl, rfl, rfl⟩
      · cases hstep
  | panic message => cases hstep
  | _ =>
      cases hstep
      exact ⟨rfl, rfl, rfl, rfl⟩

/-! ### A group on the disk stays -/

theorem committed_writeBlock (state : State n ι D) (blockno : Nat) (data : D) :
    state.committed <+: (state.writeBlock conf blockno data).committed := by
  unfold State.writeBlock
  split
  · exact List.prefix_append _ _
  · exact List.prefix_refl _

theorem committed_handler {who : ι} {state state' : State n ι D} {op : (sections n D).Op}
    {choice : Nat} {response : (sections n D).Resp op}
    (hstep : handler conf who state op choice = some (response, state')) :
    state.committed <+: state'.committed := by
  have hcases := handler_cases hstep
  cases op with
  | diskWrite b =>
      cases hcases
      exact committed_writeBlock _ _ _
  | beginOp =>
      obtain ⟨log, -, rfl⟩ := hcases
      exact List.prefix_refl _
  | logWrite b =>
      obtain ⟨cache, log, fresh, -, rfl⟩ := hcases
      exact List.prefix_refl _
  | endOp =>
      obtain ⟨log, doCommit, -, rfl⟩ := hcases
      exact List.prefix_refl _
  | finishCommit | setLh lh | up =>
      cases hcases
      exact List.prefix_refl _
  | _ => exact hcases.committed ▸ List.prefix_refl _

def Recorded (write : Nat × D) (state : State n ι D) : Prop :=
  write ∈ state.current ∨ ∃ group ∈ state.committed, write ∈ group

theorem recorded_handler {who : ι} {state state' : State n ι D} {op : (sections n D).Op}
    {choice : Nat} {response : (sections n D).Resp op} {write : Nat × D}
    (h : Recorded write state)
    (hstep : handler conf who state op choice = some (response, state')) :
    Recorded write state' := by
  have hcases := handler_cases hstep
  cases op with
  | diskWrite b =>
      cases hcases
      unfold State.writeBlock
      split
      · obtain hcurrent | ⟨group, hgroup, hmem⟩ := h
        · exact Or.inr ⟨state.current, by simp, hcurrent⟩
        · exact Or.inr ⟨group, by simp [hgroup], hmem⟩
      · exact h
  | beginOp =>
      obtain ⟨log, -, rfl⟩ := hcases
      exact h
  | logWrite b =>
      obtain ⟨cache, log, fresh, -, rfl⟩ := hcases
      exact h.imp_left fun hcurrent => List.mem_append_left _ hcurrent
  | endOp =>
      obtain ⟨log, doCommit, -, rfl⟩ := hcases
      exact h
  | finishCommit | setLh lh | up =>
      cases hcases
      exact h
  | _ =>
      unfold Recorded
      rw [hcases.current, hcases.committed]
      exact h

/-! ### The group in progress -/

def Quiet (state : State n ι D) : Prop :=
  state.up = true → state.log.committing = false → state.log.outstanding = 0 → state.log.lh = []

theorem quiet_handler {init : Nat → D} {who : ι} {state state' : State n ι D}
    {ghosts : ι → Ghost n D} {op : (sections n D).Op} {choice : Nat}
    {response : (sections n D).Resp op} {post : (sections n D).Resp op → Ghost n D → Prop}
    (hinv : Inv conf init state ghosts) (hrule : rule conf op (ghosts who) post) (h : Quiet state)
    (hstep : handler conf who state op choice = some (response, state')) : Quiet state' := by
  obtain ⟨job, hinv⟩ := hinv
  have hcases := handler_cases hstep
  cases op with
  | diskWrite b =>
      cases hcases
      unfold State.writeBlock
      split <;> exact h
  | beginOp =>
      obtain ⟨log, hbegin, rfl⟩ := hcases
      obtain ⟨-, -, rfl⟩ := Log.beginOp_eq_some_iff.mp hbegin
      exact fun _ _ hzero => absurd hzero (Nat.succ_ne_zero _)
  | logWrite b =>
      obtain ⟨cache, log, fresh, hlogged, rfl⟩ := hcases
      obtain ⟨-, -, hpos, ⟨-, rfl, -⟩ | ⟨-, rfl, -⟩⟩ := Log.logWrite_eq_ok_iff.mp hlogged <;>
        exact fun _ _ hzero => absurd (hpos.trans_eq hzero) (Nat.not_succ_le_zero 0)
  | endOp =>
      obtain ⟨log, doCommit, hend, rfl⟩ := hcases
      obtain ⟨-, ⟨-, rfl, -⟩ | ⟨hmore, rfl, -⟩⟩ := Log.endOp_eq_ok_iff.mp hend
      · exact fun _ hcommitting _ => absurd hcommitting (by simp)
      · exact fun _ _ hzero => absurd hzero (Nat.sub_ne_zero_of_lt hmore)
  | finishCommit =>
      cases hcases
      obtain ⟨held, hheld, -, -, -, -, hmem, -⟩ := hrule
      obtain rfl := hinv.roles.held who held hheld
      have hlog : JobOk _ _ _ _ _ _ := hinv.log
      exact fun _ _ _ => hlog.lh.trans hmem
  | setLh lh =>
      cases hcases
      obtain ⟨held, hheld, -, -⟩ := hrule
      obtain rfl := hinv.roles.held who held hheld
      have hlog : JobOk _ _ _ _ _ _ := hinv.log
      intro hup hcommitting _
      have hrecovering : held.recovering = true := by
        have hflag := hlog.committing
        change state.log.committing = false at hcommitting
        rw [hcommitting] at hflag
        simpa using hflag.symm
      exact absurd (hup.symm.trans (hinv.roles.recovering held rfl hrecovering)) (by simp)
  | up =>
      cases hcases
      obtain ⟨held, hheld, -, -, -, hmem, -⟩ := hrule
      obtain rfl := hinv.roles.held who held hheld
      have hlog : JobOk _ _ _ _ _ _ := hinv.log
      exact fun _ _ _ => hlog.lh.trans hmem
  | _ =>
      unfold Quiet
      rw [hcases.log, hcases.up]
      exact h

def Stored (before : State n ι D) (committed : List (List (Nat × D))) : Prop :=
  before.current = [] ∧ before.committed <+: committed ∨
    ∃ more, before.committed ++ [before.current ++ more] <+: committed

theorem Stored.mono {before : State n ι D} {committed committed' : List (List (Nat × D))}
    (h : Stored before committed) (hstart : committed <+: committed') : Stored before committed' := by
  obtain ⟨hnil, hbefore⟩ | ⟨more, hbefore⟩ := h
  · exact Or.inl ⟨hnil, hbefore.trans hstart⟩
  · exact Or.inr ⟨more, hbefore.trans hstart⟩

theorem Stored.exists_mem {before : State n ι D} {committed : List (List (Nat × D))}
    {write : Nat × D} (h : Stored before committed) (hrecorded : Recorded write before) :
    ∃ group ∈ committed, write ∈ group := by
  obtain ⟨hnil, hstart⟩ | ⟨more, hstart⟩ := h
  · obtain hcurrent | ⟨group, hgroup, hmem⟩ := hrecorded
    · rw [hnil] at hcurrent
      cases hcurrent
    · exact ⟨group, hstart.subset hgroup, hmem⟩
  · obtain hcurrent | ⟨group, hgroup, hmem⟩ := hrecorded
    · exact ⟨before.current ++ more, hstart.subset (by simp), List.mem_append_left _ hcurrent⟩
    · exact ⟨group, hstart.subset (List.mem_append_left _ hgroup), hmem⟩

structure Pending (before state : State n ι D) : Prop where
  ncommit : state.log.ncommit = before.log.ncommit
  committed : state.committed = before.committed
  current : before.current <+: state.current

theorem current_eq_nil_of_finish {disk based : Nat → D} {log : Log} {current : List (Nat × D)}
    {job : Job D} (h : JobOk conf disk based log current job) (htodo : job.todo = []) :
    current = [] := by
  apply eq_nil_of_pendingOf_eq_none
  intro blockno
  rw [h.current, if_neg]
  rintro ⟨⟨-, -, hlh⟩, hmem⟩
  rw [← hlh, htodo] at hmem
  cases hmem

theorem pending_handler {init : Nat → D} {who : ι} {before state state' : State n ι D}
    {ghosts : ι → Ghost n D} {op : (sections n D).Op} {choice : Nat}
    {response : (sections n D).Resp op} {post : (sections n D).Resp op → Ghost n D → Prop}
    (hinv : Inv conf init state ghosts) (hrule : rule conf op (ghosts who) post)
    (h : Pending before state)
    (hstep : handler conf who state op choice = some (response, state')) :
    Stored before state'.committed ∨ Pending before state' := by
  obtain ⟨job, hinv⟩ := hinv
  have hcases := handler_cases hstep
  cases op with
  | diskWrite b =>
      cases hcases
      unfold State.writeBlock
      split
      · left
        obtain ⟨more, hmore⟩ := h.current
        refine Or.inr ⟨more, ?_⟩
        rw [hmore, ← h.committed]
      · exact Or.inr ⟨h.ncommit, h.committed, h.current⟩
  | beginOp =>
      obtain ⟨log, hbegin, rfl⟩ := hcases
      obtain ⟨-, -, rfl⟩ := Log.beginOp_eq_some_iff.mp hbegin
      exact Or.inr ⟨h.ncommit, h.committed, h.current⟩
  | logWrite b =>
      obtain ⟨cache, log, fresh, hlogged, rfl⟩ := hcases
      have hncommit : log.ncommit = state.log.ncommit := by
        obtain ⟨-, -, -, ⟨-, rfl, -⟩ | ⟨-, rfl, -⟩⟩ := Log.logWrite_eq_ok_iff.mp hlogged <;> rfl
      exact Or.inr ⟨hncommit.trans h.ncommit, h.committed,
        h.current.trans (List.prefix_append _ _)⟩
  | endOp =>
      obtain ⟨log, doCommit, hend, rfl⟩ := hcases
      have hncommit : log.ncommit = state.log.ncommit := by
        obtain ⟨-, ⟨-, rfl, -⟩ | ⟨-, rfl, -⟩⟩ := Log.endOp_eq_ok_iff.mp hend <;> rfl
      exact Or.inr ⟨hncommit.trans h.ncommit, h.committed, h.current⟩
  | finishCommit =>
      cases hcases
      left
      obtain ⟨held, hheld, -, -, htodo, -, -, -⟩ := hrule
      obtain rfl := hinv.roles.held who held hheld
      have hcurrent : state.current = [] := current_eq_nil_of_finish hinv.log htodo
      refine Or.inl ⟨List.prefix_nil.mp (hcurrent ▸ h.current), ?_⟩
      exact h.committed ▸ List.prefix_refl _
  | setLh lh | up =>
      cases hcases
      exact Or.inr ⟨h.ncommit, h.committed, h.current⟩
  | _ =>
      right
      exact ⟨hcases.log ▸ h.ncommit, hcases.committed.trans h.committed,
        hcases.current ▸ h.current⟩

/-! ### Runs -/

section Runs

variable [Inhabited D] {init : Nat → D} {first : ι}

def Good (conf : Config D) (init : Nat → D)
    (world : Threads (sections n D) (State n ι D) ι (Local n)) : Prop :=
  Threads.Verified (rule conf) (Inv conf init) (fun _ => Between conf) world ∧ Quiet world.shared

variable {world world' : Threads (sections n D) (State n ι D) ι (Local n)}
  {action : Threads.Action ι (Call n D) (Event ι)}

theorem good_boot (hheader : conf.header.decode (init conf.start) = []) (first : ι)
    (user : ι → Nat → Option (Nat → UInt8)) :
    Good conf init (boot conf first (.fresh n) init user []) := by
  have hrecoverable : Recoverable conf init (base init []) [] (base init []) :=
    .nil hheader fun _ _ => rfl
  refine ⟨verified_boot hrecoverable first user fun _ _ => Between.fresh, fun hup => ?_⟩
  cases hup

theorem good_step (h : Good conf init world)
    (hstep : Threads.step (system conf first) world action = some world') :
    Good conf init world' := by
  have hrun : Transition.run (Threads.step (system conf first)) world [action] = some world' := by
    simp [Transition.run, hstep]
  refine ⟨Threads.sound_run (handler_sound init) (environment_sound first fun _ _ => Between.fresh)
    menu_sound h.1 hrun, ?_⟩
  apply h.1.shared_step Quiet ?_ h.2 ?_ hstep
  · intro ghosts who op choice response shared' Q hinv hrule hhandler
    exact quiet_handler hinv hrule h.2 hhandler
  · intro event _ hevent
    cases event with
    | crash =>
        cases hevent
        intro hup
        cases hup
    | remap who pages =>
        cases hevent
        exact h.2

theorem good_run {actions : List (Threads.Action ι (Call n D) (Event ι))} (h : Good conf init world)
    (hrun : Transition.run (Threads.step (system conf first)) world actions = some world') :
    Good conf init world' :=
  Transition.invariant_run (fun _ _ _ => good_step) h hrun

theorem recorded_step {write : Nat × D} (hgood : Good conf init world)
    (hcrash : action ≠ .env .crash) (h : Recorded write world.shared)
    (hstep : Threads.step (system conf first) world action = some world') :
    Recorded write world'.shared := by
  apply hgood.1.shared_step (Recorded write) ?_ h ?_ hstep
  · intro ghosts who op choice response shared' Q _ _ hhandler
    exact recorded_handler h hhandler
  · rintro event rfl hevent
    cases event with
    | crash => exact absurd rfl hcrash
    | remap who pages =>
        cases hevent
        exact h

theorem committed_step (hgood : Good conf init world)
    (hstep : Threads.step (system conf first) world action = some world') :
    world.shared.committed <+: world'.shared.committed := by
  apply hgood.1.shared_step (fun shared => world.shared.committed <+: shared.committed) ?_
    (List.prefix_refl _) ?_ hstep
  · intro ghosts who op choice response shared' Q _ _ hhandler
    exact committed_handler hhandler
  · intro event _ hevent
    cases event with
    | crash =>
        cases hevent
        exact List.prefix_refl _
    | remap who pages =>
        cases hevent
        exact List.prefix_refl _

theorem pending_step {before : State n ι D} (hgood : Good conf init world)
    (hcrash : action ≠ .env .crash)
    (h : Stored before world.shared.committed ∨ Pending before world.shared)
    (hstep : Threads.step (system conf first) world action = some world') :
    Stored before world'.shared.committed ∨ Pending before world'.shared := by
  obtain hstored | hpending := h
  · exact Or.inl (hstored.mono (committed_step hgood hstep))
  apply hgood.1.shared_step (fun shared => Stored before shared.committed ∨ Pending before shared)
    ?_ (Or.inr hpending) ?_ hstep
  · intro ghosts who op choice response shared' Q hinv hrule hhandler
    exact pending_handler hinv hrule hpending hhandler
  · rintro event rfl hevent
    cases event with
    | crash => exact absurd rfl hcrash
    | remap who pages =>
        cases hevent
        exact Or.inr ⟨hpending.ncommit, hpending.committed, hpending.current⟩

/-- Where a process is that called `sys_sync` in an earlier state: it still waits, or it has returned
and the group of that state is stored. -/
def Syncing (before : State n ι D) (caller : ι) (value : Local n)
    (world : Threads (sections n D) (State n ι D) ι (Local n)) : Prop :=
  world.thread caller = syncWait (before.log.ncommit + 1) >>= (fun _ => pure value) ∧
      (Stored before world.shared.committed ∨ Pending before world.shared) ∨
    world.thread caller = .ret value ∧ Stored before world.shared.committed

theorem syncing_of_acquire {caller : ι} {value : Local n} {choice : Nat}
    (hgood : Good conf init world) (hcall : world.thread caller = sysSync >>= fun _ => pure value)
    (hstep : Threads.step (system conf first) world (.perform caller choice) = some world') :
    Syncing world.shared caller value world' := by
  obtain ⟨ghosts, ⟨job, hinv⟩, hwp⟩ := hgood.1
  have hbooted : (ghosts caller).booted = true := by
    have hcaller := hwp caller
    rw [hcall, Program.wp_bind, wp_sysSync] at hcaller
    exact hcaller.1
  obtain ⟨response, shared', hhandler, rfl⟩ := Threads.performStep_of_call hcall hstep
  cases hhandler
  unfold Syncing
  simp only [Function.update_self]
  cases htarget : world.shared.log.syncTarget with
  | none =>
      obtain ⟨hcommitting, houtstanding⟩ := Log.syncTarget_eq_none_iff.mp htarget
      obtain rfl := hinv.idle_of_booted hbooted hcommitting
      have hidle : IdleOk _ _ _ _ _ := hinv.log
      have hempty := hgood.2 (hinv.roles.booted caller hbooted) hcommitting houtstanding
      have hcurrent : world.shared.current = [] := by
        apply eq_nil_of_pendingOf_eq_none
        intro blockno
        have hlogged := hidle.logged blockno
        rw [hempty] at hlogged
        simpa using hlogged.not.mp List.not_mem_nil
      exact Or.inr ⟨rfl, Or.inl ⟨hcurrent, List.prefix_refl _⟩⟩
  | some target =>
      obtain ⟨-, rfl⟩ := Log.syncTarget_eq_some_iff.mp htarget
      exact Or.inl ⟨rfl, Or.inr ⟨rfl, rfl, List.prefix_refl _⟩⟩

theorem syncing_step {before : State n ι D} {caller : ι} {value : Local n}
    (hgood : Good conf init world) (hcrash : action ≠ .env .crash)
    (hcaller : ∀ call, action ≠ .start caller call) (h : Syncing before caller value world)
    (hstep : Threads.step (system conf first) world action = some world') :
    Syncing before caller value world' := by
  obtain ⟨hthread, hgroup⟩ | ⟨hthread, hstored⟩ := h
  · have hnext := pending_step hgood hcrash hgroup hstep
    cases action with
    | perform who choice =>
        by_cases hwho : who = caller
        · subst hwho
          obtain ⟨response, shared', hhandler, rfl⟩ := Threads.performStep_of_call hthread hstep
          simp only [system, handler] at hhandler
          split at hhandler
          · cases hhandler
          · next hreached =>
              cases hhandler
              right
              refine ⟨Function.update_self _ _ _, hgroup.resolve_right fun hpending => ?_⟩
              rw [hpending.ncommit] at hreached
              exact hreached (Nat.lt_succ_self _)
        · exact Or.inl ⟨(Threads.thread_performStep_of_ne hstep hwho).trans hthread, hnext⟩
    | start who call =>
        have hwho : who ≠ caller := by
          rintro rfl
          exact hcaller call rfl
        exact Or.inl ⟨(Threads.thread_startStep_of_ne hstep hwho).trans hthread, hnext⟩
    | env event =>
        cases event with
        | crash => exact absurd rfl hcrash
        | remap who pages =>
            cases hstep
            exact Or.inl ⟨hthread, hnext⟩
  · have hnext := hstored.mono (committed_step hgood hstep)
    cases action with
    | perform who choice =>
        have hwho : who ≠ caller := by
          rintro rfl
          have hret : Threads.performStep (handler conf) world who choice = none := by
            simp [Threads.performStep, hthread]
          exact absurd (hret.symm.trans hstep) (by simp)
        exact Or.inr ⟨(Threads.thread_performStep_of_ne hstep hwho).trans hthread, hnext⟩
    | start who call =>
        have hwho : who ≠ caller := by
          rintro rfl
          exact hcaller call rfl
        exact Or.inr ⟨(Threads.thread_startStep_of_ne hstep hwho).trans hthread, hnext⟩
    | env event =>
        cases event with
        | crash => exact absurd rfl hcrash
        | remap who pages =>
            cases hstep
            exact Or.inr ⟨hthread, hnext⟩

theorem recorded_of_logWrite {who : ι} {b : Fin n} {choice : Nat}
    (hop : world.nextOp who = some (.logWrite b))
    (hstep : Threads.step (system conf first) world (.perform who choice) = some world') :
    Recorded ((world.shared.cache.buf b).blockno, (world.shared.cache.buf b).content.data)
      world'.shared := by
  unfold Threads.nextOp at hop
  cases hthread : world.thread who with
  | ret value => simp [hthread] at hop
  | call op next =>
      rw [hthread] at hop
      obtain rfl : op = Op.logWrite b := Option.some.inj hop
      obtain ⟨response, shared', hhandler, rfl⟩ := Threads.performStep_of_call hthread hstep
      have hlogs : handler conf who world.shared (.logWrite b) choice = some (response, shared') :=
        hhandler
      obtain ⟨cache, log, fresh, -, rfl⟩ := handler_cases hlogs
      exact Or.inl (List.mem_append_right _ List.mem_cons_self)

section Along

variable {actions : List (Threads.Action ι (Call n D) (Event ι))}

theorem recorded_run {write : Nat × D} (hgood : Good conf init world)
    (hrun : Transition.run (Threads.step (system conf first)) world actions = some world')
    (hcrash : ∀ action ∈ actions, action ≠ .env .crash) (h : Recorded write world.shared) :
    Recorded write world'.shared := by
  have hstep : ∀ (world : Threads (sections n D) (State n ι D) ι (Local n)) action world',
      Good conf init world ∧ Recorded write world.shared → action ≠ .env .crash →
        Threads.step (system conf first) world action = some world' →
          Good conf init world' ∧ Recorded write world'.shared :=
    fun _ _ _ h hcrash hstep => ⟨good_step h.1 hstep, recorded_step h.1 hcrash h.2 hstep⟩
  exact (Transition.invariant_along hstep ⟨hgood, h⟩
    (Transition.along_of_forall_mem hcrash) hrun).2

theorem committed_run (hgood : Good conf init world)
    (hrun : Transition.run (Threads.step (system conf first)) world actions = some world') :
    world.shared.committed <+: world'.shared.committed := by
  have hstep : ∀ (later : Threads (sections n D) (State n ι D) ι (Local n)) action world',
      Good conf init later ∧ world.shared.committed <+: later.shared.committed →
        Threads.step (system conf first) later action = some world' →
          Good conf init world' ∧ world.shared.committed <+: world'.shared.committed :=
    fun _ _ _ h hstep => ⟨good_step h.1 hstep, h.2.trans (committed_step h.1 hstep)⟩
  exact (Transition.invariant_run hstep ⟨hgood, List.prefix_refl _⟩ hrun).2

theorem syncing_run {before : State n ι D} {caller : ι} {value : Local n}
    (hgood : Good conf init world)
    (hrun : Transition.run (Threads.step (system conf first)) world actions = some world')
    (hactions : ∀ action ∈ actions, action ≠ .env .crash ∧ ∀ call, action ≠ .start caller call)
    (h : Syncing before caller value world) : Syncing before caller value world' := by
  have hstep : ∀ (world : Threads (sections n D) (State n ι D) ι (Local n)) action world',
      Good conf init world ∧ Syncing before caller value world →
        (action ≠ .env .crash ∧ ∀ call, action ≠ .start caller call) →
          Threads.step (system conf first) world action = some world' →
            Good conf init world' ∧ Syncing before caller value world' :=
    fun _ _ _ h hmeets hstep =>
      ⟨good_step h.1 hstep, syncing_step h.1 hmeets.1 hmeets.2 h.2 hstep⟩
  exact (Transition.invariant_along hstep ⟨hgood, h⟩
    (Transition.along_of_forall_mem hactions) hrun).2

end Along

/-- **`sys_sync` is durable.** A process logs a block; later, with no crash in between, another one
calls `sys_sync`. Once the call has returned, the write is in a group that has reached the disk, and
stays in one over every later run, crashes and recoveries included; and whenever the system is up and
nobody commits, the home blocks hold what those groups leave. -/
theorem durable_of_sysSync {user : ι → Nat → Option (Nat → UInt8)}
    (hheader : conf.header.decode (init conf.start) = [])
    {past between during future : List (Threads.Action ι (Call n D) (Event ι))}
    {logging logged called acquired returned last : Threads (sections n D) (State n ι D) ι (Local n)}
    (hlogging : Transition.run (Threads.step (system conf first))
      (boot conf first (.fresh n) init user []) past = some logging)
    {who : ι} {b : Fin n} {choice : Nat} (hop : logging.nextOp who = some (.logWrite b))
    (hlogged : Threads.step (system conf first) logging (.perform who choice) = some logged)
    (hcalled : Transition.run (Threads.step (system conf first)) logged between = some called)
    (hbetween : ∀ action ∈ between, action ≠ .env .crash)
    {caller : ι} {value value' : Local n} {choice' : Nat}
    (hcall : called.thread caller = sysSync >>= fun _ => pure value)
    (hacquired : Threads.step (system conf first) called (.perform caller choice') = some acquired)
    (hreturned : Transition.run (Threads.step (system conf first)) acquired during = some returned)
    (hduring : ∀ action ∈ during, action ≠ .env .crash ∧ ∀ call, action ≠ .start caller call)
    (hvalue : returned.thread caller = .ret value')
    (hlast : Transition.run (Threads.step (system conf first)) returned future = some last) :
    (∃ group ∈ last.shared.committed, ((logging.shared.cache.buf b).blockno,
      (logging.shared.cache.buf b).content.data) ∈ group) ∧
    (last.shared.up = true → last.shared.log.committing = false → ∀ blockno, conf.Home blockno →
      last.shared.disk blockno = base init last.shared.committed blockno) := by
  have hgood := good_run (good_boot hheader first user) hlogging
  have hgoodLogged := good_step hgood hlogged
  have hgoodCalled := good_run hgoodLogged hcalled
  have hgoodAcquired := good_step hgoodCalled hacquired
  have hgoodReturned := good_run hgoodAcquired hreturned
  have hrecorded := recorded_run hgoodLogged hcalled hbetween (recorded_of_logWrite hop hlogged)
  have hsyncing := syncing_run hgoodAcquired hreturned hduring
    (syncing_of_acquire hgoodCalled hcall hacquired)
  have hstored : Stored called.shared returned.shared.committed := by
    obtain ⟨hthread, -⟩ | ⟨-, hstored⟩ := hsyncing
    · -- a caller in its loop has not returned
      rw [hvalue] at hthread
      cases hthread
    · exact hstored
  constructor
  · exact (hstored.mono (committed_run hgoodReturned hlast)).exists_mem hrecorded
  · intro hup hcommitting blockno hhome
    obtain ⟨⟨ghosts, hinv, -⟩, -⟩ := good_run hgoodReturned hlast
    exact hinv.home hup hcommitting hhome

end Runs

/-! ### A run -/

def performs (who : Bool) (count : Nat) : List (Threads.Action Bool (Call 3 Bytes) (Event Bool)) :=
  List.replicate count (.perform who 0)

def untilLogging : List (Threads.Action Bool (Call 3 Bytes) (Event Bool)) :=
  performs true 30 ++ performs false 1 ++ .start true .beginOp :: performs true 1 ++
    .start true (.bread 100) :: performs true 4 ++
    .start true (.modify (Fin.last 2) fun _ => 7) :: performs true 1

def untilReturned : List (Threads.Action Bool (Call 3 Bytes) (Event Bool)) :=
  .start true (.brelse (Fin.last 2)) :: performs true 3 ++ .start true .endOp :: performs true 62 ++
    performs false 1

/-- The other process calls `sys_sync` once the block is logged, and the machine stops when the call
has returned. -/
theorem durable_of_sysSync_untilLogging :
    ∃ last : Threads (sections 3 Bytes) (State 3 Bool Bytes) Bool (Local 3),
      ∃ group ∈ last.shared.committed, ∃ write ∈ group, write.1 = 100 := by
  have hlogging : ∃ logging ∈ Transition.run (Threads.step (system smallConf true))
      (boot smallConf true (.fresh 3) (fun _ _ => 0) (fun _ _ => none) [])
      (untilLogging ++ [.start true (.logWrite (Fin.last 2))]),
      (logging.shared.cache.buf (Fin.last 2)).blockno = 100 := by
    decide +kernel
  have hreturned : ∃ returned ∈ Transition.run (Threads.step (system smallConf true))
      (boot smallConf true (.fresh 3) (fun _ _ => 0) (fun _ _ => none) [])
      ((untilLogging ++ [.start true (.logWrite (Fin.last 2))]) ++ (.perform true 0 ::
        .start false .sysSync :: .perform false 0 :: untilReturned)),
      (returned.nextOp false).isNone := by
    decide +kernel
  obtain ⟨logging, hlogging, hblockno⟩ := hlogging
  obtain ⟨returned, hreturned, hnone⟩ := hreturned
  rw [Option.mem_def, Transition.run_append, hlogging, Option.bind_some] at hreturned
  obtain ⟨logged, hlogged, hrest⟩ := Transition.run_cons.mp hreturned
  obtain ⟨called, hcalled, hrest'⟩ := Transition.run_cons.mp hrest
  obtain ⟨acquired, hacquired, hduring⟩ := Transition.run_cons.mp hrest'
  obtain ⟨value', hvalue⟩ := Threads.thread_of_nextOp_eq_none (Option.isNone_iff_eq_none.mp hnone)
  have hop : logging.nextOp true = some (.logWrite (Fin.last 2)) := by
    obtain ⟨before, -, hstart⟩ := Transition.run_concat.mp hlogging
    obtain ⟨value, program, hprogram, rfl⟩ := Threads.startStep_cases hstart
    obtain ⟨-, hsome⟩ := Option.ite_none_right_eq_some.mp hprogram
    cases hsome
    simp only [Threads.nextOp, Function.update_self]
    rfl
  obtain ⟨value, program, hprogram, rfl⟩ := Threads.startStep_cases hcalled
  obtain ⟨-, hsome⟩ := Option.ite_none_left_eq_some.mp hprogram
  cases hsome
  have hbetween : Transition.run (Threads.step (system smallConf true)) logged
      [.start false .sysSync] = some _ := Transition.run_cons.mpr ⟨_, hcalled, rfl⟩
  have hactions : ∀ action ∈ untilReturned, action ≠ .env .crash ∧
      ∀ call, action ≠ .start false call := by
    intro action hmem
    simp only [untilReturned, performs, List.mem_append, List.mem_cons, List.mem_replicate] at hmem
    obtain ((rfl | ⟨-, rfl⟩) | rfl | ⟨-, rfl⟩) | ⟨-, rfl⟩ := hmem <;> simp
  have hlast : Transition.run (Threads.step (system smallConf true)) returned [.env .crash] =
      some _ := rfl
  obtain ⟨group, hgroup, hmem⟩ := (durable_of_sysSync rfl hlogging hop hlogged hbetween (by simp)
    (Function.update_self _ _ _) hacquired hduring hactions hvalue hlast).1
  exact ⟨_, group, hgroup, _, hmem, hblockno⟩

end Xv6.Kernel
