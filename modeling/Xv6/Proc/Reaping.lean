import Mathlib.Data.Multiset.Basic
import Xv6.Lib.Tally
import Xv6.Proc.TreeInvariant

/-!
# Every process that exits is reaped once

The pids in the table and the pids already reaped are all different, and what has been passed to
`kexit` is what `kwait` has returned, together with what the table still holds of it.
-/

namespace Xv6.Tree

variable {n : Nat} {Other : Type} [DecidableEq Other]

/-- The status a process is exiting with. -/
def Pc.exitStatus : Pc n → Option Int
  | .reparent status _ | .wakeInit status _ _ | .wakeParent status _ _ => some status
  | _ => none

/-- What `kexit` has left in a slot for `kwait`. -/
def State.pending (state : State n Other) (q : Fin n) : Multiset (Nat × Int) :=
  (state.pc q).exitStatus.elim
    (if (state.proc q).state = .zombie then {((state.proc q).pid, (state.proc q).xstate)} else 0)
    fun status => {((state.proc q).pid, status)}

def State.pid (state : State n Other) (q : Fin n) : Multiset Nat :=
  if (state.proc q).state = .unused then 0 else {(state.proc q).pid}

def State.pids (state : State n Other) : Multiset Nat :=
  ∑ q, state.pid q + ↑(state.reaped.map fun record => record.2.1)

structure Ledger (state : State n Other) : Prop where
  exits : (↑state.exits : Multiset (Nat × Int)) =
    ∑ q, state.pending q + ↑(state.reaped.map Prod.snd)
  pids : state.pids.Nodup
  fresh : ∀ pid ∈ state.pids, pid < state.nextpid

namespace Ledger

omit [DecidableEq Other]

variable {initproc who np q : Fin n} {state next : State n Other}

theorem of_same (h : Ledger state) (hpending : ∀ q, next.pending q = state.pending q)
    (hpid : ∀ q, next.pid q = state.pid q) (hexits : next.exits = state.exits)
    (hreaped : next.reaped = state.reaped) (hnextpid : state.nextpid ≤ next.nextpid) :
    Ledger next := by
  have hpids : next.pids = state.pids := by
    unfold State.pids
    rw [hreaped, Finset.sum_congr rfl fun q _ => hpid q]
  constructor
  · rw [hexits, h.exits, hreaped, Finset.sum_congr rfl fun q _ => hpending q]
  · rw [hpids]
    exact h.pids
  · intro pid hmem
    rw [hpids] at hmem
    exact lt_of_lt_of_le (h.fresh pid hmem) hnextpid

theorem setProc (h : Ledger state) {proc : Proc (Fin n) (Chan n Other)}
    (hunused : proc.state = .unused ↔ (state.proc q).state = .unused)
    (hzombie : proc.state = .zombie ↔ (state.proc q).state = .zombie)
    (hpid : (state.proc q).state ≠ .unused → proc.pid = (state.proc q).pid)
    (hxstate : (state.proc q).state = .zombie → proc.xstate = (state.proc q).xstate)
    (hidle : (state.proc q).state = .unused → (state.pc q).exitStatus = none) :
    Ledger (state.setProc q proc) := by
  refine h.of_same ?_ ?_ rfl rfl le_rfl
  · intro c
    simp only [State.pending, State.setProc, Function.update_apply]
    cases hstatus : (state.pc c).exitStatus <;> grind
  · intro c
    simp only [State.pid, State.setProc, Function.update_apply]
    grind

theorem setFields (h : Ledger state) (q : Fin n) (chan : Option (Chan n Other)) (killed : Bool)
    (parent : Option (Fin n)) (hidle : (state.proc q).state = .unused → state.pc q = .idle) :
    Ledger (state.setProc q
      { state.proc q with chan := chan, killed := killed, parent := parent }) :=
  h.setProc Iff.rfl Iff.rfl (fun _ => rfl) (fun _ => rfl) fun hunused => by rw [hidle hunused]; rfl

theorem setPc (h : Ledger state) {pc : Pc n}
    (hstatus : pc.exitStatus = (state.pc who).exitStatus) : Ledger (state.setPc who pc) := by
  refine h.of_same ?_ (fun _ => rfl) rfl rfl le_rfl
  intro q
  by_cases hq : q = who
  · subst hq
    simp only [State.pending, State.setPc, Function.update_self, hstatus]
    rfl
  · simp only [State.pending, State.setPc, Function.update_of_ne hq]
    rfl

theorem unlockWait (h : Ledger state) {pc : Pc n}
    (hstatus : pc.exitStatus = (state.pc who).exitStatus) : Ledger (state.unlockWait who pc) :=
  (h.setPc hstatus).of_same (fun _ => rfl) (fun _ => rfl) rfl rfl le_rfl

theorem exit (h : Ledger state) {status : Int} (hpc : (state.pc who).exitStatus = some status)
    (hwho : (state.proc who).state = .running) : Ledger (state.exit who status) := by
  refine h.of_same ?_ ?_ rfl rfl le_rfl
  · intro q
    by_cases hq : q = who
    · subst hq
      have hold : state.pending q = {((state.proc q).pid, status)} := by
        rw [State.pending, hpc]
        rfl
      rw [hold]
      simp [State.pending, State.exit, State.unlockWait, State.setProc, State.setPc, Pc.exitStatus]
    · simp only [State.pending, State.exit, State.unlockWait, State.setProc, State.setPc,
        Function.update_of_ne hq]
  · intro q
    by_cases hq : q = who
    · subst hq
      simp [State.pid, State.exit, State.unlockWait, State.setProc, State.setPc, hwho]
    · simp only [State.pid, State.exit, State.unlockWait, State.setProc, State.setPc,
        Function.update_of_ne hq]

theorem kfork (h : Ledger state) (hpc : state.pc who = .idle) (hnppc : state.pc np = .idle)
    (hnp : (state.proc np).state = .unused) :
    Ledger { (state.setProc np { state.proc np with pid := state.nextpid, state := .used }).setPc
      who (.forking np) with nextpid := state.nextpid + 1 } := by
  set next : State n Other :=
    { (state.setProc np { state.proc np with pid := state.nextpid, state := .used }).setPc
      who (.forking np) with nextpid := state.nextpid + 1 } with hnext
  have hpending : ∀ q, next.pending q = state.pending q := by
    intro q
    simp only [hnext, State.pending, State.setProc, State.setPc, Function.update_apply]
    grind [Pc.exitStatus]
  have hothers : ∀ q, q ≠ np → next.pid q = state.pid q := by
    intro q hq
    simp only [hnext, State.pid, State.setProc, State.setPc, Function.update_of_ne hq]
  have hold : state.pid np = 0 := if_pos hnp
  have hnew : next.pid np = {state.nextpid} := by
    simp [hnext, State.pid, State.setProc, State.setPc]
  have hpids : next.pids = state.nextpid ::ₘ state.pids := by
    have hsum := Tally.sum_exchange hothers
    rw [hold, hnew, add_zero] at hsum
    unfold State.pids
    rw [hsum, ← Multiset.singleton_add]
    change _ + _ + _ = _
    abel
  constructor
  · calc (↑state.exits : Multiset (Nat × Int))
        = ∑ q, state.pending q + ↑(state.reaped.map Prod.snd) := h.exits
      _ = ∑ q, next.pending q + ↑(state.reaped.map Prod.snd) := by
        rw [Finset.sum_congr rfl fun q _ => hpending q]
  · rw [hpids]
    exact Multiset.nodup_cons.mpr ⟨fun hmem => (h.fresh _ hmem).ne rfl, h.pids⟩
  · intro pid hmem
    rw [hpids, Multiset.mem_cons] at hmem
    rcases hmem with rfl | hmem
    · exact Nat.lt_succ_self _
    · exact (h.fresh pid hmem).trans (Nat.lt_succ_self _)

theorem leave (h : Ledger state) (hpc : state.pc who = .idle)
    (hwho : (state.proc who).state = .running) (status : Int) :
    Ledger (state.leave who status) := by
  have hothers : ∀ q, q ≠ who → (state.leave who status).pending q = state.pending q := by
    intro q hq
    simp only [State.pending, State.leave, State.setPc, Function.update_of_ne hq]
    rfl
  have hold : state.pending who = 0 := by
    simp [State.pending, hpc, hwho, Pc.exitStatus]
  have hnew : (state.leave who status).pending who = {((state.proc who).pid, status)} := by
    simp [State.pending, State.leave, State.setPc, Pc.exitStatus]
  constructor
  · have hsum := Tally.sum_exchange hothers
    rw [hold, hnew, add_zero] at hsum
    calc (↑(state.leave who status).exits : Multiset (Nat × Int))
        = ↑state.exits + {((state.proc who).pid, status)} := (Multiset.coe_add _ _).symm
      _ = ∑ q, (state.leave who status).pending q + ↑(state.reaped.map Prod.snd) := by
        rw [h.exits, hsum]
        abel
  · exact h.pids
  · exact h.fresh

theorem reap (h : Ledger state) (hpc : (state.pc who).exitStatus = none)
    (hidle : state.pc q = .idle) (hzombie : (state.proc q).state = .zombie) :
    Ledger (state.reap who q) := by
  have hothers : ∀ c, c ≠ q → (state.reap who q).pending c = state.pending c := by
    intro c hc
    simp only [State.pending, State.reap, State.setProc, State.unlockWait, State.setPc,
      Function.update_of_ne hc, Function.update_apply]
    grind [Pc.exitStatus]
  have hothersPid : ∀ c, c ≠ q → (state.reap who q).pid c = state.pid c := by
    intro c hc
    simp only [State.pid, State.reap, State.setProc, State.unlockWait, State.setPc,
      Function.update_of_ne hc]
  have hold : state.pending q = {((state.proc q).pid, (state.proc q).xstate)} := by
    simp [State.pending, hidle, hzombie, Pc.exitStatus]
  have hnew : (state.reap who q).pending q = 0 := by
    simp only [State.pending, State.reap, State.setProc, State.unlockWait, State.setPc,
      Function.update_apply, Proc.free]
    grind [Pc.exitStatus]
  have holdPid : state.pid q = {(state.proc q).pid} := by
    simp [State.pid, hzombie]
  have hnewPid : (state.reap who q).pid q = 0 := by
    simp [State.pid, State.reap, State.setProc, State.unlockWait, State.setPc, Proc.free]
  have hpids : (state.reap who q).pids = state.pids := by
    have hsum := Tally.sum_exchange hothersPid
    rw [holdPid, hnewPid, add_zero] at hsum
    unfold State.pids
    rw [← hsum]
    change _ + (↑((state.reaped ++ [(who, (state.proc q).pid, (state.proc q).xstate)]).map
      fun record => record.2.1) : Multiset Nat) = _
    rw [List.map_append, ← Multiset.coe_add, add_assoc]
    exact congrArg _ (add_comm _ _)
  constructor
  · have hsum := Tally.sum_exchange hothers
    rw [hold, hnew, add_zero] at hsum
    calc (↑state.exits : Multiset (Nat × Int))
        = ∑ c, state.pending c + ↑(state.reaped.map Prod.snd) := h.exits
      _ = ∑ c, (state.reap who q).pending c +
          (↑(state.reaped.map Prod.snd) + {((state.proc q).pid, (state.proc q).xstate)}) := by
        rw [← hsum]
        abel
      _ = ∑ c, (state.reap who q).pending c + ↑((state.reap who q).reaped.map Prod.snd) := by
        simp only [State.reap, List.map_append, ← Multiset.coe_add]
        rfl
  · rw [hpids]
    exact h.pids
  · rw [hpids]
    exact h.fresh

variable [DecidableEq Other]

theorem wakeup (h : Ledger state) (hinv : Inv initproc state) (q : Fin n) (chan : Chan n Other) :
    Ledger (state.setProc q ((state.proc q).wakeup chan)) := by
  refine h.setProc ?_ ?_ ?_ ?_ fun hunused => by rw [hinv.idle_of_unused hunused]; rfl
  all_goals
    simp only [Proc.wakeup]
    grind

theorem advance (h : Ledger state) (hinv : Inv initproc state)
    (hwho : (state.proc who).state = .running) {copied : Bool}
    (hstep : state.advance initproc who copied = some next) : Ledger next := by
  have hsleep : Ledger (state.setProc who (state.proc who).sleep) := by
    refine h.setProc ?_ ?_ ?_ ?_ fun hunused => by rw [hwho] at hunused; cases hunused
    all_goals
      simp only [Proc.sleep]
      grind
  cases hpc : state.pc who with
  | idle => simp [State.advance, hpc] at hstep
  | forking np =>
      simp only [State.advance, hpc, Option.ite_none_right_eq_some, Option.some.injEq] at hstep
      obtain ⟨-, rfl⟩ := hstep
      apply (h.setFields np _ _ (some who) hinv.idle_of_unused).setPc
      change _ = (state.pc who).exitStatus
      rw [hpc]
      rfl
  | parented np =>
      simp only [State.advance, hpc, Option.some.injEq] at hstep
      subst hstep
      have hnp : (state.proc np).state = .used :=
        kindOf_eq_used.mp (hinv.family.parented who np (congrArg roleOf hpc)).1
      have hslot : Ledger (state.setProc np { state.proc np with state := .runnable }) := by
        apply h.setProc <;> simp [hnp]
      apply hslot.setPc
      change _ = (state.pc who).exitStatus
      rw [hpc]
      rfl
  | prepared =>
      simp only [State.advance, hpc, Option.some.injEq] at hstep
      subst hstep
      apply hsleep.setPc
      change _ = (state.pc who).exitStatus
      rw [hpc]
      split <;> rfl
  | napping =>
      simp only [State.advance, hpc, Option.some.injEq] at hstep
      subst hstep
      exact h.setPc (by rw [hpc]; rfl)
  | reparent status rest =>
      cases rest with
      | nil =>
          simp only [State.advance, hpc, Option.some.injEq] at hstep
          subst hstep
          exact h.setPc (by rw [hpc]; rfl)
      | cons q rest =>
          simp only [State.advance, hpc] at hstep
          split at hstep
          next hparent =>
            cases hstep
            apply (h.setFields q _ _ (some initproc) hinv.idle_of_unused).setPc
            change _ = (state.pc who).exitStatus
            rw [hpc]
            rfl
          next hparent =>
            cases hstep
            exact h.setPc (by rw [hpc]; rfl)
  | wakeInit status rest slots =>
      cases slots with
      | nil =>
          simp only [State.advance, hpc, Option.some.injEq] at hstep
          subst hstep
          exact h.setPc (by rw [hpc]; rfl)
      | cons q slots =>
          simp only [State.advance, hpc, Option.some.injEq] at hstep
          subst hstep
          apply (h.wakeup hinv q (.inl initproc)).setPc
          change _ = (state.pc who).exitStatus
          rw [hpc]
          rfl
  | wakeParent status parent slots =>
      cases slots with
      | nil =>
          simp only [State.advance, hpc, Option.some.injEq] at hstep
          subst hstep
          exact h.exit (by rw [hpc]; rfl) hwho
      | cons q slots =>
          simp only [State.advance, hpc, Option.some.injEq] at hstep
          subst hstep
          cases parent with
          | none =>
              have hsame : state.setProc q (state.proc q) = state := state.setProc_self q
              rw [Option.elim_none, hsame]
              exact h.setPc (by rw [hpc]; rfl)
          | some parent =>
              apply (h.wakeup hinv q (.inl parent)).setPc
              change _ = (state.pc who).exitStatus
              rw [hpc]
              rfl
  | scanning rest havekids =>
      cases rest with
      | nil =>
          simp only [State.advance, hpc] at hstep
          split at hstep
          · cases hstep
            exact h.unlockWait (by rw [hpc]; rfl)
          · cases hstep
            exact h.setPc (by rw [hpc]; rfl)
      | cons q rest =>
          simp only [State.advance, hpc] at hstep
          split at hstep
          next hparent =>
            split at hstep
            next hzombie =>
              split at hstep
              · cases hstep
                exact h.reap (by rw [hpc]; rfl) (hinv.idle_of_zombie hzombie) hzombie
              · cases hstep
                exact h.unlockWait (by rw [hpc]; rfl)
            next hzombie =>
              cases hstep
              exact h.setPc (by rw [hpc]; rfl)
          next hparent =>
            cases hstep
            exact h.setPc (by rw [hpc]; rfl)
  | waiting =>
      simp only [State.advance, hpc, Option.some.injEq] at hstep
      subst hstep
      apply (h.setFields who (some (.inl who)) _ _ hinv.idle_of_unused).setPc
      change _ = (state.pc who).exitStatus
      rw [hpc]
      rfl
  | waitPrepared =>
      simp only [State.advance, hpc, Option.some.injEq] at hstep
      subst hstep
      exact h.unlockWait (by rw [hpc]; rfl)
  | waitReleased =>
      simp only [State.advance, hpc, Option.some.injEq] at hstep
      subst hstep
      apply hsleep.setPc
      change _ = (state.pc who).exitStatus
      rw [hpc]
      split <;> rfl
  | waitAsleep =>
      simp only [State.advance, hpc, Option.some.injEq] at hstep
      subst hstep
      exact h.setPc (by rw [hpc]; rfl)
  | waitReturned =>
      simp only [State.advance, hpc, State.lockWait, Option.ite_none_right_eq_some,
        Option.some.injEq] at hstep
      obtain ⟨-, rfl⟩ := hstep
      have hscan : Ledger (state.setPc who (.scanning (List.finRange n) false)) :=
        h.setPc (by rw [hpc]; rfl)
      exact hscan.of_same (fun _ => rfl) (fun _ => rfl) rfl rfl le_rfl

theorem step (h : Ledger state) (hinv : Inv initproc state) {action : Action n Other}
    (hstep : Tree.step initproc state action = some next) : Ledger next := by
  cases action with
  | kfork who np =>
      simp only [Tree.step, Option.ite_none_right_eq_some, Option.some.injEq] at hstep
      obtain ⟨⟨-, hpc, hnp⟩, rfl⟩ := hstep
      exact h.kfork hpc (hinv.idle_of_unused hnp) hnp
  | kforkFails who np =>
      simp only [Tree.step, Option.ite_none_right_eq_some, Option.some.injEq] at hstep
      obtain ⟨⟨-, -, hnp⟩, rfl⟩ := hstep
      have hfree : Ledger (state.setProc np (state.proc np).free) := by
        refine h.setProc ?_ ?_ ?_ ?_ fun _ => by rw [hinv.idle_of_unused hnp]; rfl
        all_goals simp [Proc.free, hnp]
      exact hfree.of_same (fun _ => rfl) (fun _ => rfl) rfl rfl (Nat.le_succ _)
  | sleepPrepare who chan =>
      simp only [Tree.step, Option.ite_none_right_eq_some, Option.some.injEq] at hstep
      obtain ⟨⟨-, hpc⟩, rfl⟩ := hstep
      apply (h.setFields who (some (.inr chan)) _ _ hinv.idle_of_unused).setPc
      change _ = (state.pc who).exitStatus
      rw [hpc]
      rfl
  | giveUp who =>
      simp only [Tree.step, Option.ite_none_right_eq_some, Option.some.injEq] at hstep
      obtain ⟨⟨-, hpc⟩, rfl⟩ := hstep
      exact h.setPc (by rw [hpc]; rfl)
  | kexit who status =>
      simp only [Tree.step, Option.ite_none_right_eq_some, Option.some.injEq] at hstep
      obtain ⟨⟨hwho, hpc, -, -⟩, rfl⟩ := hstep
      exact h.leave hpc hwho status
  | kwait who =>
      simp only [Tree.step, State.lockWait, Option.ite_none_right_eq_some,
        Option.some.injEq] at hstep
      obtain ⟨⟨-, hpc⟩, -, rfl⟩ := hstep
      have hscan : Ledger (state.setPc who (.scanning (List.finRange n) false)) :=
        h.setPc (by rw [hpc]; rfl)
      exact hscan.of_same (fun _ => rfl) (fun _ => rfl) rfl rfl le_rfl
  | advance who copied =>
      simp only [Tree.step, Option.ite_none_right_eq_some] at hstep
      exact h.advance hinv hstep.1 hstep.2
  | wakeupOther q chan =>
      cases hstep
      exact h.wakeup hinv q _
  | kkill q =>
      cases hstep
      refine h.setProc ?_ ?_ ?_ ?_ fun hunused => by rw [hinv.idle_of_unused hunused]; rfl
      all_goals
        simp only [Proc.kill]
        grind
  | dispatch q =>
      simp only [Tree.step, Option.ite_none_right_eq_some, Option.some.injEq] at hstep
      obtain ⟨hstate, rfl⟩ := hstep
      apply h.setProc <;> simp [hstate]
  | yield q =>
      simp only [Tree.step, Option.ite_none_right_eq_some, Option.some.injEq] at hstep
      obtain ⟨hstate, rfl⟩ := hstep
      apply h.setProc <;> simp [hstate]

omit [DecidableEq Other] in
theorem start (initproc : Fin n) : Ledger (start initproc : State n Other) := by
  have hpending : ∀ q, (Tree.start initproc : State n Other).pending q = 0 := by
    intro q
    simp only [Tree.start, State.pending, Pc.exitStatus]
    grind [Proc.empty]
  have hpids : (Tree.start initproc : State n Other).pids = {1} := by
    have hothers : ∀ q, q ≠ initproc → (Tree.start initproc : State n Other).pid q = 0 := by
      intro q hq
      simp [Tree.start, State.pid, Proc.empty, hq]
    unfold State.pids
    rw [Finset.sum_eq_single initproc (fun q _ hq => hothers q hq) (by simp)]
    simp [Tree.start, State.pid]
  constructor
  · rw [Finset.sum_congr rfl fun q _ => hpending q]
    simp [Tree.start]
  · rw [hpids]
    exact Multiset.nodup_singleton 1
  · intro pid hmem
    rw [hpids, Multiset.mem_singleton] at hmem
    subst hmem
    exact Nat.one_lt_two

end Ledger

/-! ### What `kwait` does to the table -/

/-- A child that has exited, and the step of `kwait` that frees its slot. -/
structure Reaps (state next : State n Other) (action : Action n Other) (who q : Fin n) : Prop where
  action : action = .advance who true
  parent : (state.proc q).parent = some who
  zombie : (state.proc q).state = .zombie
  next : next = state.reap who q

/-- Nothing is returned, and no slot is freed. -/
structure Keeps (state next : State n Other) : Prop where
  reaped : next.reaped = state.reaped
  used : ∀ q, (next.proc q).state = .unused → (state.proc q).state = .unused

section Keeps

variable {initproc who q : Fin n} {state next : State n Other}

omit [DecidableEq Other] in
theorem keeps_of_slot {proc : Proc (Fin n) (Chan n Other)}
    (hproc : next.proc = Function.update state.proc q proc) (hreaped : next.reaped = state.reaped)
    (hused : proc.state = .unused → (state.proc q).state = .unused) : Keeps state next := by
  refine ⟨hreaped, fun c hc => ?_⟩
  rw [hproc] at hc
  by_cases heq : c = q
  · subst heq
    rw [Function.update_self] at hc
    exact hused hc
  · rwa [Function.update_of_ne heq] at hc

omit [DecidableEq Other] in
theorem keeps_of_same (hproc : next.proc = state.proc) (hreaped : next.reaped = state.reaped) :
    Keeps state next :=
  ⟨hreaped, fun q hq => by rwa [hproc] at hq⟩

theorem wakeup_unused {proc : Proc (Fin n) (Chan n Other)} {chan : Chan n Other}
    (hunused : (proc.wakeup chan).state = .unused) : proc.state = .unused := by
  have hkind := kindOf_wakeup proc chan
  rw [hunused] at hkind
  exact kindOf_eq_unused.mp hkind.symm

omit [DecidableEq Other] in
theorem sleep_unused {proc : Proc (Fin n) (Chan n Other)}
    (hunused : proc.sleep.state = .unused) : proc.state = .unused := by
  unfold Proc.sleep at hunused
  split at hunused
  · cases hunused
  · exact hunused

theorem advance_reaps_or_keeps {copied : Bool}
    (hstep : state.advance initproc who copied = some next) :
    (∃ q, Reaps state next (.advance who copied) who q) ∨ Keeps state next := by
  cases hpc : state.pc who with
  | idle => simp [State.advance, hpc] at hstep
  | forking np =>
      simp only [State.advance, hpc, Option.ite_none_right_eq_some, Option.some.injEq] at hstep
      obtain ⟨-, rfl⟩ := hstep
      exact .inr (keeps_of_slot rfl rfl id)
  | parented np =>
      simp only [State.advance, hpc, Option.some.injEq] at hstep
      subst hstep
      exact .inr (keeps_of_slot rfl rfl fun hunused => by cases hunused)
  | prepared | waitReleased =>
      simp only [State.advance, hpc, Option.some.injEq] at hstep
      subst hstep
      exact .inr (keeps_of_slot rfl rfl sleep_unused)
  | napping | waitPrepared | waitAsleep =>
      simp only [State.advance, hpc, Option.some.injEq] at hstep
      subst hstep
      exact .inr (keeps_of_same rfl rfl)
  | reparent status rest =>
      cases rest with
      | nil =>
          simp only [State.advance, hpc, Option.some.injEq] at hstep
          subst hstep
          exact .inr (keeps_of_same rfl rfl)
      | cons q rest =>
          simp only [State.advance, hpc] at hstep
          split at hstep
          · cases hstep
            exact .inr (keeps_of_slot rfl rfl id)
          · cases hstep
            exact .inr (keeps_of_same rfl rfl)
  | wakeInit status rest slots =>
      cases slots with
      | nil =>
          simp only [State.advance, hpc, Option.some.injEq] at hstep
          subst hstep
          exact .inr (keeps_of_same rfl rfl)
      | cons q slots =>
          simp only [State.advance, hpc, Option.some.injEq] at hstep
          subst hstep
          exact .inr (keeps_of_slot rfl rfl wakeup_unused)
  | wakeParent status parent slots =>
      cases slots with
      | nil =>
          simp only [State.advance, hpc, Option.some.injEq] at hstep
          subst hstep
          exact .inr (keeps_of_slot rfl rfl fun hunused => by cases hunused)
      | cons q slots =>
          simp only [State.advance, hpc, Option.some.injEq] at hstep
          subst hstep
          cases parent with
          | none => exact .inr (keeps_of_slot rfl rfl id)
          | some parent => exact .inr (keeps_of_slot rfl rfl wakeup_unused)
  | scanning rest havekids =>
      cases rest with
      | nil =>
          simp only [State.advance, hpc] at hstep
          split at hstep
          · cases hstep
            exact .inr (keeps_of_same rfl rfl)
          · cases hstep
            exact .inr (keeps_of_same rfl rfl)
      | cons q rest =>
          simp only [State.advance, hpc] at hstep
          split at hstep
          next hparent =>
            split at hstep
            next hzombie =>
              split at hstep
              next hcopied =>
                cases hstep
                exact .inl ⟨q, by rw [hcopied], hparent, hzombie, rfl⟩
              next =>
                cases hstep
                exact .inr (keeps_of_same rfl rfl)
            next =>
              cases hstep
              exact .inr (keeps_of_same rfl rfl)
          next =>
            cases hstep
            exact .inr (keeps_of_same rfl rfl)
  | waiting =>
      simp only [State.advance, hpc, Option.some.injEq] at hstep
      subst hstep
      exact .inr (keeps_of_slot rfl rfl id)
  | waitReturned =>
      simp only [State.advance, hpc, State.lockWait, Option.ite_none_right_eq_some,
        Option.some.injEq] at hstep
      obtain ⟨-, rfl⟩ := hstep
      exact .inr (keeps_of_same rfl rfl)

theorem reaps_or_keeps {action : Action n Other}
    (hstep : step initproc state action = some next) :
    (∃ who q, Reaps state next action who q) ∨ Keeps state next := by
  cases action with
  | kfork who np =>
      simp only [Tree.step, Option.ite_none_right_eq_some, Option.some.injEq] at hstep
      obtain ⟨-, rfl⟩ := hstep
      exact .inr (keeps_of_slot rfl rfl fun hunused => by cases hunused)
  | kforkFails who np =>
      simp only [Tree.step, Option.ite_none_right_eq_some, Option.some.injEq] at hstep
      obtain ⟨⟨-, -, hnp⟩, rfl⟩ := hstep
      exact .inr (keeps_of_slot rfl rfl fun _ => hnp)
  | sleepPrepare who chan =>
      simp only [Tree.step, Option.ite_none_right_eq_some, Option.some.injEq] at hstep
      obtain ⟨-, rfl⟩ := hstep
      exact .inr (keeps_of_slot rfl rfl id)
  | giveUp who | kexit who status =>
      simp only [Tree.step, Option.ite_none_right_eq_some, Option.some.injEq] at hstep
      obtain ⟨-, rfl⟩ := hstep
      exact .inr (keeps_of_same rfl rfl)
  | kwait who =>
      simp only [Tree.step, State.lockWait, Option.ite_none_right_eq_some,
        Option.some.injEq] at hstep
      obtain ⟨-, -, rfl⟩ := hstep
      exact .inr (keeps_of_same rfl rfl)
  | advance who copied =>
      simp only [Tree.step, Option.ite_none_right_eq_some] at hstep
      rcases advance_reaps_or_keeps hstep.2 with ⟨q, hreaps⟩ | hkeeps
      · exact .inl ⟨who, q, hreaps⟩
      · exact .inr hkeeps
  | wakeupOther q chan =>
      cases hstep
      exact .inr (keeps_of_slot rfl rfl wakeup_unused)
  | kkill q =>
      cases hstep
      refine .inr (keeps_of_slot rfl rfl fun hunused => ?_)
      have hkind := kindOf_kill (state.proc q)
      rw [hunused] at hkind
      exact kindOf_eq_unused.mp hkind.symm
  | dispatch q | yield q =>
      simp only [Tree.step, Option.ite_none_right_eq_some, Option.some.injEq] at hstep
      obtain ⟨-, rfl⟩ := hstep
      exact .inr (keeps_of_slot rfl rfl fun hunused => by cases hunused)

end Keeps

/-! ### Every run -/

section Run

variable {initproc : Fin n} {state : State n Other} {actions : List (Action n Other)}

theorem inv_of_run (hrun : Transition.run (step initproc) (start initproc) actions = some state) :
    Inv initproc state :=
  Transition.invariant_run (fun _ _ _ hinv hstep => hinv.step hstep) (Inv.start initproc) hrun

theorem ledger_of_run
    (hrun : Transition.run (step initproc) (start initproc) actions = some state) :
    Ledger state := by
  have hstep : ∀ (state : State n Other) action next, Inv initproc state ∧ Ledger state →
      step initproc state action = some next → Inv initproc next ∧ Ledger next :=
    fun _ _ _ h hstep => ⟨h.1.step hstep, h.2.step h.1 hstep⟩
  have hboth := Transition.invariant_run hstep ⟨Inv.start initproc, Ledger.start initproc⟩ hrun
  exact hboth.2

theorem map_pending_le (hinv : Inv initproc state) (q : Fin n) :
    (state.pending q).map Prod.fst ≤ state.pid q := by
  by_cases hunused : (state.proc q).state = .unused
  · have hnone : state.pending q = 0 := by
      rw [State.pending, hinv.idle_of_unused hunused]
      exact if_neg (by rw [hunused]; decide)
    rw [hnone]
    exact Multiset.zero_le _
  · have hpid : state.pid q = {(state.proc q).pid} := if_neg hunused
    rw [hpid, State.pending]
    cases (state.pc q).exitStatus with
    | some status => exact le_rfl
    | none =>
        rw [Option.elim_none]
        split
        · exact le_rfl
        · exact Multiset.zero_le _

theorem nodup_exits (hinv : Inv initproc state) (h : Ledger state) :
    (state.exits.map Prod.fst).Nodup := by
  have hle : (↑(state.exits.map Prod.fst) : Multiset Nat) ≤ state.pids :=
    calc (↑(state.exits.map Prod.fst) : Multiset Nat)
        = (∑ q, state.pending q + ↑(state.reaped.map Prod.snd)).map Prod.fst := by
          rw [← h.exits]
          rfl
      _ = ∑ q, (state.pending q).map Prod.fst + ↑(state.reaped.map fun record => record.2.1) := by
          rw [Multiset.map_add, Multiset.map_coe, List.map_map]
          exact congrArg (· + _) (map_sum (Multiset.mapAddMonoidHom Prod.fst) _ _)
      _ ≤ state.pids := by
          apply add_le_add_left
          exact Finset.sum_le_sum fun q _ => map_pending_le hinv q
  exact Multiset.coe_nodup.mp (Multiset.nodup_of_le hle h.pids)

theorem exists_parent (hinv : Inv initproc state) {q : Fin n}
    (hq : (state.proc q).Live ∨ (state.proc q).state = .zombie) (hne : q ≠ initproc) :
    ∃ p, (state.proc q).parent = some p ∧ (state.proc p).Live := by
  have hkind : kindOf (state.proc q).state = .live ∨ kindOf (state.proc q).state = .zombie := by
    rwa [kindOf_eq_live, kindOf_eq_zombie]
  obtain ⟨p, hparent⟩ := hinv.family.child q hkind hne
  exact ⟨p, hparent, kindOf_eq_live.mp (hinv.family.parent q p hparent).1⟩

omit [DecidableEq Other] in
/-- While `wait_lock` is free, a parent asleep in `kwait` has no child that has exited. -/
theorem not_asleep_of_free (hinv : Inv initproc state) (hfree : state.waitLock = none) {p c : Fin n}
    (hparent : (state.proc c).parent = some p) (hzombie : (state.proc c).state = .zombie)
    (hasleep : state.pc p = .waitAsleep) : (state.proc p).state ≠ .sleeping := by
  intro hsleeping
  have hexpects : state.Expects p := by
    refine ⟨?_, hinv.asleep p hasleep hsleeping⟩
    rw [hasleep]
    trivial
  obtain ⟨-, waker, status, rest, slots, hwaker, -⟩ := hinv.expects p hexpects c hparent hzombie
  -- whoever is still to wake it holds the lock
  have hholds : state.waitLock = some waker := (hinv.lock waker).mp (by rw [hwaker]; rfl)
  rw [hfree] at hholds
  cases hholds

/-- **Who exits is reaped, once, by its parent.** In every state of every run: while `wait_lock` is
free every process but the first has a parent that is alive, and no parent sleeps in `kwait` over a
child that has exited; what has been passed to `kexit`, each pid once, is what `kwait` has returned
and what the table still holds; and a slot is freed by the `kwait` of the parent and by nothing else,
which returns the pid and the status. -/
theorem tree_of_run
    (hrun : Transition.run (step initproc) (start initproc) actions = some state) :
    (state.waitLock = none →
      ∀ q, q ≠ initproc → (state.proc q).Live ∨ (state.proc q).state = .zombie →
        ∃ p, (state.proc q).parent = some p ∧ (state.proc p).Live) ∧
    ((state.exits.map Prod.fst).Nodup ∧ (↑state.exits : Multiset (Nat × Int)) =
      ∑ q, state.pending q + ↑(state.reaped.map Prod.snd)) ∧
    (∀ action next, step initproc state action = some next →
      (∃ who q, Reaps state next action who q) ∨ Keeps state next) ∧
    (state.waitLock = none → ∀ p c, (state.proc c).parent = some p →
      (state.proc c).state = .zombie →
        ¬(state.pc p = .waitAsleep ∧ (state.proc p).state = .sleeping)) := by
  have hinv := inv_of_run hrun
  have hledger := ledger_of_run hrun
  refine ⟨fun _ q hne hq => exists_parent hinv hq hne, ⟨nodup_exits hinv hledger, hledger.exits⟩,
    fun action next hstep => reaps_or_keeps hstep, fun hfree p c hparent hzombie hasleep => ?_⟩
  exact not_asleep_of_free hinv hfree hparent hzombie hasleep.1 hasleep.2

end Run

/-- The first process forks, and waits for its child, which exits. -/
def forkAndWait : List (Action 2 Unit) :=
  let initproc := Fin.last 1
  let child := (Fin.last 0).castSucc
  [.dispatch initproc, .kfork initproc child, .advance initproc true, .advance initproc true,
    .kwait initproc, .advance initproc true, .advance initproc true, .advance initproc true,
    .advance initproc true, .advance initproc true, .advance initproc true, .dispatch child,
    .kexit child 7] ++ List.replicate 6 (.advance child true) ++
  [.dispatch initproc, .advance initproc true, .advance initproc true, .advance initproc true]

theorem tree_of_run_forkAndWait :
    ∃ state : State 2 Unit,
      Transition.run (step (Fin.last 1)) (start (Fin.last 1)) forkAndWait = some state ∧
      state.reaped = [(Fin.last 1, 2, 7)] ∧ (state.exits.map Prod.fst).Nodup := by
  have hreaped : ∃ state ∈ Transition.run (step (Fin.last 1)) (start (Fin.last 1)) forkAndWait,
      state.reaped = [(Fin.last 1, 2, 7)] := by
    decide
  obtain ⟨state, hrun, hreaped⟩ := hreaped
  exact ⟨state, hrun, hreaped, (tree_of_run hrun).2.1.1⟩

end Xv6.Tree
