import Mathlib.Logic.Relation
import Xv6.Proc.Books
import Xv6.Proc.ParentLocksInvariant

/-!
# No deadlock, and every exit reaped

Who holds a lock and waits for another one waits for that of a child, so nobody waits in a circle. What `exit` is called with
is what `wait` returns, once.
-/

namespace Xv6.ParentLocks

variable {n : Nat} {Other : Type}

/-! ### The order of the locks -/

section Order

variable {initproc who holder : Fin n} {state : State n Other}

theorem Inv.depth_lt (h : Inv initproc state) {depth : Fin n → Nat}
    (hdepth : ∀ q p, (state.proc q).parent = some p → depth p < depth q) {held wanted : Fin n}
    (hheld : state.lock held = some who) (hwants : state.wants initproc who = some wanted) : depth held < depth wanted := by
  have hholds := (h.locks held who).mp hheld
  cases hpc : state.pc who with
  | idle | napping | wakeInit | readParent | lockParent | waitAsleep =>
      rw [hpc] at hholds
      cases hholds
  | leaving =>
      simp [State.wants, hpc] at hwants
  | lockSelf status original =>
      simp only [State.wants, hpc, Option.some.injEq] at hwants
      rw [hpc] at hholds
      rw [List.mem_singleton.mp hholds, ← hwants]
      exact hdepth who original (h.original who original (by rw [hpc]; rfl))
  | reparent status original rest =>
      have hparent := hdepth who original (h.original who original (by rw [hpc]; rfl))
      cases rest with
      | nil => simp [State.wants, hpc] at hwants
      | cons q rest =>
          simp only [State.wants, hpc, Option.ite_none_right_eq_some, Option.some.injEq] at hwants
          obtain ⟨hchild, rfl⟩ := hwants
          have hlt := hdepth q who hchild
          rw [hpc] at hholds
          rcases List.mem_cons.mp hholds with rfl | hself
          · exact hparent.trans hlt
          · rwa [List.mem_singleton.mp hself]
  | scanning rest havekids =>
      cases rest with
      | nil => simp [State.wants, hpc] at hwants
      | cons q rest =>
          simp only [State.wants, hpc, Option.ite_none_right_eq_some, Option.some.injEq] at hwants
          obtain ⟨hchild, rfl⟩ := hwants
          rw [hpc] at hholds
          rw [List.mem_singleton.mp hholds]
          exact hdepth q who hchild

theorem Inv.not_blocked (h : Inv initproc state) (who : Fin n) :
    ¬Relation.TransGen (state.Blocked initproc) who who := by
  obtain ⟨depth, hdepth, -⟩ := h.ranked
  -- along a chain, each waits for a lock further down than the one before
  have hchain : ∀ {last}, Relation.TransGen (state.Blocked initproc) who last → ∀ first wanted,
      state.wants initproc who = some first → state.wants initproc last = some wanted → depth first < depth wanted := by
    intro last htrans
    induction htrans with
    | single hblocked =>
        intro first wanted hfirst hwanted
        obtain ⟨q, hwants, hlock⟩ := hblocked
        obtain rfl := Option.some.inj (hwants.symm.trans hfirst)
        exact h.depth_lt hdepth hlock hwanted
    | tail _ hblocked ih =>
        intro first wanted hfirst hwanted
        obtain ⟨q, hwants, hlock⟩ := hblocked
        exact (ih first q hfirst hwants).trans (h.depth_lt hdepth hlock hwanted)
  intro hcircle
  obtain ⟨next, ⟨q, hwants, -⟩, -⟩ := Relation.TransGen.head'_iff.mp hcircle
  exact lt_irrefl _ (hchain hcircle q q hwants hwants)

end Order

/-! ### The books -/

/-- The status a process is exiting with. -/
def Pc.exitStatus : Pc n → Option Int
  | .wakeInit status | .readParent status | .lockParent status _ | .lockSelf status _ | .reparent status _ _ => some status
  | _ => none

@[simp]
theorem exitStatus_idle : (Pc.idle : Pc n).exitStatus = none := rfl

@[simp]
theorem exitStatus_leaving : (Pc.leaving : Pc n).exitStatus = none := rfl

/-- What `exit` has left in a slot for `wait`. -/
def State.pending (state : State n Other) (q : Fin n) : Multiset (Nat × Int) :=
  (state.pc q).exitStatus.elim
    (if (state.proc q).state = .zombie then {((state.proc q).pid, (state.proc q).xstate)} else 0)
    fun status => {((state.proc q).pid, status)}

def State.books (state : State n Other) : Books n where
  pending := state.pending
  pid q := if (state.proc q).state = .unused then 0 else {(state.proc q).pid}
  exits := state.exits
  reaped := state.reaped
  nextpid := state.nextpid

section Steps

variable {initproc who np q : Fin n} {state next : State n Other}

theorem quiet_slot (hpc : ∀ p, p ≠ q → next.pc p = state.pc p) (hproc : ∀ p, p ≠ q → next.proc p = state.proc p)
    (hpending : next.pending q = state.pending q) (hpid : next.books.pid q = state.books.pid q)
    (hexits : next.exits = state.exits) (hreaped : next.reaped = state.reaped) (hnextpid : state.nextpid ≤ next.nextpid) :
    state.books.Quiet next.books := by
  refine ⟨fun p => ?_, fun p => ?_, hexits, hreaped, hnextpid⟩
  · by_cases hp : p = q
    · rw [hp]
      exact hpending
    · change next.pending p = state.pending p
      rw [State.pending, hpc p hp, hproc p hp, State.pending]
  · by_cases hp : p = q
    · rw [hp]
      exact hpid
    · change (if (next.proc p).state = .unused then 0 else {(next.proc p).pid}) = _
      rw [hproc p hp]
      rfl

theorem quiet_setProc {proc : Proc (Fin n) (Chan n Other)} (hunused : proc.state = .unused ↔ (state.proc q).state = .unused)
    (hzombie : proc.state = .zombie ↔ (state.proc q).state = .zombie)
    (hpid : (state.proc q).state ≠ .unused → proc.pid = (state.proc q).pid)
    (hxstate : (state.proc q).state = .zombie → proc.xstate = (state.proc q).xstate)
    (hidle : (state.proc q).state = .unused → state.pc q = .idle) : state.books.Quiet (state.setProc q proc).books := by
  refine quiet_slot (fun _ _ => rfl) (fun p hp => Function.update_of_ne hp _ _) ?_ ?_ rfl rfl le_rfl
  · simp only [State.pending, State.setProc, Function.update_self]
    cases hstatus : (state.pc q).exitStatus with
    | none =>
        by_cases hgone : (state.proc q).state = .zombie
        · rw [Option.elim_none, Option.elim_none, if_pos hgone, if_pos (hzombie.mpr hgone), hxstate hgone,
            hpid (by rw [hgone]; decide)]
        · rw [Option.elim_none, Option.elim_none, if_neg hgone, if_neg (mt hzombie.mp hgone)]
    | some status =>
        -- who exits is in use
        have hused : (state.proc q).state ≠ .unused := by
          intro hfree
          rw [hidle hfree] at hstatus
          cases hstatus
        rw [Option.elim_some, Option.elim_some, hpid hused]
  · simp only [State.books, State.setProc, Function.update_self]
    by_cases hfree : (state.proc q).state = .unused
    · rw [if_pos hfree, if_pos (hunused.mpr hfree)]
    · rw [if_neg hfree, if_neg (mt hunused.mp hfree), hpid hfree]

theorem quiet_setPc {pc : Pc n} (hstatus : pc.exitStatus = (state.pc who).exitStatus) :
    state.books.Quiet (state.setPc who pc).books := by
  refine quiet_slot (fun p hp => Function.update_of_ne hp _ _) (fun _ _ => rfl) ?_ rfl rfl rfl le_rfl
  simp only [State.pending, State.setPc, Function.update_self, hstatus]
  rfl

theorem quiet_kill (hinv : Inv initproc state) (q : Fin n) :
    state.books.Quiet (state.setProc q (state.proc q).kill).books := by
  refine quiet_setProc ?_ ?_ (fun _ => rfl) (fun _ => rfl) hinv.idle_of_unused
  all_goals
    unfold Proc.kill
    cases (state.proc q).state <;> simp

theorem quiet_zombify {status : Int} {original : Fin n} (hpc : (state.pc who).exitStatus = some status)
    (hwho : (state.proc who).state ≠ .unused) : state.books.Quiet (state.zombify who status original).books := by
  refine quiet_slot (q := who) (fun p hp => Function.update_of_ne hp _ _) (fun p hp => Function.update_of_ne hp _ _)
    ?_ ?_ rfl rfl le_rfl
  · simp [State.pending, State.zombify, State.setProc, State.setLock, State.setPc, hpc]
  · simp [State.books, State.zombify, State.setProc, State.setLock, State.setPc, hwho]

theorem balanced_fork (hinv : Inv initproc state) (h : state.books.Balanced) (hnp : (state.proc np).state = .unused)
    (who : Fin n) :
    { state.setProc np { state.proc np with pid := state.nextpid, parent := some who, state := .runnable } with
      nextpid := state.nextpid + 1 }.books.Balanced := by
  refine Books.Balanced.fork (q := np) h (fun p => ?_) (fun p hp => ?_) (if_pos hnp) ?_ rfl rfl rfl
  · by_cases hp : p = np
    · subst hp
      simp [State.books, State.pending, State.setProc, hinv.idle_of_unused hnp, hnp]
    · simp [State.books, State.pending, State.setProc, hp]
  · simp [State.books, State.setProc, hp]
  · simp [State.books, State.setProc]

theorem balanced_exit (h : state.books.Balanced) {status : Int} (hpc : state.pc who = .idle)
    (hwho : (state.proc who).state = .running) :
    { state.setPc who (.wakeInit status) with
      exits := state.exits ++ [((state.proc who).pid, status)] }.books.Balanced := by
  refine @Books.Balanced.exit _ _ _ who _ h (fun p hp => ?_) ?_ ?_ (fun _ => rfl) rfl rfl rfl
  · simp [State.books, State.pending, State.setPc, hp]
  · simp [State.books, State.pending, hpc, hwho]
  · simp [State.books, State.pending, State.setPc, Pc.exitStatus]

theorem balanced_reap (h : state.books.Balanced) (hidle : state.pc q = .idle) (hpc : (state.pc who).exitStatus = none)
    (hzombie : (state.proc q).state = .zombie) (hwho : (state.proc who).state = .running) :
    (state.reap who q).books.Balanced := by
  have hne : who ≠ q := by
    rintro rfl
    rw [hwho] at hzombie
    cases hzombie
  refine @Books.Balanced.reap _ _ _ who q ((state.proc q).pid, (state.proc q).xstate) h
    (fun p hp => ?_) ?_ ?_ (fun p hp => ?_) ?_ ?_ rfl rfl rfl
  · by_cases hself : p = who
    · subst hself
      simp [State.books, State.pending, State.reap, State.setProc, State.setLock, State.setPc, hpc, hp, hwho]
    · simp [State.books, State.pending, State.reap, State.setProc, State.setLock, State.setPc, hself, hp]
  · simp [State.books, State.pending, hidle, hzombie]
  · simp [State.books, State.pending, State.reap, State.setProc, State.setLock, State.setPc, hne.symm, hidle, Proc.free]
  · simp [State.books, State.reap, State.setProc, State.setLock, State.setPc, hp]
  · simp [State.books, hzombie]
  · simp [State.books, State.reap, State.setProc, State.setLock, State.setPc, Proc.free]

/-- A child that has exited, and the step of `wait` that frees its slot. -/
structure Reaps (state next : State n Other) (action : Action n Other) (who q : Fin n) : Prop where
  action : action = .advance who true
  parent : (state.proc q).parent = some who
  zombie : (state.proc q).state = .zombie
  next : next = state.reap who q

/-- Nothing is returned, and no slot is freed. -/
structure Keeps (state next : State n Other) : Prop where
  reaped : next.reaped = state.reaped
  used : ∀ q, (next.proc q).state = .unused → (state.proc q).state = .unused

theorem keeps_of_quiet (h : state.books.Quiet next.books) : Keeps state next := by
  refine ⟨h.reaped, fun q hq => ?_⟩
  by_contra hused
  have hpid := h.pid q
  simp only [State.books, if_pos hq, if_neg hused] at hpid
  exact Multiset.singleton_ne_zero _ hpid.symm

/-! ### Every step -/

variable [DecidableEq Other]

theorem wakeSlot_ne_unused {proc : Proc (Fin n) (Chan n Other)} {chan : Chan n Other} (hused : proc.state ≠ .unused) :
    (wakeSlot proc chan).state ≠ .unused := by
  unfold wakeSlot
  split
  · simp
  · exact hused

theorem quiet_wake (hinv : Inv initproc state) (q : Fin n) (chan : Chan n Other) :
    state.books.Quiet (state.setProc q (wakeSlot (state.proc q) chan)).books := by
  unfold wakeSlot
  split
  next hsleeps => apply quiet_setProc <;> simp [hsleeps.1]
  next => exact quiet_setProc Iff.rfl Iff.rfl (fun _ => rfl) (fun _ => rfl) hinv.idle_of_unused

theorem advance_cases (hinv : Inv initproc state) {copied : Bool}
    (hwho : (state.proc who).state = .running ∨ state.pc who = .leaving)
    (hstep : state.advance initproc who copied = some next) :
    state.books.Quiet next.books ∨
      ∃ q, Reaps state next (.advance who copied) who q ∧ state.lock q = none ∧ (state.pc who).exitStatus = none ∧
        (state.proc who).state = .running := by
  have hruns : state.pc who ≠ .leaving → (state.proc who).state = .running := fun hne => hwho.resolve_right hne
  cases hpc : state.pc who with
  | idle | napping | waitAsleep => simp [State.advance, hpc] at hstep
  | wakeInit status =>
      simp only [State.advance, hpc, Option.ite_none_right_eq_some, Option.some.injEq] at hstep
      obtain ⟨-, rfl⟩ := hstep
      refine .inl ((quiet_wake hinv initproc _).trans (quiet_setPc ?_))
      change _ = (state.pc who).exitStatus
      rw [hpc]
      rfl
  | readParent status =>
      simp only [State.advance, hpc, Option.ite_none_right_eq_some, Option.map_eq_some_iff] at hstep
      obtain ⟨-, original, -, rfl⟩ := hstep
      exact .inl (quiet_setPc (by rw [hpc]; rfl))
  | lockParent status original | lockSelf status original =>
      simp only [State.advance, hpc, Option.ite_none_right_eq_some, Option.some.injEq] at hstep
      obtain ⟨-, rfl⟩ := hstep
      exact .inl (@quiet_setPc _ _ _ state _ (by rw [hpc]; rfl))
  | reparent status original rest =>
      have hused : (state.proc who).state ≠ .unused := by
        rw [hruns (by rw [hpc]; simp)]
        decide
      cases rest with
      | nil =>
          simp only [State.advance, hpc, Option.some.injEq] at hstep
          subst hstep
          refine .inl ((quiet_wake hinv original (.inl original)).trans (quiet_zombify ?_ ?_))
          · change (state.pc who).exitStatus = _
            rw [hpc]
            rfl
          · simp only [State.setProc, Function.update_apply]
            split
            next heq => exact wakeSlot_ne_unused (heq ▸ hused)
            next => exact hused
      | cons q rest =>
          simp only [State.advance, hpc] at hstep
          split at hstep
          · split at hstep
            · cases hstep
              refine .inl ((@quiet_setProc _ _ q state { state.proc q with parent := some initproc }
                Iff.rfl Iff.rfl (fun _ => rfl) (fun _ => rfl) hinv.idle_of_unused).trans (quiet_setPc ?_))
              change _ = (state.pc who).exitStatus
              rw [hpc]
              rfl
            · cases hstep
          · cases hstep
            exact .inl (quiet_setPc (by rw [hpc]; rfl))
  | leaving =>
      simp only [State.advance, hpc, Option.some.injEq] at hstep
      subst hstep
      exact .inl (@quiet_setPc _ _ _ state _ (by rw [hpc]; rfl))
  | scanning rest havekids =>
      have hstate : (state.proc who).state = .running := hruns (by rw [hpc]; simp)
      cases rest with
      | nil =>
          simp only [State.advance, hpc] at hstep
          split at hstep
          · cases hstep
            exact .inl (@quiet_setPc _ _ _ state _ (by rw [hpc]; rfl))
          · cases hstep
            refine .inl (Books.Quiet.trans (@quiet_setProc _ _ who state
              { state.proc who with chan := some (.inl who), state := .sleeping } ?_ ?_ (fun _ => rfl)
              (fun _ => rfl) hinv.idle_of_unused) (quiet_setPc (by change _ = (state.pc who).exitStatus; rw [hpc]; rfl)))
            all_goals simp [hstate]
      | cons q rest =>
          simp only [State.advance, hpc] at hstep
          split at hstep
          next hparent =>
            split at hstep
            next hfree =>
              split at hstep
              next hzombie =>
                split at hstep
                next hcopied =>
                  cases hstep
                  exact .inr ⟨q, ⟨by rw [hcopied], hparent, hzombie, rfl⟩, hfree, rfl, hstate⟩
                next =>
                  cases hstep
                  exact .inl (@quiet_setPc _ _ _ state _ (by rw [hpc]; rfl))
              next =>
                cases hstep
                exact .inl (quiet_setPc (by rw [hpc]; rfl))
            next => cases hstep
          next =>
            cases hstep
            exact .inl (quiet_setPc (by rw [hpc]; rfl))

omit [DecidableEq Other] in
theorem quiet_dispatch (hstate : (state.proc q).state = .runnable) : state.books.Quiet (state.dispatch q).books := by
  have hruns : ∀ chan, state.books.Quiet (state.setProc q { state.proc q with state := .running, chan := chan }).books := by
    intro chan
    apply quiet_setProc <;> simp [hstate]
  unfold State.dispatch
  cases hpc : state.pc q with
  | waitAsleep | napping =>
      refine (hruns none).trans (@quiet_setPc _ _ _ (state.setProc q _) _ ?_)
      change _ = (state.pc q).exitStatus
      rw [hpc]
      rfl
  | _ => exact hruns (state.proc q).chan

theorem step_cases (hinv : Inv initproc state) {action : Action n Other}
    (hstep : step initproc state action = some next) :
    state.books.Quiet next.books ∨
      (∃ who np, (state.proc np).state = .unused ∧ next = { state.setProc np
        { state.proc np with pid := state.nextpid, parent := some who, state := .runnable } with
        nextpid := state.nextpid + 1 }) ∨
      (∃ who status, state.pc who = .idle ∧ (state.proc who).state = .running ∧ next = { state.setPc who (.wakeInit status) with
        exits := state.exits ++ [((state.proc who).pid, status)] }) ∨
      ∃ who q, Reaps state next action who q ∧ state.lock q = none ∧ (state.pc who).exitStatus = none ∧
        (state.proc who).state = .running := by
  cases action with
  | fork who np =>
      simp only [step, Option.ite_none_right_eq_some, Option.some.injEq] at hstep
      obtain ⟨⟨-, -, hnp, -⟩, rfl⟩ := hstep
      exact .inr (.inl ⟨who, np, hnp, rfl⟩)
  | forkFails who np freed =>
      simp only [step, Option.ite_none_right_eq_some, Option.some.injEq] at hstep
      obtain ⟨⟨-, -, hnp, -⟩, rfl⟩ := hstep
      have hslot : ∀ proc : Proc (Fin n) (Chan n Other), proc.state = .unused →
          state.books.Quiet { state.setProc np proc with nextpid := state.nextpid + 1 }.books := by
        intro proc hproc
        refine quiet_slot (q := np) (fun _ _ => rfl) (fun p hp => Function.update_of_ne hp _ _) ?_ ?_ rfl rfl (Nat.le_succ _)
        · simp [State.pending, State.setProc, hinv.idle_of_unused hnp, hnp, hproc]
        · simp [State.books, State.setProc, hnp, hproc]
      refine .inl (hslot _ ?_)
      cases freed with
      | true => rfl
      | false => exact hnp
  | sleep who chan =>
      simp only [step, Option.ite_none_right_eq_some, Option.some.injEq] at hstep
      obtain ⟨⟨hwho, hpc, -⟩, rfl⟩ := hstep
      refine .inl (Books.Quiet.trans (@quiet_setProc _ _ who state
        { state.proc who with chan := some (.inr chan), state := .sleeping } ?_ ?_ (fun _ => rfl)
        (fun _ => rfl) hinv.idle_of_unused) (quiet_setPc (by change _ = (state.pc who).exitStatus; rw [hpc]; rfl)))
      all_goals simp [hwho]
  | exit who status =>
      simp only [step, Option.ite_none_right_eq_some, Option.some.injEq] at hstep
      obtain ⟨⟨hwho, hpc, -⟩, rfl⟩ := hstep
      exact .inr (.inr (.inl ⟨who, status, hpc, hwho, rfl⟩))
  | wait who =>
      simp only [step, Option.ite_none_right_eq_some, Option.some.injEq] at hstep
      obtain ⟨⟨-, hpc, -⟩, rfl⟩ := hstep
      exact .inl (@quiet_setPc _ _ _ state _ (by rw [hpc]; rfl))
  | advance who copied =>
      simp only [step, Option.ite_none_right_eq_some] at hstep
      rcases advance_cases hinv hstep.1 hstep.2 with hquiet | ⟨q, hreaps⟩
      · exact .inl hquiet
      · exact .inr (.inr (.inr ⟨who, q, hreaps⟩))
  | wakeup q chan =>
      simp only [step, Option.ite_none_right_eq_some, Option.some.injEq] at hstep
      obtain ⟨-, rfl⟩ := hstep
      exact .inl (quiet_wake hinv q _)
  | kill q =>
      simp only [step, Option.ite_none_right_eq_some, Option.some.injEq] at hstep
      obtain ⟨-, rfl⟩ := hstep
      exact .inl (quiet_kill hinv q)
  | dispatch q =>
      simp only [step, Option.ite_none_right_eq_some, Option.some.injEq] at hstep
      obtain ⟨⟨hstate, -⟩, rfl⟩ := hstep
      exact .inl (quiet_dispatch hstate)
  | yield q =>
      simp only [step, Option.ite_none_right_eq_some, Option.some.injEq] at hstep
      obtain ⟨⟨hstate, -⟩, rfl⟩ := hstep
      left
      apply quiet_setProc <;> simp [hstate]

omit [DecidableEq Other] in
/-- A zombie whose lock is free has left the processor. -/
theorem idle_of_zombie (hinv : Inv initproc state) (hzombie : (state.proc q).state = .zombie) (hfree : state.lock q = none) :
    state.pc q = .idle := by
  by_contra hne
  by_cases hleaving : state.pc q = .leaving
  · have hheld : state.lock q = some q := (hinv.locks q q).mpr (by rw [hleaving]; exact List.mem_cons_self)
    rw [hfree] at hheld
    cases hheld
  · rcases hinv.live q hne hleaving with hstate | hstate | hstate <;> rw [hzombie] at hstate <;> cases hstate

theorem balanced_step (hinv : Inv initproc state) (h : state.books.Balanced) {action : Action n Other}
    (hstep : step initproc state action = some next) : next.books.Balanced := by
  rcases step_cases hinv hstep with hquiet | ⟨who, np, hnp, rfl⟩ | ⟨who, status, hpc, hwho, rfl⟩ |
    ⟨who, q, hreaps, hfree, hpc, hwho⟩
  · exact h.quiet hquiet
  · exact balanced_fork hinv h hnp who
  · exact balanced_exit h hpc hwho
  · rw [hreaps.next]
    exact balanced_reap h (idle_of_zombie hinv hreaps.zombie hfree) hpc hreaps.zombie hwho

theorem reaps_or_keeps (hinv : Inv initproc state) {action : Action n Other}
    (hstep : step initproc state action = some next) : (∃ who q, Reaps state next action who q) ∨ Keeps state next := by
  rcases step_cases hinv hstep with hquiet | ⟨who, np, hnp, rfl⟩ | ⟨who, status, -, -, rfl⟩ | ⟨who, q, hreaps, -⟩
  · exact .inr (keeps_of_quiet hquiet)
  · refine .inr ⟨rfl, fun q hq => ?_⟩
    by_cases hqnp : q = np
    · rwa [hqnp]
    · simpa [State.setProc, hqnp] using hq
  · exact .inr ⟨rfl, fun _ hq => hq⟩
  · exact .inl ⟨who, q, hreaps⟩

end Steps

/-! ### Every run -/

section Run

variable [DecidableEq Other] {initproc : Fin n} {state : State n Other} {actions : List (Action n Other)}

omit [DecidableEq Other] in
theorem Inv.start (initproc : Fin n) : Inv initproc (start initproc : State n Other) := by
  constructor
  · constructor
    all_goals
      simp only [ParentLocks.start, State.family, Family.Fills, roleOf]
      grind [Tree.kindOf, Proc.empty]
  · refine ⟨fun q => if q = initproc then 0 else 1, fun q p hp => ?_, fun q hq => ?_⟩
    · simp only [State.family, ParentLocks.start] at hp
      split at hp <;> cases hp
    · simp [hq]
  all_goals
    simp only [ParentLocks.start]
    grind [Pc.holds, Pc.Busy, Pc.Exiting, Pc.original, Proc.empty]

omit [DecidableEq Other] in
theorem balanced_start (initproc : Fin n) : (start initproc : State n Other).books.Balanced := by
  have hpids : (start initproc : State n Other).books.pids = {1} := by
    unfold Books.pids
    rw [Finset.sum_eq_single initproc ?_ (by simp)]
    · simp [start, State.books]
    · intro q _ hq
      simp [start, State.books, Proc.empty, hq]
  constructor
  · rw [Finset.sum_eq_zero]
    · rfl
    · intro q _
      by_cases hq : q = initproc <;> simp [start, State.books, State.pending, Proc.empty, hq]
  · rw [hpids]
    exact Multiset.nodup_singleton 1
  · intro pid hmem
    rw [hpids, Multiset.mem_singleton] at hmem
    subst hmem
    exact Nat.one_lt_two

theorem inv_of_run (halong : Transition.Along (step initproc) (fun state action => inTime initproc state action = true)
    (start initproc) actions) (hrun : Transition.run (step initproc) (start initproc) actions = some state) :
    Inv initproc state ∧ state.books.Balanced := by
  refine @Transition.invariant_along _ _ _ _ _ _ (fun state => Inv initproc state ∧ state.books.Balanced) ?_ _
    ⟨Inv.start initproc, balanced_start initproc⟩ halong hrun
  exact fun _ _ _ h hin hstep => ⟨h.1.step hin hstep, balanced_step h.1 h.2 hstep⟩

omit [DecidableEq Other] in
/-- A slot with something to collect is in use. -/
theorem map_pending_le (hinv : Inv initproc state) (q : Fin n) : (state.books.pending q).map Prod.fst ≤ state.books.pid q := by
  by_cases hunused : (state.proc q).state = .unused
  · have hnone : state.pending q = 0 := by
      simp [State.pending, hinv.idle_of_unused hunused, hunused]
    change (state.pending q).map Prod.fst ≤ _
    rw [hnone]
    exact Multiset.zero_le _
  · have hpid : state.books.pid q = {(state.proc q).pid} := if_neg hunused
    change (state.pending q).map Prod.fst ≤ _
    rw [hpid, State.pending]
    cases (state.pc q).exitStatus with
    | some status => exact le_rfl
    | none =>
        rw [Option.elim_none]
        split
        · exact le_rfl
        · exact Multiset.zero_le _

/-- **No deadlock, and every exit reaped.** In every state of a run in which a parent that is locked is still the parent, and
no zombie is handed to the first process once that has looked for it: nobody waits for a lock in a circle; who has exited
has a parent that has not; what was passed to `exit`, each pid once, is what the table still holds and what `wait` has
returned; a slot is freed by the `wait` of the parent and by nothing else, which returns the pid and the status; and nobody
sleeps in `wait` over a child that has exited. -/
theorem exitWait_of_run (halong : Transition.Along (step initproc) (fun state action => inTime initproc state action = true)
    (start initproc) actions) (hrun : Transition.run (step initproc) (start initproc) actions = some state) :
    (∀ who, ¬Relation.TransGen (state.Blocked initproc) who who) ∧
    (∀ q, (state.proc q).state = .zombie → ∃ p, (state.proc q).parent = some p ∧ (state.proc p).Live) ∧
    ((state.exits.map Prod.fst).Nodup ∧
      (↑state.exits : Multiset (Nat × Int)) = ∑ q, state.pending q + ↑(state.reaped.map Prod.snd)) ∧
    (∀ action next, step initproc state action = some next →
      (∃ who q, Reaps state next action who q) ∨ Keeps state next) ∧
    (∀ p c, (state.proc c).parent = some p → (state.proc c).state = .zombie →
      ¬(state.pc p = .waitAsleep ∧ (state.proc p).state = .sleeping)) := by
  obtain ⟨hinv, hbalanced⟩ := inv_of_run halong hrun
  refine ⟨hinv.not_blocked, fun q hq => ?_, ⟨hbalanced.nodup_exits (map_pending_le hinv), hbalanced.exits⟩,
    fun action next hstep => reaps_or_keeps hinv hstep, fun p c hparent hzombie hasleep => ?_⟩
  · have hkind : Tree.kindOf (state.proc q).state = .zombie := congrArg Tree.kindOf hq
    have hne : q ≠ initproc := by
      rintro rfl
      have hfirst : Tree.kindOf (state.proc q).state = .live := hinv.family.first
      rw [hkind] at hfirst
      cases hfirst
    obtain ⟨p, hparent⟩ := hinv.family.child q (.inr hkind) hne
    exact ⟨p, hparent, Tree.kindOf_eq_live.mp (hinv.family.parent q p hparent).1⟩
  · exact hinv.asleep p hasleep.1 hasleep.2 c hparent hzombie

end Run

/-- The first process forks, and waits for its child, which exits. -/
def forkAndWait : List (Action 2 Unit) :=
  let initproc := Fin.last 1
  let child := (Fin.last 0).castSucc
  List.flatten [
    [.dispatch initproc, .fork initproc child, .wait initproc],
    List.replicate 3 (.advance initproc true),
    [.dispatch child, .exit child 7],
    List.replicate 8 (.advance child true),
    [.dispatch initproc, .advance initproc true]]

theorem exitWait_of_run_forkAndWait :
    ∃ state : State 2 Unit, Transition.run (step (Fin.last 1)) (start (Fin.last 1)) forkAndWait = some state ∧
      state.reaped = [(Fin.last 1, 2, 7)] ∧ (state.exits.map Prod.fst).Nodup := by
  have hreaped : ∃ state ∈ Transition.run (step (Fin.last 1)) (start (Fin.last 1)) forkAndWait,
      state.reaped = [(Fin.last 1, 2, 7)] := by
    decide +kernel
  have halong : Transition.Along (step (Fin.last 1)) (fun state action => inTime (Fin.last 1) state action = true)
      (start (Fin.last 1)) forkAndWait := by
    decide +kernel
  obtain ⟨state, hrun, hreaped⟩ := hreaped
  exact ⟨state, hrun, hreaped, (exitWait_of_run halong hrun).2.2.1.1⟩

/-! ### A parent that is locked too late -/

/-- A process reads its parent in `exit`. The parent exits and is reaped, and a grandchild of the process gets its slot. Then
the three exit together: each locks the slot that it has read, and waits for its own lock. -/
def exitTogether : List (Action 4 Unit) :=
  let initproc := Fin.last 3
  let parent := (Fin.last 2).castSucc
  let child := (Fin.last 1).castSucc.castSucc
  let grandchild := (Fin.last 0).castSucc.castSucc.castSucc
  List.flatten [
    [.dispatch initproc, .fork initproc parent, .dispatch parent, .fork parent child, .dispatch child,
      .fork child grandchild, .dispatch grandchild],
    [.exit child 0, .advance child true, .advance child true],
    .exit parent 0 :: List.replicate 10 (.advance parent true),
    .wait initproc :: List.replicate 3 (.advance initproc true),
    [.fork grandchild parent, .dispatch parent, .exit parent 0, .advance parent true, .advance parent true],
    [.exit grandchild 0, .advance grandchild true, .advance grandchild true],
    [.advance child true, .advance grandchild true, .advance parent true]]

/-- A process whose child has exited exits itself, and wakes the first process. That looks for children and goes to sleep
before it is handed the child. -/
def handsOver : List (Action 4 Unit) :=
  let initproc := Fin.last 3
  let grandparent := (Fin.last 2).castSucc
  let parent := (Fin.last 1).castSucc.castSucc
  let child := (Fin.last 0).castSucc.castSucc.castSucc
  List.flatten [
    [.dispatch initproc, .fork initproc grandparent, .dispatch grandparent, .fork grandparent parent, .dispatch parent,
      .fork parent child, .dispatch child],
    .exit child 0 :: List.replicate 10 (.advance child true),
    [.exit parent 0, .advance parent true],
    .wait initproc :: List.replicate 5 (.advance initproc true),
    List.replicate 9 (.advance parent true)]

/-- Three processes wait for each other; and with every lock free the first process sleeps over a child that has exited. -/
theorem exit_late :
    (∃ state, Transition.run (step (Fin.last 3)) (start (Fin.last 3)) exitTogether = some state ∧
      ∃ who, Relation.TransGen (state.Blocked (Fin.last 3)) who who) ∧
    ∃ state, Transition.run (step (Fin.last 3)) (start (Fin.last 3)) handsOver = some state ∧
      (∀ q, state.lock q = none) ∧ state.pc (Fin.last 3) = .waitAsleep ∧ (state.proc (Fin.last 3)).state = .sleeping ∧
      ∃ c, (state.proc c).parent = some (Fin.last 3) ∧ (state.proc c).state = .zombie := by
  have hcircle : ∃ state ∈ Transition.run (step (Fin.last 3)) (start (Fin.last 3)) exitTogether,
      ∃ first second third, state.Blocked (Fin.last 3) first second ∧ state.Blocked (Fin.last 3) second third ∧
        state.Blocked (Fin.last 3) third first := by
    decide +kernel
  obtain ⟨state, hrun, first, second, third, hfirst, hsecond, hthird⟩ := hcircle
  refine ⟨⟨state, hrun, first, ((Relation.TransGen.single hfirst).tail hsecond).tail hthird⟩, ?_⟩
  decide +kernel

end Xv6.ParentLocks
