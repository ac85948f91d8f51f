import Xv6.Proc.ParentLocks
import Xv6.Proc.TreeInvariant

/-!
# What holds from one lock to the next

A process in `exit` holds the lock of its parent, and not that of another process that had its place, as long as the parent is
still the one that was read when it is locked. Then who is parent of whom does not change under those that hold the locks, and
a parent that sleeps in `wait` has no child that has exited.
-/

namespace Xv6.ParentLocks

variable {n : Nat} {Other : Type}

def Pc.Busy : Pc n → Prop
  | .lockSelf _ _ | .reparent _ _ _ | .scanning _ _ => True
  | _ => False

/-- The process is in `exit`, and no zombie yet. -/
def Pc.Exiting : Pc n → Prop
  | .wakeInit _ | .readParent _ | .lockParent _ _ | .lockSelf _ _ | .reparent _ _ _ => True
  | _ => False

/-- The parent that a process in `exit` has locked. -/
def Pc.original : Pc n → Option (Fin n)
  | .lockSelf _ original | .reparent _ original _ => some original
  | _ => none

def roleOf : Pc n → Role n
  | .reparent _ _ rest => .leaving rest
  | _ => .none

structure Pc.Free (pc : Pc n) : Prop where
  busy : ¬pc.Busy
  original : pc.original = none
  leaving : pc ≠ .leaving
  scanning : ∀ rest havekids, pc ≠ .scanning rest havekids
  role : roleOf pc = .none

theorem Pc.free {pc : Pc n} {who : Fin n} (h : pc.holds who = []) : pc.Free := by
  cases pc with
  | idle | napping | wakeInit | readParent | lockParent | waitAsleep =>
      refine ⟨id, rfl, ?_, ?_, rfl⟩ <;> simp
  | lockSelf | reparent | leaving | scanning => cases h

def State.family (state : State n Other) : Family n where
  kind q := Tree.kindOf (state.proc q).state
  parent q := (state.proc q).parent
  role p := roleOf (state.pc p)

/-- A process that is in `wait` has looked at a slot, and may sleep over it. -/
def State.past (state : State n Other) (p q : Fin n) : Bool :=
  match state.pc p with
  | .waitAsleep => (state.proc p).state = .sleeping
  | .scanning rest _ => q ∉ rest
  | _ => false

/-- The parent that is locked is still the parent, and no zombie is handed to `initproc` after it has looked for it. -/
def inTime (initproc : Fin n) (state : State n Other) : Action n Other → Bool
  | .advance who _ =>
      match state.pc who with
      | .lockParent _ original => (state.proc who).parent = some original
      | .reparent _ _ (q :: _) =>
          (state.proc q).parent = some who → (state.proc q).state = .zombie → state.past initproc q = false
      | _ => true
  | _ => true

def Ranked (initproc : Fin n) (parent : Fin n → Option (Fin n)) : Prop :=
  ∃ depth : Fin n → Nat, (∀ q p, parent q = some p → depth p < depth q) ∧ ∀ q, q ≠ initproc → depth initproc < depth q

structure Inv (initproc : Fin n) (state : State n Other) : Prop where
  family : Family.Inv initproc state.family
  ranked : Ranked initproc state.family.parent
  locks : ∀ q p, state.lock q = some p ↔ q ∈ (state.pc p).holds p
  busy : ∀ p, (state.pc p).Busy → (state.proc p).state = .running
  live : ∀ p, state.pc p ≠ .idle → state.pc p ≠ .leaving → (state.proc p).Live
  gone : ∀ p, state.pc p = .leaving → (state.proc p).state = .zombie
  exiting : ∀ p, (state.pc p).Exiting → p ≠ initproc
  original : ∀ p parent, (state.pc p).original = some parent → (state.proc p).parent = some parent
  chan : ∀ p, state.pc p = .waitAsleep → (state.proc p).chan = some (.inl p)
  scanning : ∀ p rest havekids, state.pc p = .scanning rest havekids → ∀ c, (state.proc c).parent = some p →
    (state.proc c).state = .zombie → c ∈ rest
  asleep : ∀ p, state.pc p = .waitAsleep → (state.proc p).state = .sleeping → ∀ c, (state.proc c).parent = some p →
    (state.proc c).state ≠ .zombie

/-! ### The ranks -/

namespace Ranked

variable {initproc who np : Fin n} {parent : Fin n → Option (Fin n)}

theorem parent_ne (h : Ranked initproc parent) {p : Fin n} : parent initproc ≠ some p := by
  obtain ⟨depth, hdepth, hfirst⟩ := h
  intro hp
  have hlt := hdepth initproc p hp
  by_cases hne : p = initproc
  · rw [hne] at hlt
    exact lt_irrefl _ hlt
  · exact lt_asymm hlt (hfirst p hne)

theorem ne (h : Ranked initproc parent) {q p : Fin n} (hp : parent q = some p) : q ≠ p := by
  obtain ⟨depth, hdepth, -⟩ := h
  rintro rfl
  exact lt_irrefl _ (hdepth q q hp)

theorem adopt (h : Ranked initproc parent) (hnp : np ≠ initproc) (hwho : np ≠ who) (hnone : ∀ q, parent q ≠ some np) :
    Ranked initproc (Function.update parent np (some who)) := by
  obtain ⟨depth, hdepth, hfirst⟩ := h
  refine ⟨Function.update depth np (depth who + 1), fun q p hp => ?_, fun q hq => ?_⟩
  · by_cases hqnp : q = np
    · rw [hqnp, Function.update_self] at hp
      rw [hqnp, ← Option.some.inj hp, Function.update_self, Function.update_of_ne hwho.symm]
      exact Nat.lt_succ_self _
    · rw [Function.update_of_ne hqnp] at hp
      have hpnp : p ≠ np := by
        rintro rfl
        exact hnone q hp
      rw [Function.update_of_ne hqnp, Function.update_of_ne hpnp]
      exact hdepth q p hp
  · rw [Function.update_of_ne hnp.symm]
    by_cases hqnp : q = np
    · rw [hqnp, Function.update_self]
      by_cases hfirst' : who = initproc
      · rw [hfirst']
        exact Nat.lt_succ_self _
      · exact (hfirst who hfirst').trans (Nat.lt_succ_self _)
    · rw [Function.update_of_ne hqnp]
      exact hfirst q hq

theorem orphan (h : Ranked initproc parent) (hnp : np ≠ initproc) :
    Ranked initproc (Function.update parent np (some initproc)) := by
  obtain ⟨depth, hdepth, hfirst⟩ := h
  refine ⟨depth, fun q p hp => ?_, hfirst⟩
  by_cases hqnp : q = np
  · rw [hqnp, Function.update_self] at hp
    rw [hqnp, ← Option.some.inj hp]
    exact hfirst np hnp
  · rw [Function.update_of_ne hqnp] at hp
    exact hdepth q p hp

theorem forget (h : Ranked initproc parent) : Ranked initproc (Function.update parent np none) := by
  obtain ⟨depth, hdepth, hfirst⟩ := h
  refine ⟨depth, fun q p hp => ?_, hfirst⟩
  by_cases hqnp : q = np
  · rw [hqnp, Function.update_self] at hp
    cases hp
  · rw [Function.update_of_ne hqnp] at hp
    exact hdepth q p hp

end Ranked

/-! ### Slots -/

theorem State.family_setProc (state : State n Other) (q : Fin n) (proc : Proc (Fin n) (Chan n Other)) :
    (state.setProc q proc).family =
      { state.family with
        kind := Function.update state.family.kind q (Tree.kindOf proc.state)
        parent := Function.update state.family.parent q proc.parent } := by
  apply Family.ext
  · funext c
    simp only [State.family, State.setProc, Function.update_apply]
    split <;> rfl
  · funext c
    simp only [State.family, State.setProc, Function.update_apply]
    split <;> rfl
  · rfl

theorem State.setProc_self (state : State n Other) (q : Fin n) : state.setProc q (state.proc q) = state := by
  unfold State.setProc
  rw [Function.update_eq_self]

theorem State.family_setPc (state : State n Other) (who : Fin n) (pc : Pc n) :
    (state.setPc who pc).family = state.family.setRole who (roleOf pc) := by
  apply Family.ext
  · rfl
  · rfl
  · funext p
    simp only [State.family, State.setPc, Family.setRole, Function.update_apply]
    split <;> rfl

namespace Inv

variable {initproc who np q : Fin n} {state next : State n Other}

theorem live_of_running (hwho : (state.proc who).state = .running) : (state.proc who).Live := Or.inr (Or.inl hwho)

theorem idle_of_unused (h : Inv initproc state) (hunused : (state.proc q).state = .unused) : state.pc q = .idle := by
  by_contra hne
  by_cases hleaving : state.pc q = .leaving
  · rw [h.gone q hleaving] at hunused
    cases hunused
  · rcases h.live q hne hleaving with hstate | hstate | hstate <;> rw [hunused] at hstate <;> cases hstate

theorem setProc (h : Inv initproc state) {proc : Proc (Fin n) (Chan n Other)}
    (hkind : Tree.kindOf proc.state = Tree.kindOf (state.proc q).state) (hparent : proc.parent = (state.proc q).parent)
    (hbusy : (state.pc q).Busy → proc.state = .running)
    (hchan : state.pc q = .waitAsleep → proc.chan = (state.proc q).chan)
    (hasleep : proc.state = .sleeping → (state.proc q).state = .sleeping) : Inv initproc (state.setProc q proc) := by
  have hfamily : (state.setProc q proc).family = state.family := by
    rw [State.family_setProc, hkind, hparent]
    exact Family.ext (Function.update_eq_self _ _) (Function.update_eq_self _ _) rfl
  have hzombie : proc.state = .zombie ↔ (state.proc q).state = .zombie := by
    rw [← Tree.kindOf_eq_zombie, hkind, Tree.kindOf_eq_zombie]
  have hlive' : proc.Live ↔ (state.proc q).Live := by
    rw [← Tree.kindOf_eq_live, hkind, Tree.kindOf_eq_live]
  obtain ⟨hfam, hranked, hlocks, hbusy', hlive, hgone, hexiting, horiginal, hchan', hscanning, hasleep'⟩ := h
  constructor
  · rwa [hfamily]
  · rwa [hfamily]
  · exact hlocks
  all_goals
    simp only [State.setProc, Function.update_apply] at *
    grind

theorem of_eq (h : Inv initproc state) (hproc : next.proc = state.proc) (hpc : next.pc = state.pc)
    (hlock : next.lock = state.lock) : Inv initproc next := by
  obtain ⟨proc, pc, lock, nextpid, exits, reaped⟩ := state
  obtain ⟨proc', pc', lock', nextpid', exits', reaped'⟩ := next
  obtain rfl : proc' = proc := hproc
  obtain rfl : pc' = pc := hpc
  obtain rfl : lock' = lock := hlock
  exact ⟨h.family, h.ranked, h.locks, h.busy, h.live, h.gone, h.exiting, h.original, h.chan, h.scanning, h.asleep⟩

theorem quiet (h : Inv initproc state) {proc : Proc (Fin n) (Chan n Other)} {pc : Pc n} (hwho : (state.proc who).Live)
    (hold : (state.pc who).holds who = []) (hnew : pc.holds who = []) (hproc : proc.Live)
    (hparent : proc.parent = (state.proc who).parent) (hpc : pc ≠ .waitAsleep) (hexiting : pc.Exiting → who ≠ initproc) :
    Inv initproc ((state.setProc who proc).setPc who pc) := by
  obtain ⟨hbusyOld, horiginalOld, hleavingOld, hscanningOld, hroleOld⟩ := Pc.free hold
  obtain ⟨hbusyNew, horiginalNew, hleavingNew, hscanningNew, hroleNew⟩ := Pc.free hnew
  have hfamily : ((state.setProc who proc).setPc who pc).family = state.family := by
    rw [State.family_setPc, State.family_setProc, Tree.kindOf_eq_live.mpr hproc, ← Tree.kindOf_eq_live.mpr hwho, hparent,
      hroleNew, ← hroleOld]
    exact Family.ext (Function.update_eq_self _ _) (Function.update_eq_self _ _) (Function.update_eq_self _ _)
  have hzombie : proc.state ≠ .zombie := by
    rcases hproc with hstate | hstate | hstate <;> rw [hstate] <;> exact ProcState.noConfusion
  obtain ⟨hfam, hranked, hlocks, hbusy, hlive, hgone, hexiting', horiginal, hchan, hscanning, hasleep⟩ := h
  constructor
  · rwa [hfamily]
  · rwa [hfamily]
  all_goals
    simp only [State.setProc, State.setPc, Function.update_apply] at *
    grind

/-! ### `fork` and `wait` -/

theorem fork (h : Inv initproc state) (hwho : (state.proc who).state = .running) (hpc : state.pc who = .idle)
    (hnp : (state.proc np).state = .unused) (pid : Nat) :
    Inv initproc (state.setProc np { state.proc np with pid := pid, parent := some who, state := .runnable }) := by
  have hnppc := h.idle_of_unused hnp
  have hlive : state.family.kind who = .live := Tree.kindOf_eq_live.mpr (Or.inr (Or.inl hwho))
  have hunused : state.family.kind np = .unused := congrArg Tree.kindOf hnp
  have hnone : ∀ q, state.family.parent q ≠ some np := h.family.not_parent (by simp [hunused])
  have hne : np ≠ initproc := by
    rintro rfl
    rw [h.family.first] at hunused
    cases hunused
  have hwhone : np ≠ who := by
    rintro rfl
    rw [hlive] at hunused
    cases hunused
  have hfam := (((h.family.fork hlive hunused).adopt (Function.update_self ..)).begin (Function.update_self ..))
  have hranked := h.ranked.adopt hne hwhone hnone
  have hfamily : (state.setProc np { state.proc np with pid := pid, parent := some who, state := .runnable }).family =
      (((state.family.fork who np).adopt who np).begin who np) := by
    rw [State.family_setProc]
    apply Family.ext
    · simp [Family.fork, Family.adopt, Family.begin, Tree.kindOf]
    · rfl
    · have hrole : state.family.role who = .none := congrArg roleOf hpc
      simp [Family.fork, Family.adopt, Family.begin, ← hrole]
  obtain ⟨-, -, hlocks, hbusy, hlive', hgone, hexiting, horiginal, hchan, hscanning, hasleep⟩ := h
  constructor
  · rw [hfamily]
    exact hfam
  · rw [hfamily]
    exact hranked
  all_goals
    simp only [State.setProc, Function.update_apply] at *
    grind [Proc.Live, Pc.Busy, Pc.original]

theorem scan (h : Inv initproc state) (hpc : state.pc who = .idle ∨ state.pc who = .waitAsleep)
    (hfree : state.lock who = none) {chan : Option (Chan n Other)}
    (hwho : (state.proc who).Live) :
    Inv initproc (((state.setProc who { state.proc who with state := .running, chan := chan }).setLock who
      (some who)).setPc who (.scanning (List.finRange n) false)) := by
  have hrole : roleOf (state.pc who) = .none := by
    rcases hpc with hpc | hpc <;> rw [hpc] <;> rfl
  have hfamily : (((state.setProc who { state.proc who with state := .running, chan := chan }).setLock who
      (some who)).setPc who (.scanning (List.finRange n) false)).family = state.family := by
    change ((state.setProc who { state.proc who with state := .running, chan := chan }).setPc who _).family = _
    rw [State.family_setPc, State.family_setProc]
    refine Family.ext (Function.update_eq_self_iff.mpr ?_) (Function.update_eq_self _ _)
      (Function.update_eq_self_iff.mpr hrole.symm)
    exact (Tree.kindOf_eq_live.mpr hwho).symm
  have hall : ∀ c : Fin n, c ∈ List.finRange n := List.mem_finRange
  have hkind : (state.proc who).state ≠ .zombie := by
    rcases hwho with hstate | hstate | hstate <;> rw [hstate] <;> exact ProcState.noConfusion
  obtain ⟨hfam, hranked, hlocks, hbusy, hlive', hgone, hexiting, horiginal, hchan, hscanning, hasleep⟩ := h
  constructor
  · rwa [hfamily]
  · rwa [hfamily]
  all_goals
    simp only [State.setProc, State.setPc, State.setLock, Function.update_apply] at *
    grind [Proc.Live, Pc.Busy, Pc.Exiting, Pc.original, Pc.holds]

theorem lock_original (h : Inv initproc state) {p parent : Fin n} (horiginal : (state.pc p).original = some parent) :
    state.lock parent = some p := by
  apply (h.locks parent p).mpr
  cases hpc : state.pc p with
  | lockSelf status original | reparent status original rest =>
      rw [hpc] at horiginal
      obtain rfl := Option.some.inj horiginal
      exact List.mem_cons_self
  | _ =>
      rw [hpc] at horiginal
      cases horiginal

/-! ### `exit` -/

theorem lockParent (h : Inv initproc state) {status : Int} {original : Fin n} (hpc : state.pc who = .lockParent status original)
    (hwho : (state.proc who).state = .running) (hfree : state.lock original = none)
    (hparent : (state.proc who).parent = some original) :
    Inv initproc ((state.setLock original (some who)).setPc who (.lockSelf status original)) := by
  have hfamily : ((state.setLock original (some who)).setPc who (.lockSelf status original)).family = state.family := by
    change (state.setPc who _).family = _
    rw [State.family_setPc]
    exact Family.ext rfl rfl (Function.update_eq_self_iff.mpr (congrArg roleOf hpc).symm)
  obtain ⟨hfam, hranked, hlocks, hbusy, hlive, hgone, hexiting, horiginal, hchan, hscanning, hasleep⟩ := h
  constructor
  · rwa [hfamily]
  · rwa [hfamily]
  all_goals
    simp only [State.setPc, State.setLock, Function.update_apply] at *
    grind [Proc.Live, Pc.Busy, Pc.Exiting, Pc.original, Pc.holds]

theorem lockSelf (h : Inv initproc state) {status : Int} {original : Fin n} (hpc : state.pc who = .lockSelf status original)
    (hfree : state.lock who = none) :
    Inv initproc ((state.setLock who (some who)).setPc who (.reparent status original (List.finRange n))) := by
  have hfamily : ((state.setLock who (some who)).setPc who (.reparent status original (List.finRange n))).family =
      state.family.leave who := State.family_setPc state who _
  have hlive : state.family.kind who = .live := by
    apply Tree.kindOf_eq_live.mpr
    exact Or.inr (Or.inl (h.busy who (by rw [hpc]; trivial)))
  have hfam := h.family.leave hlive (h.exiting who (by rw [hpc]; trivial))
  obtain ⟨-, hranked, hlocks, hbusy, hlive, hgone, hexiting, horiginal, hchan, hscanning, hasleep⟩ := h
  constructor
  · rwa [hfamily]
  · rwa [hfamily]
  all_goals
    simp only [State.setPc, State.setLock, Function.update_apply] at *
    grind [Proc.Live, Pc.Busy, Pc.Exiting, Pc.original, Pc.holds]

theorem pass (h : Inv initproc state) {status : Int} {original : Fin n} {rest : List (Fin n)}
    (hpc : state.pc who = .reparent status original (q :: rest)) (hparent : (state.proc q).parent ≠ some who) :
    Inv initproc (state.setPc who (.reparent status original rest)) := by
  have hfam := h.family.pass (congrArg roleOf hpc) hparent
  obtain ⟨-, hranked, hlocks, hbusy, hlive, hgone, hexiting, horiginal, hchan, hscanning, hasleep⟩ := h
  constructor
  · rwa [State.family_setPc]
  · exact hranked
  all_goals
    simp only [State.setPc, Function.update_apply] at *
    grind [Proc.Live, Pc.Busy, Pc.Exiting, Pc.original, Pc.holds]

theorem orphan (h : Inv initproc state) {status : Int} {original : Fin n} {rest : List (Fin n)}
    (hpc : state.pc who = .reparent status original (q :: rest)) (hparent : (state.proc q).parent = some who)
    (hfree : state.lock q = none)
    (hpast : (state.proc q).state = .zombie → state.past initproc q = false) :
    Inv initproc ((state.setProc q { state.proc q with parent := some initproc }).setPc who
      (.reparent status original rest)) := by
  have hfamily : ((state.setProc q { state.proc q with parent := some initproc }).setPc who
      (.reparent status original rest)).family = state.family.orphan initproc who q rest := by
    rw [State.family_setPc, State.family_setProc]
    exact Family.ext (Function.update_eq_self _ _) rfl rfl
  have hfam := h.family.orphan (congrArg roleOf hpc) hparent
  have hne : q ≠ initproc := by
    rintro rfl
    exact h.ranked.parent_ne hparent
  have hranked := h.ranked.orphan hne
  -- a child in `exit` would have the lock that its parent has here
  have hchild : (state.pc q).original = none := by
    by_contra hsome
    obtain ⟨parent, horiginal⟩ := Option.ne_none_iff_exists'.mp hsome
    obtain rfl := Option.some.inj (hparent.symm.trans (h.original q parent horiginal))
    have hself : state.lock who = some who := (h.locks who who).mpr (by rw [hpc]; exact List.mem_cons_of_mem _ List.mem_cons_self)
    exact h.ranked.ne hparent (Option.some.inj ((h.lock_original horiginal).symm.trans hself))
  unfold State.past at hpast
  obtain ⟨-, -, hlocks, hbusy, hlive, hgone, hexiting, horiginal, hchan, hscanning, hasleep⟩ := h
  constructor
  · rwa [hfamily]
  · rwa [hfamily]
  all_goals
    simp only [State.setProc, State.setPc, Function.update_apply] at *
    grind [Proc.Live, Pc.Busy, Pc.Exiting, Pc.original, Pc.holds]

section Wakeup

variable [DecidableEq Other]

theorem wakeup (h : Inv initproc state) (q : Fin n) (chan : Chan n Other) :
    Inv initproc (state.setProc q (wakeSlot (state.proc q) chan)) := by
  have hbusy := h.busy q
  unfold wakeSlot
  split
  next hsleeps =>
    refine h.setProc ?_ rfl (fun hpc => ?_) (fun _ => rfl) (fun hsleeping => (by cases hsleeping))
    · rw [hsleeps.1]
      rfl
    · rw [hbusy hpc] at hsleeps
      cases hsleeps.1
  next => exact h.setProc rfl rfl hbusy (fun _ => rfl) id

omit [DecidableEq Other] in
theorem kill (h : Inv initproc state) (q : Fin n) : Inv initproc (state.setProc q (state.proc q).kill) := by
  have hbusy := h.busy q
  refine h.setProc (Tree.kindOf_kill _) rfl (fun hpc => ?_) (fun _ => rfl) fun hsleeping => ?_
  · unfold Proc.kill
    rw [hbusy hpc]
    rfl
  · exact absurd hsleeping (Proc.kill_ne_sleeping _)

end Wakeup

theorem zombify (h : Inv initproc state) {status : Int} {original : Fin n} (hpc : state.pc who = .reparent status original [])
    (hawake : state.pc original = .waitAsleep → (state.proc original).state ≠ .sleeping) :
    Inv initproc (state.zombify who status original) := by
  have hfamily : (state.zombify who status original).family = state.family.exit who := by
    change ((state.setProc who { state.proc who with xstate := status, state := .zombie }).setPc who .leaving).family = _
    rw [State.family_setPc, State.family_setProc]
    exact Family.ext rfl (Function.update_eq_self _ _) rfl
  have hparent : (state.proc who).parent = some original := h.original who original (by rw [hpc]; rfl)
  have hne := h.ranked.ne hparent
  have hfam := h.family.exit (congrArg roleOf hpc)
  have hranked := h.ranked
  -- who scans has its own lock, which is held here
  have hscans : ∀ rest havekids, state.pc original ≠ .scanning rest havekids := by
    intro rest havekids hscanning
    have hself : state.lock original = some original :=
      (h.locks original original).mpr (by rw [hscanning]; exact List.mem_cons_self)
    have hheld : state.lock original = some who := h.lock_original (by rw [hpc]; rfl)
    exact hne (Option.some.inj (hheld.symm.trans hself))
  obtain ⟨-, -, hlocks, hbusy, hlive, hgone, hexiting, horiginal, hchan, hscanning, hasleep⟩ := h
  constructor
  · rwa [hfamily]
  · rw [hfamily]
    exact hranked
  all_goals
    simp only [State.zombify, State.setProc, State.setPc, State.setLock, Function.update_apply] at *
    grind [Proc.Live, Pc.Busy, Pc.Exiting, Pc.original, Pc.holds]

theorem unlock (h : Inv initproc state) (hpc : (state.pc who).holds who = [who]) (hbusy : (state.pc who).original = none) :
    Inv initproc ((state.setLock who none).setPc who .idle) := by
  have hrole : roleOf (state.pc who) = .none := by
    cases hat : state.pc who with
    | reparent status original rest =>
        rw [hat] at hbusy
        cases hbusy
    | _ => rfl
  have hfamily : ((state.setLock who none).setPc who .idle).family = state.family := by
    change (state.setPc who _).family = _
    rw [State.family_setPc]
    exact Family.ext rfl rfl (Function.update_eq_self_iff.mpr hrole.symm)
  obtain ⟨hfam, hranked, hlocks, hbusy, hlive, hgone, hexiting, horiginal, hchan, hscanning, hasleep⟩ := h
  constructor
  · rwa [hfamily]
  · rwa [hfamily]
  all_goals
    simp only [State.setPc, State.setLock, Function.update_apply] at *
    grind [Pc.Busy, Pc.Exiting, Pc.original, Pc.holds]

/-! ### The loop of `wait` -/

theorem scanNext (h : Inv initproc state) {rest : List (Fin n)} {havekids havekids' : Bool}
    (hpc : state.pc who = .scanning (q :: rest) havekids)
    (hnot : (state.proc q).parent = some who → (state.proc q).state ≠ .zombie) :
    Inv initproc (state.setPc who (.scanning rest havekids')) := by
  have hfamily : (state.setPc who (.scanning rest havekids')).family = state.family := by
    rw [State.family_setPc]
    exact Family.ext rfl rfl (Function.update_eq_self_iff.mpr (congrArg roleOf hpc).symm)
  obtain ⟨hfam, hranked, hlocks, hbusy, hlive, hgone, hexiting, horiginal, hchan, hscanning, hasleep⟩ := h
  constructor
  · rwa [hfamily]
  · rwa [hfamily]
  all_goals
    simp only [State.setPc, Function.update_apply] at *
    grind [Pc.Busy, Pc.Exiting, Pc.original, Pc.holds]

theorem waitSleep (h : Inv initproc state) {havekids : Bool} (hpc : state.pc who = .scanning [] havekids) :
    Inv initproc (state.waitSleep who) := by
  have hwho : (state.proc who).state = .running := h.busy who (by rw [hpc]; trivial)
  have hfamily : (state.waitSleep who).family = state.family := by
    change ((state.setProc who { state.proc who with chan := some (.inl who), state := .sleeping }).setPc who
      .waitAsleep).family = _
    rw [State.family_setPc, State.family_setProc]
    refine Family.ext (Function.update_eq_self_iff.mpr ?_) (Function.update_eq_self _ _)
      (Function.update_eq_self_iff.mpr (congrArg roleOf hpc).symm)
    exact (congrArg Tree.kindOf hwho).symm
  obtain ⟨hfam, hranked, hlocks, hbusy, hlive, hgone, hexiting, horiginal, hchan, hscanning, hasleep⟩ := h
  constructor
  · rwa [hfamily]
  · rwa [hfamily]
  all_goals
    simp only [State.waitSleep, State.setProc, State.setPc, State.setLock, Function.update_apply] at *
    grind [Proc.Live, Pc.Busy, Pc.Exiting, Pc.original, Pc.holds]

theorem reap (h : Inv initproc state) {rest : List (Fin n)} {havekids : Bool}
    (hpc : state.pc who = .scanning (q :: rest) havekids) (hfree : state.lock q = none)
    (hzombie : (state.proc q).state = .zombie) : Inv initproc (state.reap who q) := by
  have hwho : (state.proc who).state = .running := h.busy who (by rw [hpc]; trivial)
  have hidle : state.pc q = .idle := by
    by_contra hne
    by_cases hleaving : state.pc q = .leaving
    · have hheld : state.lock q = some q := (h.locks q q).mpr (by rw [hleaving]; exact List.mem_cons_self)
      rw [hfree] at hheld
      cases hheld
    · rcases h.live q hne hleaving with hstate | hstate | hstate <;> rw [hzombie] at hstate <;> cases hstate
  have hfamily : (state.reap who q).family = state.family.reap q := by
    change ((state.setProc q { (state.proc q).free with parent := none }).setPc who .idle).family = _
    rw [State.family_setPc, State.family_setProc]
    exact Family.ext rfl rfl (Function.update_eq_self_iff.mpr (congrArg roleOf hpc).symm)
  have hfam := h.family.reap (congrArg Tree.kindOf hzombie)
  have hranked : Ranked initproc (Function.update state.family.parent q none) := h.ranked.forget
  obtain ⟨-, -, hlocks, hbusy, hlive, hgone, hexiting, horiginal, hchan, hscanning, hasleep⟩ := h
  constructor
  · rwa [hfamily]
  · rwa [hfamily]
  all_goals
    simp only [State.reap, Proc.free, State.setProc, State.setPc, State.setLock, Function.update_apply] at *
    grind [Proc.Live, Pc.Busy, Pc.Exiting, Pc.original, Pc.holds]

/-! ### Every step -/

variable [DecidableEq Other]

theorem advance (h : Inv initproc state) {copied : Bool} (hin : inTime initproc state (.advance who copied) = true)
    (hwho : (state.proc who).state = .running ∨ state.pc who = .leaving)
    (hstep : state.advance initproc who copied = some next) : Inv initproc next := by
  have hruns : state.pc who ≠ .leaving → (state.proc who).state = .running := fun hne => hwho.resolve_right hne
  cases hpc : state.pc who with
  | idle | napping | waitAsleep => simp [State.advance, hpc] at hstep
  | wakeInit status =>
      simp only [State.advance, hpc, Option.ite_none_right_eq_some, Option.some.injEq] at hstep
      obtain ⟨-, rfl⟩ := hstep
      have hwoken := h.wakeup initproc (.inl initproc)
      have hne := h.exiting who (by rw [hpc]; trivial)
      have hstate : (state.proc who).state = .running := hruns (by rw [hpc]; simp)
      have hsame : ((state.setProc initproc (wakeSlot (state.proc initproc) (.inl initproc))).proc who) = state.proc who :=
        Function.update_of_ne hne _ _
      have hlive : ((state.setProc initproc (wakeSlot (state.proc initproc) (.inl initproc))).proc who).Live := by
        rw [hsame]
        exact live_of_running hstate
      have hquiet := hwoken.quiet hlive (by change (state.pc who).holds who = []; rw [hpc]; rfl)
        (rfl : (Pc.readParent status).holds who = []) hlive rfl (by simp) fun _ => hne
      rwa [State.setProc_self] at hquiet
  | readParent status =>
      simp only [State.advance, hpc, Option.ite_none_right_eq_some, Option.map_eq_some_iff] at hstep
      obtain ⟨-, original, -, rfl⟩ := hstep
      have hlive := live_of_running (hruns (by rw [hpc]; simp))
      have hquiet := h.quiet hlive (by rw [hpc]; rfl) (rfl : (Pc.lockParent status original).holds who = []) hlive rfl
        (by simp) fun _ => h.exiting who (by rw [hpc]; trivial)
      rwa [State.setProc_self] at hquiet
  | lockParent status original =>
      simp only [State.advance, hpc, Option.ite_none_right_eq_some, Option.some.injEq] at hstep
      obtain ⟨hfree, rfl⟩ := hstep
      simp only [inTime, hpc, decide_eq_true_eq] at hin
      exact h.lockParent hpc (hruns (by rw [hpc]; simp)) hfree hin
  | lockSelf status original =>
      simp only [State.advance, hpc, Option.ite_none_right_eq_some, Option.some.injEq] at hstep
      obtain ⟨hfree, rfl⟩ := hstep
      exact h.lockSelf hpc hfree
  | reparent status original rest =>
      cases rest with
      | nil =>
          simp only [State.advance, hpc, Option.some.injEq] at hstep
          subst hstep
          have hparent := h.original who original (by rw [hpc]; rfl)
          have hpcs : (state.setProc original (wakeSlot (state.proc original) (.inl original))).pc = state.pc := rfl
          refine (h.wakeup original (.inl original)).zombify (by rw [hpcs, hpc]) fun hasleep hsleeping => ?_
          rw [hpcs] at hasleep
          simp only [State.setProc, Function.update_self, wakeSlot, h.chan original hasleep, and_true] at hsleeping
          split at hsleeping
          · cases hsleeping
          next hawake => exact hawake hsleeping
      | cons q rest =>
          simp only [State.advance, hpc] at hstep
          split at hstep
          next hparent =>
            split at hstep
            next hfree =>
              cases hstep
              simp only [inTime, hpc, hparent, true_imp_iff, decide_eq_true_eq] at hin
              exact h.orphan hpc hparent hfree hin
            next => cases hstep
          next hparent =>
            cases hstep
            exact h.pass hpc hparent
  | leaving =>
      simp only [State.advance, hpc, Option.some.injEq] at hstep
      subst hstep
      exact h.unlock (by rw [hpc]; rfl) (by rw [hpc]; rfl)
  | scanning rest havekids =>
      cases rest with
      | nil =>
          simp only [State.advance, hpc] at hstep
          split at hstep
          · cases hstep
            exact h.unlock (by rw [hpc]; rfl) (by rw [hpc]; rfl)
          · cases hstep
            exact h.waitSleep hpc
      | cons q rest =>
          simp only [State.advance, hpc] at hstep
          split at hstep
          next hparent =>
            split at hstep
            next hfree =>
              split at hstep
              next hzombie =>
                split at hstep
                · cases hstep
                  exact h.reap hpc hfree hzombie
                · cases hstep
                  exact h.unlock (by rw [hpc]; rfl) (by rw [hpc]; rfl)
              next hzombie =>
                cases hstep
                exact h.scanNext hpc fun _ => hzombie
            next => cases hstep
          next hparent =>
            cases hstep
            exact h.scanNext hpc fun hchild => absurd hchild hparent

omit [DecidableEq Other] in
theorem dispatch (h : Inv initproc state) (hstate : (state.proc q).state = .runnable) (hfree : state.lock q = none) :
    Inv initproc (state.dispatch q) := by
  have hlive : (state.proc q).Live := Or.inl hstate
  have hruns : (({ state.proc q with state := .running } : Proc (Fin n) (Chan n Other))).Live := Or.inr (Or.inl rfl)
  have hsame : ∀ {pc : Pc n}, state.pc q = pc → pc ≠ .waitAsleep →
      Inv initproc (state.setProc q { state.proc q with state := .running }) := by
    intro pc hpc hne
    refine h.setProc ?_ rfl (fun _ => rfl) (fun _ => rfl) fun hsleeping => (by cases hsleeping)
    rw [hstate]
    rfl
  unfold State.dispatch
  cases hpc : state.pc q with
  | waitAsleep => exact h.scan (Or.inr hpc) hfree hlive
  | napping =>
      exact h.quiet hlive (by rw [hpc]; rfl) rfl (Or.inr (Or.inl rfl)) rfl (by simp) fun hexiting => hexiting.elim
  | _ => exact hsame hpc (by simp)

theorem step (h : Inv initproc state) {action : Action n Other} (hin : inTime initproc state action = true)
    (hstep : ParentLocks.step initproc state action = some next) : Inv initproc next := by
  cases action with
  | fork who np =>
      simp only [ParentLocks.step, Option.ite_none_right_eq_some, Option.some.injEq] at hstep
      obtain ⟨⟨hwho, hpc, hnp, -⟩, rfl⟩ := hstep
      exact (h.fork hwho hpc hnp state.nextpid).of_eq rfl rfl rfl
  | forkFails who np freed =>
      simp only [ParentLocks.step, Option.ite_none_right_eq_some, Option.some.injEq] at hstep
      obtain ⟨⟨-, -, hnp, -⟩, rfl⟩ := hstep
      have hidle := h.idle_of_unused hnp
      have hparent : (state.proc np).parent = none := h.family.parent_eq_none (congrArg Tree.kindOf hnp)
      have hslot : Inv initproc (state.setProc np
          (if freed then { (state.proc np).free with parent := none } else { state.proc np with pid := state.nextpid })) := by
        cases freed with
        | true =>
            refine h.setProc ?_ hparent.symm (fun hbusy => ?_) (fun hasleep => ?_) fun hsleeping => (by cases hsleeping)
            · rw [hnp]
              rfl
            · rw [hidle] at hbusy
              exact hbusy.elim
            · rw [hidle] at hasleep
              cases hasleep
        | false => exact h.setProc rfl rfl (h.busy np) (fun _ => rfl) id
      exact hslot.of_eq rfl rfl rfl
  | sleep who chan =>
      simp only [ParentLocks.step, Option.ite_none_right_eq_some, Option.some.injEq] at hstep
      obtain ⟨⟨hwho, hpc, -⟩, rfl⟩ := hstep
      exact h.quiet (live_of_running hwho) (by rw [hpc]; rfl) rfl (Or.inr (Or.inr rfl)) rfl (by simp)
        fun hexiting => hexiting.elim
  | exit who status =>
      simp only [ParentLocks.step, Option.ite_none_right_eq_some, Option.some.injEq] at hstep
      obtain ⟨⟨hwho, hpc, hne⟩, rfl⟩ := hstep
      have hquiet := h.quiet (live_of_running hwho) (by rw [hpc]; rfl) (rfl : (Pc.wakeInit status).holds who = [])
        (live_of_running hwho) rfl (by simp) fun _ => hne
      rw [State.setProc_self] at hquiet
      exact hquiet.of_eq rfl rfl rfl
  | wait who =>
      simp only [ParentLocks.step, Option.ite_none_right_eq_some, Option.some.injEq] at hstep
      obtain ⟨⟨hwho, hpc, hfree⟩, rfl⟩ := hstep
      have hscan := @scan _ _ initproc who state h (Or.inl hpc) hfree (state.proc who).chan (live_of_running hwho)
      have hself : { state.proc who with state := .running, chan := (state.proc who).chan } = state.proc who := by
        rw [← hwho]
      rwa [hself, State.setProc_self] at hscan
  | advance who copied =>
      simp only [ParentLocks.step, Option.ite_none_right_eq_some] at hstep
      exact h.advance hin hstep.1 hstep.2
  | wakeup q chan =>
      simp only [ParentLocks.step, Option.ite_none_right_eq_some, Option.some.injEq] at hstep
      obtain ⟨-, rfl⟩ := hstep
      exact h.wakeup q _
  | kill q =>
      simp only [ParentLocks.step, Option.ite_none_right_eq_some, Option.some.injEq] at hstep
      obtain ⟨-, rfl⟩ := hstep
      exact h.kill q
  | dispatch q =>
      simp only [ParentLocks.step, Option.ite_none_right_eq_some, Option.some.injEq] at hstep
      obtain ⟨⟨hstate, hfree⟩, rfl⟩ := hstep
      exact h.dispatch hstate hfree
  | yield q =>
      simp only [ParentLocks.step, Option.ite_none_right_eq_some, Option.some.injEq] at hstep
      obtain ⟨⟨hstate, hholds, -⟩, rfl⟩ := hstep
      refine h.setProc ?_ rfl (fun hbusy => absurd hbusy (Pc.free hholds).busy) (fun _ => rfl)
        fun hsleeping => (by cases hsleeping)
      rw [hstate]
      rfl

end Inv

end Xv6.ParentLocks
