import Xv6.Proc.Tree

/-!
# What holds between two sections of `kfork`, `kexit` and `kwait`

The slots and their parents form a `Family`. A parent that is about to sleep in `kwait`, or sleeps
there, with its channel registered, has no child that has exited; the one exception is `initproc`
while somebody who hands it a child is still to wake it.
-/

set_option linter.unusedSectionVars false

namespace Xv6.Tree

variable {n : Nat} {Other : Type} [DecidableEq Other]

def kindOf : ProcState → Kind
  | .unused => .unused
  | .used => .used
  | .zombie => .zombie
  | .runnable | .running | .sleeping => .live

def roleOf : Pc n → Role n
  | .forking np => .forking np
  | .parented np => .parented np
  | .reparent _ rest | .wakeInit _ rest _ => .leaving rest
  | .wakeParent _ _ _ => .leaving []
  | _ => .none

def State.family (state : State n Other) : Family n where
  kind q := kindOf (state.proc q).state
  parent q := (state.proc q).parent
  role p := roleOf (state.pc p)

theorem State.setProc_self (state : State n Other) (q : Fin n) :
    state.setProc q (state.proc q) = state := by
  unfold State.setProc
  rw [Function.update_eq_self]

theorem kindOf_eq_zombie {state : ProcState} : kindOf state = .zombie ↔ state = .zombie := by
  cases state <;> simp [kindOf]

theorem kindOf_eq_unused {state : ProcState} : kindOf state = .unused ↔ state = .unused := by
  cases state <;> simp [kindOf]

theorem kindOf_eq_used {state : ProcState} : kindOf state = .used ↔ state = .used := by
  cases state <;> simp [kindOf]

omit [DecidableEq Other] in
theorem kindOf_eq_live {proc : Proc (Fin n) (Chan n Other)} :
    kindOf proc.state = .live ↔ proc.Live := by
  unfold Proc.Live
  cases proc.state <;> simp [kindOf]

theorem kindOf_wakeup (proc : Proc (Fin n) (Chan n Other)) (chan : Chan n Other) :
    kindOf (proc.wakeup chan).state = kindOf proc.state := by
  unfold Proc.wakeup
  split
  · cases proc.state <;> rfl
  · rfl

omit [DecidableEq Other] in
theorem kindOf_kill (proc : Proc (Fin n) (Chan n Other)) :
    kindOf proc.kill.state = kindOf proc.state := by
  unfold Proc.kill
  cases proc.state <;> rfl

theorem State.family_setProc (state : State n Other) (q : Fin n)
    (proc : Proc (Fin n) (Chan n Other)) :
    (state.setProc q proc).family =
      { state.family with
        kind := Function.update state.family.kind q (kindOf proc.state)
        parent := Function.update state.family.parent q proc.parent } := by
  apply Family.ext
  · funext c
    simp only [State.family, State.setProc, Function.update_apply]
    split <;> rfl
  · funext c
    simp only [State.family, State.setProc, Function.update_apply]
    split <;> rfl
  · rfl

theorem State.family_setPc (state : State n Other) (who : Fin n) (pc : Pc n) :
    (state.setPc who pc).family = state.family.setRole who (roleOf pc) := by
  apply Family.ext
  · rfl
  · rfl
  · funext p
    simp only [State.family, State.setPc, Family.setRole, Function.update_apply]
    split <;> rfl

theorem State.family_setPc_of_role {state : State n Other} {who : Fin n} {pc : Pc n}
    (hrole : roleOf pc = roleOf (state.pc who)) : (state.setPc who pc).family = state.family := by
  rw [State.family_setPc]
  exact Family.ext rfl rfl (Function.update_eq_self_iff.mpr hrole)

/-- The process is in the part of `kwait` that sleeps. -/
def Pc.Sleeps : Pc n → Prop
  | .waitPrepared | .waitReleased | .waitAsleep => True
  | _ => False

/-- The process neither holds `wait_lock` nor fills a slot. -/
def Pc.Quiet : Pc n → Prop
  | .idle | .prepared | .napping | .waitReleased | .waitAsleep | .waitReturned => True
  | _ => False

theorem Pc.Quiet.holds {pc : Pc n} (h : pc.Quiet) : pc.holds = false := by
  cases pc <;> first | rfl | exact h.elim

theorem Pc.Quiet.role {pc : Pc n} (h : pc.Quiet) : roleOf pc = .none := by
  cases pc <;> first | rfl | exact h.elim

/-- The process will sleep in `kwait`, or sleeps there, until it is woken. -/
def State.Expects (state : State n Other) (p : Fin n) : Prop :=
  (state.pc p).Sleeps ∧ (state.proc p).chan = some (.inl p)

/-- Somebody is still to wake `initproc`. -/
def State.WakesInit (state : State n Other) (initproc : Fin n) : Prop :=
  ∃ p status rest slots, state.pc p = .wakeInit status rest slots ∧ initproc ∈ slots

structure Inv (initproc : Fin n) (state : State n Other) : Prop where
  family : Family.Inv initproc state.family
  lock : ∀ p, (state.pc p).holds = true ↔ state.waitLock = some p
  live : ∀ p, state.pc p ≠ .idle → kindOf (state.proc p).state = .live
  registered : ∀ p, (state.pc p).Sleeps → (state.proc p).chan = some (.inl p) ∨
    (state.proc p).chan = none
  asleep : ∀ p, state.pc p = .waitAsleep → (state.proc p).state = .sleeping →
    (state.proc p).chan = some (.inl p)
  scanning : ∀ p rest havekids, state.pc p = .scanning rest havekids → ∀ c,
    (state.proc c).parent = some p → (state.proc c).state = .zombie → c ∈ rest
  waiting : ∀ p, state.pc p = .waiting → ∀ c, (state.proc c).parent = some p →
    (state.proc c).state ≠ .zombie
  expects : ∀ p, state.Expects p → ∀ c, (state.proc c).parent = some p →
    (state.proc c).state = .zombie → p = initproc ∧ state.WakesInit initproc
  wakes : ∀ p status parent slots, state.pc p = .wakeParent status parent slots →
    parent = (state.proc p).parent ∧ ∀ q, parent = some q → q ∉ slots → ¬state.Expects q

namespace Inv

variable {initproc who np q : Fin n} {state next : State n Other}

theorem holder_unique (h : Inv initproc state) {p : Fin n} (hwho : (state.pc who).holds = true)
    (hp : (state.pc p).holds = true) : p = who :=
  Option.some.inj (((h.lock p).mp hp).symm.trans ((h.lock who).mp hwho))

theorem idle_of_unused (h : Inv initproc state) (hunused : (state.proc q).state = .unused) :
    state.pc q = .idle := by
  by_contra hne
  have hlive := h.live q hne
  rw [hunused] at hlive
  cases hlive

theorem idle_of_zombie (h : Inv initproc state) (hzombie : (state.proc q).state = .zombie) :
    state.pc q = .idle := by
  by_contra hne
  have hlive := h.live q hne
  rw [hzombie] at hlive
  cases hlive

theorem setProc (h : Inv initproc state) {proc : Proc (Fin n) (Chan n Other)}
    (hkind : kindOf proc.state = kindOf (state.proc q).state)
    (hparent : proc.parent = (state.proc q).parent)
    (hchan : proc.chan = (state.proc q).chan ∨ proc.chan = none)
    (hasleep : proc.state = .sleeping →
      (state.proc q).state = .sleeping ∧ proc.chan = (state.proc q).chan) :
    Inv initproc (state.setProc q proc) := by
  have hfamily : (state.setProc q proc).family = state.family := by
    rw [State.family_setProc, hkind, hparent]
    exact Family.ext (Function.update_eq_self _ _) (Function.update_eq_self _ _) rfl
  have hzombie : proc.state = .zombie ↔ (state.proc q).state = .zombie := by
    rw [← kindOf_eq_zombie, hkind, kindOf_eq_zombie]
  obtain ⟨hfam, hlock, hlive, hregistered, hasleep', hscanning, hwaiting, hexpects, hwakes⟩ := h
  constructor
  · rwa [hfamily]
  · exact hlock
  all_goals
    simp only [State.setProc, State.Expects, State.WakesInit, Function.update_apply] at *
    grind

theorem kfork (h : Inv initproc state) (hwho : kindOf (state.proc who).state = .live)
    (hpc : state.pc who = .idle) (hnp : (state.proc np).state = .unused) (pid nextpid : Nat) :
    Inv initproc { (state.setProc np { state.proc np with pid := pid, state := .used }).setPc
      who (.forking np) with nextpid := nextpid } := by
  have hfamily : ((state.setProc np { state.proc np with pid := pid, state := .used }).setPc
      who (.forking np)).family = state.family.fork who np := by
    rw [State.family_setPc, State.family_setProc]
    exact Family.ext rfl (Function.update_eq_self _ _) rfl
  have hnpKind : state.family.kind np = .unused := congrArg kindOf hnp
  have hfam := h.family.fork hwho hnpKind
  obtain ⟨-, hlock, hlive, hregistered, hasleep, hscanning, hwaiting, hexpects, hwakes⟩ := h
  constructor
  · exact hfamily ▸ hfam
  all_goals
    simp only [State.setProc, State.setPc, State.Expects, State.WakesInit, Function.update_apply] at *
    grind [Pc.holds, Pc.Sleeps, kindOf]

theorem wakeup (h : Inv initproc state) (q : Fin n) (chan : Chan n Other) :
    Inv initproc (state.setProc q ((state.proc q).wakeup chan)) := by
  apply h.setProc (kindOf_wakeup _ _) (Proc.parent_wakeup _ _)
  · unfold Proc.wakeup
    split
    · exact .inr rfl
    · exact .inl rfl
  · intro hsleeping
    by_cases hchan : (state.proc q).chan = some chan
    · exact absurd hsleeping (Proc.wakeup_ne_sleeping hchan)
    · rw [Proc.wakeup_of_ne hchan] at hsleeping ⊢
      exact ⟨hsleeping, rfl⟩

theorem of_eq (h : Inv initproc state) (hproc : next.proc = state.proc) (hpc : next.pc = state.pc)
    (hlock : next.waitLock = state.waitLock) : Inv initproc next := by
  obtain ⟨proc, pc, waitLock, nextpid, exits, reaped⟩ := state
  obtain ⟨proc', pc', waitLock', nextpid', exits', reaped'⟩ := next
  obtain rfl : proc' = proc := hproc
  obtain rfl : pc' = pc := hpc
  obtain rfl : waitLock' = waitLock := hlock
  exact ⟨h.family, h.lock, h.live, h.registered, h.asleep, h.scanning, h.waiting, h.expects,
    h.wakes⟩

theorem quiet (h : Inv initproc state) {proc : Proc (Fin n) (Chan n Other)} {pc : Pc n}
    (hwho : kindOf (state.proc who).state = .live) (hold : (state.pc who).Quiet) (hnew : pc.Quiet)
    (hproc : kindOf proc.state = .live) (hparent : proc.parent = (state.proc who).parent)
    (hregistered : pc.Sleeps → (state.pc who).Sleeps ∧ proc.chan = (state.proc who).chan)
    (hasleep : pc = .waitAsleep → proc.chan = some (.inl who)) :
    Inv initproc ((state.setProc who proc).setPc who pc) := by
  have hfamily : ((state.setProc who proc).setPc who pc).family = state.family := by
    rw [State.family_setPc, State.family_setProc, hproc, ← hwho, hparent, hnew.role,
      ← hold.role]
    exact Family.ext (Function.update_eq_self _ _) (Function.update_eq_self _ _)
      (Function.update_eq_self _ _)
  have hfree := hold.holds
  have hstays := hnew.holds
  obtain ⟨hfam, hlock, hlive, hregistered', hasleep', hscanning, hwaiting, hexpects, hwakes⟩ := h
  constructor
  · exact hfamily ▸ hfam
  all_goals
    simp only [State.setProc, State.setPc, State.Expects, State.WakesInit, Function.update_apply] at *
    grind [Pc.holds, Pc.Sleeps, Pc.Quiet, kindOf]

theorem quietPc (h : Inv initproc state) {pc : Pc n}
    (hwho : kindOf (state.proc who).state = .live) (hold : (state.pc who).Quiet) (hnew : pc.Quiet)
    (hsleeps : ¬pc.Sleeps) : Inv initproc (state.setPc who pc) := by
  have hquiet : Inv initproc ((state.setProc who (state.proc who)).setPc who pc) :=
    h.quiet hwho hold hnew hwho rfl (fun hsleep => absurd hsleep hsleeps) fun hasleep => by
      rw [hasleep] at hsleeps
      exact absurd trivial hsleeps
  rwa [state.setProc_self who] at hquiet

/-! ### The sections under `wait_lock` -/

theorem forking (h : Inv initproc state) (hlock : state.waitLock = none)
    (hpc : state.pc who = .forking np) :
    Inv initproc ((state.setProc np { state.proc np with parent := some who }).setPc who
      (.parented np)) := by
  have hfamily : ((state.setProc np { state.proc np with parent := some who }).setPc who
      (.parented np)).family = state.family.adopt who np := by
    rw [State.family_setPc, State.family_setProc]
    exact Family.ext (Function.update_eq_self _ _) rfl rfl
  have hrole : state.family.role who = .forking np := congrArg roleOf hpc
  have hnp : kindOf (state.proc np).state = .used := (h.family.forking who np hrole).1
  have hfam := h.family.adopt hrole
  obtain ⟨-, hlock, hlive, hregistered, hasleep, hscanning, hwaiting, hexpects, hwakes⟩ := h
  constructor
  · exact hfamily ▸ hfam
  all_goals
    simp only [State.setProc, State.setPc, State.Expects, State.WakesInit, Function.update_apply] at *
    grind [Pc.holds, Pc.Sleeps, kindOf]

theorem parented (h : Inv initproc state) (hpc : state.pc who = .parented np) :
    Inv initproc ((state.setProc np { state.proc np with state := .runnable }).setPc who .idle) := by
  have hfamily : ((state.setProc np { state.proc np with state := .runnable }).setPc who
      .idle).family = state.family.begin who np := by
    rw [State.family_setPc, State.family_setProc]
    exact Family.ext rfl (Function.update_eq_self _ _) rfl
  have hrole : state.family.role who = .parented np := congrArg roleOf hpc
  have hnp : kindOf (state.proc np).state = .used := (h.family.parented who np hrole).1
  have hfam := h.family.begin hrole
  obtain ⟨-, hlock, hlive, hregistered, hasleep, hscanning, hwaiting, hexpects, hwakes⟩ := h
  constructor
  · exact hfamily ▸ hfam
  all_goals
    simp only [State.setProc, State.setPc, State.Expects, State.WakesInit, Function.update_apply] at *
    grind [Pc.holds, Pc.Sleeps, kindOf]

theorem kexit (h : Inv initproc state) (hwho : kindOf (state.proc who).state = .live)
    (hne : who ≠ initproc) (hlock : state.waitLock = none) (status : Int) :
    Inv initproc (state.leave who status) := by
  have hfamily : (state.leave who status).family = state.family.leave who :=
    State.family_setPc state who _
  have hfam := h.family.leave hwho hne
  obtain ⟨-, hlock, hlive, hregistered, hasleep, hscanning, hwaiting, hexpects, hwakes⟩ := h
  constructor
  · exact hfamily ▸ hfam
  all_goals
    simp only [State.leave, State.setPc, State.Expects, State.WakesInit, Function.update_apply] at *
    grind [Pc.holds, Pc.Sleeps, kindOf]

theorem kwait (h : Inv initproc state) (hwho : kindOf (state.proc who).state = .live)
    (hpc : state.pc who = .idle ∨ state.pc who = .waitReturned) (hfree : state.waitLock = none) :
    Inv initproc { state.setPc who (.scanning (List.finRange n) false) with
      waitLock := some who } := by
  have hfamily : (state.setPc who (.scanning (List.finRange n) false)).family = state.family := by
    rw [State.family_setPc]
    refine Family.ext rfl rfl (Function.update_eq_self_iff.mpr ?_)
    rcases hpc with hpc | hpc <;> exact (congrArg roleOf hpc).symm
  have hall : ∀ c : Fin n, c ∈ List.finRange n := List.mem_finRange
  obtain ⟨hfam, hlock, hlive, hregistered, hasleep, hscanning, hwaiting, hexpects, hwakes⟩ := h
  constructor
  · exact hfamily ▸ hfam
  all_goals
    simp only [State.setPc, State.Expects, State.WakesInit, Function.update_apply] at *
    grind [Pc.holds, Pc.Sleeps, kindOf]

theorem reparentChild (h : Inv initproc state) {status : Int} {rest : List (Fin n)}
    (hpc : state.pc who = .reparent status (q :: rest))
    (hparent : (state.proc q).parent = some who) :
    Inv initproc ((state.setProc q { state.proc q with parent := some initproc }).setPc who
      (.wakeInit status rest (List.finRange n))) := by
  have hfamily : ((state.setProc q { state.proc q with parent := some initproc }).setPc who
      (.wakeInit status rest (List.finRange n))).family =
        state.family.orphan initproc who q rest := by
    rw [State.family_setPc, State.family_setProc]
    exact Family.ext (Function.update_eq_self _ _) rfl rfl
  have hfam := h.family.orphan (congrArg roleOf hpc) hparent
  have hall : ∀ c : Fin n, c ∈ List.finRange n := List.mem_finRange
  have hholds : (state.pc who).holds = true := by rw [hpc]; rfl
  have hunique := fun p => h.holder_unique (p := p) hholds
  obtain ⟨-, hlock, hlive, hregistered, hasleep, hscanning, hwaiting, hexpects, hwakes⟩ := h
  constructor
  · exact hfamily ▸ hfam
  all_goals
    simp only [State.setProc, State.setPc, State.Expects, State.WakesInit, Function.update_apply]
      at *
    grind [Pc.holds, Pc.Sleeps, kindOf]

theorem reparentPass (h : Inv initproc state) {status : Int} {rest : List (Fin n)}
    (hpc : state.pc who = .reparent status (q :: rest))
    (hparent : (state.proc q).parent ≠ some who) :
    Inv initproc (state.setPc who (.reparent status rest)) := by
  have hfamily : (state.setPc who (.reparent status rest)).family =
      state.family.setRole who (.leaving rest) := State.family_setPc _ _ _
  have hfam := h.family.pass (congrArg roleOf hpc) hparent
  have hholds : (state.pc who).holds = true := by rw [hpc]; rfl
  have hunique := fun p => h.holder_unique (p := p) hholds
  obtain ⟨-, hlock, hlive, hregistered, hasleep, hscanning, hwaiting, hexpects, hwakes⟩ := h
  constructor
  · exact hfamily ▸ hfam
  all_goals
    simp only [State.setPc, State.Expects, State.WakesInit, Function.update_apply]
      at *
    grind [Pc.holds, Pc.Sleeps, kindOf]

theorem reparentDone (h : Inv initproc state) {status : Int}
    (hpc : state.pc who = .reparent status []) :
    Inv initproc (state.setPc who (.wakeParent status (state.proc who).parent
      (List.finRange n))) := by
  have hfamily : (state.setPc who (.wakeParent status (state.proc who).parent
      (List.finRange n))).family = state.family :=
    State.family_setPc_of_role (congrArg roleOf hpc).symm
  have hall : ∀ c : Fin n, c ∈ List.finRange n := List.mem_finRange
  have hholds : (state.pc who).holds = true := by rw [hpc]; rfl
  have hunique := fun p => h.holder_unique (p := p) hholds
  obtain ⟨hfam, hlock, hlive, hregistered, hasleep, hscanning, hwaiting, hexpects, hwakes⟩ := h
  constructor
  · exact hfamily ▸ hfam
  all_goals
    simp only [State.setPc, State.Expects, State.WakesInit, Function.update_apply]
      at *
    grind [Pc.holds, Pc.Sleeps, kindOf]

theorem wakeInitDone (h : Inv initproc state) {status : Int} {rest : List (Fin n)}
    (hpc : state.pc who = .wakeInit status rest []) :
    Inv initproc (state.setPc who (.reparent status rest)) := by
  have hfamily : (state.setPc who (.reparent status rest)).family = state.family :=
    State.family_setPc_of_role (congrArg roleOf hpc).symm
  have hholds : (state.pc who).holds = true := by rw [hpc]; rfl
  have hunique := fun p => h.holder_unique (p := p) hholds
  obtain ⟨hfam, hlock, hlive, hregistered, hasleep, hscanning, hwaiting, hexpects, hwakes⟩ := h
  constructor
  · exact hfamily ▸ hfam
  all_goals
    simp only [State.setPc, State.Expects, State.WakesInit, Function.update_apply]
      at *
    grind [Pc.holds, Pc.Sleeps, kindOf]

theorem wakeInitSlot (h : Inv initproc state) {status : Int} {rest slots : List (Fin n)}
    (hpc : state.pc who = .wakeInit status rest (q :: slots))
    (hwoken : q = initproc → (state.proc q).chan ≠ some (.inl initproc)) :
    Inv initproc (state.setPc who (.wakeInit status rest slots)) := by
  have hfamily : (state.setPc who (.wakeInit status rest slots)).family = state.family :=
    State.family_setPc_of_role (congrArg roleOf hpc).symm
  have hholds : (state.pc who).holds = true := by rw [hpc]; rfl
  have hunique := fun p => h.holder_unique (p := p) hholds
  obtain ⟨hfam, hlock, hlive, hregistered, hasleep, hscanning, hwaiting, hexpects, hwakes⟩ := h
  constructor
  · exact hfamily ▸ hfam
  all_goals
    simp only [State.setPc, State.Expects, State.WakesInit, Function.update_apply] at *
    grind [Pc.holds, Pc.Sleeps, kindOf]

theorem wakeParentSlot (h : Inv initproc state) {status : Int} {parent : Option (Fin n)}
    {slots : List (Fin n)} (hpc : state.pc who = .wakeParent status parent (q :: slots))
    (hwoken : parent = some q → (state.proc q).chan ≠ some (.inl q)) :
    Inv initproc (state.setPc who (.wakeParent status parent slots)) := by
  have hfamily : (state.setPc who (.wakeParent status parent slots)).family = state.family :=
    State.family_setPc_of_role (congrArg roleOf hpc).symm
  have hholds : (state.pc who).holds = true := by rw [hpc]; rfl
  have hunique := fun p => h.holder_unique (p := p) hholds
  obtain ⟨hfam, hlock, hlive, hregistered, hasleep, hscanning, hwaiting, hexpects, hwakes⟩ := h
  constructor
  · exact hfamily ▸ hfam
  all_goals
    simp only [State.setPc, State.Expects, State.WakesInit, Function.update_apply] at *
    grind [Pc.holds, Pc.Sleeps, kindOf]

theorem exit (h : Inv initproc state) {status : Int} {parent : Option (Fin n)}
    (hpc : state.pc who = .wakeParent status parent []) :
    Inv initproc (state.exit who status) := by
  have hfamily : (state.exit who status).family = state.family.exit who := by
    change (((state.setProc who _).setPc who .idle)).family = _
    rw [State.family_setPc, State.family_setProc]
    exact Family.ext rfl (Function.update_eq_self _ _) rfl
  have hfam := h.family.exit (congrArg roleOf hpc)
  have hholds : (state.pc who).holds = true := by rw [hpc]; rfl
  have hunique := fun p => h.holder_unique (p := p) hholds
  obtain ⟨-, hlock, hlive, hregistered, hasleep, hscanning, hwaiting, hexpects, hwakes⟩ := h
  constructor
  · exact hfamily ▸ hfam
  all_goals
    simp only [State.setProc, State.setPc, State.Expects, State.WakesInit, State.exit, State.unlockWait, Function.update_apply]
      at *
    grind [Pc.holds, Pc.Sleeps, kindOf]

theorem reap (h : Inv initproc state) {rest : List (Fin n)} {havekids : Bool}
    (hpc : state.pc who = .scanning rest havekids) (hzombie : (state.proc q).state = .zombie) :
    Inv initproc (state.reap who q) := by
  have hfamily : (state.reap who q).family = state.family.reap q := by
    change (((state.setProc q _).setPc who .idle)).family = _
    rw [State.family_setPc, State.family_setProc]
    exact Family.ext rfl rfl (Function.update_eq_self_iff.mpr (congrArg roleOf hpc).symm)
  have hfam := h.family.reap (congrArg kindOf hzombie)
  have hholds : (state.pc who).holds = true := by rw [hpc]; rfl
  have hunique := fun p => h.holder_unique (p := p) hholds
  obtain ⟨-, hlock, hlive, hregistered, hasleep, hscanning, hwaiting, hexpects, hwakes⟩ := h
  constructor
  · exact hfamily ▸ hfam
  all_goals
    simp only [State.setProc, State.setPc, State.Expects, State.WakesInit, State.reap, State.unlockWait, Proc.free, Function.update_apply]
      at *
    grind [Pc.holds, Pc.Sleeps, kindOf]

theorem waitFails (h : Inv initproc state) {rest : List (Fin n)} {havekids : Bool}
    (hpc : state.pc who = .scanning rest havekids) :
    Inv initproc (state.unlockWait who .idle) := by
  have hfamily : (state.unlockWait who .idle).family = state.family := by
    change (state.setPc who .idle).family = _
    exact State.family_setPc_of_role (congrArg roleOf hpc).symm
  have hholds : (state.pc who).holds = true := by rw [hpc]; rfl
  have hunique := fun p => h.holder_unique (p := p) hholds
  obtain ⟨hfam, hlock, hlive, hregistered, hasleep, hscanning, hwaiting, hexpects, hwakes⟩ := h
  constructor
  · exact hfamily ▸ hfam
  all_goals
    simp only [State.setPc, State.Expects, State.WakesInit, State.unlockWait, Function.update_apply] at *
    grind [Pc.holds, Pc.Sleeps, kindOf]

theorem scanNext (h : Inv initproc state) {rest : List (Fin n)} {havekids : Bool}
    (hpc : state.pc who = .scanning (q :: rest) havekids)
    (hnot : (state.proc q).parent = some who → (state.proc q).state ≠ .zombie) (kids : Bool) :
    Inv initproc (state.setPc who (.scanning rest kids)) := by
  have hfamily : (state.setPc who (.scanning rest kids)).family = state.family :=
    State.family_setPc_of_role (congrArg roleOf hpc).symm
  have hholds : (state.pc who).holds = true := by rw [hpc]; rfl
  have hunique := fun p => h.holder_unique (p := p) hholds
  obtain ⟨hfam, hlock, hlive, hregistered, hasleep, hscanning, hwaiting, hexpects, hwakes⟩ := h
  constructor
  · exact hfamily ▸ hfam
  all_goals
    simp only [State.setPc, State.Expects, State.WakesInit, Function.update_apply] at *
    grind [Pc.holds, Pc.Sleeps, kindOf]

theorem scanDone (h : Inv initproc state) {havekids : Bool}
    (hpc : state.pc who = .scanning [] havekids) :
    Inv initproc (state.setPc who .waiting) := by
  have hfamily : (state.setPc who .waiting).family = state.family :=
    State.family_setPc_of_role (congrArg roleOf hpc).symm
  have hholds : (state.pc who).holds = true := by rw [hpc]; rfl
  have hunique := fun p => h.holder_unique (p := p) hholds
  obtain ⟨hfam, hlock, hlive, hregistered, hasleep, hscanning, hwaiting, hexpects, hwakes⟩ := h
  constructor
  · exact hfamily ▸ hfam
  all_goals
    simp only [State.setPc, State.Expects, State.WakesInit, Function.update_apply] at *
    grind [Pc.holds, Pc.Sleeps, kindOf]

theorem waiting_sleepPrepare (h : Inv initproc state) (hpc : state.pc who = .waiting) :
    Inv initproc ((state.setProc who ((state.proc who).sleepPrepare (.inl who))).setPc who
      .waitPrepared) := by
  have hfamily : ((state.setProc who ((state.proc who).sleepPrepare (.inl who))).setPc who
      .waitPrepared).family = state.family := by
    rw [State.family_setPc, State.family_setProc]
    exact Family.ext (Function.update_eq_self _ _) (Function.update_eq_self _ _)
      (Function.update_eq_self_iff.mpr (congrArg roleOf hpc).symm)
  have hholds : (state.pc who).holds = true := by rw [hpc]; rfl
  have hunique := fun p => h.holder_unique (p := p) hholds
  obtain ⟨hfam, hlock, hlive, hregistered, hasleep, hscanning, hwaiting, hexpects, hwakes⟩ := h
  constructor
  · exact hfamily ▸ hfam
  all_goals
    simp only [State.setProc, State.setPc, State.Expects, State.WakesInit, Proc.sleepPrepare, Function.update_apply]
      at *
    grind [Pc.holds, Pc.Sleeps, kindOf]

theorem waitPrepared (h : Inv initproc state) (hpc : state.pc who = .waitPrepared) :
    Inv initproc (state.unlockWait who .waitReleased) := by
  have hfamily : (state.unlockWait who .waitReleased).family = state.family := by
    change (state.setPc who .waitReleased).family = _
    exact State.family_setPc_of_role (congrArg roleOf hpc).symm
  have hholds : (state.pc who).holds = true := by rw [hpc]; rfl
  have hunique := fun p => h.holder_unique (p := p) hholds
  obtain ⟨hfam, hlock, hlive, hregistered, hasleep, hscanning, hwaiting, hexpects, hwakes⟩ := h
  constructor
  · exact hfamily ▸ hfam
  all_goals
    simp only [State.setPc, State.Expects, State.WakesInit, State.unlockWait, Function.update_apply] at *
    grind [Pc.holds, Pc.Sleeps, kindOf]

/-! ### Every step -/

theorem advance (h : Inv initproc state) (hwho : (state.proc who).state = .running)
    {copied : Bool} (hstep : state.advance initproc who copied = some next) :
    Inv initproc next := by
  have hlive : kindOf (state.proc who).state = .live := by rw [hwho]; rfl
  have hsleep : kindOf (state.proc who).sleep.state = .live := by
    unfold Proc.sleep
    split
    · rfl
    · exact hlive
  have hsleepParent : (state.proc who).sleep.parent = (state.proc who).parent := by
    unfold Proc.sleep
    split <;> rfl
  cases hpc : state.pc who with
  | idle => simp [State.advance, hpc] at hstep
  | forking np =>
      simp only [State.advance, hpc, Option.ite_none_right_eq_some, Option.some.injEq] at hstep
      obtain ⟨hlock, rfl⟩ := hstep
      exact h.forking hlock hpc
  | parented np =>
      simp only [State.advance, hpc, Option.some.injEq] at hstep
      subst hstep
      exact h.parented hpc
  | prepared =>
      simp only [State.advance, hpc, Option.some.injEq] at hstep
      subst hstep
      apply h.quiet hlive (by rw [hpc]; trivial) (by split <;> trivial) hsleep hsleepParent
      · intro hsleeps
        split at hsleeps <;> exact hsleeps.elim
      · intro hasleep
        split at hasleep <;> cases hasleep
  | napping =>
      simp only [State.advance, hpc, Option.some.injEq] at hstep
      subst hstep
      exact h.quietPc hlive (by rw [hpc]; trivial) trivial id
  | reparent status rest =>
      cases rest with
      | nil =>
          simp only [State.advance, hpc, Option.some.injEq] at hstep
          subst hstep
          exact h.reparentDone hpc
      | cons q rest =>
          simp only [State.advance, hpc] at hstep
          split at hstep
          next hparent =>
            cases hstep
            exact h.reparentChild hpc hparent
          next hparent =>
            cases hstep
            exact h.reparentPass hpc hparent
  | wakeInit status rest slots =>
      cases slots with
      | nil =>
          simp only [State.advance, hpc, Option.some.injEq] at hstep
          subst hstep
          exact h.wakeInitDone hpc
      | cons q slots =>
          simp only [State.advance, hpc, Option.some.injEq] at hstep
          subst hstep
          exact (h.wakeup q (.inl initproc)).wakeInitSlot hpc fun _ => by
            simpa [State.setProc] using Proc.chan_wakeup_ne
  | wakeParent status parent slots =>
      cases slots with
      | nil =>
          simp only [State.advance, hpc, Option.some.injEq] at hstep
          subst hstep
          exact h.exit hpc
      | cons q slots =>
          simp only [State.advance, hpc, Option.some.injEq] at hstep
          subst hstep
          cases parent with
          | none =>
              have hsame : state.setProc q (state.proc q) = state := state.setProc_self q
              rw [Option.elim_none, hsame]
              exact h.wakeParentSlot hpc fun hnone => by cases hnone
          | some parent =>
              apply (h.wakeup q (.inl parent)).wakeParentSlot hpc
              rintro ⟨rfl⟩
              simpa [State.setProc] using Proc.chan_wakeup_ne
  | scanning rest havekids =>
      cases rest with
      | nil =>
          simp only [State.advance, hpc] at hstep
          split at hstep
          · cases hstep
            exact h.waitFails hpc
          · cases hstep
            exact h.scanDone hpc
      | cons q rest =>
          simp only [State.advance, hpc] at hstep
          split at hstep
          next hparent =>
            split at hstep
            next hzombie =>
              split at hstep
              · cases hstep
                exact h.reap hpc hzombie
              · cases hstep
                exact h.waitFails hpc
            next hzombie =>
              cases hstep
              exact h.scanNext hpc (fun _ => hzombie) true
          next hparent =>
            cases hstep
            exact h.scanNext hpc (fun hchild => absurd hchild hparent) havekids
  | waiting =>
      simp only [State.advance, hpc, Option.some.injEq] at hstep
      subst hstep
      exact h.waiting_sleepPrepare hpc
  | waitPrepared =>
      simp only [State.advance, hpc, Option.some.injEq] at hstep
      subst hstep
      exact h.waitPrepared hpc
  | waitReleased =>
      simp only [State.advance, hpc, Option.some.injEq] at hstep
      subst hstep
      have hchan : (state.proc who).sleep.chan = (state.proc who).chan := by
        unfold Proc.sleep
        split <;> rfl
      have hsleeps : (state.pc who).Sleeps := by rw [hpc]; trivial
      apply h.quiet hlive (by rw [hpc]; trivial) (by split <;> trivial) hsleep hsleepParent
      · intro _
        exact ⟨hsleeps, hchan⟩
      · intro hasleep
        split at hasleep
        next hsome =>
          rw [hchan]
          rcases h.registered who hsleeps with hself | hnone
          · exact hself
          · rw [hnone] at hsome
            cases hsome
        next => cases hasleep
  | waitAsleep =>
      simp only [State.advance, hpc, Option.some.injEq] at hstep
      subst hstep
      exact h.quietPc hlive (by rw [hpc]; trivial) trivial id
  | waitReturned =>
      simp only [State.advance, hpc, State.lockWait, Option.ite_none_right_eq_some,
        Option.some.injEq] at hstep
      obtain ⟨hlock, rfl⟩ := hstep
      exact h.kwait hlive (.inr hpc) hlock

theorem step (h : Inv initproc state) {action : Action n Other}
    (hstep : Tree.step initproc state action = some next) : Inv initproc next := by
  cases action with
  | kfork who np =>
      simp only [Tree.step, Option.ite_none_right_eq_some, Option.some.injEq] at hstep
      obtain ⟨⟨hwho, hpc, hnp⟩, rfl⟩ := hstep
      exact h.kfork (by rw [hwho]; rfl) hpc hnp _ _
  | kforkFails who np =>
      simp only [Tree.step, Option.ite_none_right_eq_some, Option.some.injEq] at hstep
      obtain ⟨⟨hwho, hpc, hnp⟩, rfl⟩ := hstep
      have hfree : Inv initproc (state.setProc np (state.proc np).free) := by
        refine h.setProc ?_ rfl (.inr rfl) fun hsleeping => by cases hsleeping
        rw [hnp]
        rfl
      exact hfree.of_eq rfl rfl rfl
  | sleepPrepare who chan =>
      simp only [Tree.step, Option.ite_none_right_eq_some, Option.some.injEq] at hstep
      obtain ⟨⟨hwho, hpc⟩, rfl⟩ := hstep
      have hlive : kindOf (state.proc who).state = .live := by rw [hwho]; rfl
      exact h.quiet hlive (by rw [hpc]; trivial) trivial hlive rfl (fun hsleeps => hsleeps.elim)
        fun hasleep => by cases hasleep
  | giveUp who =>
      simp only [Tree.step, Option.ite_none_right_eq_some, Option.some.injEq] at hstep
      obtain ⟨⟨hwho, hpc⟩, rfl⟩ := hstep
      exact h.quietPc (by rw [hwho]; rfl) (by rw [hpc]; trivial) trivial id
  | kexit who status =>
      simp only [Tree.step, Option.ite_none_right_eq_some, Option.some.injEq] at hstep
      obtain ⟨⟨hwho, hpc, hne, hlock⟩, rfl⟩ := hstep
      exact h.kexit (by rw [hwho]; rfl) hne hlock status
  | kwait who =>
      simp only [Tree.step, State.lockWait, Option.ite_none_right_eq_some,
        Option.some.injEq] at hstep
      obtain ⟨⟨hwho, hpc⟩, hlock, rfl⟩ := hstep
      exact h.kwait (by rw [hwho]; rfl) (.inl hpc) hlock
  | advance who copied =>
      simp only [Tree.step, Option.ite_none_right_eq_some] at hstep
      exact h.advance hstep.1 hstep.2
  | wakeupOther q chan =>
      cases hstep
      exact h.wakeup q _
  | kkill q =>
      cases hstep
      apply h.setProc (kindOf_kill _) rfl (.inl rfl)
      intro hsleeping
      exact absurd hsleeping (Proc.kill_ne_sleeping _)
  | dispatch q =>
      simp only [Tree.step, Option.ite_none_right_eq_some, Option.some.injEq] at hstep
      obtain ⟨hstate, rfl⟩ := hstep
      refine h.setProc ?_ rfl (.inl rfl) fun hsleeping => by cases hsleeping
      rw [hstate]
      rfl
  | yield q =>
      simp only [Tree.step, Option.ite_none_right_eq_some, Option.some.injEq] at hstep
      obtain ⟨hstate, rfl⟩ := hstep
      refine h.setProc ?_ rfl (.inl rfl) fun hsleeping => by cases hsleeping
      rw [hstate]
      rfl

theorem start (initproc : Fin n) : Inv initproc (start initproc : State n Other) := by
  constructor
  · constructor
    all_goals
      simp only [Tree.start, State.family, Family.Fills, roleOf]
      grind [kindOf, Proc.empty]
  all_goals
    simp only [Tree.start, State.Expects, State.WakesInit]
    grind [Pc.holds, Pc.Sleeps]

end Inv

end Xv6.Tree
