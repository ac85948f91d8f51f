import Xv6.Proc.Sleep

/-!
# The atomic sleep

The specification: a sleep that releases the lock and starts waiting in one step, woken by the next
visit of a `wakeup` on its channel, or for no reason. A process between the release and `sleep` waits
already, in the sense of the specification, as long as its channel is still registered; the channel a
process has kept from an earlier sleep says nothing.
-/

set_option linter.unusedSectionVars false

namespace Xv6.Sleep

variable {n : Nat} {κ Chan Lock : Type}

/-- What a process does, as far as the specification goes. -/
inductive Status (Chan Lock : Type) where
  | active
  | waiting (chan : Chan) (lk : Lock)
  | woken (lk : Lock)
  deriving DecidableEq

namespace Spec

structure State (n : Nat) (κ Chan Lock : Type) where
  status : Fin n → Status Chan Lock
  /-- The `wakeup` in progress of each agent: its channel and the processes it has yet to visit. -/
  scan : Fin n ⊕ κ → Option (Chan × List (Fin n))
  holder : Lock → Option (Fin n ⊕ κ)

/-- Nobody sleeps, nobody wakes, every lock is free. -/
def start : State n κ Chan Lock where
  status := fun _ => .active
  scan := fun _ => none
  holder := fun _ => none

inductive Action (n : Nat) (κ Chan Lock : Type) where
  | acquire (who : Fin n ⊕ κ) (lk : Lock)
  | release (who : Fin n ⊕ κ) (lk : Lock)
  /-- Release the lock and start waiting, at once. -/
  | sleep (who : Fin n) (chan : Chan) (lk : Lock)
  /-- A spurious return. -/
  | spurious (who : Fin n)
  | reacquire (who : Fin n) (lk : Lock)
  | wakeup (who : Fin n ⊕ κ) (chan : Chan)
  | visit (who : Fin n ⊕ κ)
  | wakeupReturn (who : Fin n ⊕ κ)

section Steps

variable [DecidableEq κ] [DecidableEq Chan] [DecidableEq Lock]

/-- What a visit does to the process visited. -/
def wake (status : Status Chan Lock) (chan : Chan) : Status Chan Lock :=
  match status with
  | .waiting chan' lk => if chan' = chan then .woken lk else status
  | status => status

def State.Active (state : State n κ Chan Lock) : Fin n ⊕ κ → Prop
  | .inl p => state.status p = .active
  | .inr _ => True

instance (state : State n κ Chan Lock) : DecidablePred state.Active
  | .inl _ => inferInstanceAs (Decidable (_ = _))
  | .inr _ => isTrue trivial

def step (state : State n κ Chan Lock) : Action n κ Chan Lock → Option (State n κ Chan Lock)
  | .acquire who lk =>
      if state.Active who ∧ state.holder lk = none then
        some { state with holder := Function.update state.holder lk (some who) }
      else none
  | .release who lk =>
      if state.Active who ∧ state.holder lk = some who then
        some { state with holder := Function.update state.holder lk none }
      else none
  | .sleep who chan lk =>
      if state.status who = .active ∧ state.holder lk = some (.inl who) then
        some { state with
          status := Function.update state.status who (.waiting chan lk)
          holder := Function.update state.holder lk none }
      else none
  | .spurious who =>
      match state.status who with
      | .waiting _ lk => some { state with status := Function.update state.status who (.woken lk) }
      | _ => none
  | .reacquire who lk =>
      if state.status who = .woken lk ∧ state.holder lk = none then
        some { state with
          status := Function.update state.status who .active
          holder := Function.update state.holder lk (some (.inl who)) }
      else none
  | .wakeup who chan =>
      if state.Active who ∧ state.scan who = none then
        some { state with scan := Function.update state.scan who (some (chan, List.finRange n)) }
      else none
  | .visit who =>
      match state.scan who with
      | some (chan, p :: rest) => some { state with
          status := Function.update state.status p (wake (state.status p) chan)
          scan := Function.update state.scan who (some (chan, rest)) }
      | _ => none
  | .wakeupReturn who =>
      match state.scan who with
      | some (_, []) => some { state with scan := Function.update state.scan who none }
      | _ => none

end Steps

end Spec

/-! ### The abstraction -/

section Abstraction

variable [DecidableEq κ] [DecidableEq Chan] [DecidableEq Lock]

/-- A process waits from the release of its lock until its channel is cleared, or it is killed. -/
def statusOf (pc : Pc Chan Lock) (proc : Proc (Fin n) Chan) : Status Chan Lock :=
  match pc with
  | .idle | .prepared _ _ => .active
  | .released chan lk => if proc.chan.isSome then .waiting chan lk else .woken lk
  | .asleep chan lk => if proc.state = .sleeping then .waiting chan lk else .woken lk
  | .returned lk => .woken lk

def scanOf : Option (Scan n Chan) → Option (Chan × List (Fin n))
  | some (.wakeup chan rest) => some (chan, rest)
  | _ => none

def State.abs (state : State n κ Chan Lock) : Spec.State n κ Chan Lock where
  status p := statusOf (state.pc p) (state.proc p)
  scan who := scanOf (state.scan who)
  holder := state.holder

/-- What the specification sees of an action. -/
def visible : Action n κ Chan Lock → Option (Spec.Action n κ Chan Lock)
  | .acquire who lk => some (.acquire who lk)
  | .release who lk => some (.release who lk)
  | .sleepRelease who chan lk => some (.sleep who chan lk)
  | .reacquire who lk => some (.reacquire who lk)
  | .wakeup who chan => some (.wakeup who chan)
  | .visit who => some (.visit who)
  | .wakeupReturn who => some (.wakeupReturn who)
  | _ => none

/-- All actions of the specification but spurious returns. -/
def Spec.visible : Spec.Action n κ Chan Lock → Option (Spec.Action n κ Chan Lock)
  | .spurious _ => none
  | action => some action

structure SlotOk (pc : Pc Chan Lock) (proc : Proc (Fin n) Chan) : Prop where
  live : pc ≠ .idle → proc.Live
  registered : ∀ chan lk, pc = .prepared chan lk ∨ pc = .released chan lk ∨ pc = .asleep chan lk →
    proc.chan = some chan ∨ proc.chan = none
  sleeping : proc.state = .sleeping → ∃ chan lk, pc = .asleep chan lk ∧ proc.chan = some chan

structure Inv (state : State n κ Chan Lock) : Prop where
  slot : ∀ p, SlotOk (state.pc p) (state.proc p)
  held : ∀ p chan lk, state.pc p = .prepared chan lk → state.holder lk = some (.inl p)
  idle : ∀ p, state.scan (.inl p) ≠ none → state.pc p = .idle

theorem abs_setProc (state : State n κ Chan Lock) (p : Fin n) (pc : Pc Chan Lock)
    (proc : Proc (Fin n) Chan) : (state.setProc p pc proc).abs =
      { state.abs with status := Function.update state.abs.status p (statusOf pc proc) } := by
  have hstatus : (state.setProc p pc proc).abs.status =
      Function.update state.abs.status p (statusOf pc proc) := by
    funext q
    by_cases hq : q = p
    · subst hq
      simp [State.abs, State.setProc]
    · simp [State.abs, State.setProc, hq]
  rw [← hstatus]
  rfl

theorem abs_setProc_same {state : State n κ Chan Lock} {p : Fin n} {pc : Pc Chan Lock}
    {proc : Proc (Fin n) Chan} (hsame : statusOf pc proc = statusOf (state.pc p) (state.proc p)) :
    (state.setProc p pc proc).abs = state.abs := by
  rw [abs_setProc, hsame]
  have hself : Function.update state.abs.status p (statusOf (state.pc p) (state.proc p)) =
      state.abs.status := Function.update_eq_self p state.abs.status
  rw [hself]

theorem abs_setScan (state : State n κ Chan Lock) (who : Fin n ⊕ κ) (scan : Option (Scan n Chan)) :
    (state.setScan who scan).abs =
      { state.abs with scan := Function.update state.abs.scan who (scanOf scan) } := by
  have hscan : (state.setScan who scan).abs.scan =
      Function.update state.abs.scan who (scanOf scan) := by
    funext other
    by_cases hother : other = who
    · subst hother
      simp [State.abs, State.setScan]
    · simp [State.abs, State.setScan, hother]
  rw [← hscan]
  rfl

theorem abs_setScan_same {state : State n κ Chan Lock} {who : Fin n ⊕ κ}
    {scan : Option (Scan n Chan)} (hsame : scanOf scan = scanOf (state.scan who)) :
    (state.setScan who scan).abs = state.abs := by
  rw [abs_setScan, hsame]
  have hself : Function.update state.abs.scan who (scanOf (state.scan who)) = state.abs.scan :=
    Function.update_eq_self who state.abs.scan
  rw [hself]

theorem abs_setHolder (state : State n κ Chan Lock) (lk : Lock) (holder : Option (Fin n ⊕ κ)) :
    (state.setHolder lk holder).abs =
      { state.abs with holder := Function.update state.abs.holder lk holder } := rfl

namespace Inv

variable {state next : State n κ Chan Lock} {p : Fin n} {who : Fin n ⊕ κ}

theorem start : Inv (start : State n κ Chan Lock) where
  slot p := by
    refine ⟨fun hidle => absurd rfl hidle, fun chan lk hpc => ?_, fun hsleeping => ?_⟩
    · obtain hpc | hpc | hpc := hpc <;> cases hpc
    · cases hsleeping
  held p chan lk hpc := by cases hpc
  idle p hscan := absurd rfl hscan

theorem setProc (h : Inv state) {pc : Pc Chan Lock} {proc : Proc (Fin n) Chan}
    (hslot : SlotOk pc proc) (hheld : ∀ chan lk, pc = .prepared chan lk →
      state.holder lk = some (.inl p)) (hidle : state.scan (.inl p) ≠ none → pc = .idle) :
    Inv (state.setProc p pc proc) where
  slot q := by
    by_cases hq : q = p
    · subst hq
      simpa [State.setProc] using hslot
    · simpa [State.setProc, hq] using h.slot q
  held q chan lk := by
    by_cases hq : q = p
    · subst hq
      simpa [State.setProc] using hheld chan lk
    · simpa [State.setProc, hq] using h.held q chan lk
  idle q := by
    by_cases hq : q = p
    · subst hq
      simpa [State.setProc] using hidle
    · simpa [State.setProc, hq] using h.idle q

theorem setSlot (h : Inv state) {proc : Proc (Fin n) Chan} (hslot : SlotOk (state.pc p) proc) :
    Inv (state.setProc p (state.pc p) proc) :=
  h.setProc hslot (h.held p) (h.idle p)

theorem setScan (h : Inv state) {scan : Option (Scan n Chan)}
    (hidle : ∀ p, who = .inl p → scan ≠ none → state.pc p = .idle) : Inv (state.setScan who scan) where
  slot := h.slot
  held := h.held
  idle q hscan := by
    by_cases hq : (.inl q : Fin n ⊕ κ) = who
    · subst hq
      exact hidle q rfl (by simpa [State.setScan] using hscan)
    · exact h.idle q (by simpa [State.setScan, hq] using hscan)

theorem setHolder (h : Inv state) {lk : Lock} {holder : Option (Fin n ⊕ κ)}
    (hheld : ∀ p chan, state.pc p ≠ .prepared chan lk) : Inv (state.setHolder lk holder) where
  slot := h.slot
  held q chan lk' hpc := by
    by_cases hlk : lk' = lk
    · subst hlk
      exact absurd hpc (hheld q chan)
    · simpa [State.setHolder, hlk] using h.held q chan lk' hpc
  idle := h.idle

theorem not_prepared (h : Inv state) {lk : Lock}
    (hholder : ∀ p, state.holder lk = some (.inl p) → state.pc p = .idle) (p : Fin n) (chan : Chan) :
    state.pc p ≠ .prepared chan lk := by
  intro hpc
  have hidle := hholder p (h.held p chan lk hpc)
  rw [hpc] at hidle
  cases hidle

end Inv

/-! ### One slot -/

namespace SlotOk

variable {pc : Pc Chan Lock} {proc : Proc (Fin n) Chan} {chan : Chan}

theorem of_idle (hsleeping : proc.state ≠ .sleeping) : SlotOk (.idle : Pc Chan Lock) proc where
  live hidle := absurd rfl hidle
  registered chan lk hpc := by obtain hpc | hpc | hpc := hpc <;> cases hpc
  sleeping hstate := absurd hstate hsleeping

theorem setState (h : SlotOk pc proc) {proc' : Proc (Fin n) Chan} (hlive : proc.Live → proc'.Live)
    (hchan : proc'.chan = proc.chan ∨ proc'.chan = none) (hsleeping : proc'.state ≠ .sleeping) :
    SlotOk pc proc' where
  live hidle := hlive (h.live hidle)
  registered chan lk hpc := by
    obtain hchan | hchan := hchan
    · rw [hchan]
      exact h.registered chan lk hpc
    · exact Or.inr hchan
  sleeping hstate := absurd hstate hsleeping

theorem wakeup (h : SlotOk pc proc) : SlotOk pc (proc.wakeup chan) := by
  by_cases heq : proc.chan = some chan
  · exact h.setState Proc.live_wakeup.mpr (Or.inr (Proc.chan_wakeup_eq_none heq))
      (Proc.wakeup_ne_sleeping heq)
  · rw [Proc.wakeup_of_ne heq]
    exact h

theorem kill (h : SlotOk pc proc) : SlotOk pc proc.kill :=
  h.setState Proc.live_kill.mpr (Or.inl rfl) (Proc.kill_ne_sleeping proc)

theorem ne_sleeping_of_running (hrunning : proc.state = .running) : proc.state ≠ .sleeping := by
  rw [hrunning]
  simp

theorem idle_of_not_live (h : SlotOk pc proc) (hlive : ¬proc.Live) : pc = .idle := by
  by_contra hidle
  exact hlive (h.live hidle)

theorem statusOf_wakeup (h : SlotOk pc proc) :
    statusOf pc (proc.wakeup chan) = Spec.wake (statusOf pc proc) chan := by
  by_cases heq : proc.chan = some chan
  · cases pc with
    | idle => rfl
    | prepared chan' lk => rfl
    | returned lk => rfl
    | released chan' lk =>
        obtain hregistered | hregistered := h.registered chan' lk (Or.inr (Or.inl rfl))
        · have hchan : chan' = chan := Option.some.inj (hregistered.symm.trans heq)
          simp [statusOf, Spec.wake, Proc.chan_wakeup_eq_none heq, heq, hchan]
        · rw [heq] at hregistered
          cases hregistered
    | asleep chan' lk =>
        obtain hregistered | hregistered := h.registered chan' lk (Or.inr (Or.inr rfl))
        · have hchan : chan' = chan := Option.some.inj (hregistered.symm.trans heq)
          by_cases hsleeping : proc.state = .sleeping
          · simp [statusOf, Spec.wake, Proc.wakeup_ne_sleeping heq, hsleeping, hchan]
          · simp [statusOf, Spec.wake, Proc.wakeup_ne_sleeping heq, hsleeping]
        · rw [heq] at hregistered
          cases hregistered
  · rw [Proc.wakeup_of_ne heq]
    cases pc with
    | idle => rfl
    | prepared chan' lk => rfl
    | returned lk => rfl
    | released chan' lk =>
        by_cases hchan : proc.chan.isSome
        · have hregistered := (h.registered chan' lk (Or.inr (Or.inl rfl))).resolve_right fun hnone => by
            simp [hnone] at hchan
          have hne : chan' ≠ chan := fun hchan' => heq (hchan' ▸ hregistered)
          simp [statusOf, Spec.wake, hchan, hne]
        · simp [statusOf, Spec.wake, hchan]
    | asleep chan' lk =>
        by_cases hsleeping : proc.state = .sleeping
        · obtain ⟨chan'', lk', hpc, hregistered⟩ := h.sleeping hsleeping
          cases hpc
          have hne : chan' ≠ chan := fun hchan' => heq (hchan' ▸ hregistered)
          simp [statusOf, Spec.wake, hsleeping, hne]
        · simp [statusOf, Spec.wake, hsleeping]

end SlotOk

theorem statusOf_of_awake {pc : Pc Chan Lock} {proc proc' : Proc (Fin n) Chan}
    (hbefore : proc.state ≠ .sleeping) (hafter : proc'.state ≠ .sleeping)
    (hchan : proc'.chan = proc.chan) : statusOf pc proc' = statusOf pc proc := by
  cases pc with
  | released chan lk => simp [statusOf, hchan]
  | asleep chan lk => simp [statusOf, hbefore, hafter]
  | _ => rfl

theorem statusOf_kill (pc : Pc Chan Lock) (proc : Proc (Fin n) Chan) :
    statusOf pc proc.kill = statusOf pc proc ∨
      ∃ chan lk, statusOf pc proc = .waiting chan lk ∧ statusOf pc proc.kill = .woken lk := by
  cases pc with
  | asleep chan lk =>
      have hkilled := Proc.kill_ne_sleeping proc
      by_cases hsleeping : proc.state = .sleeping
      · exact Or.inr ⟨chan, lk, by simp [statusOf, hsleeping], by simp [statusOf, hkilled]⟩
      · exact Or.inl (by simp [statusOf, hsleeping, hkilled])
  | _ => exact Or.inl rfl

/-! ### The steps -/

section Steps

variable {state next : State n κ Chan Lock} {action : Action n κ Chan Lock}

theorem pc_setProc_self (state : State n κ Chan Lock) (p : Fin n) (proc : Proc (Fin n) Chan) :
    (state.setProc p (state.pc p) proc).pc = state.pc :=
  Function.update_eq_self p state.pc

theorem pc_of_runs {who : Fin n ⊕ κ} (hruns : state.Runs who) {p : Fin n} (hwho : who = .inl p) :
    state.pc p = .idle := by
  subst hwho
  exact hruns.2

theorem Inv.pc_of_scan (h : Inv state) {who : Fin n ⊕ κ} (hscan : state.scan who ≠ none) {p : Fin n}
    (hwho : who = .inl p) : state.pc p = .idle := by
  subst hwho
  exact h.idle p hscan

theorem Inv.step (h : Inv state) (hstep : Sleep.step state action = some next) : Inv next := by
  have hcases := step_cases hstep
  cases action with
  | acquire who lk =>
      obtain ⟨⟨-, -, hfree⟩, rfl⟩ := hcases
      apply h.setHolder
      refine fun p => h.not_prepared (fun q hholder => ?_) p
      rw [hfree] at hholder
      cases hholder
  | release who lk =>
      obtain ⟨⟨hruns, -, hholds⟩, rfl⟩ := hcases
      apply h.setHolder
      refine fun p => h.not_prepared (fun q hholder => ?_) p
      exact pc_of_runs hruns (Option.some.inj (hholds.symm.trans hholder))
  | sleepPrepare who chan lk =>
      obtain ⟨⟨⟨hrunning, -⟩, hscan, hholds⟩, rfl⟩ := hcases
      apply h.setProc
      · refine ⟨fun _ => Or.inr (Or.inl hrunning), fun chan' lk' hpc => ?_, fun hsleeping => ?_⟩
        · obtain hpc | hpc | hpc := hpc <;> cases hpc
          exact Or.inl rfl
        · exact absurd hsleeping (SlotOk.ne_sleeping_of_running hrunning)
      · intro chan' lk' hpc
        cases hpc
        exact hholds
      · exact fun hbusy => absurd hscan hbusy
  | giveUp who =>
      obtain ⟨chan, lk, hpc, hrunning, rfl⟩ := hcases
      apply h.setProc
      · exact SlotOk.of_idle (SlotOk.ne_sleeping_of_running hrunning)
      · intro chan' lk' hpc'
        cases hpc'
      · exact fun _ => rfl
  | sleepRelease who chan lk =>
      obtain ⟨⟨hpc, hrunning⟩, rfl⟩ := hcases
      have hset : Inv (state.setProc who (.released chan lk) (state.proc who)) := by
        apply h.setProc
        · refine ⟨fun _ => Or.inr (Or.inl hrunning), fun chan' lk' hpc' => ?_, fun hsleeping => ?_⟩
          · obtain hpc' | hpc' | hpc' := hpc' <;> cases hpc'
            exact (h.slot who).registered chan lk (Or.inl hpc)
          · exact absurd hsleeping (SlotOk.ne_sleeping_of_running hrunning)
        · intro chan' lk' hpc'
          cases hpc'
        · intro hbusy
          have hidle := h.idle who hbusy
          rw [hpc] at hidle
          cases hidle
      apply hset.setHolder
      intro q chan'
      by_cases hq : q = who
      · subst hq
        simp [State.setProc]
      · intro hprepared
        have hbefore : state.pc q = .prepared chan' lk := by
          simpa [State.setProc, hq] using hprepared
        have hholds := (h.held q chan' lk hbefore).symm.trans (h.held who chan lk hpc)
        exact hq (Sum.inl.inj (Option.some.inj hholds))
  | sleep who =>
      obtain ⟨chan, lk, hpc, hrunning, rfl⟩ := hcases
      have hregistered := (h.slot who).registered chan lk (Or.inr (Or.inl hpc))
      have hnotScanning : state.scan (.inl who) = none := by
        by_contra hbusy
        have hidle := h.idle who hbusy
        rw [hpc] at hidle
        cases hidle
      apply h.setProc
      · by_cases hchan : (state.proc who).chan.isSome
        · have hsome : (state.proc who).chan = some chan := hregistered.resolve_right fun hnone => by
            simp [hnone] at hchan
          simp only [Proc.sleep, hchan, if_true]
          refine ⟨fun _ => Or.inr (Or.inr rfl), fun chan' lk' hpc' => ?_, fun _ => ⟨chan, lk, rfl, hsome⟩⟩
          obtain hpc' | hpc' | hpc' := hpc' <;> cases hpc'
          exact Or.inl hsome
        · simp only [Proc.sleep, hchan, if_false, Bool.false_eq_true]
          refine ⟨fun _ => Or.inr (Or.inl hrunning), fun chan' lk' hpc' => ?_, fun hsleeping => ?_⟩
          · obtain hpc' | hpc' | hpc' := hpc' <;> cases hpc'
          · exact absurd hsleeping (SlotOk.ne_sleeping_of_running hrunning)
      · intro chan' lk' hpc'
        split at hpc' <;> cases hpc'
      · exact fun hbusy => absurd hnotScanning hbusy
  | resume who =>
      obtain ⟨chan, lk, hpc, hrunning, rfl⟩ := hcases
      apply h.setProc
      · refine ⟨fun _ => Or.inr (Or.inl hrunning), fun chan' lk' hpc' => ?_, fun hsleeping => ?_⟩
        · obtain hpc' | hpc' | hpc' := hpc' <;> cases hpc'
        · exact absurd hsleeping (SlotOk.ne_sleeping_of_running hrunning)
      · intro chan' lk' hpc'
        cases hpc'
      · intro hbusy
        have hidle := h.idle who hbusy
        rw [hpc] at hidle
        cases hidle
  | reacquire who lk =>
      obtain ⟨⟨hpc, hrunning, hfree⟩, rfl⟩ := hcases
      have hset : Inv (state.setProc who .idle (state.proc who)) := by
        apply h.setProc
        · exact SlotOk.of_idle (SlotOk.ne_sleeping_of_running hrunning)
        · intro chan' lk' hpc'
          cases hpc'
        · exact fun _ => rfl
      apply hset.setHolder
      refine fun p => hset.not_prepared (fun q hholder => ?_) p
      have hnone : state.holder lk = some (.inl q) := hholder
      rw [hfree] at hnone
      cases hnone
  | wakeup who chan =>
      obtain ⟨⟨hruns, -⟩, rfl⟩ := hcases
      exact h.setScan fun p hwho _ => pc_of_runs hruns hwho
  | visit who =>
      obtain ⟨chan, p, rest, hscan, rfl⟩ := hcases
      apply (h.setSlot (h.slot p).wakeup).setScan
      intro q hwho _
      rw [pc_setProc_self]
      exact h.pc_of_scan (by simp [hscan]) hwho
  | wakeupReturn who =>
      obtain ⟨chan, -, rfl⟩ := hcases
      exact h.setScan fun p _ hbusy => absurd rfl hbusy
  | kkill who pid =>
      obtain ⟨⟨hruns, -⟩, rfl⟩ := hcases
      exact h.setScan fun p hwho _ => pc_of_runs hruns hwho
  | kkillVisit who =>
      obtain ⟨pid, p, rest, hscan, rfl | rfl⟩ := hcases
      · exact (h.setSlot (h.slot p).kill).setScan fun q _ hbusy => absurd rfl hbusy
      · exact h.setScan fun q hwho _ => h.pc_of_scan (by simp [hscan]) hwho
  | kkillReturn who =>
      obtain ⟨pid, -, rfl⟩ := hcases
      exact h.setScan fun p _ hbusy => absurd rfl hbusy
  | dispatch who =>
      obtain ⟨-, rfl⟩ := hcases
      exact h.setSlot ((h.slot who).setState (fun _ => Or.inr (Or.inl rfl)) (Or.inl rfl) (by simp))
  | yield who =>
      obtain ⟨-, rfl⟩ := hcases
      exact h.setSlot ((h.slot who).setState (fun _ => Or.inl rfl) (Or.inl rfl) (by simp))
  | alloc who =>
      obtain ⟨-, rfl⟩ := hcases
      have hslot : SlotOk (state.pc who)
          { state.proc who with state := .runnable, pid := state.nextpid } :=
        (h.slot who).setState (fun _ => Or.inl rfl) (Or.inl rfl) (by simp)
      have hset := h.setSlot hslot
      exact ⟨hset.slot, hset.held, hset.idle⟩
  | exit who =>
      obtain ⟨-, rfl⟩ := hcases
      apply h.setProc
      · exact SlotOk.of_idle (by simp)
      · intro chan' lk' hpc'
        cases hpc'
      · exact fun _ => rfl
  | free who =>
      obtain ⟨hzombie, rfl⟩ := hcases
      have hidle := (h.slot who).idle_of_not_live (by simp [Proc.Live, hzombie])
      rw [hidle]
      apply h.setProc
      · exact SlotOk.of_idle (by simp [Proc.free])
      · intro chan' lk' hpc'
        cases hpc'
      · exact fun _ => rfl

/-! ### The steps the specification sees -/

def Matched (state next : State n κ Chan Lock) (action : Action n κ Chan Lock) : Prop :=
  ∃ matched, Transition.run Spec.step state.abs matched = some next.abs ∧
    matched.filterMap Spec.visible = (visible action).toList

theorem Matched.silent (hvisible : visible action = none) (habs : next.abs = state.abs) :
    Matched state next action := by
  refine ⟨[], ?_, ?_⟩
  · rw [habs]
    rfl
  · rw [hvisible]
    rfl

theorem Matched.single {specAction : Spec.Action n κ Chan Lock}
    (hvisible : visible action = some specAction)
    (hspec : Spec.visible specAction = some specAction)
    (hstep : Spec.step state.abs specAction = some next.abs) : Matched state next action := by
  refine ⟨[specAction], ?_, ?_⟩
  · simp [Transition.run, hstep]
  · simp [hvisible, hspec]

theorem active_of_runs {who : Fin n ⊕ κ} (hruns : state.Runs who) : state.abs.Active who := by
  cases who with
  | inl p => exact congrArg (fun pc => statusOf pc (state.proc p)) hruns.2
  | inr handler => trivial

theorem Matched.of_wakes {p : Fin n} {pc : Pc Chan Lock} {proc : Proc (Fin n) Chan}
    (hvisible : visible action = none)
    (hstatus : statusOf pc proc = statusOf (state.pc p) (state.proc p) ∨
      ∃ chan lk, statusOf (state.pc p) (state.proc p) = .waiting chan lk ∧
        statusOf pc proc = .woken lk)
    (hnext : next.abs = (state.setProc p pc proc).abs) : Matched state next action := by
  obtain hsame | ⟨chan, lk, hwaiting, hwoken⟩ := hstatus
  · exact .silent hvisible (hnext.trans (abs_setProc_same hsame))
  · refine ⟨[.spurious p], ?_, ?_⟩
    · have hstatus : state.abs.status p = .waiting chan lk := hwaiting
      simp [Transition.run, Spec.step, hstatus, hnext, abs_setProc, hwoken]
    · rw [hvisible]
      rfl

theorem matched_step (h : Inv state) (hstep : step state action = some next) :
    Matched state next action := by
  have hcases := step_cases hstep
  cases action with
  | acquire who lk =>
      obtain ⟨⟨hruns, -, hfree⟩, rfl⟩ := hcases
      apply Matched.single rfl rfl
      exact if_pos ⟨active_of_runs hruns, hfree⟩
  | release who lk =>
      obtain ⟨⟨hruns, -, hholds⟩, rfl⟩ := hcases
      apply Matched.single rfl rfl
      exact if_pos ⟨active_of_runs hruns, hholds⟩
  | sleepPrepare who chan lk =>
      obtain ⟨⟨⟨-, hidle⟩, -, -⟩, rfl⟩ := hcases
      apply Matched.silent rfl
      apply abs_setProc_same
      rw [hidle]
      rfl
  | giveUp who =>
      obtain ⟨chan, lk, hpc, -, rfl⟩ := hcases
      apply Matched.silent rfl
      apply abs_setProc_same
      rw [hpc]
      rfl
  | sleepRelease who chan lk =>
      obtain ⟨⟨hpc, -⟩, rfl⟩ := hcases
      have hactive : state.abs.status who = .active :=
        congrArg (fun pc => statusOf pc (state.proc who)) hpc
      have hsleeps : Spec.step state.abs (.sleep who chan lk) = some { state.abs with
          status := Function.update state.abs.status who (.waiting chan lk)
          holder := Function.update state.abs.holder lk none } :=
        if_pos ⟨hactive, h.held who chan lk hpc⟩
      by_cases hchan : (state.proc who).chan.isSome
      · apply Matched.single rfl rfl
        rw [abs_setHolder, abs_setProc, hsleeps]
        simp [statusOf, hchan, State.abs]
      · -- woken before it released the lock
        refine ⟨[.sleep who chan lk, .spurious who], ?_, rfl⟩
        rw [abs_setHolder, abs_setProc]
        refine Transition.run_cons.mpr ⟨_, hsleeps, Transition.run_cons.mpr ⟨_, ?_, rfl⟩⟩
        simp [Spec.step, statusOf, hchan]
  | sleep who =>
      obtain ⟨chan, lk, hpc, -, rfl⟩ := hcases
      apply Matched.silent rfl
      apply abs_setProc_same
      rw [hpc]
      by_cases hchan : (state.proc who).chan.isSome <;> simp [statusOf, Proc.sleep, hchan]
  | resume who =>
      obtain ⟨chan, lk, hpc, hrunning, rfl⟩ := hcases
      apply Matched.silent rfl
      apply abs_setProc_same
      rw [hpc]
      simp [statusOf, hrunning]
  | reacquire who lk =>
      obtain ⟨⟨hpc, -, hfree⟩, rfl⟩ := hcases
      apply Matched.single rfl rfl
      have hstatus : state.abs.status who = .woken lk :=
        congrArg (fun pc => statusOf pc (state.proc who)) hpc
      rw [abs_setHolder, abs_setProc]
      exact if_pos ⟨hstatus, hfree⟩
  | wakeup who chan =>
      obtain ⟨⟨hruns, hscan⟩, rfl⟩ := hcases
      apply Matched.single rfl rfl
      rw [abs_setScan]
      exact if_pos ⟨active_of_runs hruns, congrArg scanOf hscan⟩
  | visit who =>
      obtain ⟨chan, p, rest, hscan, rfl⟩ := hcases
      apply Matched.single rfl rfl
      have hspec : state.abs.scan who = some (chan, p :: rest) := congrArg scanOf hscan
      rw [abs_setScan, abs_setProc, (h.slot p).statusOf_wakeup]
      simp only [Spec.step, hspec]
      rfl
  | wakeupReturn who =>
      obtain ⟨chan, hscan, rfl⟩ := hcases
      apply Matched.single rfl rfl
      have hspec : state.abs.scan who = some (chan, []) := congrArg scanOf hscan
      rw [abs_setScan]
      simp only [Spec.step, hspec]
      rfl
  | kkill who pid =>
      obtain ⟨⟨-, hscan⟩, rfl⟩ := hcases
      apply Matched.silent rfl
      apply abs_setScan_same
      rw [hscan]
      rfl
  | kkillVisit who =>
      obtain ⟨pid, p, rest, hscan, rfl | rfl⟩ := hcases
      · apply Matched.of_wakes rfl (statusOf_kill (state.pc p) (state.proc p))
        apply abs_setScan_same
        exact (congrArg scanOf hscan).symm
      · apply Matched.silent rfl
        apply abs_setScan_same
        rw [hscan]
        rfl
  | kkillReturn who =>
      obtain ⟨pid, hscan, rfl⟩ := hcases
      apply Matched.silent rfl
      apply abs_setScan_same
      rw [hscan]
      rfl
  | dispatch who =>
      obtain ⟨hrunnable, rfl⟩ := hcases
      apply Matched.silent rfl
      exact abs_setProc_same (statusOf_of_awake (by simp [hrunnable]) (by simp) rfl)
  | yield who =>
      obtain ⟨hrunning, rfl⟩ := hcases
      apply Matched.silent rfl
      exact abs_setProc_same (statusOf_of_awake (by simp [hrunning]) (by simp) rfl)
  | alloc who =>
      obtain ⟨hunused, rfl⟩ := hcases
      apply Matched.silent rfl
      have hsame : statusOf (state.pc who)
          { state.proc who with state := .runnable, pid := state.nextpid } =
            statusOf (state.pc who) (state.proc who) :=
        statusOf_of_awake (by simp [hunused]) (by simp) rfl
      exact abs_setProc_same hsame
  | exit who =>
      obtain ⟨⟨⟨-, hidle⟩, -⟩, rfl⟩ := hcases
      apply Matched.silent rfl
      apply abs_setProc_same
      rw [hidle]
      rfl
  | free who =>
      obtain ⟨hzombie, rfl⟩ := hcases
      have hidle := (h.slot who).idle_of_not_live (by simp [Proc.Live, hzombie])
      apply Matched.silent rfl
      apply abs_setProc_same
      rw [hidle]
      rfl

/-! ### The atomic sleep loses no wakeup -/

/-- A `wakeup` in progress or done, as far as one process goes: if the process waits, it waits on this
channel and is still to be visited. -/
structure Spec.Wakes (who : Fin n ⊕ κ) (chan : Chan) (p : Fin n) (state : Spec.State n κ Chan Lock) :
    Prop where
  scan : state.scan who = none ∨ ∃ rest, state.scan who = some (chan, rest)
  visits : ∀ chan' lk, state.status p = .waiting chan' lk →
    chan' = chan ∧ ∃ rest, state.scan who = some (chan, rest) ∧ p ∈ rest

namespace Spec.Wakes

variable {who : Fin n ⊕ κ} {chan : Chan} {p : Fin n} {state next : Spec.State n κ Chan Lock}
  {action : Spec.Action n κ Chan Lock}

theorem of_status (h : Wakes who chan p state)
    (hstatus : ∀ chan' lk, next.status p = .waiting chan' lk → state.status p = .waiting chan' lk)
    (hscan : next.scan who = state.scan who) : Wakes who chan p next where
  scan := hscan ▸ h.scan
  visits chan' lk hwaiting := hscan ▸ h.visits chan' lk (hstatus chan' lk hwaiting)

theorem of_update_status (h : Wakes who chan p state) {q : Fin n} {status : Status Chan Lock}
    (hstatus : q = p → ∀ chan' lk, status = .waiting chan' lk → state.status p = .waiting chan' lk)
    (hnext : next.status = Function.update state.status q status) (hscan : next.scan = state.scan) :
    Wakes who chan p next := by
  apply h.of_status ?_ (congrFun hscan who)
  intro chan' lk hwaiting
  rw [hnext] at hwaiting
  by_cases hq : q = p
  · subst hq
    rw [Function.update_self] at hwaiting
    exact hstatus rfl chan' lk hwaiting
  · rwa [Function.update_of_ne (Ne.symm hq)] at hwaiting

theorem waiting_of_wake {status : Status Chan Lock} {chan' chan'' : Chan} {lk : Lock}
    (hwaiting : wake status chan' = .waiting chan'' lk) :
    status = .waiting chan'' lk ∧ chan'' ≠ chan' := by
  cases status with
  | active => cases hwaiting
  | woken lk => cases hwaiting
  | waiting registered lk' =>
      simp only [wake] at hwaiting
      split at hwaiting
      · cases hwaiting
      · next hne =>
          cases hwaiting
          exact ⟨rfl, hne⟩

theorem visit (h : Wakes who chan p state) {who' : Fin n ⊕ κ} {chan' : Chan} {q : Fin n}
    {rest : List (Fin n)} (hscan : state.scan who' = some (chan', q :: rest)) :
    Wakes who chan p { state with
      status := Function.update state.status q (wake (state.status q) chan')
      scan := Function.update state.scan who' (some (chan', rest)) } := by
  have hstatus : ∀ chan'' lk,
      Function.update state.status q (wake (state.status q) chan') p = .waiting chan'' lk →
        state.status p = .waiting chan'' lk ∧ (p = q → chan'' ≠ chan') := by
    intro chan'' lk hwaiting
    by_cases hq : p = q
    · subst hq
      rw [Function.update_self] at hwaiting
      obtain ⟨hbefore, hne⟩ := waiting_of_wake hwaiting
      exact ⟨hbefore, fun _ => hne⟩
    · rw [Function.update_of_ne hq] at hwaiting
      exact ⟨hwaiting, fun heq => absurd heq hq⟩
  by_cases hwho : who' = who
  · subst hwho
    have hchan : chan' = chan := by
      obtain hnone | ⟨rest', hrest⟩ := h.scan
      · rw [hscan] at hnone
        cases hnone
      · rw [hscan] at hrest
        cases hrest
        rfl
    subst hchan
    refine ⟨Or.inr ⟨rest, Function.update_self _ _ _⟩, fun chan'' lk hwaiting => ?_⟩
    obtain ⟨hbefore, hne⟩ := hstatus chan'' lk hwaiting
    obtain ⟨rfl, rest', hrest, hmem⟩ := h.visits chan'' lk hbefore
    rw [hscan] at hrest
    cases hrest
    obtain rfl | hmem := List.mem_cons.mp hmem
    · exact absurd rfl (hne rfl)
    · exact ⟨rfl, rest, Function.update_self _ _ _, hmem⟩
  · exact h.of_status (fun chan'' lk hwaiting => (hstatus chan'' lk hwaiting).1)
      (Function.update_of_ne (Ne.symm hwho) _ _)

theorem step (h : Wakes who chan p state) (hsleep : ∀ chan' lk, action ≠ .sleep p chan' lk)
    (hwakeup : ∀ chan', action ≠ .wakeup who chan') (hstep : Spec.step state action = some next) :
    Wakes who chan p next := by
  cases action with
  | acquire other lk | release other lk =>
      obtain ⟨-, hnext⟩ := Option.ite_none_right_eq_some.mp hstep
      cases hnext
      exact h.of_status (fun _ _ hwaiting => hwaiting) rfl
  | sleep q chan' lk =>
      obtain ⟨-, hnext⟩ := Option.ite_none_right_eq_some.mp hstep
      cases hnext
      refine h.of_update_status (fun hq => ?_) rfl rfl
      subst hq
      exact absurd rfl (hsleep chan' lk)
  | spurious q =>
      simp only [Spec.step] at hstep
      split at hstep
      · cases hstep
        refine h.of_update_status (fun _ _ _ hwaiting => ?_) rfl rfl
        cases hwaiting
      · cases hstep
  | reacquire q lk =>
      obtain ⟨-, hnext⟩ := Option.ite_none_right_eq_some.mp hstep
      cases hnext
      refine h.of_update_status (fun _ _ _ hwaiting => ?_) rfl rfl
      cases hwaiting
  | wakeup other chan' =>
      obtain ⟨-, hnext⟩ := Option.ite_none_right_eq_some.mp hstep
      cases hnext
      have hother : who ≠ other := by
        intro heq
        subst heq
        exact hwakeup chan' rfl
      exact h.of_status (fun _ _ hwaiting => hwaiting) (Function.update_of_ne hother _ _)
  | visit other =>
      simp only [Spec.step] at hstep
      split at hstep
      · next hscan =>
          cases hstep
          exact h.visit hscan
      · cases hstep
  | wakeupReturn other =>
      simp only [Spec.step] at hstep
      split at hstep
      · next hscan =>
          cases hstep
          by_cases hother : who = other
          · subst hother
            refine ⟨Or.inl (Function.update_self _ _ _), fun chan' lk hwaiting => ?_⟩
            obtain ⟨-, rest, hrest, hmem⟩ := h.visits chan' lk hwaiting
            rw [hscan] at hrest
            cases hrest
            cases hmem
          · exact h.of_status (fun _ _ hwaiting => hwaiting) (Function.update_of_ne hother _ _)
      · cases hstep

end Spec.Wakes

/-! ### Runs -/

theorem inv_run {actions : List (Action n κ Chan Lock)} (h : Inv state)
    (hrun : Transition.run Sleep.step state actions = some next) : Inv next :=
  Transition.invariant_run (fun _ _ _ h hstep => h.step hstep) h hrun

theorem matched_run {actions : List (Action n κ Chan Lock)} (h : Inv state)
    (hrun : Transition.run Sleep.step state actions = some next) :
    ∃ matched, Transition.run Spec.step state.abs matched = some next.abs ∧
      matched.filterMap Spec.visible = actions.filterMap visible :=
  Transition.simulation (fun _ _ _ h hstep => h.step hstep) (fun _ _ _ => matched_step) h hrun

theorem exists_of_mem_matched {matched : List (Spec.Action n κ Chan Lock)}
    {actions : List (Action n κ Chan Lock)} {specAction : Spec.Action n κ Chan Lock}
    (hvisible : matched.filterMap Spec.visible = actions.filterMap visible)
    (hmem : specAction ∈ matched) (hspec : Spec.visible specAction = some specAction) :
    ∃ action ∈ actions, visible action = some specAction := by
  have himage : specAction ∈ actions.filterMap visible :=
    hvisible ▸ List.mem_filterMap.mpr ⟨specAction, hmem, hspec⟩
  exact List.mem_filterMap.mp himage

theorem wakes_of_wakeup {who : Fin n ⊕ κ} {chan : Chan} {p : Fin n} {lk : Lock}
    (hpc : state.pc p = .released chan lk ∨ state.pc p = .asleep chan lk)
    (hstep : Sleep.step state (.wakeup who chan) = some next) :
    Spec.Wakes who chan p next.abs := by
  obtain ⟨-, rfl⟩ := step_cases hstep
  have hscan : (state.setScan who (some (.wakeup chan (List.finRange n)))).abs.scan who =
      some (chan, List.finRange n) := by
    rw [abs_setScan]
    exact Function.update_self _ _ _
  refine ⟨Or.inr ⟨_, hscan⟩, fun chan' lk' hwaiting => ⟨?_, _, hscan, List.mem_finRange p⟩⟩
  have hstatus : statusOf (state.pc p) (state.proc p) = .waiting chan' lk' := hwaiting
  obtain hpc | hpc := hpc <;> rw [hpc] at hstatus <;> simp only [statusOf] at hstatus <;>
    split at hstatus <;> cases hstatus <;> rfl

/-- **The two-step sleep refines the atomic one.** Every run of the riscv64 functions is a run of the
atomic sleep with the same visible actions. And from any state of a run, whatever channels earlier
sleeps and kills have left behind: a `wakeup` that starts once a process has released its lock leaves
it awake, unless it has released a lock to sleep again. -/
theorem refines_atomic_sleep {actions : List (Action n κ Chan Lock)}
    (hrun : Transition.run Sleep.step Sleep.start actions = some state) :
    (∃ matched, Transition.run Spec.step Spec.start matched = some state.abs ∧
      matched.filterMap Spec.visible = actions.filterMap visible) ∧
    ∀ who chan p lk next during final,
      state.pc p = .released chan lk ∨ state.pc p = .asleep chan lk →
      Sleep.step state (.wakeup who chan) = some next →
      Transition.run Sleep.step next during = some final →
      (∀ action ∈ during, (∀ chan', action ≠ .wakeup who chan') ∧
        ∀ chan' lk', action ≠ .sleepRelease p chan' lk') →
      final.scan who = none → (final.proc p).state ≠ .sleeping := by
  have hinv := inv_run Inv.start hrun
  refine ⟨matched_run Inv.start hrun, fun who chan p lk next during final hpc hwakeup hduring
    hactions hdone hsleeping => ?_⟩
  have hnext := hinv.step hwakeup
  obtain ⟨matched, hmatched, hvisible⟩ := matched_run hnext hduring
  have hallowed : ∀ specAction ∈ matched, (∀ chan' lk', specAction ≠ .sleep p chan' lk') ∧
      ∀ chan', specAction ≠ .wakeup who chan' := by
    intro specAction hmem
    constructor
    · intro chan' lk' heq
      subst heq
      obtain ⟨action, haction, hseen⟩ := exists_of_mem_matched hvisible hmem rfl
      cases action <;> cases hseen
      exact (hactions _ haction).2 _ _ rfl
    · intro chan' heq
      subst heq
      obtain ⟨action, haction, hseen⟩ := exists_of_mem_matched hvisible hmem rfl
      cases action <;> cases hseen
      exact (hactions _ haction).1 _ rfl
  have hwakes : Spec.Wakes who chan p final.abs :=
    Transition.invariant_along (fun _ _ _ h hmeets hstep => h.step hmeets.1 hmeets.2 hstep)
      (wakes_of_wakeup hpc hwakeup) (Transition.along_of_forall_mem hallowed) hmatched
  obtain ⟨chan', lk', hasleep, -⟩ := ((inv_run hnext hduring).slot p).sleeping hsleeping
  have hwaiting : final.abs.status p = .waiting chan' lk' := by
    change statusOf (final.pc p) (final.proc p) = _
    rw [hasleep]
    exact if_pos hsleeping
  obtain ⟨-, rest, hscan, -⟩ := hwakes.visits chan' lk' hwaiting
  have hnone : final.abs.scan who = none := congrArg scanOf hdone
  rw [hnone] at hscan
  cases hscan

end Steps

end Abstraction

/-- A process is killed in its sleep and gives its lock up, the channel still registered; then it goes
to sleep again and is woken between the release and `sleep`. -/
def killedThenWoken : List (Action 1 Unit Unit Unit) :=
  [.alloc (Fin.last 0), .dispatch (Fin.last 0), .acquire (.inl (Fin.last 0)) (),
    .sleepPrepare (Fin.last 0) () (), .sleepRelease (Fin.last 0) () (), .sleep (Fin.last 0),
    .kkill (.inr ()) 1, .kkillVisit (.inr ()), .dispatch (Fin.last 0), .resume (Fin.last 0),
    .reacquire (Fin.last 0) (), .sleepPrepare (Fin.last 0) () (), .sleepRelease (Fin.last 0) () ()]

theorem refines_atomic_sleep_killedThenWoken :
    ∃ final : State 1 Unit Unit Unit, (final.proc (Fin.last 0)).state ≠ .sleeping := by
  have hrun : ∃ state ∈ Transition.run step start killedThenWoken,
      state.pc (Fin.last 0) = .released () () := by
    decide
  have hfinal : ∃ final ∈ Transition.run step start (killedThenWoken ++ (.wakeup (.inr ()) () ::
      [.visit (.inr ()), .wakeupReturn (.inr ()), .sleep (Fin.last 0)])),
      final.scan (.inr ()) = none := by
    decide
  obtain ⟨state, hstate, hpc⟩ := hrun
  obtain ⟨final, hfinal, hdone⟩ := hfinal
  rw [Option.mem_def, Transition.run_append, hstate, Option.bind_some] at hfinal
  obtain ⟨next, hnext, hduring⟩ := Transition.run_cons.mp hfinal
  exact ⟨final, (refines_atomic_sleep hstate).2 _ _ _ _ _ _ _ (Or.inl hpc) hnext hduring
    (by simp) hdone⟩

end Xv6.Sleep
