import Xv6.Storage.IdeSteps

/-!
# Requests to the IDE driver

Each request is served once, in order, and its process returns after its interrupt. The data is that of the disk
where the drive reports no error; `ideintr` sets `B_VALID` after an error too.
-/

set_option linter.unusedSectionVars false

namespace Xv6.Ide

variable {n : Nat} {ι D : Type} [DecidableEq ι] [Fintype ι] {s s' : State n ι D}

/-- What the users of the driver rely on, at any point. -/
structure Serves (s : State n ι D) : Prop where
  queue : ∃ q, s.queue.IsQueue q ∧ s.queued = s.served ++ q ∧ Working s q ∧
    ∀ who b number asleep, s.call who = .iderw b number asleep → number < s.served.length ∨ b ∈ q
  command : ∀ b, s.queue.head = some b → (s.command b).unit = (s.bio.cache.buf b).dev ∧
    (s.command b).sector = (s.bio.cache.buf b).blockno ∧
      (s.command b).write = if s.dirty b then some (s.data b) else none
  request : ∀ who b number asleep, s.call who = .iderw b number asleep → s.queued[number]? = some b
  served : ∀ who b number asleep, s.call who = .iderw b number asleep → (s.Done b ↔ number < s.served.length)
  awake : ∀ who b number, s.call who = .iderw b number true → s.served.length ≤ number
  synced : ∀ b, s.synced b = true → s.data b = s.block b

/-- What the return of `iderw` promises about the request: its interrupt has been handled, and if it reported no
error then the buffer has what is on the disk. -/
structure Returned (s s' : State n ι D) (b : Fin n) (number : Nat) : Prop where
  request : s.queued[number]? = some b
  served : number < s.served.length
  done : s'.Done b
  data : s.error b = false → s'.data b = s'.block b

theorem Inv.serves {q : List (Fin n)} (h : Inv s q) : Serves s where
  queue := by
    refine ⟨q, h.queue, h.queued, h.drive, ?_⟩
    intro who b number asleep hcall
    have hget := (h.calling who b number asleep hcall).queued
    by_cases hlt : number < s.served.length
    · exact Or.inl hlt
    · rw [h.queued, List.getElem?_append_right (Nat.le_of_not_lt hlt)] at hget
      exact Or.inr (List.mem_of_getElem? hget)
  command b hb := by
    rw [h.queue.head_eq] at hb
    have hdrive := h.drive
    cases q with
    | nil => cases hb
    | cons first rest =>
        obtain rfl := Option.some.inj hb
        exact ⟨command_unit s first (h.dev first), command_sector s first hdrive.1, command_write s first⟩
  request who b number asleep hcall := (h.calling who b number asleep hcall).queued
  served who b number asleep hcall := h.done_iff hcall
  awake who b number hcall := by
    by_contra hlt
    have hawake := ((h.calling who b number true hcall).served (Nat.lt_of_not_le hlt)).2.1
    cases hawake
  synced b hb := (h.synced b hb).2

theorem wait_idle {who : ι} {b : Fin n} {number : Nat} (hwait : s.wait who b number = some s')
    (hidle : s'.call who = .idle) : s.Done b ∧ (s'.Done b ∧ s'.data = s.data ∧ s'.block b = s.block b) := by
  unfold State.wait at hwait
  split at hwait
  case isFalse =>
    obtain rfl := Option.some.inj hwait
    unfold State.setCall at hidle
    dsimp only at hidle
    rw [Function.update_self] at hidle
    cases hidle
  case isTrue hdone =>
    refine ⟨hdone, ?_⟩
    dsimp only at hwait
    split at hwait
    case h_2 =>
      obtain rfl := Option.some.inj hwait
      exact ⟨hdone, rfl, rfl⟩
    case h_1 b' hpc =>
      obtain ⟨bio, hstep, rfl⟩ := Option.map_eq_some_iff.mp hwait
      have hpc' : (s.bio.proc who).pc = .reading b' := hpc
      have hcache : bio.cache = Bio.fill s.bio.cache b' := by
        simp only [State.setCall, Bio.step, hpc'] at hstep
        rw [← Option.some.inj hstep]
      have hbuf : bio.cache.buf b = s.bio.cache.buf b := by
        rw [hcache, Bio.fill]
        split
        · rfl
        · by_cases hb : b = b'
          · subst hb
            next hinvalid => exact absurd hdone.1 hinvalid
          · rw [Bcache.setBuf_buf_of_ne _ _ hb]
      refine ⟨⟨?_, hdone.2⟩, rfl, ?_⟩
      · change (bio.cache.buf b).content = true
        rw [hbuf]
        exact hdone.1
      · unfold State.block
        dsimp only
        rw [hbuf]
        rfl

theorem idestart_call {b : Fin n} (hstart : s.idestart b = some s') : s'.call = s.call := by
  obtain ⟨-, rfl⟩ := idestart_eq_some hstart
  rfl

theorem wait_of_idle {havedisk1 : Bool} {action : Action n ι D} {who : ι} {b : Fin n} {number : Nat} {asleep : Bool}
    (hstep : step havedisk1 s action = some s') (hcall : s.call who = .iderw b number asleep)
    (hidle : s'.call who = .idle) : s.wait who b number = some s' := by
  have hstays : s'.call = s.call → False := by
    intro heq
    rw [heq, hcall] at hidle
    cases hidle
  -- Another process that goes into `iderw` does not take this one out.
  have hupdate : ∀ {other : ι} {b' : Fin n} {number' : Nat} {asleep' : Bool},
      s'.call = Function.update s.call other (.iderw b' number' asleep') → False := by
    intro other b' number' asleep' heq
    rw [heq] at hidle
    by_cases hother : who = other
    · rw [hother, Function.update_self] at hidle
      cases hidle
    · rw [Function.update_of_ne hother, hcall] at hidle
      cases hidle
  cases action with
  | cache action =>
      simp only [step] at hstep
      split at hstep
      case isFalse => cases hstep
      case isTrue =>
        obtain ⟨bio, -, rfl⟩ := Option.map_eq_some_iff.mp hstep
        refine (hstays ?_).elim
        split <;> rfl
  | bread other =>
      simp only [step] at hstep
      split at hstep
      case h_2 => cases hstep
      case h_1 =>
        split at hstep
        case isTrue =>
          obtain ⟨bio, -, rfl⟩ := Option.map_eq_some_iff.mp hstep
          exact (hstays rfl).elim
        case isFalse =>
          obtain ⟨-, queue, drive, -, -, rfl⟩ := iderw_eq_some hstep
          exact (hupdate rfl).elim
  | bwrite other b' =>
      simp only [step] at hstep
      split at hstep
      case isFalse => cases hstep
      case isTrue =>
        obtain ⟨-, queue, drive, -, -, rfl⟩ := iderw_eq_some hstep
        exact (hupdate rfl).elim
  | modify other b' data =>
      simp only [step] at hstep
      split at hstep
      case isFalse => cases hstep
      case isTrue =>
        obtain rfl := Option.some.inj hstep
        exact (hstays rfl).elim
  | resume other =>
      simp only [step] at hstep
      split at hstep
      case h_2 => cases hstep
      case h_1 b' number' hcall' =>
        by_cases hother : other = who
        · subst hother
          rw [hcall] at hcall'
          obtain ⟨rfl, rfl, -⟩ := Call.iderw.inj hcall'
          exact hstep
        · exfalso
          have hne : who ≠ other := fun heq => hother heq.symm
          have hcalls : s'.call who = s.call who := by
            unfold State.wait at hstep
            dsimp only at hstep
            split at hstep
            case isTrue =>
              split at hstep
              case h_1 =>
                obtain ⟨bio, -, rfl⟩ := Option.map_eq_some_iff.mp hstep
                exact Function.update_of_ne hne _ _
              case h_2 =>
                obtain rfl := Option.some.inj hstep
                exact Function.update_of_ne hne _ _
            case isFalse =>
              obtain rfl := Option.some.inj hstep
              exact Function.update_of_ne hne _ _
          rw [hcalls, hcall] at hidle
          cases hidle
  | kill other =>
      simp only [step] at hstep
      split at hstep
      case h_2 => cases hstep
      case h_1 =>
        obtain rfl := Option.some.inj hstep
        exact (hupdate rfl).elim
  | finish err =>
      simp only [step] at hstep
      split at hstep
      case h_2 => cases hstep
      case h_1 cmd hbusy =>
        split at hstep <;> obtain rfl := Option.some.inj hstep <;> exact (hstays rfl).elim
  | ideintr =>
      simp only [step] at hstep
      split at hstep
      case h_2 => cases hstep
      case h_1 cmd err read hfinished =>
        exfalso
        unfold State.ideintr at hstep
        split at hstep
        case h_1 =>
          obtain rfl := Option.some.inj hstep
          exact hstays rfl
        case h_2 b' hhead =>
          have hcalls : s'.call = s.wakeup b' := by
            dsimp only at hstep
            split at hstep
            case h_1 =>
              obtain rfl := Option.some.inj hstep
              rfl
            case h_2 => exact idestart_call hstep
          rw [hcalls] at hidle
          unfold State.wakeup at hidle
          rw [hcall] at hidle
          cases hidle

/-- **Requests to the disk.** In any order of the calls, the interrupts and the wakeups, with any errors. -/
theorem requests_served {havedisk1 : Bool} {zero : D} {disk : Nat → Nat → D} {actions : List (Action n ι D)}
    (hrun : Transition.run (step havedisk1) (start zero disk) actions = some s) :
    Serves s ∧ ∀ {action : Action n ι D} {who : ι} {b : Fin n} {number : Nat} {asleep : Bool} {s' : State n ι D},
      step havedisk1 s action = some s' → s.call who = .iderw b number asleep → s'.call who = .idle →
        Returned s s' b number := by
  have hkept : ∀ (s : State n ι D) (action : Action n ι D) (s' : State n ι D), (∃ q, Inv s q) →
      step havedisk1 s action = some s' → ∃ q, Inv s' q := by
    rintro s action s' ⟨q, h⟩ hstep
    exact h.step hstep
  obtain ⟨q, h⟩ := Transition.invariant_run hkept ⟨[], Inv.start zero disk⟩ hrun
  refine ⟨h.serves, ?_⟩
  intro action who b number asleep s' hstep hcall hidle
  obtain ⟨hdone, hdone', hdata, hblock⟩ := wait_idle (wait_of_idle hstep hcall hidle) hidle
  have hlt := (h.done_iff hcall).mp hdone
  refine ⟨(h.calling who b number asleep hcall).queued, hlt, hdone', ?_⟩
  intro herr
  rw [hdata, hblock]
  exact (h.synced b (((h.calling who b number asleep hcall).served hlt).2.2 herr)).2

def readBlock (err : Option Nat) : List (Action 1 Unit Nat) :=
  [.cache (.bget () 1 7), .cache (.acquiresleep ()), .bread (), .finish err, .ideintr]

theorem requests_served_readBlock : ∃ s, Transition.run (step true) (start 0 fun _ _ => 5) (readBlock none) = some s ∧
    Serves s := by
  have hrun : (Transition.run (step true) (start 0 fun _ _ => 5) (readBlock none)).isSome := by decide
  obtain ⟨s, hs⟩ := Option.isSome_iff_exists.mp hrun
  exact ⟨s, hs, (requests_served hs).1⟩

/-- **After an error** `bread` returns a buffer with `B_VALID` that has not been read. -/
theorem error_not_seen : ∃ s ∈ Transition.run (step true) (start 0 fun _ _ => 5) (readBlock (some 0) ++ [.resume ()]),
    s.call () = .idle ∧ (0 : Fin 1) ∈ (s.bio.proc ()).held ∧ s.Done 0 ∧ s.data 0 ≠ s.block 0 := by
  decide

end Xv6.Ide
