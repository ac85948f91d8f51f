import Xv6.Ipc.Pipe

/-!
# Lost wakeups on a pipe

`pipewrite`, `piperead` and `pipeclose` of the shared `pipe.c`, which every fork but riscv64 builds. A
process sleeps on `&pi->nread` for bytes and on `&pi->nwrite` for room, so whoever adds or takes bytes,
or closes an end, owes a wakeup by the time it releases the lock. A writer that finds itself killed
returns with the wakeup still owed.
-/

namespace Xv6.Ipc

/-! ### The code -/

def sleep (chan : Chan) : Code Unit := do
  perform (.sleep chan)
  perform .resume
  perform .clearChan
  acquire

def wakeup (chan : Chan) : Code Unit := perform (.wakeup chan)

/-- The way out of `pipewrite`, after the loop. -/
def pipewrite.out (i : Int) : Code Int := do
  wakeup .nread
  release
  pure i

/-- The loop of `pipewrite`, with `i` bytes written. `added` is for the statements: have bytes been
written since the last wakeup? -/
def pipewrite.loop (n : Int) : (rounds i : Nat) → (added : Bool) → Code Int
  | 0, _, _ => stop
  | rounds + 1, i, added => do
      if (i : Int) < n then do
        let pi ← pipe
        let gone ← (if pi.readopen = false then pure true else killed added)
        if gone then do
          release
          pure (-1)
        else do
          let pi ← pipe
          if pi.nwrite = pi.nread + BitVec.ofNat 32 pipesize then do
            wakeup .nread
            sleep .nwrite
            loop n rounds i false
          else do
            let ch ← copyin
            ch.elim (pipewrite.out i) fun ch => do
              put ch
              loop n rounds (i + 1) true
      else pipewrite.out i

def pipewrite (n : Int) : Code Int := do
  let rounds ← rounds
  acquire
  pipewrite.loop n rounds 0 false

/-- The way out of `piperead`, after the loop that copies. -/
def piperead.out (i : Int) : Code Int := do
  wakeup .nwrite
  release
  pure i

/-- The loop of `piperead` that copies, with `i` bytes read. -/
def piperead.copy : (left i : Nat) → Code Int
  | 0, i => piperead.out i
  | left + 1, i => do
      let pi ← pipe
      if pi.nread = pi.nwrite then piperead.out i
      else do
        advance
        let copied ← copyout pi.head
        if copied then copy left (i + 1) else piperead.out i

/-- The loop of `piperead` that waits. -/
def piperead.wait (n : Int) : (rounds : Nat) → Code Int
  | 0 => stop
  | rounds + 1 => do
      let pi ← pipe
      if pi.nread = pi.nwrite ∧ pi.writeopen then do
        let gone ← killed false
        if gone then do
          release
          pure (-1)
        else do
          sleep .nread
          wait n rounds
      else piperead.copy n.toNat 0

def piperead (n : Int) : Code Int := do
  let rounds ← rounds
  acquire
  piperead.wait n rounds

def pipeclose (writable : Bool) : Code Int := do
  acquire
  close writable
  wakeup (if writable then .nread else .nwrite)
  release
  pure 0

def call : Call → Code Int
  | .pipewrite n => pipewrite n
  | .piperead n => piperead n
  | .pipeclose writable => pipeclose writable

/-! ### What a process owes -/

def Waits : Chan → Pipe → Prop
  | .nread, pi => pi.nread = pi.nwrite ∧ pi.writeopen = true
  | .nwrite, pi => pi.nwrite = pi.nread + BitVec.ofNat 32 pipesize ∧ pi.readopen = true

structure Held where
  pipe : Pipe
  owes : Chan → Bool

theorem owes_of_update {held : Held} {pi : Pipe} {chan other : Chan} {owed : Bool}
    (h : (Held.mk pi (Function.update held.owes chan owed)).owes other = false) (hne : other ≠ chan) :
    held.owes other = false := by
  simpa [hne] using h

abbrev even (pi : Pipe) : Option Held := some ⟨pi, fun _ => false⟩

def rule : Rule sections (Option Held)
  | .acquire, ghost, Q => ghost = none ∧ ∀ pi, Q () (even pi)
  | .release, ghost, Q => (∃ held, ghost = some held ∧ ∀ chan, held.owes chan = false) ∧ Q () none
  | .pipe, ghost, Q => ∃ held, ghost = some held ∧ Q held.pipe ghost
  | .put ch, ghost, Q => ∃ held, ghost = some held ∧
      held.pipe.nwrite ≠ held.pipe.nread + BitVec.ofNat 32 pipesize ∧
        Q () (some ⟨held.pipe.put ch, Function.update held.owes .nread true⟩)
  | .advance, ghost, Q => ∃ held, ghost = some held ∧ held.pipe.nread ≠ held.pipe.nwrite ∧
      Q () (some ⟨held.pipe.advance, Function.update held.owes .nwrite true⟩)
  | .close writable, ghost, Q => ∃ held, ghost = some held ∧
      Q () (some ⟨held.pipe.close writable,
        Function.update held.owes (if writable then .nread else .nwrite) true⟩)
  | .killed added, ghost, Q => ∃ held, ghost = some held ∧ Q false ghost ∧
      Q true (if added then some { held with owes := Function.update held.owes .nread false } else ghost)
  | .wakeup chan, ghost, Q => ∃ held, ghost = some held ∧
      Q () (some { held with owes := Function.update held.owes chan false })
  | .sleep chan, ghost, Q =>
      (∃ held, ghost = some held ∧ (∀ other, held.owes other = false) ∧ Waits chan held.pipe) ∧ Q () none
  | .sleepPrepare _, _, _ => False
  | .sleepPrepared, _, _ => False
  | .wakeupPrepared _, _, _ => False
  | .stop, _, _ => True
  | _, ghost, Q => ∀ response, Q response ghost

theorem rule_monotone : (rule : Rule sections (Option Held)).Monotone := by
  intro op ghost post post' hpost h
  cases op with
  | acquire => exact ⟨h.1, fun pi => hpost _ _ (h.2 pi)⟩
  | release => exact ⟨h.1, hpost _ _ h.2⟩
  | pipe =>
      obtain ⟨held, hheld, hnext⟩ := h
      exact ⟨held, hheld, hpost _ _ hnext⟩
  | put ch =>
      obtain ⟨held, hheld, hroom, hnext⟩ := h
      exact ⟨held, hheld, hroom, hpost _ _ hnext⟩
  | advance =>
      obtain ⟨held, hheld, hsome, hnext⟩ := h
      exact ⟨held, hheld, hsome, hpost _ _ hnext⟩
  | close writable =>
      obtain ⟨held, hheld, hnext⟩ := h
      exact ⟨held, hheld, hpost _ _ hnext⟩
  | killed added =>
      obtain ⟨held, hheld, hfalse, htrue⟩ := h
      exact ⟨held, hheld, hpost _ _ hfalse, hpost _ _ htrue⟩
  | wakeup chan =>
      obtain ⟨held, hheld, hnext⟩ := h
      exact ⟨held, hheld, hpost _ _ hnext⟩
  | sleep chan => exact ⟨h.1, hpost _ _ h.2⟩
  | sleepPrepare chan => exact h
  | sleepPrepared => exact h
  | wakeupPrepared chan => exact h
  | stop => trivial
  | _ => exact fun response => hpost _ _ (h response)

section Inv

variable {ι : Type}

def Rests (state : State ι) (chan : Chan) : Prop :=
  ∀ p, state.sleeping p = true → state.chan p = some chan → Waits chan state.pipe

def Deserted (state : State ι) (chan : Chan) : Prop :=
  ∀ p, state.sleeping p = true → state.chan p ≠ some chan

/-- A process may find itself killed, but not in `pipewrite` with bytes written since the last wakeup
while a reader sleeps. -/
def Allowed (state : State ι) (who : ι) : sections.Op → Prop
  | .killed added => state.killed who = true → added = true → Deserted state .nread
  | _ => True

structure Inv (state : State ι) (ghosts : ι → Option Held) : Prop where
  /-- While nobody holds the lock, nothing is owed. -/
  rests : state.lock = none → ∀ chan, Rests state chan
  held : ∀ who held, ghosts who = some held → state.lock = some who ∧ held.pipe = state.pipe ∧
    ∀ chan, held.owes chan = false → Rests state chan

variable {state state' : State ι} {ghosts : ι → Option Held}

theorem Deserted.rests {chan : Chan} (h : Deserted state chan) : Rests state chan :=
  fun p hsleeping hchan => absurd hchan (h p hsleeping)

theorem Rests.mono {chan : Chan} (h : Rests state chan) (hpipe : state'.pipe = state.pipe)
    (hsleeping : ∀ p, state'.sleeping p = true → state'.chan p = some chan →
      state.sleeping p = true ∧ state.chan p = some chan) : Rests state' chan := by
  intro p hp hchan
  rw [hpipe]
  obtain ⟨hp', hchan'⟩ := hsleeping p hp hchan
  exact h p hp' hchan'

theorem Rests.deserted {chan : Chan} (h : Rests state chan) (hno : ¬Waits chan state.pipe) :
    Deserted state chan :=
  fun p hsleeping hchan => hno (h p hsleeping hchan)

variable [DecidableEq ι]

theorem Inv.change (h : Inv state ghosts) {who : ι} {held : Held} (hlock : state.lock = some who)
    (hlock' : state'.lock = some who) (hpipe : held.pipe = state'.pipe)
    (howes : ∀ chan, held.owes chan = false → Rests state' chan) :
    Inv state' (Function.update ghosts who (some held)) := by
  refine ⟨fun hnone => ?_, fun other held' hother => ?_⟩
  · rw [hlock'] at hnone
    cases hnone
  · by_cases hne : other = who
    · rw [hne, Function.update_self] at hother
      obtain rfl := Option.some.inj hother
      exact ⟨hne ▸ hlock', hpipe, howes⟩
    · rw [Function.update_of_ne hne] at hother
      exact absurd (Option.some.inj (hlock.symm.trans (h.held other _ hother).1)).symm hne

theorem Inv.free (h : Inv state ghosts) {who : ι} (hlock : state.lock = some who)
    (hrests : ∀ chan, Rests state' chan) :
    Inv state' (Function.update ghosts who none) := by
  refine ⟨fun _ => hrests, fun other held' hother => ?_⟩
  by_cases hne : other = who
  · rw [hne, Function.update_self] at hother
    cases hother
  · rw [Function.update_of_ne hne] at hother
    exact absurd (Option.some.inj (hlock.symm.trans (h.held other _ hother).1)).symm hne

omit [DecidableEq ι] in
/-- Nobody falls asleep, and the pipe and the lock stay. -/
theorem Inv.same (h : Inv state ghosts) (hpipe : state'.pipe = state.pipe)
    (hlock : state'.lock = state.lock)
    (hsleeping : ∀ p chan, state'.sleeping p = true → state'.chan p = some chan →
      state.sleeping p = true ∧ state.chan p = some chan) : Inv state' ghosts := by
  refine ⟨fun hnone chan => ?_, fun who held hheld => ?_⟩
  · exact (h.rests (hlock ▸ hnone) chan).mono hpipe fun p => hsleeping p chan
  · obtain ⟨hlock', hpipe', howes⟩ := h.held who held hheld
    refine ⟨hlock ▸ hlock', hpipe'.trans hpipe.symm, fun chan hchan => ?_⟩
    exact (howes chan hchan).mono hpipe fun p => hsleeping p chan

theorem handler_sound : Threads.HandlerSound (handler : Handler sections (State ι) ι) rule Inv
    Allowed := by
  intro who state ghosts op choice response state' Q hinv hallowed hrule hstep
  have hsame : ∀ {state'' : State ι}, Inv state'' ghosts →
      Inv state'' (Function.update ghosts who (ghosts who)) := by
    intro state'' h
    rwa [Function.update_eq_self]
  cases op with
  | acquire =>
      simp only [handler] at hstep
      split at hstep
      next hfree =>
        cases hstep
        refine ⟨_, hrule.2 state.pipe, fun hnone => (by cases hnone), fun other held hother => ?_⟩
        by_cases hne : other = who
        · rw [hne, Function.update_self] at hother
          obtain rfl := Option.some.inj hother
          exact ⟨congrArg some hne.symm, rfl, fun chan _ => hinv.rests hfree chan⟩
        · rw [Function.update_of_ne hne] at hother
          have hlock := (hinv.held other _ hother).1
          rw [hfree] at hlock
          cases hlock
      next => cases hstep
  | release =>
      obtain ⟨⟨held, hheld, hnothing⟩, hnext⟩ := hrule
      obtain ⟨hlock, -, howes⟩ := hinv.held who held hheld
      cases hstep
      exact ⟨_, hnext, hinv.free hlock fun chan => howes chan (hnothing chan)⟩
  | pipe =>
      obtain ⟨held, hheld, hnext⟩ := hrule
      obtain ⟨-, hpipe, -⟩ := hinv.held who held hheld
      cases hstep
      rw [hpipe] at hnext
      exact ⟨_, hnext, hsame hinv⟩
  | put ch =>
      obtain ⟨held, hheld, hroom, hnext⟩ := hrule
      obtain ⟨hlock, hpipe, howes⟩ := hinv.held who held hheld
      cases hstep
      refine ⟨_, hnext, hinv.change hlock hlock (congrArg (Pipe.put · ch) hpipe) fun chan hchan => ?_⟩
      cases chan with
      | nread => simp at hchan
      | nwrite =>
          rw [hpipe] at hroom
          exact Deserted.rests ((howes _ (owes_of_update hchan (by decide))).deserted fun h => hroom h.1)
  | advance =>
      obtain ⟨held, hheld, hsome, hnext⟩ := hrule
      obtain ⟨hlock, hpipe, howes⟩ := hinv.held who held hheld
      cases hstep
      refine ⟨_, hnext, hinv.change hlock hlock (congrArg Pipe.advance hpipe) fun chan hchan => ?_⟩
      cases chan with
      | nwrite => simp at hchan
      | nread =>
          rw [hpipe] at hsome
          exact Deserted.rests ((howes _ (owes_of_update hchan (by decide))).deserted fun h => hsome h.1)
  | close writable =>
      obtain ⟨held, hheld, hnext⟩ := hrule
      obtain ⟨hlock, hpipe, howes⟩ := hinv.held who held hheld
      cases hstep
      refine ⟨_, hnext, hinv.change hlock hlock (congrArg (Pipe.close · writable) hpipe)
        fun chan hchan => ?_⟩
      have hne : chan ≠ if writable then .nread else .nwrite := by
        rintro rfl
        simp at hchan
      have hrests := howes chan (owes_of_update hchan hne)
      intro p hsleeping hp
      have hwaits := hrests p hsleeping hp
      cases writable <;> cases chan <;> first | exact absurd rfl hne | exact hwaits
  | killed added =>
      obtain ⟨held, hheld, hfalse, htrue⟩ := hrule
      obtain ⟨hlock, hpipe, howes⟩ := hinv.held who held hheld
      cases hstep
      cases hkilled : state.killed who with
      | false => exact ⟨_, hfalse, hsame hinv⟩
      | true =>
          cases added with
          | false => exact ⟨_, htrue, hsame hinv⟩
          | true =>
              refine ⟨_, htrue, hinv.change hlock hlock hpipe fun chan hchan => ?_⟩
              cases chan with
              | nread => exact (hallowed hkilled rfl).rests
              | nwrite => exact howes _ (owes_of_update hchan (by decide))
  | wakeup chan =>
      obtain ⟨held, hheld, hnext⟩ := hrule
      obtain ⟨hlock, hpipe, howes⟩ := hinv.held who held hheld
      cases hstep
      refine ⟨_, hnext, hinv.change hlock hlock hpipe fun other hother => ?_⟩
      intro p hsleeping hp
      simp only [State.wakeup, Bool.and_eq_true, decide_eq_true_eq] at hsleeping
      have hne : other ≠ chan := by
        rintro rfl
        exact hsleeping.2 hp
      exact howes other (owes_of_update hother hne) p hsleeping.1 hp
  | sleep chan =>
      obtain ⟨⟨held, hheld, hnothing, hwaits⟩, hnext⟩ := hrule
      obtain ⟨hlock, hpipe, howes⟩ := hinv.held who held hheld
      cases hstep
      refine ⟨_, hnext, hinv.free hlock fun other => ?_⟩
      intro p hsleeping hp
      by_cases hne : p = who
      · simp only [State.sleep, hne, Function.update_self, Option.some.injEq] at hp
        rw [← hp, State.sleep]
        exact hpipe ▸ hwaits
      · simp only [State.sleep, Function.update_of_ne hne] at hsleeping hp
        exact howes other (hnothing other) p hsleeping hp
  | sleepPrepare chan => exact absurd hrule id
  | sleepPrepared => exact absurd hrule id
  | wakeupPrepared chan => exact absurd hrule id
  | stop => cases hstep
  | resume =>
      simp only [handler] at hstep
      split at hstep
      · cases hstep
      · cases hstep
        exact ⟨_, hrule _, hsame hinv⟩
  | clearChan =>
      cases hstep
      refine ⟨_, hrule _, hsame (hinv.same rfl rfl fun p chan hsleeping hp => ⟨hsleeping, ?_⟩)⟩
      by_cases hne : p = who
      · simp [hne] at hp
      · simpa [hne] using hp
  | copyout ch =>
      simp only [handler] at hstep
      split at hstep
      · cases hstep
        exact ⟨_, hrule _, hsame hinv⟩
      · cases hstep
        exact ⟨_, hrule _, hsame (hinv.same rfl rfl fun p chan hsleeping hp => ⟨hsleeping, hp⟩)⟩
  | start =>
      cases hstep
      exact ⟨_, hrule _, hsame (hinv.same rfl rfl fun p chan hsleeping hp => ⟨hsleeping, hp⟩)⟩
  | copyin =>
      cases hstep
      exact ⟨_, hrule _, hsame hinv⟩
  | rounds =>
      cases hstep
      exact ⟨_, hrule _, hsame hinv⟩

end Inv

/-! ### The calls -/

def Ended (_ : Int) (ghost : Option Held) : Prop := ghost = none

section Calls

variable {pi : Pipe} {owes : Chan → Bool} {α : Type} {Q : α → Option Held → Prop}

theorem wp_pipe {f : Pipe → Code α} (hnext : (f pi).wp rule (some ⟨pi, owes⟩) Q) :
    (pipe >>= f).wp rule (some ⟨pi, owes⟩) Q := ⟨_, rfl, hnext⟩

theorem release_spec {value : Int} (hnothing : ∀ chan, owes chan = false) :
    (release >>= fun _ => pure value).wp rule (some ⟨pi, owes⟩) Ended := ⟨⟨_, rfl, hnothing⟩, rfl⟩

theorem wp_sleep {chan : Chan} {f : Code α} (hnothing : ∀ other, owes other = false)
    (hwaits : Waits chan pi) (hnext : ∀ pi, f.wp rule (even pi) Q) :
    (sleep chan >>= fun _ => f).wp rule (some ⟨pi, owes⟩) Q :=
  ⟨⟨_, rfl, hnothing, hwaits⟩, fun _ _ => ⟨rfl, hnext⟩⟩

theorem owes_nothing {chan : Chan} (hothers : ∀ other, other ≠ chan → owes other = false)
    (other : Chan) : Function.update owes chan false other = false := by
  by_cases hne : other = chan
  · rw [hne, Function.update_self]
  · rw [Function.update_of_ne hne]
    exact hothers other hne

theorem ne_nread {owes : Chan → Bool} (h : owes .nwrite = false) (chan : Chan) (hne : chan ≠ .nread) :
    owes chan = false := by
  cases chan with
  | nread => exact absurd rfl hne
  | nwrite => exact h

theorem pipewrite_out_spec {value : Int} (h : owes .nwrite = false) :
    (pipewrite.out value).wp rule (some ⟨pi, owes⟩) Ended :=
  ⟨_, rfl, release_spec (owes_nothing (ne_nread h))⟩

theorem piperead_out_spec {value : Int} (h : owes .nread = false) :
    (piperead.out value).wp rule (some ⟨pi, owes⟩) Ended := by
  refine ⟨_, rfl, release_spec (owes_nothing fun chan hne => ?_)⟩
  cases chan with
  | nread => exact h
  | nwrite => exact absurd rfl hne

theorem pipewrite_loop_spec (n : Int) (rounds i : Nat) (added : Bool) (hnwrite : owes .nwrite = false)
    (hnread : owes .nread = true → added = true ∧ pi.readopen = true) :
    (pipewrite.loop n rounds i added).wp rule (some ⟨pi, owes⟩) Ended := by
  induction rounds generalizing i added pi owes with
  | zero => trivial
  | succ rounds ih =>
      unfold pipewrite.loop
      rw [Program.wp_ite]
      split
      next =>
        apply wp_pipe
        have hgone : (if pi.readopen = false then pure true else killed added).wp rule
            (some ⟨pi, owes⟩) fun gone ghost =>
              (gone = true ∧ ∃ owes', ghost = some ⟨pi, owes'⟩ ∧ ∀ chan, owes' chan = false) ∨
              (gone = false ∧ pi.readopen = true ∧ ghost = some ⟨pi, owes⟩) := by
          split
          next hclosed =>
            refine Or.inl ⟨rfl, owes, rfl, fun chan => ?_⟩
            cases chan with
            | nwrite => exact hnwrite
            | nread =>
                rw [Bool.eq_false_iff]
                intro hno
                rw [(hnread hno).2] at hclosed
                cases hclosed
          next hopen =>
            refine ⟨_, rfl, Or.inr ⟨rfl, Bool.of_not_eq_false hopen, rfl⟩,
              Or.inl ⟨rfl, ?_⟩⟩
            cases added with
            | true => exact ⟨_, rfl, owes_nothing (ne_nread hnwrite)⟩
            | false =>
                refine ⟨owes, rfl, fun chan => ?_⟩
                cases chan with
                | nwrite => exact hnwrite
                | nread => exact Bool.eq_false_iff.mpr fun hno => Bool.false_ne_true (hnread hno).1
        refine Program.wp_seq rule_monotone hgone ?_
        rintro gone _ (⟨rfl, owes', rfl, hnothing⟩ | ⟨rfl, hopen, rfl⟩)
        · exact release_spec hnothing
        · apply wp_pipe
          rw [Program.wp_ite]
          split
          next hfull =>
            exact ⟨_, rfl, wp_sleep (owes_nothing (ne_nread hnwrite)) ⟨hfull, hopen⟩ fun pi =>
              ih i false rfl fun hno => (by cases hno)⟩
          next hroom =>
            intro ch
            cases ch with
            | none => exact pipewrite_out_spec hnwrite
            | some ch =>
                refine ⟨_, rfl, hroom, ih (i + 1) true ?_ fun _ => ⟨rfl, hopen⟩⟩
                rw [Function.update_of_ne (by decide)]
                exact hnwrite
      next => exact pipewrite_out_spec hnwrite

theorem piperead_copy_spec (left i : Nat) (hnread : owes .nread = false) :
    (piperead.copy left i).wp rule (some ⟨pi, owes⟩) Ended := by
  induction left generalizing i pi owes with
  | zero => exact piperead_out_spec hnread
  | succ left ih =>
      unfold piperead.copy
      apply wp_pipe
      rw [Program.wp_ite]
      split
      · exact piperead_out_spec hnread
      next hsome =>
        have hnread' : Function.update owes .nwrite true .nread = false := by
          rw [Function.update_of_ne (by decide)]
          exact hnread
        refine ⟨_, rfl, hsome, fun copied => ?_⟩
        cases copied with
        | false => exact piperead_out_spec hnread'
        | true => exact ih (i + 1) hnread'

theorem piperead_wait_spec (n : Int) (rounds : Nat) :
    (piperead.wait n rounds).wp rule (even pi) Ended := by
  induction rounds generalizing pi with
  | zero => trivial
  | succ rounds ih =>
      unfold piperead.wait
      apply wp_pipe
      rw [Program.wp_ite]
      split
      next hwaits =>
        refine ⟨_, rfl, ?_, ?_⟩
        · exact wp_sleep (fun _ => rfl) hwaits fun pi => ih
        · exact release_spec fun _ => rfl
      · exact piperead_copy_spec n.toNat 0 rfl

theorem call_spec (which : Call) : (call which).wp rule none Ended := by
  cases which with
  | pipewrite n =>
      exact fun rounds => ⟨rfl, fun pi => pipewrite_loop_spec n rounds 0 false rfl fun hno => (by cases hno)⟩
  | piperead n => exact fun rounds => ⟨rfl, fun pi => piperead_wait_spec n rounds⟩
  | pipeclose writable =>
      refine ⟨rfl, fun pi => ⟨_, rfl, _, rfl, release_spec (owes_nothing fun other hne => ?_)⟩⟩
      simp [hne]

end Calls

/-! ### Runs -/

section Runs

variable {ι : Type} [DecidableEq ι]

def system (ι : Type) [DecidableEq ι] :
    Threads.System sections (State ι) ι Int Call (Env ι) where
  handler := handler
  menu _ which _ := some (call which)
  environment := environment

theorem menu_sound : Threads.MenuSound (system ι).menu rule fun _ => Ended := by
  rintro who which value program _ hprogram rfl
  cases hprogram
  exact call_spec which

theorem env_sound : Threads.EnvSound (system ι).environment rule Inv fun _ => Ended := by
  rintro world ⟨who⟩ world' ⟨ghosts, hinv, hwp⟩ hevent
  cases hevent
  refine ⟨ghosts, hinv.same rfl rfl fun p chan hsleeping hchan => ⟨?_, hchan⟩, hwp⟩
  by_cases hne : p = who
  · simp [State.kill, hne] at hsleeping
  · simpa [State.kill, hne] using hsleeping

omit [DecidableEq ι] in
theorem verified_boot : Threads.Verified rule Inv (fun _ => Ended) (boot ι) := by
  refine ⟨fun _ => none, ⟨fun _ chan p hsleeping => ?_, fun who held hheld => ?_⟩, fun who => rfl⟩
  · cases hsleeping
  · cases hheld

/-- While the lock is free, no reader sleeps though there are bytes or no writers, and no writer though
there is room or no reader. -/
def NoLostWakeup (state : State ι) : Prop :=
  state.lock = none → ∀ p, state.sleeping p = true →
    (state.chan p = some .nread →
      ¬(state.pipe.nread ≠ state.pipe.nwrite ∨ state.pipe.writeopen = false)) ∧
    (state.chan p = some .nwrite →
      ¬(state.pipe.count < pipesize ∨ state.pipe.readopen = false))

omit [DecidableEq ι] in
theorem noLostWakeup_of_rests {state : State ι}
    (h : state.lock = none → ∀ chan, Rests state chan) : NoLostWakeup state := by
  intro hlock p hsleeping
  refine ⟨fun hchan => ?_, fun hchan => ?_⟩
  · obtain ⟨hempty, hopen⟩ := h hlock .nread p hsleeping hchan
    rintro (hne | hclosed)
    · exact hne hempty
    · rw [hopen] at hclosed
      cases hclosed
  · obtain ⟨hfull, hopen⟩ := h hlock .nwrite p hsleeping hchan
    rintro (hroom | hclosed)
    · rw [Pipe.count_eq_pipesize.mpr hfull] at hroom
      exact Nat.lt_irrefl _ hroom
    · rw [hopen] at hclosed
      cases hclosed

/-- **No lost wakeups.** In every run in which no writer finds itself killed with a wakeup owed to a
reader that sleeps. -/
theorem noLostWakeup_of_run {actions : List (Threads.Action ι Call (Env ι))}
    {world : Threads sections (State ι) ι Int}
    (hallowed : Transition.Along (Threads.step (system ι)) (Threads.Meets Allowed) (boot ι) actions)
    (hrun : Transition.run (Threads.step (system ι)) (boot ι) actions = some world) :
    NoLostWakeup world.shared := by
  obtain ⟨ghosts, hinv, -⟩ :=
    Threads.sound handler_sound env_sound menu_sound verified_boot hallowed hrun
  exact noLostWakeup_of_rests hinv.rests

end Runs

instance (state : State Bool) (chan : Chan) : Decidable (Deserted state chan) :=
  inferInstanceAs (Decidable (∀ p, state.sleeping p = true → state.chan p ≠ some chan))

instance (state : State Bool) (who : Bool) : (op : sections.Op) → Decidable (Allowed state who op)
  | .killed _ => inferInstanceAs (Decidable (_ → _ → _))
  | .acquire | .release | .pipe | .put _ | .advance | .close _ | .copyin | .copyout _ | .wakeup _
  | .sleep _ | .resume | .clearChan | .sleepPrepare _ | .sleepPrepared | .wakeupPrepared _ | .start
  | .rounds | .stop => isTrue trivial

def steps (who : Bool) (count : Nat) : List (Threads.Action Bool Call (Env Bool)) :=
  List.replicate count (.perform who 3)

def waitAndWrite : List (Threads.Action Bool Call (Env Bool)) :=
  .start false (.piperead 1) :: steps false 5 ++ .start true (.pipewrite 1) :: steps true 8

theorem noLostWakeup_of_run_waitAndWrite :
    ∃ world, Transition.run (Threads.step (system Bool)) (boot Bool) waitAndWrite = some world ∧
      NoLostWakeup world.shared := by
  have hrun : ∃ world, Transition.run (Threads.step (system Bool)) (boot Bool) waitAndWrite =
      some world := by
    rw [← Option.isSome_iff_exists]
    decide +kernel
  obtain ⟨world, hworld⟩ := hrun
  have hallowed : Transition.Along (Threads.step (system Bool)) (Threads.Meets Allowed) (boot Bool)
      waitAndWrite := by
    decide +kernel
  exact ⟨world, hworld, noLostWakeup_of_run hallowed hworld⟩

/-- A process waits for a byte, and another that would write two is killed after the first. -/
def killedWriting : List (Threads.Action Bool Call (Env Bool)) :=
  .start false (.piperead 1) :: steps false 5 ++ .start true (.pipewrite 2) :: steps true 7 ++
    .env (.kill true) :: steps true 3

/-- The reader sleeps on, with the byte in the pipe and the lock free. -/
theorem not_noLostWakeup_killedWriting :
    ∃ world, Transition.run (Threads.step (system Bool)) (boot Bool) killedWriting = some world ∧
      ¬NoLostWakeup world.shared := by
  have hrun : ∃ world ∈ Transition.run (Threads.step (system Bool)) (boot Bool) killedWriting,
      world.shared.lock = none ∧ world.shared.sleeping false = true ∧
        world.shared.chan false = some .nread ∧
          world.shared.pipe.nread ≠ world.shared.pipe.nwrite := by
    decide +kernel
  obtain ⟨world, hworld, hlock, hsleeping, hchan, hne⟩ := hrun
  exact ⟨world, hworld, fun h => (h hlock false hsleeping).1 hchan (Or.inl hne)⟩

end Xv6.Ipc
