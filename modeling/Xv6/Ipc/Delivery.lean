import Xv6.Ipc.Wakeups

/-!
# Lost bytes on a pipe

The shared `pipe.c` takes a byte out of the pipe before it copies it out, and says how many bytes a call
has moved whatever ended it. So a byte is lost where `arch_copyout` fails, and a call that moves nothing
because of a bad address returns 0, not -1. As long as neither happens, what is out of the pipe has been
delivered.
-/

namespace Xv6.Ipc.Delivery

/-- The user address is good enough: a byte can be copied out, and only a call that has moved a byte
fails to copy one in. -/
def Reaches {ι : Type} (state : State ι) (who : ι) : sections.Op → Nat → Prop
  | .copyout _, choice => choice ≠ 0
  | .copyin, choice => choice = 0 → 0 < state.moved who
  | _, _ => True

instance {ι : Type} (state : State ι) (who : ι) :
    (op : sections.Op) → (choice : Nat) → Decidable (Reaches state who op choice)
  | .copyout _, _ => inferInstanceAs (Decidable (¬_ = _))
  | .copyin, _ => inferInstanceAs (Decidable (_ → _))
  | .acquire, _ | .release, _ | .pipe, _ | .put _, _ | .advance, _ | .close _, _ | .killed _, _
  | .wakeup _, _ | .sleep _, _ | .resume, _ | .clearChan, _ | .sleepPrepare _, _ | .sleepPrepared, _
  | .wakeupPrepared _, _ | .start, _ | .rounds, _ | .stop, _ => isTrue trivial

/-! ### What a process knows -/

abbrev Ghost := Option (Pipe × List Byte)

def rule : Rule sections Ghost
  | .acquire, ghost, Q => ghost = none ∧
      ∀ pi : Pipe, pi.count ≤ pipesize → Q () (some (pi, pi.contents))
  | .release, ghost, Q => (∃ pi, ghost = some (pi, pi.contents)) ∧ Q () none
  | .pipe, ghost, Q => ∃ pi rest, ghost = some (pi, rest) ∧ Q pi ghost
  | .put ch, ghost, Q => ∃ pi rest, ghost = some (pi, rest) ∧ pi.count < pipesize ∧
      Q () (some (pi.put ch, rest ++ [ch]))
  | .advance, ghost, Q => ∃ pi rest, ghost = some (pi, rest) ∧ pi.count ≠ 0 ∧
      Q () (some (pi.advance, rest))
  | .copyout ch, ghost, Q => ∃ pi rest, ghost = some (pi, ch :: rest) ∧ Q true (some (pi, rest))
  | .close writable, ghost, Q => ∃ pi rest, ghost = some (pi, rest) ∧
      Q () (some (pi.close writable, rest))
  | .sleep _, ghost, Q => (∃ pi, ghost = some (pi, pi.contents)) ∧ Q () none
  | .sleepPrepare _, _, _ => False
  | .sleepPrepared, _, _ => False
  | .wakeupPrepared _, _, _ => False
  | .stop, _, _ => True
  | _, ghost, Q => ∀ response, Q response ghost

theorem rule_monotone : (rule : Rule sections Ghost).Monotone := by
  intro op ghost post post' hpost h
  cases op with
  | acquire => exact ⟨h.1, fun pi hcount => hpost _ _ (h.2 pi hcount)⟩
  | release | sleep chan => exact ⟨h.1, hpost _ _ h.2⟩
  | pipe =>
      obtain ⟨pi, rest, hheld, hnext⟩ := h
      exact ⟨pi, rest, hheld, hpost _ _ hnext⟩
  | put ch | advance =>
      obtain ⟨pi, rest, hheld, hcount, hnext⟩ := h
      exact ⟨pi, rest, hheld, hcount, hpost _ _ hnext⟩
  | copyout ch | close writable =>
      obtain ⟨pi, rest, hheld, hnext⟩ := h
      exact ⟨pi, rest, hheld, hpost _ _ hnext⟩
  | sleepPrepare chan | sleepPrepared | wakeupPrepared chan => exact h
  | stop => trivial
  | _ => exact fun response => hpost _ _ (h response)

section Inv

variable {ι : Type}

structure Inv (state : State ι) (ghosts : ι → Ghost) : Prop where
  count_le : state.pipe.count ≤ pipesize
  /-- While nobody holds the lock, what is not delivered is in the pipe. -/
  free : state.lock = none → state.accepted = state.delivered ++ state.pipe.contents
  held : ∀ who, state.lock = some who → ∃ rest, ghosts who = some (state.pipe, rest) ∧
    state.accepted = state.delivered ++ rest
  locked : ∀ who, ghosts who ≠ none → state.lock = some who

variable {state state' : State ι} {ghosts : ι → Ghost}

theorem Inv.knows (h : Inv state ghosts) {who : ι} {pi : Pipe} {rest : List Byte}
    (hheld : ghosts who = some (pi, rest)) :
    state.lock = some who ∧ pi = state.pipe ∧ state.accepted = state.delivered ++ rest := by
  have hlock := h.locked who (by rw [hheld]; exact Option.some_ne_none _)
  obtain ⟨rest', hghost, hstream⟩ := h.held who hlock
  obtain ⟨rfl, rfl⟩ := Prod.mk.inj (Option.some.inj (hheld.symm.trans hghost))
  exact ⟨hlock, rfl, hstream⟩

theorem Inv.same (h : Inv state ghosts) (hpipe : state'.pipe = state.pipe)
    (hlock : state'.lock = state.lock) (haccepted : state'.accepted = state.accepted)
    (hdelivered : state'.delivered = state.delivered) : Inv state' ghosts :=
  ⟨by rw [hpipe]; exact h.count_le, by rw [hpipe, hlock, haccepted, hdelivered]; exact h.free,
    by rw [hpipe, hlock, haccepted, hdelivered]; exact h.held, by rw [hlock]; exact h.locked⟩

variable [DecidableEq ι]

theorem Inv.change (h : Inv state ghosts) {who : ι} {rest : List Byte}
    (hlock : state.lock = some who) (hlock' : state'.lock = some who)
    (hcount : state'.pipe.count ≤ pipesize) (hstream : state'.accepted = state'.delivered ++ rest) :
    Inv state' (Function.update ghosts who (some (state'.pipe, rest))) := by
  refine ⟨hcount, fun hnone => ?_, fun other hother => ?_, fun other hother => ?_⟩
  · rw [hlock'] at hnone
    cases hnone
  · obtain rfl := Option.some.inj (hlock'.symm.trans hother)
    exact ⟨rest, Function.update_self .., hstream⟩
  · by_cases hne : other = who
    · exact hne ▸ hlock'
    · rw [Function.update_of_ne hne] at hother
      exact absurd (Option.some.inj (hlock.symm.trans (h.locked other hother))).symm hne

theorem Inv.free_lock (h : Inv state ghosts) {who : ι} (hlock : state.lock = some who)
    (hlock' : state'.lock = none) (hpipe : state'.pipe = state.pipe)
    (hstream : state'.accepted = state'.delivered ++ state.pipe.contents) :
    Inv state' (Function.update ghosts who none) := by
  refine ⟨by rw [hpipe]; exact h.count_le, fun _ => by rw [hpipe]; exact hstream,
    fun other hother => ?_, fun other hother => ?_⟩
  · rw [hlock'] at hother
    cases hother
  · by_cases hne : other = who
    · rw [hne, Function.update_self] at hother
      exact absurd rfl hother
    · rw [Function.update_of_ne hne] at hother
      exact absurd (Option.some.inj (hlock.symm.trans (h.locked other hother))).symm hne

theorem handler_settled : Threads.HandlerSettled (handler : Handler sections (State ι) ι) rule Inv
    Reaches := by
  intro who state ghosts op choice response state' Q hinv hreaches hrule hstep
  have hsame : ∀ {state'' : State ι}, Inv state'' ghosts →
      Inv state'' (Function.update ghosts who (ghosts who)) := by
    intro state'' h
    rwa [Function.update_eq_self]
  cases op with
  | acquire =>
      simp only [handler] at hstep
      split at hstep
      next hfree =>
        cases hstep
        refine ⟨_, hrule.2 state.pipe hinv.count_le, hinv.count_le, fun hnone => (by cases hnone),
          fun other hother => ?_, fun other hother => ?_⟩
        · obtain rfl := Option.some.inj hother
          exact ⟨_, Function.update_self .., hinv.free hfree⟩
        · by_cases hne : other = who
          · exact congrArg some hne.symm
          · rw [Function.update_of_ne hne] at hother
            have hlock := hinv.locked other hother
            rw [hfree] at hlock
            cases hlock
      next => cases hstep
  | release =>
      obtain ⟨⟨pi, hheld⟩, hnext⟩ := hrule
      obtain ⟨hlock, rfl, hstream⟩ := hinv.knows hheld
      cases hstep
      exact ⟨_, hnext, hinv.free_lock hlock rfl rfl hstream⟩
  | sleep chan =>
      obtain ⟨⟨pi, hheld⟩, hnext⟩ := hrule
      obtain ⟨hlock, rfl, hstream⟩ := hinv.knows hheld
      cases hstep
      exact ⟨_, hnext, hinv.free_lock hlock rfl rfl hstream⟩
  | pipe =>
      obtain ⟨pi, rest, hheld, hnext⟩ := hrule
      obtain ⟨-, rfl, -⟩ := hinv.knows hheld
      cases hstep
      exact ⟨_, hnext, hsame hinv⟩
  | put ch =>
      obtain ⟨pi, rest, hheld, hcount, hnext⟩ := hrule
      obtain ⟨hlock, rfl, hstream⟩ := hinv.knows hheld
      cases hstep
      refine ⟨_, hnext, hinv.change hlock hlock ?_ ?_⟩
      · rw [Pipe.count_put ch hcount]
        exact hcount
      · change state.accepted ++ [ch] = state.delivered ++ (rest ++ [ch])
        rw [hstream, List.append_assoc]
  | advance =>
      obtain ⟨pi, rest, hheld, hcount, hnext⟩ := hrule
      obtain ⟨hlock, rfl, hstream⟩ := hinv.knows hheld
      cases hstep
      refine ⟨_, hnext, hinv.change hlock hlock ?_ hstream⟩
      have hle := hinv.count_le
      rw [Pipe.count_advance hcount]
      omega
  | copyout ch =>
      obtain ⟨pi, rest, hheld, hnext⟩ := hrule
      obtain ⟨hlock, rfl, hstream⟩ := hinv.knows hheld
      simp only [handler, if_neg (show choice ≠ 0 from hreaches)] at hstep
      cases hstep
      refine ⟨_, hnext, hinv.change hlock hlock hinv.count_le ?_⟩
      change state.accepted = (state.delivered ++ [ch]) ++ rest
      rw [hstream, List.append_assoc]
      rfl
  | close writable =>
      obtain ⟨pi, rest, hheld, hnext⟩ := hrule
      obtain ⟨hlock, rfl, hstream⟩ := hinv.knows hheld
      cases hstep
      refine ⟨_, hnext, hinv.change hlock hlock ?_ hstream⟩
      have hcount : (state.pipe.close writable).count = state.pipe.count := by
        cases writable <;> rfl
      rw [hcount]
      exact hinv.count_le
  | sleepPrepare chan => exact absurd hrule id
  | sleepPrepared => exact absurd hrule id
  | wakeupPrepared chan => exact absurd hrule id
  | stop => cases hstep
  | resume =>
      simp only [handler] at hstep
      split at hstep
      · cases hstep
      · cases hstep
        exact ⟨_, hrule _, hsame hinv⟩
  | _ =>
      cases hstep
      exact ⟨_, hrule _, hsame (hinv.same rfl rfl rfl rfl)⟩

end Inv

/-! ### The calls -/

abbrev holds (pi : Pipe) : Ghost := some (pi, pi.contents)

def Ended (_ : Int) (ghost : Ghost) : Prop := ghost = none

section Calls

variable {pi : Pipe} {α : Type} {Q : α → Ghost → Prop}

theorem wp_pipe {f : Pipe → Code α} (hnext : (f pi).wp rule (holds pi) Q) :
    (pipe >>= f).wp rule (holds pi) Q := ⟨pi, _, rfl, hnext⟩

theorem release_spec {value : Int} :
    (release >>= fun _ => pure value).wp rule (holds pi) Ended := ⟨⟨pi, rfl⟩, rfl⟩

theorem wp_sleep {chan : Chan} {f : Code α}
    (hnext : ∀ pi : Pipe, pi.count ≤ pipesize → f.wp rule (holds pi) Q) :
    (sleep chan >>= fun _ => f).wp rule (holds pi) Q :=
  ⟨⟨pi, rfl⟩, fun _ _ => ⟨rfl, hnext⟩⟩

theorem pipewrite_out_spec {value : Int} : (pipewrite.out value).wp rule (holds pi) Ended :=
  fun _ => release_spec

theorem piperead_out_spec {value : Int} : (piperead.out value).wp rule (holds pi) Ended :=
  fun _ => release_spec

theorem wp_put {ch : Byte} {f : Code α} (hcount : pi.count < pipesize)
    (hnext : f.wp rule (holds (pi.put ch)) Q) : (put ch >>= fun _ => f).wp rule (holds pi) Q := by
  refine ⟨pi, _, rfl, hcount, ?_⟩
  rw [← Pipe.contents_put ch hcount]
  exact hnext

theorem wp_advance_copyout {f : Bool → Code α} (hcount : pi.count ≠ 0)
    (hnext : (f true).wp rule (holds pi.advance) Q) :
    (advance >>= fun _ => copyout pi.head >>= f).wp rule (holds pi) Q :=
  ⟨pi, _, rfl, hcount, pi.advance, pi.advance.contents,
    by rw [Pipe.contents_of_count_ne_zero hcount], hnext⟩

theorem pipewrite_loop_spec (n : Int) (rounds i : Nat) (added : Bool) (hcount : pi.count ≤ pipesize) :
    (pipewrite.loop n rounds i added).wp rule (holds pi) Ended := by
  induction rounds generalizing i added pi with
  | zero => trivial
  | succ rounds ih =>
      unfold pipewrite.loop
      rw [Program.wp_ite]
      split
      next =>
        apply wp_pipe
        have hgone : (if pi.readopen = false then pure true else killed added).wp rule (holds pi)
            fun _ ghost => ghost = holds pi := by
          split
          · rfl
          · exact fun gone => rfl
        apply Program.wp_seq rule_monotone hgone
        intro gone ghost hghost
        rw [hghost, Program.wp_ite]
        split
        · exact release_spec
        · apply wp_pipe
          rw [Program.wp_ite]
          split
          next => exact fun _ => wp_sleep fun pi hcount => ih i false hcount
          next hroom =>
            intro ch
            cases ch with
            | none => exact pipewrite_out_spec
            | some ch =>
                have hlt : pi.count < pipesize :=
                  Nat.lt_of_le_of_ne hcount fun hfull => hroom (Pipe.count_eq_pipesize.mp hfull)
                apply wp_put hlt
                apply ih (i + 1) true
                rw [Pipe.count_put ch hlt]
                exact hlt
      next => exact pipewrite_out_spec

theorem piperead_copy_spec (left i : Nat) : (piperead.copy left i).wp rule (holds pi) Ended := by
  induction left generalizing i pi with
  | zero => exact piperead_out_spec
  | succ left ih =>
      unfold piperead.copy
      apply wp_pipe
      rw [Program.wp_ite]
      split
      · exact piperead_out_spec
      next hsome =>
        apply wp_advance_copyout fun hzero => hsome (Pipe.count_eq_zero.mp hzero)
        exact ih (i + 1)

theorem piperead_wait_spec (n : Int) (rounds : Nat) :
    (piperead.wait n rounds).wp rule (holds pi) Ended := by
  induction rounds generalizing pi with
  | zero => trivial
  | succ rounds ih =>
      unfold piperead.wait
      apply wp_pipe
      rw [Program.wp_ite]
      split
      · intro gone
        cases gone with
        | false => exact wp_sleep fun pi _ => ih
        | true => exact release_spec
      · exact piperead_copy_spec n.toNat 0

theorem call_spec (which : Call) : (call which).wp rule none Ended := by
  cases which with
  | pipewrite n =>
      exact fun rounds => ⟨rfl, fun pi hcount => pipewrite_loop_spec n rounds 0 false hcount⟩
  | piperead n => exact fun rounds => ⟨rfl, fun pi _ => piperead_wait_spec n rounds⟩
  | pipeclose writable =>
      refine ⟨rfl, fun pi _ => ⟨pi, _, rfl, fun _ => ?_⟩⟩
      have hcontents : (pi.close writable).contents = pi.contents := by
        cases writable <;> rfl
      rw [← hcontents]
      exact release_spec

end Calls

/-! ### Runs -/

section Runs

variable {ι : Type} [DecidableEq ι]

def system (ι : Type) [DecidableEq ι] :
    Threads.System sections (State ι) ι Int Call (Env ι) where
  handler := handler
  menu _ which _ := some (do
    perform .start
    call which)
  environment := environment

abbrev World (ι : Type) := Threads sections (State ι) ι Int

/-- The processes, and whether the last call of each has met a bad user address. -/
structure Watched (ι : Type) where
  world : World ι
  faulted : ι → Bool

/-- What an operation says about the user address. -/
def watch (faulted : ι → Bool) (who : ι) : Option sections.Op → Nat → ι → Bool
  | some .start, _ => Function.update faulted who false
  | some .copyin, choice | some (.copyout _), choice =>
      Function.update faulted who (faulted who || decide (choice = 0))
  | _, _ => faulted

def step : Transition.Step (Watched ι) (Threads.Action ι Call (Env ι))
  | watched, action => (Threads.step (system ι) watched.world action).map fun world =>
      ⟨world, match action with
        | .perform who choice => watch watched.faulted who (watched.world.nextOp who) choice
        | _ => watched.faulted⟩

def start (ι : Type) : Watched ι := ⟨boot ι, fun _ => false⟩

def Good (watched : Watched ι) (action : Threads.Action ι Call (Env ι)) : Prop :=
  Threads.Settles Reaches watched.world action

/-- No byte is lost, and a call that moves none because of a bad address fails. -/
structure NoByteLost (watched : Watched ι) : Prop where
  in_order : watched.world.shared.delivered <+: watched.world.shared.accepted
  count_le : watched.world.shared.pipe.count ≤ pipesize
  /-- Between sections, a byte that has left the pipe has been delivered. -/
  kept : watched.world.shared.lock = none → watched.world.shared.accepted =
    watched.world.shared.delivered ++ watched.world.shared.pipe.contents
  reports : ∀ who value, watched.world.thread who = .ret value → watched.faulted who = true →
    watched.world.shared.moved who = 0 → value = -1

theorem moved_watch {who : ι} {state state' : State ι} {op : sections.Op} {choice : Nat}
    {response : sections.Resp op} {faulted : ι → Bool}
    (hmoved : ∀ p, faulted p = true → 0 < state.moved p) (hreaches : Reaches state who op choice)
    (hstep : handler who state op choice = some (response, state')) (p : ι)
    (hfaulted : watch faulted who (some op) choice p = true) : 0 < state'.moved p := by
  cases op with
  | start =>
      cases hstep
      by_cases hne : p = who
      · rw [hne, watch, Function.update_self] at hfaulted
        cases hfaulted
      · rw [watch, Function.update_of_ne hne] at hfaulted
        change 0 < Function.update state.moved who 0 p
        rw [Function.update_of_ne hne]
        exact hmoved p hfaulted
  | put ch =>
      cases hstep
      change 0 < Function.update state.moved who (state.moved who + 1) p
      by_cases hne : p = who
      · rw [hne, Function.update_self]
        exact Nat.succ_pos _
      · rw [Function.update_of_ne hne]
        exact hmoved p hfaulted
  | copyin =>
      cases hstep
      by_cases hne : p = who
      · rw [hne, watch, Function.update_self, Bool.or_eq_true, decide_eq_true_eq] at hfaulted
        rw [hne]
        cases hfaulted with
        | inl hbefore => exact hmoved who hbefore
        | inr hzero => exact hreaches hzero
      · rw [watch, Function.update_of_ne hne] at hfaulted
        exact hmoved p hfaulted
  | copyout ch =>
      simp only [handler, if_neg (show choice ≠ 0 from hreaches)] at hstep
      cases hstep
      change 0 < Function.update state.moved who (state.moved who + 1) p
      by_cases hne : p = who
      · rw [hne, Function.update_self]
        exact Nat.succ_pos _
      · rw [Function.update_of_ne hne]
        rw [watch, Function.update_of_ne hne] at hfaulted
        exact hmoved p hfaulted
  | acquire =>
      simp only [handler] at hstep
      split at hstep
      next =>
        cases hstep
        exact hmoved p hfaulted
      next => cases hstep
  | resume =>
      simp only [handler] at hstep
      split at hstep
      · cases hstep
      · cases hstep
        exact hmoved p hfaulted
  | stop => cases hstep
  | _ =>
      cases hstep
      exact hmoved p hfaulted

theorem env_sound : Threads.EnvSound (system ι).environment rule Inv fun _ => Ended := by
  rintro world ⟨who⟩ world' ⟨ghosts, hinv, hwp⟩ hevent
  cases hevent
  exact ⟨ghosts, hinv.same rfl rfl rfl rfl, hwp⟩

theorem menu_sound : Threads.MenuSound (system ι).menu rule fun _ => Ended := by
  rintro who which value program ghost hprogram rfl
  cases hprogram
  exact fun _ => call_spec which

structure Kept (watched : Watched ι) : Prop where
  verified : Threads.Verified rule Inv (fun _ => Ended) watched.world
  moved : ∀ who, watched.faulted who = true → 0 < watched.world.shared.moved who

omit [DecidableEq ι] in
theorem kept_start : Kept (start ι) := by
  have hcount : (start ι).world.shared.pipe.count = 0 := Pipe.count_eq_zero.mpr rfl
  refine ⟨⟨fun _ => none, ⟨by rw [hcount]; exact Nat.zero_le _, fun _ => ?_, fun who hlock => ?_,
    fun who hghost => ?_⟩, fun who => rfl⟩, fun who hfaulted => ?_⟩
  · have hempty : (start ι).world.shared.pipe.contents = [] :=
      List.eq_nil_of_length_eq_zero (Pipe.length_contents.trans hcount)
    rw [hempty]
    rfl
  · cases hlock
  · exact absurd rfl hghost
  · cases hfaulted

theorem kept_step {watched watched' : Watched ι} {action : Threads.Action ι Call (Env ι)}
    (hkept : Kept watched) (hgood : Good watched action)
    (hstep : step watched action = some watched') : Kept watched' := by
  unfold step at hstep
  obtain ⟨world, hworld, rfl⟩ := Option.map_eq_some_iff.mp hstep
  refine ⟨Threads.verified_step handler_settled env_sound menu_sound hkept.verified hgood hworld, ?_⟩
  cases action with
  | perform who choice =>
      cases hthread : watched.world.thread who with
      | ret value => simp [Threads.step, Threads.performStep, hthread] at hworld
      | call op next =>
          obtain ⟨response, shared', hresult, rfl⟩ := Threads.performStep_of_call hthread hworld
          have hop : watched.world.nextOp who = some op := by simp [Threads.nextOp, hthread]
          intro p hfaulted
          simp only [hop] at hfaulted
          exact moved_watch hkept.moved (hgood op hop) hresult p hfaulted
  | start who which =>
      obtain ⟨value, program, -, rfl⟩ := Threads.startStep_cases hworld
      exact hkept.moved
  | env event =>
      cases event with
      | kill who =>
          cases hworld
          exact hkept.moved

omit [DecidableEq ι] in
theorem Kept.noByteLost {watched : Watched ι} (h : Kept watched) : NoByteLost watched := by
  obtain ⟨ghosts, hinv, -⟩ := h.verified
  refine ⟨?_, hinv.count_le, hinv.free, fun who value _ hfaulted hzero => ?_⟩
  · cases hlock : watched.world.shared.lock with
    | none => exact ⟨_, (hinv.free hlock).symm⟩
    | some who =>
        obtain ⟨rest, -, hstream⟩ := hinv.held who hlock
        exact ⟨rest, hstream.symm⟩
  · exact absurd hzero (Nat.ne_of_gt (h.moved who hfaulted))

/-- **No byte is lost.** In every run in which no `arch_copyout` fails, and no `arch_copyin` before its
call has moved a byte. -/
theorem noByteLost_of_run {actions : List (Threads.Action ι Call (Env ι))} {watched : Watched ι}
    (hgood : Transition.Along step Good (start ι) actions)
    (hrun : Transition.run step (start ι) actions = some watched) : NoByteLost watched :=
  (Transition.invariant_along (fun _ _ _ => kept_step) kept_start hgood hrun).noByteLost

end Runs

instance (watched : Watched Bool) (action : Threads.Action Bool Call (Env Bool)) :
    Decidable (Good watched action) :=
  inferInstanceAs (Decidable (Threads.Settles Reaches watched.world action))

def steps (who : Bool) (count : Nat) : List (Threads.Action Bool Call (Env Bool)) :=
  List.replicate count (.perform who 3)

/-- A process writes two bytes, the second from a bad address, and another reads the first. -/
def writeAndRead : List (Threads.Action Bool Call (Env Bool)) :=
  .start true (.pipewrite 2) :: steps true 11 ++ .perform true 0 :: steps true 2 ++
    .start false (.piperead 1) :: steps false 9

theorem noByteLost_of_run_writeAndRead :
    ∃ watched, Transition.run step (start Bool) writeAndRead = some watched ∧ NoByteLost watched := by
  have hrun : ∃ watched, Transition.run step (start Bool) writeAndRead = some watched := by
    rw [← Option.isSome_iff_exists]
    decide +kernel
  obtain ⟨watched, hwatched⟩ := hrun
  have hgood : Transition.Along step Good (start Bool) writeAndRead := by
    decide +kernel
  exact ⟨watched, hwatched, noByteLost_of_run hgood hwatched⟩

/-- A process writes a byte, and another reads it to a bad address. -/
def badRead : List (Threads.Action Bool Call (Env Bool)) :=
  .start true (.pipewrite 1) :: steps true 10 ++
    .start false (.piperead 1) :: steps false 6 ++ .perform false 0 :: steps false 2

/-- The byte is out of the pipe and nobody has it, and the reader has returned 0. -/
theorem not_noByteLost_badRead :
    ∃ watched, Transition.run step (start Bool) badRead = some watched ∧ ¬NoByteLost watched := by
  have hrun : ∃ watched ∈ Transition.run step (start Bool) badRead,
      watched.world.shared.lock = none ∧ watched.world.shared.accepted = [3] ∧
        watched.world.shared.delivered ++ watched.world.shared.pipe.contents = [] := by
    decide +kernel
  obtain ⟨watched, hwatched, hlock, haccepted, hnone⟩ := hrun
  refine ⟨watched, hwatched, fun h => ?_⟩
  have hkept := h.kept hlock
  rw [haccepted, hnone] at hkept
  cases hkept

end Xv6.Ipc.Delivery
