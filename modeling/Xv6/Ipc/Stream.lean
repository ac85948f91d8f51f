import Xv6.Ipc.Pipe

/-!
# A pipe is a first-in first-out stream of bytes

`pipewrite` and `piperead` of the riscv64 kernel. Who holds `pi->lock` knows what is in the pipe, and a
byte counts as delivered once `copyout` has succeeded, which is before `nread` moves.
-/

namespace Xv6.Ipc.Riscv64

/-! ### The code -/

def sleep (chan : Chan) : Code Unit := do
  perform (.sleepPrepare chan)
  release
  perform .sleepPrepared
  perform .resume
  acquire

def wakeup (chan : Chan) : Code Unit := perform (.wakeupPrepared chan)

/-- The way out of `pipewrite`, after the loop. -/
def pipewrite.out (i : Int) : Code Int := do
  wakeup .nread
  release
  pure i

/-- The loop of `pipewrite`, with `i` bytes written. -/
def pipewrite.loop (n : Int) : (rounds i : Nat) → Code Int
  | 0, _ => stop
  | rounds + 1, i => do
      if (i : Int) < n then do
        let pi ← pipe
        let gone ← (if pi.readopen = false then pure true else killed false)
        if gone then do
          release
          pure (-1)
        else do
          let pi ← pipe
          if pi.nwrite = pi.nread + BitVec.ofNat 32 pipesize then do
            wakeup .nread
            sleep .nwrite
            loop n rounds i
          else do
            let ch ← copyin
            ch.elim (pipewrite.out (if i = 0 then -1 else i)) fun ch => do
              put ch
              loop n rounds (i + 1)
      else pipewrite.out i

def pipewrite (n : Int) : Code Int := do
  let rounds ← rounds
  acquire
  pipewrite.loop n rounds 0

/-- The way out of `piperead`, after the loop that copies. -/
def piperead.out (i : Int) : Code Int := do
  wakeup .nwrite
  release
  pure i

/-- The loop of `piperead` that copies, with `i` bytes read. -/
def piperead.copy : (left i : Nat) → Code Int
  | 0, i => piperead.out i
  | left + 1, i => do
      let pi ← pipe
      if pi.nread = pi.nwrite then piperead.out i
      else do
        let copied ← copyout pi.head
        if copied then do
          advance
          copy left (i + 1)
        else piperead.out (if i = 0 then -1 else i)

/-- The loop of `piperead` that waits. -/
def piperead.wait (n : Int) : (rounds : Nat) → Code Int
  | 0 => stop
  | rounds + 1 => do
      let pi ← pipe
      if pi.nread = pi.nwrite ∧ pi.writeopen then do
        let gone ← killed false
        if gone then do
          release
          pure (-1)
        else do
          sleep .nread
          wait n rounds
      else piperead.copy n.toNat 0

def piperead (n : Int) : Code Int := do
  let rounds ← rounds
  acquire
  piperead.wait n rounds

def pipeclose (writable : Bool) : Code Int := do
  acquire
  close writable
  wakeup (if writable then .nread else .nwrite)
  release
  pure 0

def call : Call → Code Int
  | .pipewrite n => pipewrite n
  | .piperead n => piperead n
  | .pipeclose writable => pipeclose writable

/-! ### What a process knows -/

structure Ghost where
  held : Option (Pipe × Bool)
  moved : Nat

abbrev Ghost.holds (pi : Pipe) (moved : Nat) : Ghost := ⟨some (pi, false), moved⟩

abbrev Ghost.free (moved : Nat) : Ghost := ⟨none, moved⟩

def rule : Rule sections Ghost
  | .acquire, ghost, Q =>
      ghost.held = none ∧ ∀ pi : Pipe, pi.count ≤ pipesize → Q () (.holds pi ghost.moved)
  | .release, ghost, Q => ∃ pi, ghost.held = some (pi, false) ∧ Q () (.free ghost.moved)
  | .sleep _, _, _ => False
  | .pipe, ghost, Q => ∃ pi copied, ghost.held = some (pi, copied) ∧ Q pi ghost
  | .put ch, ghost, Q => ∃ pi, ghost.held = some (pi, false) ∧ pi.count < pipesize ∧
      Q () (.holds (pi.put ch) (ghost.moved + 1))
  | .copyout ch, ghost, Q => ∃ pi, ghost.held = some (pi, false) ∧ pi.count ≠ 0 ∧ ch = pi.head ∧
      Q false ghost ∧ Q true ⟨some (pi, true), ghost.moved + 1⟩
  | .advance, ghost, Q => ∃ pi, ghost.held = some (pi, true) ∧
      Q () (.holds pi.advance ghost.moved)
  | .close writable, ghost, Q => ∃ pi, ghost.held = some (pi, false) ∧
      Q () (.holds (pi.close writable) ghost.moved)
  | .start, ghost, Q => Q () { ghost with moved := 0 }
  | .stop, _, _ => True
  | _, ghost, Q => ∀ response, Q response ghost

theorem rule_monotone : (rule : Rule sections Ghost).Monotone := by
  intro op ghost post post' hpost h
  cases op with
  | acquire => exact ⟨h.1, fun pi hcount => hpost _ _ (h.2 pi hcount)⟩
  | release =>
      obtain ⟨pi, hheld, hnext⟩ := h
      exact ⟨pi, hheld, hpost _ _ hnext⟩
  | sleep chan => exact h
  | pipe =>
      obtain ⟨pi, copied, hheld, hnext⟩ := h
      exact ⟨pi, copied, hheld, hpost _ _ hnext⟩
  | put ch =>
      obtain ⟨pi, hheld, hcount, hnext⟩ := h
      exact ⟨pi, hheld, hcount, hpost _ _ hnext⟩
  | copyout ch =>
      obtain ⟨pi, hheld, hcount, hch, hfail, hnext⟩ := h
      exact ⟨pi, hheld, hcount, hch, hpost _ _ hfail, hpost _ _ hnext⟩
  | advance =>
      obtain ⟨pi, hheld, hnext⟩ := h
      exact ⟨pi, hheld, hpost _ _ hnext⟩
  | close writable =>
      obtain ⟨pi, hheld, hnext⟩ := h
      exact ⟨pi, hheld, hpost _ _ hnext⟩
  | start => exact hpost _ _ h
  | stop => trivial
  | _ => exact fun response => hpost _ _ (h response)

/-! ### The stream -/

def undelivered (pi : Pipe) (copied : Bool) : List Byte :=
  if copied then pi.advance.contents else pi.contents

section Inv

variable {ι : Type} [DecidableEq ι]

structure Inv (state : State ι) (ghosts : ι → Ghost) : Prop where
  count_le : state.pipe.count ≤ pipesize
  stream : ∃ copied : Bool, (copied = true → state.pipe.count ≠ 0) ∧
    state.accepted = state.delivered ++ undelivered state.pipe copied ∧
    (state.lock = none → copied = false) ∧
    ∀ who, state.lock = some who → (ghosts who).held = some (state.pipe, copied)
  locked : ∀ who, (ghosts who).held ≠ none → state.lock = some who
  moved : ∀ who, (ghosts who).moved = state.moved who

variable {state state' : State ι} {ghosts : ι → Ghost}

omit [DecidableEq ι] in
theorem Inv.held (h : Inv state ghosts) {who : ι} {held : Pipe × Bool}
    (hheld : (ghosts who).held = some held) :
    state.lock = some who ∧ state.pipe = held.1 ∧ (held.2 = true → state.pipe.count ≠ 0) ∧
      state.accepted = state.delivered ++ undelivered state.pipe held.2 := by
  have hlock := h.locked who (by rw [hheld]; exact Option.some_ne_none _)
  obtain ⟨copied, hcount, hstream, -, hghost⟩ := h.stream
  have heq := Option.some.inj (hheld.symm.trans (hghost who hlock))
  rw [heq]
  exact ⟨hlock, rfl, hcount, hstream⟩

theorem moved_update {moved : ι → Nat} (h : ∀ other, (ghosts other).moved = moved other) (who : ι)
    (ghost : Ghost) (other : ι) :
    (Function.update ghosts who ghost other).moved = Function.update moved who ghost.moved other := by
  by_cases hne : other = who
  · rw [hne, Function.update_self, Function.update_self]
  · rw [Function.update_of_ne hne, Function.update_of_ne hne, h other]

theorem moved_update_eq {moved : ι → Nat} (h : ∀ other, (ghosts other).moved = moved other) {who : ι}
    {ghost : Ghost} (hghost : ghost.moved = (ghosts who).moved) (other : ι) :
    (Function.update ghosts who ghost other).moved = moved other := by
  rw [moved_update h, hghost, h who, Function.update_eq_self]

theorem Inv.change (h : Inv state ghosts) {who : ι} {ghost : Ghost} {copied : Bool}
    (hlock : state.lock = some who) (hlock' : state'.lock = some who)
    (hmoved : state'.moved = Function.update state.moved who ghost.moved)
    (hheld : ghost.held = some (state'.pipe, copied)) (hcount : state'.pipe.count ≤ pipesize)
    (hcopied : copied = true → state'.pipe.count ≠ 0)
    (hstream : state'.accepted = state'.delivered ++ undelivered state'.pipe copied) :
    Inv state' (Function.update ghosts who ghost) := by
  refine ⟨hcount, ⟨copied, hcopied, hstream, fun hnone => ?_, fun other hother => ?_⟩,
    fun other hother => ?_, fun other => ?_⟩
  · rw [hlock'] at hnone
    cases hnone
  · obtain rfl := Option.some.inj (hlock'.symm.trans hother)
    rw [Function.update_self]
    exact hheld
  · by_cases hne : other = who
    · exact hne ▸ hlock'
    · rw [Function.update_of_ne hne] at hother
      obtain rfl := Option.some.inj (hlock.symm.trans (h.locked other hother))
      exact absurd rfl hne
  · rw [hmoved]
    exact moved_update h.moved who ghost other

omit [DecidableEq ι] in
/-- A section that says nothing about the pipe, the lock and the stream. -/
theorem Inv.same (h : Inv state ghosts) (hpipe : state'.pipe = state.pipe)
    (hlock : state'.lock = state.lock) (haccepted : state'.accepted = state.accepted)
    (hdelivered : state'.delivered = state.delivered) (hmoved : state'.moved = state.moved) :
    Inv state' ghosts :=
  ⟨by rw [hpipe]; exact h.count_le, by rw [hpipe, hlock, haccepted, hdelivered]; exact h.stream,
    by rw [hlock]; exact h.locked, by rw [hmoved]; exact h.moved⟩

theorem handler_sound : Threads.HandlerSound (handler : Handler sections (State ι) ι) rule Inv
    fun _ _ _ => True := by
  intro who state ghosts op choice response state' Q hinv _ hrule hstep
  have hsame : ∀ {state'' : State ι}, Inv state'' ghosts →
      Inv state'' (Function.update ghosts who (ghosts who)) := by
    intro state'' h
    rwa [Function.update_eq_self]
  cases op with
  | acquire =>
      simp only [handler] at hstep
      split at hstep
      next hfree =>
        cases hstep
        obtain ⟨copied, hcount, hstream, hnone, -⟩ := hinv.stream
        obtain rfl := hnone hfree
        refine ⟨_, hrule.2 _ hinv.count_le, hinv.count_le, ⟨false, hcount, hstream, ?_, ?_⟩, ?_, ?_⟩
        · rintro ⟨⟩
        · intro other hother
          obtain rfl := Option.some.inj hother
          rw [Function.update_self]
        · intro other hother
          by_cases hne : other = who
          · exact congrArg some hne.symm
          · rw [Function.update_of_ne hne] at hother
            have hlock := hinv.locked other hother
            rw [hfree] at hlock
            cases hlock
        · exact moved_update_eq hinv.moved rfl
      next => cases hstep
  | release =>
      obtain ⟨pi, hheld, hnext⟩ := hrule
      obtain ⟨hlock, rfl, -, hstream⟩ := hinv.held hheld
      cases hstep
      refine ⟨_, hnext, hinv.count_le, ⟨false, fun h => (by cases h), hstream, fun _ => rfl, ?_⟩, ?_, ?_⟩
      · rintro other ⟨⟩
      · intro other hother
        by_cases hne : other = who
        · rw [hne, Function.update_self] at hother
          exact absurd rfl hother
        · rw [Function.update_of_ne hne] at hother
          exact absurd (Option.some.inj (hlock.symm.trans (hinv.locked other hother))).symm hne
      · exact moved_update_eq hinv.moved rfl
  | sleep chan => exact absurd hrule id
  | pipe =>
      obtain ⟨pi, copied, hheld, hnext⟩ := hrule
      obtain ⟨-, rfl, -⟩ := hinv.held hheld
      cases hstep
      exact ⟨_, hnext, hsame hinv⟩
  | put ch =>
      obtain ⟨pi, hheld, hcount, hnext⟩ := hrule
      obtain ⟨hlock, rfl, -, hstream⟩ := hinv.held hheld
      cases hstep
      refine ⟨_, hnext, hinv.change hlock hlock ?_ rfl ?_ (fun h => (by cases h)) ?_⟩
      · rw [hinv.moved who]
      · rw [Pipe.count_put ch hcount]
        omega
      · change state.accepted ++ [ch] = state.delivered ++ (state.pipe.put ch).contents
        rw [hstream, Pipe.contents_put ch hcount, List.append_assoc]
        rfl
  | copyout ch =>
      obtain ⟨pi, hheld, hcount, rfl, hfail, hnext⟩ := hrule
      obtain ⟨hlock, rfl, -, hstream⟩ := hinv.held hheld
      simp only [handler] at hstep
      split at hstep
      · cases hstep
        exact ⟨_, hfail, hsame hinv⟩
      · cases hstep
        refine ⟨_, hnext, hinv.change hlock hlock ?_ rfl hinv.count_le (fun _ => hcount) ?_⟩
        · rw [hinv.moved who]
        · change state.accepted = (state.delivered ++ [state.pipe.head]) ++ state.pipe.advance.contents
          rw [hstream, List.append_assoc]
          exact congrArg _ (Pipe.contents_of_count_ne_zero hcount)
  | advance =>
      obtain ⟨pi, hheld, hnext⟩ := hrule
      obtain ⟨hlock, rfl, hcount, hstream⟩ := hinv.held hheld
      cases hstep
      refine ⟨_, hnext, hinv.change hlock hlock ?_ rfl ?_ (fun h => (by cases h)) hstream⟩
      · rw [hinv.moved who, Function.update_eq_self]
      · have hle := hinv.count_le
        rw [Pipe.count_advance (hcount rfl)]
        omega
  | close writable =>
      obtain ⟨pi, hheld, hnext⟩ := hrule
      obtain ⟨hlock, rfl, -, hstream⟩ := hinv.held hheld
      cases hstep
      have hcontents : (state.pipe.close writable).count = state.pipe.count ∧
          (state.pipe.close writable).contents = state.pipe.contents := by
        cases writable <;> exact ⟨rfl, rfl⟩
      refine ⟨_, hnext, hinv.change hlock hlock ?_ rfl ?_ (fun h => (by cases h)) ?_⟩
      · rw [hinv.moved who, Function.update_eq_self]
      · rw [hcontents.1]
        exact hinv.count_le
      · change state.accepted = state.delivered ++ (state.pipe.close writable).contents
        rw [hcontents.2]
        exact hstream
  | start =>
      cases hstep
      refine ⟨_, hrule, hinv.count_le, ?_, ?_, ?_⟩
      · obtain ⟨copied, hcount, hstream, hnone, hghost⟩ := hinv.stream
        refine ⟨copied, hcount, hstream, hnone, fun other hother => ?_⟩
        by_cases hne : other = who
        · rw [hne, Function.update_self]
          exact hghost who (hne ▸ hother)
        · rw [Function.update_of_ne hne]
          exact hghost other hother
      · intro other hother
        by_cases hne : other = who
        · rw [hne, Function.update_self] at hother
          exact hne ▸ hinv.locked who hother
        · rw [Function.update_of_ne hne] at hother
          exact hinv.locked other hother
      · exact moved_update hinv.moved who _
  | stop => cases hstep
  | resume =>
      simp only [handler] at hstep
      split at hstep
      · cases hstep
      · cases hstep
        exact ⟨_, hrule _, hsame hinv⟩
  | _ =>
      cases hstep
      exact ⟨_, hrule _, hsame (hinv.same rfl rfl rfl rfl rfl)⟩

end Inv

/-! ### The calls -/

def Returned (value : Int) (ghost : Ghost) : Prop :=
  ghost.held = none ∧ (0 ≤ value → value = ghost.moved)

section Calls

variable {moved : Nat} {pi : Pipe} {α : Type} {Q : α → Ghost → Prop}

theorem wp_pipe {f : Pipe → Code α} (hnext : (f pi).wp rule (.holds pi moved) Q) :
    (pipe >>= f).wp rule (.holds pi moved) Q := ⟨pi, false, rfl, hnext⟩

theorem wp_killed {added : Bool} {f : Bool → Code α}
    (hnext : ∀ gone, (f gone).wp rule (.holds pi moved) Q) :
    (killed added >>= f).wp rule (.holds pi moved) Q := hnext

theorem wp_copyin {f : Option Byte → Code α} (hnext : ∀ ch, (f ch).wp rule (.holds pi moved) Q) :
    (copyin >>= f).wp rule (.holds pi moved) Q := hnext

theorem wp_put {ch : Byte} {f : Code α} (hcount : pi.count < pipesize)
    (hnext : f.wp rule (.holds (pi.put ch) (moved + 1)) Q) :
    (put ch >>= fun _ => f).wp rule (.holds pi moved) Q := ⟨pi, rfl, hcount, hnext⟩

theorem wp_copyout {f : Bool → Code α} (hcount : pi.count ≠ 0)
    (hfail : (f false).wp rule (.holds pi moved) Q)
    (hnext : (f true).wp rule ⟨some (pi, true), moved + 1⟩ Q) :
    (copyout pi.head >>= f).wp rule (.holds pi moved) Q := ⟨pi, rfl, hcount, rfl, hfail, hnext⟩

theorem wp_advance {f : Code α} (hnext : f.wp rule (.holds pi.advance moved) Q) :
    (advance >>= fun _ => f).wp rule ⟨some (pi, true), moved⟩ Q := ⟨pi, rfl, hnext⟩

theorem release_spec {value : Int} (hvalue : 0 ≤ value → value = moved) :
    (release >>= fun _ => pure value).wp rule (.holds pi moved) Returned := ⟨pi, rfl, rfl, hvalue⟩

theorem wp_sleep (chan : Chan) {f : Code α}
    (hnext : ∀ pi : Pipe, pi.count ≤ pipesize → f.wp rule (.holds pi moved) Q) :
    (sleep chan >>= fun _ => f).wp rule (.holds pi moved) Q :=
  fun _ => ⟨pi, rfl, fun _ _ => ⟨rfl, hnext⟩⟩

theorem pipewrite_out_spec {value : Int} (hvalue : 0 ≤ value → value = moved) :
    (pipewrite.out value).wp rule (.holds pi moved) Returned :=
  fun _ => ⟨pi, rfl, rfl, hvalue⟩

theorem piperead_out_spec {value : Int} (hvalue : 0 ≤ value → value = moved) :
    (piperead.out value).wp rule (.holds pi moved) Returned :=
  fun _ => ⟨pi, rfl, rfl, hvalue⟩

theorem failed_eq (i : Nat) : 0 ≤ (if i = 0 then -1 else (i : Int)) →
    (if i = 0 then -1 else (i : Int)) = i := by
  intro h
  split at h
  · exact absurd h (by decide)
  next hi => rw [if_neg hi]

theorem pipewrite_loop_spec (n : Int) (rounds i : Nat) (hcount : pi.count ≤ pipesize) :
    (pipewrite.loop n rounds i).wp rule (.holds pi i) Returned := by
  induction rounds generalizing i pi with
  | zero => trivial
  | succ rounds ih =>
      unfold pipewrite.loop
      rw [Program.wp_ite]
      split
      next hlt =>
        apply wp_pipe
        have hgone : (if pi.readopen = false then pure true else killed false).wp rule (.holds pi i)
            fun _ ghost => ghost = .holds pi i := by
          split
          · rfl
          · exact fun _ => rfl
        refine Program.wp_seq rule_monotone hgone ?_
        rintro gone _ rfl
        rw [Program.wp_ite]
        split
        · exact release_spec fun h => absurd h (by decide)
        · apply wp_pipe
          rw [Program.wp_ite]
          split
          · exact fun _ => wp_sleep .nwrite fun pi hcount => ih i hcount
          next hfull =>
            have hroom : pi.count < pipesize :=
              Nat.lt_of_le_of_ne hcount fun heq => hfull (Pipe.count_eq_pipesize.mp heq)
            refine wp_copyin fun ch => ?_
            cases ch with
            | none => exact pipewrite_out_spec (failed_eq i)
            | some ch =>
                refine wp_put hroom (ih (i + 1) ?_)
                rw [Pipe.count_put ch hroom]
                exact hroom
      next => exact pipewrite_out_spec fun _ => rfl

theorem piperead_copy_spec (left i : Nat) (hcount : pi.count ≤ pipesize) :
    (piperead.copy left i).wp rule (.holds pi i) Returned := by
  induction left generalizing i pi with
  | zero => exact piperead_out_spec fun _ => rfl
  | succ left ih =>
      unfold piperead.copy
      apply wp_pipe
      rw [Program.wp_ite]
      split
      · exact piperead_out_spec fun _ => rfl
      next hne =>
        have hsome : pi.count ≠ 0 := fun hzero => hne (Pipe.count_eq_zero.mp hzero)
        refine wp_copyout hsome (piperead_out_spec (failed_eq i)) (wp_advance (ih (i + 1) ?_))
        rw [Pipe.count_advance hsome]
        omega

theorem piperead_wait_spec (n : Int) (rounds : Nat) (hcount : pi.count ≤ pipesize) :
    (piperead.wait n rounds).wp rule (.holds pi 0) Returned := by
  induction rounds generalizing pi with
  | zero => trivial
  | succ rounds ih =>
      unfold piperead.wait
      apply wp_pipe
      rw [Program.wp_ite]
      split
      · refine wp_killed fun gone => ?_
        rw [Program.wp_ite]
        split
        · exact release_spec fun h => absurd h (by decide)
        · exact wp_sleep .nread fun pi hcount => ih hcount
      · exact piperead_copy_spec n.toNat 0 hcount

theorem call_spec (which : Call) : (call which).wp rule (.free 0) Returned := by
  cases which with
  | pipewrite n => exact fun rounds => ⟨rfl, fun pi hcount => pipewrite_loop_spec n rounds 0 hcount⟩
  | piperead n => exact fun rounds => ⟨rfl, fun pi hcount => piperead_wait_spec n rounds hcount⟩
  | pipeclose writable =>
      exact ⟨rfl, fun pi _ => ⟨pi, rfl, fun _ => ⟨_, rfl, rfl, fun _ => rfl⟩⟩⟩

end Calls

/-! ### Runs -/

section Runs

variable {ι : Type} [DecidableEq ι]

def system (ι : Type) [DecidableEq ι] :
    Threads.System sections (State ι) ι Int Call (Env ι) where
  handler := handler
  menu _ which _ := some do
    perform .start
    call which
  environment := environment

theorem menu_sound : Threads.MenuSound (system ι).menu rule fun _ => Returned := by
  intro who which value program ghost hprogram hreturned
  cases hprogram
  obtain ⟨held, moved⟩ := ghost
  obtain rfl := hreturned.1
  exact call_spec which

theorem env_sound : Threads.EnvSound (system ι).environment rule Inv fun _ => Returned := by
  rintro world ⟨who⟩ world' ⟨ghosts, hinv, hwp⟩ hevent
  cases hevent
  exact ⟨ghosts, hinv.same rfl rfl rfl rfl rfl, hwp⟩

omit [DecidableEq ι] in
theorem verified_boot : Threads.Verified rule Inv (fun _ => Returned) (boot ι) := by
  have hcontents : Pipe.empty.contents = [] :=
    List.length_eq_zero_iff.mp (Pipe.length_contents.trans (Pipe.count_eq_zero.mpr rfl))
  have hcount : Pipe.empty.count ≤ pipesize := by
    rw [Pipe.count_eq_zero.mpr rfl]
    exact Nat.zero_le _
  refine ⟨fun _ => .free 0, ⟨hcount, ⟨false, ?_, ?_, fun _ => rfl, ?_⟩, ?_, fun _ => rfl⟩,
    fun who => ⟨rfl, fun _ => rfl⟩⟩
  · rintro ⟨⟩
  · change [] = [] ++ Pipe.empty.contents
    rw [hcontents]
    rfl
  · rintro who ⟨⟩
  · exact fun who hheld => absurd rfl hheld

/-- A pipe is a stream: what readers got is a prefix of what writers put in. -/
structure Stream (world : Threads sections (State ι) ι Int) : Prop where
  isPrefix : world.shared.delivered <+: world.shared.accepted
  /-- The pipe never holds more than it has room for. -/
  count_le : world.shared.pipe.count ≤ pipesize
  length_le : world.shared.accepted.length ≤ world.shared.delivered.length + pipesize
  /-- Outside the sections, what is accepted and not delivered is what is in the pipe, in this order. -/
  contents : world.shared.lock = none →
    world.shared.accepted = world.shared.delivered ++ world.shared.pipe.contents ∧
      world.shared.accepted.length - world.shared.delivered.length = world.shared.pipe.count
  /-- A call that has returned without failing says how many bytes it moved. -/
  returned : ∀ who value, world.thread who = .ret value → 0 ≤ value → value = world.shared.moved who

/-- **Pipes are streams.** In every run of calls on a pipe. -/
theorem stream_of_run {actions : List (Threads.Action ι Call (Env ι))}
    {world : Threads sections (State ι) ι Int}
    (hrun : Transition.run (Threads.step (system ι)) (boot ι) actions = some world) :
    Stream world := by
  obtain ⟨ghosts, hinv, hwp⟩ := Threads.sound_run handler_sound env_sound menu_sound verified_boot hrun
  obtain ⟨copied, hcopied, hstream, hfree, -⟩ := hinv.stream
  have hle := hinv.count_le
  have hlength : (undelivered world.shared.pipe copied).length ≤ world.shared.pipe.count := by
    unfold undelivered
    split
    next htrue =>
      rw [Pipe.length_contents, Pipe.count_advance (hcopied htrue)]
      exact Nat.sub_le _ _
    next => exact Nat.le_of_eq Pipe.length_contents
  refine ⟨⟨_, hstream.symm⟩, hle, ?_, fun hlock => ?_, fun who value hret hvalue => ?_⟩
  · rw [hstream, List.length_append]
    omega
  · obtain rfl := hfree hlock
    have hcontents : world.shared.accepted = world.shared.delivered ++ world.shared.pipe.contents :=
      hstream
    refine ⟨hcontents, ?_⟩
    rw [hcontents, List.length_append, Pipe.length_contents]
    omega
  · have hpost := hwp who
    rw [hret] at hpost
    exact (hpost.2 hvalue).trans (congrArg _ (hinv.moved who))

end Runs

def steps (who : Bool) (count : Nat) : List (Threads.Action Bool Call (Env Bool)) :=
  List.replicate count (.perform who 3)

def writeAndRead : List (Threads.Action Bool Call (Env Bool)) :=
  .start true (.pipewrite 2) :: steps true 15 ++ .start false (.piperead 1) :: steps false 9

theorem stream_of_run_writeAndRead :
    ∃ world, Transition.run (Threads.step (system Bool)) (boot Bool) writeAndRead = some world ∧
      Stream world := by
  have hrun : ∃ world, Transition.run (Threads.step (system Bool)) (boot Bool) writeAndRead =
      some world := by
    rw [← Option.isSome_iff_exists]
    decide +kernel
  obtain ⟨world, hworld⟩ := hrun
  exact ⟨world, hworld, stream_of_run hworld⟩

end Xv6.Ipc.Riscv64
