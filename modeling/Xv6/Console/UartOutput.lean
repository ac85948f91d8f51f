import Mathlib.Data.Fintype.Basic
import Xv6.Console.Uart

/-!
# What the UART sends

The bytes that `uartputc` stores are written to `DR` in order and once. They may get stuck: `uartintr` clears the interrupt
after it has looked at the FIFO, and the interrupt may have come in between. Where this does not happen, a byte that waits
has the interrupt, or a FIFO to be drained.
-/

namespace Xv6.Uart

attribute [local instance] neZero_txBufSize

/-! ### What a processor knows -/

/-- The ring while it holds the lock, the byte that is out of the ring and not in `DR`, whether it has yet to wake those that
wait for room, and what `handling` and `due` say about it. -/
structure Ghost where
  held : Option Tx
  flying : Option Byte
  waking : Bool
  handling : Bool
  due : Bool

def idle : Ghost := ⟨none, none, false, false, false⟩

/-- It holds the lock, and all bytes are in the ring or in `DR`. -/
abbrev holding (tx : Tx) (handling due : Bool) : Ghost := ⟨some tx, none, false, handling, due⟩

def rule : Rule registers Ghost
  | .acquire, ghost, Q => ghost.held = none ∧ ∀ tx : Tx, tx.count ≤ txBufSize → Q () { ghost with held := some tx }
  | .release, ghost, Q => ghost.held ≠ none ∧ ghost.flying = none ∧ ghost.waking = false ∧ ghost.due = false ∧
      Q () { ghost with held := none }
  | .full, ghost, Q => ∃ tx, ghost.held = some tx ∧ (tx.count = txBufSize → Q true ghost) ∧
      (tx.count ≠ txBufSize → Q false ghost)
  | .sleep, ghost, Q => ∃ tx, ghost = holding tx false false ∧ tx.count = txBufSize ∧ Q () idle
  | .put c, ghost, Q => ∃ tx, ghost.held = some tx ∧ tx.count < txBufSize ∧ ghost.flying = none ∧
      Q () { ghost with held := some (tx.put c), due := true }
  | .empty, ghost, Q => ∃ tx, ghost.held = some tx ∧ (tx.nwrite = tx.nread → Q true { ghost with due := false }) ∧
      (tx.nwrite ≠ tx.nread → Q false ghost)
  | .txff, ghost, Q => Q true { ghost with due := false } ∧ Q false ghost
  | .head, ghost, Q => ∃ tx, ghost.held = some tx ∧ Q tx.head ghost
  | .advance, ghost, Q => ∃ tx, ghost.held = some tx ∧ tx.nwrite ≠ tx.nread ∧ ghost.flying = none ∧
      Q () { ghost with held := some tx.advance, flying := some tx.head, waking := true }
  | .wakeup, ghost, Q => ghost.held ≠ none ∧ Q () { ghost with waking := false }
  | .send c, ghost, Q => ghost.flying = some c ∧ Q () { ghost with flying := none }
  | .enter, ghost, Q => ghost = idle ∧ Q () ⟨none, none, false, true, true⟩
  | .clear, ghost, Q => ghost = ⟨none, none, false, true, false⟩ ∧ Q () idle
  | .stop, _, _ => True
  | .never, _, _ => False
  | _, ghost, Q => ∀ response, Q response ghost

theorem rule_monotone : (rule : Rule registers Ghost).Monotone := by
  intro op ghost post post' hpost h
  cases op with
  | acquire => exact ⟨h.1, fun tx hcount => hpost _ _ (h.2 tx hcount)⟩
  | release => exact ⟨h.1, h.2.1, h.2.2.1, h.2.2.2.1, hpost _ _ h.2.2.2.2⟩
  | head =>
      obtain ⟨tx, hheld, hnext⟩ := h
      exact ⟨tx, hheld, hpost _ _ hnext⟩
  | sleep =>
      obtain ⟨tx, hheld, hcount, hnext⟩ := h
      exact ⟨tx, hheld, hcount, hpost _ _ hnext⟩
  | put c | advance =>
      obtain ⟨tx, hheld, hcount, hflying, hnext⟩ := h
      exact ⟨tx, hheld, hcount, hflying, hpost _ _ hnext⟩
  | full | empty =>
      obtain ⟨tx, hheld, hyes, hno⟩ := h
      exact ⟨tx, hheld, fun heq => hpost _ _ (hyes heq), fun hne => hpost _ _ (hno hne)⟩
  | txff => exact ⟨hpost _ _ h.1, hpost _ _ h.2⟩
  | wakeup | send c | enter | clear => exact ⟨h.1, hpost _ _ h.2⟩
  | stop => trivial
  | never => exact h
  | _ => exact fun response => hpost _ _ (h response)

/-! ### The code -/

section Specs

theorem uartstartFrom_spec {tx : Tx} {handling due : Bool} {rounds : Nat} (hcount : tx.count < rounds)
    (hsize : tx.count ≤ txBufSize) :
    (uartstartFrom rounds).wp rule (holding tx handling due) fun _ ghost =>
      ∃ tx' : Tx, tx'.count ≤ txBufSize ∧ ghost = holding tx' handling false := by
  induction rounds generalizing tx with
  | zero => exact absurd hcount (Nat.not_lt_zero _)
  | succ rounds ih =>
      refine ⟨tx, rfl, fun _ => ⟨tx, hsize, rfl⟩, fun hne => ?_⟩
      refine ⟨⟨tx, hsize, rfl⟩, tx, rfl, tx, rfl, hne, rfl, Option.some_ne_none _, rfl, ?_⟩
      obtain ⟨n, hn⟩ := Nat.exists_eq_succ_of_ne_zero fun hzero => hne (CircularBuffer.count_eq_zero.mp hzero)
      have hadvance : tx.advance.count = n := CircularBuffer.count_advance hn
      exact ih (by omega) (by omega)

theorem uartstart_spec {tx : Tx} {handling due : Bool} (hsize : tx.count ≤ txBufSize) :
    uartstart.wp rule (holding tx handling due) fun _ ghost =>
      ∃ tx' : Tx, tx'.count ≤ txBufSize ∧ ghost = holding tx' handling false :=
  uartstartFrom_spec (Nat.lt_succ_of_le hsize) hsize

theorem uartputcFrom_spec {tx : Tx} (c : Byte) (rounds : Nat) (hsize : tx.count ≤ txBufSize) :
    (uartputcFrom c rounds).wp rule (holding tx false false) fun _ ghost => ghost = idle := by
  induction rounds generalizing tx with
  | zero => trivial
  | succ rounds ih =>
      refine ⟨tx, rfl, fun hfull => ?_, fun hroom => ?_⟩
      · exact ⟨tx, rfl, hfull, fun _ => ⟨rfl, fun tx' hsize' => ih hsize'⟩⟩
      · have hlt : tx.count < txBufSize := Nat.lt_of_le_of_ne hsize hroom
        have hput : (tx.put c).count = tx.count + 1 := CircularBuffer.count_put c hlt (by decide)
        refine ⟨tx, rfl, hlt, rfl, ?_⟩
        change (uartstart >>= fun _ => perform .release).wp rule (holding (tx.put c) false true) _
        apply Program.wp_seq rule_monotone (uartstart_spec (by omega))
        rintro _ _ ⟨tx', -, rfl⟩
        exact ⟨Option.some_ne_none _, rfl, rfl, rfl, rfl⟩

theorem uartputc_spec (c : Byte) : (uartputc c).wp rule idle fun _ ghost => ghost = idle := by
  refine ⟨rfl, fun tx hsize panicked => ?_⟩
  cases panicked with
  | true => trivial
  | false => exact fun rounds => uartputcFrom_spec c rounds hsize

theorem uartputcSync_spec (c : Byte) (ghost : Ghost) :
    (uartputcSync c).wp rule ghost fun _ ghost' => ghost' = ghost := by
  intro panicked
  cases panicked with
  | true => trivial
  | false => exact fun _ _ => rfl

theorem consoleintr_spec (rounds : Nat) (ghost : Ghost) :
    (consoleintr rounds).wp rule ghost fun _ ghost' => ghost' = ghost := by
  induction rounds with
  | zero => rfl
  | succ rounds ih =>
      intro c
      change (uartputcSync c >>= fun _ => consoleintr rounds).wp rule ghost _
      apply Program.wp_seq rule_monotone (uartputcSync_spec c ghost)
      rintro _ _ rfl
      exact ih

theorem uartintrFrom_spec (rounds : Nat) (ghost : Ghost) :
    (uartintrFrom rounds).wp rule ghost fun _ ghost' => ghost' = ghost := by
  induction rounds with
  | zero => trivial
  | succ rounds ih =>
      intro empty
      cases empty with
      | true => rfl
      | false =>
          intro _ echoes
          change (consoleintr echoes >>= fun _ => uartintrFrom rounds).wp rule ghost _
          apply Program.wp_seq rule_monotone (consoleintr_spec echoes ghost)
          rintro _ _ rfl
          exact ih

theorem uartintr_spec : uartintr.wp rule idle fun _ ghost => ghost = idle := by
  refine ⟨rfl, fun rounds => ?_⟩
  have hrest : (do
      perform .acquire
      uartstart
      perform .release
      perform .clear : Code Unit).wp rule ⟨none, none, false, true, true⟩ fun _ ghost => ghost = idle := by
    refine ⟨rfl, fun tx hsize => ?_⟩
    change (uartstart >>= fun _ => perform .release >>= fun _ => perform .clear).wp rule (holding tx true true) _
    apply Program.wp_seq rule_monotone (uartstart_spec hsize)
    rintro _ _ ⟨tx', -, rfl⟩
    exact ⟨Option.some_ne_none _, rfl, rfl, rfl, rfl, rfl⟩
  change (uartintrFrom rounds >>= fun _ => _).wp rule _ _
  apply Program.wp_seq rule_monotone (uartintrFrom_spec rounds _)
  rintro _ _ rfl
  exact hrest

end Specs

/-! ### The invariant -/

section Inv

variable {ι : Type} {fifo : Fifo}

/-- The byte that is out of the ring and not in `DR`. -/
def onItsWay (state : State ι) (ghosts : ι → Ghost) : Option Byte := state.lock.bind fun who => (ghosts who).flying

structure Inv (fifo : Fifo) (state : State ι) (ghosts : ι → Ghost) : Prop where
  count_le : state.tx.count ≤ txBufSize
  stream : state.stored = state.sent ++ (onItsWay state ghosts).toList ++ state.tx.contents
  held : ∀ {who tx}, (ghosts who).held = some tx → state.lock = some who ∧ tx = state.tx
  locked : ∀ {who}, state.lock = some who → (ghosts who).held ≠ none
  /-- Only who holds the lock has a byte on its way, or somebody to wake. -/
  quiet : ∀ {who}, (ghosts who).held = none → (ghosts who).flying = none ∧ (ghosts who).waking = false
  working : ∀ {who}, (ghosts who).due = true → (ghosts who).held ≠ none ∨ (ghosts who).handling = true
  asleep : ∀ {p}, state.sleeping p = true → state.tx.count = txBufSize ∨ ∃ who, (ghosts who).waking = true
  handling : ∀ who, state.handling who = (ghosts who).handling
  due : ∀ who, state.due who = (ghosts who).due
  level_le : state.level ≤ fifo.capacity

variable {state state' : State ι} {ghosts : ι → Ghost} {who : ι} {ghost : Ghost}

theorem Inv.same (h : Inv fifo state ghosts) (htx : state'.tx = state.tx) (hlock : state'.lock = state.lock)
    (hstored : state'.stored = state.stored) (hsent : state'.sent = state.sent)
    (hsleeping : ∀ p, state'.sleeping p = true → state.sleeping p = true) (hhandling : state'.handling = state.handling)
    (hdue : state'.due = state.due) (hlevel : state'.level ≤ fifo.capacity) : Inv fifo state' ghosts where
  count_le := htx ▸ h.count_le
  stream := by
    rw [hstored, hsent, htx, onItsWay, hlock]
    exact h.stream
  held hheld := by
    rw [hlock, htx]
    exact h.held hheld
  locked hlocked := h.locked (hlock ▸ hlocked)
  quiet := h.quiet
  working := h.working
  asleep hp := htx ▸ h.asleep (hsleeping _ hp)
  handling other := by rw [hhandling, h.handling]
  due other := by rw [hdue, h.due]
  level_le := hlevel

theorem Inv.waker (h : Inv fifo state ghosts) {waker : ι} (hlock : state.lock = some who)
    (hwaker : (ghosts waker).waking = true) : waker = who := by
  have hheld : (ghosts waker).held ≠ none := by
    intro hnone
    rw [(h.quiet hnone).2] at hwaker
    cases hwaker
  obtain ⟨tx, htx⟩ := Option.ne_none_iff_exists'.mp hheld
  exact Option.some.inj ((h.held htx).1.symm.trans hlock)

variable [DecidableEq ι]

theorem mirrored {field : Ghost → Bool} {shown : ι → Bool} (h : ∀ other, shown other = field (ghosts other)) (other : ι) :
    Function.update shown who (field ghost) other = field (Function.update ghosts who ghost other) := by
  rw [Function.apply_update fun _ => field, funext h]

theorem Inv.hold (h : Inv fifo state ghosts) (hlock : state.lock = some who) (hlock' : state'.lock = some who)
    (hheld : ghost.held = some state'.tx) (hcount : state'.tx.count ≤ txBufSize)
    (hstream : state'.stored = state'.sent ++ ghost.flying.toList ++ state'.tx.contents)
    (hasleep : ∀ p, state'.sleeping p = true → state'.tx.count = txBufSize ∨ ghost.waking = true)
    (hhandling : state'.handling = Function.update state.handling who ghost.handling)
    (hdue : state'.due = Function.update state.due who ghost.due) (hlevel : state'.level ≤ fifo.capacity) :
    Inv fifo state' (Function.update ghosts who ghost) where
  count_le := hcount
  stream := by
    rw [onItsWay, hlock', Option.bind_some, Function.update_self]
    exact hstream
  held {other tx} hother := by
    by_cases hne : other = who
    · rw [hne, Function.update_self, hheld] at hother
      exact ⟨hne ▸ hlock', (Option.some.inj hother).symm⟩
    · rw [Function.update_of_ne hne] at hother
      exact absurd (Option.some.inj ((h.held hother).1.symm.trans hlock)) hne
  locked {other} hother := by
    obtain rfl := Option.some.inj (hlock'.symm.trans hother)
    rw [Function.update_self, hheld]
    exact Option.some_ne_none _
  quiet {other} hother := by
    by_cases hne : other = who
    · rw [hne, Function.update_self, hheld] at hother
      cases hother
    · rw [Function.update_of_ne hne] at hother ⊢
      exact h.quiet hother
  working {other} hother := by
    by_cases hne : other = who
    · rw [hne, Function.update_self, hheld]
      exact Or.inl (Option.some_ne_none _)
    · rw [Function.update_of_ne hne] at hother ⊢
      exact h.working hother
  asleep {p} hp := by
    refine (hasleep p hp).imp_right fun hwaking => ⟨who, ?_⟩
    rw [Function.update_self]
    exact hwaking
  handling other := hhandling ▸ mirrored h.handling other
  due other := hdue ▸ mirrored h.due other
  level_le := hlevel

theorem Inv.mark (h : Inv fifo state ghosts) (htx : state'.tx = state.tx) (hlock : state'.lock = state.lock)
    (hstored : state'.stored = state.stored) (hsent : state'.sent = state.sent) (hsleeping : state'.sleeping = state.sleeping)
    (hheld : ghost.held = (ghosts who).held) (hflying : ghost.flying = (ghosts who).flying)
    (hwaking : ghost.waking = (ghosts who).waking) (hworking : ghost.due = true → ghost.held ≠ none ∨ ghost.handling = true)
    (hhandling : state'.handling = Function.update state.handling who ghost.handling)
    (hdue : state'.due = Function.update state.due who ghost.due) (hlevel : state'.level = state.level) :
    Inv fifo state' (Function.update ghosts who ghost) := by
  have hkeeps : ∀ other, (Function.update ghosts who ghost other).held = (ghosts other).held ∧
      (Function.update ghosts who ghost other).flying = (ghosts other).flying ∧
      (Function.update ghosts who ghost other).waking = (ghosts other).waking := by
    intro other
    by_cases hne : other = who
    · rw [hne, Function.update_self]
      exact ⟨hheld, hflying, hwaking⟩
    · rw [Function.update_of_ne hne]
      exact ⟨rfl, rfl, rfl⟩
  have hway : onItsWay state' (Function.update ghosts who ghost) = onItsWay state ghosts := by
    unfold onItsWay
    rw [hlock]
    exact congrArg _ (funext fun other => (hkeeps other).2.1)
  refine ⟨htx ▸ h.count_le, ?_, fun {other tx} hother => ?_, fun {other} hother => ?_, fun {other} hother => ?_,
    fun {other} hother => ?_, fun {p} hp => ?_, fun other => ?_, fun other => ?_, hlevel ▸ h.level_le⟩
  · rw [hstored, hsent, htx, hway]
    exact h.stream
  · rw [hlock, htx]
    exact h.held ((hkeeps other).1.symm.trans hother)
  · rw [(hkeeps other).1]
    exact h.locked (hlock ▸ hother)
  · rw [(hkeeps other).2.1, (hkeeps other).2.2]
    exact h.quiet ((hkeeps other).1.symm.trans hother)
  · by_cases hne : other = who
    · rw [hne, Function.update_self] at hother ⊢
      exact hworking hother
    · rw [Function.update_of_ne hne] at hother ⊢
      exact h.working hother
  · rw [hsleeping] at hp
    rw [htx]
    refine (h.asleep hp).imp_right fun hwaker => ?_
    obtain ⟨waker, hwaker⟩ := hwaker
    exact ⟨waker, (hkeeps waker).2.2.trans hwaker⟩
  · rw [hhandling]
    exact mirrored h.handling other
  · rw [hdue]
    exact mirrored h.due other

theorem Inv.acquire (h : Inv fifo state ghosts) (hfree : state.lock = none) (hghost : (ghosts who).held = none) :
    Inv fifo { state with lock := some who }
      (Function.update ghosts who { ghosts who with held := some state.tx }) := by
  obtain ⟨hflying, hwaking⟩ := h.quiet hghost
  have hfree' : ∀ other, (ghosts other).held = none := by
    intro other
    by_contra hheld
    obtain ⟨tx, htx⟩ := Option.ne_none_iff_exists'.mp hheld
    rw [(h.held htx).1] at hfree
    cases hfree
  have hstream := h.stream
  rw [onItsWay, hfree, Option.bind_none] at hstream
  refine ⟨h.count_le, ?_, fun {other tx} hother => ?_, fun {other} hother => ?_, fun {other} hother => ?_,
    fun {other} hother => ?_, fun {p} hp => ?_, fun other => ?_, fun other => ?_, h.level_le⟩
  · rw [onItsWay, Option.bind_some, Function.update_self]
    dsimp only
    rw [hflying]
    exact hstream
  · by_cases hne : other = who
    · rw [hne, Function.update_self] at hother
      exact ⟨congrArg some hne.symm, (Option.some.inj hother).symm⟩
    · rw [Function.update_of_ne hne, hfree'] at hother
      cases hother
  · rw [← Option.some.inj hother, Function.update_self]
    exact Option.some_ne_none _
  · by_cases hne : other = who
    · rw [hne, Function.update_self] at hother
      cases hother
    · rw [Function.update_of_ne hne] at hother ⊢
      exact h.quiet hother
  · by_cases hne : other = who
    · rw [hne, Function.update_self]
      exact Or.inl (Option.some_ne_none _)
    · rw [Function.update_of_ne hne] at hother ⊢
      exact h.working hother
  · refine (h.asleep hp).imp_right fun hwaker => ?_
    obtain ⟨waker, hwaker⟩ := hwaker
    rw [(h.quiet (hfree' waker)).2] at hwaker
    cases hwaker
  · rw [← mirrored h.handling other, ← h.handling who, Function.update_eq_self]
  · rw [← mirrored h.due other, ← h.due who, Function.update_eq_self]

theorem Inv.release (h : Inv fifo state ghosts) (hghost : (ghosts who).held ≠ none) (hflying : (ghosts who).flying = none)
    (hwaking : (ghosts who).waking = false) (hdue : (ghosts who).due = false) {sleeping : ι → Bool}
    (hsleeping : ∀ p, sleeping p = true → state.sleeping p = true ∨ state.tx.count = txBufSize) :
    Inv fifo { state with lock := none, sleeping } (Function.update ghosts who { ghosts who with held := none }) := by
  obtain ⟨tx, htx⟩ := Option.ne_none_iff_exists'.mp hghost
  have hlock := (h.held htx).1
  have hothers : ∀ other, other ≠ who → (ghosts other).held = none := by
    intro other hne
    by_contra hheld
    obtain ⟨tx', htx'⟩ := Option.ne_none_iff_exists'.mp hheld
    exact hne (Option.some.inj ((h.held htx').1.symm.trans hlock))
  have hstream := h.stream
  rw [onItsWay, hlock, Option.bind_some, hflying] at hstream
  refine ⟨h.count_le, hstream, fun {other tx} hother => ?_, fun {other} hother => ?_, fun {other} hother => ?_,
    fun {other} hother => ?_, fun {p} hp => ?_, fun other => ?_, fun other => ?_, h.level_le⟩
  · by_cases hne : other = who
    · rw [hne, Function.update_self] at hother
      cases hother
    · rw [Function.update_of_ne hne, hothers other hne] at hother
      cases hother
  · cases hother
  · by_cases hne : other = who
    · rw [hne, Function.update_self]
      exact ⟨hflying, hwaking⟩
    · rw [Function.update_of_ne hne] at hother ⊢
      exact h.quiet hother
  · by_cases hne : other = who
    · rw [hne, Function.update_self] at hother
      rw [hdue] at hother
      cases hother
    · rw [Function.update_of_ne hne] at hother ⊢
      exact h.working hother
  · rcases hsleeping p hp with hp | hfull
    · refine Or.inl ((h.asleep hp).resolve_right ?_)
      rintro ⟨waker, hwaker⟩
      rw [h.waker hlock hwaker, hwaking] at hwaker
      cases hwaker
    · exact Or.inl hfull
  · rw [← mirrored h.handling other, ← h.handling who, Function.update_eq_self]
  · rw [← mirrored h.due other, ← h.due who, Function.update_eq_self]

theorem handler_sound : Threads.HandlerSound (handler fifo) rule (Inv fifo : State ι → _) fun _ _ _ => True := by
  intro who state ghosts op choice response state' Q hinv _ hrule hstep
  have hsame : ∀ {state'' : State ι}, Inv fifo state'' ghosts →
      Inv fifo state'' (Function.update ghosts who (ghosts who)) := by
    intro state'' h
    rwa [Function.update_eq_self]
  have hshown : ∀ {field : Ghost → Bool} {shown : ι → Bool}, (∀ other, shown other = field (ghosts other)) →
      shown = Function.update shown who (field (ghosts who)) := by
    intro field shown h
    rw [← h who, Function.update_eq_self]
  cases op with
  | acquire =>
      simp only [handler] at hstep
      split at hstep
      next hfree =>
        cases hstep
        exact ⟨_, hrule.2 _ hinv.count_le, hinv.acquire hfree hrule.1⟩
      next => cases hstep
  | release =>
      obtain ⟨hheld, hflying, hwaking, hdue, hnext⟩ := hrule
      cases hstep
      exact ⟨_, hnext, hinv.release hheld hflying hwaking hdue fun _ => Or.inl⟩
  | full =>
      obtain ⟨tx, hheld, hyes, hno⟩ := hrule
      obtain ⟨-, rfl⟩ := hinv.held hheld
      have hiff : state.tx.count = txBufSize ↔ state.tx.nwrite = state.tx.nread + BitVec.ofNat 64 txBufSize :=
        CircularBuffer.count_eq_iff (by decide)
      simp only [handler] at hstep
      split at hstep
      next hfull =>
        cases hstep
        exact ⟨_, hyes (hiff.mpr hfull), hsame hinv⟩
      next hroom =>
        cases hstep
        exact ⟨_, hno fun hcount => hroom (hiff.mp hcount), hsame hinv⟩
  | sleep =>
      obtain ⟨tx, hghost, hcount, hnext⟩ := hrule
      have hheld : (ghosts who).held = some tx := by rw [hghost]
      obtain ⟨-, rfl⟩ := hinv.held hheld
      cases hstep
      have hreleased := @Inv.release _ fifo state ghosts who _ hinv (by rw [hheld]; exact Option.some_ne_none _)
        (by rw [hghost]) (by rw [hghost]) (by rw [hghost]) (Function.update state.sleeping who true)
        fun p _ => Or.inr hcount
      rw [hghost] at hreleased
      exact ⟨_, hnext, hreleased⟩
  | resume =>
      simp only [handler] at hstep
      split at hstep
      · cases hstep
      · cases hstep
        exact ⟨_, hrule _, hsame hinv⟩
  | put c =>
      obtain ⟨tx, hheld, hcount, hflying, hnext⟩ := hrule
      obtain ⟨hlock, rfl⟩ := hinv.held hheld
      have hput : (state.tx.put c).count = state.tx.count + 1 := CircularBuffer.count_put c hcount (by decide)
      have hstream := hinv.stream
      rw [onItsWay, hlock, Option.bind_some, hflying] at hstream
      cases hstep
      refine ⟨_, hnext, hinv.hold hlock hlock rfl (hput.le.trans hcount) ?_ (fun p hp => ?_)
        (hshown hinv.handling) rfl hinv.level_le⟩
      · change state.stored ++ [c] = state.sent ++ (ghosts who).flying.toList ++ (state.tx.put c).contents
        rw [CircularBuffer.contents_put c hcount (by decide) (by decide), hflying, hstream, List.append_assoc]
      · rcases hinv.asleep hp with hfull | ⟨waker, hwaker⟩
        · exact absurd hfull hcount.ne
        · exact Or.inr (hinv.waker hlock hwaker ▸ hwaker)
  | empty =>
      obtain ⟨tx, hheld, hyes, hno⟩ := hrule
      obtain ⟨-, rfl⟩ := hinv.held hheld
      simp only [handler] at hstep
      split at hstep
      next hempty =>
        cases hstep
        exact ⟨_, hyes hempty, hinv.mark rfl rfl rfl rfl rfl rfl rfl rfl (fun hdue => (by cases hdue))
          (hshown hinv.handling) rfl rfl⟩
      next hne =>
        cases hstep
        exact ⟨_, hno hne, hsame hinv⟩
  | txff =>
      simp only [handler] at hstep
      split at hstep
      next hfull =>
        cases hstep
        exact ⟨_, hrule.1, hinv.mark rfl rfl rfl rfl rfl rfl rfl rfl (fun hdue => (by cases hdue))
          (hshown hinv.handling) rfl rfl⟩
      next =>
        cases hstep
        exact ⟨_, hrule.2, hsame hinv⟩
  | head =>
      obtain ⟨tx, hheld, hnext⟩ := hrule
      obtain ⟨-, rfl⟩ := hinv.held hheld
      cases hstep
      exact ⟨_, hnext, hsame hinv⟩
  | advance =>
      obtain ⟨tx, hheld, hne, hflying, hnext⟩ := hrule
      obtain ⟨hlock, rfl⟩ := hinv.held hheld
      have hcontents := CircularBuffer.contents_eq_cons hne
      have hcount : state.tx.advance.count ≤ txBufSize := by
        have hle := hinv.count_le
        rw [← CircularBuffer.length_contents, hcontents, List.length_cons, CircularBuffer.length_contents] at hle
        exact Nat.le_of_succ_le hle
      have hstream := hinv.stream
      rw [onItsWay, hlock, Option.bind_some, hflying, hcontents] at hstream
      cases hstep
      refine ⟨_, hnext, hinv.hold hlock hlock rfl hcount ?_ (fun p _ => Or.inr rfl) (hshown hinv.handling)
        (hshown hinv.due) hinv.level_le⟩
      change state.stored = state.sent ++ [state.tx.head] ++ state.tx.advance.contents
      rw [hstream, Option.toList_none, List.append_nil, List.append_assoc, List.singleton_append]
  | wakeup =>
      obtain ⟨hheld, hnext⟩ := hrule
      obtain ⟨tx, htx⟩ := Option.ne_none_iff_exists'.mp hheld
      obtain ⟨hlock, rfl⟩ := hinv.held htx
      have hstream := hinv.stream
      rw [onItsWay, hlock, Option.bind_some] at hstream
      cases hstep
      exact ⟨_, hnext, hinv.hold hlock hlock htx hinv.count_le hstream (fun p hp => (by cases hp)) (hshown hinv.handling)
        (hshown hinv.due) hinv.level_le⟩
  | send c =>
      obtain ⟨hflying, hnext⟩ := hrule
      have hheld : (ghosts who).held ≠ none := by
        intro hnone
        rw [(hinv.quiet hnone).1] at hflying
        cases hflying
      obtain ⟨tx, htx⟩ := Option.ne_none_iff_exists'.mp hheld
      obtain ⟨hlock, rfl⟩ := hinv.held htx
      have hstream := hinv.stream
      rw [onItsWay, hlock, Option.bind_some, hflying] at hstream
      cases hstep
      refine ⟨_, hnext, hinv.hold hlock hlock htx hinv.count_le ?_ (fun p hp => ?_) (hshown hinv.handling)
        (hshown hinv.due) (Nat.min_le_right _ _)⟩
      · change state.stored = state.sent ++ [c] ++ [] ++ state.tx.contents
        rw [List.append_nil]
        exact hstream
      · refine (hinv.asleep hp).imp_right fun hwaker => ?_
        obtain ⟨waker, hwaker⟩ := hwaker
        exact hinv.waker hlock hwaker ▸ hwaker
  | sendSync c =>
      cases hstep
      exact ⟨_, hrule _, hsame (hinv.same rfl rfl rfl rfl (fun _ => id) rfl rfl (Nat.min_le_right _ _))⟩
  | enter =>
      obtain ⟨hghost, hnext⟩ := hrule
      cases hstep
      refine ⟨_, hnext, hinv.mark rfl rfl rfl rfl rfl ?_ ?_ ?_ (fun _ => Or.inr rfl) rfl rfl rfl⟩ <;> rw [hghost] <;> rfl
  | clear =>
      obtain ⟨hghost, hnext⟩ := hrule
      have hdue : state.due = Function.update state.due who false := by
        have hshown' := hshown hinv.due
        rw [hghost] at hshown'
        exact hshown'
      cases hstep
      refine ⟨_, hnext, hinv.mark rfl rfl rfl rfl rfl ?_ ?_ ?_ (fun hdue => (by cases hdue)) rfl hdue rfl⟩ <;>
        rw [hghost] <;> rfl
  | stop | never => cases hstep
  | awaitRoom =>
      simp only [handler] at hstep
      split at hstep
      · cases hstep
      · cases hstep
        exact ⟨_, hrule _, hsame hinv⟩
  | _ =>
      cases hstep
      exact ⟨_, hrule _, hsame (hinv.same rfl rfl rfl rfl (fun _ => id) rfl rfl hinv.level_le)⟩

theorem Inv.env (h : Inv fifo state ghosts) {event : Env ι} (hevent : happen fifo state event = some state') :
    Inv fifo state' ghosts := by
  cases event with
  | drain =>
      simp only [happen] at hevent
      split at hevent
      · cases hevent
      · cases hevent
        exact h.same rfl rfl rfl rfl (fun _ => id) rfl rfl ((Nat.sub_le _ _).trans h.level_le)
  | receive c =>
      simp only [happen] at hevent
      split at hevent
      · cases hevent
        exact h.same rfl rfl rfl rfl (fun _ => id) rfl rfl h.level_le
      · cases hevent
  | panic =>
      cases hevent
      exact h.same rfl rfl rfl rfl (fun _ => id) rfl rfl h.level_le
  | kill p =>
      cases hevent
      refine h.same rfl rfl rfl rfl (fun q hq => ?_) rfl rfl h.level_le
      by_cases hne : q = p
      · simp [hne] at hq
      · simpa [hne] using hq

omit [DecidableEq ι] in
theorem boot_inv : Inv fifo (boot ι).shared fun _ => idle where
  count_le := (CircularBuffer.count_empty 0).trans_le (Nat.zero_le _)
  stream := by
    change [] = [] ++ [] ++ (CircularBuffer.empty 0 : Tx).contents
    rw [CircularBuffer.contents_empty]
    rfl
  held hheld := (by cases hheld)
  locked hlocked := (by cases hlocked)
  quiet _ := ⟨rfl, rfl⟩
  working hdue := (by cases hdue)
  asleep hasleep := (by cases hasleep)
  handling _ := rfl
  due _ := rfl
  level_le := Nat.zero_le _

end Inv

/-! ### Runs -/

section Runs

variable {ι : Type} [DecidableEq ι] {fifo : Fifo} {state state' : State ι} {ghosts : ι → Ghost}

def Ended (_ : ι) (_ : Unit) (ghost : Ghost) : Prop := ghost = idle

abbrev Verified (fifo : Fifo) (world : Threads registers (State ι) ι Unit) : Prop :=
  Threads.Verified rule (Inv fifo) Ended world

omit [DecidableEq ι] in
theorem boot_verified : Verified fifo (boot ι) := ⟨fun _ => idle, boot_inv, fun _ => rfl⟩

omit [DecidableEq ι] in
theorem menu_sound : Threads.MenuSound (menu : ι → Call → Unit → Option (Code Unit)) rule Ended := by
  rintro who call value program ghost hprogram rfl
  cases call with
  | uartputc c =>
      obtain rfl := Option.some.inj hprogram
      exact uartputc_spec c
  | uartintr =>
      obtain rfl := Option.some.inj hprogram
      exact uartintr_spec

theorem env_sound : Threads.EnvSound (system fifo : Threads.System _ _ ι _ _ _).environment rule (Inv fifo) Ended := by
  rintro world event world' ⟨ghosts, hinv, hwp⟩ hstep
  obtain ⟨shared, hshared, rfl⟩ := Option.map_eq_some_iff.mp hstep
  exact ⟨ghosts, hinv.env hshared, hwp⟩

theorem verified_of_run {actions : List (Threads.Action ι Call (Env ι))} {world : Threads registers (State ι) ι Unit}
    (hrun : Transition.run (Threads.step (system fifo)) (boot ι) actions = some world) : Verified fifo world :=
  Threads.sound_run handler_sound env_sound menu_sound boot_verified hrun

def Served (fifo : Fifo) (state : State ι) : Prop :=
  state.tx.nwrite ≠ state.tx.nread → state.pending = true ∨ fifo.trigger < state.level ∨ ∃ who, state.due who = true

/-- Where the interrupt is cleared, no byte waits for it: the ring is empty, or the FIFO is above its trigger level, or some
processor has yet to look. -/
def Clears (fifo : Fifo) (state : State ι) (_ : ι) : registers.Op → Prop
  | .clear => state.tx.nwrite = state.tx.nread ∨ fifo.trigger < state.level ∨ ∃ who, state.due who = true
  | _ => True

instance [Fintype ι] (state : State ι) (who : ι) : (op : registers.Op) → Decidable (Clears fifo state who op)
  | .clear => inferInstanceAs (Decidable (_ = _ ∨ _ < _ ∨ ∃ _, _))
  | .acquire | .release | .panicked | .full | .sleep | .resume | .put _ | .empty | .txff | .head | .advance | .wakeup
  | .send _ | .awaitRoom | .sendSync _ | .rxfe | .receive | .echo | .enter | .rounds | .stop | .never => isTrue trivial

theorem Served.step {who : ι} {op : Op} {choice : Nat} {response : registers.Resp op} {Q : registers.Resp op → Ghost → Prop}
    (h : Served fifo state) (hinv : Inv fifo state ghosts) (hclears : Clears fifo state who op)
    (hrule : rule op (ghosts who) Q) (hstep : handler fifo who state op choice = some (response, state')) :
    Served fifo state' := by
  cases op with
  | acquire | resume | awaitRoom | full =>
      simp only [handler] at hstep
      split at hstep <;> cases hstep <;> exact h
  | put c =>
      cases hstep
      exact fun _ => Or.inr (Or.inr ⟨who, Function.update_self ..⟩)
  | enter =>
      cases hstep
      exact fun _ => Or.inr (Or.inr ⟨who, Function.update_self ..⟩)
  | empty =>
      simp only [handler] at hstep
      split at hstep
      next hempty =>
        cases hstep
        exact fun hne => absurd hempty hne
      next =>
        cases hstep
        exact h
  | txff =>
      simp only [handler] at hstep
      split at hstep
      next hfull =>
        cases hstep
        exact fun _ => Or.inr (Or.inl (hfull.symm ▸ fifo.trigger_lt))
      next =>
        cases hstep
        exact h
  | advance =>
      obtain ⟨tx, hheld, hne, -⟩ := hrule
      obtain ⟨-, rfl⟩ := hinv.held hheld
      cases hstep
      exact fun _ => h hne
  | send c | sendSync c =>
      cases hstep
      intro hne
      refine (h hne).imp_right (Or.imp_left fun hlt => ?_)
      have hle := hinv.level_le
      have htrigger := fifo.trigger_lt
      change fifo.trigger < min (state.level + 1) fifo.capacity
      omega
  | clear =>
      cases hstep
      exact fun hne => Or.inr (hclears.resolve_left hne)
  | stop | never => cases hstep
  | _ =>
      cases hstep
      exact h

theorem Served.env {event : Env ι} (h : Served fifo state) (hevent : happen fifo state event = some state') :
    Served fifo state' := by
  cases event with
  | drain =>
      simp only [happen] at hevent
      split at hevent
      · cases hevent
      · cases hevent
        intro hne
        by_cases hcross : state.level = fifo.trigger + 1
        · left
          simp [State.drain, hcross]
        · rcases h hne with hpending | hlevel | hdue
          · left
            simp [State.drain, hpending]
          · refine Or.inr (Or.inl ?_)
            change fifo.trigger < state.level - 1
            omega
          · exact Or.inr (Or.inr hdue)
  | receive c =>
      simp only [happen] at hevent
      split at hevent
      · cases hevent
        exact h
      · cases hevent
  | panic | kill p =>
      cases hevent
      exact h

theorem Served.next {world world' : Threads registers (State ι) ι Unit} {action : Threads.Action ι Call (Env ι)}
    (h : Served fifo world.shared) (hverified : Verified fifo world)
    (hclears : Threads.Meets (Clears fifo) world action)
    (hstep : Threads.step (system fifo) world action = some world') : Served fifo world'.shared := by
  obtain ⟨ghosts, hinv, hwp⟩ := hverified
  cases action with
  | perform who choice =>
      cases hthread : world.thread who with
      | ret value =>
          change Threads.performStep _ _ _ _ = _ at hstep
          simp [Threads.performStep, hthread] at hstep
      | call op next =>
          have hnext : world.nextOp who = some op := by
            unfold Threads.nextOp
            rw [hthread]
          have hrule := hwp who
          rw [hthread, Program.wp_call] at hrule
          obtain ⟨response, shared', hresult, rfl⟩ := Threads.performStep_of_call hthread hstep
          exact h.step hinv (hclears op hnext) hrule hresult
  | start who call =>
      obtain ⟨value, program, -, rfl⟩ := Threads.startStep_cases hstep
      exact h
  | env event =>
      obtain ⟨shared, hshared, rfl⟩ := Option.map_eq_some_iff.mp hstep
      exact h.env hshared

def Serves (fifo : Fifo) (world : Threads registers (State ι) ι Unit) : Prop :=
  Verified fifo world ∧ Served fifo world.shared

/-- The bytes that were written to `DR` are the first of those that were stored, and at most `UART_TX_BUF_SIZE` wait. While
nobody holds the lock, what was not written is in the ring. -/
structure InOrder (state : State ι) : Prop where
  sent_prefix : state.sent <+: state.stored
  count_le : state.tx.count ≤ txBufSize
  rest : state.lock = none → state.stored = state.sent ++ state.tx.contents

/-- While the lock is free and nobody is in `uartintr`: when a byte waits, or a process for room, the interrupt is pending or
the FIFO is above its trigger level. -/
def NeverStuck (fifo : Fifo) (state : State ι) : Prop :=
  state.lock = none → (∀ who, state.handling who = false) →
    (state.tx.nwrite ≠ state.tx.nread ∨ ∃ p, state.sleeping p = true) → state.pending = true ∨ fifo.trigger < state.level

omit [DecidableEq ι] in
theorem Inv.inOrder (h : Inv fifo state ghosts) : InOrder state where
  sent_prefix := by
    rw [h.stream, List.append_assoc]
    exact List.prefix_append _ _
  count_le := h.count_le
  rest hfree := by
    have hstream := h.stream
    rw [onItsWay, hfree, Option.bind_none, Option.toList_none, List.append_nil] at hstream
    exact hstream

omit [DecidableEq ι] in
/-- While nobody works, nobody has yet to look. -/
theorem Inv.neverStuck (h : Inv fifo state ghosts) (hserved : Served fifo state) : NeverStuck fifo state := by
  intro hfree hidle hwaits
  have hheld : ∀ who, (ghosts who).held = none := by
    intro who
    by_contra hheld
    obtain ⟨tx, htx⟩ := Option.ne_none_iff_exists'.mp hheld
    rw [(h.held htx).1] at hfree
    cases hfree
  have hne : state.tx.nwrite ≠ state.tx.nread := by
    refine hwaits.elim id ?_
    rintro ⟨p, hp⟩ hempty
    rcases h.asleep hp with hfull | ⟨waker, hwaker⟩
    · rw [CircularBuffer.count_eq_zero.mpr hempty] at hfull
      cases hfull
    · rw [(h.quiet (hheld waker)).2] at hwaker
      cases hwaker
  rcases hserved hne with hpending | hlevel | ⟨who, hdue⟩
  · exact Or.inl hpending
  · exact Or.inr hlevel
  · rw [h.due who] at hdue
    rcases h.working hdue with hholds | hhandling
    · exact absurd (hheld who) hholds
    · rw [← h.handling who, hidle who] at hhandling
      cases hhandling

/-- **Output is in order, and where each clear comes in time it is never stuck.** -/
theorem output {actions : List (Threads.Action ι Call (Env ι))} {world : Threads registers (State ι) ι Unit}
    (hrun : Transition.run (Threads.step (system fifo)) (boot ι) actions = some world) :
    InOrder world.shared ∧
      (Transition.Along (Threads.step (system fifo)) (Threads.Meets (Clears fifo)) (boot ι) actions →
        NeverStuck fifo world.shared) := by
  obtain ⟨ghosts, hinv, -⟩ := verified_of_run hrun
  refine ⟨hinv.inOrder, fun halong => hinv.neverStuck ?_⟩
  have hstart : Serves fifo (boot ι) := ⟨boot_verified, fun hne => absurd rfl hne⟩
  have hend : Serves fifo world := by
    refine @Transition.invariant_along _ _ _ _ _ _ (Serves fifo) ?_ _ hstart halong hrun
    rintro world action next ⟨hverified, hserved⟩ hclears hstep
    have hone : Transition.run (Threads.step (system fifo)) world [action] = some next :=
      Transition.run_cons.mpr ⟨next, hstep, rfl⟩
    exact ⟨Threads.sound_run handler_sound env_sound menu_sound hverified hone, hserved.next hverified hclears hstep⟩
  exact hend.2

end Runs

/-! ### A byte that is stuck -/

def pl011 : Fifo := ⟨16, 8, Nat.lt_of_sub_eq_succ rfl⟩

def sendsByte : List (Threads.Action Bool Call (Env Bool)) :=
  .start false (.uartputc 0x78) :: List.replicate 13 (.perform false 1)

/-- A character has come, and the handler has looked whether there is something to be sent. -/
def looks : List (Threads.Action Bool Call (Env Bool)) :=
  [.env (.receive 0x61), .start true .uartintr, .perform true 2, .perform true 2, .perform true 0, .perform true 0,
    .perform true 0, .perform true 0, .perform true 0, .perform true 0, .perform true 0]

theorem output_sendsByte : ∃ world : Threads registers (State Bool) Bool Unit,
    Transition.run (Threads.step (system pl011)) (boot Bool) (sendsByte ++ looks ++ [.perform true 0]) = some world ∧
      InOrder world.shared ∧ NeverStuck pl011 world.shared ∧ world.shared.sent = [0x78] := by
  have hend : (Transition.run (Threads.step (system pl011)) (boot Bool) (sendsByte ++ looks ++ [.perform true 0])).map
      (fun world => world.shared.sent) = some [0x78] := by decide +kernel
  obtain ⟨world, hrun, hsent⟩ := Option.map_eq_some_iff.mp hend
  exact ⟨world, hrun, (output hrun).1, (output hrun).2 (by decide +kernel), hsent⟩

/-- Before it clears the interrupt, the FIFO is filled, a byte is stored that has to wait, and the FIFO is drained to its
trigger level. -/
def clearsLate : List (Threads.Action Bool Call (Env Bool)) :=
  looks ++ (List.replicate 16 sendsByte).flatten ++ .start false (.uartputc 0x79) :: List.replicate 8 (.perform false 1) ++
    List.replicate 8 (.env .drain) ++ [.perform true 0]

theorem byte_stuck : ∃ world : Threads registers (State Bool) Bool Unit,
    Transition.run (Threads.step (system pl011)) (boot Bool) clearsLate = some world ∧ ¬NeverStuck pl011 world.shared := by
  have hend : (Transition.run (Threads.step (system pl011)) (boot Bool) clearsLate).map
      (fun world => ((world.shared.lock, world.shared.level), [world.shared.handling false, world.shared.handling true,
        world.shared.pending, world.shared.tx.nwrite == world.shared.tx.nread])) =
      some ((none, 8), [false, false, false, false]) := by decide +kernel
  obtain ⟨world, hrun, hfacts⟩ := Option.map_eq_some_iff.mp hend
  simp only [Prod.mk.injEq, List.cons.injEq, beq_eq_false_iff_ne, and_true] at hfacts
  obtain ⟨⟨hlock, hlevel⟩, hfalse, htrue, hpending, hwaits⟩ := hfacts
  refine ⟨world, hrun, fun hnever => ?_⟩
  have hidle : ∀ who, world.shared.handling who = false := by
    intro who
    cases who with
    | false => exact hfalse
    | true => exact htrue
  rcases hnever hlock hidle (Or.inl hwaits) with hyes | hlt
  · rw [hpending] at hyes
    cases hyes
  · rw [hlevel] at hlt
    exact absurd hlt (by decide)

end Xv6.Uart
