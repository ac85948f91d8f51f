import Xv6.Console.UartWrite

/-!
# `uartwrite` sends whole buffers

`tx_lock` keeps the bytes of a call together. A writer that sleeps has seen the UART busy after it had registered on the
channel, so the interrupt that comes when the UART is idle again finds it there.
-/

namespace Xv6.UartWrite

/-! ### What an agent knows -/

inductive Mark where
  /-- Nothing. -/
  | stale
  /-- It has not been `&tx_chan` since. -/
  | elsewhere
  /-- The UART has been busy since. -/
  | busy
  deriving DecidableEq

/-- `tx_lock.locked` while it holds `tx_lock.lk`; whether it holds `tx_lock`; what its call of `uartwrite` has sent and what is
left; and the slots it has yet to come to. -/
structure Ghost (n : Nat) where
  lk : Option Bool
  owns : Bool
  call : Option (List Byte × List Byte)
  mark : Mark
  due : Fin n → Bool

/-- It does nothing, or is at the beginning of a call of `uartwrite`. -/
def Ghost.Quiet {n : Nat} (ghost : Ghost n) (call : Option (List Byte × List Byte)) : Prop :=
  ghost.lk = none ∧ ghost.owns = false ∧ ghost.call = call ∧ ghost.due = fun _ => false

section Specs

variable {n : Nat} {χ : Type} [DecidableEq χ]

def rule : Rule (steps n χ) (Ghost n)
  | .acquire, ghost, Q => ghost.lk = none ∧ ∀ locked, Q () { ghost with lk := some locked }
  | .release, ghost, Q => ghost.lk ≠ none ∧ Q () { ghost with lk := none }
  | .locked, ghost, Q => ∃ locked, ghost.lk = some locked ∧ Q locked ghost
  | .lock, ghost, Q => ghost.lk = some false ∧ (∃ bytes, ghost.call = some ([], bytes)) ∧
      Q () { ghost with lk := some true, owns := true }
  | .unlock, ghost, Q => ghost.lk ≠ none ∧ ghost.owns = true ∧ ghost.call = none ∧
      Q () { ghost with lk := some false, owns := false }
  | .sleepPrepare chan, ghost, Q => Q () { ghost with mark := if chan = .txChan then .stale else .elsewhere }
  | .sleep, ghost, Q => ghost.mark ≠ .stale ∧ Q () { ghost with mark := .stale }
  | .wakeup chan p, ghost, Q =>
      Q () { ghost with due := if chan = .txChan then Function.update ghost.due p false else ghost.due }
  | .txIdle, ghost, Q => Q true ghost ∧ Q false { ghost with mark := .busy, due := fun _ => false }
  | .send c, ghost, Q => ∃ sent rest, ghost.owns = true ∧ ghost.call = some (sent, c :: rest) ∧
      Q () { ghost with call := some (sent ++ [c], rest) }
  | .finish, ghost, Q => ∃ sent, ghost.owns = true ∧ ghost.call = some (sent, []) ∧ Q () { ghost with call := none }
  | .acknowledge, ghost, Q => Q () { ghost with due := fun _ => true }
  | .stop, _, _ => True
  | _, ghost, Q => ∀ response, Q response ghost

theorem rule_monotone : (rule : Rule (steps n χ) (Ghost n)).Monotone := by
  intro op ghost post post' hpost h
  cases op with
  | acquire => exact ⟨h.1, fun locked => hpost _ _ (h.2 locked)⟩
  | release | sleep => exact ⟨h.1, hpost _ _ h.2⟩
  | locked =>
      obtain ⟨locked, hlk, hnext⟩ := h
      exact ⟨locked, hlk, hpost _ _ hnext⟩
  | lock => exact ⟨h.1, h.2.1, hpost _ _ h.2.2⟩
  | unlock => exact ⟨h.1, h.2.1, h.2.2.1, hpost _ _ h.2.2.2⟩
  | sleepPrepare chan | wakeup chan p | acknowledge => exact hpost _ _ h
  | txIdle => exact ⟨hpost _ _ h.1, hpost _ _ h.2⟩
  | send c =>
      obtain ⟨sent, rest, howns, hcall, hnext⟩ := h
      exact ⟨sent, rest, howns, hcall, hpost _ _ hnext⟩
  | finish =>
      obtain ⟨sent, howns, hcall, hnext⟩ := h
      exact ⟨sent, howns, hcall, hpost _ _ hnext⟩
  | stop => trivial
  | _ => exact fun response => hpost _ _ (h response)

/-! ### The code -/

theorem wakeup_spec {chan : Chan χ} (hchan : chan ≠ .txChan) (ghost : Ghost n) :
    (wakeup chan).wp rule ghost fun _ ghost' => ghost' = ghost := by
  apply Program.wp_forM_rest rule_monotone (fun _ ghost' => ghost' = ghost) rfl
  rintro p rest ghost' rfl
  change { ghost' with due := if chan = .txChan then _ else ghost'.due } = ghost'
  rw [if_neg hchan]

theorem wakeup_txChan (ghost : Ghost n) :
    (wakeup (.txChan : Chan χ)).wp rule ghost fun _ ghost' => ghost' = { ghost with due := fun _ => false } := by
  have hloop : (wakeup (.txChan : Chan χ)).wp rule ghost fun _ ghost' =>
      ∃ due, ghost' = { ghost with due } ∧ ∀ p, p ∉ ([] : List (Fin n)) → due p = false := by
    apply Program.wp_forM_rest rule_monotone fun rest ghost' =>
      ∃ due, ghost' = { ghost with due } ∧ ∀ p, p ∉ rest → due p = false
    · exact ⟨ghost.due, rfl, fun p hp => absurd (List.mem_finRange p) hp⟩
    · rintro p rest _ ⟨due, rfl, hdue⟩
      refine ⟨Function.update due p false, by rw [if_pos rfl], fun q hq => ?_⟩
      by_cases hqp : q = p
      · rw [hqp, Function.update_self]
      · rw [Function.update_of_ne hqp]
        exact hdue q (fun hmem => (List.mem_cons.mp hmem).elim hqp hq)
  refine Program.wp_mono rule_monotone ?_ hloop
  rintro _ _ ⟨due, rfl, hdue⟩
  rw [show due = fun _ => false from funext fun p => hdue p List.not_mem_nil]

theorem kkillFrom_spec (pid : Nat) (slots : List (Fin n)) (ghost : Ghost n) :
    (kkillFrom pid slots : Code n χ Unit).wp rule ghost fun _ ghost' => ghost' = ghost := by
  induction slots with
  | nil => rfl
  | cons p rest ih =>
      intro found
      cases found with
      | true => rfl
      | false => exact ih

theorem acquiresleepFrom_spec {bytes : List Byte} {ghost : Ghost n} {locked : Bool} (rounds : Nat)
    (hlk : ghost.lk = some locked) (howns : ghost.owns = false) (hcall : ghost.call = some ([], bytes))
    (hdue : ghost.due = fun _ => false) :
    (acquiresleepFrom rounds : Code n χ Unit).wp rule ghost fun _ ghost' =>
      ghost'.lk = none ∧ ghost'.owns = true ∧ ghost'.call = some ([], bytes) ∧ ghost'.due = fun _ => false := by
  induction rounds generalizing ghost locked with
  | zero => trivial
  | succ rounds ih =>
      refine ⟨locked, hlk, ?_⟩
      cases locked with
      | false => exact ⟨hlk, ⟨bytes, hcall⟩, Option.some_ne_none _, rfl, rfl, hcall, hdue⟩
      | true =>
          refine ⟨fun hnone => Option.some_ne_none _ (hlk.symm.trans hnone), ?_, rfl, fun locked => ?_⟩
          · rw [if_neg (by simp)]
            simp
          · exact ih rfl howns hcall hdue

theorem acquiresleep_spec {bytes : List Byte} {ghost : Ghost n} (h : ghost.Quiet (some ([], bytes))) :
    (acquiresleep : Code n χ Unit).wp rule ghost fun _ ghost' =>
      ghost'.lk = none ∧ ghost'.owns = true ∧ ghost'.call = some ([], bytes) ∧ ghost'.due = fun _ => false := by
  obtain ⟨hlk, howns, hcall, hdue⟩ := h
  exact ⟨hlk, fun locked rounds => acquiresleepFrom_spec rounds rfl howns hcall hdue⟩

theorem releasesleep_spec {ghost : Ghost n} (hlk : ghost.lk = none) (howns : ghost.owns = true) (hcall : ghost.call = none)
    (hdue : ghost.due = fun _ => false) :
    (releasesleep : Code n χ Unit).wp rule ghost fun _ ghost' => ghost'.Quiet none := by
  refine ⟨hlk, fun locked => ⟨Option.some_ne_none _, howns, hcall, ?_⟩⟩
  change (wakeup .txLock >>= fun _ => perform .release : Code n χ Unit).wp rule _ _
  apply Program.wp_seq rule_monotone (wakeup_spec (by simp) _)
  rintro _ _ rfl
  exact ⟨Option.some_ne_none _, rfl, rfl, hcall, hdue⟩

/-- What is left to be sent at `i`. -/
def restFrom (buf : Nat → Byte) (size : Int) (i : Nat) : List Byte := (List.range' i (size.toNat - i)).map buf

theorem restFrom_cons {buf : Nat → Byte} {size : Int} {i : Nat} (h : (i : Int) < size) :
    restFrom buf size i = buf i :: restFrom buf size (i + 1) := by
  have hlt : size.toNat - i = size.toNat - (i + 1) + 1 := by omega
  rw [restFrom, hlt, List.range'_succ, List.map_cons, restFrom]

theorem restFrom_nil {buf : Nat → Byte} {size : Int} {i : Nat} (h : ¬(i : Int) < size) : restFrom buf size i = [] := by
  have hzero : size.toNat - i = 0 := by omega
  rw [restFrom, hzero]
  rfl

theorem restFrom_zero (buf : Nat → Byte) (size : Int) : restFrom buf size 0 = bytesOf buf size := by
  rw [restFrom, bytesOf, List.range_eq_range', Nat.sub_zero]

theorem uartwriteFrom_spec {buf : Nat → Byte} {size : Int} {sent : List Byte} {ghost : Ghost n} (rounds i : Nat)
    (hlk : ghost.lk = none) (howns : ghost.owns = true) (hcall : ghost.call = some (sent, restFrom buf size i))
    (hdue : ghost.due = fun _ => false) :
    (uartwriteFrom buf size rounds i : Code n χ Unit).wp rule ghost fun _ ghost' =>
      ghost'.lk = none ∧ ghost'.owns = true ∧ (∃ sent, ghost'.call = some (sent, [])) ∧ ghost'.due = fun _ => false := by
  induction rounds generalizing i sent ghost with
  | zero => trivial
  | succ rounds ih =>
      unfold uartwriteFrom
      by_cases hi : (i : Int) < size
      · rw [if_pos hi]
        rw [restFrom_cons hi] at hcall
        refine ⟨⟨sent, _, howns, hcall, ?_⟩, ?_, ?_⟩
        · exact ih (i + 1) hlk howns rfl hdue
        · simp
        · exact ih i hlk howns (hcall.trans (by rw [restFrom_cons hi])) rfl
      · rw [if_neg hi]
        rw [restFrom_nil hi] at hcall
        exact ⟨hlk, howns, ⟨sent, hcall⟩, hdue⟩

theorem uartwrite_spec {buf : Nat → Byte} {size : Int} {ghost : Ghost n} (h : ghost.Quiet (some ([], bytesOf buf size))) :
    (uartwrite buf size : Code n χ Unit).wp rule ghost fun _ ghost' => ghost'.Quiet none := by
  apply Program.wp_seq rule_monotone (acquiresleep_spec h)
  rintro _ ghost' ⟨hlk, howns, hcall, hdue⟩ rounds
  change (uartwriteFrom buf size rounds 0 >>= fun _ => perform .finish >>= fun _ => releasesleep : Code n χ Unit).wp
    rule _ _
  rw [← restFrom_zero] at hcall
  apply Program.wp_seq rule_monotone (uartwriteFrom_spec rounds 0 hlk howns hcall hdue)
  rintro _ ghost'' ⟨hlk', howns', ⟨sent, hcall'⟩, hdue'⟩
  exact ⟨sent, howns', hcall', releasesleep_spec hlk' howns' rfl hdue'⟩

theorem uartputcSync_spec (c : Byte) (ghost : Ghost n) :
    (uartputcSync c : Code n χ Unit).wp rule ghost fun _ ghost' => ghost' = ghost := by
  intro panicked
  cases panicked with
  | true => trivial
  | false => exact fun _ _ => rfl

theorem consputc_spec (rounds : Nat) (ghost : Ghost n) :
    (consputc rounds : Code n χ Unit).wp rule ghost fun _ ghost' => ghost' = ghost := by
  induction rounds with
  | zero => rfl
  | succ rounds ih =>
      intro c
      change (uartputcSync c >>= fun _ => consputc rounds : Code n χ Unit).wp rule ghost _
      apply Program.wp_seq rule_monotone (uartputcSync_spec c ghost)
      rintro _ _ rfl
      exact ih

theorem consoleintr_spec (cons : χ) (ghost : Ghost n) :
    (consoleintr cons : Code n χ Unit).wp rule ghost fun _ ghost' => ghost' = ghost := by
  intro echoes
  change (consputc echoes >>= fun _ => _ : Code n χ Unit).wp rule ghost _
  apply Program.wp_seq rule_monotone (consputc_spec echoes ghost)
  rintro _ _ rfl (wakes : Nat)
  change (if wakes = 0 then pure () else wakeup (.other cons) : Code n χ Unit).wp rule _ _
  rw [Program.wp_ite]
  split
  · rfl
  · exact wakeup_spec (by simp) _

theorem uartintrFrom_spec (cons : χ) (rounds : Nat) (ghost : Ghost n) :
    (uartintrFrom cons rounds : Code n χ Unit).wp rule ghost fun _ ghost' => ghost' = ghost := by
  induction rounds with
  | zero => trivial
  | succ rounds ih =>
      intro ready
      cases ready with
      | false => rfl
      | true =>
          intro _
          change (consoleintr cons >>= fun _ => uartintrFrom cons rounds : Code n χ Unit).wp rule ghost _
          apply Program.wp_seq rule_monotone (consoleintr_spec cons ghost)
          rintro _ _ rfl
          exact ih

theorem uartintr_spec (cons : χ) {ghost : Ghost n} (h : ghost.Quiet none) :
    (uartintr cons : Code n χ Unit).wp rule ghost fun _ ghost' => ghost'.Quiet none := by
  obtain ⟨hlk, howns, hcall, -⟩ := h
  refine ⟨?_, fun rounds => ?_⟩
  · change (wakeup .txChan >>= fun _ => perform .rounds >>= fun rounds => uartintrFrom cons rounds : Code n χ Unit).wp
      rule _ _
    apply Program.wp_seq rule_monotone (wakeup_txChan _)
    rintro _ _ rfl rounds
    refine Program.wp_mono rule_monotone ?_ (uartintrFrom_spec cons rounds _)
    rintro _ _ rfl
    exact ⟨hlk, howns, hcall, rfl⟩
  · refine Program.wp_mono rule_monotone ?_ (uartintrFrom_spec cons rounds _)
    rintro _ _ rfl
    exact ⟨hlk, howns, hcall, rfl⟩

theorem wait_spec (chan : χ) {ghost : Ghost n} (h : ghost.Quiet none) :
    (wait chan : Code n χ Unit).wp rule ghost fun _ ghost' => ghost'.Quiet none := by
  intro (waits : Nat)
  cases waits with
  | zero => exact h
  | succ waits =>
      refine ⟨?_, h⟩
      simp

theorem menu_spec (cons : χ) (which : Call χ) {ghost : Ghost n} (h : ghost.Quiet none) :
    (menu cons which).wp rule ghost fun _ ghost' => ghost'.Quiet none := by
  have hkeeps : ∀ {program : Code n χ Unit}, (program.wp rule ghost fun _ ghost' => ghost' = ghost) →
      program.wp rule ghost fun _ ghost' => ghost'.Quiet none := by
    intro program hprogram
    refine Program.wp_mono rule_monotone ?_ hprogram
    rintro _ _ rfl
    exact h
  cases which with
  | uartputcSync c => exact hkeeps (uartputcSync_spec c ghost)
  | uartintr => exact uartintr_spec cons h
  | kkill pid => exact hkeeps (kkillFrom_spec pid _ ghost)
  | wakeup chan => exact hkeeps (wakeup_spec (by simp) ghost)
  | wait chan => exact wait_spec chan h

end Specs

/-! ### The invariant -/

section Inv

variable {n : Nat} {κ χ : Type}

def tagged (call : Fin n × List Byte) : List (Fin n × Byte) := call.2.map fun c => (call.1, c)

/-- What calls of `uartwrite` have written to `THR`. -/
def State.written (state : State n κ χ) : List (Fin n × Byte) :=
  state.line.filterMap fun entry => entry.1.map fun p => (p, entry.2)

def Ghost.sent (ghost : Ghost n) : List Byte := (ghost.call.map Prod.fst).getD []

def State.Awaited (state : State n κ χ) (p : Fin n) : Prop :=
  state.idle = false ∨ state.pending = true ∨ ∃ who, state.due who p = true

/-- `tx_lock` is with one process, and the bytes of the calls are together. -/
structure Together (state : State n κ χ) (ghosts : Fin n ⊕ κ → Ghost n) : Prop where
  lk : ∀ who, (ghosts who).lk ≠ none ↔ state.lk = some who
  locked : ∀ who locked, (ghosts who).lk = some locked → state.locked = locked
  owner : ∀ who, (ghosts who).owns = true → state.locked = true
  unique : ∀ who who', (ghosts who).owns = true → (ghosts who').owns = true → who = who'
  called : ∀ p, state.call p = (ghosts (.inl p)).call.map fun parts => parts.1 ++ parts.2
  written : ∀ p, (ghosts (.inl p)).owns = true →
    state.written = state.finished.flatMap tagged ++ tagged (p, (ghosts (.inl p)).sent)
  free : (∀ p, (ghosts (.inl p)).owns = false) → state.written = state.finished.flatMap tagged

structure Noticed (state : State n κ χ) (ghosts : Fin n ⊕ κ → Ghost n) : Prop where
  due : ∀ who, state.due who = (ghosts who).due
  elsewhere : ∀ p, (ghosts (.inl p)).mark = .elsewhere → (state.proc p).chan ≠ some .txChan
  awaited : ∀ p, (ghosts (.inl p)).mark = .busy ∨ (state.proc p).state = .sleeping →
    (state.proc p).chan = some .txChan → state.Awaited p

def Inv (state : State n κ χ) (ghosts : Fin n ⊕ κ → Ghost n) : Prop := Together state ghosts ∧ Noticed state ghosts

variable {state state' : State n κ χ} {ghosts ghosts' : Fin n ⊕ κ → Ghost n} {who : Fin n ⊕ κ} {ghost : Ghost n}

theorem Together.relock (h : Together state ghosts) (hlk : ∀ other, (ghosts' other).lk ≠ none ↔ state'.lk = some other)
    (hvalue : ∀ other locked, (ghosts' other).lk = some locked → state'.locked = locked)
    (hlocked : state'.locked = state.locked) (howns : ∀ other, (ghosts' other).owns = (ghosts other).owns)
    (hcall : ∀ other, (ghosts' other).call = (ghosts other).call) (hcalls : state'.call = state.call)
    (hwritten : state'.written = state.written) (hfinished : state'.finished = state.finished) :
    Together state' ghosts' where
  lk := hlk
  locked := hvalue
  owner other hother := by
    rw [hlocked]
    exact h.owner other (howns other ▸ hother)
  unique one other hone hother := h.unique one other (howns one ▸ hone) (howns other ▸ hother)
  called p := by
    rw [hcalls, hcall]
    exact h.called p
  written p hp := by
    rw [hwritten, hfinished, Ghost.sent, hcall]
    exact h.written p (howns _ ▸ hp)
  free hfree := by
    rw [hwritten, hfinished]
    exact h.free fun p => howns _ ▸ hfree p

theorem Together.same (h : Together state ghosts) (hlk : state'.lk = state.lk) (hlocked : state'.locked = state.locked)
    (hlks : ∀ other, (ghosts' other).lk = (ghosts other).lk) (howns : ∀ other, (ghosts' other).owns = (ghosts other).owns)
    (hcall : ∀ other, (ghosts' other).call = (ghosts other).call) (hcalls : state'.call = state.call)
    (hwritten : state'.written = state.written) (hfinished : state'.finished = state.finished) :
    Together state' ghosts' := by
  refine h.relock (fun other => ?_) (fun other locked hother => ?_) hlocked howns hcall hcalls hwritten hfinished
  · rw [hlks, hlk]
    exact h.lk other
  · rw [hlocked]
    exact h.locked other locked (hlks other ▸ hother)

theorem Noticed.mono (h : Noticed state ghosts) (hdue : state'.due = state.due)
    (hdues : ∀ other, (ghosts' other).due = (ghosts other).due) (hmark : ∀ other, (ghosts' other).mark = (ghosts other).mark)
    (hchan : ∀ p, (state'.proc p).chan = some .txChan → (state.proc p).chan = some .txChan)
    (hsleeping : ∀ p, (state'.proc p).state = .sleeping → (state.proc p).state = .sleeping)
    (hidle : state'.idle = true → state.idle = true) (hpending : state.pending = true → state'.pending = true) :
    Noticed state' ghosts' where
  due other := by
    rw [hdue, hdues]
    exact h.due other
  elsewhere p hp htx := h.elsewhere p (hmark _ ▸ hp) (hchan p htx)
  awaited p hp htx := by
    rcases h.awaited p (hp.imp (hmark _ ▸ ·) (hsleeping p)) (hchan p htx) with hbusy | hraised | ⟨other, hother⟩
    · exact Or.inl (Bool.eq_false_iff.mpr fun htrue => Bool.eq_false_iff.mp hbusy (hidle htrue))
    · exact Or.inr (Or.inl (hpending hraised))
    · exact Or.inr (Or.inr ⟨other, hdue ▸ hother⟩)

variable [DecidableEq κ]

theorem field_update {β : Type} {field : Ghost n → β} (h : field ghost = field (ghosts who)) (other : Fin n ⊕ κ) :
    field (Function.update ghosts who ghost other) = field (ghosts other) := by
  by_cases hother : other = who
  · rw [hother, Function.update_self, h]
  · rw [Function.update_of_ne hother]

theorem Together.acquire (h : Together state ghosts) (hfree : state.lk = none) :
    Together { state with lk := some who }
      (Function.update ghosts who { ghosts who with lk := some state.locked }) := by
  have hnone : ∀ other, (ghosts other).lk = none := by
    intro other
    by_contra hother
    cases hfree.symm.trans ((h.lk other).mp hother)
  refine h.relock (fun other => ?_) (fun other locked hother => ?_) rfl (field_update rfl) (field_update rfl) rfl rfl rfl
  · by_cases hother : other = who
    · rw [hother, Function.update_self]
      exact iff_of_true (Option.some_ne_none _) rfl
    · rw [Function.update_of_ne hother]
      exact iff_of_false (not_not.mpr (hnone other)) fun heq => hother (Option.some.inj heq).symm
  · by_cases hwho : other = who
    · rw [hwho, Function.update_self] at hother
      exact Option.some.inj hother
    · rw [Function.update_of_ne hwho, hnone other] at hother
      cases hother

theorem Together.release (h : Together state ghosts) (hlk : (ghosts who).lk ≠ none) :
    Together { state with lk := none } (Function.update ghosts who { ghosts who with lk := none }) := by
  have hholder := (h.lk who).mp hlk
  have hothers : ∀ other, other ≠ who → (ghosts other).lk = none := by
    intro other hother
    by_contra hlk'
    exact hother (Option.some.inj (((h.lk other).mp hlk').symm.trans hholder))
  refine h.relock (fun other => ?_) (fun other locked hother => ?_) rfl (field_update rfl) (field_update rfl) rfl rfl rfl
  · by_cases hother : other = who
    · rw [hother, Function.update_self]
      exact iff_of_false (not_not.mpr rfl) (Option.some_ne_none who).symm
    · rw [Function.update_of_ne hother, hothers other hother]
      exact iff_of_false (not_not.mpr rfl) (Option.some_ne_none other).symm
  · by_cases hwho : other = who
    · rw [hwho, Function.update_self] at hother
      cases hother
    · rw [Function.update_of_ne hwho, hothers other hwho] at hother
      cases hother

theorem Together.set {locked : Bool} (h : Together state ghosts) (hlk : (ghosts who).lk ≠ none)
    (hnew : ghost.lk = some locked) (other : Fin n ⊕ κ) :
    ((Function.update ghosts who ghost other).lk ≠ none ↔ state.lk = some other) ∧
      ∀ value, (Function.update ghosts who ghost other).lk = some value → locked = value := by
  have hholder := (h.lk who).mp hlk
  by_cases hother : other = who
  · rw [hother, Function.update_self, hnew]
    exact ⟨iff_of_true (Option.some_ne_none _) hholder, fun value hvalue => Option.some.inj hvalue⟩
  · have hnone : (ghosts other).lk = none := by
      by_contra hlk'
      exact hother (Option.some.inj (((h.lk other).mp hlk').symm.trans hholder))
    rw [Function.update_of_ne hother]
    refine ⟨h.lk other, fun value hvalue => ?_⟩
    rw [hnone] at hvalue
    cases hvalue

omit [DecidableEq κ] in
/-- Nobody has `tx_lock`. -/
theorem Together.unowned (h : Together state ghosts) (hlocked : state.locked = false) (other : Fin n ⊕ κ) :
    (ghosts other).owns = false := by
  rw [Bool.eq_false_iff]
  intro howns
  rw [h.owner other howns] at hlocked
  cases hlocked

theorem Together.lock {p : Fin n} {bytes : List Byte} {pid : Nat} (h : Together state ghosts)
    (hlk : (ghosts (.inl p)).lk = some false) (hcall : (ghosts (.inl p)).call = some ([], bytes)) :
    Together { state with locked := true, pid }
      (Function.update ghosts (.inl p) { ghosts (.inl p) with lk := some true, owns := true }) := by
  have hset := @Together.set n κ χ state ghosts (.inl p) { ghosts (.inl p) with lk := some true, owns := true } _ true h
    (by rw [hlk]; exact Option.some_ne_none _) rfl
  have hcalls : ∀ other, (Function.update ghosts (.inl p)
      { ghosts (.inl p) with lk := some true, owns := true } other).call = (ghosts other).call := field_update rfl
  have hunowned := h.unowned (h.locked _ _ hlk)
  have howner : ∀ other, (Function.update ghosts (.inl p)
      { ghosts (.inl p) with lk := some true, owns := true } other).owns = true → other = .inl p := by
    intro other hother
    by_contra hne
    rw [Function.update_of_ne hne, hunowned] at hother
    cases hother
  refine ⟨fun other => (hset other).1, fun other => (hset other).2, fun _ _ => rfl, fun one other hone hother =>
    (howner one hone).trans (howner other hother).symm, fun q => ?_, fun q hq => ?_, fun hfree => ?_⟩
  · exact (h.called q).trans (congrArg _ (hcalls (.inl q)).symm)
  · obtain rfl := Sum.inl.inj (howner _ hq)
    rw [Function.update_self]
    change state.written = state.finished.flatMap tagged ++ tagged (q, ((ghosts (.inl q)).call.map Prod.fst).getD [])
    rw [hcall, h.free fun other => hunowned _]
    exact (List.append_nil _).symm
  · have hp := hfree p
    rw [Function.update_self] at hp
    cases hp

theorem Together.unlock {p : Fin n} (h : Together state ghosts) (hlk : (ghosts (.inl p)).lk ≠ none)
    (howns : (ghosts (.inl p)).owns = true) (hcall : (ghosts (.inl p)).call = none) :
    Together { state with locked := false, pid := 0 }
      (Function.update ghosts (.inl p) { ghosts (.inl p) with lk := some false, owns := false }) := by
  have hset := @Together.set n κ χ state ghosts (.inl p) { ghosts (.inl p) with lk := some false, owns := false } _ false
    h hlk rfl
  have hcalls : ∀ other, (Function.update ghosts (.inl p)
      { ghosts (.inl p) with lk := some false, owns := false } other).call = (ghosts other).call := field_update rfl
  have hunowned : ∀ other, (Function.update ghosts (.inl p)
      { ghosts (.inl p) with lk := some false, owns := false } other).owns = false := by
    intro other
    by_cases hother : other = .inl p
    · rw [hother, Function.update_self]
    · rw [Function.update_of_ne hother, Bool.eq_false_iff]
      exact fun howns' => hother (h.unique _ _ howns' howns)
  refine ⟨fun other => (hset other).1, fun other => (hset other).2, fun other hother => ?_, fun one other hone => ?_,
    fun q => ?_, fun q hq => ?_, fun _ => ?_⟩
  · rw [hunowned] at hother
    cases hother
  · rw [hunowned] at hone
    cases hone
  · exact (h.called q).trans (congrArg _ (hcalls (.inl q)).symm)
  · rw [hunowned] at hq
    cases hq
  · change state.written = state.finished.flatMap tagged
    rw [h.written p howns, Ghost.sent, hcall]
    exact List.append_nil _

omit [DecidableEq κ] in
/-- What has been written after one more byte. -/
theorem written_transmit (state : State n κ χ) (writer : Option (Fin n)) (c : Byte) :
    (state.transmit writer c).written = state.written ++ (writer.map fun p => (p, c)).toList := by
  rw [State.written, State.transmit, List.filterMap_append]
  cases writer <;> rfl

theorem Together.send {p : Fin n} {c : Byte} {sent rest : List Byte} (h : Together state ghosts)
    (howns : (ghosts (.inl p)).owns = true) (hcall : (ghosts (.inl p)).call = some (sent, c :: rest)) :
    Together (state.transmit (some p) c)
      (Function.update ghosts (.inl p) { ghosts (.inl p) with call := some (sent ++ [c], rest) }) := by
  have howner : ∀ other, (Function.update ghosts (.inl p)
      { ghosts (.inl p) with call := some (sent ++ [c], rest) } other).owns = (ghosts other).owns := field_update rfl
  have hlk : ∀ other, (Function.update ghosts (.inl p)
      { ghosts (.inl p) with call := some (sent ++ [c], rest) } other).lk = (ghosts other).lk := field_update rfl
  refine ⟨fun other => ?_, fun other value hother => ?_, fun other hother => ?_, fun one other hone hother => ?_,
    fun q => ?_, fun q hq => ?_, fun hfree => ?_⟩
  · rw [hlk]
    exact h.lk other
  · exact h.locked other value (hlk other ▸ hother)
  · exact h.owner other (howner other ▸ hother)
  · exact h.unique one other (howner one ▸ hone) (howner other ▸ hother)
  · by_cases hq : q = p
    · rw [hq, Function.update_self]
      calc state.call p = some (sent ++ c :: rest) := by rw [h.called p, hcall, Option.map_some]
        _ = some (sent ++ [c] ++ rest) := by rw [List.append_assoc, List.singleton_append]
    · rw [Function.update_of_ne fun heq => hq (Sum.inl.inj heq)]
      exact h.called q
  · obtain rfl : q = p := Sum.inl.inj (h.unique _ _ (howner _ ▸ hq) howns)
    rw [Function.update_self, written_transmit, h.written q howns, Ghost.sent, hcall, List.append_assoc]
    change _ = state.finished.flatMap tagged ++ tagged (q, sent ++ [c])
    rw [tagged, tagged, List.map_append]
    rfl
  · have hp := hfree p
    rw [howner, howns] at hp
    cases hp

theorem Together.finish {p : Fin n} {sent : List Byte} (h : Together state ghosts)
    (howns : (ghosts (.inl p)).owns = true) (hcall : (ghosts (.inl p)).call = some (sent, [])) :
    Together { state.setCall p none with
        finished := state.finished ++ (state.call p).toList.map fun bytes => (p, bytes) }
      (Function.update ghosts (.inl p) { ghosts (.inl p) with call := none }) := by
  have howner : ∀ other, (Function.update ghosts (.inl p) { ghosts (.inl p) with call := none } other).owns =
      (ghosts other).owns := field_update rfl
  have hlk : ∀ other, (Function.update ghosts (.inl p) { ghosts (.inl p) with call := none } other).lk =
      (ghosts other).lk := field_update rfl
  refine ⟨fun other => ?_, fun other value hother => ?_, fun other hother => ?_, fun one other hone hother => ?_,
    fun q => ?_, fun q hq => ?_, fun hfree => ?_⟩
  · rw [hlk]
    exact h.lk other
  · exact h.locked other value (hlk other ▸ hother)
  · exact h.owner other (howner other ▸ hother)
  · exact h.unique one other (howner one ▸ hone) (howner other ▸ hother)
  · change Function.update state.call p none q = _
    by_cases hq : q = p
    · rw [hq, Function.update_self, Function.update_self]
      rfl
    · rw [Function.update_of_ne hq, Function.update_of_ne fun heq => hq (Sum.inl.inj heq)]
      exact h.called q
  · obtain rfl : q = p := Sum.inl.inj (h.unique _ _ (howner _ ▸ hq) howns)
    rw [Function.update_self]
    change state.written =
      (state.finished ++ (state.call q).toList.map fun bytes => (q, bytes)).flatMap tagged ++ tagged (q, [])
    rw [h.called q, h.written q howns, Ghost.sent, hcall, List.flatMap_append]
    simp [tagged]
  · have hp := hfree p
    rw [howner, howns] at hp
    cases hp

omit [DecidableEq κ] in
theorem proc_setProc_self (p : Fin n) (proc : Proc (Fin n) (Chan χ)) : (state.setProc p proc).proc p = proc :=
  Function.update_self ..

omit [DecidableEq κ] in
theorem proc_setProc_of_ne {p q : Fin n} (hqp : q ≠ p) (proc : Proc (Fin n) (Chan χ)) :
    (state.setProc p proc).proc q = state.proc q := Function.update_of_ne hqp ..

theorem Noticed.sleepPrepare [DecidableEq χ] {p : Fin n} {chan : Chan χ} (h : Noticed state ghosts)
    (hrunning : (state.proc p).state = .running) :
    Noticed (state.setProc p ((state.proc p).sleepPrepare chan)) (Function.update ghosts (.inl p)
      { ghosts (.inl p) with mark := if chan = .txChan then .stale else .elsewhere }) := by
  have hdue : ∀ other, (Function.update ghosts (.inl p)
      { ghosts (.inl p) with mark := if chan = .txChan then .stale else .elsewhere } other).due = (ghosts other).due :=
    field_update rfl
  refine ⟨fun other => (h.due other).trans (hdue other).symm, fun q hq => ?_, fun q hq htx => ?_⟩
  · by_cases hqp : q = p
    · rw [hqp, Function.update_self] at hq
      rw [hqp, proc_setProc_self]
      rintro ⟨⟩
      rw [if_pos rfl] at hq
      cases hq
    · rw [Function.update_of_ne fun heq => hqp (Sum.inl.inj heq)] at hq
      rw [proc_setProc_of_ne hqp]
      exact h.elsewhere q hq
  · by_cases hqp : q = p
    · rw [hqp, Function.update_self, proc_setProc_self] at hq
      rcases hq with hbusy | hsleeping
      · dsimp only at hbusy
        split at hbusy <;> cases hbusy
      · cases hrunning.symm.trans hsleeping
    · rw [Function.update_of_ne fun heq => hqp (Sum.inl.inj heq), proc_setProc_of_ne hqp] at hq
      rw [proc_setProc_of_ne hqp] at htx
      exact h.awaited q hq htx

theorem chan_sleep (proc : Proc (Fin n) (Chan χ)) : proc.sleep.chan = proc.chan := by
  unfold Proc.sleep
  split <;> rfl

theorem Noticed.sleep {p : Fin n} (h : Noticed state ghosts) (hmark : (ghosts (.inl p)).mark ≠ .stale) :
    Noticed (state.setProc p (state.proc p).sleep)
      (Function.update ghosts (.inl p) { ghosts (.inl p) with mark := .stale }) := by
  have hchan : ∀ q, ((state.setProc p (state.proc p).sleep).proc q).chan = (state.proc q).chan := by
    intro q
    by_cases hqp : q = p
    · rw [hqp, proc_setProc_self, chan_sleep]
    · rw [proc_setProc_of_ne hqp]
  have hdue : ∀ other, (Function.update ghosts (.inl p) { ghosts (.inl p) with mark := .stale } other).due =
      (ghosts other).due := field_update rfl
  refine ⟨fun other => (h.due other).trans (hdue other).symm, fun q hq => ?_, fun q hq htx => ?_⟩
  · by_cases hqp : q = p
    · rw [hqp, Function.update_self] at hq
      cases hq
    · rw [Function.update_of_ne fun heq => hqp (Sum.inl.inj heq)] at hq
      rw [hchan]
      exact h.elsewhere q hq
  · rw [hchan] at htx
    by_cases hqp : q = p
    · subst hqp
      cases hknown : (ghosts (.inl q)).mark with
      | stale => exact absurd hknown hmark
      | elsewhere => exact absurd htx (h.elsewhere q hknown)
      | busy => exact h.awaited q (Or.inl hknown) htx
    · rw [Function.update_of_ne fun heq => hqp (Sum.inl.inj heq), proc_setProc_of_ne hqp] at hq
      exact h.awaited q hq htx

section Wake

variable [DecidableEq χ]

theorem chan_of_wakeup {proc : Proc (Fin n) (Chan χ)} {chan chan' : Chan χ} (h : (proc.wakeup chan).chan = some chan') :
    proc.chan = some chan' := by
  by_cases heq : proc.chan = some chan
  · rw [Proc.chan_wakeup_eq_none heq] at h
    cases h
  · rwa [Proc.wakeup_of_ne heq] at h

theorem sleeping_of_wakeup {proc : Proc (Fin n) (Chan χ)} {chan : Chan χ} (h : (proc.wakeup chan).state = .sleeping) :
    proc.state = .sleeping := by
  by_cases heq : proc.chan = some chan
  · exact absurd h (Proc.wakeup_ne_sleeping heq)
  · rwa [Proc.wakeup_of_ne heq] at h

theorem Noticed.wakeup {p : Fin n} (h : Noticed state ghosts) :
    Noticed ((state.setProc p ((state.proc p).wakeup .txChan)).setDue who (Function.update (state.due who) p false))
      (Function.update ghosts who { ghosts who with due := Function.update (ghosts who).due p false }) := by
  have hmark : ∀ other, (Function.update ghosts who
      { ghosts who with due := Function.update (ghosts who).due p false } other).mark = (ghosts other).mark :=
    field_update rfl
  have hproc : ∀ q, q ≠ p → ((state.setProc p ((state.proc p).wakeup .txChan)).setDue who
      (Function.update (state.due who) p false)).proc q = state.proc q := fun q hqp => Function.update_of_ne hqp ..
  have hwoken : ((state.setProc p ((state.proc p).wakeup .txChan)).setDue who
      (Function.update (state.due who) p false)).proc p = (state.proc p).wakeup .txChan := Function.update_self ..
  refine ⟨fun other => ?_, fun q hq => ?_, fun q hq htx => ?_⟩
  · change Function.update state.due who _ other = _
    by_cases hother : other = who
    · rw [hother, Function.update_self, Function.update_self, h.due who]
    · rw [Function.update_of_ne hother, Function.update_of_ne hother, h.due other]
  · rw [hmark] at hq
    by_cases hqp : q = p
    · rw [hqp, hwoken]
      exact Proc.chan_wakeup_ne
    · rw [hproc q hqp]
      exact h.elsewhere q hq
  · by_cases hqp : q = p
    · rw [hqp, hwoken] at htx
      exact absurd htx Proc.chan_wakeup_ne
    · rw [hmark, hproc q hqp] at hq
      rw [hproc q hqp] at htx
      rcases h.awaited q hq htx with hbusy | hraised | ⟨other, hother⟩
      · exact Or.inl hbusy
      · exact Or.inr (Or.inl hraised)
      · refine Or.inr (Or.inr ⟨other, ?_⟩)
        change Function.update state.due who _ other q = true
        by_cases hwho : other = who
        · rw [hwho, Function.update_self, Function.update_of_ne hqp, ← hwho]
          exact hother
        · rw [Function.update_of_ne hwho]
          exact hother

end Wake

theorem Noticed.of_awaited {due : Fin n → Bool} {mark : Mark} (h : Noticed state ghosts) (hmark : mark ≠ .elsewhere ∨
    mark = (ghosts who).mark) (hproc : state'.proc = state.proc) (hdue : state'.due = Function.update state.due who due)
    (hall : ∀ p, state'.Awaited p) : Noticed state' (Function.update ghosts who { ghosts who with mark, due }) := by
  refine ⟨fun other => ?_, fun q hq => ?_, fun q _ _ => hall q⟩
  · rw [hdue]
    by_cases hother : other = who
    · rw [hother, Function.update_self, Function.update_self]
    · rw [Function.update_of_ne hother, Function.update_of_ne hother, h.due other]
  · rw [hproc]
    by_cases hqwho : .inl q = who
    · rw [hqwho, Function.update_self] at hq
      refine h.elsewhere q ?_
      rw [hqwho, ← hmark.resolve_left (not_not.mpr hq)]
      exact hq
    · rw [Function.update_of_ne hqwho] at hq
      exact h.elsewhere q hq

theorem Noticed.update (h : Noticed state ghosts) (hdue : state'.due = state.due) (hproc : state'.proc = state.proc)
    (hidle : state'.idle = true → state.idle = true) (hpending : state'.pending = state.pending)
    (hghostDue : ghost.due = (ghosts who).due) (hghostMark : ghost.mark = (ghosts who).mark) :
    Noticed state' (Function.update ghosts who ghost) :=
  h.mono hdue (field_update hghostDue) (field_update hghostMark) (fun _ htx => hproc ▸ htx)
    (fun _ hsleeping => hproc ▸ hsleeping) hidle fun hraised => hpending ▸ hraised

end Inv

/-! ### Every step keeps it -/

section Sound

variable {n : Nat} {κ χ : Type} [DecidableEq κ] {state state' : State n κ χ} {ghosts : Fin n ⊕ κ → Ghost n}
  {who : Fin n ⊕ κ}

theorem Inv.same (h : Inv state ghosts) : Inv state (Function.update ghosts who (ghosts who)) := by
  rwa [Function.update_eq_self]

theorem Inv.sync (h : Inv state ghosts) (c : Byte) :
    Inv (state.transmit none c) (Function.update ghosts who (ghosts who)) := by
  rw [Function.update_eq_self]
  refine ⟨h.1.same rfl rfl (fun _ => rfl) (fun _ => rfl) (fun _ => rfl) rfl ?_ rfl, ?_⟩
  · rw [written_transmit]
    exact List.append_nil _
  · exact h.2.mono rfl (fun _ => rfl) (fun _ => rfl) (fun _ => id) (fun _ => id) (fun hidle => by cases hidle) id

omit [DecidableEq κ] in
/-- The rest of the state changes. -/
theorem Inv.frame (h : Inv state ghosts) (hproc : state'.proc = state.proc) (hlk : state'.lk = state.lk)
    (hlocked : state'.locked = state.locked) (hline : state'.line = state.line) (hcall : state'.call = state.call)
    (hfinished : state'.finished = state.finished) (hdue : state'.due = state.due) (hidle : state'.idle = state.idle)
    (hpending : state'.pending = state.pending) : Inv state' ghosts := by
  refine ⟨h.1.same hlk hlocked (fun _ => rfl) (fun _ => rfl) (fun _ => rfl) hcall ?_ hfinished,
    h.2.mono hdue (fun _ => rfl) (fun _ => rfl) (fun _ htx => hproc ▸ htx) (fun _ hasleep => hproc ▸ hasleep)
      (fun hyes => hidle ▸ hyes) fun hraised => hpending ▸ hraised⟩
  rw [State.written, hline, State.written]

omit [DecidableEq κ] in
/-- What becomes of one process, but that it is put to sleep or registered. -/
theorem Inv.setProc {p : Fin n} {proc : Proc (Fin n) (Chan χ)} (h : Inv state ghosts)
    (hchan : proc.chan = some .txChan → (state.proc p).chan = some .txChan)
    (hsleeping : proc.state = .sleeping → (state.proc p).state = .sleeping) : Inv (state.setProc p proc) ghosts := by
  refine ⟨h.1.same rfl rfl (fun _ => rfl) (fun _ => rfl) (fun _ => rfl) rfl rfl rfl, h.2.mono rfl (fun _ => rfl)
    (fun _ => rfl) (fun q htx => ?_) (fun q hq => ?_) id id⟩
  · by_cases hqp : q = p
    · rw [hqp, proc_setProc_self] at htx
      exact hqp ▸ hchan htx
    · rwa [proc_setProc_of_ne hqp] at htx
  · by_cases hqp : q = p
    · rw [hqp, proc_setProc_self] at hq
      exact hqp ▸ hsleeping hq
    · rwa [proc_setProc_of_ne hqp] at hq

theorem Together.note {mark : Mark} {due : Fin n → Bool} (h : Together state ghosts) (hlk : state'.lk = state.lk)
    (hlocked : state'.locked = state.locked) (hcalls : state'.call = state.call)
    (hline : state'.line = state.line) (hfinished : state'.finished = state.finished) :
    Together state' (Function.update ghosts who { ghosts who with mark, due }) :=
  h.same hlk hlocked (field_update rfl) (field_update rfl) (field_update rfl) hcalls
    (by rw [State.written, hline, State.written]) hfinished

variable [DecidableEq χ]

theorem handler_sound : Threads.HandlerSound (handler : Handler (steps n χ) (State n κ χ) (Fin n ⊕ κ)) rule Inv
    fun _ _ _ => True := by
  intro who state ghosts op choice response state' Q hinv _ hrule hstep
  unfold handler at hstep
  split at hstep
  next hruns =>
    cases op with
    | acquire =>
        simp only [act] at hstep
        split at hstep
        next hfree =>
          cases hstep
          exact ⟨_, hrule.2 state.locked, hinv.1.acquire hfree,
            hinv.2.update rfl rfl id rfl rfl rfl⟩
        next => cases hstep
    | release =>
        simp only [act] at hstep
        cases hstep
        exact ⟨_, hrule.2, hinv.1.release hrule.1, hinv.2.update rfl rfl id rfl rfl rfl⟩
    | locked =>
        simp only [act] at hstep
        obtain ⟨locked, hlk, hnext⟩ := hrule
        cases hstep
        exact ⟨_, hinv.1.locked who locked hlk ▸ hnext, hinv.same⟩
    | lock =>
        obtain ⟨hlk, ⟨bytes, hcall⟩, hnext⟩ := hrule
        cases who with
        | inr k => cases hstep
        | inl p =>
            cases hstep
            exact ⟨_, hnext, hinv.1.lock hlk hcall, hinv.2.update rfl rfl id rfl rfl rfl⟩
    | unlock =>
        obtain ⟨hlk, howns, hcall, hnext⟩ := hrule
        cases who with
        | inr k => cases hstep
        | inl p =>
            cases hstep
            exact ⟨_, hnext, hinv.1.unlock hlk howns hcall, hinv.2.update rfl rfl id rfl rfl rfl⟩
    | sleepPrepare chan =>
        cases who with
        | inr k => cases hstep
        | inl p =>
            cases hstep
            exact ⟨_, hrule, hinv.1.note rfl rfl rfl rfl rfl, hinv.2.sleepPrepare (of_decide_eq_true hruns)⟩
    | sleep =>
        cases who with
        | inr k => cases hstep
        | inl p =>
            cases hstep
            exact ⟨_, hrule.2, hinv.1.note rfl rfl rfl rfl rfl, hinv.2.sleep hrule.1⟩
    | wakeup chan p =>
        simp only [act] at hstep
        by_cases hchan : chan = .txChan
        · subst hchan
          rw [if_pos rfl] at hstep
          cases hstep
          exact ⟨_, hrule, hinv.1.note rfl rfl rfl rfl rfl, hinv.2.wakeup⟩
        · rw [if_neg hchan] at hstep
          cases hstep
          refine ⟨_, hrule, ?_⟩
          rw [if_neg hchan]
          exact (hinv.setProc chan_of_wakeup sleeping_of_wakeup).same
    | kkill pid p =>
        simp only [act] at hstep
        split at hstep
        · cases hstep
          refine ⟨_, hrule true, Inv.same ?_⟩
          exact hinv.setProc (fun htx => htx) fun hsleeping => absurd hsleeping (Proc.kill_ne_sleeping _)
        · cases hstep
          exact ⟨_, hrule false, hinv.same⟩
    | txIdle =>
        simp only [act] at hstep
        split at hstep
        · cases hstep
          exact ⟨_, hrule.1, hinv.same⟩
        next hidle =>
          cases hstep
          refine ⟨_, hrule.2, hinv.1.note rfl rfl rfl rfl rfl, hinv.2.of_awaited (Or.inl (by decide)) rfl rfl fun p => ?_⟩
          exact Or.inl (Bool.eq_false_iff.mpr hidle)
    | send c =>
        obtain ⟨sent, rest, howns, hcall, hnext⟩ := hrule
        cases who with
        | inr k => cases hstep
        | inl p =>
            cases hstep
            exact ⟨_, hnext, hinv.1.send howns hcall,
              hinv.2.update rfl rfl (fun hidle => by cases hidle) rfl rfl rfl⟩
    | finish =>
        obtain ⟨sent, howns, hcall, hnext⟩ := hrule
        cases who with
        | inr k => cases hstep
        | inl p =>
            cases hstep
            exact ⟨_, hnext, hinv.1.finish howns hcall, hinv.2.update rfl rfl id rfl rfl rfl⟩
    | awaitIdle =>
        simp only [act] at hstep
        split at hstep <;> cases hstep
        exact ⟨_, hrule (), hinv.same⟩
    | sendSync c =>
        simp only [act] at hstep
        cases hstep
        exact ⟨_, hrule (), hinv.sync c⟩
    | acknowledge =>
        simp only [act] at hstep
        cases hstep
        refine ⟨_, hrule, hinv.1.note rfl rfl rfl rfl rfl, hinv.2.of_awaited (Or.inr rfl) rfl rfl fun p => ?_⟩
        refine Or.inr (Or.inr ⟨who, ?_⟩)
        change Function.update state.due who _ who p = true
        rw [Function.update_self]
    | receive =>
        simp only [act] at hstep
        cases hstep
        refine ⟨_, hrule _, Inv.same ?_⟩
        exact hinv.frame rfl rfl rfl rfl rfl rfl rfl rfl rfl
    | panicked | rxReady | echo | rounds =>
        simp only [act] at hstep
        cases hstep
        exact ⟨_, hrule _, hinv.same⟩
    | stop => cases who <;> cases hstep
  next => cases hstep

omit [DecidableEq χ] in
/-- A process has called `uartwrite`. -/
theorem Inv.begin {p : Fin n} {bytes : List Byte} (h : Inv state ghosts) (hquiet : (ghosts (.inl p)).Quiet none) :
    Inv (state.setCall p (some bytes))
      (Function.update ghosts (.inl p) { ghosts (.inl p) with call := some ([], bytes) }) := by
  obtain ⟨-, howns, -, -⟩ := hquiet
  have hlk : ∀ other, (Function.update ghosts (.inl p) { ghosts (.inl p) with call := some ([], bytes) } other).lk =
      (ghosts other).lk := field_update rfl
  have howner : ∀ other, (Function.update ghosts (.inl p)
      { ghosts (.inl p) with call := some ([], bytes) } other).owns = (ghosts other).owns := field_update rfl
  refine ⟨⟨fun other => ?_, fun other value hother => ?_, fun other hother => ?_, fun one other hone hother => ?_,
    fun q => ?_, fun q hq => ?_, fun hfree => ?_⟩, h.2.update rfl rfl id rfl rfl rfl⟩
  · rw [hlk]
    exact h.1.lk other
  · exact h.1.locked other value (hlk other ▸ hother)
  · exact h.1.owner other (howner other ▸ hother)
  · exact h.1.unique one other (howner one ▸ hone) (howner other ▸ hother)
  · change Function.update state.call p (some bytes) q = _
    by_cases hq : q = p
    · rw [hq, Function.update_self, Function.update_self]
      rfl
    · rw [Function.update_of_ne hq, Function.update_of_ne fun heq => hq (Sum.inl.inj heq)]
      exact h.1.called q
  · rw [howner] at hq
    have hqp : (.inl q : Fin n ⊕ κ) ≠ .inl p := by
      intro heq
      rw [heq, howns] at hq
      cases hq
    rw [Function.update_of_ne hqp]
    exact h.1.written q hq
  · exact h.1.free fun q => howner _ ▸ hfree q

abbrev Verified (world : World n κ χ) : Prop := Threads.Verified rule Inv (fun _ _ ghost => ghost.Quiet none) world

omit [DecidableEq κ] [DecidableEq χ] in
theorem ret_of_returned {world : World n κ χ} (h : Returned world who = true) : world.thread who = .ret () := by
  unfold Returned at h
  cases hthread : world.thread who with
  | ret value => rfl
  | call op next =>
      rw [hthread] at h
      cases h

omit [DecidableEq κ] in
theorem moves_sound {world world' : World n κ χ} {p : Fin n} {guard : Bool} {proc : Proc (Fin n) (Chan χ)}
    (h : Verified world) (hmoves : moves world p guard proc = some world')
    (hchan : guard = true → proc.chan = some .txChan → (world.shared.proc p).chan = some .txChan)
    (hsleeping : guard = true → proc.state = .sleeping → (world.shared.proc p).state = .sleeping) : Verified world' := by
  obtain ⟨ghosts, hinv, hwp⟩ := h
  unfold moves at hmoves
  split at hmoves
  next hguard =>
    cases hmoves
    exact ⟨ghosts, hinv.setProc (hchan hguard) (hsleeping hguard), hwp⟩
  next => cases hmoves

theorem env_sound (cons : χ) : Threads.EnvSound (system cons : Threads.System (steps n χ) (State n κ χ) _ _ _ _).environment
    rule Inv fun _ _ ghost => ghost.Quiet none := by
  intro world event world' hverified hstep
  change environment world event = some world' at hstep
  obtain ⟨ghosts, hinv, hwp⟩ := hverified
  cases event with
  | uartwrite p buf size =>
      simp only [environment] at hstep
      split at hstep
      next hguard =>
        cases hstep
        have hquiet := hwp (.inl p)
        rw [ret_of_returned (Bool.and_eq_true_iff.mp hguard).1, Program.wp_ret] at hquiet
        refine ⟨_, hinv.begin hquiet, fun other => ?_⟩
        by_cases hother : other = .inl p
        · subst hother
          dsimp only
          rw [Function.update_self, Function.update_self]
          exact uartwrite_spec ⟨hquiet.1, hquiet.2.1, rfl, hquiet.2.2.2⟩
        · dsimp only
          rw [Function.update_of_ne hother, Function.update_of_ne hother]
          exact hwp other
      next => cases hstep
  | transmitted =>
      simp only [environment] at hstep
      split at hstep
      next => cases hstep
      next =>
        cases hstep
        refine ⟨ghosts, ⟨hinv.1.same rfl rfl (fun _ => rfl) (fun _ => rfl) (fun _ => rfl) rfl rfl rfl, hinv.2.due,
          hinv.2.elsewhere, fun p _ _ => Or.inr (Or.inl rfl)⟩, hwp⟩
  | receive c | panic =>
      cases hstep
      exact ⟨ghosts, hinv.frame rfl rfl rfl rfl rfl rfl rfl rfl rfl, hwp⟩
  | dispatch p =>
      exact moves_sound ⟨ghosts, hinv, hwp⟩ hstep (fun _ => id) fun _ hsleeping => by cases hsleeping
  | yield p =>
      exact moves_sound ⟨ghosts, hinv, hwp⟩ hstep (fun _ => id) fun _ hsleeping => by cases hsleeping
  | exit p =>
      exact moves_sound ⟨ghosts, hinv, hwp⟩ hstep (fun _ => id) fun _ hsleeping => by cases hsleeping
  | free p =>
      exact moves_sound ⟨ghosts, hinv, hwp⟩ hstep (fun _ htx => by cases htx) fun _ hsleeping => by cases hsleeping
  | alloc p =>
      simp only [environment] at hstep
      split at hstep
      next =>
        cases hstep
        refine ⟨ghosts, ?_, hwp⟩
        have hmoved : Inv (world.shared.setProc p
            { world.shared.proc p with state := .runnable, pid := world.shared.nextpid }) ghosts :=
          hinv.setProc (fun htx => htx) fun hsleeping => by cases hsleeping
        exact hmoved.frame rfl rfl rfl rfl rfl rfl rfl rfl rfl
      next => cases hstep

omit [DecidableEq κ] in
theorem boot_verified (idle pending : Bool) : Verified (boot n κ χ idle pending) := by
  refine ⟨fun _ => ⟨none, false, none, .stale, fun _ => false⟩, ⟨⟨fun _ => ?_, ?_, ?_, ?_, fun _ => rfl, ?_, fun _ => rfl⟩,
    fun _ => rfl, ?_, ?_⟩, fun _ => ⟨rfl, rfl, rfl, rfl⟩⟩
  · exact iff_of_false (not_not.mpr rfl) (Option.some_ne_none _).symm
  all_goals simp [boot, Proc.empty]

theorem verified_run {cons : χ} {world world' : World n κ χ}
    {actions : List (Threads.Action (Fin n ⊕ κ) (Call χ) (Env n))} (hverified : Verified world)
    (hrun : Transition.run (Threads.step (system cons)) world actions = some world') : Verified world' := by
  refine Threads.sound_run handler_sound (env_sound cons) ?_ hverified hrun
  intro who call value program ghost hprogram hquiet
  obtain rfl := Option.some.inj hprogram
  exact menu_spec cons call hquiet

end Sound

/-! ### Every run -/

section Runs

variable {n : Nat} {κ χ : Type}

/-- The calls of `uartwrite` that a process has begun in a run, each as the bytes that it is to send. -/
def begun (p : Fin n) (actions : List (Threads.Action (Fin n ⊕ κ) (Call χ) (Env n))) : List (List Byte) :=
  actions.filterMap fun
    | .env (.uartwrite q buf size) => if q = p then some (bytesOf buf size) else none
    | _ => none

def State.calls (state : State n κ χ) (p : Fin n) : List (List Byte) :=
  (state.finished.filter fun call => call.1 = p).map Prod.snd ++ (state.call p).toList

/-- What the runs have come to. -/
structure Transmits (actions : List (Threads.Action (Fin n ⊕ κ) (Call χ) (Env n))) (world : World n κ χ) : Prop where
  /-- `THR` has got the bytes of the calls that have left their loop, one call after the other, and then some of the bytes of
  one call that a process is in. -/
  whole : ∃ part, world.shared.written = world.shared.finished.flatMap tagged ++ part ∧
    (part = [] ∨ ∃ p bytes, world.shared.call p = some bytes ∧ part <+: tagged (p, bytes))
  /-- Each call is there once. -/
  once : ∀ p, world.shared.calls p = begun p actions
  returned : ∀ p, Returned world (.inl p) = true → world.shared.call p = none
  awaited : ∀ p, (world.shared.proc p).state = .sleeping → (world.shared.proc p).chan = some .txChan →
    world.shared.Awaited p
  handled : ∀ who, Returned world who = true → ∀ p, world.shared.due who p = false

theorem begun_concat (p : Fin n) (actions : List (Threads.Action (Fin n ⊕ κ) (Call χ) (Env n)))
    (action : Threads.Action (Fin n ⊕ κ) (Call χ) (Env n)) :
    begun p (actions ++ [action]) = begun p actions ++ begun p [action] := List.filterMap_append

theorem calls_congr {state state' : State n κ χ} (hfinished : state'.finished = state.finished)
    (hcall : state'.call = state.call) (p : Fin n) : state'.calls p = state.calls p := by
  rw [State.calls, hfinished, hcall, State.calls]

variable [DecidableEq κ] [DecidableEq χ]

theorem calls_handler {state state' : State n κ χ} {who : Fin n ⊕ κ} {op : (steps n χ).Op} {choice : Nat}
    {response : (steps n χ).Resp op} (hstep : handler who state op choice = some (response, state')) (p : Fin n) :
    state'.calls p = state.calls p := by
  unfold handler at hstep
  split at hstep
  next =>
    cases op with
    | finish =>
        cases who with
        | inr k => cases hstep
        | inl q =>
            cases hstep
            change ((state.finished ++ (state.call q).toList.map fun bytes => (q, bytes)).filter fun call =>
              call.1 = p).map Prod.snd ++ (Function.update state.call q none p).toList = _
            rw [State.calls, List.filter_append, List.map_append, List.append_assoc]
            by_cases hpq : p = q
            · rw [hpq, Function.update_self]
              cases state.call q <;> simp
            · rw [Function.update_of_ne hpq]
              cases state.call q <;> simp [Ne.symm hpq]
    | acquire | txIdle | awaitIdle | kkill pid q =>
        simp only [act] at hstep
        split at hstep <;> cases hstep <;> exact calls_congr rfl rfl p
    | wakeup chan q =>
        simp only [act] at hstep
        split at hstep <;> cases hstep <;> exact calls_congr rfl rfl p
    | lock | unlock | sleepPrepare chan | sleep | send c =>
        cases who with
        | inr k => cases hstep
        | inl q =>
            cases hstep
            exact calls_congr rfl rfl p
    | stop => cases who <;> cases hstep
    | _ =>
        simp only [act] at hstep
        cases hstep
        exact calls_congr rfl rfl p
  next => cases hstep

omit [DecidableEq κ] [DecidableEq χ] in
theorem calls_moves {world world' : World n κ χ} {p q : Fin n} {guard : Bool} {proc : Proc (Fin n) (Chan χ)}
    (hmoves : moves world q guard proc = some world') : world'.shared.calls p = world.shared.calls p := by
  unfold moves at hmoves
  split at hmoves
  next =>
    cases hmoves
    exact calls_congr rfl rfl p
  next => cases hmoves

theorem calls_step {cons : χ} {world world' : World n κ χ} {action : Threads.Action (Fin n ⊕ κ) (Call χ) (Env n)}
    (hverified : Verified world) (hstep : Threads.step (system cons) world action = some world') (p : Fin n) :
    world'.shared.calls p = world.shared.calls p ++ begun p [action] := by
  have hsame : world'.shared.calls p = world.shared.calls p → begun p [action] = [] →
      world'.shared.calls p = world.shared.calls p ++ begun p [action] := fun h hnone => by rw [h, hnone, List.append_nil]
  cases action with
  | perform who choice =>
      refine hsame ?_ rfl
      cases hthread : world.thread who with
      | ret value =>
          change Threads.performStep _ _ _ _ = _ at hstep
          simp [Threads.performStep, hthread] at hstep
      | call op next =>
          obtain ⟨response, shared', hresult, rfl⟩ := Threads.performStep_of_call hthread hstep
          exact calls_handler hresult p
  | start who which =>
      refine hsame ?_ rfl
      obtain ⟨value, program, -, rfl⟩ := Threads.startStep_cases hstep
      rfl
  | env event =>
      change environment world event = some world' at hstep
      cases event with
      | uartwrite q buf size =>
          simp only [environment] at hstep
          split at hstep
          next hguard =>
            cases hstep
            obtain ⟨ghosts, hinv, hwp⟩ := hverified
            have hquiet := hwp (.inl q)
            rw [ret_of_returned (Bool.and_eq_true_iff.mp hguard).1, Program.wp_ret] at hquiet
            have hnone : world.shared.call q = none := by rw [hinv.1.called q, hquiet.2.2.1, Option.map_none]
            change _ ++ (Function.update world.shared.call q (some (bytesOf buf size)) p).toList = _
            rw [State.calls, List.append_assoc]
            refine congrArg _ ?_
            by_cases hpq : p = q
            · rw [hpq, Function.update_self, hnone]
              simp [begun]
            · rw [Function.update_of_ne hpq]
              simp [begun, Ne.symm hpq]
          next => cases hstep
      | transmitted | alloc q =>
          simp only [environment] at hstep
          split at hstep <;> cases hstep
          exact hsame (calls_congr rfl rfl p) rfl
      | receive c | panic =>
          cases hstep
          exact hsame (calls_congr rfl rfl p) rfl
      | dispatch q | yield q | exit q | free q => exact hsame (calls_moves hstep) rfl

omit [DecidableEq κ] [DecidableEq χ] in
/-- The call that has `tx_lock` is the one that is not whole. -/
theorem Together.whole {state : State n κ χ} {ghosts : Fin n ⊕ κ → Ghost n} (h : Together state ghosts) :
    ∃ part, state.written = state.finished.flatMap tagged ++ part ∧
      (part = [] ∨ ∃ p bytes, state.call p = some bytes ∧ part <+: tagged (p, bytes)) := by
  by_cases howned : ∃ p, (ghosts (.inl p)).owns = true
  · obtain ⟨p, hp⟩ := howned
    refine ⟨_, h.written p hp, ?_⟩
    cases hcall : (ghosts (.inl p)).call with
    | none =>
        left
        rw [Ghost.sent, hcall]
        rfl
    | some parts =>
        refine Or.inr ⟨p, parts.1 ++ parts.2, by rw [h.called p, hcall, Option.map_some], ?_⟩
        rw [Ghost.sent, hcall, tagged, tagged, List.map_append]
        exact List.prefix_append _ _
  · refine ⟨[], ?_, Or.inl rfl⟩
    rw [List.append_nil]
    exact h.free fun p => Bool.eq_false_iff.mpr fun hp => howned ⟨p, hp⟩

/-- **Whole buffers, and no lost wakeup**, in every run. -/
theorem transmits_of_run {cons : χ} {idle pending : Bool} {actions : List (Threads.Action (Fin n ⊕ κ) (Call χ) (Env n))}
    {world : World n κ χ} (hrun : Transition.run (Threads.step (system cons)) (boot n κ χ idle pending) actions = some world) :
    Transmits actions world := by
  obtain ⟨ghosts, hinv, hwp⟩ := verified_run (boot_verified idle pending) hrun
  have hquiet : ∀ who, Returned world who = true → (ghosts who).Quiet none := by
    intro who hreturned
    have hpost := hwp who
    rwa [ret_of_returned hreturned, Program.wp_ret] at hpost
  refine ⟨hinv.1.whole, ?_, fun p hreturned => ?_, fun p hsleeping => hinv.2.awaited p (Or.inr hsleeping),
    fun who hreturned p => ?_⟩
  · have hhistory : Verified world ∧ ∀ p, world.shared.calls p = begun p actions := by
      refine @Transition.invariant_history _ _ (Threads.step (system cons)) _ _
        (fun actions world => Verified world ∧ ∀ p, world.shared.calls p = begun p actions)
        ⟨boot_verified idle pending, fun p => rfl⟩ ?_ _ hrun
      rintro actions before action after ⟨hverified, hcalls⟩ hstep
      refine ⟨?_, fun p => ?_⟩
      · have hone : Transition.run (Threads.step (system cons)) before [action] = some after :=
          Transition.run_cons.mpr ⟨after, hstep, rfl⟩
        exact verified_run hverified hone
      · rw [begun_concat, ← hcalls p]
        exact calls_step hverified hstep p
    exact hhistory.2
  · rw [hinv.1.called p, (hquiet _ hreturned).2.2.1, Option.map_none]
  · rw [hinv.2.due who, (hquiet _ hreturned).2.2.2]

/-- A process sends a byte, finds the UART busy, and sleeps. -/
def sendsAndSleeps : List (Threads.Action (Fin 1 ⊕ Unit) (Call Unit) (Env 1)) :=
  [.env (.alloc 0), .env (.dispatch 0), .env (.uartwrite 0 (fun _ => 0x78) 2)] ++
    List.replicate 12 (.perform (.inl 0) 5)

/-- The UART is idle again, its interrupt is handled, and the process sends the other byte and returns. -/
def isWoken : List (Threads.Action (Fin 1 ⊕ Unit) (Call Unit) (Env 1)) :=
  [.env .transmitted, .start (.inr ()) .uartintr] ++ List.replicate 5 (.perform (.inr ()) 1) ++ [.env (.dispatch 0)] ++
    List.replicate 8 (.perform (.inl 0) 5)

theorem transmits_of_run_woken : ∃ world : World 1 Unit Unit,
    Transition.run (Threads.step (system ())) (boot 1 Unit Unit true false) (sendsAndSleeps ++ isWoken) = some world ∧
      Transmits (sendsAndSleeps ++ isWoken) world ∧ world.shared.line = [(some 0, 0x78), (some 0, 0x78)] := by
  have hend : (Transition.run (Threads.step (system ())) (boot 1 Unit Unit true false) (sendsAndSleeps ++ isWoken)).map
      (fun world => world.shared.line) = some [(some 0, 0x78), (some 0, 0x78)] := by decide +kernel
  obtain ⟨world, hrun, hline⟩ := Option.map_eq_some_iff.mp hend
  exact ⟨world, hrun, transmits_of_run hrun, hline⟩

end Runs

end Xv6.UartWrite
