import Xv6.Proc.SleepLock

/-!
# Sleep-locks exclude each other and strand nobody

Every move of a process does one of three things to the sleep-lock: nothing, take it while it is
free, or give it back and start waking. What a process on its way to sleep relies on is that the
lock is taken, or that the `wakeup` of the process giving it back has yet to reach its slot.
-/

namespace Xv6.SleepLock

variable {n : Nat} {Chan : Type} {design : Design} {lk : Chan}

namespace Agent

@[simp]
def Owns (a : Agent n Chan) : Prop := a.holding = true ∨ a.pc = .taken ∨ a.pc = .releasing

@[simp]
def Waits (lk : Chan) (a : Agent n Chan) : Prop :=
  (a.proc.chan = some lk ∧ (a.proc.state = .sleeping ∨ a.pc = .prepared ∨ a.pc = .waiting)) ∨
    a.pc = .committed ∨ a.pc = .switching

structure Local (design : Design) (lk : Chan) (a : Agent n Chan) : Prop where
  /-- A process with a spinlock is on a processor. -/
  runs : a.pc.Inside ∨ a.pc.HoldsProc → a.proc.state = .running
  live : a.pc ≠ .outside ∨ a.holding → a.proc.Live
  elsewhere : a.pc = .elsewhere → a.proc.chan ≠ some lk
  releasing : a.pc = .releasing → a.holding = false
  arm64 : design = .arm64 → a.pc ≠ .prepared ∧ a.pc ≠ .waiting

end Agent

/-- What a move of `who` does to it and to the lock. -/
structure Effect (design : Design) (lk : Chan) (who : Fin n) (a : Agent n Chan) (l : Sleeplock n)
    (a' : Agent n Chan) (l' : Sleeplock n) : Prop where
  isLocal : a'.Local design lk
  holder : l'.holder = l.holder ∨ l.holder = none ∨ l.holder = some who
  inside : a'.pc.Inside → l'.holder = some who
  lock :
    (l'.locked = l.locked ∧ l'.pid = l.pid ∧ (a'.Owns ↔ a.Owns) ∧
      (a.Owns → a'.proc.pid = a.proc.pid)) ∨
    (l.locked = false ∧ l'.locked = true ∧ a'.Owns ∧ l'.pid = a'.proc.pid) ∨
    (a.Owns ∧ l'.locked = false ∧ ¬ a'.Owns ∧ a'.pc = .waking (List.finRange n))
  waits : a'.Waits lk → a.Waits lk ∨ l'.locked = true
  waking : ∀ rest, a.pc = .waking rest → a'.pc = .waking rest ∨ rest = []

variable {who : Fin n} {a a' : Agent n Chan} {l l' : Sleeplock n}

theorem Effect.of_proc (hlocal : a.Local design lk) (hinside : a.pc.Inside → l.holder = some who)
    {proc : Proc (Fin n) Chan} (hruns : a.pc.Inside ∨ a.pc.HoldsProc → proc.state = .running)
    (hlive : a.pc ≠ .outside ∨ a.holding → proc.Live)
    (hchan : proc.chan = some lk → a.proc.chan = some lk)
    (hsleeps : proc.state = .sleeping → a.proc.state = .sleeping)
    (hpid : a.pc ≠ .outside ∨ a.holding → proc.pid = a.proc.pid) :
    Effect design lk who a l { a with proc } l where
  isLocal := ⟨hruns, hlive, fun hpc heq => hlocal.elsewhere hpc (hchan heq), hlocal.releasing,
    hlocal.arm64⟩
  holder := Or.inl rfl
  inside := hinside
  lock := by
    refine Or.inl ⟨rfl, rfl, Iff.rfl, fun howns => hpid ?_⟩
    obtain hhold | hpc | hpc := howns
    · exact Or.inr hhold
    · exact Or.inl (by simp [hpc])
    · exact Or.inl (by simp [hpc])
  waits := by
    rintro (⟨heq, hon⟩ | hcommits)
    · exact Or.inl (Or.inl ⟨hchan heq, hon.imp_left hsleeps⟩)
    · exact Or.inl (Or.inr hcommits)
  waking _ hpc := Or.inl hpc

structure Woken (p p' : Proc (Fin n) Chan) : Prop where
  state : p'.state = p.state ∨ p.state = .sleeping ∧ p'.state = .runnable
  chan : ∀ chan, p'.chan = some chan → p.chan = some chan
  pid : p'.pid = p.pid

theorem Woken.effect {proc : Proc (Fin n) Chan} (h : Woken a.proc proc)
    (hlocal : a.Local design lk) (hinside : a.pc.Inside → l.holder = some who) :
    Effect design lk who a l { a with proc } l := by
  refine .of_proc hlocal hinside (fun hpc => ?_) (fun hbusy => ?_) (h.chan lk) (fun hsleeps => ?_)
    fun _ => h.pid
  · have hruns := hlocal.runs hpc
    exact h.state.elim (·.trans hruns) fun hwoken => by simp [hruns] at hwoken
  · have hlive := hlocal.live hbusy
    unfold Proc.Live at hlive ⊢
    obtain hsame | ⟨-, hrunnable⟩ := h.state
    · rwa [hsame]
    · exact Or.inl hrunnable
  · obtain hsame | ⟨-, hrunnable⟩ := h.state
    · exact hsame.symm.trans hsleeps
    · simp [hrunnable] at hsleeps

theorem woken_kill (p : Proc (Fin n) Chan) : Woken p p.kill := by
  refine ⟨?_, fun _ hchan => hchan, rfl⟩
  by_cases hsleeps : p.state = .sleeping
  · exact Or.inr ⟨hsleeps, by simp [Proc.kill, hsleeps]⟩
  · exact Or.inl (by simp [Proc.kill, hsleeps])

variable [DecidableEq Chan]

theorem Design.woken_wakeup (design : Design) (p : Proc (Fin n) Chan) (chan : Chan) :
    Woken p (design.wakeup p chan) := by
  cases design with
  | arm64 =>
      simp only [Design.wakeup]
      split
      case isTrue hon => exact ⟨Or.inr ⟨hon.1, rfl⟩, fun _ hchan => hchan, rfl⟩
      case isFalse => exact ⟨Or.inl rfl, fun _ hchan => hchan, rfl⟩
  | riscv64 =>
      simp only [Design.wakeup, Proc.wakeup]
      split
      case isTrue =>
        refine ⟨?_, by simp, rfl⟩
        by_cases hsleeps : p.state = .sleeping
        · exact Or.inr ⟨hsleeps, by simp [hsleeps]⟩
        · exact Or.inl (by simp [hsleeps])
      case isFalse => exact ⟨Or.inl rfl, fun _ hchan => hchan, rfl⟩

theorem Agent.Local.not_waits_wakeup (hlocal : a.Local design lk) (hheld : ¬ a.pc.HoldsProc) :
    ¬ Agent.Waits lk { a with proc := design.wakeup a.proc lk } := by
  cases design with
  | arm64 =>
      have hpc := hlocal.arm64 rfl
      rintro (⟨hchan, hon | hon⟩ | hcommits)
      · simp only [Design.wakeup] at hchan hon
        split at hon
        · cases hon
        · simp_all
      · exact hon.elim hpc.1 hpc.2
      · obtain hpc | hpc : a.pc = .committed ∨ a.pc = .switching := hcommits <;>
          simp [hpc] at hheld
  | riscv64 =>
      rintro (⟨hchan, -⟩ | hcommits)
      · exact Proc.chan_wakeup_ne hchan
      · obtain hpc | hpc : a.pc = .committed ∨ a.pc = .switching := hcommits <;>
          simp [hpc] at hheld

theorem Move.effect {move : Move Chan} (hlocal : a.Local design lk)
    (hinside : a.pc.Inside → l.holder = some who) (hheld : a.holding = true → l.locked = true)
    (hmove : move.apply design lk who a l = some (a', l')) : Effect design lk who a l a' l' := by
  obtain ⟨hruns, hlive, helse, hrel, harm⟩ := id hlocal
  cases move with
  | acquiresleep | releasesleep | holdingsleep | sleepPrepare =>
      simp only [Move.apply, Option.ite_none_right_eq_some, Option.some.injEq, Prod.mk.injEq]
        at hmove
      obtain ⟨hguard, rfl, rfl⟩ := hmove
      refine ⟨⟨?_, ?_, ?_, ?_, ?_⟩, ?_, ?_, ?_, ?_, ?_⟩ <;>
        simp_all [Proc.Live, Proc.sleepPrepare]
  | dispatch | yield | alloc | exit | free =>
      simp only [Move.apply, Option.ite_none_right_eq_some, Option.some.injEq, Prod.mk.injEq]
        at hmove
      obtain ⟨hguard, rfl, rfl⟩ := hmove
      refine .of_proc hlocal hinside ?_ ?_ ?_ ?_ ?_ <;>
        simp_all [Proc.Live, Proc.free]
  | wakeup chan =>
      simp only [Move.apply, Option.ite_none_left_eq_some, Option.some.injEq, Prod.mk.injEq]
        at hmove
      obtain ⟨-, rfl, rfl⟩ := hmove
      exact (design.woken_wakeup a.proc chan).effect hlocal hinside
  | kill =>
      simp only [Move.apply, Option.ite_none_left_eq_some, Option.some.injEq, Prod.mk.injEq]
        at hmove
      obtain ⟨-, rfl, rfl⟩ := hmove
      exact (woken_kill a.proc).effect hlocal hinside
  | lock =>
      simp only [Move.apply, Option.ite_none_right_eq_some] at hmove
      obtain ⟨⟨hrun, hfree⟩, hmove⟩ := hmove
      split at hmove <;> cases hmove <;> refine ⟨⟨?_, ?_, ?_, ?_, ?_⟩, ?_, ?_, ?_, ?_, ?_⟩ <;>
        simp_all
  | test =>
      simp only [Move.apply, Option.ite_none_right_eq_some] at hmove
      obtain ⟨hpc, hmove⟩ := hmove
      split at hmove
      case isTrue hlocked =>
        cases design <;> cases hmove <;> refine ⟨⟨?_, ?_, ?_, ?_, ?_⟩, ?_, ?_, ?_, ?_, ?_⟩ <;>
          simp_all [Proc.Live, Proc.sleepPrepare]
      case isFalse hfree =>
        cases hmove
        refine ⟨⟨?_, ?_, ?_, ?_, ?_⟩, ?_, ?_, ?_, ?_, ?_⟩ <;> simp_all
  | unlock =>
      simp only [Move.apply] at hmove
      split at hmove <;> cases hmove <;> refine ⟨⟨?_, ?_, ?_, ?_, ?_⟩, ?_, ?_, ?_, ?_, ?_⟩ <;>
        simp_all
  | sleep =>
      simp only [Move.apply] at hmove
      split at hmove
      · cases hmove
        refine ⟨⟨?_, ?_, ?_, ?_, ?_⟩, ?_, ?_, ?_, ?_, ?_⟩ <;> simp_all [Proc.Live]
      · obtain ⟨hrun, hmove⟩ := Option.ite_none_right_eq_some.mp hmove
        cases hmove
        refine ⟨⟨?_, ?_, ?_, ?_, ?_⟩, ?_, ?_, ?_, ?_, ?_⟩ <;>
          cases hchan : a.proc.chan <;> simp_all [Proc.sleep, Proc.Live]
      · cases hmove
  | resume =>
      simp only [Move.apply, Option.ite_none_right_eq_some] at hmove
      obtain ⟨hrun, hmove⟩ := hmove
      split at hmove <;> cases hmove <;> refine ⟨⟨?_, ?_, ?_, ?_, ?_⟩, ?_, ?_, ?_, ?_, ?_⟩ <;>
        cases design <;> simp_all [Proc.Live, Design.resume]
  | doze chan =>
      cases design with
      | arm64 =>
          simp only [Move.apply, Option.ite_none_right_eq_some, Option.some.injEq, Prod.mk.injEq]
            at hmove
          obtain ⟨hguard, rfl, rfl⟩ := hmove
          refine ⟨⟨?_, ?_, ?_, ?_, ?_⟩, ?_, ?_, ?_, ?_, ?_⟩ <;> simp_all [Proc.Live]
      | riscv64 =>
          obtain ⟨hguard, hmove⟩ := Option.ite_none_right_eq_some.mp hmove
          cases hmove
          refine ⟨⟨?_, ?_, ?_, ?_, ?_⟩, ?_, ?_, ?_, ?_, ?_⟩ <;>
            cases hchan : a.proc.chan <;> simp_all [Proc.sleep, Proc.Live]

structure Sound (design : Design) (lk : Chan) (s : State n Chan) : Prop where
  isLocal : ∀ p, (s.agent p).Local design lk
  inside : ∀ p, (s.agent p).pc.Inside → s.lock.holder = some p
  owner : ∀ p, (s.agent p).Owns → s.lock.locked = true ∧ s.lock.pid = (s.agent p).proc.pid
  owned : s.lock.locked = true → ∃ p, (s.agent p).Owns
  unique : ∀ p q, (s.agent p).Owns → (s.agent q).Owns → p = q
  waits : ∀ p, (s.agent p).Waits lk →
    s.lock.locked = true ∨ ∃ q rest, (s.agent q).pc = .waking rest ∧ p ∈ rest

namespace State

omit [DecidableEq Chan]

@[simp]
theorem agent_put_self (s : State n Chan) (who : Fin n) (a : Agent n Chan) (l : Sleeplock n) :
    (s.put who a l).agent who = a := Function.update_self ..

theorem agent_put_of_ne (s : State n Chan) (a : Agent n Chan) (l : Sleeplock n) {who p : Fin n}
    (hne : p ≠ who) : (s.put who a l).agent p = s.agent p := Function.update_of_ne hne ..

end State

namespace Sound

variable {s : State n Chan}

omit [DecidableEq Chan] in
theorem start (design : Design) (lk : Chan) : Sound design lk (start : State n Chan) where
  isLocal p := ⟨by simp [SleepLock.start], by simp [SleepLock.start], by simp [SleepLock.start],
    by simp [SleepLock.start], by simp [SleepLock.start]⟩
  inside := by simp [SleepLock.start]
  owner := by simp [SleepLock.start]
  owned := by simp [SleepLock.start]
  unique := by simp [SleepLock.start]
  waits := by simp [SleepLock.start, Proc.empty]

omit [DecidableEq Chan] in
theorem put (h : Sound design lk s) (heffect : Effect design lk who (s.agent who) s.lock a' l') :
    Sound design lk (s.put who a' l') where
  isLocal p := by
    obtain rfl | hne := eq_or_ne p who
    · rw [State.agent_put_self]
      exact heffect.isLocal
    · rw [State.agent_put_of_ne _ _ _ hne]
      exact h.isLocal p
  inside p hp := by
    obtain rfl | hne := eq_or_ne p who
    · rw [State.agent_put_self] at hp
      exact heffect.inside hp
    · rw [State.agent_put_of_ne _ _ _ hne] at hp
      have hholder := h.inside p hp
      obtain hsame | hfree | hmine := heffect.holder
      · exact hsame.trans hholder
      · exact absurd (hholder.symm.trans hfree) (by simp)
      · exact absurd (Option.some.inj (hholder.symm.trans hmine)) hne
  owner p hp := by
    obtain rfl | hne := eq_or_ne p who
    · rw [State.agent_put_self] at hp ⊢
      obtain ⟨hlocked, hpid, howns, hsame⟩ | ⟨-, hlocked, -, hpid⟩ | ⟨-, -, hgone, -⟩ := heffect.lock
      · obtain ⟨hwas, hwaspid⟩ := h.owner p (howns.mp hp)
        exact ⟨hlocked.trans hwas, (hpid.trans hwaspid).trans (hsame (howns.mp hp)).symm⟩
      · exact ⟨hlocked, hpid⟩
      · exact absurd hp hgone
    · rw [State.agent_put_of_ne _ _ _ hne] at hp ⊢
      obtain ⟨hwas, hwaspid⟩ := h.owner p hp
      obtain ⟨hlocked, hpid, -, -⟩ | ⟨hfree, -, -, -⟩ | ⟨hmine, -, -, -⟩ := heffect.lock
      · exact ⟨hlocked.trans hwas, hpid.trans hwaspid⟩
      · exact absurd (hwas.symm.trans hfree) (by simp)
      · exact absurd (h.unique p who hp hmine) hne
  owned hlocked := by
    obtain ⟨hsame, -, howns, -⟩ | ⟨-, -, howns, -⟩ | ⟨-, hfree, -, -⟩ := heffect.lock
    · obtain ⟨p, hp⟩ := h.owned (hsame.symm.trans hlocked)
      refine ⟨p, ?_⟩
      obtain rfl | hne := eq_or_ne p who
      · rw [State.agent_put_self]
        exact howns.mpr hp
      · rwa [State.agent_put_of_ne _ _ _ hne]
    · exact ⟨who, by rwa [State.agent_put_self]⟩
    · exact absurd (hlocked.symm.trans hfree) (by simp)
  unique p q hp hq := by
    have hothers : ∀ r, r ≠ who → ((s.put who a' l').agent r).Owns → ¬ a'.Owns := by
      intro r hne hr howns
      rw [State.agent_put_of_ne _ _ _ hne] at hr
      obtain ⟨-, -, hsame, -⟩ | ⟨hfree, -, -, -⟩ | ⟨-, -, hgone, -⟩ := heffect.lock
      · exact hne (h.unique r who hr (hsame.mp howns))
      · exact absurd ((h.owner r hr).1.symm.trans hfree) (by simp)
      · exact hgone howns
    obtain rfl | hpw := eq_or_ne p who
    · obtain rfl | hqw := eq_or_ne q p
      · rfl
      · rw [State.agent_put_self] at hp
        exact absurd hp (hothers q hqw hq)
    · obtain rfl | hqw := eq_or_ne q who
      · rw [State.agent_put_self] at hq
        exact absurd hq (hothers p hpw hp)
      · rw [State.agent_put_of_ne _ _ _ hpw] at hp
        rw [State.agent_put_of_ne _ _ _ hqw] at hq
        exact h.unique p q hp hq
  waits p hp := by
    -- Whoever waited before still has the lock taken, or the same waker, or a new one that has
    -- yet to look at every slot.
    have hwaited : (s.agent p).Waits lk ∨ l'.locked = true := by
      obtain rfl | hne := eq_or_ne p who
      · rw [State.agent_put_self] at hp
        exact heffect.waits hp
      · rw [State.agent_put_of_ne _ _ _ hne] at hp
        exact Or.inl hp
    obtain hwaited | hlocked := hwaited
    · obtain hlocked | ⟨q, rest, hpc, hin⟩ := h.waits p hwaited
      · obtain ⟨hsame, -, -, -⟩ | ⟨-, hnow, -, -⟩ | ⟨-, -, -, hwakes⟩ := heffect.lock
        · exact Or.inl (hsame.trans hlocked)
        · exact Or.inl hnow
        · exact Or.inr ⟨who, List.finRange n, by rw [State.agent_put_self, hwakes],
            List.mem_finRange p⟩
      · refine Or.inr ⟨q, rest, ?_, hin⟩
        obtain rfl | hne := eq_or_ne q who
        · rw [State.agent_put_self]
          exact (heffect.waking rest hpc).resolve_right (List.ne_nil_of_mem hin)
        · rwa [State.agent_put_of_ne _ _ _ hne]
    · exact Or.inl hlocked

omit [DecidableEq Chan] in
/-- The waker goes on to the next slot, with nobody waiting in the one it leaves. -/
theorem visited (h : Sound design lk s) {p : Fin n} {rest : List (Fin n)}
    (hpc : (s.agent who).pc = .waking (p :: rest)) (hp : ¬ (s.agent p).Waits lk) :
    Sound design lk (s.put who { s.agent who with pc := .waking rest } s.lock) := by
  have hholder := h.inside who (by simp [hpc])
  have hagent : ∀ q, ((s.put who { s.agent who with pc := .waking rest } s.lock).agent q).proc
      = (s.agent q).proc ∧
      (((s.put who { s.agent who with pc := .waking rest } s.lock).agent q).Owns ↔
        (s.agent q).Owns) ∧
      (((s.put who { s.agent who with pc := .waking rest } s.lock).agent q).Waits lk ↔
        (s.agent q).Waits lk) := by
    intro q
    obtain rfl | hne := eq_or_ne q who
    · simp [hpc]
    · simp [State.agent_put_of_ne _ _ _ hne]
  refine ⟨fun q => ?_, fun q hq => ?_, fun q hq => ?_, fun hlocked => ?_, fun q r hq hr => ?_,
    fun q hq => ?_⟩
  · obtain rfl | hne := eq_or_ne q who
    · have hlocal := h.isLocal q
      rw [State.agent_put_self]
      exact ⟨fun _ => hlocal.runs (Or.inl (by simp [hpc])),
        fun _ => hlocal.live (Or.inl (by simp [hpc])), by simp, by simp, by simp⟩
    · rw [State.agent_put_of_ne _ _ _ hne]
      exact h.isLocal q
  · obtain rfl | hne := eq_or_ne q who
    · exact hholder
    · rw [State.agent_put_of_ne _ _ _ hne] at hq
      exact h.inside q hq
  · rw [(hagent q).1]
    exact h.owner q ((hagent q).2.1.mp hq)
  · obtain ⟨q, hq⟩ := h.owned hlocked
    exact ⟨q, (hagent q).2.1.mpr hq⟩
  · exact h.unique q r ((hagent q).2.1.mp hq) ((hagent r).2.1.mp hr)
  · have hwaited := (hagent q).2.2.mp hq
    refine (h.waits q hwaited).imp_right ?_
    rintro ⟨r, slots, hr, hin⟩
    obtain rfl | hne := eq_or_ne r who
    · obtain rfl : slots = p :: rest := Pc.waking.inj (hr.symm.trans hpc)
      refine ⟨r, rest, by simp, (List.mem_cons.mp hin).resolve_left ?_⟩
      rintro rfl
      exact hp hwaited
    · exact ⟨r, slots, by rwa [State.agent_put_of_ne _ _ _ hne], hin⟩

theorem step (h : Sound design lk s) {action : Action n Chan} {next : State n Chan}
    (hstep : step design lk s action = some next) : Sound design lk next := by
  cases action with
  | move who move =>
      obtain ⟨⟨a', l'⟩, hmove, rfl⟩ := Option.map_eq_some_iff.mp hstep
      exact h.put (Move.effect (h.isLocal who) (h.inside who)
        (fun hholds => (h.owner who (Or.inl hholds)).1) hmove)
  | visit who =>
      simp only [SleepLock.step] at hstep
      split at hstep
      case h_2 => cases hstep
      case h_1 p rest hpc =>
        split at hstep
        case isTrue hself =>
          obtain ⟨-, rfl⟩ := hself
          cases hstep
          refine h.visited hpc ?_
          have hruns := (h.isLocal p).runs (Or.inl (by simp [hpc]))
          simp [hpc, hruns]
        case isFalse =>
          obtain ⟨⟨a', l'⟩, hmove, rfl⟩ := Option.map_eq_some_iff.mp hstep
          have heffect := Move.effect (h.isLocal p) (h.inside p)
            (fun hholds => (h.owner p (Or.inl hholds)).1) hmove
          simp only [Move.apply, Option.ite_none_left_eq_some, Option.some.injEq,
            Prod.mk.injEq] at hmove
          obtain ⟨hheld, rfl, rfl⟩ := hmove
          refine (h.put heffect).visited (p := p) ?_ ?_
          · obtain rfl | hne := eq_or_ne who p
            · simpa using hpc
            · rwa [State.agent_put_of_ne _ _ _ hne]
          · rw [State.agent_put_self]
            exact (h.isLocal p).not_waits_wakeup hheld

theorem reachable (hreach : Transition.Reachable (SleepLock.step design lk) SleepLock.start s) :
    Sound design lk s := by
  obtain ⟨actions, hrun⟩ := hreach
  exact Transition.invariant_run (fun _ _ _ hinv hstep => hinv.step hstep) (.start design lk) hrun

end Sound

/-- No two live processes share a pid. -/
def State.DistinctPids (s : State n Chan) : Prop :=
  ∀ p q, (s.agent p).proc.Live → (s.agent q).proc.Live →
    (s.agent p).proc.pid = (s.agent q).proc.pid → p = q

omit [DecidableEq Chan] in
/-- `holdingsleep` answers whether its caller holds the lock. -/
theorem Sound.answers {s : State n Chan} (h : Sound design lk s) (hdistinct : s.DistinctPids)
    (hpc : (s.agent who).pc = .querying) :
    (s.lock.locked && s.lock.pid == (s.agent who).proc.pid) = true ↔
      (s.agent who).holding = true := by
  rw [Bool.and_eq_true, beq_iff_eq]
  constructor
  · rintro ⟨hlocked, hpid⟩
    obtain ⟨p, howns⟩ := h.owned hlocked
    have hlive : (s.agent p).proc.Live := by
      refine (h.isLocal p).live ?_
      obtain hholds | hown | hown := howns
      · exact Or.inr hholds
      · exact Or.inl (by simp [hown])
      · exact Or.inl (by simp [hown])
    have hcaller := (h.isLocal who).live (Or.inl (by simp [hpc]))
    obtain rfl := hdistinct p who hlive hcaller ((h.owner p howns).2.symm.trans hpid)
    simpa [hpc] using howns
  · intro hholds
    exact h.owner who (Or.inl hholds)

/-- **Sleep-locks exclude each other and strand nobody.** In every reachable state of either design
at most one process is between its return from `acquiresleep` and its `releasesleep`; `holdingsleep`
answers whether its caller is, as long as live processes have distinct pids; and with the inner lock
free and the sleep-lock not taken nobody sleeps on it. -/
theorem sleeplock_safe (design : Design) (n : Nat) (lk : Chan) {s : State n Chan}
    (hreach : Transition.Reachable (step design lk) start s) :
    (∀ p q, (s.agent p).holding = true → (s.agent q).holding = true → p = q) ∧
      (∀ who r next, s.DistinctPids → step design lk s (.move who .lock) = some next →
        (next.agent who).pc = .answered r → (r = true ↔ (s.agent who).holding = true)) ∧
      (s.lock.holder = none → s.lock.locked = false →
        ∀ p, ¬ ((s.agent p).proc.state = .sleeping ∧ (s.agent p).proc.chan = some lk)) := by
  have h := Sound.reachable hreach
  refine ⟨fun p q hp hq => h.unique p q (Or.inl hp) (Or.inl hq), ?_, ?_⟩
  · intro who r next hdistinct hstep hanswer
    obtain ⟨⟨a', l'⟩, hmove, rfl⟩ := Option.map_eq_some_iff.mp hstep
    simp only [Move.apply, Option.ite_none_right_eq_some] at hmove
    obtain ⟨-, hmove⟩ := hmove
    split at hmove <;> cases hmove <;> simp only [State.agent_put_self] at hanswer <;> cases hanswer
    case h_3 hpc => exact h.answers hdistinct hpc
  · rintro hfree hunlocked p ⟨hsleeps, hchan⟩
    obtain hlocked | ⟨q, rest, hpc, -⟩ := h.waits p (Or.inl ⟨hchan, Or.inl hsleeps⟩)
    · exact absurd (hlocked.symm.trans hunlocked) (by simp)
    · exact absurd ((h.inside q (by simp [hpc])).symm.trans hfree) (by simp)

/-- Two processes of the riscv64 kernel: the first takes the lock, the second goes to sleep on it,
is woken by the release and takes it in turn. -/
def handover : List (Action 2 Nat) :=
  [.move 0 (.alloc 1), .move 1 (.alloc 2), .move 0 .dispatch, .move 1 .dispatch,
    .move 0 .acquiresleep, .move 0 .lock, .move 0 .test, .move 0 .unlock,
    .move 1 .acquiresleep, .move 1 .lock, .move 1 .test, .move 1 .unlock, .move 1 .sleep,
    .move 0 .releasesleep, .move 0 .lock, .visit 0, .visit 0, .move 0 .unlock,
    .move 1 .resume, .move 1 .lock, .move 1 .test, .move 1 .unlock, .move 1 .holdingsleep]

theorem sleeplock_safe_handover :
    ∃ s, Transition.run (step .riscv64 1) start handover = some s ∧
      (∀ p q, (s.agent p).holding = true → (s.agent q).holding = true → p = q) ∧
      (∀ who r next, s.DistinctPids → step .riscv64 1 s (.move who .lock) = some next →
        (next.agent who).pc = .answered r → (r = true ↔ (s.agent who).holding = true)) ∧
      (s.lock.holder = none → s.lock.locked = false →
        ∀ p, ¬ ((s.agent p).proc.state = .sleeping ∧ (s.agent p).proc.chan = some 1)) := by
  have hruns : (Transition.run (step .riscv64 1) start handover).isSome := by decide
  obtain ⟨s, hs⟩ := Option.isSome_iff_exists.mp hruns
  exact ⟨s, hs, sleeplock_safe .riscv64 2 1 ⟨handover, hs⟩⟩

end Xv6.SleepLock
