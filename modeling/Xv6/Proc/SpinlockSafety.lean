import Xv6.Proc.Spinlock

/-!
# Spinlocks exclude each other, and interrupts come back as they were

For each lock there is what each processor has to do with it, and these stages say what the lock holds. A processor
counts its locks and its calls of `push_off`, so that interrupts are off where it has any, and `intena` is what the
thread wants that runs on it, also when it comes from another processor.
-/

namespace Xv6.Spin

variable {κ P M : Type}

/-! ### One processor -/

/-- What a processor has to do with a lock: it has it with or without its own name in it. -/
inductive Stage where
  | free
  | owned
  | recorded
  deriving DecidableEq

def Pc.stage [DecidableEq P] [DecidableEq M] (lk : LockId P M) : Pc P M → Stage
  | .record other | .unlock other => if lk = other then .owned else .free
  | .release other | .releaseCpu other | .unrecord other => if lk = other then .recorded else .free
  | _ => .free

def Cpu.stage [DecidableEq P] [DecidableEq M] (cpu : Cpu P M) (lk : LockId P M) : Stage := if lk ∈ cpu.held then .recorded else cpu.pc.stage lk

/-- The functions of `spinlock.c` have a `push_off` of their own to undo. -/
def Pc.depth : Pc P M → Nat
  | .acquire _ | .acquireCpu _ | .spin _ | .record _ => 1
  | .release _ | .releaseCpu _ | .unrecord _ | .unlock _ | .popOff => 1
  | _ => 0

/-- What a processor knows where it is. -/
def Cpu.Placed (cpu : Cpu P M) : Prop :=
  match cpu.pc with
  | .rest | .popOff => True
  | .acquire lk | .acquireCpu lk | .spin lk | .record lk => lk ∉ cpu.held
  | .release lk | .releaseCpu lk | .unrecord lk | .unlock lk => lk ∉ cpu.held
  | .sched p | .schedCpu p | .swtch p => cpu.proc = some p ∧ cpu.held = {.proc p} ∧ cpu.pushes = 0
  | .resumed intena => intena = cpu.want ∧ cpu.held ≠ ∅
  | .switched => cpu.want = false ∧ cpu.held ≠ ∅
  | .choose p => cpu.proc = none ∧ cpu.held = {.proc p} ∧ cpu.pushes = 0 ∧ cpu.want = false
  | .panic _ => False

/-- `intena` is that of the thread that runs, but for the time until it is written after `swtch`. -/
def Pc.Settled : Pc P M → Prop
  | .resumed _ | .switched => False
  | _ => True

structure Cpu.Ok (cpu : Cpu P M) : Prop where
  noff : cpu.noff = cpu.held.card + cpu.pushes + cpu.pc.depth
  off : cpu.sie = true → cpu.pc = .rest ∧ cpu.noff = 0
  on : cpu.pc = .rest → cpu.noff = 0 → cpu.sie = cpu.want
  intena : 0 < cpu.noff → cpu.pc.Settled → cpu.intena = cpu.want
  placed : cpu.Placed

namespace Cpu.Ok

variable {cpu : Cpu P M}

theorem sie_eq_false (h : cpu.Ok) (hpc : cpu.pc ≠ .rest) : cpu.sie = false :=
  Bool.eq_false_of_not_eq_true fun hsie => hpc (h.off hsie).1

theorem noff_rest (h : cpu.Ok) (hrest : cpu.pc = .rest) : cpu.noff = cpu.held.card + cpu.pushes := by
  rw [h.noff, hrest]
  rfl

theorem sie_of_held (h : cpu.Ok) (hheld : cpu.held ≠ ∅) : cpu.sie = false := by
  refine Bool.eq_false_of_not_eq_true fun hsie => ?_
  have hnoff := (h.off hsie).2
  have hcard := Finset.card_pos.mpr (Finset.nonempty_iff_ne_empty.mpr hheld)
  have := h.noff
  omega

/-- From one step of a function to the next. -/
theorem setPc (h : cpu.Ok) {pc : Pc P M} (hrest : cpu.pc ≠ .rest) (hrest' : pc ≠ .rest)
    (hdepth : pc.depth = cpu.pc.depth) (hsettled : cpu.pc.Settled) (hplaced : Cpu.Placed { cpu with pc := pc }) :
    Cpu.Ok { cpu with pc := pc } where
  noff := by rw [h.noff, ← hdepth]
  off hsie := absurd hsie (by simp [h.sie_eq_false hrest])
  on heq := absurd heq hrest'
  intena hpos _ := h.intena hpos hsettled
  placed := hplaced

/-- `push_off`, at the start of `acquire` or by itself. -/
theorem pushOff (h : cpu.Ok) (hrest : cpu.pc = .rest) : cpu.pushOff.intena = cpu.want := by
  unfold Cpu.pushOff
  dsimp only
  by_cases hzero : cpu.noff = 0
  · rw [if_pos hzero, h.on hrest hzero]
  · rw [if_neg hzero, h.intena (Nat.pos_of_ne_zero hzero) (by rw [hrest]; trivial)]

theorem popOff (h : cpu.Ok) (hpc : cpu.pc = .popOff) : cpu.popOff.Ok ∧ cpu.popOff.pc = .rest ∧
    cpu.popOff.held = cpu.held ∧ cpu.popOff.proc = cpu.proc := by
  have hsie := h.sie_eq_false (by simp [hpc])
  have hnoff := h.noff
  rw [hpc, Pc.depth] at hnoff
  have hintena := h.intena (by omega) (by rw [hpc]; trivial)
  rw [Cpu.popOff, if_neg (by simp [hsie]), if_neg (by omega)]
  refine ⟨?_, rfl, rfl, rfl⟩
  exact {
    noff := by
      dsimp only [Pc.depth]
      omega
    off := by
      intro hon
      rw [Bool.and_eq_true, decide_eq_true_eq] at hon
      exact ⟨rfl, hon.1⟩
    on := by
      intro _ hzero
      dsimp only at hzero ⊢
      rw [hzero, hintena]
      rfl
    intena := fun _ _ => hintena
    placed := trivial }

end Cpu.Ok

/-! ### One lock -/

variable [DecidableEq κ]

/-- What a lock holds, by the stages of the processors: at most one of them has it. -/
inductive LockOk : Spinlock κ → (κ → Stage) → Prop where
  | free : LockOk ⟨false, none⟩ fun _ => .free
  | owned (c : κ) : LockOk ⟨true, none⟩ (Function.update (fun _ => .free) c .owned)
  | recorded (c : κ) : LockOk ⟨true, some c⟩ (Function.update (fun _ => .free) c .recorded)

namespace LockOk

variable {lock : Spinlock κ} {stage : κ → Stage} {c : κ}

theorem take (h : LockOk lock stage) (hlocked : lock.locked = false) :
    LockOk { lock with locked := true } (Function.update stage c .owned) := by
  cases h with
  | free => exact .owned c
  | owned | recorded => cases hlocked

theorem of_owned (h : LockOk lock stage) (hc : stage c = .owned) :
    lock = ⟨true, none⟩ ∧ stage = Function.update (fun _ => .free) c .owned := by
  cases h with
  | free => cases hc
  | owned other | recorded other =>
      by_cases hother : c = other
      · subst hother
        rw [Function.update_self] at hc
        first | exact ⟨rfl, rfl⟩ | cases hc
      · rw [Function.update_of_ne hother] at hc
        cases hc

theorem of_recorded (h : LockOk lock stage) (hc : stage c = .recorded) :
    lock = ⟨true, some c⟩ ∧ stage = Function.update (fun _ => .free) c .recorded := by
  cases h with
  | free => cases hc
  | owned other | recorded other =>
      by_cases hother : c = other
      · subst hother
        rw [Function.update_self] at hc
        first | exact ⟨rfl, rfl⟩ | cases hc
      · rw [Function.update_of_ne hother] at hc
        cases hc

/-- The name in the lock is never that of a processor that does not have it. -/
theorem cpu_eq_some_iff (h : LockOk lock stage) : lock.cpu = some c ↔ stage c = .recorded := by
  constructor
  · intro hcpu
    cases h with
    | free | owned => cases hcpu
    | recorded other =>
        obtain rfl := Option.some.inj hcpu
        exact Function.update_self ..
  · intro hc
    rw [(h.of_recorded hc).1]

theorem record (h : LockOk lock stage) (hc : stage c = .owned) :
    LockOk { lock with cpu := some c } (Function.update stage c .recorded) := by
  obtain ⟨rfl, rfl⟩ := h.of_owned hc
  rw [Function.update_idem]
  exact .recorded c

theorem unrecord (h : LockOk lock stage) (hc : stage c = .recorded) :
    LockOk { lock with cpu := none } (Function.update stage c .owned) := by
  obtain ⟨rfl, rfl⟩ := h.of_recorded hc
  rw [Function.update_idem]
  exact .owned c

theorem unlock (h : LockOk lock stage) (hc : stage c = .owned) :
    LockOk { lock with locked := false } (Function.update stage c .free) := by
  obtain ⟨rfl, rfl⟩ := h.of_owned hc
  rw [Function.update_idem]
  have hfree : Function.update (fun _ : κ => Stage.free) c .free = fun _ => .free := Function.update_eq_self c _
  rw [hfree]
  exact .free

end LockOk

/-! ### The processes -/

/-- The processor runs the thread of the process, and has not switched away from it. -/
def Cpu.Runs (cpu : Cpu P M) (p : P) : Prop := cpu.proc = some p ∧ cpu.pc ≠ .switched

/-- Between the writing of the state of a process and `swtch`, or the reading of it and `swtch`. -/
def Pc.Stopped (p : P) : Pc P M → Prop
  | .sched q | .schedCpu q | .swtch q | .choose q => q = p
  | _ => False

theorem Cpu.Ok.held_of_stopped {cpu : Cpu P M} (h : cpu.Ok) {p : P} (hstopped : cpu.pc.Stopped p) :
    cpu.held = {.proc p} := by
  have hplaced := h.placed
  unfold Cpu.Placed at hplaced
  cases hpc : cpu.pc with
  | sched q | schedCpu q | swtch q | choose q =>
      rw [hpc] at hplaced hstopped
      obtain rfl := hstopped
      exact hplaced.2.1
  | _ =>
      rw [hpc] at hstopped
      exact hstopped.elim

theorem Cpu.Ok.switchTo [DecidableEq P] [DecidableEq M] {cpu : Cpu P M} (h : cpu.Ok) {p : P} (hpc : cpu.pc = .choose p)
    {context : Context} (hcontext : ∀ {intena trap want}, context = .sched intena trap want → intena = want) :
    (cpu.switchTo p context).Ok ∧ (∀ lk, (cpu.switchTo p context).stage lk = cpu.stage lk) ∧
      (cpu.switchTo p context).proc = some p ∧ ∀ q, ¬(cpu.switchTo p context).pc.Stopped q := by
  have hplaced := h.placed
  rw [Cpu.Placed, hpc] at hplaced
  obtain ⟨-, hheld, hpushes, hwant⟩ := hplaced
  have hnoff : cpu.noff = 1 := by
    rw [h.noff, hpc, hheld, hpushes, Finset.card_singleton]
    rfl
  have hsie := h.sie_eq_false (by simp [hpc])
  have hintena := h.intena (by omega) (by rw [hpc]; trivial)
  cases context with
  | forkret =>
      refine ⟨?_, fun lk => ?_, rfl, fun q => id⟩
      · exact {
          noff := by
            dsimp only [Cpu.switchTo, Pc.depth]
            rw [hnoff, hpushes, hheld, Finset.erase_singleton, Finset.card_empty]
          off := fun hon => absurd hon (by simp [Cpu.switchTo, hsie])
          on := fun heq => by cases heq
          intena := fun _ _ => hintena.trans hwant
          placed := Finset.notMem_erase _ _ }
      · unfold Cpu.stage
        rw [hpc, hheld]
        by_cases hlk : lk = .proc p
        · simp [Cpu.switchTo, hheld, hlk, Pc.stage]
        · simp [Cpu.switchTo, hheld, hlk, Pc.stage]
  | sched intena trap want =>
      refine ⟨?_, fun lk => ?_, rfl, fun q => id⟩
      · exact {
          noff := by
            dsimp only [Cpu.switchTo, Pc.depth]
            rw [hnoff, hpushes, hheld, Finset.card_singleton]
          off := fun hon => absurd hon (by simp [Cpu.switchTo, hsie])
          on := fun heq => by cases heq
          intena := fun _ hsettled => hsettled.elim
          placed := ⟨hcontext rfl, by simp [Cpu.switchTo, hheld]⟩ }
      · unfold Cpu.stage
        rw [hpc]
        rfl

/-- A process runs on one processor at most. It is `RUNNING` or on its way to `sched`, with its own lock. -/
structure ProcsOk (cpu : κ → Cpu P M) (proc : P → Process) : Prop where
  alone : ∀ {p c c'}, (cpu c).Runs p → (cpu c').Runs p → c = c'
  stopped : ∀ {p c}, (cpu c).Runs p → (proc p).state = .running ∨ .proc p ∈ (cpu c).held
  leaving : ∀ {p c}, (cpu c).pc.Stopped p → (proc p).state ≠ .running
  context : ∀ {p intena trap want}, (proc p).context = .sched intena trap want → intena = want

variable [DecidableEq P] [DecidableEq M]

structure Inv (s : State κ P M) : Prop where
  cpu : ∀ c, (s.cpu c).Ok
  lock : ∀ lk, LockOk (s.lock lk) fun c => (s.cpu c).stage lk
  procs : ProcsOk s.cpu s.proc

/-! ### Steps that change one processor -/

section Steps

variable {s s' : State κ P M} {c : κ}

omit [DecidableEq P] [DecidableEq M] in
theorem ProcsOk.setCpu {cpus : κ → Cpu P M} {proc : P → Process} (h : ProcsOk cpus proc) {cpu : Cpu P M}
    (hruns : ∀ {p}, cpu.Runs p → (cpus c).Runs p)
    (hstopped : ∀ {p}, cpu.Runs p → (proc p).state = .running ∨ .proc p ∈ cpu.held)
    (hleaving : ∀ {p}, cpu.pc.Stopped p → (proc p).state ≠ .running) :
    ProcsOk (Function.update cpus c cpu) proc := by
  have hback : ∀ {p other}, (Function.update cpus c cpu other).Runs p → (cpus other).Runs p := by
    intro p other hother
    by_cases heq : other = c
    · rw [heq, Function.update_self] at hother
      exact heq ▸ hruns hother
    · rwa [Function.update_of_ne heq] at hother
  refine ⟨fun hone hother => h.alone (hback hone) (hback hother), ?_, ?_, h.context⟩
  · intro p other hother
    by_cases heq : other = c
    · subst heq
      rw [Function.update_self] at hother ⊢
      exact hstopped hother
    · rw [Function.update_of_ne heq] at hother ⊢
      exact h.stopped hother
  · intro p other hother
    by_cases heq : other = c
    · subst heq
      rw [Function.update_self] at hother
      exact hleaving hother
    · rw [Function.update_of_ne heq] at hother
      exact h.leaving hother

theorem stage_update (lk : LockId P M) (cpu : Cpu P M) :
    (fun other => (Function.update s.cpu c cpu other).stage lk) =
      Function.update (fun other => (s.cpu other).stage lk) c (cpu.stage lk) := by
  funext other
  by_cases heq : other = c
  · rw [heq, Function.update_self, Function.update_self]
  · rw [Function.update_of_ne heq, Function.update_of_ne heq]

namespace Inv

theorem ok_update (h : Inv s) {cpu : Cpu P M} (hok : cpu.Ok) (other : κ) : (Function.update s.cpu c cpu other).Ok := by
  by_cases heq : other = c
  · rw [heq, Function.update_self]
    exact hok
  · rw [Function.update_of_ne heq]
    exact h.cpu other

theorem lock_update (h : Inv s) {cpu : Cpu P M} (hstage : ∀ lk, cpu.stage lk = (s.cpu c).stage lk) (lk : LockId P M) :
    LockOk (s.lock lk) fun other => (Function.update s.cpu c cpu other).stage lk := by
  rw [stage_update, hstage lk, Function.update_eq_self c fun other => (s.cpu other).stage lk]
  exact h.lock lk

theorem setCpu (h : Inv s) {cpu : Cpu P M} (hok : cpu.Ok) (hstage : ∀ lk, cpu.stage lk = (s.cpu c).stage lk)
    (hprocs : ProcsOk (Function.update s.cpu c cpu) s.proc) : Inv (s.setCpu c cpu) where
  cpu := h.ok_update hok
  lock := h.lock_update hstage
  procs := hprocs

theorem setLock (h : Inv s) {cpu : Cpu P M} {lk : LockId P M} {lock : Spinlock κ} (hok : cpu.Ok)
    (hlock : LockOk lock (Function.update (fun other => (s.cpu other).stage lk) c (cpu.stage lk)))
    (hstage : ∀ other, other ≠ lk → cpu.stage other = (s.cpu c).stage other)
    (hprocs : ProcsOk (Function.update s.cpu c cpu) s.proc) : Inv ((s.setLock lk lock).setCpu c cpu) where
  cpu := h.ok_update hok
  lock other := by
    change LockOk (Function.update s.lock lk lock other) fun c' => (Function.update s.cpu c cpu c').stage other
    rw [stage_update]
    by_cases heq : other = lk
    · rw [heq, Function.update_self]
      exact hlock
    · rw [Function.update_of_ne heq, hstage other heq, Function.update_eq_self c fun c' => (s.cpu c').stage other]
      exact h.lock other
  procs := hprocs

/-- What the lock holds by what the processor has to do with it. -/
theorem stage_eq (h : Inv s) (lk : LockId P M) :
    ((s.cpu c).stage lk = .recorded → s.lock lk = ⟨true, some c⟩) ∧
      ((s.cpu c).stage lk ≠ .recorded → (s.lock lk).cpu ≠ some c) :=
  ⟨fun hc => ((h.lock lk).of_recorded hc).1, fun hc hcpu => hc ((h.lock lk).cpu_eq_some_iff.mp hcpu)⟩

omit [DecidableEq κ] in
theorem stage_of_placed {lk : LockId P M} (hheld : lk ∉ (s.cpu c).held) : (s.cpu c).stage lk = (s.cpu c).pc.stage lk :=
  if_neg hheld

/-- A process that goes on in a function goes on running. -/
theorem procs_same (h : Inv s) {cpu : Cpu P M} (hproc : cpu.proc = (s.cpu c).proc) (hsettled : (s.cpu c).pc.Settled)
    (hheld : (s.cpu c).held ⊆ cpu.held) (hleaving : ∀ p, cpu.pc.Stopped p → (s.cpu c).pc.Stopped p) :
    ProcsOk (Function.update s.cpu c cpu) s.proc := by
  have hruns : ∀ {p}, cpu.Runs p → (s.cpu c).Runs p := by
    rintro p ⟨hrun, -⟩
    refine ⟨hproc ▸ hrun, fun hswitched => ?_⟩
    rw [hswitched] at hsettled
    exact hsettled
  exact h.procs.setCpu hruns (fun hrun => (h.procs.stopped (hruns hrun)).imp_right (@hheld _))
    fun hstopped => h.procs.leaving (hleaving _ hstopped)

/-- From one step of a function to the next, with no change but that. -/
inductive Goes : Pc P M → Pc P M → Prop where
  | acquireCpu (lk : LockId P M) : Goes (.acquire lk) (.acquireCpu lk)
  | spin (lk : LockId P M) : Goes (.acquire lk) (.spin lk)
  | spinCpu (lk : LockId P M) : Goes (.acquireCpu lk) (.spin lk)
  | releaseCpu (lk : LockId P M) : Goes (.release lk) (.releaseCpu lk)
  | unrecord (lk : LockId P M) : Goes (.releaseCpu lk) (.unrecord lk)
  | schedCpu (p : P) : Goes (.sched p) (.schedCpu p)
  | swtch (p : P) : Goes (.schedCpu p) (.swtch p)

theorem goes (h : Inv s) {pc pc' : Pc P M} (hpc : (s.cpu c).pc = pc) (hgoes : Goes pc pc') : Inv (s.setPc c pc') := by
  have hplaced := (h.cpu c).placed
  rw [Cpu.Placed, hpc] at hplaced
  have hsettled : (s.cpu c).pc.Settled := by
    rw [hpc]
    cases hgoes <;> trivial
  have hok : Cpu.Ok { s.cpu c with pc := pc' } := by
    refine (h.cpu c).setPc ?_ ?_ ?_ hsettled ?_
    · rw [hpc]
      cases hgoes <;> simp
    · cases hgoes <;> simp
    · rw [hpc]
      cases hgoes <;> rfl
    · cases hgoes <;> exact hplaced
  refine h.setCpu hok (fun lk => ?_) (h.procs_same rfl hsettled (Finset.Subset.refl _) fun p => ?_)
  · unfold Cpu.stage
    rw [hpc]
    cases hgoes <;> rfl
  · rw [hpc]
    cases hgoes <;> exact id

/-- The next step of a function, which changes the lock. -/
theorem setLockPc (h : Inv s) {pc : Pc P M} {lk : LockId P M} {lock : Spinlock κ} (hrest : (s.cpu c).pc ≠ .rest)
    (hrest' : pc ≠ .rest) (hdepth : pc.depth = (s.cpu c).pc.depth) (hsettled : (s.cpu c).pc.Settled)
    (hplaced : Cpu.Placed { s.cpu c with pc := pc }) (hheld : lk ∉ (s.cpu c).held)
    (hlock : LockOk lock (Function.update (fun other => (s.cpu other).stage lk) c (pc.stage lk)))
    (hstage : ∀ other, other ≠ lk → pc.stage other = (s.cpu c).pc.stage other) (hleaving : ∀ p, pc.Stopped p → (s.cpu c).pc.Stopped p) :
    Inv ((s.setLock lk lock).setPc c pc) := by
  have hok := (h.cpu c).setPc hrest hrest' hdepth hsettled hplaced
  have hpc : Cpu.stage { s.cpu c with pc := pc } lk = pc.stage lk := if_neg hheld
  refine h.setLock hok (hpc.symm ▸ hlock) ?_ (h.procs_same rfl hsettled (Finset.Subset.refl _) hleaving)
  intro other hother
  unfold Cpu.stage
  rw [hstage other hother]
  rfl

theorem next_acquire (h : Inv s) {lk : LockId P M} (hpc : (s.cpu c).pc = .acquire lk) (hnext : s.next c = some s') :
    Inv s' := by
  rw [State.next, hpc] at hnext
  obtain rfl := Option.some.inj hnext
  by_cases hlocked : (s.lock lk).locked = true
  · rw [if_pos hlocked]
    exact h.goes hpc (.acquireCpu lk)
  · rw [if_neg hlocked]
    exact h.goes hpc (.spin lk)

theorem next_acquireCpu (h : Inv s) {lk : LockId P M} (hpc : (s.cpu c).pc = .acquireCpu lk)
    (hnext : s.next c = some s') : Inv s' := by
  have hplaced := (h.cpu c).placed
  rw [Cpu.Placed, hpc] at hplaced
  have hfree : (s.cpu c).stage lk ≠ .recorded := by simp [stage_of_placed hplaced, hpc, Pc.stage]
  rw [State.next, hpc] at hnext
  obtain rfl := Option.some.inj hnext
  rw [if_neg ((h.stage_eq lk).2 hfree)]
  exact h.goes hpc (.spinCpu lk)

theorem next_spin (h : Inv s) {lk : LockId P M} (hpc : (s.cpu c).pc = .spin lk) (hnext : s.next c = some s') :
    Inv s' := by
  have hplaced := (h.cpu c).placed
  rw [Cpu.Placed, hpc] at hplaced
  rw [State.next, hpc] at hnext
  dsimp only at hnext
  by_cases hlocked : (s.lock lk).locked = true
  · rw [if_pos hlocked] at hnext
    exact Option.some.inj hnext ▸ h
  rw [if_neg hlocked] at hnext
  obtain rfl := Option.some.inj hnext
  refine h.setLockPc (by simp [hpc]) (by simp) (by rw [hpc]; rfl) (by rw [hpc]; trivial) hplaced hplaced ?_ ?_
    (by simp [Pc.Stopped])
  · rw [Pc.stage, if_pos rfl]
    exact (h.lock lk).take (Bool.eq_false_of_not_eq_true hlocked)
  · intro other hother
    simp [hpc, Pc.stage, hother]

theorem next_record (h : Inv s) {lk : LockId P M} (hpc : (s.cpu c).pc = .record lk) (hnext : s.next c = some s') :
    Inv s' := by
  have hok := h.cpu c
  have hplaced := hok.placed
  rw [Cpu.Placed, hpc] at hplaced
  have howned : (s.cpu c).stage lk = .owned := by simp [stage_of_placed hplaced, hpc, Pc.stage]
  rw [State.next, hpc] at hnext
  obtain rfl := Option.some.inj hnext
  have hnoff := hok.noff
  rw [hpc, Pc.depth] at hnoff
  have hnew : Cpu.Ok { s.cpu c with pc := .rest, held := insert lk (s.cpu c).held } := {
    noff := by
      dsimp only [Pc.depth]
      rw [Finset.card_insert_of_notMem hplaced]
      omega
    off := fun hsie => absurd hsie (by simp [hok.sie_eq_false (by simp [hpc])])
    on := by
      intro _ hzero
      dsimp only at hzero
      omega
    intena := fun hpos _ => hok.intena hpos (by rw [hpc]; trivial)
    placed := trivial }
  have hstage : Cpu.stage { s.cpu c with pc := .rest, held := insert lk (s.cpu c).held } lk = .recorded :=
    if_pos (Finset.mem_insert_self ..)
  refine h.setLock hnew (hstage.symm ▸ (h.lock lk).record howned) ?_
    (h.procs_same rfl (by rw [hpc]; trivial) (Finset.subset_insert _ _) (by simp [Pc.Stopped]))
  intro other hother
  simp [Cpu.stage, hpc, Pc.stage, hother]

theorem next_release (h : Inv s) {lk : LockId P M} (hpc : (s.cpu c).pc = .release lk) (hnext : s.next c = some s') :
    Inv s' := by
  have hplaced := (h.cpu c).placed
  rw [Cpu.Placed, hpc] at hplaced
  have hrecorded : (s.cpu c).stage lk = .recorded := by simp [stage_of_placed hplaced, hpc, Pc.stage]
  rw [State.next, hpc] at hnext
  obtain rfl := Option.some.inj hnext
  rw [if_pos (by rw [(h.stage_eq lk).1 hrecorded])]
  exact h.goes hpc (.releaseCpu lk)

theorem next_releaseCpu (h : Inv s) {lk : LockId P M} (hpc : (s.cpu c).pc = .releaseCpu lk)
    (hnext : s.next c = some s') : Inv s' := by
  have hplaced := (h.cpu c).placed
  rw [Cpu.Placed, hpc] at hplaced
  have hrecorded : (s.cpu c).stage lk = .recorded := by simp [stage_of_placed hplaced, hpc, Pc.stage]
  rw [State.next, hpc] at hnext
  obtain rfl := Option.some.inj hnext
  rw [if_pos (by rw [(h.stage_eq lk).1 hrecorded])]
  exact h.goes hpc (.unrecord lk)

theorem next_unrecord (h : Inv s) {lk : LockId P M} (hpc : (s.cpu c).pc = .unrecord lk) (hnext : s.next c = some s') :
    Inv s' := by
  have hplaced := (h.cpu c).placed
  rw [Cpu.Placed, hpc] at hplaced
  have hrecorded : (s.cpu c).stage lk = .recorded := by simp [stage_of_placed hplaced, hpc, Pc.stage]
  rw [State.next, hpc] at hnext
  obtain rfl := Option.some.inj hnext
  refine h.setLockPc (by simp [hpc]) (by simp) (by rw [hpc]; rfl) (by rw [hpc]; trivial) hplaced hplaced ?_ ?_
    (by simp [Pc.Stopped])
  · rw [Pc.stage, if_pos rfl]
    exact (h.lock lk).unrecord hrecorded
  · intro other hother
    simp [hpc, Pc.stage, hother]

theorem next_unlock (h : Inv s) {lk : LockId P M} (hpc : (s.cpu c).pc = .unlock lk) (hnext : s.next c = some s') :
    Inv s' := by
  have hplaced := (h.cpu c).placed
  rw [Cpu.Placed, hpc] at hplaced
  have howned : (s.cpu c).stage lk = .owned := by simp [stage_of_placed hplaced, hpc, Pc.stage]
  rw [State.next, hpc] at hnext
  obtain rfl := Option.some.inj hnext
  refine h.setLockPc (by simp [hpc]) (by simp) (by rw [hpc]; rfl) (by rw [hpc]; trivial) trivial hplaced ?_ ?_
    (by simp [Pc.Stopped])
  · exact (h.lock lk).unlock howned
  · intro other hother
    simp [hpc, Pc.stage, hother]

theorem next_popOff (h : Inv s) (hpc : (s.cpu c).pc = .popOff) (hnext : s.next c = some s') : Inv s' := by
  obtain ⟨hok, hrest, hheld, hproc⟩ := (h.cpu c).popOff hpc
  rw [State.next, hpc] at hnext
  obtain rfl := Option.some.inj hnext
  refine h.setCpu hok ?_ (h.procs_same hproc (by rw [hpc]; trivial) (Finset.Subset.refl _ |>.trans (by rw [hheld]))
    (by simp [hrest, Pc.Stopped]))
  intro lk
  simp [Cpu.stage, hheld, hrest, hpc, Pc.stage]

theorem next_sched (h : Inv s) {p : P} (hpc : (s.cpu c).pc = .sched p) (hnext : s.next c = some s') : Inv s' := by
  have hplaced := (h.cpu c).placed
  rw [Cpu.Placed, hpc] at hplaced
  have hrecorded : (s.cpu c).stage (.proc p) = .recorded := if_pos (by rw [hplaced.2.1]; exact Finset.mem_singleton_self _)
  rw [State.next, hpc] at hnext
  obtain rfl := Option.some.inj hnext
  rw [if_pos (by rw [(h.stage_eq _).1 hrecorded])]
  exact h.goes hpc (.schedCpu p)

theorem next_schedCpu (h : Inv s) {p : P} (hpc : (s.cpu c).pc = .schedCpu p) (hnext : s.next c = some s') : Inv s' := by
  have hplaced := (h.cpu c).placed
  rw [Cpu.Placed, hpc] at hplaced
  have hrecorded : (s.cpu c).stage (.proc p) = .recorded := if_pos (by rw [hplaced.2.1]; exact Finset.mem_singleton_self _)
  rw [State.next, hpc] at hnext
  obtain rfl := Option.some.inj hnext
  rw [if_pos (by rw [(h.stage_eq _).1 hrecorded])]
  exact h.goes hpc (.swtch p)

theorem setProc (h : Inv s) {p : P} {proc : Process} (hprocs : ProcsOk s.cpu (Function.update s.proc p proc)) :
    Inv (s.setProc p proc) := ⟨h.cpu, h.lock, hprocs⟩

/-- `sched` leaves its `intena` with the thread, and the lock with the processor. -/
theorem next_swtch (h : Inv s) {p : P} (hpc : (s.cpu c).pc = .swtch p) (hnext : s.next c = some s') : Inv s' := by
  have hok := h.cpu c
  have hplaced := hok.placed
  rw [Cpu.Placed, hpc] at hplaced
  obtain ⟨hproc, hheld, hpushes⟩ := hplaced
  have hnoff : (s.cpu c).noff = 1 := by
    rw [hok.noff, hpc, hheld, hpushes, Finset.card_singleton]
    rfl
  have hstate : (s.proc p).state ≠ .running := h.procs.leaving (by rw [hpc]; exact rfl)
  have hsie := hok.sie_eq_false (by simp [hpc])
  have hintena := hok.intena (by omega) (by rw [hpc]; trivial)
  rw [State.next, hpc] at hnext
  dsimp only at hnext
  rw [if_neg (by simp [hnoff]), if_neg hstate, if_neg (by simp [hsie])] at hnext
  obtain rfl := Option.some.inj hnext
  have hnew : Cpu.Ok { s.cpu c with pc := .switched, trap := false, want := false } := {
    noff := by rw [hok.noff, hpc]; rfl
    off := fun hon => absurd hon (by simp [hsie])
    on := fun heq => by cases heq
    intena := fun _ hsettled => hsettled.elim
    placed := ⟨rfl, by simp [hheld]⟩ }
  have hprocs : ProcsOk s.cpu (Function.update s.proc p
      { s.proc p with context := .sched (s.cpu c).intena (s.cpu c).trap (s.cpu c).want }) := by
    have hsame : ∀ q, (Function.update s.proc p
        { s.proc p with context := .sched (s.cpu c).intena (s.cpu c).trap (s.cpu c).want } q).state = (s.proc q).state := by
      intro q
      by_cases hq : q = p
      · rw [hq, Function.update_self]
      · rw [Function.update_of_ne hq]
    refine ⟨h.procs.alone, fun hrun => ?_, fun hstopped => ?_, ?_⟩
    · rw [hsame]
      exact h.procs.stopped hrun
    · rw [hsame]
      exact h.procs.leaving hstopped
    · intro q intena trap want hcontext
      by_cases hq : q = p
      · rw [hq, Function.update_self] at hcontext
        cases hcontext
        exact hintena
      · rw [Function.update_of_ne hq] at hcontext
        exact h.procs.context hcontext
  refine (h.setProc hprocs).setCpu hnew ?_ (hprocs.setCpu ?_ ?_ ?_)
  · intro lk
    change Cpu.stage _ lk = (s.cpu c).stage lk
    unfold Cpu.stage
    rw [hpc]
    rfl
  · exact fun hrun => absurd rfl hrun.2
  · exact fun hrun => absurd rfl hrun.2
  · exact fun hstopped => hstopped.elim

/-- On whichever processor the thread goes on, its `intena` comes back. -/
theorem next_resumed (h : Inv s) {intena : Bool} (hpc : (s.cpu c).pc = .resumed intena) (hnext : s.next c = some s') :
    Inv s' := by
  have hok := h.cpu c
  have hplaced := hok.placed
  rw [Cpu.Placed, hpc] at hplaced
  have hsie := hok.sie_eq_false (by simp [hpc])
  rw [State.next, hpc] at hnext
  obtain rfl := Option.some.inj hnext
  have hnew : Cpu.Ok { s.cpu c with pc := .rest, intena := intena } := {
    noff := by rw [hok.noff, hpc]; rfl
    off := fun hon => absurd hon (by simp [hsie])
    on := by
      intro _ hzero
      have hcard := Finset.card_pos.mpr (Finset.nonempty_iff_ne_empty.mpr hplaced.2)
      have hnoff := hok.noff
      dsimp only at hzero
      omega
    intena := fun _ _ => hplaced.1
    placed := trivial }
  have hruns : ∀ {p}, Cpu.Runs { s.cpu c with pc := .rest, intena := intena } p → (s.cpu c).Runs p :=
    fun hrun => ⟨hrun.1, by simp [hpc]⟩
  refine h.setCpu hnew ?_ (h.procs.setCpu hruns (fun hrun => h.procs.stopped (hruns hrun)) fun hstopped => hstopped.elim)
  intro lk
  unfold Cpu.stage
  rw [hpc]
  rfl

/-- Without its own `intena` the scheduler would take over that of the process. -/
theorem next_switched (h : Inv s) (hpc : (s.cpu c).pc = .switched) (hnext : s.next c = some s') : Inv s' := by
  have hok := h.cpu c
  have hplaced := hok.placed
  rw [Cpu.Placed, hpc] at hplaced
  have hsie := hok.sie_eq_false (by simp [hpc])
  rw [State.next, hpc] at hnext
  obtain rfl := Option.some.inj hnext
  have hnew : Cpu.Ok { s.cpu c with pc := .rest, intena := false, proc := none } := {
    noff := by rw [hok.noff, hpc]; rfl
    off := fun hon => absurd hon (by simp [hsie])
    on := fun _ _ => hsie.trans hplaced.1.symm
    intena := fun _ _ => hplaced.1.symm
    placed := trivial }
  refine h.setCpu hnew ?_ (h.procs.setCpu (fun hrun => ?_) (fun hrun => ?_) fun hstopped => hstopped.elim)
  · intro lk
    unfold Cpu.stage
    rw [hpc]
    rfl
  · cases hrun.1
  · cases hrun.1

/-- The process that the scheduler has found runnable runs nowhere, and the lock goes to its thread. -/
theorem next_choose (h : Inv s) {p : P} (hpc : (s.cpu c).pc = .choose p) (hnext : s.next c = some s') : Inv s' := by
  have hok := h.cpu c
  have hplaced := hok.placed
  rw [Cpu.Placed, hpc] at hplaced
  obtain ⟨hproc, hheld, hpushes, hwant⟩ := hplaced
  have hnoff : (s.cpu c).noff = 1 := by
    rw [hok.noff, hpc, hheld, hpushes, Finset.card_singleton]
    rfl
  have hsie := hok.sie_eq_false (by simp [hpc])
  have hintena := hok.intena (by omega) (by rw [hpc]; trivial)
  have hstate : (s.proc p).state ≠ .running := h.procs.leaving (by rw [hpc]; exact rfl)
  have hown : (s.cpu c).stage (.proc p) = .recorded := if_pos (by rw [hheld]; exact Finset.mem_singleton_self _)
  -- whoever has the lock of the process is this processor
  have hsame : ∀ {other}, .proc p ∈ (s.cpu other).held → other = c := by
    intro other hmem
    have hother : (s.cpu other).stage (.proc p) = .recorded := if_pos hmem
    have hlock := ((h.lock (.proc p)).of_recorded hother).1.symm.trans ((h.lock (.proc p)).of_recorded hown).1
    cases hlock
    rfl
  have hnone : ∀ {other}, ¬(s.cpu other).Runs p := by
    intro other hrun
    obtain rfl := hsame ((h.procs.stopped hrun).resolve_left hstate)
    rw [Cpu.Runs, hproc] at hrun
    cases hrun.1
  rw [State.next, hpc] at hnext
  obtain rfl := Option.some.inj hnext
  obtain ⟨hnew, hstage, hrunning, hnot⟩ := hok.switchTo hpc h.procs.context
  have hprocs : ProcsOk (Function.update s.cpu c ((s.cpu c).switchTo p (s.proc p).context))
      (Function.update s.proc p { s.proc p with state := .running }) := by
    have hrun : ∀ {q other}, (Function.update s.cpu c ((s.cpu c).switchTo p (s.proc p).context) other).Runs q →
        if other = c then q = p else q ≠ p ∧ (s.cpu other).Runs q := by
      intro q other hrun
      by_cases hother : other = c
      · rw [if_pos hother]
        rw [hother, Function.update_self, Cpu.Runs, hrunning] at hrun
        exact (Option.some.inj hrun.1).symm
      · rw [if_neg hother]
        rw [Function.update_of_ne hother] at hrun
        exact ⟨fun heq => hnone (heq ▸ hrun), hrun⟩
    refine ⟨fun {q one other} hone hother => ?_, fun {q other} hother => ?_, fun {q other} hstopped => ?_, ?_⟩
    · have hone := hrun hone
      have hother := hrun hother
      by_cases hc : one = c <;> by_cases hc' : other = c
      · exact hc.trans hc'.symm
      · rw [if_pos hc] at hone
        rw [if_neg hc'] at hother
        exact absurd hone hother.1
      · rw [if_neg hc] at hone
        rw [if_pos hc'] at hother
        exact absurd hother hone.1
      · rw [if_neg hc] at hone
        rw [if_neg hc'] at hother
        exact h.procs.alone hone.2 hother.2
    · have hother := hrun hother
      by_cases hc : other = c
      · rw [if_pos hc] at hother
        rw [hother, Function.update_self]
        exact Or.inl rfl
      · rw [if_neg hc] at hother
        rw [Function.update_of_ne hother.1, Function.update_of_ne hc]
        exact h.procs.stopped hother.2
    · by_cases hc : other = c
      · rw [hc, Function.update_self] at hstopped
        exact absurd hstopped (hnot q)
      · rw [Function.update_of_ne hc] at hstopped
        have hne : q ≠ p := by
          rintro rfl
          exact hc (hsame (by rw [(h.cpu other).held_of_stopped hstopped]; exact Finset.mem_singleton_self _))
        rw [Function.update_of_ne hne]
        exact h.procs.leaving hstopped
    · intro q intena trap want hcontext
      by_cases hq : q = p
      · rw [hq, Function.update_self] at hcontext
        exact h.procs.context hcontext
      · rw [Function.update_of_ne hq] at hcontext
        exact h.procs.context hcontext
  exact ⟨h.ok_update hnew, h.lock_update hstage, hprocs⟩

theorem next (h : Inv s) (hnext : s.next c = some s') : Inv s' := by
  cases hpc : (s.cpu c).pc with
  | rest | panic =>
      rw [State.next, hpc] at hnext
      cases hnext
  | acquire lk => exact h.next_acquire hpc hnext
  | acquireCpu lk => exact h.next_acquireCpu hpc hnext
  | spin lk => exact h.next_spin hpc hnext
  | record lk => exact h.next_record hpc hnext
  | release lk => exact h.next_release hpc hnext
  | releaseCpu lk => exact h.next_releaseCpu hpc hnext
  | unrecord lk => exact h.next_unrecord hpc hnext
  | unlock lk => exact h.next_unlock hpc hnext
  | popOff => exact h.next_popOff hpc hnext
  | sched p => exact h.next_sched hpc hnext
  | schedCpu p => exact h.next_schedCpu hpc hnext
  | swtch p => exact h.next_swtch hpc hnext
  | resumed intena => exact h.next_resumed hpc hnext
  | switched => exact h.next_switched hpc hnext
  | choose p => exact h.next_choose hpc hnext

/-- An operation that starts in the code around, without a change to locks and processes. -/
theorem startCpu (h : Inv s) (hrest : (s.cpu c).pc = .rest) {cpu : Cpu P M} (hok : cpu.Ok)
    (hstage : ∀ lk, cpu.stage lk = (s.cpu c).stage lk) (hproc : cpu.proc = (s.cpu c).proc)
    (hheld : ∀ p, cpu.proc = some p → (s.proc p).state = .running ∨ (.proc p ∈ (s.cpu c).held → .proc p ∈ cpu.held))
    (hleaving : ∀ p, cpu.pc.Stopped p → (s.proc p).state ≠ .running) : Inv (s.setCpu c cpu) := by
  have hruns : ∀ {p}, cpu.Runs p → (s.cpu c).Runs p := fun hrun => ⟨hproc ▸ hrun.1, by simp [hrest]⟩
  refine h.setCpu hok hstage (h.procs.setCpu hruns (fun {p} hrun => ?_) (@hleaving))
  rcases hheld p hrun.1 with hrunning | hheld
  · exact Or.inl hrunning
  · exact (h.procs.stopped (hruns hrun)).imp_right hheld

theorem start_acquire (h : Inv s) (hrest : (s.cpu c).pc = .rest) {lk : LockId P M} (hlk : lk ∉ (s.cpu c).held) :
    Inv (s.setCpu c { (s.cpu c).pushOff with pc := .acquire lk }) := by
  have hok := h.cpu c
  have hintena := hok.pushOff hrest
  refine h.startCpu hrest ?_ ?_ rfl (fun p _ => Or.inr id) fun p => False.elim
  · exact {
      noff := by
        have hnoff := hok.noff_rest hrest
        dsimp only [Cpu.pushOff, Pc.depth]
        omega
      off := fun hsie => by cases hsie
      on := fun heq => by cases heq
      intena := fun _ _ => hintena
      placed := hlk }
  · intro other
    unfold Cpu.stage
    rw [hrest]
    rfl

theorem start_release (h : Inv s) (hrest : (s.cpu c).pc = .rest) {lk : LockId P M} (hlk : lk ∈ (s.cpu c).held)
    (hstate : ∀ p ∈ (s.cpu c).proc, lk = .proc p → (s.proc p).state = .running) :
    Inv (s.setCpu c { s.cpu c with pc := .release lk, held := (s.cpu c).held.erase lk }) := by
  have hok := h.cpu c
  have hsie := hok.sie_of_held (Finset.ne_empty_of_mem hlk)
  have hnoff := hok.noff_rest hrest
  have hcard := Finset.card_erase_add_one hlk
  refine h.startCpu hrest ?_ ?_ rfl (fun p hproc => ?_) fun p => False.elim
  · exact {
      noff := by
        dsimp only [Pc.depth]
        omega
      off := fun hon => absurd hon (by simp [hsie])
      on := fun heq => by cases heq
      intena := fun hpos _ => hok.intena hpos (by rw [hrest]; trivial)
      placed := Finset.notMem_erase _ _ }
  · intro other
    unfold Cpu.stage
    rw [hrest]
    by_cases hother : other = lk
    · simp [hother, hlk, Pc.stage]
    · simp [hother, Pc.stage]
  · by_cases heq : lk = .proc p
    · exact Or.inl (hstate p hproc heq)
    · exact Or.inr fun hmem => Finset.mem_erase.mpr ⟨Ne.symm heq, hmem⟩

theorem start_pushOff (h : Inv s) (hrest : (s.cpu c).pc = .rest) :
    Inv (s.setCpu c { (s.cpu c).pushOff with pushes := (s.cpu c).pushes + 1 }) := by
  have hok := h.cpu c
  have hintena := hok.pushOff hrest
  refine h.startCpu hrest ?_ (fun _ => rfl) rfl (fun p _ => Or.inr id) fun p hstopped => ?_
  · exact {
      noff := by
        have hnoff := hok.noff
        dsimp only [Cpu.pushOff]
        omega
      off := fun hsie => by cases hsie
      on := fun _ hzero => by cases hzero
      intena := fun _ _ => hintena
      placed := by
        have hplaced := hok.placed
        rw [Cpu.Placed, hrest] at hplaced
        rw [Cpu.Placed]
        dsimp only [Cpu.pushOff]
        rw [hrest]
        trivial }
  · exact h.procs.leaving hstopped

theorem start_popOff (h : Inv s) (hrest : (s.cpu c).pc = .rest) (hpushes : 0 < (s.cpu c).pushes) :
    Inv (s.setCpu c { s.cpu c with pc := .popOff, pushes := (s.cpu c).pushes - 1 }) := by
  have hok := h.cpu c
  have hnoff := hok.noff_rest hrest
  refine h.startCpu hrest ?_ ?_ rfl (fun p _ => Or.inr id) fun p => False.elim
  · exact {
      noff := by
        dsimp only [Pc.depth]
        omega
      off := by
        intro hsie
        have := (hok.off hsie).2
        omega
      on := fun heq => by cases heq
      intena := fun hpos _ => hok.intena hpos (by rw [hrest]; trivial)
      placed := trivial }
  · intro other
    unfold Cpu.stage
    rw [hrest]
    rfl

/-- Interrupts are turned on or off, by the code or by a trap, where the processor has no locks. -/
theorem start_interrupts (h : Inv s) (hrest : (s.cpu c).pc = .rest) (hnoff : (s.cpu c).noff = 0) (on trap : Bool) :
    Inv (s.setCpu c { s.cpu c with sie := on, trap := trap, want := on }) := by
  have hok := h.cpu c
  refine h.startCpu hrest ?_ (fun _ => rfl) rfl (fun p _ => Or.inr id) fun p hstopped => h.procs.leaving hstopped
  exact {
    noff := hok.noff
    off := fun _ => ⟨hrest, hnoff⟩
    on := fun _ _ => rfl
    intena := fun hpos => by
      dsimp only at hpos
      omega
    placed := by
      rw [Cpu.Placed]
      dsimp only
      rw [hrest]
      trivial }

theorem noff_eq_zero (h : Inv s) (hrest : (s.cpu c).pc = .rest) (hheld : (s.cpu c).held = ∅)
    (hpushes : (s.cpu c).pushes = 0) : (s.cpu c).noff = 0 := by
  rw [(h.cpu c).noff_rest hrest, hheld, hpushes]
  rfl

/-- `sched` and `choose` start with the lock of the process alone. -/
theorem start_leaving (h : Inv s) (hrest : (s.cpu c).pc = .rest) {p : P} {pc : Pc P M} (hstopped : pc.Stopped p)
    (hplaced : Cpu.Placed { s.cpu c with pc := pc }) (hheld : (s.cpu c).held = {.proc p})
    (hstate : (s.proc p).state ≠ .running) : Inv (s.setPc c pc) := by
  have hok := h.cpu c
  have hpc : pc.depth = 0 ∧ (∀ lk, pc.stage lk = .free) ∧ pc ≠ .rest ∧ ∀ q, pc.Stopped q → q = p := by
    cases pc with
    | sched q | schedCpu q | swtch q | choose q =>
        obtain rfl := hstopped
        exact ⟨rfl, fun _ => rfl, by simp, fun _ heq => heq.symm⟩
    | _ => exact hstopped.elim
  obtain ⟨hdepth, hstage, hne, hsame⟩ := hpc
  have hsie := hok.sie_of_held (by rw [hheld]; exact Finset.singleton_ne_empty _)
  refine h.startCpu hrest ?_ ?_ rfl (fun q _ => Or.inr id) ?_
  · exact {
      noff := by rw [hok.noff_rest hrest, hdepth]; rfl
      off := fun hon => absurd hon (by simp [hsie])
      on := fun heq => absurd heq hne
      intena := fun hpos _ => hok.intena hpos (by rw [hrest]; trivial)
      placed := hplaced }
  · intro lk
    unfold Cpu.stage
    rw [hrest, hstage]
    rfl
  · intro q hq
    rw [hsame q hq]
    exact hstate

/-- Who writes the state of a process is that process itself, or has seen that it does not run. -/
theorem start_setState (h : Inv s) (hrest : (s.cpu c).pc = .rest) {p : P} {state : ProcState}
    (hheld : .proc p ∈ (s.cpu c).held) (hstate : state ≠ .running)
    (hwho : (s.cpu c).proc = some p ∨ (s.proc p).state ≠ .running) :
    Inv (s.setProc p { s.proc p with state := state }) := by
  refine h.setProc ⟨h.procs.alone, fun {q other} hrun => ?_, fun {q other} hstopped => ?_, ?_⟩
  · by_cases hq : q = p
    · subst hq
      right
      rcases hwho with hown | hnot
      · rwa [h.procs.alone hrun ⟨hown, by simp [hrest]⟩]
      · exact (h.procs.stopped hrun).resolve_left hnot
    · rw [Function.update_of_ne hq]
      exact h.procs.stopped hrun
  · by_cases hq : q = p
    · rw [hq, Function.update_self]
      exact hstate
    · rw [Function.update_of_ne hq]
      exact h.procs.leaving hstopped
  · intro q intena trap want hcontext
    by_cases hq : q = p
    · rw [hq, Function.update_self] at hcontext
      exact h.procs.context hcontext
    · rw [Function.update_of_ne hq] at hcontext
      exact h.procs.context hcontext

theorem start_initContext (h : Inv s) (p : P) : Inv (s.setProc p { s.proc p with context := .forkret }) := by
  have hsame : ∀ q, (Function.update s.proc p { s.proc p with context := .forkret } q).state = (s.proc q).state := by
    intro q
    by_cases hq : q = p
    · rw [hq, Function.update_self]
    · rw [Function.update_of_ne hq]
  refine h.setProc ⟨h.procs.alone, fun hrun => ?_, fun hstopped => ?_, ?_⟩
  · rw [hsame]
    exact h.procs.stopped hrun
  · rw [hsame]
    exact h.procs.leaving hstopped
  · intro q intena trap want hcontext
    by_cases hq : q = p
    · rw [hq, Function.update_self] at hcontext
      cases hcontext
    · rw [Function.update_of_ne hq] at hcontext
      exact h.procs.context hcontext

theorem start (h : Inv s) (hrest : (s.cpu c).pc = .rest) {op : Op P M} (hallowed : Allowed s (c, op))
    (hstart : s.start c op = some s') : Inv s' := by
  cases op with
  | acquire lk => exact Option.some.inj hstart ▸ h.start_acquire hrest hallowed
  | release lk => exact Option.some.inj hstart ▸ h.start_release hrest hallowed.1 hallowed.2
  | pushOff => exact Option.some.inj hstart ▸ h.start_pushOff hrest
  | popOff => exact Option.some.inj hstart ▸ h.start_popOff hrest hallowed
  | intrOn =>
      obtain ⟨hheld, hpushes, htrap⟩ := hallowed
      have hnext := h.start_interrupts hrest (h.noff_eq_zero hrest hheld hpushes) true (s.cpu c).trap
      exact Option.some.inj hstart ▸ hnext
  | intrOff =>
      obtain ⟨hheld, hpushes, htrap⟩ := hallowed
      have hnext := h.start_interrupts hrest (h.noff_eq_zero hrest hheld hpushes) false (s.cpu c).trap
      exact Option.some.inj hstart ▸ hnext
  | sched =>
      obtain ⟨p, hproc, hheld, hpushes, hstate⟩ := hallowed
      rw [State.start, hproc] at hstart
      exact Option.some.inj hstart ▸ h.start_leaving hrest rfl ⟨hproc, hheld, hpushes⟩ hheld hstate
  | choose p =>
      obtain ⟨hproc, hheld, hpushes, htrap, hwant⟩ := hallowed
      by_cases hstate : (s.proc p).state = .runnable
      · rw [State.start, if_pos hstate] at hstart
        refine Option.some.inj hstart ▸ h.start_leaving hrest rfl ⟨hproc, hheld, hpushes, hwant⟩ hheld ?_
        rw [hstate]
        exact ProcState.noConfusion
      · rw [State.start, if_neg hstate] at hstart
        exact Option.some.inj hstart ▸ h
  | setState p state =>
      obtain ⟨hheld, hstate, hwho⟩ := hallowed
      exact Option.some.inj hstart ▸ h.start_setState hrest hheld hstate hwho
  | initContext p => exact Option.some.inj hstart ▸ h.start_initContext p
  | interrupt =>
      by_cases hsie : (s.cpu c).sie = true
      · rw [State.start, if_pos hsie] at hstart
        exact Option.some.inj hstart ▸ h.start_interrupts hrest ((h.cpu c).off hsie).2 false true
      · rw [State.start, if_neg hsie] at hstart
        cases hstart
  | sret =>
      obtain ⟨-, hheld, hpushes⟩ := hallowed
      exact Option.some.inj hstart ▸ h.start_interrupts hrest (h.noff_eq_zero hrest hheld hpushes) true false
  | next => cases hstart

/-- **One step.** -/
theorem step (h : Inv s) {action : κ × Op P M} (hallowed : Allowed s action) (hstep : Spin.step s action = some s') :
    Inv s' := by
  rw [Spin.step] at hstep
  by_cases hnext : action.2 = .next
  · rw [if_pos hnext] at hstep
    exact h.next hstep
  · rw [if_neg hnext] at hstep
    by_cases hrest : (s.cpu action.1).pc = .rest
    · rw [if_pos hrest] at hstep
      exact h.start hrest hallowed hstep
    · rw [if_neg hrest] at hstep
      cases hstep

end Inv

end Steps

/-! ### Runs -/

/-- After `initlock` and `procinit`, with every processor about to enter `scheduler`. -/
def boot : State κ P M where
  cpu _ := ⟨false, 0, false, none, .rest, ∅, 0, false, false⟩
  lock _ := ⟨false, none⟩
  proc _ := ⟨.unused, .forkret⟩

theorem inv_boot : Inv (boot : State κ P M) where
  cpu _ := {
    noff := rfl
    off := fun hsie => by cases hsie
    on := fun _ _ => rfl
    intena := fun hpos => by cases hpos
    placed := trivial }
  lock _ := .free
  procs := {
    alone := fun hrun => by cases hrun.1
    stopped := fun hrun => by cases hrun.1
    leaving := fun hstopped => hstopped.elim
    context := fun hcontext => by cases hcontext }

/-- What every thread of the kernel relies on. -/
structure Safe (s : State κ P M) : Prop where
  /-- Two processors never hold the same lock. -/
  exclusive : ∀ {c c' lk}, lk ∈ (s.cpu c).held → lk ∈ (s.cpu c').held → c = c'
  /-- A lock that is locked is one that some processor has, and `holding` tells which it is. -/
  locked : ∀ {lk}, (s.lock lk).locked = true → ∃ c, (s.cpu c).stage lk ≠ .free
  holding : ∀ {c lk}, (s.cpu c).pc = .rest →
    ((s.lock lk).locked = true ∧ (s.lock lk).cpu = some c ↔ lk ∈ (s.cpu c).held)
  /-- None of the panics is reached. -/
  noPanic : ∀ {c message}, (s.cpu c).pc ≠ .panic message
  /-- `noff` counts what the processor has to undo, and with interrupts on there is nothing. -/
  noff : ∀ {c}, (s.cpu c).pc = .rest → (s.cpu c).noff = (s.cpu c).held.card + (s.cpu c).pushes
  off : ∀ {c}, (s.cpu c).sie = true → (s.cpu c).pc = .rest ∧ (s.cpu c).held = ∅ ∧ (s.cpu c).pushes = 0
  /-- Without locks, interrupts are as the thread that runs has last set them itself. -/
  back : ∀ {c}, (s.cpu c).pc = .rest → (s.cpu c).noff = 0 → (s.cpu c).sie = (s.cpu c).want
  /-- A process runs on one processor at most. -/
  alone : ∀ {c c' p}, (s.cpu c).Runs p → (s.cpu c').Runs p → c = c'

theorem Inv.safe {s : State κ P M} (h : Inv s) : Safe s where
  exclusive := by
    intro c c' lk hc hc'
    have hone := (@LockOk.of_recorded _ _ _ _ c (h.lock lk) (if_pos hc)).1
    have hother := (@LockOk.of_recorded _ _ _ _ c' (h.lock lk) (if_pos hc')).1
    exact Option.some.inj (congrArg Spinlock.cpu (hone.symm.trans hother))
  locked := by
    intro lk hlocked
    have hlock := h.lock lk
    generalize hstage : (fun c => (s.cpu c).stage lk) = stage at hlock
    generalize s.lock lk = lock at hlock hlocked
    cases hlock with
    | free => cases hlocked
    | owned c | recorded c =>
        refine ⟨c, ?_⟩
        have hc := congrFun hstage c
        rw [Function.update_self] at hc
        rw [hc]
        exact Stage.noConfusion
  holding := by
    intro c lk hrest
    have hstage : (s.cpu c).stage lk = .recorded ↔ lk ∈ (s.cpu c).held := by
      unfold Cpu.stage
      rw [hrest]
      by_cases hlk : lk ∈ (s.cpu c).held
      · simp [hlk]
      · simp [hlk, Pc.stage]
    rw [← hstage]
    refine ⟨fun hholding => ((h.lock lk).cpu_eq_some_iff).mp hholding.2, fun hc => ?_⟩
    rw [(h.stage_eq lk).1 hc]
    exact ⟨rfl, rfl⟩
  noPanic := by
    intro c message hpc
    have hplaced := (h.cpu c).placed
    rw [Cpu.Placed, hpc] at hplaced
    exact hplaced
  noff := fun hrest => (h.cpu _).noff_rest hrest
  off := by
    intro c hsie
    obtain ⟨hrest, hzero⟩ := (h.cpu c).off hsie
    have hnoff := (h.cpu c).noff_rest hrest
    exact ⟨hrest, Finset.card_eq_zero.mp (by omega), by omega⟩
  back := fun hrest hzero => (h.cpu _).on hrest hzero
  alone := h.procs.alone

/-- **Spinlocks are safe with interrupts and with switches between threads**, along every run of the code that keeps to
the rules. -/
theorem disciplined_of_run {s : State κ P M} {actions : List (κ × Op P M)}
    (hallowed : Transition.Along step Allowed boot actions) (hrun : Transition.run step boot actions = some s) :
    Safe s :=
  (Transition.invariant_along (fun _ _ _ h hallowed hstep => h.step hallowed hstep) inv_boot hallowed hrun).safe

/-- An `acquire` that finds the lock free, and a `release`. -/
def take (c : Bool) : List (Bool × Op Unit Empty) := (c, .acquire (.proc ())) :: List.replicate 3 (c, .next)

def give (c : Bool) : List (Bool × Op Unit Empty) := (c, .release (.proc ())) :: List.replicate 5 (c, .next)

/-- One processor starts a process and is interrupted; the process yields, and goes on on the other processor. -/
def migration : List (Bool × Op Unit Empty) :=
  take false ++ [(false, .setState () .used), (false, .initContext ()), (false, .setState () .runnable),
    (false, .choose ())] ++ List.replicate 6 (false, .next) ++ [(false, .intrOn), (false, .interrupt)] ++
    take false ++ [(false, .setState () .runnable), (false, .sched)] ++ List.replicate 4 (false, .next) ++ give false ++
    take true ++ [(true, .choose ()), (true, .next), (true, .next)] ++ give true ++ [(true, .sret)]

theorem disciplined_of_run_migration : ∃ s : State Bool Unit Empty, Transition.run step boot migration = some s ∧
    (s.cpu true).proc = some () ∧ (s.cpu true).sie = true ∧ Safe s := by
  have hrun : (Transition.run step boot migration).any
      (fun s => decide ((s.cpu true).proc = some ()) && (s.cpu true).sie) = true := by decide +kernel
  have hallowed : Transition.Along step Allowed (boot : State Bool Unit Empty) migration := by decide +kernel
  obtain ⟨s, hs, hend⟩ := (Option.any_eq_true _ _).mp hrun
  rw [Bool.and_eq_true, decide_eq_true_eq] at hend
  exact ⟨s, hs, hend.1, hend.2, disciplined_of_run hallowed hs⟩

end Xv6.Spin
