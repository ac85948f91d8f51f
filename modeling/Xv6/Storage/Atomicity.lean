import Xv6.Storage.Crash

/-!
# Groups of writes are atomic

Any number of processes read, change and log blocks outside the log, in operations of any length,
over crashes at any point and reboots that may crash in turn. Whenever the system is up and nobody
commits, the disk is what the groups that reached it have left of the disk it started from, whole and
in order.
-/

set_option linter.unusedSectionVars false

namespace Xv6.Kernel

/-- What a process knows between two calls: the buffers it has from `bread`, those it has changed
since it last logged them, and whether it is in an operation. -/
structure Local (n : Nat) where
  held : Finset (Fin n)
  modified : Finset (Fin n)
  inOp : Bool

def Local.fresh (n : Nat) : Local n := ⟨∅, ∅, false⟩

inductive Call (n : Nat) (D : Type) where
  | beginOp
  | bread (blockno : Nat)
  | modify (b : Fin n) (data : D)
  | logWrite (b : Fin n)
  | brelse (b : Fin n)
  | endOp
  | sysSync

/-- The calls a file system makes: `bread` of a block outside the log, in an operation `modify` and
then `log_write` before `brelse`, and `sys_sync` between operations. -/
def menu {n : Nat} {D : Type} (conf : Config D) (value : Local n) :
    Call n D → Option (Code n D (Local n))
  | .beginOp =>
      if value.inOp then none
      else some do
        beginOp
        pure { value with inOp := true }
  | .bread blockno =>
      if conf.Home blockno then some do
        let b ← bread rootDev blockno
        pure { value with held := insert b value.held }
      else none
  | .modify b data =>
      if value.inOp ∧ b ∈ value.held then some do
        setData b data
        pure { value with modified := insert b value.modified }
      else none
  | .logWrite b =>
      if value.inOp ∧ b ∈ value.held then some do
        logWrite b
        pure { value with modified := value.modified.erase b }
      else none
  | .brelse b =>
      if b ∈ value.held ∧ b ∉ value.modified then some do
        brelse b
        pure { value with held := value.held.erase b }
      else none
  | .endOp =>
      if value.inOp ∧ value.modified = ∅ then some do
        endOp conf
        pure { value with inOp := false }
      else none
  | .sysSync =>
      if value.inOp then none
      else some do
        sysSync
        pure value

/-- The processes over the cache and the log. -/
def system {n : Nat} {ι D : Type} [DecidableEq ι] [Inhabited D] (conf : Config D) (first : ι) :
    Threads.System (sections n D) (State n ι D) ι (Local n) (Call n D) (Event ι) where
  handler := handler conf
  menu := fun _ call value => menu conf value call
  environment := environment conf first (.fresh n)

variable {n : Nat} {ι D : Type} [DecidableEq ι] [Fintype ι] [Inhabited D] {conf : Config D}

/-! ### The calls -/

structure Between (conf : Config D) (value : Local n) (ghost : Ghost n D) : Prop where
  locked : ghost.share.locked = value.held
  dirty : ghost.dirty = value.modified
  subset : value.modified ⊆ value.held
  job : ghost.job = none
  booted : ghost.booted = true
  home : ∀ b ∈ value.held, (ghost.share.key b).1 = rootDev ∧ conf.Home (ghost.share.key b).2
  valid : ∀ b ∈ value.held, (ghost.share.content b).valid = true

namespace Between

variable {value : Local n} {ghost after : Ghost n D} {b : Fin n}

theorem fresh (h : ghost.Fresh) : Between conf (.fresh n) ghost :=
  ⟨h.locked, h.dirty, Finset.Subset.refl _, h.job, h.booted, by simp [Local.fresh],
    by simp [Local.fresh]⟩

theorem clean (h : Between conf value ghost) : ghost.Clean := by
  unfold Ghost.Clean
  rw [h.locked, h.dirty]
  exact h.subset

theorem keeps (h : Between conf value ghost) (hkeeps : ghost.Keeps after)
    (hjob : after.job = none) : Between conf value after where
  locked := hkeeps.share.locked.trans h.locked
  dirty := hkeeps.dirty.trans h.dirty
  subset := h.subset
  job := hjob
  booted := hkeeps.booted.trans h.booted
  home b hb := by
    rw [hkeeps.share.key b (h.locked ▸ hb)]
    exact h.home b hb
  valid b hb := by
    rw [hkeeps.share.content b (h.locked ▸ hb)]
    exact h.valid b hb

theorem bread (h : Between conf value ghost) {blockno : Nat} (hhome : conf.Home blockno) :
    (Kernel.bread rootDev blockno).wp (rule conf) ghost fun b after =>
      Between conf { value with held := insert b value.held } after := by
  refine Program.wp_mono rule_monotone ?_ (bread_spec ghost rootDev blockno)
  rintro b after ⟨data, htakes, hjob, -⟩
  refine ⟨htakes.share.locked.trans (congrArg _ h.locked), htakes.dirty.trans h.dirty,
    h.subset.trans (Finset.subset_insert _ _), hjob.trans h.job, htakes.booted.trans h.booted,
    fun b' hb' => ?_, fun b' hb' => ?_⟩
  · obtain rfl | hb' := Finset.mem_insert.mp hb'
    · rw [htakes.share.key_self]
      exact ⟨rfl, hhome⟩
    · rw [htakes.share.key b' (h.locked ▸ hb')]
      exact h.home b' hb'
  · obtain rfl | hb' := Finset.mem_insert.mp hb'
    · rw [htakes.share.content_self]
    · rw [htakes.share.content b' (h.locked ▸ hb')]
      exact h.valid b' hb'

theorem modify (h : Between conf value ghost) (hheld : b ∈ value.held) (data : D) :
    (setData b data).wp (rule conf) ghost fun _ after =>
      Between conf { value with modified := insert b value.modified } after := by
  rw [wp_setData]
  refine ⟨h.locked ▸ hheld, h.locked, congrArg (insert b) h.dirty,
    Finset.insert_subset hheld h.subset, h.job, h.booted, h.home, fun b' hb' => ?_⟩
  by_cases hb : b' = b
  · subst hb
    simpa [Share.store] using h.valid b' hb'
  · simpa [Share.store, hb] using h.valid b' hb'

theorem logWrite (h : Between conf value ghost) (hheld : b ∈ value.held) :
    (Kernel.logWrite b).wp (rule conf) ghost fun _ after =>
      Between conf { value with modified := value.modified.erase b } after := by
  obtain ⟨hdev, hhome⟩ := h.home b hheld
  rw [wp_logWrite]
  exact ⟨h.locked ▸ hheld, h.valid b hheld, hdev, hhome, h.locked,
    congrArg (fun modified : Finset (Fin n) => modified.erase b) h.dirty,
    (Finset.erase_subset _ _).trans h.subset, h.job, h.booted, h.home, h.valid⟩

theorem brelse (h : Between conf value ghost) (hheld : b ∈ value.held)
    (hclean : b ∉ value.modified) : (Kernel.brelse b).wp (rule conf) ghost fun _ after =>
      Between conf { value with held := value.held.erase b } after := by
  refine Program.wp_mono rule_monotone ?_ (brelse_spec (h.locked ▸ hheld) (h.dirty ▸ hclean))
  rintro _ _ rfl
  refine ⟨congrArg (fun held : Finset (Fin n) => held.erase b) h.locked, h.dirty,
    fun b' hb' => ?_, h.job, h.booted, fun b' hb' => h.home b' (Finset.mem_of_mem_erase hb'),
    fun b' hb' => h.valid b' (Finset.mem_of_mem_erase hb')⟩
  refine Finset.mem_erase.mpr ⟨?_, h.subset hb'⟩
  rintro rfl
  exact hclean hb'

end Between

theorem menu_sound :
    Threads.MenuSound (fun (_ : ι) call value => menu conf value call)
      (rule conf : Rule (sections n D) (Ghost n D)) fun _ => Between conf := by
  intro who call value program ghost hcall h
  cases call with
  | beginOp =>
      simp only [menu] at hcall
      split at hcall
      · cases hcall
      · cases hcall
        simp only [Program.wp_bind, wp_beginOp, Program.wp_pure]
        exact ⟨h.booted, h.locked, h.dirty, h.subset, h.job, h.booted, h.home, h.valid⟩
  | bread blockno =>
      simp only [menu] at hcall
      split at hcall
      · next hhome =>
          cases hcall
          simp only [Program.wp_bind, Program.wp_pure]
          exact h.bread hhome
      · cases hcall
  | modify b data =>
      simp only [menu] at hcall
      split at hcall
      · next hheld =>
          cases hcall
          simp only [Program.wp_bind, Program.wp_pure]
          exact h.modify hheld.2 data
      · cases hcall
  | logWrite b =>
      simp only [menu] at hcall
      split at hcall
      · next hheld =>
          cases hcall
          simp only [Program.wp_bind, Program.wp_pure]
          exact h.logWrite hheld.2
      · cases hcall
  | brelse b =>
      simp only [menu] at hcall
      split at hcall
      · next hheld =>
          cases hcall
          simp only [Program.wp_bind, Program.wp_pure]
          exact h.brelse hheld.1 hheld.2
      · cases hcall
  | endOp =>
      simp only [menu] at hcall
      split at hcall
      · cases hcall
        simp only [Program.wp_bind, Program.wp_pure]
        refine Program.wp_mono rule_monotone ?_ (endOp_spec h.clean h.job h.booted)
        rintro _ after ⟨hkeeps, hjob⟩
        have hafter := h.keeps hkeeps hjob
        exact ⟨hafter.locked, hafter.dirty, hafter.subset, hjob, hafter.booted, hafter.home,
          hafter.valid⟩
      · cases hcall
  | sysSync =>
      simp only [menu] at hcall
      split at hcall
      · cases hcall
      · cases hcall
        simp only [Program.wp_bind, wp_sysSync, Program.wp_pure]
        exact ⟨h.booted, h⟩

/-! ### Runs -/

/-- **Crash atomicity.** Along every run, crashes and reboots included, whenever `fsinit` has
returned and nobody commits, the home blocks are those of the first disk overwritten by the groups
whose header has reached the disk, in order. -/
theorem home_eq_base_of_run {init : Nat → D} {first : ι}
    {user : ι → Nat → Option (Nat → UInt8)}
    (hheader : conf.header.decode (init conf.start) = [])
    {actions : List (Threads.Action ι (Call n D) (Event ι))}
    {world : Threads (sections n D) (State n ι D) ι (Local n)}
    (hrun : Transition.run (Threads.step (system conf first))
      (boot conf first (.fresh n) init user []) actions = some world)
    (hup : world.shared.up = true) (hcommitting : world.shared.log.committing = false)
    {blockno : Nat} (hhome : conf.Home blockno) :
    world.shared.disk blockno = base init world.shared.committed blockno := by
  have hrecoverable : Recoverable conf init (base init []) [] (base init []) :=
    .nil hheader fun _ _ => rfl
  have hpost : ∀ (_ : ι) (ghost : Ghost n D), ghost.Fresh → Between conf (.fresh n) ghost :=
    fun _ _ => Between.fresh
  have hstart := verified_boot hrecoverable first user hpost
  obtain ⟨ghosts, hinv, -⟩ := Threads.sound_run (handler_sound init)
    (environment_sound first fun _ _ => Between.fresh) menu_sound hstart hrun
  exact hinv.home hup hcommitting hhome

def steps (count : Nat) : List (Threads.Action Unit (Call 3 Bytes) (Event Unit)) :=
  List.replicate count (.perform () 0)

/-- An operation fills block 100 with sevens. The machine stops as soon as the header is on the
disk, and again halfway through the recovery. -/
def crashTwice : List (Threads.Action Unit (Call 3 Bytes) (Event Unit)) :=
  steps 30 ++ .start () .beginOp :: steps 1 ++ .start () (.bread 100) :: steps 4 ++
    .start () (.modify (Fin.last 2) fun _ => 7) :: steps 1 ++ .start () (.logWrite (Fin.last 2)) :: steps 1 ++
    .start () (.brelse (Fin.last 2)) :: steps 3 ++ .start () .endOp :: steps 28 ++
    .env .crash :: steps 20 ++ .env .crash :: steps 48

theorem home_eq_base_of_run_crashTwice :
    ∃ world, Transition.run (Threads.step (system smallConf ()))
        (boot smallConf () (.fresh 3) (fun _ _ => 0) (fun _ _ => none) []) crashTwice = some world ∧
      world.shared.committed.length = 1 ∧
      world.shared.disk 100 = base (fun _ _ => 0) world.shared.committed 100 := by
  have hrun : ∃ world ∈ Transition.run (Threads.step (system smallConf ()))
      (boot smallConf () (.fresh 3) (fun _ _ => 0) (fun _ _ => none) []) crashTwice,
      world.shared.up = true ∧ world.shared.log.committing = false ∧
        world.shared.committed.length = 1 := by
    decide +kernel
  obtain ⟨world, hworld, hup, hcommitting, hlength⟩ := hrun
  exact ⟨world, hworld, hlength,
    home_eq_base_of_run (by decide) hworld hup hcommitting (by decide)⟩

end Xv6.Kernel
