import Xv6.Vm.Arm64Image

/-!
# Processes and their memory on arm64

`growproc`, `fork` and `exec`, with what they do to the process table. A call that fails leaves the
memory of the process as it was, and gives back what it took.
-/

namespace Xv6.Vm.Arm64

/-! ### The code -/

inductive ProcState where
  | unused
  | used
  | sleeping
  | runnable
  | running
  | zombie
  deriving DecidableEq

/-- What of `struct proc` is about memory. A page table is 0 where there is none. -/
structure Proc where
  state : ProcState
  pid : Nat
  sz : Nat
  pagetable : Nat

/-- A slot of the process table, of `NPROC`. -/
abbrev Slot := Fin 64

structure Procs where
  proc : Slot → Proc
  parent : Slot → Option Slot
  nextpid : Nat

/-- A number as an `uint`. -/
def uint (n : Int) : Nat := (n % 4294967296).toNat

section Code

variable (ram : Ram)

/-- Grow or shrink user memory by `n` bytes. Return 0 on success, -1 on failure. -/
def growproc (p : Proc) (n : Int) : Code Index Word (Int × Proc) :=
  let sz := uint p.sz
  if n > 0 then do
    let sz1 ← uvmalloc (port ram) p.pagetable sz (uint (sz + n)) userFlags
    if uint sz1 = 0 then pure (-1, p) else pure (0, { p with sz := uint sz1 })
  else if n < 0 then do
    let sz1 ← uvmdealloc (port ram) p.pagetable sz (uint (sz + n))
    pure (0, { p with sz := uint sz1 })
  else pure (0, { p with sz })

/-- Free a proc structure and the data hanging from it, including user pages. -/
def freeproc (procs : Procs) (i : Slot) : Code Index Word Procs := do
  Program.when ((procs.proc i).pagetable ≠ 0)
    (uvmfree (port ram) (procs.proc i).pagetable (procs.proc i).sz)
  pure { procs with
    proc := Function.update procs.proc i ⟨.unused, 0, 0, 0⟩
    parent := Function.update procs.parent i none }

/-- Look in the process table for an UNUSED proc. If there are no free procs, or a memory allocation
fails, return 0. -/
def allocproc (procs : Procs) : Code Index Word (Option Slot × Procs) :=
  match (List.finRange 64).find? fun i => (procs.proc i).state = .unused with
  | none => pure (none, procs)
  | some i => do
      let pagetable ← uvmcreate (port ram)
      let found : Procs := { procs with
        proc := Function.update procs.proc i
          ⟨.used, procs.nextpid, (procs.proc i).sz, pagetable.getD 0⟩
        nextpid := procs.nextpid + 1 }
      if pagetable = none then do
        let procs ← freeproc ram found i
        pure (none, procs)
      else pure (some i, found)

/-- Create a new process, copying the parent. -/
def fork (procs : Procs) (me : Slot) : Code Index Word (Int × Procs) := do
  let found ← allocproc ram procs
  found.1.elim (pure (-1, found.2)) fun np => do
    let p := found.2.proc me
    let copied ← uvmcopy (port ram) p.pagetable (found.2.proc np).pagetable p.sz
    if copied < 0 then do
      let procs ← freeproc ram found.2 np
      pure (-1, procs)
    else
      pure ((found.2.proc np).pid, { found.2 with
        proc := Function.update found.2.proc np { found.2.proc np with sz := p.sz, state := .runnable }
        parent := Function.update found.2.parent np (some me) })

/-- Load the program in `file` in place of the one that runs. There is no file where `namei` finds
none. -/
def exec (file : Option (List UInt8)) (argv : List (List UInt8)) (p : Proc) :
    Code Index Word (Int × Proc) :=
  file.elim (pure (-1, p)) fun file => do
    let image ← buildImage ram file argv
    image.elim (pure (-1, p)) fun image => do
      uvmfree (port ram) p.pagetable p.sz
      pure (image.argc, { p with pagetable := image.pagetable, sz := image.sz })

end Code

/-! ### What the calls do -/

section Spec

variable {ram : Ram} {fails : Bool → Prop} {kept : Nat → Prop} {own : Owned Index Word}
  {view : View Index Word Flags} {p : Proc} {procs : Procs}

theorem uint_natCast {n : Nat} (hn : n < 4294967296) : uint n = n := by
  unfold uint
  omega

theorem uint_lt (n : Int) : uint n < 4294967296 := by
  unfold uint
  omega

theorem sz_lt {sz : Nat} (h : pages sz ≤ 65536) : sz < 4294967296 := by
  unfold pages pgsize at h
  omega

theorem growproc_spec (h : Space arch ram kept (fun _ => 0) p.pagetable own view)
    (hbelow : view.Below (pages p.sz)) (n : Int) :
    (growproc ram p n).wp (rule ram fails) own fun result own' =>
      (result.1 = 0 ∧ result.2.pagetable = p.pagetable ∧
        Process ram result.2.pagetable own' result.2.sz) ∨
      (result.1 = -1 ∧ result.2 = p ∧ Space arch ram kept (fun _ => 0) p.pagetable own' view) := by
  have hle := pages_le h hbelow
  have hsz : uint p.sz = p.sz := uint_natCast (sz_lt hle)
  have hlimit : pages p.sz + 65536 < arch.limit := by
    change pages p.sz + 65536 < 134217728
    omega
  unfold growproc
  rw [hsz]
  dsimp only
  generalize hnewsz : uint (p.sz + n) = newsz
  have hlt : newsz < 4294967296 := hnewsz ▸ uint_lt _
  by_cases hpos : n > 0
  · rw [if_pos hpos, Program.wp_bind]
    apply Program.wp_mono rule_monotone _ (@uvmalloc_spec _ _ _ _ ram (port ram) _ _ _ _ _ _ _ _ userFlags h
      (fun v hlow _ => hbelow.eq_none hlow) (Or.inr hlimit) fun _ _ _ _ => rfl)
    intro sz1 own' hresult
    rcases hresult with ⟨hless, rfl, rfl⟩ | ⟨hge, rfl, view', hspace, hfills⟩ | ⟨-, rfl, -, hspace⟩
    · rw [hsz, if_neg (by omega)]
      exact Or.inl ⟨rfl, rfl, view, h.forget, hbelow⟩
    · rw [uint_natCast hlt]
      by_cases hzero : sz1 = 0
      · rw [if_pos hzero]
        have hsame : view' = view := by
          funext v
          apply (hfills v).2
          rw [hzero]
          exact fun hin => Nat.not_lt_zero _ (lt_pages_iff.mp hin.2)
        rw [hsame] at hspace
        exact Or.inr ⟨rfl, rfl, hspace⟩
      · rw [if_neg hzero]
        exact Or.inl ⟨rfl, rfl, view', hspace.forget, hfills.below hbelow (pages_mono hge)⟩
    · exact Or.inr ⟨rfl, rfl, hspace⟩
  rw [if_neg hpos]
  by_cases hneg : n < 0
  · rw [if_pos hneg, Program.wp_bind]
    apply Program.wp_mono rule_monotone _ (@uvmdealloc_spec _ _ _ _ ram (port ram) _ _ _ _ _ _ h p.sz newsz
      (Nat.le_of_lt (Nat.lt_of_le_of_lt (Nat.le_add_right _ _) hlimit)) (fun _ _ _ => rfl)
      fun _ v _ hv => (hbelow v).mpr hv)
    intro sz1 own' hresult
    obtain ⟨rfl, hspace⟩ := hresult
    refine Or.inl ⟨rfl, rfl, _, hspace.forget, ?_⟩
    have hmin : uint (min p.sz newsz : Nat) = min p.sz newsz := uint_natCast (by omega)
    have hpages : pages (min p.sz newsz) = min (pages newsz) (pages p.sz) := by
      unfold pages pgsize
      omega
    rw [hmin, hpages]
    exact hbelow.drop
  · rw [if_neg hneg]
    exact Or.inl ⟨rfl, rfl, view, h.forget, hbelow⟩

theorem exec_spec (h : Process ram p.pagetable own p.sz) (file : Option (List UInt8))
    (argv : List (List UInt8)) :
    (exec ram file argv p).wp (rule ram fails) own fun result own' =>
      (0 ≤ result.1 ∧ Process ram result.2.pagetable own' result.2.sz) ∨
      (result.1 = -1 ∧ result.2 = p ∧ own' = own) := by
  unfold exec
  cases file with
  | none => exact Or.inr ⟨rfl, rfl, rfl⟩
  | some file =>
      have hempty : Heap.empty.Disjoint own := Heap.Disjoint.empty
      have hbuild := Program.wp_frame rule_monotone rule_local hempty
        (@buildImage_spec ram fails file argv)
      rw [Heap.empty_union] at hbuild
      rw [Option.elim_some, Program.wp_bind]
      apply Program.wp_mono rule_monotone _ hbuild
      intro image own' hframe
      obtain ⟨built, rfl, hdisjoint, hresult⟩ := hframe
      rcases hresult with ⟨rfl, rfl⟩ | ⟨new, rfl, hnew⟩
      · exact Or.inr ⟨rfl, rfl, Heap.empty_union⟩
      · rw [Option.elim_some, Program.wp_bind, hdisjoint.union_comm]
        apply Program.wp_mono rule_monotone _
          (Program.wp_frame rule_monotone rule_local hdisjoint.symm (free_spec h))
        intro _ own'' hfreed
        obtain ⟨_, rfl, -, rfl⟩ := hfreed
        rw [Heap.empty_union]
        exact Or.inl ⟨Int.natCast_nonneg _, hnew⟩

/-- The same slots of the process table are in use, and their processes are the same. -/
def SameSlots (procs procs' : Procs) : Prop :=
  ∀ i, ((procs'.proc i).state = .unused ↔ (procs.proc i).state = .unused) ∧
    ((procs.proc i).state ≠ .unused → procs'.proc i = procs.proc i)

theorem SameSlots.update {procs' : Procs} {np : Slot} (hunused : (procs.proc np).state = .unused)
    {proc : Proc} (hproc : procs'.proc = Function.update procs.proc np proc) :
    SameSlots procs
      { procs' with
        proc := Function.update procs'.proc np ⟨.unused, 0, 0, 0⟩
        parent := Function.update procs'.parent np none } := by
  intro i
  dsimp only
  rw [hproc, Function.update_idem]
  by_cases hi : i = np
  · subst hi
    rw [Function.update_self]
    exact ⟨iff_of_true rfl hunused, fun hused => absurd hunused hused⟩
  · rw [Function.update_of_ne hi]
    exact ⟨Iff.rfl, fun _ => rfl⟩

theorem freeproc_spec {np : Slot} (h : (procs.proc np).pagetable ≠ 0 →
      Process ram (procs.proc np).pagetable own (procs.proc np).sz)
    (hnone : (procs.proc np).pagetable = 0 → own = Heap.empty) :
    (freeproc ram procs np).wp (rule ram fails) own fun procs' own' => own' = Heap.empty ∧
      procs' = { procs with
        proc := Function.update procs.proc np ⟨.unused, 0, 0, 0⟩
        parent := Function.update procs.parent np none } := by
  rw [freeproc, Program.wp_bind, Program.wp_when]
  refine ⟨fun hne => ?_, fun hzero => ⟨hnone (not_not.mp hzero), rfl⟩⟩
  apply Program.wp_mono rule_monotone _ (free_spec (h hne))
  exact fun _ _ hempty => ⟨hempty, rfl⟩

theorem allocproc_spec :
    (allocproc ram procs).wp (rule ram fails) own fun found own' =>
      (found.1 = none ∧ own' = own ∧ SameSlots procs found.2) ∨
      ∃ np pagetable, found.1 = some np ∧ (procs.proc np).state = .unused ∧ ram.Has pagetable ∧
        own pagetable = none ∧ own' = own.set pagetable (fun _ => 0) ∧
        found.2.proc = Function.update procs.proc np
          ⟨.used, procs.nextpid, (procs.proc np).sz, pagetable⟩ := by
  unfold allocproc
  cases hfind : (List.finRange 64).find? fun i => (procs.proc i).state = .unused with
  | none => exact Or.inl ⟨rfl, rfl, fun i => ⟨Iff.rfl, fun _ => rfl⟩⟩
  | some np =>
      have hunused : (procs.proc np).state = .unused := by
        simpa using List.find?_some hfind
      dsimp only
      rw [Program.wp_bind, uvmcreate, Program.wp_bind, wp_kalloc]
      refine ⟨fun _ => ?_, fun pagetable words hram hnone => ?_⟩
      · rw [Option.elim_none, Program.wp_pure, if_pos rfl, Program.wp_bind]
        have hempty : Heap.empty.Disjoint own := Heap.Disjoint.empty
        have hfree := @freeproc_spec ram fails Heap.empty { procs with
            proc := Function.update procs.proc np ⟨.used, procs.nextpid, (procs.proc np).sz, 0⟩
            nextpid := procs.nextpid + 1 } np
          (fun hne => absurd (by dsimp only; rw [Function.update_self]) hne) fun _ => rfl
        have hframe := Program.wp_frame rule_monotone rule_local hempty hfree
        rw [Heap.empty_union] at hframe
        apply Program.wp_mono rule_monotone _ hframe
        intro procs' own' hfreed
        obtain ⟨_, rfl, -, rfl, rfl⟩ := hfreed
        exact Or.inl ⟨rfl, Heap.empty_union, SameSlots.update hunused rfl⟩
      · rw [Option.elim_some, Program.wp_bind, wp_fill]
        refine ⟨words, Heap.set_self, ?_⟩
        rw [Heap.set_set, Program.wp_pure, if_neg (Option.some_ne_none _)]
        exact Or.inr ⟨np, pagetable, rfl, hunused, hram, hnone, rfl, rfl⟩

theorem fork_spec {me : Slot} (h : Space arch ram kept (fun _ => 0) (procs.proc me).pagetable own view)
    (hbelow : view.Below (pages (procs.proc me).sz)) (hme : (procs.proc me).state ≠ .unused)
    (hunused : ∀ i, (procs.proc i).state = .unused → (procs.proc i).sz = 0) :
    (fork ram procs me).wp (rule ram fails) own fun result own' =>
      (result.1 = -1 ∧ own' = own ∧ SameSlots procs result.2) ∨
      ∃ np child, (procs.proc np).state = .unused ∧ result.1 = ((result.2.proc np).pid : Int) ∧
        own' = own.union child ∧ own.Disjoint child ∧
        Process ram (result.2.proc np).pagetable child (result.2.proc np).sz ∧
        (result.2.proc np).sz = (procs.proc me).sz ∧
        ∀ i ≠ np, result.2.proc i = procs.proc i := by
  have hle := pages_le h hbelow
  have hlimit : pages (procs.proc me).sz ≤ arch.limit := by
    change pages (procs.proc me).sz ≤ 134217728
    omega
  rw [fork, Program.wp_bind]
  apply Program.wp_mono rule_monotone _ allocproc_spec
  intro found own' hfound
  rcases hfound with ⟨hnone, rfl, hsame⟩ | ⟨np, pagetable, hsome, hnp, hram, hfresh, rfl, hproc⟩
  · rw [hnone]
    exact Or.inl ⟨rfl, rfl, hsame⟩
  have hne : me ≠ np := by
    rintro rfl
    exact hme hnp
  have hmine : found.2.proc me = procs.proc me := by rw [hproc, Function.update_of_ne hne]
  have hnew : found.2.proc np = ⟨.used, procs.nextpid, 0, pagetable⟩ := by
    rw [hproc, Function.update_self, hunused np hnp]
  rw [hsome, Option.elim_some, Program.wp_bind, hmine, hnew, Heap.set_eq_union hfresh]
  apply Program.wp_mono rule_monotone _ (@uvmcopy_spec _ _ _ _ ram (port ram) _ _ _ _ _ _ _ _ _ _ _ h (Space.create hram)
    (Heap.disjoint_single hfresh) hlimit (fun _ _ => rfl) (fun _ _ => rfl) fun _ v hv => (hbelow v).mpr hv)
  intro copied own' hcopied
  obtain ⟨child, view', rfl, hdisjoint, hspace, hcase⟩ := hcopied
  rcases hcase with ⟨rfl, hcopies⟩ | ⟨rfl, -, rfl⟩
  · rw [if_neg (by decide)]
    have hbelow' : view'.Below (pages (procs.proc me).sz) := by
      intro v
      by_cases hv : v < pages (procs.proc me).sz
      · exact iff_of_true (fun hhole => (hbelow v).mpr hv ((hcopies.eq_none_iff hv).mp hhole)) hv
      · exact iff_of_false (not_not_intro ((hcopies v).2 (Nat.not_lt.mp hv))) hv
    refine Or.inr ⟨np, child, hnp, ?_, rfl, hdisjoint, ?_, ?_, fun i hi => ?_⟩
    · dsimp only
      rw [Function.update_self]
    · dsimp only
      rw [Function.update_self]
      exact ⟨view', hspace, hbelow'⟩
    · dsimp only
      rw [Function.update_self]
    · dsimp only
      rw [Function.update_of_ne hi, hproc, Function.update_of_ne hi]
  · have hprocess : Process ram (found.2.proc np).pagetable child (found.2.proc np).sz := by
      rw [hnew]
      exact ⟨_, hspace, fun v => iff_of_false (not_not_intro rfl) fun hlt =>
        Nat.not_lt_zero _ (lt_pages_iff.mp hlt)⟩
    have hpagetable : (found.2.proc np).pagetable ≠ 0 := by
      rw [hnew]
      exact Nat.ne_of_gt (Nat.lt_of_lt_of_le ram.first_pos hram.1)
    have hfree := Program.wp_frame rule_monotone rule_local hdisjoint.symm
      (@freeproc_spec ram fails _ found.2 _ (fun _ => hprocess)
        fun hzero => absurd hzero hpagetable)
    rw [if_pos (by decide), Program.wp_bind, hdisjoint.union_comm]
    apply Program.wp_mono rule_monotone _ hfree
    intro procs' own' hfreed
    obtain ⟨_, rfl, -, rfl, rfl⟩ := hfreed
    exact Or.inl ⟨rfl, Heap.empty_union, SameSlots.update hnp hproc⟩

/-! ### Calls that fail -/

variable {ι : Type} {pool : Nat → Prop} {others junk : Nat → Index → Word} {who : ι}
  {memory : Memory Index Word}

theorem ends_of_wp {α : Type} {program : Code Index Word α} {Q : α → Owned Index Word → Prop}
    (howns : Owns ram pool others memory own)
    (hwp : program.wp (rule ram fun _ => True) own Q) :
    program.Ends (access junk) who memory fun value memory' =>
      ∃ own', Q value own' ∧ Owns ram pool others memory' own' :=
  howns.ends (Program.meets_of_forall spares_of_fails program memory) hwp

/-- **A call that fails leaks no memory.** Whatever the file and the arguments, and wherever memory runs
out, the process keeps its size, its pages and what is in them, no slot of the process table stays in
use, and the same pages are free as before, but for page tables that a failed `growproc` leaves in the
page table of the process. -/
theorem failed_call_leaks_nothing {me : Slot} (howns : Owns ram pool others memory own)
    (h : Space arch ram kept (fun _ => 0) (procs.proc me).pagetable own view)
    (hbelow : view.Below (pages (procs.proc me).sz)) (hme : (procs.proc me).state ≠ .unused)
    (hunused : ∀ i, (procs.proc i).state = .unused → (procs.proc i).sz = 0) :
    (∀ n, (growproc ram (procs.proc me) n).Ends (access junk) who memory fun result memory' =>
      result.1 < 0 → result.2 = procs.proc me ∧ ∃ tree own', Owns ram pool others memory' own' ∧
        Layout arch ram (fun _ => False) (fun _ => 0) tree (procs.proc me).pagetable own' view ∧
        FreeButTables tree memory memory') ∧
    ((fork ram procs me).Ends (access junk) who memory fun result memory' => result.1 < 0 →
      SameSlots procs result.2 ∧ Owns ram pool others memory' own ∧
        ∀ p, p ∈ memory'.freelist ↔ p ∈ memory.freelist) ∧
    ∀ file argv, (exec ram file argv (procs.proc me)).Ends (access junk) who memory
      fun result memory' => result.1 < 0 →
        result.2 = procs.proc me ∧ Owns ram pool others memory' own ∧
          ∀ p, p ∈ memory'.freelist ↔ p ∈ memory.freelist := by
  have hsame : ∀ {memory'}, Owns ram pool others memory' own →
      ∀ p, p ∈ memory'.freelist ↔ p ∈ memory.freelist := by
    intro memory' howns' p
    rw [howns'.mem_freelist, howns.mem_freelist]
  refine ⟨fun n => ?_, ?_, fun file argv => ?_⟩
  · obtain ⟨tree, htree⟩ := h
    apply (ends_of_wp howns (growproc_spec htree.keep hbelow n)).mono
    intro result memory' hresult hfailed
    obtain ⟨own', hcase, howns'⟩ := hresult
    rcases hcase with ⟨hzero, -⟩ | ⟨-, hproc, tree', htree'⟩
    · rw [hzero] at hfailed
      exact absurd hfailed (Int.lt_irrefl 0)
    · exact ⟨hproc, tree', own', howns', htree'.forget, htree.freeButTables htree' howns howns'⟩
  · apply (ends_of_wp howns (fork_spec h hbelow hme hunused)).mono
    intro result memory' hresult hfailed
    obtain ⟨own', hcase, howns'⟩ := hresult
    rcases hcase with ⟨-, rfl, hslots⟩ | ⟨np, child, -, hpid, -⟩
    · exact ⟨hslots, howns', hsame howns'⟩
    · rw [hpid] at hfailed
      exact absurd hfailed (Int.not_lt.mpr (Int.natCast_nonneg _))
  · apply (ends_of_wp howns (exec_spec ⟨view, h.forget, hbelow⟩ file argv)).mono
    intro result memory' hresult hfailed
    obtain ⟨own', hcase, howns'⟩ := hresult
    rcases hcase with ⟨hpos, -⟩ | ⟨-, hproc, rfl⟩
    · exact absurd hfailed (Int.not_lt.mpr hpos)
    · exact ⟨hproc, howns', hsame howns'⟩

/-! An empty page table, and three free pages. -/

def smallMemory : Memory Index Word := ⟨fun _ _ => 0, [3, 4, 5]⟩

def first : Slot := ⟨0, Nat.succ_pos 63⟩

/-- One process, of size 0. -/
def oneProc : Procs where
  proc i := if i.val = 0 then ⟨.running, 1, 0, 2⟩ else ⟨.unused, 0, 0, 0⟩
  parent _ := none
  nextpid := 2

theorem failed_call_leaks_nothing_smallMemory :
    (growproc smallRam (oneProc.proc first) 8192).Ends (access fun _ _ => 1) () smallMemory
      (fun result memory' => result.1 < 0 → result.2 = oneProc.proc first ∧
        ∃ tree : arch.Tree, FreeButTables tree smallMemory memory') ∧
    ((growproc smallRam (oneProc.proc first) 8192).exec (access fun _ _ => 1) () smallMemory).map
      (fun ends => (ends.1.1, ends.2.freelist)) = some (-1, [3]) := by
  have howns : Owns smallRam (fun p => p = 2 ∨ p ∈ smallMemory.freelist) smallMemory.words smallMemory
      (Heap.single 2 fun _ => 0) := by
    apply Owns.single
    · decide
    · decide
    · intro p hp
      change 2 ≤ p ∧ p < 6
      simp only [smallMemory, List.mem_cons, List.not_mem_nil, or_false] at hp
      omega
  have hspace : Space arch smallRam (fun _ => False) (fun _ => 0) (oneProc.proc first).pagetable
      (Heap.single 2 fun _ => 0) (fun _ => none) :=
    Space.create ⟨Nat.le_refl 2, Nat.lt_add_of_pos_right (Nat.succ_pos 3)⟩
  have hbelow : View.Below (fun _ => none : View Index Word Flags) (pages (oneProc.proc first).sz) :=
    fun v => iff_of_false (not_not_intro rfl) fun hlt => Nat.not_lt_zero _ (lt_pages_iff.mp hlt)
  refine ⟨((@failed_call_leaks_nothing smallRam _ _ _ oneProc Unit _ _ (fun _ _ => 1) () _ first howns hspace hbelow (by decide) (by decide)).1
    8192).mono fun result memory' hresult hfailed => ?_, by decide +kernel⟩
  obtain ⟨hproc, tree, own', -, -, hfree⟩ := hresult hfailed
  exact ⟨hproc, tree, hfree⟩

end Spec

end Xv6.Vm.Arm64
