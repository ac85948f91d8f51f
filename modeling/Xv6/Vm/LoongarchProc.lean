import Xv6.Vm.LoongarchImage
import Xv6.Vm.Lookup
import Xv6.Vm.Processes

/-!
# Processes and their memory on loongarch

What `sbrk`, `fork`, `exec`, `wait` and `exit` do to the memory of processes and to the process table. Along every run in
which the programs fit, each process has exactly the pages below its size, and the one of its trapframe.
-/

namespace Xv6.Vm.Loongarch

open Arm64 (Word Index pte2pa)

/-! ### The code -/

/-- The registers in a trapframe that `exec` sets. -/
structure Registers where
  era : Nat
  sp : Nat
  a1 : Nat

/-- What of `struct proc` is about memory, what its parent is told, and where it runs. -/
structure Proc where
  pid : Nat
  sz : Nat
  pagetable : Nat
  trapframe : Nat
  xstate : Int
  registers : Registers

/-- A slot of the process table, of `NPROC`. -/
abbrev Slot := Fin 64

/-- A number as an `uint`. -/
def uint (n : Int) : Nat := (n % 4294967296).toNat

section Code

variable (ram : Ram)

/-- Grow or shrink user memory by `n` bytes. Return 0 on success, -1 on failure. -/
def growproc (p : Proc) (n : Int) : Code Index Word (Int × Proc) :=
  let sz := uint p.sz
  if n > 0 then
    if uint (sz + n) ≥ maxva - pgsize then pure (-1, p)
    else do
      let sz1 ← uvmalloc (port ram) p.pagetable sz (uint (sz + n)) userFlags
      if uint sz1 = 0 then pure (-1, p) else pure (0, { p with sz := uint sz1 })
  else if n < 0 then do
    let sz1 ← uvmdealloc (port ram) p.pagetable sz (uint (sz + n))
    pure (0, { p with sz := uint sz1 })
  else pure (0, { p with sz })

def sysSbrk (p : Proc) (n : Int) : Code Index Word (Int × Proc) := do
  let addr := p.sz
  let grown ← growproc ram p n
  if grown.1 < 0 then pure (-1, grown.2) else pure (addr, grown.2)

/-- Load the program in `file` in place of the one that runs. There is no file where `namei` finds
none. -/
def exec (file : Option (List UInt8)) (argv : List (List UInt8)) (p : Proc) :
    Code Index Word (Int × Proc) :=
  file.elim (pure (-1, p)) fun file => do
    let image ← buildImage ram file argv p.trapframe
    image.elim (pure (-1, p)) fun image => do
      procFreepagetable ram p.pagetable p.sz
      pure (image.argc, { p with
        pagetable := image.pagetable
        sz := image.sz
        registers := ⟨image.entry, image.sp, image.sp⟩ })

def freeproc (i : Slot) (trapframe pagetable sz : Nat) : Kernel Index Word Proc Slot Unit := do
  lift (Program.when (trapframe ≠ 0) (kfree ram trapframe))
  lift (Program.when (pagetable ≠ 0) (procFreepagetable ram pagetable sz))
  table (.orphan i)
  table (.release i)

def findUnused : List Slot → Kernel Index Word Proc Slot (Option Slot)
  | [] => pure none
  | i :: rest => do
      let claimed ← claim i
      if claimed then pure (some i) else findUnused rest

/-- If there is an UNUSED proc, initialize state required to run in the kernel. If there are no free
procs, or a memory allocation fails, return 0. -/
def allocproc : Kernel Index Word Proc Slot (Option (Slot × Proc)) := do
  let found ← findUnused (List.finRange 64)
  found.elim (pure none) fun i => do
    let pid ← allocpid
    let trapframe ← lift (kalloc false)
    trapframe.elim (do
      freeproc ram i 0 0 0
      pure none) fun trapframe => do
      let pagetable ← lift (procPagetable ram trapframe)
      pagetable.elim (do
        freeproc ram i trapframe 0 0
        pure none) fun pagetable =>
          pure (some (i, ⟨pid, 0, pagetable, trapframe, 0, ⟨0, 0, 0⟩⟩))

/-- Create a new process, copying the parent. -/
def fork (p : Proc) : Kernel Index Word Proc Slot Int := do
  let made ← allocproc ram
  made.elim (pure (-1)) fun made => do
    let np := made.2
    let copied ← lift (uvmcopy (port ram) p.pagetable np.pagetable p.sz)
    if copied < 0 then do
      freeproc ram made.1 np.trapframe np.pagetable np.sz
      pure (-1)
    else do
      table (.adopt made.1)
      table (.ready made.1 { np with sz := p.sz, registers := p.registers })
      pure np.pid

/-- The bytes of an `int`. -/
def intBytes (n : Int) : List UInt8 := (List.range 4).map fun k => UInt8.ofNat (uint n / 256 ^ k)

/-- A scan of `wait` through the table for exited children. -/
def waitFrom (p : Proc) (addr : Nat) : List Slot → Kernel Index Word Proc Slot (Option Int)
  | [] => pure none
  | i :: rest => do
      let found ← lockZombie i
      found.elim (waitFrom p addr rest) fun np => do
        let copied ← lift (if addr ≠ 0 then archCopyout p.pagetable addr (intBytes np.xstate) else pure 0)
        if copied < 0 then do
          table (.unlockZombie i np)
          pure (some (-1))
        else do
          freeproc ram i np.trapframe np.pagetable np.sz
          pure (some np.pid)

def exit (me : Slot) (p : Proc) (status : Int) : Kernel Index Word Proc Slot Unit :=
  table (.exit me { p with xstate := status })

/-! What a process may do. -/

inductive Call where
  /-- The scheduler runs the process. -/
  | schedule
  | fork
  | exec (file : Option (List UInt8)) (argv : List (List UInt8))
  | sbrk (n : Int)
  /-- A system call copies bytes to the process. -/
  | copyout (dstva : Nat) (src : List UInt8)
  /-- A scan of `wait`: where it finds no zombie, the process sleeps and tries again, or gives up. -/
  | wait (addr : Nat)
  | exit (status : Int)

/-- The calls, of a process and where there is none. To exit is a panic for init, which is left out. -/
def menu (init me : Slot) : Call → Option Proc → Option (Kernel Index Word Proc Slot (Option Proc))
  | .schedule, none => some do
      let p ← schedule me
      pure (some p)
  | .fork, some p => some do
      let _ ← fork ram p
      pure (some p)
  | .exec file argv, some p => some do
      let result ← lift (exec ram file argv p)
      pure (some result.2)
  | .sbrk n, some p => some do
      let result ← lift (sysSbrk ram p n)
      pure (some result.2)
  | .copyout dstva src, some p => some do
      let _ ← lift (archCopyout p.pagetable dstva src)
      pure (some p)
  | .wait addr, some p => some do
      let _ ← waitFrom ram p addr (List.finRange 64)
      pure (some p)
  | .exit status, some p =>
      if me = init then none
      else some do
        exit me p status
        pure none
  | _, _ => none

/-- The file of `exec` fits. -/
def Call.Fits : Call → Prop
  | .exec (some file) _ => fits file = true
  | _ => True

end Code

/-! ### The memory of a process -/

section Spec

variable {ram : Ram} {fails : Bool → Prop} {own : Owned Index Word} {view : View Index Word Flags} {p : Proc}

theorem uint_natCast {n : Nat} (hn : n < 4294967296) : uint n = n := by
  unfold uint
  omega

theorem uint_sz (hsz : p.sz ≤ trapframeVa) : uint p.sz = p.sz := by
  apply uint_natCast
  have hle : trapframeVa < 4294967296 := by decide
  omega

theorem growproc_spec (h : UserSpace ram p.trapframe p.pagetable p.sz own view) (n : Int) :
    (growproc ram p n).wp (rule ram fails) own fun result own' => ∃ view' sz,
      result.2 = { p with sz } ∧ UserSpace ram p.trapframe p.pagetable sz own' view' ∧ (result.1 < 0 → sz = p.sz ∧ view' = view) := by
  have htop : trapframeVa < 4294967296 := by decide
  have hlimit : maxva - pgsize = trapframeVa := by decide
  unfold growproc
  rw [uint_sz h.le, hlimit]
  dsimp only
  generalize uint (p.sz + n) = newsz
  by_cases hpos : n > 0
  · rw [if_pos hpos]
    by_cases hlarge : newsz ≥ trapframeVa
    · rw [if_pos hlarge]
      exact ⟨view, p.sz, rfl, h, fun _ => ⟨rfl, rfl⟩⟩
    rw [if_neg hlarge, Program.wp_bind]
    apply Program.wp_mono rule_monotone _ (h.grow_spec (Nat.le_of_lt (Nat.not_le.mp hlarge)))
    intro sz1 own' hgrown
    rcases hgrown with ⟨rfl, -, hspace⟩ | ⟨hne, hsz, view', hspace, -⟩
    · exact ⟨view, p.sz, rfl, hspace, fun _ => ⟨rfl, rfl⟩⟩
    · have hsame : uint sz1 = sz1 := uint_natCast (Nat.lt_of_le_of_lt hspace.le htop)
      rw [hsame, if_neg hne]
      exact ⟨view', sz1, rfl, hspace, fun hfailed => absurd hfailed (Int.lt_irrefl 0)⟩
  rw [if_neg hpos]
  by_cases hneg : n < 0
  · rw [if_pos hneg, Program.wp_bind]
    apply Program.wp_mono rule_monotone _ (h.shrink_spec newsz)
    intro sz1 own' hshrunk
    obtain ⟨rfl, hspace⟩ := hshrunk
    have hsame : uint (min p.sz newsz : Nat) = min p.sz newsz := uint_natCast (Nat.lt_of_le_of_lt hspace.le htop)
    rw [hsame]
    exact ⟨_, _, rfl, hspace, fun hfailed => absurd hfailed (Int.lt_irrefl 0)⟩
  · rw [if_neg hneg]
    exact ⟨view, p.sz, rfl, h, fun _ => ⟨rfl, rfl⟩⟩

theorem sysSbrk_spec (h : UserSpace ram p.trapframe p.pagetable p.sz own view) (n : Int) :
    (sysSbrk ram p n).wp (rule ram fails) own fun result own' => ∃ view' sz,
      result.2 = { p with sz } ∧ UserSpace ram p.trapframe p.pagetable sz own' view' := by
  rw [sysSbrk, Program.wp_bind]
  apply Program.wp_mono rule_monotone _ (growproc_spec h n)
  intro grown own' hgrown
  obtain ⟨view', sz, hproc, hspace, -⟩ := hgrown
  by_cases hfailed : grown.1 < 0
  · rw [if_pos hfailed]
    exact ⟨view', sz, hproc, hspace⟩
  · rw [if_neg hfailed]
    exact ⟨view', sz, hproc, hspace⟩

theorem exec_spec (h : UserSpace ram p.trapframe p.pagetable p.sz own view) {file : Option (List UInt8)}
    (hfits : ∀ bytes ∈ file, fits bytes = true) (argv : List (List UInt8)) :
    (exec ram file argv p).wp (rule ram fails) own fun result own' =>
      (result.1 = -1 ∧ result.2 = p ∧ own' = own) ∨
      (0 ≤ result.1 ∧ result.2.trapframe = p.trapframe ∧
        ∃ view', UserSpace ram p.trapframe result.2.pagetable result.2.sz own' view') := by
  unfold exec
  cases file with
  | none => exact Or.inl ⟨rfl, rfl, rfl⟩
  | some file =>
      have hempty : Heap.empty.Disjoint own := Heap.Disjoint.empty
      have hbuild := Program.wp_frame rule_monotone rule_local hempty
        (@buildImage_spec ram fails file (hfits file rfl) argv p.trapframe)
      rw [Heap.empty_union] at hbuild
      rw [Option.elim_some, Program.wp_bind]
      apply Program.wp_mono rule_monotone _ hbuild
      intro image own' hframe
      obtain ⟨built, rfl, hdisjoint, hresult⟩ := hframe
      rcases hresult with ⟨rfl, rfl⟩ | ⟨new, view', rfl, hspace⟩
      · exact Or.inl ⟨rfl, rfl, Heap.empty_union⟩
      · rw [Option.elim_some, Program.wp_bind, hdisjoint.union_comm]
        apply Program.wp_mono rule_monotone _
          (Program.wp_frame rule_monotone rule_local hdisjoint.symm h.free_spec)
        intro _ own'' hfreed
        obtain ⟨_, rfl, -, rfl⟩ := hfreed
        rw [Heap.empty_union]
        exact Or.inr ⟨Int.natCast_nonneg _, rfl, view', hspace⟩

theorem copyout_spec (h : UserSpace ram p.trapframe p.pagetable p.sz own view) (dstva : Nat) (src : List UInt8) :
    (archCopyout p.pagetable dstva src).wp (rule ram fails) own fun _ own' => ∃ view',
      UserSpace ram p.trapframe p.pagetable p.sz own' view' := by
  apply Program.wp_mono rule_monotone _ h.copyoutFrom_spec
  intro _ own' hcopied
  obtain ⟨view', hspace, -⟩ := hcopied
  exact ⟨view', hspace⟩

theorem exec_space (h : UserSpace ram p.trapframe p.pagetable p.sz own view) {file : Option (List UInt8)}
    (hfits : ∀ bytes ∈ file, fits bytes = true) (argv : List (List UInt8)) :
    (exec ram file argv p).wp (rule ram fails) own fun result own' => result.2.trapframe = p.trapframe ∧
      ∃ view', UserSpace ram p.trapframe result.2.pagetable result.2.sz own' view' := by
  apply Program.wp_mono rule_monotone _ (exec_spec h hfits argv)
  intro result own' hcase
  rcases hcase with ⟨-, hsame, rfl⟩ | ⟨-, hspace⟩
  · rw [hsame]
    exact ⟨rfl, view, h⟩
  · exact hspace

/-- **The memory of a process**, with the page of its trapframe. -/
structure Holds (ram : Ram) (p : Proc) (own : Owned Index Word) : Prop where
  trapframe : ram.Has p.trapframe
  memory : ∃ user view words, own = user.union (Heap.single p.trapframe words) ∧
    user.Disjoint (Heap.single p.trapframe words) ∧ UserSpace ram p.trapframe p.pagetable p.sz user view

theorem page_ne_zero {i : Nat} (hram : ram.Has i) : i ≠ 0 :=
  Nat.ne_of_gt (Nat.lt_of_lt_of_le ram.first_pos hram.1)

theorem UserSpace.root_ne_zero (h : UserSpace ram p.trapframe p.pagetable p.sz own view) : p.pagetable ≠ 0 := by
  obtain ⟨tree, htree⟩ := h.space
  exact page_ne_zero (htree.ram_of_node htree.root)

/-! ### The calls -/

variable {rest : Owned Index Word} {slots : Set Slot} {i : Slot}

theorem wp_user {α β : Type} {code : Code Index Word α} {f : α → Kernel Index Word Proc Slot β}
    {Q : α → Owned Index Word → Prop} {post : β → Holding Index Word Slot → Prop} (h : Holds ram p own)
    (hdisjoint : own.Disjoint rest)
    (hcode : ∀ {user view}, UserSpace ram p.trapframe p.pagetable p.sz user view →
      code.wp (rule ram fun _ => True) user Q)
    (hpost : ∀ value user words, Q value user → user.Disjoint (Heap.single p.trapframe words) →
      (user.union (Heap.single p.trapframe words)).Disjoint rest →
      (f value).wp (procRule ram (Holds ram)) ⟨(user.union (Heap.single p.trapframe words)).union rest, slots⟩ post) :
    (lift code >>= f).wp (procRule ram (Holds ram)) ⟨own.union rest, slots⟩ post := by
  obtain ⟨-, user, view, words, rfl, hsingle, hspace⟩ := h
  rw [Heap.union_assoc]
  apply wp_lift_frame (hsingle.assoc hdisjoint) (hcode hspace)
  intro value user' hvalue hnext
  obtain ⟨hsingle', hdisjoint'⟩ := hnext.of_assoc hdisjoint.of_union_left.2
  rw [← Heap.union_assoc]
  exact hpost value user' words hvalue hsingle' hdisjoint'

theorem findUnused_spec {post : Option Slot → Holding Index Word Slot → Prop} {holding : Holding Index Word Slot}
    (hnone : post none holding)
    (hsome : ∀ i ∉ holding.slots, post (some i) { holding with slots := insert i holding.slots }) (slots : List Slot) :
    (findUnused slots).wp (procRule ram (Holds ram)) holding post := by
  induction slots with
  | nil => exact hnone
  | cons i rest ih => exact ⟨ih, hsome i⟩

theorem kfree_single {t : Nat} {words : Index → Word} (hram : ram.Has t) :
    (kfree ram t).wp (rule ram fun _ => True) (Heap.single t words) fun _ own' => own' = Heap.empty := by
  rw [wp_kfree hram]
  exact ⟨⟨words, Heap.set_self⟩, Heap.erase_set rfl⟩

theorem freeproc_spec {post : Unit → Holding Index Word Slot → Prop} (h : Holds ram p own) (hdisjoint : own.Disjoint rest)
    (hmem : i ∈ slots) (hpost : post () ⟨rest, slots \ {i}⟩) :
    (freeproc ram i p.trapframe p.pagetable p.sz).wp (procRule ram (Holds ram)) ⟨own.union rest, slots⟩ post := by
  obtain ⟨hram, user, view, words, rfl, hsingle, hspace⟩ := h
  obtain ⟨huser, hpage⟩ := hdisjoint.of_union_left
  rw [freeproc, Program.when, Program.when, if_pos (page_ne_zero hram), if_pos hspace.root_ne_zero,
    hsingle.union_comm, Heap.union_assoc]
  rw [hsingle.union_comm] at hdisjoint
  apply wp_lift_frame (hsingle.symm.assoc hdisjoint) (kfree_single hram)
  rintro _ _ rfl -
  rw [Heap.empty_union]
  apply wp_lift_frame huser hspace.free_spec
  rintro _ _ rfl -
  rw [Heap.empty_union]
  exact ⟨hmem, hpost⟩

theorem allocproc_spec {post : Option (Slot × Proc) → Holding Index Word Slot → Prop} (hnone : post none ⟨rest, slots⟩)
    (hsome : ∀ i np own, i ∉ slots → own.Disjoint rest → np.sz = 0 → Holds ram np own →
      post (some (i, np)) ⟨own.union rest, insert i slots⟩) :
    (allocproc ram).wp (procRule ram (Holds ram)) ⟨rest, slots⟩ post := by
  rw [allocproc, Program.wp_bind]
  apply findUnused_spec hnone
  intro i hi
  have hmem : i ∈ insert i slots := Set.mem_insert i slots
  have hback : insert i slots \ {i} = slots := Set.insert_sdiff_self_of_notMem hi
  have hrelease : (table (.orphan i) >>= fun _ => table (.release i) : Kernel Index Word Proc Slot Unit).wp
      (procRule ram (Holds ram)) ⟨rest, insert i slots⟩ fun _ holding => post none holding := by
    refine ⟨hmem, ?_⟩
    dsimp only
    rw [hback]
    exact hnone
  have halloc : (kalloc false : Code Index Word (Option Nat)).wp (rule ram fun _ => True) Heap.empty fun mem own =>
      (mem = none ∧ own = Heap.empty) ∨ ∃ t words, mem = some t ∧ ram.Has t ∧ own = Heap.single t words := by
    rw [← bind_pure (kalloc false), Program.wp_bind, wp_kalloc]
    exact ⟨fun _ => Or.inl ⟨rfl, rfl⟩, fun t words hram _ => Or.inr ⟨t, words, rfl, hram, rfl⟩⟩
  have hmade := fun (t : Nat) => @procPagetable_spec ram (fun _ => True) t
  rw [Option.elim_some, Program.wp_bind]
  intro pid
  have hempty : (Heap.empty : Owned Index Word).Disjoint rest := Heap.Disjoint.empty
  have hrest : rest = Heap.empty.union rest := Heap.empty_union.symm
  rw [hrest]
  apply wp_lift_frame hempty halloc
  intro mem own hcase hdisjoint
  rcases hcase with ⟨rfl, rfl⟩ | ⟨t, words, rfl, hram, rfl⟩
  · rw [Heap.empty_union, Option.elim_none, Program.wp_bind]
    exact hrelease
  rw [Option.elim_some]
  have hown : (Heap.single t words).union rest = Heap.empty.union ((Heap.single t words).union rest) :=
    Heap.empty_union.symm
  rw [hown]
  apply wp_lift_frame Heap.Disjoint.empty (hmade t)
  intro pagetable own' hcase hdisjoint'
  rcases hcase with ⟨rfl, -, rfl⟩ | ⟨root, rfl, hspace⟩
  · rw [Heap.empty_union, Option.elim_none, Program.wp_bind, freeproc, Program.when,
      if_pos (page_ne_zero hram)]
    apply wp_lift_frame hdisjoint (kfree_single hram)
    rintro _ _ rfl -
    rw [Heap.empty_union]
    exact hrelease
  · obtain ⟨hsingle, hapart⟩ := hdisjoint'.of_assoc hdisjoint
    rw [← Heap.union_assoc]
    exact hsome i _ _ hi hapart rfl ⟨hram, own', _, words, rfl, hsingle, hspace⟩

variable {me : Slot}

theorem UserSpace.holds {words : Index → Word} (h : UserSpace ram p.trapframe p.pagetable p.sz own view)
    (hram : ram.Has p.trapframe) (hdisjoint : own.Disjoint (Heap.single p.trapframe words)) :
    Holds ram p (own.union (Heap.single p.trapframe words)) := ⟨hram, own, view, words, rfl, hdisjoint, h⟩

theorem fork_spec (h : Holds ram p own) :
    (fork ram p).wp (procRule ram (Holds ram)) ⟨own, {me}⟩ fun _ holding => holding = ⟨own, {me}⟩ := by
  rw [fork, Program.wp_bind]
  apply allocproc_spec rfl
  intro i np child hi hapart hempty hchild
  have hback : insert i {me} \ {i} = ({me} : Set Slot) := Set.insert_sdiff_self_of_notMem hi
  have hmem : i ∈ insert i ({me} : Set Slot) := Set.mem_insert i _
  obtain ⟨-, user, view, words, rfl, hsingle, hspace⟩ := h
  obtain ⟨hram', user', view', words', rfl, hsingle', hspace'⟩ := hchild
  have hspace₀ := hspace'
  rw [hempty] at hspace₀
  have hblank : view' = fun _ => none := funext fun v => hspace₀.below.eq_none (Nat.zero_le v)
  subst hblank
  obtain ⟨huser, hpages, hdisjoint, hunion⟩ := hsingle.interchange hsingle' hapart.symm
  have hbound : pages p.sz ≤ 256 := Nat.le_succ_of_le hspace.pages_le
  have hzero : ∀ {t}, ∀ w < pages p.sz, kernelPages t w = 0 := fun w hw =>
    kernelPages_of_lt (Nat.lt_of_lt_of_le hw hspace.pages_le)
  have hcopy := @uvmcopy_spec _ _ _ _ ram (port ram) (fun _ => True) _ _ _ _ _ _ _ _ _ _ hspace.space
    hspace'.space huser hbound hzero hzero fun _ w hw => (hspace.below w).mpr hw
  rw [Option.elim_some, hapart.union_comm, hunion]
  apply wp_lift_frame hdisjoint hcopy
  intro copied own' hcopied hdisjoint'
  obtain ⟨user'', copy, rfl, huser', hcopy, hcase⟩ := hcopied
  obtain ⟨hsingle₁, hsingle₂, hapart', hunion'⟩ := huser'.interchange hpages hdisjoint'
  rw [hunion', hapart'.union_comm]
  rcases hcase with ⟨rfl, hcopies⟩ | ⟨rfl, -, rfl⟩
  · rw [if_neg (Int.lt_irrefl 0)]
    have hbelow : copy.Below (pages p.sz) := hspace.below.copies hcopies
    refine ⟨hmem, _, _, rfl, hapart'.symm, ?_, ?_⟩
    · exact UserSpace.holds ⟨hcopy, hbelow, hspace.le⟩ hram' hsingle₂
    · dsimp only
      rw [hback]
      rfl
  · have hneg : (-1 : Int) < 0 := by decide
    rw [if_pos hneg, Program.wp_bind]
    have hfreed : UserSpace ram np.trapframe np.pagetable np.sz user'' fun _ => none := by
      rw [hempty]
      exact ⟨hcopy, hspace₀.below, hspace₀.le⟩
    apply freeproc_spec (UserSpace.holds hfreed hram' hsingle₂) hapart'.symm hmem
    rw [hback]
    rfl

theorem waitFrom_spec (h : Holds ram p own) (addr : Nat) (slots : List Slot) :
    (waitFrom ram p addr slots).wp (procRule ram (Holds ram)) ⟨own, {me}⟩ fun _ holding =>
      Rests (Holds ram) me (some p) holding := by
  induction slots with
  | nil => exact ⟨h, rfl⟩
  | cons i rest ih =>
      rw [waitFrom, wp_lockZombie]
      refine ⟨ih, fun np child hchild hapart hi => ?_⟩
      have hback : insert i {me} \ {i} = ({me} : Set Slot) := Set.insert_sdiff_self_of_notMem hi
      have hmem : i ∈ insert i ({me} : Set Slot) := Set.mem_insert i _
      dsimp only
      rw [Option.elim_some, hapart.union_comm]
      have hcode : ∀ {user view}, UserSpace ram p.trapframe p.pagetable p.sz user view →
          (if addr ≠ 0 then archCopyout p.pagetable addr (intBytes np.xstate) else pure 0).wp
            (rule ram fun _ => True) user fun _ user' => ∃ view', UserSpace ram p.trapframe p.pagetable p.sz user' view' := by
        intro user view hspace
        by_cases haddr : addr ≠ 0
        · rw [if_pos haddr]
          exact copyout_spec hspace addr _
        · rw [if_neg haddr]
          exact ⟨view, hspace⟩
      apply wp_user h hapart.symm hcode
      intro copied user words hspace hsingle hdisjoint
      obtain ⟨view, hspace⟩ := hspace
      have hholds := UserSpace.holds hspace h.trapframe hsingle
      rw [hdisjoint.union_comm]
      by_cases hfailed : copied < 0
      · rw [if_pos hfailed]
        refine ⟨hmem, child, _, rfl, hdisjoint.symm, hchild, hholds, ?_⟩
        dsimp only
        rw [hback]
      · rw [if_neg hfailed, Program.wp_bind]
        apply freeproc_spec hchild hdisjoint.symm hmem
        rw [hback]
        exact ⟨hholds, rfl⟩

theorem menu_sound {init : Slot} {call : Call} (hfits : call.Fits) {value : Option Proc}
    {program : Kernel Index Word Proc Slot (Option Proc)} {holding : Holding Index Word Slot}
    (hmenu : menu ram init me call value = some program) (hrests : Rests (Holds ram) me value holding) :
    program.wp (procRule ram (Holds ram)) holding (Rests (Holds ram) me) := by
  obtain ⟨own, slots⟩ := holding
  cases value with
  | none =>
      obtain ⟨rfl, rfl⟩ := hrests
      cases call with
      | schedule =>
          obtain rfl := Option.some.inj hmenu
          intro p child hchild hapart hi
          dsimp only
          rw [Heap.union_empty]
          exact ⟨hchild, insert_empty_eq me⟩
      | fork => cases hmenu
      | exec file argv => cases hmenu
      | sbrk n => cases hmenu
      | copyout dstva src => cases hmenu
      | wait addr => cases hmenu
      | exit status => cases hmenu
  | some p =>
      obtain ⟨hholds, rfl⟩ := hrests
      have hnothing : own = own.union Heap.empty := Heap.union_empty.symm
      have hapart : own.Disjoint Heap.empty := Heap.Disjoint.empty.symm
      cases call with
      | schedule => cases hmenu
      | fork =>
          obtain rfl := Option.some.inj hmenu
          rw [Program.wp_bind]
          apply Program.wp_mono procRule_monotone _ (fork_spec hholds)
          rintro _ _ rfl
          exact ⟨hholds, rfl⟩
      | exec file argv =>
          obtain rfl := Option.some.inj hmenu
          have hfile : ∀ bytes ∈ file, fits bytes = true := by
            rintro bytes hbytes
            obtain rfl := Option.mem_def.mp hbytes
            exact hfits
          rw [hnothing]
          apply wp_user hholds hapart fun hspace => exec_space hspace hfile argv
          intro result user words hresult hsingle hdisjoint
          obtain ⟨htrapframe, view', hspace⟩ := hresult
          have hram : ram.Has result.2.trapframe := htrapframe ▸ hholds.trapframe
          rw [Heap.union_empty]
          rw [← htrapframe] at hspace hsingle ⊢
          exact ⟨UserSpace.holds hspace hram hsingle, rfl⟩
      | sbrk n =>
          obtain rfl := Option.some.inj hmenu
          rw [hnothing]
          apply wp_user hholds hapart fun hspace => sysSbrk_spec hspace n
          intro result user words hresult hsingle hdisjoint
          obtain ⟨view', sz, hproc, hspace⟩ := hresult
          rw [hproc, Heap.union_empty]
          exact ⟨UserSpace.holds hspace hholds.trapframe hsingle, rfl⟩
      | copyout dstva src =>
          obtain rfl := Option.some.inj hmenu
          rw [hnothing]
          apply wp_user hholds hapart fun hspace => copyout_spec hspace dstva src
          intro copied user words hspace hsingle hdisjoint
          obtain ⟨view', hspace⟩ := hspace
          rw [Heap.union_empty]
          exact ⟨UserSpace.holds hspace hholds.trapframe hsingle, rfl⟩
      | wait addr =>
          obtain rfl := Option.some.inj hmenu
          rw [Program.wp_bind]
          exact waitFrom_spec hholds addr _
      | exit status =>
          obtain ⟨-, hprogram⟩ := Option.ite_none_left_eq_some.mp hmenu
          obtain rfl := Option.some.inj hprogram
          refine ⟨rfl, own, Heap.empty, hnothing, hapart, ?_, rfl, Set.sdiff_self⟩
          obtain ⟨hram, huser⟩ := hholds
          exact ⟨hram, huser⟩

end Spec

end Xv6.Vm.Loongarch
