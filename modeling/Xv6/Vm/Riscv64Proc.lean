import Xv6.Vm.Processes
import Xv6.Vm.Riscv64Image

/-!
# Processes and their memory on riscv64

What `sbrk`, `fork`, `exec`, `wait` and `exit` do to the memory of processes and to the process table.
-/

namespace Xv6.Vm.Riscv64

/-! ### The code -/

/-- The registers in a trapframe that `kexec` sets. -/
structure Registers where
  epc : Nat
  sp : Nat
  a1 : Nat

/-- What of `struct proc` is about memory, what its parent is told, and where it runs. -/
structure Proc where
  pid : Nat
  sz : Nat
  pagetable : Nat
  trapframe : Nat
  xstate : Int
  registers : Registers

/-- A slot of the process table, of `NPROC`. -/
abbrev Slot := Fin 64

/-- `TRAPFRAME`. -/
def trapframeVa : Nat := trapframePage * pgsize

/-- A number as an `uint64`. -/
def uint64 (n : Int) : Nat := (n % 18446744073709551616).toNat

/-- Fetch a system call argument from a register as an `int`. -/
def argint (reg : Word) : Int := (reg.setWidth 32).toInt

def sbrkEager : Int := 1

section Code

variable (ram : Ram)

/-- Grow or shrink user memory by `n` bytes. Return 0 on success, -1 on failure. -/
def growproc (p : Proc) (n : Int) : Code Index Word (Int × Proc) :=
  if n > 0 then
    if uint64 (p.sz + n) > trapframeVa then pure (-1, p)
    else do
      let sz ← uvmalloc (port ram) p.pagetable p.sz (uint64 (p.sz + n))
        (pteFlags (pteR ||| pteU ||| pteW))
      if sz = 0 then pure (-1, p) else pure (0, { p with sz })
  else if n < 0 then do
    let sz ← uvmdealloc (port ram) p.pagetable p.sz (uint64 (p.sz + n))
    pure (0, { p with sz })
  else pure (0, p)

/-- `sys_sbrk`. The registers say by how many bytes, and whether to allocate them at once. -/
def sysSbrk (p : Proc) (a0 a1 : Word) : Code Index Word (Int × Proc) :=
  let n := argint a0
  let t := argint a1
  let addr := p.sz
  if t = sbrkEager ∨ n < 0 then do
    let grown ← growproc ram p n
    if grown.1 < 0 then pure (-1, grown.2) else pure (addr, grown.2)
  -- Lazily allocate memory for this process: increase its memory size but don't allocate memory.
  else if uint64 (addr + n) < addr then pure (-1, p)
  else if uint64 (addr + n) > trapframeVa then pure (-1, p)
  else pure (addr, { p with sz := uint64 (p.sz + n) })

variable (trampoline : Nat)

/-- Load the program in `file` in place of the one that runs. There is no file where `namei` finds
none. -/
def kexec (file : Option (List UInt8)) (argv : List (List UInt8)) (p : Proc) :
    Code Index Word (Int × Proc) :=
  file.elim (pure (-1, p)) fun file => do
    let image ← buildImage ram trampoline file argv p.trapframe
    image.elim (pure (-1, p)) fun image => do
      procFreepagetable ram p.pagetable p.sz
      pure (image.argc, { p with
        pagetable := image.pagetable
        sz := image.sz
        registers := ⟨image.entry, image.sp, image.sp⟩ })

def freeproc (i : Slot) (trapframe pagetable sz : Nat) : Kernel Index Word Proc Slot Unit := do
  lift (Program.when (trapframe ≠ 0) (kfree ram trapframe))
  lift (Program.when (pagetable ≠ 0) (procFreepagetable ram pagetable sz))
  table (.release i)

def findUnused : List Slot → Kernel Index Word Proc Slot (Option Slot)
  | [] => pure none
  | i :: rest => do
      let claimed ← claim i
      if claimed then pure (some i) else findUnused rest

/-- If there is an UNUSED proc, initialize state required to run in the kernel. If there are no free
procs, or a memory allocation fails, return 0. -/
def allocproc : Kernel Index Word Proc Slot (Option (Slot × Proc)) := do
  let found ← findUnused (List.finRange 64)
  found.elim (pure none) fun i => do
    let pid ← allocpid
    let trapframe ← lift (kalloc false)
    trapframe.elim (do
      freeproc ram i 0 0 0
      pure none) fun trapframe => do
      let pagetable ← lift (procPagetable ram trampoline trapframe)
      pagetable.elim (do
        freeproc ram i trapframe 0 0
        pure none) fun pagetable =>
          pure (some (i, ⟨pid, 0, pagetable, trapframe, 0, ⟨0, 0, 0⟩⟩))

def userinit : Kernel Index Word Proc Slot Unit := do
  let made ← allocproc ram trampoline
  made.elim (pure ()) fun made => table (.ready made.1 made.2)

/-- Create a new process, copying the parent. -/
def kfork (p : Proc) : Kernel Index Word Proc Slot Int := do
  let made ← allocproc ram trampoline
  made.elim (pure (-1)) fun made => do
    let np := made.2
    let copied ← lift (uvmcopy (port ram) p.pagetable np.pagetable p.sz)
    if copied < 0 then do
      freeproc ram made.1 np.trapframe np.pagetable np.sz
      pure (-1)
    else do
      table (.adopt made.1)
      table (.ready made.1 { np with sz := p.sz, registers := p.registers })
      pure np.pid

/-- The bytes of an `int`. -/
def intBytes (n : Int) : List UInt8 :=
  (List.range 4).map fun k => UInt8.ofNat (uint64 n / 256 ^ k)

/-- A scan of `kwait` through the table for exited children. -/
def waitFrom (p : Proc) (addr : Nat) : List Slot → Kernel Index Word Proc Slot (Option Int)
  | [] => pure none
  | i :: rest => do
      let found ← lockZombie i
      found.elim (waitFrom p addr rest) fun pp => do
        let copied ← lift (if addr ≠ 0 then copyout ram p.pagetable p.sz addr (intBytes pp.xstate)
          else pure 0)
        if copied < 0 then do
          table (.unlockZombie i pp)
          pure (some (-1))
        else do
          table (.orphan i)
          freeproc ram i pp.trapframe pp.pagetable pp.sz
          pure (some pp.pid)

def kexit (me : Slot) (p : Proc) (status : Int) : Kernel Index Word Proc Slot Unit :=
  table (.exit me { p with xstate := status })

/-! What a process may do. -/

inductive Call where
  /-- The scheduler runs the process. -/
  | schedule
  | fork
  | exec (file : Option (List UInt8)) (argv : List (List UInt8))
  | sbrk (a0 a1 : Word)
  /-- A page fault at an address. -/
  | fault (va : Nat)
  | copyin (srcva len : Nat)
  | copyout (dstva : Nat) (src : List UInt8)
  | copyinstr (srcva max : Nat)
  /-- A scan of `kwait`: where it finds no zombie, the process sleeps and tries again, or gives up. -/
  | wait (addr : Nat)
  | exit (status : Int)

/-- The calls, of a process and where there is none. To exit is a panic for init, which is left out. -/
def menu (init : Slot) (me : Slot) : Call → Option Proc → Option (Kernel Index Word Proc Slot (Option Proc))
  | .schedule, none => some do
      let p ← schedule me
      pure (some p)
  | .fork, some p => some do
      let _ ← kfork ram trampoline p
      pure (some p)
  | .exec file argv, some p => some do
      let result ← lift (kexec ram trampoline file argv p)
      pure (some result.2)
  | .sbrk a0 a1, some p => some do
      let result ← lift (sysSbrk ram p a0 a1)
      pure (some result.2)
  | .fault va, some p => some do
      let _ ← lift (vmfault ram p.pagetable p.sz va)
      pure (some p)
  | .copyin srcva len, some p => some do
      let _ ← lift (copyin ram p.pagetable p.sz srcva len)
      pure (some p)
  | .copyout dstva src, some p => some do
      let _ ← lift (copyout ram p.pagetable p.sz dstva src)
      pure (some p)
  | .copyinstr srcva max, some p => some do
      let _ ← lift (copyinstr ram p.pagetable p.sz srcva max)
      pure (some p)
  | .wait addr, some p => some do
      let _ ← waitFrom ram p addr (List.finRange 64)
      pure (some p)
  | .exit status, some p =>
      if me = init then none
      else some do
        kexit me p status
        pure none
  | _, _ => none

end Code

/-! ### A new image -/

section Spec

variable {ram : Ram} {fails : Bool → Prop} {trampoline : Nat} {own : Owned Index Word}
  {view : View Index Word Flags} {p : Proc} {argv : List (List UInt8)}

/-- The process runs the image, with its arguments on the stack. -/
def Runs (ram : Ram) (trampoline : Nat) (argv : List (List UInt8)) (own : Owned Index Word) (p : Proc) :
    Prop :=
  ∃ view new v guard stack pointers,
    UserSpace ram trampoline p.trapframe p.pagetable p.sz own view ∧
    Ready view new argv v guard stack pointers ∧
    p.pagetable = new.pagetable ∧ p.sz = new.sz ∧ p.registers = ⟨new.entry, new.sp, new.sp⟩

theorem kexec_spec (h : UserSpace ram trampoline p.trapframe p.pagetable p.sz own view)
    (file : Option (List UInt8)) (hargv : argv.length < 32) (hargs : ∀ arg ∈ argv, arg.length < pgsize) :
    (kexec ram trampoline file argv p).wp (rule ram fails) own fun result own' =>
      (result.1 = -1 ∧ result.2 = p ∧ own' = own) ∨
      (result.1 = argv.length ∧ Runs ram trampoline argv own' result.2) := by
  unfold kexec
  cases file with
  | none => exact Or.inl ⟨rfl, rfl, rfl⟩
  | some file =>
      have hempty : Heap.empty.Disjoint own := Heap.Disjoint.empty
      have hbuild := Program.wp_frame rule_monotone rule_local hempty
        (@buildImage_spec ram fails trampoline file argv p.trapframe hargv hargs)
      rw [Heap.empty_union] at hbuild
      rw [Option.elim_some, Program.wp_bind]
      apply Program.wp_mono rule_monotone _ hbuild
      intro image own' hframe
      obtain ⟨built, rfl, hdisjoint, hresult⟩ := hframe
      rcases hresult with ⟨rfl, rfl⟩ | ⟨new, view', v, guard, stack, pointers, rfl, huser, hready⟩
      · exact Or.inl ⟨rfl, rfl, Heap.empty_union⟩
      · rw [Option.elim_some, Program.wp_bind, hdisjoint.union_comm]
        apply Program.wp_mono rule_monotone _
          (Program.wp_frame rule_monotone rule_local hdisjoint.symm h.free_spec)
        intro _ own'' hfreed
        obtain ⟨_, rfl, -, rfl⟩ := hfreed
        rw [Heap.empty_union]
        exact Or.inr ⟨congrArg Nat.cast hready.argc, view', new, v, guard, stack, pointers, huser, hready,
          rfl, rfl, rfl⟩

variable {ι : Type} {who : ι} {pool : Nat → Prop} {others junk : Nat → Index → Word}
  {memory : Memory Index Word}

/-- **`kexec` is safe for every file.** Whatever is in the file, and whichever allocations fail, `kexec`
gets to its end. Where it fails, the process and its memory are as before, and the same pages are free.
Where it succeeds, the process has its arguments on its new stack, above a page that is not its own. -/
theorem kexec_safe (howns : Owns ram pool others memory own)
    (h : UserSpace ram trampoline p.trapframe p.pagetable p.sz own view)
    (file : Option (List UInt8)) (hargv : argv.length < 32) (hargs : ∀ arg ∈ argv, arg.length < pgsize)
    (refuses : Nat → Bool) (n : Nat) :
    (kexec ram trampoline file argv p).Ends (scarce junk refuses) who (memory, n) fun result state' =>
      (result.1 = -1 ∧ result.2 = p ∧ Owns ram pool others state'.1 own ∧
        ∀ q, q ∈ state'.1.freelist ↔ q ∈ memory.freelist) ∨
      (result.1 = argv.length ∧ ∃ own', Owns ram pool others state'.1 own' ∧
        Runs ram trampoline argv own' result.2) := by
  apply (howns.ends_scarce (kexec_spec h file hargv hargs)).mono
  intro result state' hresult
  obtain ⟨own', hcase, howns'⟩ := hresult
  rcases hcase with ⟨hresult, hproc, rfl⟩ | ⟨hargc, hruns⟩
  · refine Or.inl ⟨hresult, hproc, howns', fun q => ?_⟩
    rw [howns'.mem_freelist, howns.mem_freelist]
  · exact Or.inr ⟨hargc, own', howns', hruns⟩

/-! A process without memory, and a program without segments for it to run. -/

def smallRam : Ram := ⟨2, 22, Nat.two_pos, Nat.le_add_left 20 65516, Nat.le_add_left 22 1048554⟩

def smallMemory : Memory Index Word := ⟨fun _ _ => 0, List.range' 2 20⟩

def emptyProgram : List UInt8 := [0x7F, 0x45, 0x4C, 0x46] ++ List.replicate 60 0

def newProc : Proc := ⟨1, 0, 2, 60, 0, ⟨0, 0, 0⟩⟩

theorem newProc_space : ∃ state pool others own,
    (procPagetable smallRam 50 60).exec (scarce (fun _ _ => 1) fun _ => false) () (smallMemory, 0) =
      some (some newProc.pagetable, state) ∧
    Owns smallRam pool others state.1 own ∧
    UserSpace smallRam 50 newProc.trapframe newProc.pagetable newProc.sz own (fun _ => none) := by
  have howns : Owns smallRam (fun p => p ∈ smallMemory.freelist) smallMemory.words smallMemory
      Heap.empty := by
    refine ⟨fun {p words} hwords => ?_, List.nodup_range', fun _ => rfl, fun p => ?_, fun {p} hp => ?_,
      fun _ _ => rfl⟩
    · cases hwords
    · exact ⟨Or.inl, fun h => h.resolve_right fun hsome => hsome rfl⟩
    · obtain ⟨hlow, hhigh⟩ := List.mem_range'_1.mp hp
      exact ⟨hlow, hhigh⟩
  obtain ⟨value, state, hexec, own, hmade, howns'⟩ :=
    @Owns.ends_scarce _ _ _ smallRam _ _ (fun _ _ => 1) () _ _ _ (fun _ => false) _ _ 0 howns
      (@procPagetable_spec smallRam _ 50 60)
  have hvalue : (((procPagetable smallRam 50 60).exec (scarce (fun _ _ => 1) fun _ => false) ()
      (smallMemory, 0)).map fun ends => ends.1) = some (some 2) := by decide +kernel
  rw [hexec, Option.map_some] at hvalue
  obtain rfl : value = some 2 := Option.some.inj hvalue
  rcases hmade with ⟨hnone, -⟩ | ⟨root, hroot, huser⟩
  · cases hnone
  obtain rfl := Option.some.inj hroot
  exact ⟨state, _, _, own, hexec, howns', huser⟩

theorem kexec_safe_emptyProgram :
    ∃ state pool others own,
      (procPagetable smallRam 50 60).exec (scarce (fun _ _ => 1) fun _ => false) () (smallMemory, 0) =
        some (some newProc.pagetable, state) ∧
      (kexec smallRam 50 (some emptyProgram) [[97, 98]] newProc).Ends
        (scarce (fun _ _ => 1) fun _ => false) () state fun result state' =>
          (result.1 = -1 ∧ result.2 = newProc ∧ Owns smallRam pool others state'.1 own ∧
            ∀ q, q ∈ state'.1.freelist ↔ q ∈ state.1.freelist) ∨
          (result.1 = 1 ∧ ∃ own', Owns smallRam pool others state'.1 own' ∧
            Runs smallRam 50 [[97, 98]] own' result.2) := by
  obtain ⟨state, pool, others, own, hexec, howns, huser⟩ := newProc_space
  exact ⟨state, pool, others, own, hexec, @kexec_safe smallRam 50 own _ newProc [[97, 98]] Unit () _ _ _ _ howns
    huser (some emptyProgram) (by decide) (by decide) (fun _ => false) _⟩

end Spec

end Xv6.Vm.Riscv64
