import Xv6.Vm.ProcessMemory
import Xv6.Vm.Riscv64Sbrk

/-!
# The calls of processes on riscv64

Each call of a process works on memory of its own, or hands memory over whole: `kfork` to the child,
`kexit` to the table, and `kwait` from the table to the free list. Growth by `SBRK_LAZY` and the page
faults that fill it in are among the calls.
-/

namespace Xv6.Vm.Riscv64

variable {ram : Ram} {fails : Bool → Prop} {trampoline : Nat} {own rest : Owned Index Word}
  {view : View Index Word Flags} {p : Proc} {slots : Set Slot} {i me : Slot}

def HasSpace (ram : Ram) (trampoline : Nat) (p : Proc) (own : Owned Index Word) : Prop :=
  ∃ view, UserSpace ram trampoline p.trapframe p.pagetable p.sz own view

/-- **The memory of a process**, with the page of its trapframe. -/
def Holds (ram : Ram) (trampoline : Nat) : Proc → Owned Index Word → Prop :=
  HasMemory ram Proc.trapframe (HasSpace ram trampoline)

/-- What `sys_exec` can pass: `argv` has a null pointer at its end, and each string is in a page. -/
def Call.Passed : Call → Prop
  | .exec _ argv => argv.length < 32 ∧ ∀ arg ∈ argv, arg.length < pgsize
  | _ => True

theorem UserSpace.root_ne_zero
    (h : UserSpace ram trampoline p.trapframe p.pagetable p.sz own view) : p.pagetable ≠ 0 := by
  obtain ⟨tree, htree⟩ := h.space
  exact (htree.ram_of_node htree.root).ne_zero

/-! ### Code that works on the memory of a process -/

theorem growproc_space (h : HasSpace ram trampoline p own) (n : Int) :
    (growproc ram p n).wp (rule ram fails) own fun result own' =>
      result.2.trapframe = p.trapframe ∧ HasSpace ram trampoline result.2 own' := by
  obtain ⟨view, huser⟩ := h
  unfold growproc
  by_cases hpos : n > 0
  · rw [if_pos hpos]
    by_cases hlarge : uint64 (p.sz + n) > trapframeVa
    · rw [if_pos hlarge]
      exact ⟨rfl, view, huser⟩
    rw [if_neg hlarge, Program.wp_bind]
    have hbound := pages_le_trapframe (Nat.not_lt.mp hlarge)
    apply Program.wp_mono rule_monotone _ (huser.grow_spec _ (Or.inl hbound))
    intro sz own' hgrown
    rcases hgrown with ⟨-, rfl, rfl⟩ | ⟨hle, rfl, view', huser', -⟩ | ⟨-, rfl, -, huser'⟩
    · by_cases hzero : p.sz = 0
      · rw [if_pos hzero]
        exact ⟨rfl, view, huser⟩
      · rw [if_neg hzero]
        exact ⟨rfl, view, huser⟩
    · by_cases hzero : uint64 (p.sz + n) = 0
      · have hsame : uint64 (p.sz + n) = p.sz := by omega
        rw [if_pos hzero]
        exact ⟨rfl, view', hsame ▸ huser'⟩
      · rw [if_neg hzero]
        exact ⟨rfl, view', huser'⟩
    · rw [if_pos rfl]
      exact ⟨rfl, view, huser'⟩
  rw [if_neg hpos]
  by_cases hneg : n < 0
  · rw [if_pos hneg, Program.wp_bind]
    apply Program.wp_mono rule_monotone _ (huser.shrink_spec (uint64 (p.sz + n)))
    intro sz own' hshrunk
    obtain ⟨rfl, huser'⟩ := hshrunk
    exact ⟨rfl, _, huser'⟩
  · rw [if_neg hneg]
    exact ⟨rfl, view, huser⟩

theorem sysSbrk_space (h : HasSpace ram trampoline p own) (a0 a1 : Word) :
    (sysSbrk ram p a0 a1).wp (rule ram fails) own fun result own' =>
      result.2.trapframe = p.trapframe ∧ HasSpace ram trampoline result.2 own' := by
  unfold sysSbrk
  dsimp only
  by_cases heager : argint a1 = sbrkEager ∨ argint a0 < 0
  · rw [if_pos heager, Program.wp_bind]
    apply Program.wp_mono rule_monotone _ (growproc_space h (argint a0))
    intro grown own' hgrown
    by_cases hfailed : grown.1 < 0
    · rw [if_pos hfailed]
      exact hgrown
    · rw [if_neg hfailed]
      exact hgrown
  rw [if_neg heager]
  by_cases hwraps : uint64 (p.sz + argint a0) < p.sz
  · rw [if_pos hwraps]
    exact ⟨rfl, h⟩
  rw [if_neg hwraps]
  by_cases hlarge : uint64 (p.sz + argint a0) > trapframeVa
  · rw [if_pos hlarge]
    exact ⟨rfl, h⟩
  rw [if_neg hlarge]
  obtain ⟨view, huser⟩ := h
  -- Nothing is mapped yet, and what is mapped is below the larger size too.
  refine ⟨rfl, view, huser.space, ?_, pages_le_trapframe (Nat.not_lt.mp hlarge)⟩
  exact huser.within.mono (pages_mono (Nat.not_lt.mp hwraps))

theorem kexec_space (h : HasSpace ram trampoline p own) (file : Option (List UInt8))
    {argv : List (List UInt8)} (hargv : argv.length < 32) (hargs : ∀ arg ∈ argv, arg.length < pgsize) :
    (kexec ram trampoline file argv p).wp (rule ram fails) own fun result own' =>
      result.2.trapframe = p.trapframe ∧ HasSpace ram trampoline result.2 own' := by
  obtain ⟨view, huser⟩ := h
  unfold kexec
  cases file with
  | none => exact ⟨rfl, view, huser⟩
  | some file =>
      have hempty : Heap.empty.Disjoint own := Heap.Disjoint.empty
      have hbuild := Program.wp_frame rule_monotone rule_local hempty
        (@buildImage_spec ram fails trampoline file argv p.trapframe hargv hargs)
      rw [Heap.empty_union] at hbuild
      rw [Option.elim_some, Program.wp_bind]
      apply Program.wp_mono rule_monotone _ hbuild
      rintro image _ ⟨built, rfl, hdisjoint, hresult⟩
      rcases hresult with ⟨rfl, rfl⟩ | ⟨new, view', v, guard, stack, pointers, rfl, huser', -⟩
      · rw [Heap.empty_union]
        exact ⟨rfl, view, huser⟩
      · rw [Option.elim_some, Program.wp_bind, hdisjoint.union_comm]
        apply Program.wp_mono rule_monotone _
          (Program.wp_frame rule_monotone rule_local hdisjoint.symm huser.free_spec)
        rintro _ _ ⟨_, rfl, -, rfl⟩
        rw [Heap.empty_union]
        exact ⟨rfl, view', huser'⟩

theorem vmfault_space (h : HasSpace ram trampoline p own) (va : Nat) :
    (vmfault ram p.pagetable p.sz va).wp (rule ram fails) own fun _ own' =>
      HasSpace ram trampoline p own' := by
  obtain ⟨view, huser⟩ := h
  apply Program.wp_mono rule_monotone _ (huser.vmfault_spec va)
  intro pa own' hfault
  rcases hfault with ⟨-, huser', -⟩ | ⟨-, -, -, huser'⟩
  · exact ⟨view, huser'⟩
  · exact ⟨_, huser'⟩

theorem copyout_space (h : HasSpace ram trampoline p own) (dstva : Nat) (src : List UInt8) :
    (copyout ram p.pagetable p.sz dstva src).wp (rule ram fails) own fun _ own' =>
      HasSpace ram trampoline p own' := by
  obtain ⟨view, huser⟩ := h
  apply Program.wp_mono rule_monotone _ huser.copyoutFrom_spec
  rintro result own' ⟨view', huser', -⟩
  exact ⟨view', huser'⟩

theorem copyin_space (h : HasSpace ram trampoline p own) (srcva len : Nat) :
    (copyin ram p.pagetable p.sz srcva len).wp (rule ram fails) own fun _ own' =>
      HasSpace ram trampoline p own' := by
  obtain ⟨view, huser⟩ := h
  apply Program.wp_mono rule_monotone _ huser.copyinFrom_spec
  rintro result own' ⟨view', huser', -⟩
  exact ⟨view', huser'⟩

theorem copyinstr_space (h : HasSpace ram trampoline p own) (srcva max : Nat) :
    (copyinstr ram p.pagetable p.sz srcva max).wp (rule ram fails) own fun _ own' =>
      HasSpace ram trampoline p own' := by
  obtain ⟨view, huser⟩ := h
  apply Program.wp_mono rule_monotone _ huser.copyinstrFrom_spec
  rintro result own' ⟨view', huser', -⟩
  exact ⟨view', huser'⟩

/-! ### Calls that hand memory over -/

theorem findUnused_spec {post : Option Slot → Holding Index Word Slot → Prop}
    {holding : Holding Index Word Slot} (hnone : post none holding)
    (hsome : ∀ i ∉ holding.slots, post (some i) { holding with slots := insert i holding.slots })
    (slots : List Slot) :
    (findUnused slots).wp (procRule ram (Holds ram trampoline)) holding post := by
  induction slots with
  | nil => exact hnone
  | cons i rest ih => exact ⟨ih, hsome i⟩

theorem freeproc_spec {post : Unit → Holding Index Word Slot → Prop}
    (h : Holds ram trampoline p own) (hdisjoint : own.Disjoint rest) (hmem : i ∈ slots)
    (hpost : post () ⟨rest, slots \ {i}⟩) :
    (freeproc ram i p.trapframe p.pagetable p.sz).wp (procRule ram (Holds ram trampoline))
      ⟨own.union rest, slots⟩ post := by
  obtain ⟨user, words, rfl, hsingle, view, huser⟩ := h.split
  rw [freeproc, Program.when, Program.when, if_pos h.has.ne_zero, if_pos huser.root_ne_zero]
  exact h.wp_free hdisjoint (fun huser => huser.elim fun _ huser => huser.free_spec) ⟨hmem, hpost⟩

theorem allocproc_spec {post : Option (Slot × Proc) → Holding Index Word Slot → Prop}
    (hnone : post none ⟨rest, slots⟩)
    (hsome : ∀ i np own, i ∉ slots → own.Disjoint rest → np.sz = 0 → Holds ram trampoline np own →
      post (some (i, np)) ⟨own.union rest, insert i slots⟩) :
    (allocproc ram trampoline).wp (procRule ram (Holds ram trampoline)) ⟨rest, slots⟩ post := by
  rw [allocproc, Program.wp_bind]
  apply findUnused_spec hnone
  intro i hi
  have hmem : i ∈ insert i slots := Set.mem_insert i slots
  have hback : insert i slots \ {i} = slots := Set.insert_sdiff_self_of_notMem hi
  have hrelease : (table (.release i) : Kernel Index Word Proc Slot Unit).wp
      (procRule ram (Holds ram trampoline)) ⟨rest, insert i slots⟩
      fun _ holding => post none holding := by
    refine ⟨hmem, ?_⟩
    dsimp only
    rw [hback]
    exact hnone
  rw [Option.elim_some, Program.wp_bind]
  intro pid
  dsimp only
  rw [← @Heap.empty_union _ _ rest]
  apply wp_lift_frame Heap.Disjoint.empty wp_kalloc_single
  rintro mem own hcase hdisjoint
  rcases hcase with ⟨rfl, rfl⟩ | ⟨t, words, rfl, hram, rfl⟩
  · rw [Heap.empty_union, Option.elim_none, Program.wp_bind]
    exact hrelease
  have hown : (Heap.single t words).union rest = Heap.empty.union ((Heap.single t words).union rest) :=
    Heap.empty_union.symm
  rw [Option.elim_some, hown]
  apply wp_lift_frame Heap.Disjoint.empty (procPagetable_spec t)
  intro pagetable own' hcase hdisjoint'
  rcases hcase with ⟨rfl, rfl, -⟩ | ⟨root, rfl, hspace⟩
  · rw [Heap.empty_union, Option.elim_none, Program.wp_bind, freeproc, Program.when,
      if_pos hram.ne_zero]
    apply wp_lift_frame hdisjoint (wp_kfree_single hram)
    rintro _ _ rfl -
    rw [Heap.empty_union]
    exact hrelease
  · obtain ⟨hsingle, hapart⟩ := hdisjoint'.of_assoc hdisjoint
    rw [← Heap.union_assoc]
    exact hsome i _ _ hi hapart rfl
      ⟨hram, own', words, rfl, hsingle, _, hspace⟩

theorem kfork_spec (h : Holds ram trampoline p own) :
    (kfork ram trampoline p).wp (procRule ram (Holds ram trampoline)) ⟨own, {me}⟩
      fun _ holding => holding = ⟨own, {me}⟩ := by
  rw [kfork, Program.wp_bind]
  apply allocproc_spec rfl
  intro i np child hi hapart hempty hchild
  have hback : insert i {me} \ {i} = ({me} : Set Slot) := Set.insert_sdiff_self_of_notMem hi
  have hmem : i ∈ insert i ({me} : Set Slot) := Set.mem_insert i _
  obtain ⟨-, user, words, rfl, hsingle, view, hspace⟩ := h
  obtain ⟨hram', user', words', rfl, hsingle', view', hspace'⟩ := hchild
  have hspace₀ := hspace'
  rw [hempty] at hspace₀
  have hblank : view' = fun _ => none :=
    funext fun v => hspace₀.within.eq_none (pages_zero_le v)
  subst hblank
  obtain ⟨huser, hpages, hdisjoint, hunion⟩ := hsingle.interchange hsingle' hapart.symm
  have hbound : pages p.sz ≤ 67108864 := hspace.le.trans (Nat.le_of_lt trapframe_lt)
  have hzero : ∀ {t}, ∀ w < pages p.sz, kernelPages trampoline t w = 0 := fun w hw =>
    kernelPages_of_lt (Nat.lt_of_lt_of_le hw hspace.le)
  have hcopy := @uvmcopy_spec _ _ _ _ ram (port ram) (fun _ => True) _ _ _ _ _ _ _ _ _ _ hspace.space
    hspace'.space huser hbound hzero hzero fun hstrict => absurd trivial hstrict
  rw [Option.elim_some, hapart.union_comm, hunion]
  apply wp_lift_frame hdisjoint hcopy
  rintro copied _ ⟨user'', copy, rfl, huser', hcopy, hcase⟩ hdisjoint'
  obtain ⟨hsingle₁, hsingle₂, hapart', hunion'⟩ := huser'.interchange hpages hdisjoint'
  rw [hunion', hapart'.union_comm]
  rcases hcase with ⟨rfl, hcopies⟩ | ⟨rfl, -, rfl⟩
  · rw [if_neg (Int.lt_irrefl 0)]
    have hwithin : copy.Within (pages p.sz) := View.Within.copies hcopies
    refine ⟨hmem, _, _, rfl, hapart'.symm, ?_, ?_⟩
    · exact HasMemory.of_space ⟨copy, hcopy, hwithin, hspace.le⟩ hram' hsingle₂
    · dsimp only
      rw [hback]
      rfl
  · rw [if_pos (show (-1 : Int) < 0 by decide), Program.wp_bind]
    have hfreed : HasSpace ram trampoline np user'' :=
      ⟨_, hcopy, hspace'.within, hspace'.le⟩
    apply freeproc_spec (HasMemory.of_space hfreed hram' hsingle₂) hapart'.symm hmem
    rw [hback]
    rfl

theorem waitFrom_spec (h : Holds ram trampoline p own) (addr : Nat) (slots : List Slot) :
    (waitFrom ram p addr slots).wp (procRule ram (Holds ram trampoline)) ⟨own, {me}⟩
      fun _ holding => Rests (Holds ram trampoline) me (some p) holding := by
  induction slots with
  | nil => exact ⟨h, rfl⟩
  | cons i rest ih =>
      rw [waitFrom, wp_lockZombie]
      refine ⟨ih, fun np child hchild hapart hi => ?_⟩
      have hback : insert i {me} \ {i} = ({me} : Set Slot) := Set.insert_sdiff_self_of_notMem hi
      have hmem : i ∈ insert i ({me} : Set Slot) := Set.mem_insert i _
      dsimp only
      rw [Option.elim_some, hapart.union_comm]
      have hcode : ∀ {user}, HasSpace ram trampoline p user →
          (if addr ≠ 0 then copyout ram p.pagetable p.sz addr (intBytes np.xstate) else pure 0).wp
            (rule ram fun _ => True) user fun _ user' => HasSpace ram trampoline p user' := by
        intro user hspace
        by_cases haddr : addr ≠ 0
        · rw [if_pos haddr]
          exact copyout_space hspace addr _
        · rw [if_neg haddr]
          exact hspace
      apply h.wp_user hapart.symm hcode
      intro copied user words hspace hsingle hdisjoint
      have hholds : Holds ram trampoline p _ := HasMemory.of_space hspace h.has hsingle
      rw [hdisjoint.union_comm]
      by_cases hfailed : copied < 0
      · rw [if_pos hfailed]
        refine ⟨hmem, child, _, rfl, hdisjoint.symm, hchild, hholds, ?_⟩
        dsimp only
        rw [hback]
      · rw [if_neg hfailed]
        change (freeproc ram i np.trapframe np.pagetable np.sz >>= fun _ => pure (some (np.pid : Int)) :
          Kernel Index Word Proc Slot (Option Int)).wp (procRule ram (Holds ram trampoline)) _ _
        rw [Program.wp_bind]
        apply freeproc_spec hchild hdisjoint.symm hmem
        rw [hback]
        exact ⟨hholds, rfl⟩

/-! ### All calls -/

theorem wp_own {α : Type} {code : Code Index Word α} {after : α → Proc}
    (h : Holds ram trampoline p own)
    (hcode : ∀ {user}, HasSpace ram trampoline p user →
      code.wp (rule ram fun _ => True) user fun value user' =>
        (after value).trapframe = p.trapframe ∧ HasSpace ram trampoline (after value) user') :
    (lift code >>= fun value => pure (some (after value)) :
      Kernel Index Word Proc Slot (Option Proc)).wp (procRule ram (Holds ram trampoline))
      ⟨own, {me}⟩ (Rests (Holds ram trampoline) me) := by
  rw [← @Heap.union_empty _ _ own]
  apply h.wp_user Heap.Disjoint.empty.symm hcode
  rintro value user words ⟨htrapframe, hspace⟩ hsingle -
  have hram : ram.Has (after value).trapframe := htrapframe ▸ h.has
  rw [← htrapframe] at hsingle ⊢
  exact rests_of_holds (HasMemory.of_space hspace hram hsingle)

theorem menu_sound {init : Slot} {call : Call} (hpassed : call.Passed) {value : Option Proc}
    {program : Kernel Index Word Proc Slot (Option Proc)} {holding : Holding Index Word Slot}
    (hmenu : menu ram trampoline init me call value = some program)
    (hrests : Rests (Holds ram trampoline) me value holding) :
    program.wp (procRule ram (Holds ram trampoline)) holding (Rests (Holds ram trampoline) me) := by
  obtain ⟨own, slots⟩ := holding
  cases value with
  | none =>
      obtain ⟨rfl, rfl⟩ := hrests
      cases call with
      | schedule =>
          obtain rfl := Option.some.inj hmenu
          intro p child hchild hapart hi
          dsimp only
          rw [Heap.union_empty]
          exact ⟨hchild, insert_empty_eq me⟩
      | fork => cases hmenu
      | exec file argv => cases hmenu
      | sbrk a0 a1 => cases hmenu
      | fault va => cases hmenu
      | copyin srcva len => cases hmenu
      | copyout dstva src => cases hmenu
      | copyinstr srcva max => cases hmenu
      | wait addr => cases hmenu
      | exit status => cases hmenu
  | some p =>
      obtain ⟨hholds, rfl⟩ := hrests
      cases call with
      | schedule => cases hmenu
      | fork =>
          obtain rfl := Option.some.inj hmenu
          rw [Program.wp_bind]
          apply Program.wp_mono procRule_monotone _ (kfork_spec hholds)
          rintro _ _ rfl
          exact ⟨hholds, rfl⟩
      | exec file argv =>
          obtain rfl := Option.some.inj hmenu
          exact wp_own hholds fun hspace => kexec_space hspace file hpassed.1 hpassed.2
      | sbrk a0 a1 =>
          obtain rfl := Option.some.inj hmenu
          exact wp_own hholds fun hspace => sysSbrk_space hspace a0 a1
      | fault va =>
          obtain rfl := Option.some.inj hmenu
          exact wp_own hholds fun hspace =>
            Program.wp_mono rule_monotone (fun _ _ hafter => ⟨rfl, hafter⟩) (vmfault_space hspace va)
      | copyin srcva len =>
          obtain rfl := Option.some.inj hmenu
          exact wp_own hholds fun hspace =>
            Program.wp_mono rule_monotone (fun _ _ hafter => ⟨rfl, hafter⟩) (copyin_space hspace srcva len)
      | copyout dstva src =>
          obtain rfl := Option.some.inj hmenu
          exact wp_own hholds fun hspace =>
            Program.wp_mono rule_monotone (fun _ _ hafter => ⟨rfl, hafter⟩) (copyout_space hspace dstva src)
      | copyinstr srcva max =>
          obtain rfl := Option.some.inj hmenu
          exact wp_own hholds fun hspace =>
            Program.wp_mono rule_monotone (fun _ _ hafter => ⟨rfl, hafter⟩) (copyinstr_space hspace srcva max)
      | wait addr =>
          obtain rfl := Option.some.inj hmenu
          rw [Program.wp_bind]
          exact waitFrom_spec hholds addr _
      | exit status =>
          obtain ⟨-, hprogram⟩ := Option.ite_none_left_eq_some.mp hmenu
          obtain rfl := Option.some.inj hprogram
          refine ⟨rfl, own, Heap.empty, Heap.union_empty.symm, Heap.Disjoint.empty.symm, ?_, rfl,
            Set.sdiff_self⟩
          exact ⟨hholds.has, hholds.split⟩

end Xv6.Vm.Riscv64
