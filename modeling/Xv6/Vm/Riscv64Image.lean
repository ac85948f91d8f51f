import Xv6.Vm.Riscv64Memory

/-!
# Building an image on riscv64

Page tables of processes, and `kexec`, which builds the new image of a process next to the old one.
-/

namespace Xv6.Vm.Riscv64

/-! ### The code -/

section Code

/-- Mark a PTE invalid for user access. Used by `exec` for the user stack guard page. -/
def uvmclear (pagetable va : Nat) : Code Index Word Unit := do
  let pte ← walk arch maxva false pagetable va
  pte.elim (panic "uvmclear") fun pte => do
    let word ← read pte.1 pte.2
    write pte.1 pte.2 (word &&& ~~~pteU)

def flags2perm (flags : Nat) : Word :=
  (if flags % 2 = 1 then pteX else 0) ||| (if flags / 2 % 2 = 1 then pteW else 0)

variable (ram : Ram) (trampoline : Nat)

/-- Create a user page table for a given process, with no user memory, but with trampoline and trapframe
pages. -/
def procPagetable (trapframe : Nat) : Code Index Word (Option Nat) := do
  let pagetable ← uvmcreate (port ram)
  pagetable.elim (pure none) fun pagetable => do
    let mapped ← mappages pagetable (trampolinePage * pgsize) pgsize trampoline (pteFlags (pteR ||| pteX))
    if mapped < 0 then do
      uvmfree (port ram) pagetable 0
      pure none
    else
      let mapped ← mappages pagetable (trapframePage * pgsize) pgsize trapframe (pteFlags (pteR ||| pteW))
      if mapped < 0 then do
        uvmunmap ram pagetable (trampolinePage * pgsize) 1 false
        uvmfree (port ram) pagetable 0
        pure none
      else pure (some pagetable)

/-- Free a process's page table, and free the physical memory it refers to. -/
def procFreepagetable (pagetable sz : Nat) : Code Index Word Unit := do
  uvmunmap ram pagetable (trampolinePage * pgsize) 1 false
  uvmunmap ram pagetable (trapframePage * pgsize) 1 false
  uvmfree (port ram) pagetable sz

/-! The parts of `kexec`. -/

/-- The loop of `loadseg`. -/
def loadsegFrom (file : List UInt8) (pagetable va offset sz : Nat) :
    (count i : Nat) → Code Index Word Int
  | 0, _ => pure 0
  | count + 1, i => do
      let pa ← walkaddr pagetable (va + i)
      if pa = 0 then panic "loadseg: address should exist"
      else
        let n := if sz - i < pgsize then sz - i else pgsize
        let bytes := readi file ((offset + i) % 4294967296) n
        modify pa fun words => storeBytes words 0 bytes
        if bytes.length ≠ n then pure (-1)
        else loadsegFrom file pagetable va offset sz count (i + pgsize)

/-- Load an ELF program segment into `pagetable` at virtual address `va`. `va` must be page-aligned and
the pages from `va` to `va + sz` must already be mapped. -/
def loadseg (file : List UInt8) (pagetable va offset sz : Nat) : Code Index Word Int :=
  loadsegFrom file pagetable va offset sz (pages sz) 0

/-- The loop of `kexec` over the program headers: did all go well, and the size then. -/
def loadSegments (file : List UInt8) (pagetable : Nat) :
    (count off sz : Nat) → Code Index Word (Bool × Nat)
  | 0, _, sz => pure (true, sz)
  | count + 1, off, sz =>
      let ph := readi file off 56
      let vaddr := field ph 8 16
      let filesz := field ph 8 32
      let memsz := field ph 8 40
      if ph.length ≠ 56 then pure (false, sz)
      else if field ph 4 0 ≠ 1 then
        loadSegments file pagetable count ((off + 56) % 4294967296) sz
      else if memsz < filesz then pure (false, sz)
      else if (vaddr + memsz) % 18446744073709551616 < vaddr then pure (false, sz)
      else if vaddr % pgsize ≠ 0 then pure (false, sz)
      else do
        let sz1 ← uvmalloc (port ram) pagetable sz (vaddr + memsz)
          (pteFlags (pteR ||| pteU ||| flags2perm (field ph 4 4)))
        if sz1 = 0 then pure (false, sz)
        else
          let loaded ← loadseg file pagetable vaddr (field ph 8 8 % 4294967296) (filesz % 4294967296)
          if loaded < 0 then pure (false, sz1)
          else loadSegments file pagetable count ((off + 56) % 4294967296) sz1

def pointer (addr : Nat) : List UInt8 := (List.range 8).map fun k => UInt8.ofNat (addr / 256 ^ k)

/-- Copy argument strings into the new stack, and then the array of `argv[]` pointers: `argc`, and the
stack pointer. -/
def pushArgs (pagetable sz stackbase : Nat) :
    (argv : List (List UInt8)) → (argc sp : Nat) → (ustack : List UInt8) →
      Code Index Word (Option (Nat × Nat))
  | [], argc, sp, ustack =>
      let sp := push sp ((argc + 1) * 8)
      if sp < stackbase then pure none
      else do
        let copied ← copyout ram pagetable sz sp (ustack ++ List.replicate 8 0)
        if copied < 0 then pure none else pure (some (argc, sp))
  | arg :: argv, argc, sp, ustack =>
      let sp := push sp (arg.length + 1)
      if sp < stackbase then pure none
      else do
        let copied ← copyout ram pagetable sz sp (arg ++ [0])
        if copied < 0 then pure none
        else pushArgs pagetable sz stackbase argv (argc + 1) sp (ustack ++ pointer sp)

/-- The new image of a process, and where it begins to run. -/
structure Image where
  pagetable : Nat
  sz : Nat
  argc : Nat
  sp : Nat
  entry : Nat

/-- What `kexec` does at `bad`, with a page table. -/
def bad (pagetable sz : Nat) : Code Index Word (Option Image) := do
  procFreepagetable ram pagetable sz
  pure none

/-- The part of `kexec` that makes the new image, for a process with this trapframe. -/
def buildImage (file : List UInt8) (argv : List (List UInt8)) (trapframe : Nat) :
    Code Index Word (Option Image) :=
  let elf := readi file 0 64
  if elf.length ≠ 64 then pure none
  else if field elf 4 0 ≠ elfMagic then pure none
  else do
    let pagetable ← procPagetable ram trampoline trapframe
    pagetable.elim (pure none) fun pagetable => do
      let loaded ← loadSegments ram file pagetable (field elf 2 56) (field elf 8 32 % 4294967296) 0
      if loaded.1 = false then bad ram pagetable loaded.2
      else do
        let sz := pgroundup loaded.2
        let sz1 ← uvmalloc (port ram) pagetable sz (sz + 2 * pgsize) (pteFlags (pteR ||| pteU ||| pteW))
        if sz1 = 0 then bad ram pagetable sz
        else do
          uvmclear pagetable (sz1 - 2 * pgsize)
          let pushed ← pushArgs ram pagetable sz1 (sz1 - pgsize) argv 0 sz1 []
          pushed.elim (bad ram pagetable sz1) fun pushed =>
            pure (some ⟨pagetable, sz1, pushed.1, pushed.2, field elf 8 24⟩)

end Code

/-! ### Page tables of processes -/

section Spec

variable {ram : Ram} {fails : Bool → Prop} {kept : Nat → Prop} {fixed : Nat → Word}
  {trampoline trapframe root sz v : Nat} {own : Owned Index Word} {view : View Index Word Flags}

theorem trampoline_lt : trampolinePage < 67108864 := Nat.lt_succ_self _

theorem trapframe_lt_trampoline : trapframePage < trampolinePage := Nat.lt_succ_self _

theorem trapframe_lt : trapframePage < 67108864 := trapframe_lt_trampoline.trans trampoline_lt

theorem uvmfree_empty (h : Space arch ram kept (fun _ => 0) root own (fun _ => none))
    (hle : pages sz ≤ 67108864) :
    (uvmfree (port ram) root sz).wp (rule ram fails) own fun _ own' => own' = Heap.empty :=
  @uvmfree_spec _ _ _ _ ram (port ram) _ _ _ _ _ _ _ h hle (fun _ _ => rfl) (fun _ _ => rfl)
    fun hstrict => absurd trivial hstrict

theorem pages_zero_le (bound : Nat) : pages 0 ≤ bound := by
  have hzero : pages 0 = 0 := by decide
  rw [hzero]
  exact Nat.zero_le bound

-- To free a page table of size 0 is a closed program, which nothing should evaluate.
attribute [local irreducible] uvmfree

theorem procPagetable_spec (trapframe : Nat) :
    (procPagetable ram trampoline trapframe).wp (rule ram fails) Heap.empty fun pagetable own' =>
      (pagetable = none ∧ own' = Heap.empty ∧ (fails false ∨ fails true)) ∨
      ∃ root, pagetable = some root ∧
        UserSpace ram trampoline trapframe root 0 own' (fun _ => none) := by
  rw [procPagetable, Program.wp_bind, uvmcreate, Program.wp_bind, wp_kalloc]
  refine ⟨fun hfails => Or.inl ⟨rfl, rfl, Or.inl hfails⟩, fun root words hram _ => ?_⟩
  rw [Option.elim_some, Program.wp_bind, wp_fill]
  refine ⟨words, Heap.set_self, ?_⟩
  rw [Heap.set_set, Program.wp_pure, Option.elim_some, Program.wp_bind]
  have hcreated : Space arch ram (fun _ => False) (fun _ => 0) root (Heap.empty.set root fun _ => 0)
      (fun _ => none) := Space.create hram
  apply Program.wp_mono rule_monotone _ (mappages_fixed hcreated trampoline_lt rfl rfl trampoline _)
  intro mapped own' hmapped
  rcases hmapped with ⟨rfl, hspace⟩ | ⟨rfl, hfails, hspace⟩
  · rw [if_neg (by decide), Program.wp_bind]
    have hfixed : Function.update (fun _ => 0 : Nat → Word) trampolinePage
        (leafEntry trampoline (pteFlags (pteR ||| pteX))) trapframePage = 0 :=
      Function.update_of_ne (Nat.ne_of_lt trapframe_lt_trampoline) ..
    apply Program.wp_mono rule_monotone _ (mappages_fixed hspace trapframe_lt rfl hfixed trapframe _)
    intro mapped own'' hmapped
    rcases hmapped with ⟨rfl, hspace'⟩ | ⟨rfl, hfails, hspace'⟩
    · rw [if_neg (by decide)]
      exact Or.inr ⟨root, rfl, hspace', fun v hsome => absurd rfl hsome, Nat.zero_le _⟩
    · rw [if_pos (by decide), Program.wp_bind]
      have hvalid : valid (Function.update (fun _ => 0 : Nat → Word) trampolinePage
          (leafEntry trampoline (pteFlags (pteR ||| pteX))) trampolinePage) = true := by
        rw [Function.update_self]
        exact valid_or _
      apply Program.wp_mono rule_monotone _ (uvmunmap_fixed hspace' trampoline_lt rfl fun hinvalid =>
        absurd (hvalid.symm.trans hinvalid) Bool.noConfusion)
      intro _ own''' hspace''
      rw [Function.update_idem, Function.update_eq_self] at hspace''
      rw [Program.wp_bind]
      apply Program.wp_mono rule_monotone _ (uvmfree_empty hspace'' (pages_zero_le _))
      exact fun _ _ hempty => Or.inl ⟨rfl, hempty, Or.inr hfails⟩
  · rw [if_pos (by decide), Program.wp_bind]
    apply Program.wp_mono rule_monotone _ (uvmfree_empty hspace (pages_zero_le _))
    exact fun _ _ hempty => Or.inl ⟨rfl, hempty, Or.inr hfails⟩

namespace UserSpace

variable (h : UserSpace ram trampoline trapframe root sz own view)
include h

theorem free_spec :
    (procFreepagetable ram root sz).wp (rule ram fails) own fun _ own' => own' = Heap.empty := by
  have htrampoline : kernelPages trampoline trapframe trampolinePage =
      leafEntry trampoline (pteFlags (pteR ||| pteX)) := by
    unfold kernelPages
    rw [Function.update_of_ne (Nat.ne_of_gt trapframe_lt_trampoline), Function.update_self]
  have htrapframe : Function.update (kernelPages trampoline trapframe) trampolinePage 0 trapframePage =
      leafEntry trapframe (pteFlags (pteR ||| pteW)) := by
    rw [Function.update_of_ne (Nat.ne_of_lt trapframe_lt_trampoline)]
    exact Function.update_self ..
  have hvalid : ∀ {word p perm}, word = leafEntry p perm → valid word = false → word = 0 := by
    intro word p perm hword hinvalid
    rw [hword] at hinvalid
    exact absurd ((valid_or _).symm.trans hinvalid) Bool.noConfusion
  rw [procFreepagetable, Program.wp_bind]
  apply Program.wp_mono rule_monotone _ (uvmunmap_fixed h.space trampoline_lt
    (h.eq_none (Nat.le_of_lt trapframe_lt_trampoline)) (hvalid htrampoline))
  intro _ own' hspace
  rw [Program.wp_bind]
  apply Program.wp_mono rule_monotone _ (uvmunmap_fixed hspace trapframe_lt
    (h.eq_none (Nat.le_refl _)) (hvalid htrapframe))
  intro _ own'' hspace'
  have hzero : ∀ v, Function.update (Function.update (kernelPages trampoline trapframe) trampolinePage 0)
      trapframePage 0 v = 0 := by
    intro v
    by_cases hv : v = trapframePage
    · rw [hv, Function.update_self]
    rw [Function.update_of_ne hv]
    by_cases hv' : v = trampolinePage
    · rw [hv', Function.update_self]
    rw [Function.update_of_ne hv', kernelPages, Function.update_of_ne hv, Function.update_of_ne hv']
  exact @uvmfree_spec _ _ _ _ ram (port ram) _ _ _ _ _ _ _ hspace' (h.le.trans (Nat.le_of_lt trapframe_lt))
    (fun v _ => hzero v) (fun v => h.within.eq_none) fun hstrict => absurd trivial hstrict

theorem grow_spec (perm : Flags) {newsz : Nat}
    (hbound : pages newsz ≤ trapframePage ∨ pages sz ≤ 65536) :
    (uvmalloc (port ram) root sz newsz perm).wp (rule ram fails) own fun result own' =>
      (newsz < sz ∧ result = sz ∧ own' = own) ∨
      (sz ≤ newsz ∧ result = newsz ∧ ∃ view', UserSpace ram trampoline trapframe root newsz own' view' ∧
        View.Fills (Fresh arch perm) (pages sz) (pages newsz) view view') ∨
      (sz ≤ newsz ∧ result = 0 ∧ (fails false ∨ fails true) ∧
        UserSpace ram trampoline trapframe root sz own' view) := by
  have hlimit : pages newsz ≤ (port ram).limit ∨ pages sz + 65536 < (port ram).limit := by
    change pages newsz ≤ 67108864 ∨ pages sz + 65536 < 67108864
    unfold trapframePage at hbound
    omega
  apply Program.wp_mono rule_monotone _ (@uvmalloc_spec _ _ _ _ ram (port ram) _ _ _ _ _ _ _ _ perm h.space
    (fun v hlow _ => h.within.eq_none hlow) hlimit fun v _ hhigh hnear => kernelPages_of_lt ?_)
  · intro result own' hresult
    rcases hresult with hless | ⟨hge, rfl, view', hspace, hfills⟩ | ⟨hge, hzero, hfails, hspace⟩
    · exact Or.inl hless
    · refine Or.inr (Or.inl ⟨hge, rfl, view', ⟨hspace, h.within.fills (pages_mono hge) hfills, ?_⟩, hfills⟩)
      have hcard := hspace.card_le (Finset.Ico (pages sz) (pages result)) fun v hv => by
        obtain ⟨page, hpage, -⟩ := (hfills v).1 (Finset.mem_Ico.mp hv)
        rw [hpage]
        exact Option.some_ne_none page
      rw [Nat.card_Ico] at hcard
      unfold trapframePage at hbound ⊢
      omega
    · exact Or.inr (Or.inr ⟨hge, hzero, hfails, hspace, h.within, h.le⟩)
  · unfold trapframePage at hbound ⊢
    omega

theorem shrink_spec (newsz : Nat) :
    (uvmdealloc (port ram) root sz newsz).wp (rule ram fails) own fun result own' =>
      result = min sz newsz ∧ UserSpace ram trampoline trapframe root (min sz newsz) own'
        (view.drop (pages newsz) (pages sz)) := by
  have hpages : pages (min sz newsz) = min (pages newsz) (pages sz) := by
    unfold pages pgsize
    omega
  apply Program.wp_mono rule_monotone _ (@uvmdealloc_spec _ _ _ _ ram (port ram) _ _ _ _ _ _ h.space sz newsz
    (h.le.trans (Nat.le_of_lt trapframe_lt)) (fun v _ hv => kernelPages_of_lt (Nat.lt_of_lt_of_le hv h.le))
    fun hstrict => absurd trivial hstrict)
  intro result own' hresult
  refine ⟨hresult.1, hresult.2, ?_, ?_⟩
  · rw [hpages]
    exact h.within.drop
  · rw [hpages]
    exact (Nat.min_le_right _ _).trans h.le

end UserSpace

/-! ### Images -/

def AllUser (view : View Index Word Flags) : Prop := ∀ {v page}, view v = some page → userPage page = true

theorem allUser_of_same {view' : View Index Word Flags} (h : View.SamePages view view')
    (huser : AllUser view) : AllUser view' := by
  intro v page' hpage'
  obtain ⟨page, hpage, -, hflags⟩ := h.exists hpage'
  have hsame := huser hpage
  unfold userPage at hsame ⊢
  rwa [hflags] at hsame

structure Loaded (ram : Ram) (trampoline trapframe root sz : Nat) (own : Owned Index Word)
    (view : View Index Word Flags) : Prop where
  user : UserSpace ram trampoline trapframe root sz own view
  below : view.Below (pages sz)
  all : AllUser view

theorem userPage_fresh {bits : Word} {page : Page Index Word Flags}
    (hfresh : Fresh arch (pteFlags (pteR ||| pteU ||| bits)) page) : userPage page = true := by
  have hflags : page.flags.val &&& pteU = pteU := by
    rw [hfresh.1]
    change ((pteFlags (pteR ||| pteU ||| bits)).val ||| pteV) &&& pteU = pteU
    have hsplit : pteR ||| pteU ||| bits = pteR ||| bits ||| pteU := by
      rw [BitVec.or_assoc, BitVec.or_assoc, BitVec.or_comm pteU]
    rw [BitVec.and_or_distrib_right, pteFlags_and rfl, hsplit, or_and_of_and rfl]
    rfl
  unfold userPage allows
  rw [hflags]
  rfl

namespace Loaded

variable (h : Loaded ram trampoline trapframe root sz own view)
include h

theorem pages_le : pages sz ≤ 65536 := by
  have hcard := h.user.space.card_le (Finset.range (pages sz)) fun v hv =>
    (h.below v).mpr (Finset.mem_range.mp hv)
  rwa [Finset.card_range] at hcard

theorem grow_spec (newsz : Nat) (bits : Word) :
    (uvmalloc (port ram) root sz newsz (pteFlags (pteR ||| pteU ||| bits))).wp (rule ram fails) own
      fun sz1 own' => ∃ view',
        (sz1 = 0 ∧ Loaded ram trampoline trapframe root sz own' view') ∨
        (sz1 ≠ 0 ∧ sz1 = max sz newsz ∧ Loaded ram trampoline trapframe root sz1 own' view') := by
  apply Program.wp_mono rule_monotone _ (h.user.grow_spec _ (Or.inr h.pages_le))
  intro sz1 own' hresult
  rcases hresult with ⟨hlt, rfl, rfl⟩ | ⟨hge, rfl, view', huser, hfills⟩ | ⟨-, rfl, -, huser⟩
  · exact ⟨view, Or.inr ⟨by omega, by omega, h⟩⟩
  · have hall : AllUser view' := by
      intro v page hpage
      by_cases hin : pages sz ≤ v ∧ v < pages sz1
      · obtain ⟨page', hpage', hfresh⟩ := (hfills v).1 hin
        obtain rfl := Option.some.inj (hpage.symm.trans hpage')
        exact userPage_fresh hfresh
      · exact h.all (((hfills v).2 hin).symm.trans hpage)
    have hloaded : Loaded ram trampoline trapframe root sz1 own' view' :=
      ⟨huser, hfills.below h.below (pages_mono hge), hall⟩
    by_cases hzero : sz1 = 0
    · obtain rfl : sz1 = sz := by omega
      exact ⟨view', Or.inl ⟨hzero, hloaded⟩⟩
    · exact ⟨view', Or.inr ⟨hzero, (Nat.max_eq_right hge).symm, hloaded⟩⟩
  · exact ⟨view, Or.inl ⟨rfl, huser, h.below, h.all⟩⟩

theorem walkaddr_mapped {page : Page Index Word Flags} (hpage : view v = some page) :
    (walkaddr root (v * pgsize)).wp (rule ram fails) own fun pa own' =>
      own' = own ∧ pa = page.frame ∧ pa ≠ 0 := by
  obtain ⟨tree, htree⟩ := h.user.space
  have hram := htree.ram (htree.page hpage).2.1
  apply Program.wp_mono rule_monotone _ (h.user.walkaddr_spec v)
  intro pa own' hwalk
  obtain ⟨rfl, rfl⟩ := hwalk
  rw [hpage, Option.filter_some_pos (h.all hpage)]
  exact ⟨rfl, rfl, Nat.ne_of_gt (Nat.lt_of_lt_of_le ram.first_pos hram.1)⟩

theorem store {page : Page Index Word Flags} (hpage : view v = some page) (words : Index → Word) :
    Loaded ram trampoline trapframe root sz (own.set page.frame words)
      (Function.update view v (some { page with words })) := by
  have hsame := View.SamePages.store hpage words
  exact ⟨h.user.store hpage words, hsame.below h.below, allUser_of_same hsame h.all⟩

end Loaded

theorem loadsegFrom_spec {file : List UInt8} {low offset filesz count i : Nat}
    (h : Loaded ram trampoline trapframe root sz own view) (hmapped : low + (i + count) ≤ pages sz) :
    (loadsegFrom file root (low * pgsize) offset filesz count (i * pgsize)).wp (rule ram fails) own
      fun _ own' => ∃ view', Loaded ram trampoline trapframe root sz own' view' := by
  induction count generalizing i own view with
  | zero => exact ⟨view, h⟩
  | succ count ih =>
      obtain ⟨page, hpage⟩ := Option.ne_none_iff_exists'.mp ((h.below (low + i)).mpr (by omega))
      rw [loadsegFrom, Program.wp_bind, ← Nat.add_mul]
      apply Program.wp_mono rule_monotone _ (h.walkaddr_mapped hpage)
      intro pa own' hfound
      obtain ⟨rfl, rfl, hpos⟩ := hfound
      rw [if_neg hpos]
      dsimp only
      generalize (if filesz - i * pgsize < pgsize then filesz - i * pgsize else pgsize) = n
      rw [Program.wp_bind, wp_modify]
      refine ⟨page.words, h.user.wp_load hpage, ?_⟩
      by_cases hshort : (readi file ((offset + i * pgsize) % 4294967296) n).length ≠ n
      · rw [if_pos hshort]
        exact ⟨_, h.store hpage _⟩
      · rw [if_neg hshort, ← Nat.succ_mul]
        exact ih (h.store hpage _) (by omega)

theorem loadseg_spec {file : List UInt8} {low offset filesz : Nat}
    (h : Loaded ram trampoline trapframe root sz own view) (hsz : low * pgsize + filesz ≤ sz) :
    (loadseg file root (low * pgsize) offset filesz).wp (rule ram fails) own
      fun _ own' => ∃ view', Loaded ram trampoline trapframe root sz own' view' := by
  have hmapped : low + (0 + pages filesz) ≤ pages sz := by
    unfold pages pgsize at *
    omega
  have hload : (loadsegFrom file root (low * pgsize) offset filesz (pages filesz) (0 * pgsize)).wp
      (rule ram fails) own _ := loadsegFrom_spec h hmapped
  rwa [Nat.zero_mul] at hload

theorem loadSegments_spec {file : List UInt8} {count off : Nat}
    (h : Loaded ram trampoline trapframe root sz own view) :
    (loadSegments ram file root count off sz).wp (rule ram fails) own fun loaded own' =>
      ∃ view', Loaded ram trampoline trapframe root loaded.2 own' view' := by
  induction count generalizing off sz own view with
  | zero => exact ⟨view, h⟩
  | succ count ih =>
      unfold loadSegments
      dsimp only
      generalize readi file off 56 = ph
      by_cases hshort : ph.length ≠ 56
      · rw [if_pos hshort]
        exact ⟨view, h⟩
      rw [if_neg hshort]
      generalize field ph 4 0 = type, field ph 4 4 = flags, field ph 8 8 = offset, field ph 8 16 = vaddr,
        field ph 8 32 = filesz, field ph 8 40 = memsz
      by_cases hskip : type ≠ 1
      · rw [if_pos hskip]
        exact ih h
      rw [if_neg hskip]
      by_cases hless : memsz < filesz
      · rw [if_pos hless]
        exact ⟨view, h⟩
      rw [if_neg hless]
      by_cases hwrap : (vaddr + memsz) % 18446744073709551616 < vaddr
      · rw [if_pos hwrap]
        exact ⟨view, h⟩
      rw [if_neg hwrap]
      by_cases halign : vaddr % pgsize ≠ 0
      · rw [if_pos halign]
        exact ⟨view, h⟩
      rw [if_neg halign, Program.wp_bind]
      apply Program.wp_mono rule_monotone _ (h.grow_spec _ _)
      intro sz1 own' hgrown
      obtain ⟨view', hgrown⟩ := hgrown
      rcases hgrown with ⟨rfl, hloaded⟩ | ⟨hne, hsz, hloaded⟩
      · rw [if_pos rfl]
        exact ⟨view', hloaded⟩
      obtain ⟨low, rfl⟩ := Nat.dvd_of_mod_eq_zero (not_not.mp halign)
      have hfilesz : filesz % 4294967296 ≤ filesz := Nat.mod_le _ _
      rw [Nat.mul_comm pgsize low] at hsz ⊢
      rw [if_neg hne, Program.wp_bind]
      apply Program.wp_mono rule_monotone _ (loadseg_spec hloaded (by omega))
      intro result own'' hloaded'
      obtain ⟨view'', hloaded'⟩ := hloaded'
      by_cases hfailed : result < 0
      · rw [if_pos hfailed]
        exact ⟨view'', hloaded'⟩
      · rw [if_neg hfailed]
        exact ih hloaded'

theorem uvmclear_spec {page : Page Index Word Flags}
    (h : UserSpace ram trampoline trapframe root sz own view) (hpage : view v = some page) :
    (uvmclear root (v * pgsize)).wp (rule ram fails) own fun _ own' =>
      ∃ flags, allows flags pteU = false ∧ UserSpace ram trampoline trapframe root sz own'
        (Function.update view v (some { page with flags })) := by
  obtain ⟨tree, htree⟩ := h.space
  obtain ⟨hframe, -, hmaps⟩ := htree.page hpage
  obtain ⟨t, hnode⟩ := tree.node_of_append hframe
  obtain ⟨hwords, hleaf⟩ := htree.slot hnode
  have hmaps' : arch.Maps (tree.leaf (arch.path v) &&& ~~~pteU) page.frame
      (pteFlags (tree.leaf (arch.path v) &&& ~~~pteU)) := by
    refine ⟨?_, ?_, rfl⟩
    · have hvalid := hmaps.isMapped
      change valid _ = true at hvalid ⊢
      have hmask : ~~~pteU &&& pteV = pteV := rfl
      unfold valid at hvalid ⊢
      rwa [BitVec.and_assoc, hmask]
    · have haddr : pte2pa (tree.leaf (arch.path v)) = page.frame := hmaps.page
      have hshift : (~~~pteU) >>> 10 = BitVec.allOnes 64 >>> 10 := rfl
      change pte2pa _ = page.frame
      rw [← haddr]
      unfold pte2pa
      rw [BitVec.ushiftRight_and_distrib, hshift, ← BitVec.ushiftRight_and_distrib, BitVec.and_allOnes]
  have hcleared : allows (pteFlags (tree.leaf (arch.path v) &&& ~~~pteU)) pteU = false := by
    have hmask : ~~~pteU &&& pteU = 0 := rfl
    unfold allows
    rw [pteFlags_and rfl, BitVec.and_assoc, hmask, show _ &&& (0 : Word) = 0 from BitVec.and_zero]
    rfl
  rw [uvmclear, Program.wp_bind]
  apply htree.wp_walk (va_lt ((h.lt_trapframe hpage).trans trapframe_lt))
  rw [hnode, Option.map_some, Option.elim_some, Program.wp_bind, wp_read]
  refine ⟨_, hwords, ?_⟩
  rw [hleaf, wp_write]
  refine ⟨_, hwords, _, hcleared, htree.remap hnode hpage hmaps', ?_, h.le⟩
  apply h.within.update (h.within v _)
  rw [hpage]
  exact Option.some_ne_none page

/-! ### The stack -/

/-- The strings are in the page at `base`, with their terminators, each below the one before, and `top` is
above the first. -/
def Strings (words : Index → Word) (base : Nat) :
    (top : Nat) → (argv : List (List UInt8)) → (pointers : List Nat) → Prop
  | _, [], [] => True
  | top, arg :: argv, p :: pointers => base ≤ p ∧ p + (arg.length + 1) ≤ top ∧
      loadBytes words (p - base) (arg.length + 1) = arg ++ [0] ∧ Strings words base p argv pointers
  | _, _, _ => False

/-- The stack as `main` finds it: the strings, and at `sp` the pointers to them and a null pointer. -/
structure Stack (words : Index → Word) (base top sp : Nat) (argv : List (List UInt8))
    (pointers : List Nat) : Prop where
  strings : Strings words base top argv pointers
  aligned : sp % 16 = 0
  base_le : base ≤ sp
  below : sp + 8 * (argv.length + 1) ≤ pointers.getLastD top
  array : loadBytes words (sp - base) (8 * (argv.length + 1)) =
    pointers.flatMap pointer ++ List.replicate 8 0

theorem push_eq {sp n : Nat} (hle : n ≤ sp) (hlt : sp < 18446744073709551616) :
    push sp n = sp - n - (sp - n) % 16 := by
  have hsub : (sp + 18446744073709551616 - n) % 18446744073709551616 = sp - n := by omega
  unfold push
  rw [hsub]

theorem UserSpace.same {page : Page Index Word Flags}
    (h : UserSpace ram trampoline trapframe root sz own view) (hpage : view v = some page) :
    UserSpace ram trampoline trapframe root sz own
      (Function.update view v (some { page with words := page.words })) := by
  rwa [← hpage, Function.update_eq_self]

theorem length_pointer (addr : Nat) : (pointer addr).length = 8 := rfl

theorem pushArgs_spec {argc sp : Nat} {argv : List (List UInt8)} {ustack : List UInt8}
    {page : Page Index Word Flags} (h : UserSpace ram trampoline trapframe root sz own view)
    (hpage : view v = some page) (huser : userPage page = true) (hwrite : allows page.flags pteW = true)
    (hbase : pgsize ≤ v * pgsize) (hlow : v * pgsize ≤ sp) (hhigh : sp ≤ v * pgsize + pgsize)
    (hlimit : v * pgsize + pgsize < 18446744073709551616) (hustack : ustack.length = 8 * argc)
    (hargc : argc + argv.length < 32) (hargs : ∀ arg ∈ argv, arg.length < pgsize) :
    (pushArgs ram root sz (v * pgsize) argv argc sp ustack).wp (rule ram fails) own fun result own' =>
      ∃ words, UserSpace ram trampoline trapframe root sz own'
          (Function.update view v (some { page with words })) ∧
        ∀ pushed, result = some pushed → pushed.1 = argc + argv.length ∧ pushed.2 % 16 = 0 ∧
          v * pgsize ≤ pushed.2 ∧
          (∀ k, sp - v * pgsize ≤ k → k < pgsize → byteAt words k = byteAt page.words k) ∧
          ∃ pointers, Strings words (v * pgsize) sp argv pointers ∧
            pushed.2 + 8 * (argc + argv.length + 1) ≤ pointers.getLastD sp ∧
            loadBytes words (pushed.2 - v * pgsize) (8 * (argc + argv.length + 1)) =
              ustack ++ pointers.flatMap pointer ++ List.replicate 8 0 := by
  have hsize : pgsize = 4096 := rfl
  induction argv generalizing argc sp ustack own view page with
  | nil =>
      have hn : (argc + 1) * 8 ≤ sp := by
        rw [List.length_nil] at hargc
        omega
      unfold pushArgs
      dsimp only
      rw [push_eq hn (by omega)]
      generalize hsp : sp - (argc + 1) * 8 - (sp - (argc + 1) * 8) % 16 = sp'
      by_cases hfull : sp' < v * pgsize
      · rw [if_pos hfull]
        exact ⟨page.words, h.same hpage, fun pushed hpushed => by cases hpushed⟩
      obtain ⟨off, hoff⟩ := Nat.exists_eq_add_of_le (Nat.not_lt.mp hfull)
      have hlength : (ustack ++ List.replicate 8 (0 : UInt8)).length = 8 * (argc + 1) := by
        rw [List.length_append, List.length_replicate, hustack]
        omega
      have hroom : off + (ustack ++ List.replicate 8 (0 : UInt8)).length ≤ pgsize := by omega
      have hsrc : ustack ++ List.replicate 8 (0 : UInt8) ≠ [] := by
        apply List.ne_nil_of_length_pos
        omega
      rw [if_neg hfull, Program.wp_bind, hoff]
      apply Program.wp_mono rule_monotone _ (h.copyout_page hpage huser hwrite hsrc hroom)
      intro copied own' hcopied
      obtain ⟨rfl, hspace⟩ := hcopied
      rw [if_neg (by decide)]
      refine ⟨_, hspace, fun pushed hpushed => ?_⟩
      obtain rfl := Option.some.inj hpushed
      refine ⟨rfl, ?_, Nat.le_add_right _ _, fun k hk hk' => ?_, [], trivial, ?_, ?_⟩
      · rw [← hoff]
        omega
      · rw [hsize] at hroom hk'
        rw [byteAt_storeBytes hroom hk', if_neg (by omega)]
      · change v * pgsize + off + 8 * (argc + 0 + 1) ≤ sp
        omega
      · rw [hsize] at hroom
        have hcount : 8 * (argc + ([] : List (List UInt8)).length + 1) =
            (ustack ++ List.replicate 8 (0 : UInt8)).length := hlength.symm
        rw [hcount, Nat.add_sub_cancel_left, loadBytes_storeBytes hroom, List.flatMap_nil, List.append_nil]
  | cons arg argv ih =>
      have harg := hargs arg List.mem_cons_self
      rw [List.length_cons] at hargc
      unfold pushArgs
      dsimp only
      rw [push_eq (by omega) (by omega)]
      generalize hsp : sp - (arg.length + 1) - (sp - (arg.length + 1)) % 16 = sp'
      by_cases hfull : sp' < v * pgsize
      · rw [if_pos hfull]
        exact ⟨page.words, h.same hpage, fun pushed hpushed => by cases hpushed⟩
      obtain ⟨off, hoff⟩ := Nat.exists_eq_add_of_le (Nat.not_lt.mp hfull)
      have hlength : (arg ++ [(0 : UInt8)]).length = arg.length + 1 := List.length_append
      have hroom : off + (arg ++ [(0 : UInt8)]).length ≤ pgsize := by omega
      have hsrc : arg ++ [(0 : UInt8)] ≠ [] := List.append_ne_nil_of_right_ne_nil _ (List.cons_ne_nil _ _)
      rw [if_neg hfull, Program.wp_bind, hoff]
      apply Program.wp_mono rule_monotone _ (h.copyout_page hpage huser hwrite hsrc hroom)
      intro copied own' hcopied
      obtain ⟨rfl, hspace⟩ := hcopied
      rw [if_neg (by decide)]
      have hustack' : (ustack ++ pointer (v * pgsize + off)).length = 8 * (argc + 1) := by
        rw [List.length_append, length_pointer, hustack]
        omega
      apply Program.wp_mono rule_monotone _ (ih hspace (Function.update_self ..) huser hwrite
        (Nat.le_add_right _ off) (by omega) hustack' (by omega)
        fun other hother => hargs other (List.mem_cons_of_mem _ hother))
      intro result own'' hresult
      obtain ⟨words, hspace', hpushed⟩ := hresult
      rw [Function.update_idem] at hspace'
      refine ⟨words, hspace', fun pushed heq => ?_⟩
      obtain ⟨hcount, haligned, hbase', hkept, pointers, hstrings, hbelow, harray⟩ := hpushed pushed heq
      rw [Nat.add_sub_cancel_left] at hkept
      have hsum : argc + (arg :: argv).length = argc + 1 + argv.length := by
        rw [List.length_cons]
        omega
      rw [hsum]
      refine ⟨hcount, haligned, hbase', fun k hk hk' => ?_, (v * pgsize + off) :: pointers,
        ⟨Nat.le_add_right _ off, by omega, ?_, hstrings⟩, ?_, ?_⟩
      · rw [hkept k (by omega) hk']
        dsimp only
        rw [hsize] at hroom hk'
        rw [byteAt_storeBytes hroom hk', if_neg (by omega)]
      · rw [hsize] at hroom
        rw [Nat.add_sub_cancel_left, ← hlength]
        calc loadBytes words off (arg ++ [0]).length
            = loadBytes (storeBytes page.words off (arg ++ [0])) off (arg ++ [0]).length := by
              rw [loadBytes_eq_map, loadBytes_eq_map]
              refine List.map_congr_left fun k hk => ?_
              have hlt := List.mem_range.mp hk
              exact hkept (off + k) (Nat.le_add_right off k) (by omega)
          _ = arg ++ [0] := loadBytes_storeBytes hroom
      · rw [List.getLastD_cons]
        exact hbelow
      · rw [List.flatMap_cons, ← List.append_assoc]
        exact harray

theorem bad_spec (h : UserSpace ram trampoline trapframe root sz own view) :
    (bad ram root sz).wp (rule ram fails) own fun image own' =>
      image = none ∧ own' = Heap.empty := by
  rw [bad, Program.wp_bind]
  apply Program.wp_mono rule_monotone _ h.free_spec
  exact fun _ _ hempty => ⟨rfl, hempty⟩

/-- An image as `kexec` leaves it: the last page is the stack, and the one below it is not for the user. -/
structure Ready (view : View Index Word Flags) (new : Image) (argv : List (List UInt8)) (v : Nat)
    (guard stack : Page Index Word Flags) (pointers : List Nat) : Prop where
  argc : new.argc = argv.length
  sz : new.sz = (v + 2) * pgsize
  below : view v = some guard
  guarded : userPage guard = false
  last : view (v + 1) = some stack
  user : userPage stack = true
  args : Stack stack.words ((v + 1) * pgsize) new.sz new.sp argv pointers

theorem stack_fresh {page : Page Index Word Flags}
    (hfresh : Fresh arch (pteFlags (pteR ||| pteU ||| pteW)) page) :
    userPage page = true ∧ allows page.flags pteW = true := by
  refine ⟨userPage_fresh hfresh, ?_⟩
  unfold allows
  rw [hfresh.1]
  rfl

theorem buildImage_spec (file : List UInt8) {argv : List (List UInt8)} (trapframe : Nat)
    (hargv : argv.length < 32) (hargs : ∀ arg ∈ argv, arg.length < pgsize) :
    (buildImage ram trampoline file argv trapframe).wp (rule ram fails) Heap.empty fun image own' =>
      (image = none ∧ own' = Heap.empty) ∨
      ∃ new view v guard stack pointers, image = some new ∧
        UserSpace ram trampoline trapframe new.pagetable new.sz own' view ∧
        Ready view new argv v guard stack pointers := by
  unfold buildImage
  dsimp only
  generalize readi file 0 64 = elf
  by_cases hshort : elf.length ≠ 64
  · rw [if_pos hshort]
    exact Or.inl ⟨rfl, rfl⟩
  rw [if_neg hshort]
  generalize field elf 4 0 = magic, field elf 2 56 = phnum, field elf 8 32 = phoff
  by_cases hmagic : magic ≠ elfMagic
  · rw [if_pos hmagic]
    exact Or.inl ⟨rfl, rfl⟩
  rw [if_neg hmagic, Program.wp_bind]
  apply Program.wp_mono rule_monotone _ (procPagetable_spec trapframe)
  intro pagetable own' hmade
  rcases hmade with ⟨rfl, rfl, -⟩ | ⟨root, rfl, huser⟩
  · exact Or.inl ⟨rfl, rfl⟩
  rw [Option.elim_some, Program.wp_bind]
  have hmade : Loaded ram trampoline trapframe root 0 own' (fun _ => none) := by
    refine ⟨huser, fun v => ?_, fun hpage => ?_⟩
    · exact iff_of_false (not_not_intro rfl) fun hlt => Nat.not_lt_zero _ (lt_pages_iff.mp hlt)
    · cases hpage
  apply Program.wp_mono rule_monotone _ (loadSegments_spec hmade)
  intro loaded own₁ hloaded
  obtain ⟨view₁, hloaded⟩ := hloaded
  have hfailed : ∀ {own sz view}, UserSpace ram trampoline trapframe root sz own view →
      (bad ram root sz).wp (rule ram fails) own fun image own' =>
        (image = none ∧ own' = Heap.empty) ∨
        ∃ new view v guard stack pointers, image = some new ∧
          UserSpace ram trampoline trapframe new.pagetable new.sz own' view ∧
          Ready view new argv v guard stack pointers := fun h =>
    Program.wp_mono rule_monotone (fun _ _ hempty => Or.inl hempty) (bad_spec h)
  by_cases hbad : loaded.1 = false
  · rw [if_pos hbad]
    exact hfailed hloaded.user
  rw [if_neg hbad, Program.wp_bind]
  have hround : pages (pgroundup loaded.2) = pages loaded.2 := pages_mul _
  have hfew := hloaded.pages_le
  have hrounded : UserSpace ram trampoline trapframe root (pgroundup loaded.2) own₁ view₁ := by
    obtain ⟨hspace, hwithin, hle⟩ := hloaded.user
    rw [← hround] at hwithin hle
    exact ⟨hspace, hwithin, hle⟩
  generalize hv : pages loaded.2 = v at hround hfew
  have hsz : pgroundup loaded.2 + 2 * pgsize = (v + 2) * pgsize := by
    rw [pgroundup_eq, hv, Nat.add_mul]
  have hgrow : pgroundup loaded.2 ≤ (v + 2) * pgsize := hsz ▸ Nat.le_add_right _ _
  rw [hsz]
  apply Program.wp_mono rule_monotone _ (hrounded.grow_spec _ (Or.inr (hround.symm ▸ hfew)))
  intro sz1 own₂ hgrown
  rcases hgrown with ⟨hlt, -⟩ | ⟨-, hsz1, view₂, hgrown, hfills⟩ | ⟨-, hsz1, -, hgrown⟩
  · exact absurd hlt (Nat.not_lt.mpr hgrow)
  swap
  · rw [if_pos hsz1]
    exact hfailed hgrown
  subst hsz1
  have htop : (v + 1) * pgsize + pgsize = (v + 2) * pgsize := (Nat.succ_mul (v + 1) pgsize).symm
  have hbase : (v + 2) * pgsize - pgsize = (v + 1) * pgsize := by
    rw [← htop, Nat.add_sub_cancel]
  have hbottom : (v + 2) * pgsize - 2 * pgsize = v * pgsize := by
    rw [Nat.add_mul, Nat.add_sub_cancel]
  have hne : (v + 2) * pgsize ≠ 0 := Nat.ne_of_gt (Nat.mul_pos (Nat.succ_pos (v + 1)) (Nat.succ_pos 4095))
  rw [if_neg hne, Program.wp_bind, hbottom, hbase]
  rw [pages_mul, hround] at hfills
  obtain ⟨guard, hguard, -⟩ := (hfills v).1 ⟨Nat.le_refl v, Nat.lt_add_of_pos_right (Nat.succ_pos 1)⟩
  obtain ⟨stack, hstack, hfresh⟩ := (hfills (v + 1)).1 ⟨Nat.le_succ v, Nat.lt_succ_self (v + 1)⟩
  obtain ⟨huser, hwrite⟩ := stack_fresh hfresh
  apply Program.wp_mono rule_monotone _ (uvmclear_spec hgrown hguard)
  intro _ own₃ hcleared
  obtain ⟨flags, hflags, hcleared⟩ := hcleared
  have hstack' : Function.update view₂ v (some { guard with flags }) (v + 1) = some stack := by
    rw [Function.update_of_ne (Nat.succ_ne_self v), hstack]
  have hsize : pgsize = 4096 := rfl
  have hle : (v + 1) * pgsize ≤ (v + 2) * pgsize := Nat.mul_le_mul_right pgsize (Nat.le_succ (v + 1))
  have hlimit : (v + 1) * pgsize + pgsize < 18446744073709551616 := by
    rw [htop, hsize]
    omega
  have hfirst : pgsize ≤ (v + 1) * pgsize := Nat.le_mul_of_pos_left pgsize (Nat.succ_pos v)
  have hcount : 0 + argv.length < 32 := by rwa [Nat.zero_add]
  rw [Program.wp_bind]
  apply Program.wp_mono rule_monotone _ (pushArgs_spec hcleared hstack' huser hwrite
    hfirst hle (Nat.le_of_eq htop.symm) hlimit List.length_nil hcount hargs)
  intro pushed own₄ hpushed
  obtain ⟨words, hspace, hpushed⟩ := hpushed
  cases pushed with
  | none => exact hfailed hspace
  | some pushed =>
      obtain ⟨hargc, haligned, hle, -, pointers, hstrings, hbelow, harray⟩ := hpushed pushed rfl
      rw [Nat.zero_add] at hargc hbelow harray
      rw [List.nil_append] at harray
      refine Or.inr ⟨_, _, v, { guard with flags }, { stack with words }, pointers, rfl, hspace, hargc, rfl,
        ?_, hflags, Function.update_self .., huser, hstrings, haligned, hle, hbelow, harray⟩
      rw [Function.update_of_ne (Nat.ne_of_lt (Nat.lt_succ_self v)), Function.update_self]

end Spec

end Xv6.Vm.Riscv64
