import Xv6.Lib.WordBytes
import Xv6.Vm.ExecLegacy
import Xv6.Vm.Exhaustion

/-!
# Loading a program on the Raspberry Pi 1

`exec` of `exec-legacy.c` with the functions of `vm-arm-pi1.c`. It looks neither at where a segment starts nor at whether its
end is above `2^32`, and leaves that to `loaduvm`, which panics. Where both are right, and there is always a page for a page
table, it loads the program or leaves everything as it was.
-/

namespace Xv6.Vm.ArmPi1

attribute [local instance] neZero_index

/-! ### The code -/

/-- `PTX_AP(U_AP)`. -/
def apUser : Attr := 0xAA0

def lookup (pgdir va : Nat) : Code Index Word (Option (Nat × Index)) := do
  panicIf (pdx va ≥ npdentries) "pgdir"
  walkpgdir pgdir va uvmpdxattr false

/-- The loop of `loaduvm`. -/
def loadFrom (file : List UInt8) (pgdir addr offset sz : Nat) : (count i : Nat) → Code Index Word Int
  | 0, _ => pure 0
  | count + 1, i => do
      let pte ← lookup pgdir (ExecLegacy.uint (addr + i))
      pte.elim (panic "loaduvm: address should exist") fun pte => do
        let word ← read pte.1 pte.2
        let n := if sz - i < pgsize then sz - i else pgsize
        let bytes := readi file (ExecLegacy.uint (offset + i)) n
        modify (pteAddr word) fun words => WordBytes.storeBytes 4 words 0 bytes
        if bytes.length ≠ n then pure (-1) else loadFrom file pgdir addr offset sz count (i + pgsize)

/-- Load a program segment into `pgdir`. `addr` must be page-aligned and the pages from `addr` to `addr + sz` must already be
mapped. -/
def loaduvm (file : List UInt8) (pgdir addr offset sz : Nat) : Code Index Word Int := do
  panicIf (addr % pgsize ≠ 0) "loaduvm: addr must be page aligned"
  panicIf (ExecLegacy.uint (addr + sz) > userbound) "loaduvm: user address space exceeds the allowed space (> 0x80000000)"
  loadFrom file pgdir addr offset sz (pages sz) 0

/-- Clear `PTE_U` on a page. Used to create an inaccessible page beneath the user stack. -/
def clearpteu (pgdir uva : Nat) : Code Index Word Unit := do
  let pte ← lookup pgdir uva
  pte.elim (panic "clearpteu") fun pte => do
    let word ← read pte.1 pte.2
    write pte.1 pte.2 (word &&& ~~~apUser.setWidth 32)

def uva2ka (pgdir uva : Nat) : Code Index Word (Option Nat) := do
  let pte ← lookup pgdir uva
  pte.elim (panic "null pte") fun pte => do
    let word ← read pte.1 pte.2
    if word = 0 then pure none
    else if word &&& apUser.setWidth 32 = 0 then pure none
    else pure (some (pteAddr word))

/-- The loop of `copyout`. Each round copies at least one byte. -/
def copyoutFrom (pgdir : Nat) : (rounds va : Nat) → List UInt8 → Code Index Word Int
  | 0, _, _ => pure 0
  | rounds + 1, va, src =>
      if src.length = 0 then pure 0
      else do
        let va0 := pgrounddown va
        let pa0 ← uva2ka pgdir va0
        pa0.elim (pure (-1)) fun pa0 => do
          let n := min (pgsize - (va - va0)) src.length
          modify pa0 fun words => WordBytes.storeBytes 4 words (va - va0) (src.take n)
          copyoutFrom pgdir rounds (ExecLegacy.uint (va0 + pgsize)) (src.drop n)

/-- Copy bytes to user address `va` in page table `pgdir`. -/
def copyout (pgdir va : Nat) (src : List UInt8) : Code Index Word Int := copyoutFrom pgdir src.length va src

/-- What `exec-legacy.c` calls. -/
def kernel (ram : Ram) : ExecLegacy.Kernel Index Word where
  elf := ExecLegacy.elf32
  setupkvm := setupkvm
  allocuvm := allocuvm ram
  loaduvm := loaduvm
  clearpteu := clearpteu
  copyout := copyout
  freevm := freevm ram
  -- fake return PC
  frame argc argv := [0xffffffff, argc, argv]
  unset := pure none

/-- What of `struct proc` and of its trapframe `exec` sets. -/
structure ExecProc where
  pagetable : Nat
  sz : Nat
  pc : Nat
  sp : Nat
  r0 : Nat
  r1 : Nat

def exec (ram : Ram) (file : Option (List UInt8)) (argv : List (List UInt8)) (p : ExecProc) :
    Code Index Word (Int × ExecProc) := do
  let image ← ExecLegacy.exec (kernel ram) file argv p.pagetable
  image.elim (pure (-1, p)) fun image => pure (0, ⟨image.pagetable, image.sz, image.entry, image.sp, image.argc, image.argv⟩)

/-! ### Entries -/

variable {ram : Ram} {fails : Bool → Prop} {tree : arch.Tree} {pgdir sz : Nat} {own : Owned Index Word}
  {view : View Index Word Attr} {v : Nat}

theorem pteAddr_eq_shift (word : Word) : pteAddr word = (word >>> 12).toNat :=
  ((BitVec.toNat_ushiftRight word 12).trans (Nat.shiftRight_eq_div_pow word.toNat 12)).symm

theorem pteAddr_clear (word : Word) : pteAddr (word &&& ~~~apUser.setWidth 32) = pteAddr word := by
  have hshift : (~~~apUser.setWidth 32 : Word) >>> 12 = BitVec.allOnes 32 >>> 12 := rfl
  rw [pteAddr_eq_shift, pteAddr_eq_shift, BitVec.ushiftRight_and_distrib, hshift, ← BitVec.ushiftRight_and_distrib,
    BitVec.and_allOnes]

theorem pteFlags_clear (word : Word) : pteFlags (word &&& ~~~apUser.setWidth 32) &&& apUser = 0 := by
  have hflags : pteFlags (word &&& ~~~apUser.setWidth 32) = pteFlags word &&& ~~~apUser := BitVec.setWidth_and
  have hnone : ~~~apUser &&& apUser = 0 := rfl
  rw [hflags, BitVec.and_assoc, hnone]
  exact BitVec.and_zero

theorem and_apUser (word : Word) : word &&& apUser.setWidth 32 = 0 ↔ pteFlags word &&& apUser = 0 := by
  have hflags : pteFlags (word &&& apUser.setWidth 32) = pteFlags word &&& apUser := BitVec.setWidth_and
  constructor
  · intro h
    rw [← hflags, h]
    rfl
  · intro h
    have hmask : word &&& apUser.setWidth 32 = (pteFlags word &&& apUser).setWidth 32 := by
      rw [BitVec.setWidth_and]
      ext k hk
      simp only [pteFlags, BitVec.getElem_and, BitVec.getElem_setWidth, BitVec.getLsbD_setWidth]
      by_cases hlow : k < 12
      · simp [hlow, BitVec.getLsbD_eq_getElem hk]
      · simp [BitVec.getLsbD_of_ge apUser k (Nat.not_lt.mp hlow)]
    rw [hmask, h]
    rfl

/-! ### Pages -/

/-- A page directory with the pages of `[0, PGROUNDUP(sz))`. -/
def Process (ram : Ram) (pgdir sz : Nat) (own : Owned Index Word) : Prop :=
  ∃ view, Space arch ram (fun _ => False) (fun _ => 0) pgdir own view ∧ view.Below (pages sz)

def Guarded (ram : Ram) (pgdir sz : Nat) (own : Owned Index Word) : Prop :=
  ∃ view, Space arch ram (fun _ => False) (fun _ => 0) pgdir own view ∧ view.Below (pages sz) ∧
    ∀ page, view (pages sz - 2) = some page → page.flags &&& apUser = 0

theorem Process.sz_le (h : Process ram pgdir sz own) : sz ≤ 65536 * pgsize := by
  obtain ⟨view, hspace, hbelow⟩ := h
  have hcard := hspace.card_le (Finset.range (pages sz)) fun v hv => (hbelow v).mpr (Finset.mem_range.mp hv)
  rw [Finset.card_range] at hcard
  by_contra hlt
  have hpages : 65536 < pages sz := lt_pages_iff.mpr (Nat.not_le.mp hlt)
  omega

theorem wp_lookup (h : Layout arch ram (fun _ => False) (fun _ => 0) tree pgdir own view) {page : Page Index Word Attr}
    (hpage : view v = some page) {Q : Option (Nat × Index) → Owned Index Word → Prop}
    (hpost : ∀ t, tree.node (arch.upper v) = some t → own t = some (tree.entry (arch.upper v)) →
      tree.entry (arch.upper v) (arch.lower v) = tree.leaf (arch.path v) → Q (some (t, arch.lower v)) own) :
    (lookup pgdir (v * pgsize)).wp (rule ram fails) own Q := by
  have hlt : v < 262144 := h.lt hpage
  have hpdx : pdx (v * pgsize) < npdentries := by
    unfold pdx pgsize npdentries
    omega
  obtain ⟨hframe, -, -⟩ := h.page hpage
  obtain ⟨t, hnode⟩ := tree.node_of_append hframe
  obtain ⟨hwords, hleaf⟩ := h.slot hnode
  rw [lookup, Program.wp_bind, wp_panicIf]
  refine ⟨Nat.not_le.mpr hpdx, wp_walkpgdir_lookup h v ?_⟩
  rw [hnode]
  exact hpost t hnode hwords hleaf

theorem store_spec (h : Layout arch ram (fun _ => False) (fun _ => 0) tree pgdir own view) {page : Page Index Word Attr}
    (hpage : view v = some page) (change : (Index → Word) → Index → Word) :
    (modify page.frame change).wp (rule ram fails) own fun _ own' => ∃ view',
      Space arch ram (fun _ => False) (fun _ => 0) pgdir own' view' ∧ View.SamePages view view' := by
  obtain ⟨-, hwords, -⟩ := h.page hpage
  rw [wp_modify]
  exact ⟨page.words, hwords, _, ⟨tree, h.store hpage⟩, View.SamePages.store hpage _⟩

theorem loadFrom_spec {file : List UInt8} {low offset n count i : Nat}
    (h : Space arch ram (fun _ => False) (fun _ => 0) pgdir own view) (hmapped : ∀ k < i + count, view (low + k) ≠ none) :
    (loadFrom file pgdir (low * pgsize) offset n count (i * pgsize)).wp (rule ram fails) own fun _ own' => ∃ view',
      Space arch ram (fun _ => False) (fun _ => 0) pgdir own' view' ∧ View.SamePages view view' := by
  induction count generalizing i own view with
  | zero => exact ⟨view, h, View.SamePages.refl view⟩
  | succ count ih =>
      obtain ⟨tree, htree⟩ := h
      obtain ⟨page, hpage⟩ := Option.ne_none_iff_exists'.mp (hmapped i (by omega))
      have hlt : low + i < 262144 := htree.lt hpage
      have haddr : ExecLegacy.uint (low * pgsize + i * pgsize) = (low + i) * pgsize := by
        rw [← Nat.add_mul]
        apply ExecLegacy.uint_of_lt
        unfold pgsize
        omega
      obtain ⟨-, -, hmaps⟩ := htree.page hpage
      have hframe : pteAddr (tree.leaf (arch.path (low + i))) = page.frame := hmaps.page
      rw [loadFrom, Program.wp_bind, haddr]
      refine wp_lookup htree hpage fun t _ htable hleaf => ?_
      rw [Option.elim_some, Program.wp_bind, wp_read]
      refine ⟨_, htable, ?_⟩
      rw [hleaf, hframe]
      dsimp only
      generalize (if n - i * pgsize < pgsize then n - i * pgsize else pgsize) = m
      rw [Program.wp_bind]
      apply Program.wp_mono rule_monotone _ (store_spec htree hpage _)
      rintro _ own' ⟨view', hspace, hsame⟩
      split
      · exact ⟨view', hspace, hsame⟩
      · rw [← Nat.succ_mul]
        apply Program.wp_mono rule_monotone _ (ih hspace fun k hk => mt (hsame.eq_none_iff _).mp (hmapped k (by omega)))
        rintro _ own'' ⟨view'', hspace', hsame'⟩
        exact ⟨view'', hspace', hsame.trans hsame'⟩

theorem loaduvm_spec {low n : Nat} (h : Process ram pgdir sz own) (hn : low * pgsize + n ≤ sz) (file : List UInt8)
    (offset : Nat) :
    (loaduvm file pgdir (low * pgsize) offset n).wp (rule ram fails) own fun _ own' => Process ram pgdir sz own' := by
  have hsz := h.sz_le
  obtain ⟨view, hspace, hbelow⟩ := h
  have hbound : low * pgsize + n ≤ userbound := by
    refine hn.trans (hsz.trans ?_)
    decide
  have huint : ExecLegacy.uint (low * pgsize + n) = low * pgsize + n :=
    ExecLegacy.uint_of_lt (Nat.lt_of_le_of_lt hbound (by decide))
  have hmapped : ∀ k < 0 + pages n, view (low + k) ≠ none := by
    intro k hk
    apply (hbelow _).mpr
    rw [Nat.zero_add, lt_pages_iff] at hk
    rw [lt_pages_iff, Nat.add_mul]
    omega
  rw [loaduvm, Program.wp_bind, wp_panicIf]
  refine ⟨not_not_intro (Nat.mul_mod_left low pgsize), ?_⟩
  rw [Program.wp_bind, wp_panicIf, huint]
  refine ⟨Nat.not_lt.mpr hbound, ?_⟩
  have hload : (loadFrom file pgdir (low * pgsize) offset n (pages n) (0 * pgsize)).wp (rule ram fails) own _ :=
    loadFrom_spec hspace hmapped
  rw [Nat.zero_mul] at hload
  apply Program.wp_mono rule_monotone _ hload
  rintro _ own' ⟨view', hspace', hsame⟩
  exact ⟨view', hspace', hsame.below hbelow⟩

theorem clearpteu_spec (h : Process ram pgdir ((v + 2) * pgsize) own) :
    (clearpteu pgdir (v * pgsize)).wp (rule ram fails) own fun _ own' => Guarded ram pgdir ((v + 2) * pgsize) own' := by
  obtain ⟨view, ⟨tree, htree⟩, hbelow⟩ := h
  have hpages : pages ((v + 2) * pgsize) = v + 2 := pages_mul _
  obtain ⟨page, hpage⟩ := Option.ne_none_iff_exists'.mp ((hbelow v).mpr (by omega))
  obtain ⟨-, hmem, hmaps⟩ := htree.page hpage
  have hframe : pteAddr (tree.leaf (arch.path v)) = page.frame := hmaps.page
  have hmaps' : arch.Maps (tree.leaf (arch.path v) &&& ~~~apUser.setWidth 32) page.frame
      (pteFlags (tree.leaf (arch.path v) &&& ~~~apUser.setWidth 32)) := by
    refine ⟨bne_iff_ne.mpr fun hzero => ?_, (pteAddr_clear _).trans hframe, rfl⟩
    have hpos := Nat.lt_of_lt_of_le ram.first_pos (htree.ram hmem).1
    rw [← hframe, ← pteAddr_clear, hzero] at hpos
    exact absurd hpos (by decide)
  rw [clearpteu, Program.wp_bind]
  refine wp_lookup htree hpage fun t hnode hwords hleaf => ?_
  rw [Option.elim_some, Program.wp_bind, wp_read]
  refine ⟨_, hwords, ?_⟩
  rw [hleaf, wp_write]
  refine ⟨_, hwords, _, htree.remap hnode hpage hmaps', fun w => ?_, fun page' hpage' => ?_⟩
  · by_cases hw : w = v
    · rw [hw, Function.update_self]
      exact iff_of_true (Option.some_ne_none _) (by omega)
    · rw [Function.update_of_ne hw]
      exact hbelow w
  · rw [hpages, Nat.add_sub_cancel, Function.update_self] at hpage'
    rw [← Option.some.inj hpage']
    exact pteFlags_clear _

theorem uva2ka_spec (h : Layout arch ram (fun _ => False) (fun _ => 0) tree pgdir own view) {page : Page Index Word Attr}
    (hpage : view v = some page) :
    (uva2ka pgdir (v * pgsize)).wp (rule ram fails) own fun pa own' =>
      own' = own ∧ pa = if page.flags &&& apUser = 0 then none else some page.frame := by
  obtain ⟨-, hmem, hmaps⟩ := h.page hpage
  have hframe : pteAddr (tree.leaf (arch.path v)) = page.frame := hmaps.page
  have hflags : pteFlags (tree.leaf (arch.path v)) = page.flags := hmaps.flags
  rw [uva2ka, Program.wp_bind]
  refine wp_lookup h hpage fun t _ hwords hleaf => ?_
  rw [Option.elim_some, Program.wp_bind, wp_read]
  refine ⟨_, hwords, ?_⟩
  rw [hleaf, if_neg (bne_iff_ne.mp hmaps.isMapped), hframe]
  by_cases huser : page.flags &&& apUser = 0
  · rw [if_pos ((and_apUser _).mpr (hflags.symm ▸ huser)), if_pos huser]
    exact ⟨rfl, rfl⟩
  · rw [if_neg (mt (and_apUser _).mp (hflags.symm ▸ huser)), if_neg huser]
    exact ⟨rfl, rfl⟩

theorem copyout_spec {va : Nat} {src : List UInt8} (h : Guarded ram pgdir ((v + 2) * pgsize) own) (hlow : v * pgsize ≤ va)
    (hhigh : va + src.length ≤ (v + 2) * pgsize) (hpos : 0 < src.length) :
    (copyout pgdir va src).wp (rule ram fails) own fun copied own' =>
      Guarded ram pgdir ((v + 2) * pgsize) own' ∧ (0 ≤ copied → (v + 1) * pgsize ≤ va) := by
  obtain ⟨view, ⟨tree, htree⟩, hbelow, hguard⟩ := h
  have hpages : pages ((v + 2) * pgsize) = v + 2 := pages_mul _
  obtain ⟨rounds, hrounds⟩ := Nat.exists_eq_add_one_of_ne_zero (Nat.ne_of_gt hpos)
  have hpage : va / pgsize < v + 2 := Nat.div_lt_of_lt_mul (by rw [Nat.mul_comm]; omega)
  have hpage' : v ≤ va / pgsize := (Nat.le_div_iff_mul_le (Nat.succ_pos 4095)).mpr hlow
  obtain ⟨page, hview⟩ := Option.ne_none_iff_exists'.mp ((hbelow (va / pgsize)).mpr (by omega))
  rw [copyout, hrounds, copyoutFrom, if_neg (Nat.ne_of_gt hpos)]
  dsimp only
  rw [Program.wp_bind, pgrounddown]
  apply Program.wp_mono rule_monotone _ (uva2ka_spec htree hview)
  rintro pa own' ⟨rfl, rfl⟩
  by_cases huser : page.flags &&& apUser = 0
  · rw [if_pos huser]
    exact ⟨⟨view, ⟨tree, htree⟩, hbelow, hguard⟩, fun hle => absurd hle (by decide)⟩
  have hstack : va / pgsize = v + 1 := by
    by_contra hne
    have hself : va / pgsize = v := by omega
    apply huser
    apply hguard page
    rw [hpages, Nat.add_sub_cancel, ← hself]
    exact hview
  have hin : (v + 1) * pgsize ≤ va := (Nat.le_div_iff_mul_le (Nat.succ_pos 4095)).mp (Nat.le_of_eq hstack.symm)
  have hall : min (pgsize - (va - (v + 1) * pgsize)) src.length = src.length := by
    apply Nat.min_eq_right
    rw [Nat.add_mul] at hhigh hin ⊢
    omega
  have hdone : ∀ rounds va, copyoutFrom pgdir rounds va [] = pure 0 := by
    intro rounds va
    cases rounds <;> rfl
  rw [if_neg huser, Option.elim_some, Program.wp_bind, hstack, hall, List.drop_length]
  apply Program.wp_mono rule_monotone _ (store_spec htree hview _)
  rintro _ own' ⟨view', hspace, hsame⟩
  rw [hdone]
  refine ⟨⟨view', hspace, hsame.below hbelow, fun guard hguard' => ?_⟩, fun _ => hin⟩
  obtain ⟨guard', hguard'', -, hflags⟩ := hsame.exists hguard'
  rw [← hflags]
  exact hguard guard' hguard''

theorem kernel_keeps : ExecLegacy.Keeps (kernel ram) ram (· = false) userbound (Process ram) (Guarded ram) where
  bound_le := by decide
  frame_le _ _ := le_rfl
  lt h := Nat.lt_of_le_of_lt h.sz_le (by decide)
  img := fun h => by
    obtain ⟨view, hspace, hbelow, -⟩ := h
    exact ⟨view, hspace, hbelow⟩
  roundup := fun h => by
    obtain ⟨view, hspace, hbelow⟩ := h
    refine ⟨view, hspace, ?_⟩
    rw [pgroundup_eq, pages_mul]
    exact hbelow
  setupkvm := by
    change setupkvm.wp _ _ _
    rw [setupkvm, Program.wp_bind, wp_kalloc]
    refine ⟨fun _ => Or.inl ⟨rfl, rfl⟩, fun root words hram _ => ?_⟩
    rw [Option.elim_some, Program.wp_bind, wp_fill]
    refine ⟨words, Heap.set_self, ?_⟩
    rw [Heap.set_set]
    refine Or.inr ⟨root, rfl, _, Space.create hram, fun v => ?_⟩
    exact iff_of_false (not_not_intro rfl) fun hlt => Nat.not_lt_zero _ (lt_pages_iff.mp hlt)
  allocuvm := fun {pgdir sz own} h newsz => by
    have hlt : sz < userbound := Nat.lt_of_le_of_lt h.sz_le (by decide)
    obtain ⟨view, hspace, hbelow⟩ := h
    apply Program.wp_mono rule_monotone _ (allocuvm_spec hspace fun v hlow _ => hbelow.eq_none hlow)
    rintro sz1 own' (⟨rfl, hle, hbound, view', hspace', hfills⟩ | ⟨rfl, hless, rfl⟩ | ⟨rfl, hspace'⟩)
    · have himg : Process ram pgdir sz1 own' := ⟨view', hspace', hfills.below hbelow (pages_mono hle)⟩
      by_cases hzero : sz1 = 0
      · obtain rfl : sz = sz1 := by omega
        exact Or.inl ⟨hzero, himg⟩
      · exact Or.inr ⟨hzero, hbound, (Nat.max_eq_right hle).symm, himg⟩
    · exact Or.inr ⟨by omega, hless.trans hlt, (Nat.max_eq_left (Nat.le_of_lt hless)).symm, view, hspace, hbelow⟩
    · exact Or.inl ⟨rfl, view, hspace', hbelow⟩
  loaduvm h hn file offset := loaduvm_spec h hn file offset
  clearpteu h := clearpteu_spec h
  copyout h hlow hhigh hpos := copyout_spec h hlow hhigh hpos
  freevm := fun h => by
    obtain ⟨view, hspace, hbelow⟩ := h
    exact freevm_spec hspace fun w w' hle hnone => hbelow.eq_none (by
      by_contra hlt
      exact (hbelow w).mpr (by omega) hnone)
  unset := ⟨rfl, rfl⟩

theorem exec_spec {file : Option (List UInt8)} {argv : List (List UInt8)} {p : ExecProc}
    (h : Process ram p.pagetable p.sz own)
    (hloads : ∀ content ∈ file, ExecLegacy.Loadable ExecLegacy.elf32 userbound content)
    (hargs : ∀ arg ∈ argv, arg.length < pgsize) :
    (exec ram file argv p).wp (rule ram (· = false)) own fun result own' =>
      (result.1 = -1 ∧ result.2 = p ∧ own' = own) ∨
      (result.1 = 0 ∧ Process ram result.2.pagetable result.2.sz own') := by
  rw [exec, Program.wp_bind]
  apply Program.wp_mono rule_monotone _ (ExecLegacy.exec_spec kernel_keeps hloads hargs h)
  rintro image own' (⟨rfl, rfl⟩ | ⟨new, rfl, hnew⟩)
  · exact Or.inl ⟨rfl, rfl, rfl⟩
  · exact Or.inr ⟨rfl, hnew⟩

/-! ### Runs -/

section Runs

variable {ι : Type} {pool : Nat → Prop} {others junk : Nat → Index → Word} {who : ι} {memory : Memory Index Word}

def program (vaddr filesz memsz : Nat) : List UInt8 :=
  List.flatten [
    [0x7F, 0x45, 0x4C, 0x46], List.replicate 24 0, ExecLegacy.word 52, List.replicate 12 0, [1, 0], List.replicate 6 0,
    [1, 0, vaddr, 0, filesz, memsz, 0, 0].flatMap ExecLegacy.word]

end Runs

end Xv6.Vm.ArmPi1
