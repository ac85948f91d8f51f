import Xv6.Vm.Contents
import Xv6.Vm.Loongarch

/-!
# Building an image on loongarch

`exec` builds the new image of a process next to the old one. It does not look whether the image ends below the page
of the trapframe, and `fits` says of a file that it does.
-/

namespace Xv6.Vm.Loongarch

open Arm64 (Word Index pa2pte pte2pa)

/-! ### The code -/

section Code

def walkaddr (pagetable va : Nat) : Code Index Word Nat :=
  if va ≥ maxva then pure 0
  else do
    let pte ← walk arch maxva false pagetable va
    pte.elim (pure 0) fun pte => do
      let word ← read pte.1 pte.2
      if valid word = false then pure 0
      else if word &&& ptePlv = 0 then pure 0
      else pure (pte2pa word)

/-- Mark a PTE invalid for user access. Used by `exec` for the user stack guard page. -/
def uvmclear (pagetable va : Nat) : Code Index Word Unit := do
  let pte ← walk arch maxva false pagetable va
  pte.elim (panic "uvmclear") fun pte => do
    let word ← read pte.1 pte.2
    write pte.1 pte.2 (word &&& ~~~ptePlv)

/-- The loop of `arch_copyout`. Each round copies at least one byte. -/
def copyoutFrom (pagetable : Nat) : (rounds dstva : Nat) → List UInt8 → Code Index Word Int
  | 0, _, _ => pure 0
  | rounds + 1, dstva, src =>
      if src.length = 0 then pure 0
      else do
        let va0 := pgrounddown dstva
        let pa0 ← walkaddr pagetable va0
        if pa0 = 0 then pure (-1)
        else do
          let n := min (pgsize - (dstva - va0)) src.length
          modify pa0 fun words => storeBytes words (dstva - va0) (src.take n)
          copyoutFrom pagetable rounds (va0 + pgsize) (src.drop n)

def archCopyout (pagetable dstva : Nat) (src : List UInt8) : Code Index Word Int :=
  copyoutFrom pagetable src.length dstva src

/-- How much of a segment of `sz` bytes is in the page at `i`. -/
def chunk (sz i : Nat) : Nat := if sz - i < pgsize then sz - i else pgsize

/-- The loop of `loadseg`. -/
def loadsegFrom (file : List UInt8) (pagetable va offset sz : Nat) :
    (count i : Nat) → Code Index Word Int
  | 0, _ => pure 0
  | count + 1, i => do
      let pa ← walkaddr pagetable (va + i)
      if pa = 0 then panic "loadseg: address should exist"
      else do
        let bytes := readi file ((offset + i) % 4294967296) (chunk sz i)
        modify pa fun words => storeBytes words 0 bytes
        if bytes.length ≠ chunk sz i then pure (-1)
        else loadsegFrom file pagetable va offset sz count (i + pgsize)

/-- Load a program segment into `pagetable` at virtual address `va`. `va` must be page-aligned and the
pages from `va` to `va + sz` must already be mapped. -/
def loadseg (file : List UInt8) (pagetable va offset sz : Nat) : Code Index Word Int :=
  loadsegFrom file pagetable va offset sz (pages sz) 0

def maxarg : Nat := 32

/-- The flags that `uvmalloc` maps pages with. -/
def userFlags : Flags := ⟨pteP ||| pteW ||| ptePlv ||| pteMat ||| pteD, rfl, rfl⟩

def kernelFlags : Flags := ⟨pteNx ||| pteP ||| pteW ||| pteMat ||| pteD, rfl, rfl⟩

/-- `TRAPFRAME`. -/
def trapframeVa : Nat := trapframePage * pgsize

variable (ram : Ram)

def procPagetable (trapframe : Nat) : Code Index Word (Option Nat) := do
  let pagetable ← uvmcreate (port ram)
  pagetable.elim (pure none) fun pagetable => do
    let mapped ← mappages pagetable trapframeVa pgsize trapframe kernelFlags
    if mapped < 0 then do
      uvmfree (port ram) pagetable 0
      pure none
    else pure (some pagetable)

def procFreepagetable (pagetable sz : Nat) : Code Index Word Unit := do
  uvmunmap ram pagetable trapframeVa 1 false
  uvmfree (port ram) pagetable sz

/-- The loop of `exec` over the program headers: did all go well, and the size then. -/
def loadSegments (file : List UInt8) (pagetable : Nat) :
    (count off sz : Nat) → Code Index Word (Bool × Nat)
  | 0, _, sz => pure (true, sz)
  | count + 1, off, sz =>
      let ph := readi file off 56
      let vaddr := field ph 8 16
      let filesz := field ph 8 32
      let memsz := field ph 8 40
      if ph.length ≠ 56 then pure (false, sz)
      else if field ph 4 0 ≠ 1 then
        loadSegments file pagetable count ((off + 56) % 4294967296) sz
      else if memsz < filesz then pure (false, sz)
      else if (vaddr + memsz) % 18446744073709551616 < vaddr then pure (false, sz)
      else do
        let sz1 ← uvmalloc (port ram) pagetable sz (vaddr + memsz) userFlags
        if sz1 = 0 then pure (false, sz)
        else if vaddr % pgsize ≠ 0 then pure (false, sz1)
        else do
          let loaded ← loadseg file pagetable vaddr (field ph 8 8 % 4294967296) (filesz % 4294967296)
          if loaded < 0 then pure (false, sz1)
          else loadSegments file pagetable count ((off + 56) % 4294967296) sz1

def pointer (addr : Nat) : List UInt8 := (List.range 8).map fun k => UInt8.ofNat (addr / 256 ^ k)

/-- Push argument strings, and the array of `argv[]` pointers: `argc`, and the stack pointer. -/
def pushArgs (pagetable stackbase : Nat) : (argv : List (List UInt8)) → (argc sp : Nat) →
    (ustack : List UInt8) → Code Index Word (Option (Nat × Nat))
  | [], argc, sp, ustack =>
      let sp := push sp ((argc + 1) * 8)
      if sp < stackbase then pure none
      else do
        let copied ← archCopyout pagetable sp (ustack ++ List.replicate 8 0)
        if copied < 0 then pure none else pure (some (argc, sp))
  | arg :: argv, argc, sp, ustack =>
      let sp := push sp (arg.length + 1)
      if argc ≥ maxarg then pure none
      else if sp < stackbase then pure none
      else do
        let copied ← archCopyout pagetable sp (arg ++ [0])
        if copied < 0 then pure none
        else pushArgs pagetable stackbase argv (argc + 1) sp (ustack ++ pointer sp)

structure Image where
  pagetable : Nat
  sz : Nat
  argc : Nat
  sp : Nat
  entry : Nat

/-- What `exec` does at `bad`, with a page table. -/
def bad (pagetable sz : Nat) : Code Index Word (Option Image) := do
  procFreepagetable ram pagetable sz
  pure none

/-- The part of `exec` that makes the stack. -/
def buildStack (argv : List (List UInt8)) (entry pagetable sz : Nat) : Code Index Word (Option Image) := do
  let sz1 ← uvmalloc (port ram) pagetable sz (sz + 2 * pgsize) userFlags
  if sz1 = 0 then bad ram pagetable sz
  else do
    uvmclear pagetable (sz1 - 2 * pgsize)
    let pushed ← pushArgs pagetable (sz1 - pgsize) argv 0 sz1 []
    pushed.elim (bad ram pagetable sz1) fun pushed =>
      pure (some ⟨pagetable, sz1, pushed.1, pushed.2, entry⟩)

/-- The part of `exec` that makes the new image, for a process with this trapframe. -/
def buildImage (file : List UInt8) (argv : List (List UInt8)) (trapframe : Nat) :
    Code Index Word (Option Image) :=
  let elf := readi file 0 64
  if elf.length ≠ 64 then pure none
  else if field elf 4 0 ≠ elfMagic then pure none
  else do
    let pagetable ← procPagetable ram trapframe
    pagetable.elim (pure none) fun pagetable => do
      let loaded ← loadSegments ram file pagetable (field elf 2 56) (field elf 8 32 % 4294967296) 0
      if loaded.1 = false then bad ram pagetable loaded.2
      else buildStack ram argv (field elf 8 24) pagetable (pgroundup loaded.2)

end Code

/-! ### Which images fit -/

def hasSegment (file : List UInt8) (offset sz : Nat) : Bool :=
  (List.range (pages sz)).all fun k =>
    (readi file ((offset + k * pgsize) % 4294967296) (chunk sz (k * pgsize))).length = chunk sz (k * pgsize)

/-- As far as `exec` reads the program headers, no segment ends beyond `TRAPFRAME`, and two pages are left for the stack. -/
def segmentsFit (file : List UInt8) : (count off sz : Nat) → Bool
  | 0, _, sz => pages sz + 2 ≤ trapframePage
  | count + 1, off, sz =>
      let ph := readi file off 56
      let vaddr := field ph 8 16
      let filesz := field ph 8 32
      let memsz := field ph 8 40
      if ph.length ≠ 56 then true
      else if field ph 4 0 ≠ 1 then segmentsFit file count ((off + 56) % 4294967296) sz
      else if memsz < filesz then true
      else if (vaddr + memsz) % 18446744073709551616 < vaddr then true
      else if vaddr + memsz > trapframeVa then false
      else if max sz (vaddr + memsz) = 0 ∨ vaddr % pgsize ≠ 0 then true
      else if hasSegment file (field ph 8 8 % 4294967296) (filesz % 4294967296) = false then true
      else segmentsFit file count ((off + 56) % 4294967296) (max sz (vaddr + memsz))

/-- The image of a program ends below `TRAPFRAME`, as far as `exec` gets with it. -/
def fits (file : List UInt8) : Bool :=
  let elf := readi file 0 64
  if elf.length ≠ 64 then true
  else if field elf 4 0 ≠ elfMagic then true
  else segmentsFit file (field elf 2 56) (field elf 8 32 % 4294967296) 0

/-! ### User memory -/

section Spec

variable {ram : Ram} {fails : Bool → Prop} {trapframe root sz v : Nat} {own : Owned Index Word}
  {view view' : View Index Word Flags}

def kernelPages (trapframe : Nat) : Nat → Word :=
  Function.update (fun _ => 0) trapframePage (leafEntry trapframe kernelFlags)

theorem kernelPages_of_lt (hv : v < trapframePage) : kernelPages trapframe v = 0 :=
  Function.update_of_ne (Nat.ne_of_lt hv) ..

theorem kernelPages_and_ptePlv (v : Nat) : kernelPages trapframe v &&& ptePlv = 0 := by
  unfold kernelPages
  by_cases hv : v = trapframePage
  · rw [hv, Function.update_self, leafEntry_and rfl]
    rfl
  · rw [Function.update_of_ne hv]
    rfl

theorem trapframe_lt : trapframePage < 256 := Nat.lt_succ_self _

/-- **The memory of a process.** Exactly the pages below its size are mapped for it, and these are all below the page of
the trapframe, which has an entry of its own. -/
structure UserSpace (ram : Ram) (trapframe root sz : Nat) (own : Owned Index Word) (view : View Index Word Flags) :
    Prop where
  space : Space arch ram (fun _ => False) (kernelPages trapframe) root own view
  below : view.Below (pages sz)
  le : sz ≤ trapframeVa

def user (page : Page Index Word Flags) : Bool := page.flags.val &&& ptePlv != 0

def AllUser (view : View Index Word Flags) : Prop :=
  ∀ v page, view v = some page → user page = true

theorem allUser_of_same (h : View.SamePages view view') (huser : AllUser view) : AllUser view' := by
  intro v page' hpage'
  obtain ⟨page, hpage, -, hflags⟩ := h.exists hpage'
  have hsame := huser v page hpage
  unfold user at hsame ⊢
  rwa [hflags] at hsame

theorem pages_le_trapframe (hsz : sz ≤ trapframeVa) : pages sz ≤ trapframePage :=
  (pages_mono hsz).trans (Nat.le_of_eq (pages_mul trapframePage))

theorem allUser_of_fills {high : Nat} (huser : AllUser view)
    (hfills : View.Fills (Fresh arch userFlags) (pages sz) high view view') : AllUser view' := by
  intro v page hpage
  by_cases hin : pages sz ≤ v ∧ v < high
  · obtain ⟨page', hpage', hflags, -⟩ := (hfills v).1 hin
    obtain rfl := Option.some.inj (hpage.symm.trans hpage')
    unfold user
    rw [hflags]
    change ((sealedFlags userFlags).val &&& ptePlv != 0) = true
    decide
  · exact huser v page (((hfills v).2 hin).symm.trans hpage)

theorem maps_and {page : Page Index Word Flags} {word : Word} (hmaps : arch.Maps word page.frame page.flags) :
    word &&& ptePlv = page.flags.val &&& ptePlv := by
  have hflags : pteFlags word = page.flags := hmaps.flags
  have hmask : uintMask &&& ptePlv = ptePlv := rfl
  have hp : pteP &&& ptePlv = 0 := rfl
  rw [← hflags]
  change _ = (word &&& uintMask ||| pteP) &&& ptePlv
  rw [BitVec.and_or_distrib_right, BitVec.and_assoc, hmask, hp]
  exact BitVec.or_zero.symm

namespace UserSpace

variable (h : UserSpace ram trapframe root sz own view)
include h

theorem pages_le : pages sz ≤ trapframePage := pages_le_trapframe h.le

theorem lt_trapframe {page : Page Index Word Flags} (hpage : view v = some page) : v < trapframePage := by
  apply Nat.lt_of_lt_of_le _ h.pages_le
  apply (h.below v).mp
  rw [hpage]
  exact Option.some_ne_none _

theorem same {own' : Owned Index Word} (hspace : Space arch ram (fun _ => False) (kernelPages trapframe) root own' view')
    (hsame : View.SamePages view view') : UserSpace ram trapframe root sz own' view' :=
  ⟨hspace, hsame.below h.below, h.le⟩

theorem walkaddr_spec (va : Nat) :
    (walkaddr root va).wp (rule ram fails) own fun pa own' =>
      own' = own ∧ pa = ((view (va / pgsize)).filter user).elim 0 Page.frame := by
  have hround : va / pgsize * pgsize ≤ va := Nat.div_mul_le_self va pgsize
  unfold walkaddr
  by_cases hva : va ≥ maxva
  · have hv : pages sz ≤ va / pgsize := by
      have hle := h.pages_le
      unfold trapframePage at hle
      unfold maxva at hva
      unfold pgsize at *
      omega
    rw [if_pos hva, h.below.eq_none hv]
    exact ⟨rfl, rfl⟩
  obtain ⟨tree, htree⟩ := h.space
  have hlimit : va / pgsize < 256 := by
    unfold maxva at hva
    unfold pgsize
    omega
  have hwalk : walk arch maxva false root va =
      (panicIf (va ≥ maxva) "walk" >>= fun _ =>
        walkFrom arch false (arch.upper (va / pgsize)) root >>= fun table =>
          pure (table.map fun table => (table, arch.lower (va / pgsize)))) := rfl
  rw [if_neg hva, Program.wp_bind, hwalk, Program.wp_bind, wp_panicIf, Program.wp_bind]
  refine ⟨hva, htree.wp_walk_lookup _ ?_⟩
  rw [Program.wp_pure]
  generalize va / pgsize = v at hlimit
  cases hnode : tree.node (arch.upper v) with
  | none =>
      rw [htree.hole_of_table_eq_none hnode]
      exact ⟨rfl, rfl⟩
  | some t =>
      obtain ⟨hwords, hleaf⟩ := htree.slot hnode
      rw [Option.map_some, Option.elim_some, Program.wp_bind, wp_read]
      refine ⟨_, hwords, ?_⟩
      rw [hleaf]
      cases hview : view v with
      | none =>
          rw [htree.hole (lt_limit hlimit) hview, kernelPages_and_ptePlv, if_pos rfl, ite_self]
          exact ⟨rfl, rfl⟩
      | some page =>
          obtain ⟨-, -, hmaps⟩ := htree.page hview
          have hvalid := (Bool.and_eq_true_iff.mp hmaps.isMapped).1
          have haddr : pte2pa (tree.leaf (arch.path v)) = page.frame := hmaps.page
          rw [hvalid, if_neg Bool.noConfusion, maps_and hmaps, haddr]
          by_cases hzero : page.flags.val &&& ptePlv = 0
          · have hnot : user page = false := by
              unfold user
              rw [hzero]
              rfl
            rw [if_pos hzero, Option.filter_some_neg hnot]
            exact ⟨rfl, rfl⟩
          · have hyes : user page = true := bne_iff_ne.mpr hzero
            rw [if_neg hzero, Option.filter_some_pos hyes]
            exact ⟨rfl, rfl⟩

theorem walkaddr_page (va : Nat) :
    (walkaddr root va).wp (rule ram fails) own fun pa own' =>
      own' = own ∧ (pa = 0 ∨ ∃ v page, view v = some page ∧ pa = page.frame) := by
  apply Program.wp_mono rule_monotone _ (h.walkaddr_spec va)
  intro pa own' hfound
  obtain ⟨rfl, rfl⟩ := hfound
  refine ⟨rfl, ?_⟩
  cases hpage : (view (va / pgsize)).filter user with
  | none => exact Or.inl rfl
  | some page => exact Or.inr ⟨_, page, (Option.filter_eq_some_iff.mp hpage).1, rfl⟩

theorem frame_ne_zero {page : Page Index Word Flags} (hpage : view v = some page) : page.frame ≠ 0 := by
  obtain ⟨tree, htree⟩ := h.space
  obtain ⟨-, hwords, -⟩ := htree.page hpage
  exact Nat.ne_of_gt (Nat.lt_of_lt_of_le ram.first_pos (htree.ram hwords).1)

theorem store_spec {page : Page Index Word Flags} (hpage : view v = some page)
    (change : (Index → Word) → Index → Word) :
    (modify page.frame change).wp (rule ram fails) own fun _ own' => ∃ view',
      UserSpace ram trapframe root sz own' view' ∧ View.SamePages view view' := by
  obtain ⟨tree, htree⟩ := h.space
  obtain ⟨-, hwords, -⟩ := htree.page hpage
  rw [wp_modify]
  have hsame := View.SamePages.store hpage (change page.words)
  exact ⟨page.words, hwords, _, h.same ⟨tree, htree.store hpage⟩ hsame, hsame⟩

theorem copyoutFrom_spec {rounds dstva : Nat} {src : List UInt8} :
    (copyoutFrom root rounds dstva src).wp (rule ram fails) own fun _ own' => ∃ view',
      UserSpace ram trapframe root sz own' view' ∧ View.SamePages view view' := by
  induction rounds generalizing dstva src own view with
  | zero => exact ⟨view, h, View.SamePages.refl view⟩
  | succ rounds ih =>
      unfold copyoutFrom
      by_cases hempty : src.length = 0
      · rw [if_pos hempty]
        exact ⟨view, h, View.SamePages.refl view⟩
      rw [if_neg hempty]
      dsimp only
      rw [Program.wp_bind]
      apply Program.wp_mono rule_monotone _ (h.walkaddr_page _)
      intro pa own' hfound
      obtain ⟨rfl, hfound⟩ := hfound
      by_cases hzero : pa = 0
      · rw [if_pos hzero]
        exact ⟨view, h, View.SamePages.refl view⟩
      obtain ⟨v, page, hpage, rfl⟩ := hfound.resolve_left hzero
      rw [if_neg hzero, Program.wp_bind]
      apply Program.wp_mono rule_monotone _ (h.store_spec hpage _)
      intro _ own'' hstored
      obtain ⟨view', hspace, hsame⟩ := hstored
      apply Program.wp_mono rule_monotone _ (ih hspace)
      intro _ own''' hcopied
      obtain ⟨view'', hspace', hsame'⟩ := hcopied
      exact ⟨view'', hspace', hsame.trans hsame'⟩

theorem loadsegFrom_spec {file : List UInt8} {low offset n count i : Nat} (huser : AllUser view)
    (hmapped : ∀ k < i + count, view (low + k) ≠ none) :
    (loadsegFrom file root (low * pgsize) offset n count (i * pgsize)).wp (rule ram fails) own fun loaded own' =>
      (∃ view', UserSpace ram trapframe root sz own' view' ∧ View.SamePages view view') ∧
        (0 ≤ loaded ↔ ∀ k, i ≤ k → k < i + count →
          (readi file ((offset + k * pgsize) % 4294967296) (chunk n (k * pgsize))).length = chunk n (k * pgsize)) := by
  induction count generalizing i own view with
  | zero => exact ⟨⟨view, h, View.SamePages.refl view⟩, fun _ k hlow hhigh => by omega, fun _ => Int.le_refl 0⟩
  | succ count ih =>
      obtain ⟨page, hpage⟩ := Option.ne_none_iff_exists'.mp (hmapped i (by omega))
      rw [loadsegFrom, Program.wp_bind, ← Nat.add_mul]
      apply Program.wp_mono rule_monotone _ (h.walkaddr_spec _)
      intro pa own' hfound
      obtain ⟨rfl, rfl⟩ := hfound
      rw [mul_div_pgsize, hpage, Option.filter_some_pos (huser _ _ hpage), Option.elim_some, if_neg (h.frame_ne_zero hpage)]
      dsimp only
      rw [Program.wp_bind]
      apply Program.wp_mono rule_monotone _ (h.store_spec hpage _)
      intro _ own'' hstored
      obtain ⟨view', hspace, hsame⟩ := hstored
      by_cases hshort : (readi file ((offset + i * pgsize) % 4294967296) (chunk n (i * pgsize))).length ≠ chunk n (i * pgsize)
      · rw [if_pos hshort]
        refine ⟨⟨view', hspace, hsame⟩, fun hloaded => absurd hloaded (by decide), fun hread => ?_⟩
        exact absurd (hread i (Nat.le_refl i) (by omega)) hshort
      · have hmapped' : ∀ k < i + 1 + count, view' (low + k) ≠ none := by
          intro k hk hnone
          exact hmapped k (by omega) ((hsame.eq_none_iff _).mp hnone)
        rw [if_neg hshort, ← Nat.succ_mul]
        apply Program.wp_mono rule_monotone _ (ih hspace (allUser_of_same hsame huser) hmapped')
        intro loaded own''' hloaded
        obtain ⟨⟨view'', hspace', hsame'⟩, hread⟩ := hloaded
        refine ⟨⟨view'', hspace', hsame.trans hsame'⟩, fun hgood k hlow hhigh => ?_, fun hall => ?_⟩
        · by_cases hk : k = i
          · rw [hk]
            exact not_not.mp hshort
          · exact hread.mp hgood k (by omega) (by omega)
        · exact hread.mpr fun k hlow hhigh => hall k (by omega) (by omega)

end UserSpace

/-! ### Page tables of processes -/

theorem uvmfree_empty (h : Space arch ram (fun _ => False) (fun _ => 0) root own (fun _ => none)) (hsz : pages sz = 0) :
    (uvmfree (port ram) root sz).wp (rule ram fails) own fun _ own' => own' = Heap.empty := by
  refine @uvmfree_spec _ _ _ _ ram (port ram) _ _ _ _ _ _ _ h ?_ (fun _ _ => rfl) (fun _ _ => rfl) fun _ v hv => ?_
  · rw [hsz]
    exact Nat.zero_le _
  · rw [hsz] at hv
    exact absurd hv (Nat.not_lt_zero v)

-- To free a page table of size 0 is a closed program, which nothing should evaluate.
attribute [local irreducible] uvmfree

theorem procPagetable_spec (trapframe : Nat) :
    (procPagetable ram trapframe).wp (rule ram fails) Heap.empty fun pagetable own' =>
      (pagetable = none ∧ (fails false ∨ fails true) ∧ own' = Heap.empty) ∨
      ∃ root, pagetable = some root ∧ UserSpace ram trapframe root 0 own' (fun _ => none) := by
  rw [procPagetable, Program.wp_bind, uvmcreate, Program.wp_bind, wp_kalloc]
  refine ⟨fun hfails => Or.inl ⟨rfl, Or.inl hfails, rfl⟩, fun root words hram _ => ?_⟩
  rw [Option.elim_some, Program.wp_bind, wp_fill]
  refine ⟨words, Heap.set_self, ?_⟩
  rw [Heap.set_set, Program.wp_pure, Option.elim_some, Program.wp_bind]
  have hcreated : Space arch ram (fun _ => False) (fun _ => 0) root (Heap.empty.set root fun _ => 0)
      (fun _ => none) := Space.create hram
  apply Program.wp_mono rule_monotone _ (mappages_fixed hcreated trapframe_lt rfl rfl trapframe kernelFlags)
  intro mapped own' hmapped
  rcases hmapped with ⟨rfl, hspace⟩ | ⟨rfl, hfails, hspace⟩
  · rw [if_neg (by decide)]
    refine Or.inr ⟨root, rfl, hspace, fun v => ?_, Nat.zero_le _⟩
    exact iff_of_false (not_not_intro rfl) fun hlt => Nat.not_lt_zero _ (lt_pages_iff.mp hlt)
  · rw [if_pos (by decide), Program.wp_bind]
    apply Program.wp_mono rule_monotone _ (uvmfree_empty hspace (by decide))
    exact fun _ _ hempty => Or.inl ⟨rfl, Or.inr hfails, hempty⟩

namespace UserSpace

variable (h : UserSpace ram trapframe root sz own view)
include h

theorem free_spec :
    (procFreepagetable ram root sz).wp (rule ram fails) own fun _ own' => own' = Heap.empty := by
  have hentry : kernelPages trapframe trapframePage = leafEntry trapframe kernelFlags := Function.update_self ..
  have hmapped : isMapped (kernelPages trapframe trapframePage) = true := hentry ▸ isMapped_leafEntry _ _
  have hzero : ∀ v, Function.update (kernelPages trapframe) trapframePage 0 v = 0 := by
    intro v
    by_cases hv : v = trapframePage
    · rw [hv, Function.update_self]
    · rw [Function.update_of_ne hv, kernelPages, Function.update_of_ne hv]
  rw [procFreepagetable, Program.wp_bind]
  apply Program.wp_mono rule_monotone _ (uvmunmap_fixed h.space trapframe_lt (h.below.eq_none h.pages_le) hmapped)
  intro _ own' hspace
  exact @uvmfree_spec _ _ _ _ ram (port ram) _ _ _ _ _ _ _ hspace (h.pages_le.trans (Nat.le_of_lt trapframe_lt))
    (fun v _ => hzero v) (fun v => h.below.eq_none) fun _ v hv => (h.below v).mpr hv

theorem grow_spec {newsz : Nat} (hbound : newsz ≤ trapframeVa) :
    (uvmalloc (port ram) root sz newsz userFlags).wp (rule ram fails) own fun result own' =>
      (result = 0 ∧ (max sz newsz = 0 ∨ fails false ∨ fails true) ∧ UserSpace ram trapframe root sz own' view) ∨
      (result ≠ 0 ∧ result = max sz newsz ∧ ∃ view', UserSpace ram trapframe root result own' view' ∧
        View.Fills (Fresh arch userFlags) (pages sz) (pages result) view view') := by
  have hle := pages_le_trapframe hbound
  apply Program.wp_mono rule_monotone _ (@uvmalloc_spec _ _ _ _ ram (port ram) _ _ _ _ _ _ _ _ userFlags h.space
    (fun v hlow _ => h.below.eq_none hlow) (Or.inl (hle.trans (Nat.le_of_lt trapframe_lt))) fun v _ hhigh _ =>
      kernelPages_of_lt (Nat.lt_of_lt_of_le hhigh hle))
  intro result own' hresult
  rcases hresult with ⟨hless, rfl, rfl⟩ | ⟨hge, rfl, view', hspace, hfills⟩ | ⟨hge, rfl, hfails, hspace⟩
  · exact Or.inr ⟨by omega, by omega, view, h, View.Fills.refl⟩
  · have huser : UserSpace ram trapframe root result own' view' :=
      ⟨hspace, hfills.below h.below (pages_mono hge), hbound⟩
    by_cases hzero : result = 0
    · obtain rfl : result = sz := by omega
      have hsame : view' = view := by
        funext v
        exact (hfills v).2 fun hin => absurd hin.1 (Nat.not_le.mpr hin.2)
      exact Or.inl ⟨hzero, Or.inl (by omega), hsame ▸ huser⟩
    · exact Or.inr ⟨hzero, (Nat.max_eq_right hge).symm, view', huser, hfills⟩
  · exact Or.inl ⟨rfl, Or.inr hfails, hspace, h.below, h.le⟩

theorem shrink_spec (newsz : Nat) :
    (uvmdealloc (port ram) root sz newsz).wp (rule ram fails) own fun result own' =>
      result = min sz newsz ∧ UserSpace ram trapframe root (min sz newsz) own' (view.drop (pages newsz) (pages sz)) := by
  have hpages : pages (min sz newsz) = min (pages newsz) (pages sz) := by
    unfold pages pgsize
    omega
  apply Program.wp_mono rule_monotone _ (@uvmdealloc_spec _ _ _ _ ram (port ram) _ _ _ _ _ _ h.space sz newsz
    (h.pages_le.trans (Nat.le_of_lt trapframe_lt)) (fun v _ hv => kernelPages_of_lt (Nat.lt_of_lt_of_le hv h.pages_le))
    fun _ v _ hv => (h.below v).mpr hv)
  intro result own' hresult
  obtain ⟨rfl, hspace⟩ := hresult
  refine ⟨rfl, hspace, ?_, (Nat.min_le_left _ _).trans h.le⟩
  rw [hpages]
  exact h.below.drop

theorem loadseg_spec {file : List UInt8} {low offset count : Nat} (huser : AllUser view)
    (hsz : low * pgsize + count ≤ sz) :
    (loadseg file root (low * pgsize) offset count).wp (rule ram fails) own fun loaded own' =>
      (∃ view', UserSpace ram trapframe root sz own' view' ∧ AllUser view') ∧
        (0 ≤ loaded ↔ hasSegment file offset count = true) := by
  have hmapped : ∀ k < 0 + pages count, view (low + k) ≠ none := by
    intro k hk
    apply (h.below _).mpr
    rw [Nat.zero_add, lt_pages_iff] at hk
    rw [lt_pages_iff, Nat.add_mul]
    omega
  have hload : (loadsegFrom file root (low * pgsize) offset count (pages count) (0 * pgsize)).wp
      (rule ram fails) own _ := h.loadsegFrom_spec huser hmapped
  rw [Nat.zero_mul] at hload
  apply Program.wp_mono rule_monotone _ hload
  intro loaded own' hloaded
  obtain ⟨⟨view', hspace, hsame⟩, hread⟩ := hloaded
  refine ⟨⟨view', hspace, allUser_of_same hsame huser⟩, hread.trans ⟨fun hall => ?_, fun hall k _ hk => ?_⟩⟩
  · refine List.all_eq_true.mpr fun k hk => decide_eq_true ?_
    exact hall k (Nat.zero_le k) (by rw [Nat.zero_add]; exact List.mem_range.mp hk)
  · rw [Nat.zero_add] at hk
    exact of_decide_eq_true (List.all_eq_true.mp hall k (List.mem_range.mpr hk))

theorem uvmclear_spec (hmapped : view v ≠ none) :
    (uvmclear root (v * pgsize)).wp (rule ram fails) own fun _ own' => ∃ view',
      UserSpace ram trapframe root sz own' view' := by
  obtain ⟨page, hpage⟩ := Option.ne_none_iff_exists'.mp hmapped
  have hlt := (h.lt_trapframe hpage).trans trapframe_lt
  obtain ⟨tree, htree⟩ := h.space
  obtain ⟨hframe, -, hmaps⟩ := htree.page hpage
  obtain ⟨t, hnode⟩ := tree.node_of_append hframe
  obtain ⟨hwords, hleaf⟩ := htree.slot hnode
  have hclear : ∀ {word mask : Word}, ~~~ptePlv &&& mask = mask → word &&& ~~~ptePlv &&& mask = word &&& mask := by
    intro word mask hmask
    rw [BitVec.and_assoc, hmask]
  have hmaps' : arch.Maps (tree.leaf (arch.path v) &&& ~~~ptePlv) page.frame
      (pteFlags (tree.leaf (arch.path v) &&& ~~~ptePlv)) := by
    refine ⟨?_, ?_, rfl⟩
    · have hbits := hmaps.isMapped
      change isMapped _ = true at hbits ⊢
      unfold isMapped valid at hbits ⊢
      rwa [hclear rfl, hclear rfl]
    · have haddr : pte2pa (tree.leaf (arch.path v)) = page.frame := hmaps.page
      change pte2pa _ = page.frame
      unfold pte2pa at haddr ⊢
      rwa [hclear rfl]
  rw [uvmclear, Program.wp_bind]
  apply htree.wp_walk (va_lt hlt)
  rw [hnode, Option.map_some, Option.elim_some, Program.wp_bind, wp_read]
  refine ⟨_, hwords, ?_⟩
  rw [hleaf, wp_write]
  refine ⟨_, hwords, _, htree.remap hnode hpage hmaps', fun w => ?_, h.le⟩
  by_cases hw : w = v
  · rw [hw, Function.update_self]
    exact iff_of_true (Option.some_ne_none _) ((h.below v).mp hmapped)
  · rw [Function.update_of_ne hw]
    exact h.below w

theorem pushArgs_spec {stackbase argc sp : Nat} {argv : List (List UInt8)} {ustack : List UInt8} :
    (pushArgs root stackbase argv argc sp ustack).wp (rule ram fails) own fun _ own' => ∃ view',
      UserSpace ram trapframe root sz own' view' := by
  induction argv generalizing argc sp ustack own view with
  | nil =>
      unfold pushArgs
      dsimp only
      by_cases hlow : push sp ((argc + 1) * 8) < stackbase
      · rw [if_pos hlow]
        exact ⟨view, h⟩
      rw [if_neg hlow, Program.wp_bind]
      apply Program.wp_mono rule_monotone _ h.copyoutFrom_spec
      intro copied own' hcopied
      obtain ⟨view', hspace, -⟩ := hcopied
      by_cases hfailed : copied < 0
      · rw [if_pos hfailed]
        exact ⟨view', hspace⟩
      · rw [if_neg hfailed]
        exact ⟨view', hspace⟩
  | cons arg argv ih =>
      unfold pushArgs
      dsimp only
      by_cases hmany : argc ≥ maxarg
      · rw [if_pos hmany]
        exact ⟨view, h⟩
      rw [if_neg hmany]
      by_cases hlow : push sp (arg.length + 1) < stackbase
      · rw [if_pos hlow]
        exact ⟨view, h⟩
      rw [if_neg hlow, Program.wp_bind]
      apply Program.wp_mono rule_monotone _ h.copyoutFrom_spec
      intro copied own' hcopied
      obtain ⟨view', hspace, -⟩ := hcopied
      by_cases hfailed : copied < 0
      · rw [if_pos hfailed]
        exact ⟨view', hspace⟩
      · rw [if_neg hfailed]
        exact ih hspace

theorem bad_spec :
    (bad ram root sz).wp (rule ram fails) own fun image own' => image = none ∧ own' = Heap.empty := by
  rw [bad, Program.wp_bind]
  apply Program.wp_mono rule_monotone _ h.free_spec
  exact fun _ _ hempty => ⟨rfl, hempty⟩

theorem loadSegments_spec {file : List UInt8} {count off : Nat} (huser : AllUser view)
    (hfit : segmentsFit file count off sz = true) :
    (loadSegments ram file root count off sz).wp (rule ram fails) own fun loaded own' =>
      (∃ view', UserSpace ram trapframe root loaded.2 own' view') ∧
        (loaded.1 = true → pages loaded.2 + 2 ≤ trapframePage) := by
  have hstop : ∀ {sz view own}, UserSpace ram trapframe root sz own view →
      (pure (false, sz) : Code Index Word (Bool × Nat)).wp (rule ram fails) own fun loaded own' =>
        (∃ view', UserSpace ram trapframe root loaded.2 own' view') ∧
          (loaded.1 = true → pages loaded.2 + 2 ≤ trapframePage) :=
    fun h => ⟨⟨_, h⟩, Bool.noConfusion⟩
  induction count generalizing off sz own view with
  | zero =>
      unfold segmentsFit at hfit
      exact ⟨⟨view, h⟩, fun _ => of_decide_eq_true hfit⟩
  | succ count ih =>
      unfold loadSegments
      unfold segmentsFit at hfit
      dsimp only at hfit ⊢
      generalize readi file off 56 = ph at hfit ⊢
      by_cases hshort : ph.length ≠ 56
      · rw [if_pos hshort]
        exact hstop h
      rw [if_neg hshort] at hfit ⊢
      generalize field ph 4 0 = type, field ph 8 8 = offset, field ph 8 16 = vaddr,
        field ph 8 32 = filesz, field ph 8 40 = memsz at hfit ⊢
      by_cases hskip : type ≠ 1
      · rw [if_pos hskip] at hfit ⊢
        exact ih h huser hfit
      rw [if_neg hskip] at hfit ⊢
      by_cases hless : memsz < filesz
      · rw [if_pos hless]
        exact hstop h
      rw [if_neg hless] at hfit ⊢
      by_cases hwrap : (vaddr + memsz) % 18446744073709551616 < vaddr
      · rw [if_pos hwrap]
        exact hstop h
      rw [if_neg hwrap] at hfit ⊢
      by_cases hlarge : vaddr + memsz > trapframeVa
      · rw [if_pos hlarge] at hfit
        cases hfit
      rw [if_neg hlarge] at hfit
      rw [Program.wp_bind]
      apply Program.wp_mono rule_monotone _ (h.grow_spec (Nat.not_lt.mp hlarge))
      intro sz1 own' hgrown
      rcases hgrown with ⟨rfl, -, hspace⟩ | ⟨hne, hsz, view', hspace, hfills⟩
      · rw [if_pos rfl]
        exact hstop hspace
      rw [if_neg hne]
      by_cases halign : vaddr % pgsize ≠ 0
      · rw [if_pos halign]
        exact hstop hspace
      rw [if_neg (not_or_intro (hsz ▸ hne) halign)] at hfit
      obtain ⟨low, rfl⟩ := Nat.dvd_of_mod_eq_zero (not_not.mp halign)
      have hfilesz : filesz % 4294967296 ≤ filesz := Nat.mod_le _ _
      rw [Nat.mul_comm pgsize low] at hsz hfit ⊢
      rw [if_neg (not_not_intro (Nat.mul_mod_left low pgsize)), Program.wp_bind]
      apply Program.wp_mono rule_monotone _ (hspace.loadseg_spec (allUser_of_fills huser hfills) (by omega))
      intro loaded own'' hloaded
      obtain ⟨⟨view'', hspace', huser'⟩, hread⟩ := hloaded
      by_cases hfailed : loaded < 0
      · rw [if_pos hfailed]
        exact hstop hspace'
      · rw [if_neg hfailed]
        rw [hread.mp (Int.not_lt.mp hfailed), if_neg (by decide), ← hsz] at hfit
        exact ih hspace' huser' hfit

end UserSpace

/-- What `exec` has built: nothing, or an image of its own. -/
def Built (ram : Ram) (trapframe : Nat) (image : Option Image) (own : Owned Index Word) : Prop :=
  (image = none ∧ own = Heap.empty) ∨
    ∃ new view, image = some new ∧ UserSpace ram trapframe new.pagetable new.sz own view

theorem UserSpace.bad_built (h : UserSpace ram trapframe root sz own view) :
    (bad ram root sz).wp (rule ram fails) own (Built ram trapframe) :=
  Program.wp_mono rule_monotone (fun _ _ hempty => Or.inl hempty) h.bad_spec

theorem buildStack_spec {argv : List (List UInt8)} {entry : Nat}
    (h : UserSpace ram trapframe root (v * pgsize) own view) (hroom : v + 2 ≤ trapframePage) :
    (buildStack ram argv entry root (v * pgsize)).wp (rule ram fails) own (Built ram trapframe) := by
  have hbound : v * pgsize + 2 * pgsize ≤ trapframeVa := by
    rw [← Nat.add_mul]
    exact Nat.mul_le_mul_right pgsize hroom
  rw [buildStack, Program.wp_bind]
  apply Program.wp_mono rule_monotone _ (h.grow_spec hbound)
  intro sz1 own' hgrown
  rcases hgrown with ⟨rfl, -, hspace⟩ | ⟨hne, hsz, view', hspace, -⟩
  · rw [if_pos rfl]
    exact hspace.bad_built
  have hsz1 : sz1 = (v + 2) * pgsize := by
    rw [hsz, Nat.add_mul]
    exact Nat.max_eq_right (Nat.le_add_right _ _)
  have hguard : sz1 - 2 * pgsize = v * pgsize := by
    rw [hsz1, Nat.add_mul, Nat.add_sub_cancel]
  have hmapped : view' v ≠ none := by
    apply (hspace.below v).mpr
    rw [hsz1, pages_mul]
    omega
  rw [if_neg hne, Program.wp_bind, hguard]
  apply Program.wp_mono rule_monotone _ (hspace.uvmclear_spec hmapped)
  intro _ own'' hcleared
  obtain ⟨view'', hspace'⟩ := hcleared
  rw [Program.wp_bind]
  apply Program.wp_mono rule_monotone _ hspace'.pushArgs_spec
  intro pushed own₁ hpushed
  obtain ⟨view₁, hspace''⟩ := hpushed
  cases pushed with
  | none => exact hspace''.bad_built
  | some pushed => exact Or.inr ⟨_, view₁, rfl, hspace''⟩

theorem buildImage_spec {file : List UInt8} (hfits : fits file = true) (argv : List (List UInt8)) (trapframe : Nat) :
    (buildImage ram file argv trapframe).wp (rule ram fails) Heap.empty (Built ram trapframe) := by
  unfold buildImage
  unfold fits at hfits
  dsimp only at hfits ⊢
  generalize readi file 0 64 = elf at hfits ⊢
  by_cases hshort : elf.length ≠ 64
  · rw [if_pos hshort]
    exact Or.inl ⟨rfl, rfl⟩
  rw [if_neg hshort] at hfits ⊢
  generalize field elf 4 0 = magic, field elf 2 56 = phnum, field elf 8 32 = phoff at hfits ⊢
  by_cases hmagic : magic ≠ elfMagic
  · rw [if_pos hmagic]
    exact Or.inl ⟨rfl, rfl⟩
  rw [if_neg hmagic] at hfits ⊢
  rw [Program.wp_bind]
  apply Program.wp_mono rule_monotone _ (procPagetable_spec trapframe)
  intro pagetable own' hmade
  rcases hmade with ⟨rfl, -, rfl⟩ | ⟨root, rfl, hspace⟩
  · exact Or.inl ⟨rfl, rfl⟩
  rw [Option.elim_some, Program.wp_bind]
  have huser : AllUser (fun _ => none : View Index Word Flags) := fun v page hpage => by cases hpage
  apply Program.wp_mono rule_monotone _ (hspace.loadSegments_spec huser hfits)
  intro loaded own'' hloaded
  obtain ⟨⟨view, hloaded⟩, hroom⟩ := hloaded
  by_cases hbad : loaded.1 = false
  · rw [if_pos hbad]
    exact hloaded.bad_built
  rw [if_neg hbad, pgroundup_eq]
  have hroom' := hroom (Bool.eq_true_of_not_eq_false hbad)
  refine buildStack_spec ⟨hloaded.space, ?_, Nat.mul_le_mul_right pgsize (by omega)⟩ hroom'
  rw [pages_mul]
  exact hloaded.below

end Spec

end Xv6.Vm.Loongarch
