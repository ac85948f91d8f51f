import Xv6.Vm.Arm64
import Xv6.Vm.Contents

/-!
# Building an image on arm64

`exec` builds the new image of a process next to the old one, and frees it where something goes wrong.
-/

namespace Xv6.Vm.Arm64

/-! ### The code -/

def walkaddr (pagetable va : Nat) : Code Index Word (Option Nat) :=
  if va ≥ maxva then pure none
  else do
    let pte ← walk arch maxva false pagetable va
    pte.elim (pure none) fun pte => do
      let word ← read pte.1 pte.2
      if word &&& pteV ≠ pteV then pure none
      else if accessed word = false then pure none
      else if word &&& pteU = 0 then pure none
      else pure (some (pte2pa word))

def uva2ka (pagetable va : Nat) : Code Index Word (Option Nat) := do
  let pa ← walkaddr pagetable va
  if pa = some 0 then pure none else pure pa

/-- Mark a PTE invalid for user access. Used by `exec` for the user stack guard page. -/
def uvmclear (pagetable va : Nat) : Code Index Word Unit := do
  let pte ← walk arch maxva false pagetable va
  pte.elim (panic "uvmclear") fun pte => do
    let word ← read pte.1 pte.2
    write pte.1 pte.2 (word &&& ~~~pteU)

/-- The loop of `arch_copyout`. Each round copies at least one byte. -/
def copyoutFrom (pagetable : Nat) : (rounds dstva : Nat) → List UInt8 → Code Index Word Int
  | 0, _, _ => pure 0
  | rounds + 1, dstva, src =>
      if src.length = 0 then pure 0
      else do
        let va0 := pgrounddown dstva
        let pa0 ← uva2ka pagetable va0
        pa0.elim (pure (-1)) fun pa0 => do
          let n := min (pgsize - (dstva - va0)) src.length
          modify pa0 fun words => storeBytes words (dstva - va0) (src.take n)
          copyoutFrom pagetable rounds (va0 + pgsize) (src.drop n)

def archCopyout (pagetable dstva : Nat) (src : List UInt8) : Code Index Word Int :=
  copyoutFrom pagetable src.length dstva src

/-- The loop of `loadseg`. -/
def loadsegFrom (file : List UInt8) (pagetable va offset sz : Nat) :
    (count i : Nat) → Code Index Word Int
  | 0, _ => pure 0
  | count + 1, i => do
      let pa ← uva2ka pagetable (va + i)
      pa.elim (panic "loadseg: address should exist") fun pa => do
        let n := if sz - i < pgsize then sz - i else pgsize
        let bytes := readi file ((offset + i) % 4294967296) n
        modify pa fun words => storeBytes words 0 bytes
        if bytes.length ≠ n then pure (-1)
        else loadsegFrom file pagetable va offset sz count (i + pgsize)

/-- Load a program segment into `pagetable` at virtual address `va`. `va` must be page-aligned and the
pages from `va` to `va + sz` must already be mapped. -/
def loadseg (file : List UInt8) (pagetable va offset sz : Nat) : Code Index Word Int :=
  loadsegFrom file pagetable va offset sz (pages sz) 0

def maxarg : Nat := 32

section Exec

variable (ram : Ram)

/-- The loop of `exec` over the program headers: did all go well, and the size then. -/
def loadSegments (file : List UInt8) (pagetable : Nat) :
    (count off sz : Nat) → Code Index Word (Bool × Nat)
  | 0, _, sz => pure (true, sz)
  | count + 1, off, sz =>
      let ph := readi file off 56
      let vaddr := field ph 8 16
      let filesz := field ph 8 32
      let memsz := field ph 8 40
      if ph.length ≠ 56 then pure (false, sz)
      else if field ph 4 0 ≠ 1 then
        loadSegments file pagetable count ((off + 56) % 4294967296) sz
      else if memsz < filesz then pure (false, sz)
      else if (vaddr + memsz) % 18446744073709551616 < vaddr then pure (false, sz)
      else do
        let sz1 ← uvmalloc (port ram) pagetable sz (vaddr + memsz) userFlags
        if sz1 = 0 then pure (false, sz)
        else if vaddr % pgsize ≠ 0 then pure (false, sz1)
        else do
          let loaded ← loadseg file pagetable vaddr (field ph 8 8 % 4294967296) (filesz % 4294967296)
          if loaded < 0 then pure (false, sz1)
          else loadSegments file pagetable count ((off + 56) % 4294967296) sz1

/-- Push argument strings, and the array of `argv[]` pointers: `argc`. -/
def pushArgs (pagetable stackbase : Nat) :
    (argv : List (List UInt8)) → (argc sp : Nat) → (ustack : List UInt8) → Code Index Word (Option Nat)
  | [], argc, sp, ustack =>
      let sp := push sp ((argc + 1) * 8)
      if sp < stackbase then pure none
      else do
        let copied ← archCopyout pagetable sp (ustack ++ List.replicate 8 0)
        if copied < 0 then pure none else pure (some argc)
  | arg :: argv, argc, sp, ustack =>
      let sp := push sp (arg.length + 1)
      if argc ≥ maxarg then pure none
      else if sp < stackbase then pure none
      else do
        let copied ← archCopyout pagetable sp (arg ++ [0])
        if copied < 0 then pure none
        else
          let pointer := (List.range 8).map fun k => UInt8.ofNat (sp / 256 ^ k)
          pushArgs pagetable stackbase argv (argc + 1) sp (ustack ++ pointer)

/-- The new image of a process. -/
structure Image where
  pagetable : Nat
  sz : Nat
  argc : Nat

/-- What `exec` does at `bad`. -/
def bad (pagetable sz : Nat) : Code Index Word (Option Image) := do
  uvmfree (port ram) pagetable sz
  pure none

/-- The part of `exec` that makes the new image. -/
def buildImage (file : List UInt8) (argv : List (List UInt8)) : Code Index Word (Option Image) :=
  let elf := readi file 0 64
  if elf.length ≠ 64 then pure none
  else if field elf 4 0 ≠ elfMagic then pure none
  else do
    let pagetable ← uvmcreate (port ram)
    pagetable.elim (pure none) fun pagetable => do
      let loaded ← loadSegments ram file pagetable (field elf 2 56) (field elf 8 32 % 4294967296) 0
      if loaded.1 = false then bad ram pagetable loaded.2
      else do
        let sz := pgroundup loaded.2
        let sz1 ← uvmalloc (port ram) pagetable sz (sz + 2 * pgsize) userFlags
        if sz1 = 0 then bad ram pagetable sz
        else do
          uvmclear pagetable (sz1 - 2 * pgsize)
          let argc ← pushArgs pagetable (sz1 - pgsize) argv 0 sz1 []
          argc.elim (bad ram pagetable sz1) fun argc => pure (some ⟨pagetable, sz1, argc⟩)

end Exec

/-! ### User pages -/

section Spec

variable {ram : Ram} {fails : Bool → Prop} {kept : Nat → Prop} {tree : arch.Tree} {root sz : Nat} {own : Owned Index Word}
  {view view' : View Index Word Flags}

def user (page : Page Index Word Flags) : Bool := page.flags.val &&& pteU != 0

def AllUser (view : View Index Word Flags) : Prop := ∀ {v page}, view v = some page → user page = true

theorem allUser_of_same (h : View.SamePages view view') (huser : AllUser view) : AllUser view' := by
  intro v page' hpage'
  obtain ⟨page, hpage, -, hflags⟩ := h.exists hpage'
  have hsame := huser hpage
  unfold user at hsame ⊢
  rwa [hflags] at hsame

theorem exists_page (va : Nat) : ∃ v < arch.limit, arch.path v = arch.path (va / pgsize) :=
  arch_full _ (arch.length_path _)

theorem walkaddr_spec (h : Layout arch ram kept (fun _ => 0) tree root own view) (va : Nat) :
    (walkaddr root va).wp (rule ram fails) own fun pa own' => own' = own ∧
      ((maxva ≤ va ∧ pa = none) ∨ ∃ v < arch.limit, arch.path v = arch.path (va / pgsize) ∧
        pa = ((view v).filter user).map Page.frame) := by
  unfold walkaddr
  by_cases hva : va ≥ maxva
  · rw [if_pos hva]
    exact ⟨rfl, Or.inl ⟨hva, rfl⟩⟩
  obtain ⟨v, hv, hpath⟩ := exists_page va
  obtain ⟨hupper, hlower⟩ := Arch.path_eq_iff.mp hpath
  have hresult : ∀ pa, pa = ((view v).filter user).map Page.frame →
      (maxva ≤ va ∧ pa = none) ∨ ∃ v < arch.limit, arch.path v = arch.path (va / pgsize) ∧
        pa = ((view v).filter user).map Page.frame := fun pa hpa => Or.inr ⟨v, hv, hpath, hpa⟩
  rw [if_neg hva, Program.wp_bind, walk, Program.wp_bind, wp_panicIf, Program.wp_bind]
  refine ⟨hva, h.wp_walk_lookup _ ?_⟩
  rw [Program.wp_pure, ← hupper, ← hlower]
  cases hnode : tree.node (arch.upper v) with
  | none =>
      refine ⟨rfl, hresult none ?_⟩
      rw [h.hole_of_table_eq_none hnode]
      rfl
  | some t =>
      obtain ⟨hwords, hleaf⟩ := h.slot hnode
      rw [Option.map_some, Option.elim_some, Program.wp_bind, wp_read]
      refine ⟨_, hwords, ?_⟩
      rw [hleaf]
      cases hview : view v with
      | none =>
          have hzero : tree.leaf (arch.path v) = 0 := h.hole hv hview
          rw [hzero, if_pos (by decide)]
          rw [hview] at hresult
          exact ⟨rfl, hresult none rfl⟩
      | some page =>
          rw [hview] at hresult
          obtain ⟨-, -, hmaps⟩ := h.page hview
          have hbits := Bool.and_eq_true_iff.mp hmaps.isMapped
          have haddr : pte2pa (tree.leaf (arch.path v)) = page.frame := hmaps.page
          have huser : tree.leaf (arch.path v) &&& pteU = page.flags.val &&& pteU := by
            rw [← hmaps.flags]
            exact (BitVec.and_assoc (tree.leaf (arch.path v)) flagMask pteU).symm
          rw [if_neg (not_not_intro (eq_of_beq hbits.1)), if_neg (by rw [hbits.2]; exact Bool.noConfusion),
            huser, haddr]
          by_cases hzero : page.flags.val &&& pteU = 0
          · have hnot : user page = false := by
              unfold user
              rw [hzero]
              rfl
            rw [if_pos hzero]
            refine ⟨rfl, hresult none ?_⟩
            rw [Option.filter_some_neg hnot]
            rfl
          · have hyes : user page = true := bne_iff_ne.mpr hzero
            rw [if_neg hzero]
            refine ⟨rfl, hresult _ ?_⟩
            rw [Option.filter_some_pos hyes]
            rfl

theorem uva2ka_spec (h : Layout arch ram kept (fun _ => 0) tree root own view) (va : Nat) :
    (uva2ka root va).wp (rule ram fails) own fun pa own' => own' = own ∧
      (pa = none ∨ ∃ v page, view v = some page ∧ pa = some page.frame) := by
  rw [uva2ka, Program.wp_bind]
  apply Program.wp_mono rule_monotone _ (walkaddr_spec h va)
  intro pa own' hwalk
  obtain ⟨rfl, hwalk⟩ := hwalk
  by_cases hzero : pa = some 0
  · rw [if_pos hzero]
    exact ⟨rfl, Or.inl rfl⟩
  rw [if_neg hzero]
  refine ⟨rfl, ?_⟩
  rcases hwalk with ⟨-, hnone⟩ | ⟨v, -, -, hpa⟩
  · exact Or.inl hnone
  · cases hpage : (view v).filter user with
    | none =>
        rw [hpage] at hpa
        exact Or.inl hpa
    | some page =>
        rw [hpage] at hpa
        exact Or.inr ⟨v, page, (Option.filter_eq_some_iff.mp hpage).1, hpa⟩

theorem uva2ka_user (h : Layout arch ram kept (fun _ => 0) tree root own view) {v : Nat}
    {page : Page Index Word Flags} (hpage : view v = some page) (huser : user page = true) :
    (uva2ka root (v * pgsize)).wp (rule ram fails) own fun pa own' =>
      own' = own ∧ pa = some page.frame := by
  have hlimit := h.lt hpage
  obtain ⟨-, hwords, -⟩ := h.page hpage
  rw [uva2ka, Program.wp_bind]
  apply Program.wp_mono rule_monotone _ (walkaddr_spec h (v * pgsize))
  intro pa own' hwalk
  obtain ⟨rfl, hwalk⟩ := hwalk
  rcases hwalk with ⟨hge, -⟩ | ⟨w, hw, hpath, rfl⟩
  · exact absurd (va_lt hlimit) (Nat.not_lt.mpr hge)
  · rw [mul_div_pgsize] at hpath
    obtain rfl := arch.injective hw hlimit hpath
    rw [hpage, Option.filter_some_pos huser, Option.map_some, if_neg]
    · exact ⟨rfl, rfl⟩
    · intro heq
      have hpos := Nat.lt_of_lt_of_le ram.first_pos (h.ram hwords).1
      rw [Option.some.inj heq] at hpos
      exact Nat.lt_irrefl 0 hpos

theorem store_spec (h : Layout arch ram kept (fun _ => 0) tree root own view) {v : Nat}
    {page : Page Index Word Flags} (hpage : view v = some page)
    (change : (Index → Word) → Index → Word) :
    (modify page.frame change).wp (rule ram fails) own fun _ own' => ∃ view',
      Space arch ram kept (fun _ => 0) root own' view' ∧ View.SamePages view view' := by
  rw [wp_modify]
  obtain ⟨-, hwords, -⟩ := h.page hpage
  exact ⟨page.words, hwords, _, ⟨tree, h.store hpage⟩, View.SamePages.store hpage _⟩

/-! ### Copying and loading -/

theorem copyoutFrom_spec {rounds dstva : Nat} {src : List UInt8}
    (h : Space arch ram kept (fun _ => 0) root own view) :
    (copyoutFrom root rounds dstva src).wp (rule ram fails) own fun _ own' => ∃ view',
      Space arch ram kept (fun _ => 0) root own' view' ∧ View.SamePages view view' := by
  induction rounds generalizing dstva src own view with
  | zero => exact ⟨view, h, View.SamePages.refl view⟩
  | succ rounds ih =>
      unfold copyoutFrom
      by_cases hempty : src.length = 0
      · rw [if_pos hempty]
        exact ⟨view, h, View.SamePages.refl view⟩
      obtain ⟨tree, htree⟩ := h
      rw [if_neg hempty]
      dsimp only
      rw [Program.wp_bind]
      apply Program.wp_mono rule_monotone _ (uva2ka_spec htree _)
      intro pa own' hfound
      obtain ⟨rfl, hfound⟩ := hfound
      rcases hfound with rfl | ⟨v, page, hpage, rfl⟩
      · exact ⟨view, ⟨tree, htree⟩, View.SamePages.refl view⟩
      · rw [Option.elim_some, Program.wp_bind]
        apply Program.wp_mono rule_monotone _ (store_spec htree hpage _)
        intro _ own'' hstored
        obtain ⟨view', hspace, hsame⟩ := hstored
        apply Program.wp_mono rule_monotone _ (ih hspace)
        intro _ own''' hcopied
        obtain ⟨view'', hspace', hsame'⟩ := hcopied
        exact ⟨view'', hspace', hsame.trans hsame'⟩

theorem loadsegFrom_spec {file : List UInt8} {low offset count i : Nat}
    (h : Space arch ram kept (fun _ => 0) root own view) (huser : AllUser view)
    (hmapped : ∀ k < i + count, view (low + k) ≠ none) :
    (loadsegFrom file root (low * pgsize) offset sz count (i * pgsize)).wp (rule ram fails) own
      fun _ own' => ∃ view', Space arch ram kept (fun _ => 0) root own' view' ∧ View.SamePages view view' := by
  induction count generalizing i own view with
  | zero => exact ⟨view, h, View.SamePages.refl view⟩
  | succ count ih =>
      obtain ⟨tree, htree⟩ := h
      obtain ⟨page, hpage⟩ := Option.ne_none_iff_exists'.mp (hmapped i (by omega))
      rw [loadsegFrom, Program.wp_bind, ← Nat.add_mul]
      apply Program.wp_mono rule_monotone _ (uva2ka_user htree hpage (huser hpage))
      intro pa own' hfound
      obtain ⟨rfl, rfl⟩ := hfound
      rw [Option.elim_some]
      dsimp only
      generalize (if sz - i * pgsize < pgsize then sz - i * pgsize else pgsize) = n
      rw [Program.wp_bind]
      apply Program.wp_mono rule_monotone _ (store_spec htree hpage _)
      intro _ own'' hstored
      obtain ⟨view', hspace, hsame⟩ := hstored
      by_cases hshort : (readi file ((offset + i * pgsize) % 4294967296) n).length ≠ n
      · rw [if_pos hshort]
        exact ⟨view', hspace, hsame⟩
      · have hmapped' : ∀ k < i + 1 + count, view' (low + k) ≠ none := by
          intro k hk hnone
          have hmap := hsame (low + k)
          rw [hnone, Option.map_none] at hmap
          exact hmapped k (by omega) (Option.map_eq_none_iff.mp hmap.symm)
        rw [if_neg hshort, ← Nat.succ_mul]
        apply Program.wp_mono rule_monotone _ (ih hspace (allUser_of_same hsame huser) hmapped')
        intro _ own''' hloaded
        obtain ⟨view'', hspace', hsame'⟩ := hloaded
        exact ⟨view'', hspace', hsame.trans hsame'⟩

theorem clear_and {word mask : Word} (h : ~~~pteU &&& mask = mask) :
    (word &&& ~~~pteU) &&& mask = word &&& mask := by rw [BitVec.and_assoc, h]

theorem uvmclear_spec {v : Nat} (h : Space arch ram kept (fun _ => 0) root own view)
    (hmapped : view v ≠ none) :
    (uvmclear root (v * pgsize)).wp (rule ram fails) own fun _ own' => ∃ view',
      Space arch ram kept (fun _ => 0) root own' view' ∧ ∀ w, view' w ≠ none ↔ view w ≠ none := by
  obtain ⟨tree, htree⟩ := h
  obtain ⟨page, hpage⟩ := Option.ne_none_iff_exists'.mp hmapped
  obtain ⟨hframe, -, hmaps⟩ := htree.page hpage
  obtain ⟨t, hnode⟩ := tree.node_of_append hframe
  obtain ⟨hwords, hleaf⟩ := htree.slot hnode
  have hmaps' : arch.Maps (tree.leaf (arch.path v) &&& ~~~pteU) page.frame
      (pteFlags (tree.leaf (arch.path v) &&& ~~~pteU)) := by
    refine ⟨?_, ?_, rfl⟩
    · have hbits := hmaps.isMapped
      change isMapped _ = true at hbits ⊢
      unfold isMapped accessed at hbits ⊢
      rwa [clear_and rfl, clear_and rfl]
    · have haddr : pte2pa (tree.leaf (arch.path v)) = page.frame := hmaps.page
      change pte2pa _ = page.frame
      unfold pte2pa at haddr ⊢
      rwa [clear_and rfl]
  rw [uvmclear, Program.wp_bind]
  apply htree.wp_walk (va_lt (htree.lt hpage))
  rw [hnode, Option.map_some, Option.elim_some, Program.wp_bind, wp_read]
  refine ⟨_, hwords, ?_⟩
  rw [hleaf, wp_write]
  refine ⟨_, hwords, _, htree.remap hnode hpage hmaps', fun w => ?_⟩
  by_cases hw : w = v
  · rw [hw, Function.update_self]
    exact iff_of_true (Option.some_ne_none _) hmapped
  · rw [Function.update_of_ne hw]

/-! ### Images -/

/-- The page table maps the pages of `[0, PGROUNDUP(sz))`, and no others. -/
def Process (ram : Ram) (root : Nat) (own : Owned Index Word) (sz : Nat) : Prop :=
  ∃ view, Space arch ram (fun _ => False) (fun _ => 0) root own view ∧ view.Below (pages sz)

def Loaded (ram : Ram) (root : Nat) (own : Owned Index Word) (sz : Nat) : Prop :=
  ∃ view, Space arch ram (fun _ => False) (fun _ => 0) root own view ∧ view.Below (pages sz) ∧
    AllUser view

theorem Loaded.process (h : Loaded ram root own sz) : Process ram root own sz := by
  obtain ⟨view, hspace, hbelow, -⟩ := h
  exact ⟨view, hspace, hbelow⟩

theorem pages_le (h : Space arch ram kept (fun _ => 0) root own view) (hbelow : view.Below (pages sz)) :
    pages sz ≤ 65536 := by
  have hcard := h.card_le (Finset.range (pages sz)) fun v hv => (hbelow v).mpr (Finset.mem_range.mp hv)
  rwa [Finset.card_range] at hcard

theorem free_spec (h : Process ram root own sz) :
    (uvmfree (port ram) root sz).wp (rule ram fails) own fun _ own' => own' = Heap.empty := by
  obtain ⟨view, hspace, hbelow⟩ := h
  have hle := pages_le hspace hbelow
  have hlimit : pages sz ≤ arch.limit := by
    change pages sz ≤ 134217728
    omega
  exact @uvmfree_spec _ _ _ _ ram (port ram) _ _ _ _ _ _ _ hspace hlimit (fun _ _ => rfl) (fun v => hbelow.eq_none)
    fun _ v hv => (hbelow v).mpr hv

theorem grow_spec (h : Loaded ram root own sz) (newsz : Nat) :
    (uvmalloc (port ram) root sz newsz userFlags).wp (rule ram fails) own fun sz1 own' =>
      (sz1 = 0 ∧ Loaded ram root own' sz) ∨
      (sz1 ≠ 0 ∧ sz1 = max sz newsz ∧ Loaded ram root own' sz1) := by
  obtain ⟨view, hspace, hbelow, huser⟩ := h
  have hle := pages_le hspace hbelow
  have hlimit : pages sz + 65536 < arch.limit := by
    change pages sz + 65536 < 134217728
    omega
  apply Program.wp_mono rule_monotone _ (@uvmalloc_spec _ _ _ _ ram (port ram) _ _ _ _ _ _ _ _ userFlags hspace
    (fun v hlow _ => hbelow.eq_none hlow) (Or.inr hlimit) fun _ _ _ _ => rfl)
  intro sz1 own' hresult
  rcases hresult with ⟨hlt, rfl, rfl⟩ | ⟨hge, rfl, view', hspace', hfills⟩ | ⟨-, rfl, -, hspace'⟩
  · exact Or.inr ⟨by omega, by omega, view, hspace, hbelow, huser⟩
  · have huser' : AllUser view' := by
      intro v page hpage
      by_cases hin : pages sz ≤ v ∧ v < pages sz1
      · obtain ⟨page', hpage', hflags, -⟩ := (hfills v).1 hin
        obtain rfl := Option.some.inj (hpage.symm.trans hpage')
        unfold user
        rw [hflags]
        change ((sealedFlags userFlags).val &&& pteU != 0) = true
        decide
      · exact huser (((hfills v).2 hin).symm.trans hpage)
    have hloaded : Loaded ram root own' sz1 :=
      ⟨view', hspace', hfills.below hbelow (pages_mono hge), huser'⟩
    by_cases hzero : sz1 = 0
    · obtain rfl : sz1 = sz := by omega
      exact Or.inl ⟨hzero, hloaded⟩
    · exact Or.inr ⟨hzero, (Nat.max_eq_right hge).symm, hloaded⟩
  · exact Or.inl ⟨rfl, view, hspace', hbelow, huser⟩

theorem loadseg_spec {file : List UInt8} {low offset count : Nat} (h : Loaded ram root own sz)
    (hsz : low * pgsize + count ≤ sz) :
    (loadseg file root (low * pgsize) offset count).wp (rule ram fails) own fun _ own' =>
      Loaded ram root own' sz := by
  obtain ⟨view, hspace, hbelow, huser⟩ := h
  have hmapped : ∀ k < 0 + pages count, view (low + k) ≠ none := by
    intro k hk
    apply (hbelow _).mpr
    rw [Nat.zero_add, lt_pages_iff] at hk
    rw [lt_pages_iff, Nat.add_mul]
    omega
  have hload : (loadsegFrom file root (low * pgsize) offset count (pages count) (0 * pgsize)).wp
      (rule ram fails) own _ := loadsegFrom_spec hspace huser hmapped
  rw [Nat.zero_mul] at hload
  apply Program.wp_mono rule_monotone _ hload
  intro _ own' hloaded
  obtain ⟨view', hspace', hsame⟩ := hloaded
  exact ⟨view', hspace', hsame.below hbelow, allUser_of_same hsame huser⟩

theorem loadSegments_spec {file : List UInt8} {count off : Nat} (h : Loaded ram root own sz) :
    (loadSegments ram file root count off sz).wp (rule ram fails) own fun loaded own' =>
      Loaded ram root own' loaded.2 := by
  induction count generalizing off sz own with
  | zero => exact h
  | succ count ih =>
      unfold loadSegments
      dsimp only
      generalize readi file off 56 = ph
      by_cases hshort : ph.length ≠ 56
      · rw [if_pos hshort]
        exact h
      rw [if_neg hshort]
      generalize field ph 4 0 = type, field ph 8 8 = offset, field ph 8 16 = vaddr,
        field ph 8 32 = filesz, field ph 8 40 = memsz
      by_cases hskip : type ≠ 1
      · rw [if_pos hskip]
        exact ih h
      rw [if_neg hskip]
      by_cases hless : memsz < filesz
      · rw [if_pos hless]
        exact h
      rw [if_neg hless]
      by_cases hwrap : (vaddr + memsz) % 18446744073709551616 < vaddr
      · rw [if_pos hwrap]
        exact h
      rw [if_neg hwrap, Program.wp_bind]
      apply Program.wp_mono rule_monotone _ (grow_spec h _)
      intro sz1 own' hgrown
      rcases hgrown with ⟨rfl, hloaded⟩ | ⟨hne, hsz, hloaded⟩
      · rw [if_pos rfl]
        exact hloaded
      rw [if_neg hne]
      by_cases halign : vaddr % pgsize ≠ 0
      · rw [if_pos halign]
        exact hloaded
      obtain ⟨low, rfl⟩ := Nat.dvd_of_mod_eq_zero (not_not.mp halign)
      have hfilesz : filesz % 4294967296 ≤ filesz := Nat.mod_le _ _
      rw [Nat.mul_comm pgsize low] at hsz ⊢
      rw [if_neg (not_not_intro (Nat.mul_mod_left low pgsize)), Program.wp_bind]
      apply Program.wp_mono rule_monotone _ (loadseg_spec hloaded (by omega))
      intro result own'' hloaded'
      by_cases hfailed : result < 0
      · rw [if_pos hfailed]
        exact hloaded'
      · rw [if_neg hfailed]
        exact ih hloaded'

theorem pushArgs_spec {stackbase argc sp : Nat} {argv : List (List UInt8)} {ustack : List UInt8}
    (h : Space arch ram kept (fun _ => 0) root own view) :
    (pushArgs root stackbase argv argc sp ustack).wp (rule ram fails) own fun _ own' => ∃ view',
      Space arch ram kept (fun _ => 0) root own' view' ∧ View.SamePages view view' := by
  have hstop := View.SamePages.refl view
  induction argv generalizing argc sp ustack own view with
  | nil =>
      unfold pushArgs
      dsimp only
      by_cases hlow : push sp ((argc + 1) * 8) < stackbase
      · rw [if_pos hlow]
        exact ⟨view, h, hstop⟩
      rw [if_neg hlow, Program.wp_bind]
      apply Program.wp_mono rule_monotone _ (copyoutFrom_spec h)
      intro copied own' hcopied
      by_cases hfailed : copied < 0
      · rw [if_pos hfailed]
        exact hcopied
      · rw [if_neg hfailed]
        exact hcopied
  | cons arg argv ih =>
      unfold pushArgs
      dsimp only
      by_cases hmany : argc ≥ maxarg
      · rw [if_pos hmany]
        exact ⟨view, h, hstop⟩
      rw [if_neg hmany]
      by_cases hlow : push sp (arg.length + 1) < stackbase
      · rw [if_pos hlow]
        exact ⟨view, h, hstop⟩
      rw [if_neg hlow, Program.wp_bind]
      apply Program.wp_mono rule_monotone _ (copyoutFrom_spec h)
      intro copied own' hcopied
      obtain ⟨view', hspace, hsame⟩ := hcopied
      by_cases hfailed : copied < 0
      · rw [if_pos hfailed]
        exact ⟨view', hspace, hsame⟩
      · rw [if_neg hfailed]
        apply Program.wp_mono rule_monotone _ (ih hspace (View.SamePages.refl view'))
        intro _ own'' hpushed
        obtain ⟨view'', hspace', hsame'⟩ := hpushed
        exact ⟨view'', hspace', hsame.trans hsame'⟩

theorem bad_spec (h : Process ram root own sz) :
    (bad ram root sz).wp (rule ram fails) own fun image own' =>
      image = none ∧ own' = Heap.empty := by
  rw [bad, Program.wp_bind]
  apply Program.wp_mono rule_monotone _ (free_spec h)
  exact fun _ _ hempty => ⟨rfl, hempty⟩

theorem buildImage_spec (file : List UInt8) (argv : List (List UInt8)) :
    (buildImage ram file argv).wp (rule ram fails) Heap.empty fun image own' =>
      (image = none ∧ own' = Heap.empty) ∨
      ∃ new, image = some new ∧ Process ram new.pagetable own' new.sz := by
  unfold buildImage
  dsimp only
  generalize readi file 0 64 = elf
  by_cases hshort : elf.length ≠ 64
  · rw [if_pos hshort]
    exact Or.inl ⟨rfl, rfl⟩
  rw [if_neg hshort]
  generalize field elf 4 0 = magic, field elf 2 56 = phnum, field elf 8 32 = phoff
  by_cases hmagic : magic ≠ elfMagic
  · rw [if_pos hmagic]
    exact Or.inl ⟨rfl, rfl⟩
  rw [if_neg hmagic, Program.wp_bind, uvmcreate, Program.wp_bind, wp_kalloc]
  refine ⟨fun _ => Or.inl ⟨rfl, rfl⟩, fun pagetable words hram hnone => ?_⟩
  rw [Option.elim_some, Program.wp_bind, wp_fill]
  refine ⟨words, Heap.set_self, ?_⟩
  rw [Heap.set_set, Program.wp_pure, Option.elim_some, Program.wp_bind]
  have hcreated : Loaded ram pagetable (Heap.empty.set pagetable fun _ => 0) 0 := by
    refine ⟨fun _ => none, Space.create hram, fun v => ?_, fun hpage => ?_⟩
    · exact iff_of_false (not_not_intro rfl) fun hlt => Nat.not_lt_zero _ (lt_pages_iff.mp hlt)
    · cases hpage
  apply Program.wp_mono rule_monotone _ (loadSegments_spec hcreated)
  intro loaded own' hloaded
  have hfailed : ∀ {own sz}, Process ram pagetable own sz →
      (bad ram pagetable sz).wp (rule ram fails) own fun image own' =>
        (image = none ∧ own' = Heap.empty) ∨
        ∃ new, image = some new ∧ Process ram new.pagetable own' new.sz := fun h =>
    Program.wp_mono rule_monotone (fun _ _ hempty => Or.inl hempty) (bad_spec h)
  by_cases hbad : loaded.1 = false
  · rw [if_pos hbad]
    exact hfailed hloaded.process
  rw [if_neg hbad, Program.wp_bind]
  have hround : pages (pgroundup loaded.2) = pages loaded.2 := pages_mul _
  have hloaded' : Loaded ram pagetable own' (pgroundup loaded.2) := by
    obtain ⟨view, hspace, hbelow, huser⟩ := hloaded
    refine ⟨view, hspace, ?_, huser⟩
    rw [hround]
    exact hbelow
  apply Program.wp_mono rule_monotone _ (grow_spec hloaded' _)
  intro sz1 own'' hgrown
  rcases hgrown with ⟨rfl, hloaded''⟩ | ⟨hne, hsz, hloaded''⟩
  · rw [if_pos rfl]
    exact hfailed hloaded''.process
  have hstack : sz1 = (pages loaded.2 + 2) * pgsize := by
    rw [hsz, Nat.max_eq_right (Nat.le_add_right _ _), pgroundup_eq, Nat.add_mul]
  have hguard : sz1 - 2 * pgsize = pages loaded.2 * pgsize := by
    rw [hstack, Nat.add_mul, Nat.add_sub_cancel]
  obtain ⟨view, hspace, hbelow, -⟩ := hloaded''
  have hmapped : view (pages loaded.2) ≠ none := by
    apply (hbelow _).mpr
    rw [hstack, pages_mul]
    omega
  rw [if_neg hne, Program.wp_bind, hguard]
  apply Program.wp_mono rule_monotone _ (uvmclear_spec hspace hmapped)
  intro _ own₁ hcleared
  obtain ⟨view₁, hspace₁, hsame₁⟩ := hcleared
  rw [Program.wp_bind]
  apply Program.wp_mono rule_monotone _ (pushArgs_spec hspace₁)
  intro argc own₂ hpushed
  obtain ⟨view₂, hspace₂, hsame₂⟩ := hpushed
  have hprocess : Process ram pagetable own₂ sz1 :=
    ⟨view₂, hspace₂, hsame₂.below fun v => (hsame₁ v).trans (hbelow v)⟩
  cases argc with
  | none => exact hfailed hprocess
  | some argc => exact Or.inr ⟨_, rfl, hprocess⟩

end Spec

end Xv6.Vm.Arm64
