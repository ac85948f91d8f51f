import Xv6.Vm.Contents
import Xv6.Vm.Riscv64

/-!
# User memory on riscv64

Page faults, and copying between kernel and user. A page below the size of a process that is not mapped
counts as one of zeros, and is allocated when somebody needs it: `flat` does not tell the two apart, and
these functions do not change what it says, but for the bytes that are stored.
-/

namespace Xv6.Vm.Riscv64

/-! ### The code -/

section Code

def walkaddr (pagetable va : Nat) : Code Index Word Nat :=
  if va ≥ maxva then pure 0
  else do
    let pte ← walk arch maxva false pagetable va
    pte.elim (pure 0) fun pte => do
      let word ← read pte.1 pte.2
      if valid word = false then pure 0
      else if word &&& pteU = 0 then pure 0
      else pure (pte2pa word)

def ismapped (pagetable va : Nat) : Code Index Word Bool := do
  let pte ← walk arch maxva false pagetable va
  pte.elim (pure false) fun pte => do
    let word ← read pte.1 pte.2
    pure (valid word)

variable (ram : Ram)

/-- Allocate and map user memory if process is referencing a page that was lazily allocated in
`sys_sbrk`. Returns 0 if `va` is invalid or already mapped, or if out of physical memory, and the
physical page if successful. -/
def vmfault (pagetable psz va : Nat) : Code Index Word Nat :=
  if va ≥ psz then pure 0
  else do
    let va := pgrounddown va
    let mapped ← ismapped pagetable va
    if mapped then pure 0
    else
      let mem ← kalloc false
      mem.elim (pure 0) fun mem => do
        fill mem 0
        let mapped ← mappages pagetable va pgsize mem (pteFlags (pteW ||| pteU ||| pteR))
        if mapped ≠ 0 then do
          kfree ram mem
          pure 0
        else pure mem

def pageAt (pagetable psz va0 : Nat) : Code Index Word Nat := do
  let pa0 ← walkaddr pagetable va0
  if pa0 = 0 then vmfault ram pagetable psz va0 else pure pa0

/-- The loop of `copyout`. Each round copies at least one byte, and the address of the next page is an
`uint64`. -/
def copyoutFrom (pagetable psz : Nat) : (rounds dstva : Nat) → List UInt8 → Code Index Word Int
  | 0, _, _ => pure 0
  | rounds + 1, dstva, src =>
      if src.length = 0 then pure 0
      else if pgrounddown dstva ≥ maxva then pure (-1)
      else do
        let va0 := pgrounddown dstva
        let pa0 ← pageAt ram pagetable psz va0
        if pa0 = 0 then pure (-1)
        else
          let pte ← walk arch maxva false pagetable va0
          pte.elim (panic "copyout") fun pte => do
            let word ← read pte.1 pte.2
            if word &&& pteW = 0 then pure (-1)
            else do
              let n := min (pgsize - (dstva - va0)) src.length
              modify pa0 fun words => storeBytes words (dstva - va0) (src.take n)
              copyoutFrom pagetable psz rounds ((va0 + pgsize) % 18446744073709551616) (src.drop n)

def copyout (pagetable psz dstva : Nat) (src : List UInt8) : Code Index Word Int :=
  copyoutFrom ram pagetable psz src.length dstva src

/-- `memmove` from a page: some of its bytes. -/
def loadFrom (page : Nat) : (off n : Nat) → Code Index Word (List UInt8)
  | _, 0 => pure []
  | off, n + 1 => do
      let word ← read page (slot off)
      let rest ← loadFrom page (off + 1) n
      pure (byteOf word off :: rest)

/-- The loop of `copyin`: the status, and the bytes that were copied. -/
def copyinFrom (pagetable psz : Nat) : (rounds srcva len : Nat) → Code Index Word (Int × List UInt8)
  | 0, _, _ => pure (0, [])
  | rounds + 1, srcva, len =>
      if len = 0 then pure (0, [])
      else do
        let va0 := pgrounddown srcva
        let pa0 ← pageAt ram pagetable psz va0
        if pa0 = 0 then pure (-1, [])
        else
          let n := min (pgsize - (srcva - va0)) len
          let bytes ← loadFrom pa0 (srcva - va0) n
          let rest ← copyinFrom pagetable psz rounds ((va0 + pgsize) % 18446744073709551616) (len - n)
          pure (rest.1, bytes ++ rest.2)

def copyin (pagetable psz srcva len : Nat) : Code Index Word (Int × List UInt8) :=
  copyinFrom ram pagetable psz len srcva len

/-- The loop of `copyinstr` in a page: the bytes before a null, and was there one? -/
def loadUntilNull (page : Nat) : (off n : Nat) → Code Index Word (List UInt8 × Bool)
  | _, 0 => pure ([], false)
  | off, n + 1 => do
      let word ← read page (slot off)
      if byteOf word off = 0 then pure ([], true)
      else
        let rest ← loadUntilNull page (off + 1) n
        pure (byteOf word off :: rest.1, rest.2)

/-- The loop of `copyinstr`. -/
def copyinstrFrom (pagetable psz : Nat) : (rounds srcva max : Nat) → Code Index Word (Int × List UInt8)
  | 0, _, _ => pure (-1, [])
  | rounds + 1, srcva, max =>
      if max = 0 then pure (-1, [])
      else do
        let va0 := pgrounddown srcva
        let pa0 ← pageAt ram pagetable psz va0
        if pa0 = 0 then pure (-1, [])
        else
          let n := min (pgsize - (srcva - va0)) max
          let bytes ← loadUntilNull pa0 (srcva - va0) n
          if bytes.2 then pure (0, bytes.1)
          else
            let rest ← copyinstrFrom pagetable psz rounds ((va0 + pgsize) % 18446744073709551616) (max - n)
            pure (rest.1, bytes.1 ++ rest.2)

/-- Copy a null-terminated string from user to kernel, until a null, or `max`. Return 0 on success, -1 on
error. -/
def copyinstr (pagetable psz srcva max : Nat) : Code Index Word (Int × List UInt8) :=
  copyinstrFrom ram pagetable psz max srcva max

end Code

/-! ### Memory without holes -/

abbrev Flat := Nat → Option (Flags × (Index → Word))

def lazyFlags : Flags := sealedFlags (pteFlags (pteW ||| pteU ||| pteR))

def untouched : Flags × (Index → Word) := (lazyFlags, fun _ => 0)

def flat (sz : Nat) (view : View Index Word Flags) : Flat := fun v =>
  ((view v).map fun page => (page.flags, page.words)).or
    (if v < pages sz then some untouched else none)

def allows (flags : Flags) (bit : Word) : Bool := flags.val &&& bit != 0

namespace Flat

def user (mem : Flat) (v : Nat) : Option (Flags × (Index → Word)) :=
  (mem v).filter fun page => allows page.1 pteU

def store (mem : Flat) (v : Nat) (flags : Flags) (words : Index → Word) : Flat :=
  Function.update mem v (some (flags, words))

/-- What `copyout` does to the memory. -/
def copyout (mem : Flat) : (rounds dstva : Nat) → List UInt8 → Int × Flat
  | 0, _, _ => (0, mem)
  | rounds + 1, dstva, src =>
      if src.length = 0 then (0, mem)
      else
        let v := dstva / pgsize
        match mem.user v with
        | none => (-1, mem)
        | some page =>
            if allows page.1 pteW = false then (-1, mem)
            else
              let n := min (pgsize - (dstva - v * pgsize)) src.length
              let words := storeBytes page.2 (dstva - v * pgsize) (src.take n)
              (mem.store v page.1 words).copyout rounds ((v + 1) * pgsize) (src.drop n)

/-- What `copyin` reads of the memory. -/
def copyin (mem : Flat) : (rounds srcva len : Nat) → Int × List UInt8
  | 0, _, _ => (0, [])
  | rounds + 1, srcva, len =>
      if len = 0 then (0, [])
      else
        let v := srcva / pgsize
        match mem.user v with
        | none => (-1, [])
        | some page =>
            let n := min (pgsize - (srcva - v * pgsize)) len
            let rest := mem.copyin rounds ((v + 1) * pgsize) (len - n)
            (rest.1, loadBytes page.2 (srcva - v * pgsize) n ++ rest.2)

/-- What `copyinstr` reads of the memory. -/
def copyinstr (mem : Flat) : (rounds srcva max : Nat) → Int × List UInt8
  | 0, _, _ => (-1, [])
  | rounds + 1, srcva, max =>
      if max = 0 then (-1, [])
      else
        let v := srcva / pgsize
        match mem.user v with
        | none => (-1, [])
        | some page =>
            let n := min (pgsize - (srcva - v * pgsize)) max
            let bytes := untilNull (loadBytes page.2 (srcva - v * pgsize) n)
            if bytes.2 then (0, bytes.1)
            else
              let rest := mem.copyinstr rounds ((v + 1) * pgsize) (max - n)
              (rest.1, bytes.1 ++ rest.2)

end Flat

/-! ### What the functions do -/

section Spec

variable {ram : Ram} {fails : Bool → Prop} {kept : Nat → Prop} {fixed : Nat → Word} {tree : arch.Tree}
  {trampoline trapframe root sz v : Nat} {own : Owned Index Word} {view : View Index Word Flags}

/-- The entries of the two pages of the kernel. -/
def kernelPages (trampoline trapframe : Nat) : Nat → Word :=
  Function.update (Function.update (fun _ => 0) trampolinePage
    (leafEntry trampoline (pteFlags (pteR ||| pteX)))) trapframePage
    (leafEntry trapframe (pteFlags (pteR ||| pteW)))

theorem kernelPages_of_lt (hv : v < trapframePage) : kernelPages trampoline trapframe v = 0 := by
  have hlt : trapframePage < trampolinePage := Nat.lt_succ_self _
  unfold kernelPages
  rw [Function.update_of_ne (Nat.ne_of_lt hv), Function.update_of_ne (Nat.ne_of_lt (hv.trans hlt))]

theorem pteFlags_and {mask : Word} (hmask : flagMask &&& mask = mask) (word : Word) :
    (pteFlags word).val &&& mask = word &&& mask := by
  change word &&& flagMask &&& mask = word &&& mask
  rw [BitVec.and_assoc, hmask]

theorem leafEntry_and {mask : Word} (hmask : flagMask &&& mask = mask) (p : Nat) (perm : Flags) :
    leafEntry p perm &&& mask = (sealedFlags perm).val &&& mask := by
  rw [← hmask, ← BitVec.and_assoc, leafEntry_and_flagMask, ← BitVec.and_assoc,
    (sealedFlags perm).property]

theorem kernelPages_and_pteU (v : Nat) : kernelPages trampoline trapframe v &&& pteU = 0 := by
  unfold kernelPages
  by_cases hv : v = trapframePage
  · rw [hv, Function.update_self, leafEntry_and rfl]
    rfl
  rw [Function.update_of_ne hv]
  by_cases hv' : v = trampolinePage
  · rw [hv', Function.update_self, leafEntry_and rfl]
    rfl
  · rw [Function.update_of_ne hv']
    rfl

/-- The memory of a process: nothing of it is beyond its size, or where the pages of the kernel are. -/
structure UserSpace (ram : Ram) (trampoline trapframe root sz : Nat) (own : Owned Index Word)
    (view : View Index Word Flags) : Prop where
  space : Space arch ram (fun _ => False) (kernelPages trampoline trapframe) root own view
  within : view.Within (pages sz)
  le : pages sz ≤ trapframePage

theorem flat_of_some {page : Page Index Word Flags} (hpage : view v = some page) :
    flat sz view v = some (page.flags, page.words) := by
  unfold flat
  rw [hpage]
  rfl

theorem flat_of_hole (hhole : view v = none) (hv : v < pages sz) : flat sz view v = some untouched := by
  unfold flat
  rw [hhole, if_pos hv]
  rfl

theorem flat_of_le (hhole : view v = none) (hv : pages sz ≤ v) : flat sz view v = none := by
  unfold flat
  rw [hhole, if_neg (Nat.not_lt.mpr hv)]
  rfl

theorem flat_update (page : Page Index Word Flags) :
    flat sz (Function.update view v (some page)) = (flat sz view).store v page.flags page.words := by
  ext w : 1
  unfold Flat.store
  by_cases hw : w = v
  · rw [hw, Function.update_self, flat_of_some (Function.update_self ..)]
  · rw [Function.update_of_ne hw]
    unfold flat
    rw [Function.update_of_ne hw]

theorem store_eq_self {mem : Flat} {flags : Flags} {words : Index → Word}
    (hpage : mem v = some (flags, words)) : mem.store v flags words = mem := by
  unfold Flat.store
  rw [← hpage, Function.update_eq_self]

def userPage (page : Page Index Word Flags) : Bool := allows page.flags pteU

namespace UserSpace

variable (h : UserSpace ram trampoline trapframe root sz own view)
include h

theorem eq_none (hv : trapframePage ≤ v) : view v = none := h.within.eq_none (h.le.trans hv)

theorem lt_trapframe {page : Page Index Word Flags} (hpage : view v = some page) : v < trapframePage := by
  apply Nat.lt_of_lt_of_le _ h.le
  apply h.within v
  rw [hpage]
  exact Option.some_ne_none _

theorem walkaddr_spec (v : Nat) :
    (walkaddr root (v * pgsize)).wp (rule ram fails) own fun pa own' =>
      own' = own ∧ pa = ((view v).filter userPage).elim 0 Page.frame := by
  unfold walkaddr
  by_cases hva : v * pgsize ≥ maxva
  · have hv : trapframePage ≤ v := by
      unfold pgsize maxva at hva
      unfold trapframePage
      omega
    rw [if_pos hva, h.eq_none hv]
    exact ⟨rfl, rfl⟩
  obtain ⟨tree, htree⟩ := h.space
  have hlimit : v < 67108864 := by
    unfold pgsize maxva at hva
    omega
  rw [if_neg hva, Program.wp_bind]
  apply htree.wp_walk (Nat.not_le.mp hva)
  cases hnode : tree.node (arch.upper v) with
  | none =>
      rw [htree.hole_of_table_eq_none hnode]
      exact ⟨rfl, rfl⟩
  | some t =>
      obtain ⟨hwords, hleaf⟩ := htree.slot hnode
      rw [Option.map_some, Option.elim_some, Program.wp_bind, wp_read]
      refine ⟨_, hwords, ?_⟩
      rw [hleaf]
      cases hview : view v with
      | none =>
          rw [htree.hole (lt_limit hlimit) hview, kernelPages_and_pteU, if_pos rfl, ite_self]
          exact ⟨rfl, rfl⟩
      | some page =>
          obtain ⟨-, -, hmaps⟩ := htree.page hview
          have hvalid : valid (tree.leaf (arch.path v)) = true := hmaps.isMapped
          have haddr : pte2pa (tree.leaf (arch.path v)) = page.frame := hmaps.page
          have huser : tree.leaf (arch.path v) &&& pteU = page.flags.val &&& pteU := by
            rw [← hmaps.flags]
            exact (pteFlags_and rfl _).symm
          rw [hvalid, if_neg Bool.noConfusion, huser, haddr]
          by_cases hzero : page.flags.val &&& pteU = 0
          · have hnot : userPage page = false := by
              unfold userPage allows
              rw [hzero]
              rfl
            rw [if_pos hzero, Option.filter_some_neg hnot]
            exact ⟨rfl, rfl⟩
          · have hyes : userPage page = true := bne_iff_ne.mpr hzero
            rw [if_neg hzero, Option.filter_some_pos hyes]
            exact ⟨rfl, rfl⟩

theorem ismapped_spec (hv : v < trapframePage) :
    (ismapped root (v * pgsize)).wp (rule ram fails) own fun mapped own' =>
      own' = own ∧ mapped = (view v).isSome := by
  obtain ⟨tree, htree⟩ := h.space
  have hlimit : v < 67108864 := hv.trans (Nat.lt_succ_of_lt (Nat.lt_succ_self _))
  rw [ismapped, Program.wp_bind]
  apply htree.wp_walk (va_lt hlimit)
  cases hnode : tree.node (arch.upper v) with
  | none =>
      rw [htree.hole_of_table_eq_none hnode]
      exact ⟨rfl, rfl⟩
  | some t =>
      obtain ⟨hwords, hleaf⟩ := htree.slot hnode
      rw [Option.map_some, Option.elim_some, Program.wp_bind, wp_read]
      refine ⟨_, hwords, rfl, ?_⟩
      rw [hleaf]
      cases hview : view v with
      | none =>
          rw [htree.hole (lt_limit hlimit) hview, kernelPages_of_lt hv]
          rfl
      | some page =>
          obtain ⟨-, -, hmaps⟩ := htree.page hview
          exact hmaps.isMapped

theorem vmfault_spec (va : Nat) :
    (vmfault ram root sz va).wp (rule ram fails) own fun pa own' =>
      (pa = 0 ∧ UserSpace ram trampoline trapframe root sz own' view ∧
        (va < sz → view (va / pgsize) = none → fails false ∨ fails true)) ∨
      (pa ≠ 0 ∧ va < sz ∧ view (va / pgsize) = none ∧
        UserSpace ram trampoline trapframe root sz own'
          (Function.update view (va / pgsize) (some ⟨pa, lazyFlags, fun _ => 0⟩))) := by
  unfold vmfault
  by_cases hva : va ≥ sz
  · rw [if_pos hva]
    exact Or.inl ⟨rfl, h, fun hlt => absurd hlt (Nat.not_lt.mpr hva)⟩
  have hpages : va / pgsize < pages sz := by
    rw [lt_pages_iff]
    exact Nat.lt_of_le_of_lt (Nat.div_mul_le_self va pgsize) (Nat.not_le.mp hva)
  have hv : va / pgsize < trapframePage := Nat.lt_of_lt_of_le hpages h.le
  have hlimit : va / pgsize < 67108864 := hv.trans (Nat.lt_succ_of_lt (Nat.lt_succ_self _))
  rw [if_neg hva]
  dsimp only
  rw [pgrounddown, Program.wp_bind]
  apply Program.wp_mono rule_monotone _ (h.ismapped_spec hv)
  intro mapped own' hmapped
  obtain ⟨rfl, rfl⟩ := hmapped
  cases hview : view (va / pgsize) with
  | some page => exact Or.inl ⟨rfl, h, fun _ hnone => absurd hnone (Option.some_ne_none page)⟩
  | none =>
      rw [Option.isSome_none, if_neg Bool.false_ne_true, Program.wp_bind, wp_kalloc]
      refine ⟨fun hfails => Or.inl ⟨rfl, h, fun _ _ => Or.inl hfails⟩, fun mem words hram hmem => ?_⟩
      have hpos : mem ≠ 0 := Nat.ne_of_gt (Nat.lt_of_lt_of_le ram.first_pos hram.1)
      rw [Option.elim_some, Program.wp_bind, wp_fill]
      refine ⟨words, Heap.set_self, ?_⟩
      rw [Heap.set_set, Program.wp_bind]
      apply Program.wp_mono rule_monotone _ (mappages_page h.space hlimit hview (kernelPages_of_lt hv)
        hmem hram _)
      intro result own'' hresult
      rcases hresult with ⟨rfl, hspace⟩ | ⟨rfl, hfails, old, rfl, hold, hspace⟩
      · rw [if_neg (by decide)]
        exact Or.inr ⟨hpos, Nat.not_le.mp hva, rfl, hspace, h.within.update hpages _, h.le⟩
      · rw [if_pos (by decide), Program.wp_bind, wp_kfree hram]
        refine ⟨⟨_, Heap.set_self⟩, ?_⟩
        rw [Heap.erase_set hold]
        exact Or.inl ⟨rfl, ⟨hspace, h.within, h.le⟩, fun _ _ => Or.inr hfails⟩

theorem pageAt_spec (v : Nat) :
    (pageAt ram root sz (v * pgsize)).wp (rule ram fails) own fun pa own' =>
      ∃ view', UserSpace ram trampoline trapframe root sz own' view' ∧ flat sz view' = flat sz view ∧
        ((pa = 0 ∧ (¬fails false → ¬fails true → (flat sz view).user v = none)) ∨
          ∃ page, view' v = some page ∧ pa = page.frame ∧ pa ≠ 0 ∧
            (flat sz view).user v = some (page.flags, page.words)) := by
  rw [pageAt, Program.wp_bind]
  apply Program.wp_mono rule_monotone _ (h.walkaddr_spec v)
  intro pa own' hwalk
  obtain ⟨rfl, rfl⟩ := hwalk
  obtain ⟨tree, htree⟩ := h.space
  cases hview : view v with
  | some page =>
      have hflat : flat sz view v = some (page.flags, page.words) := flat_of_some hview
      obtain ⟨-, hwords, -⟩ := htree.page hview
      have hpos : page.frame ≠ 0 := Nat.ne_of_gt (Nat.lt_of_lt_of_le ram.first_pos (htree.ram hwords).1)
      by_cases huser : userPage page = true
      · have hmem : (flat sz view).user v = some (page.flags, page.words) := by
          unfold Flat.user
          rw [hflat]
          exact Option.filter_some_pos huser
        rw [Option.filter_some_pos huser, Option.elim_some, if_neg hpos]
        exact ⟨view, h, rfl, Or.inr ⟨page, hview, rfl, hpos, hmem⟩⟩
      · have hmem : (flat sz view).user v = none := by
          unfold Flat.user
          rw [hflat]
          exact Option.filter_some_neg (Bool.not_eq_true _ ▸ huser)
        rw [Option.filter_some_neg (Bool.not_eq_true _ ▸ huser), Option.elim_none, if_pos rfl]
        apply Program.wp_mono rule_monotone _ (h.vmfault_spec (v * pgsize))
        intro pa own'' hfault
        rw [mul_div_pgsize, hview] at hfault
        rcases hfault with ⟨rfl, hspace, -⟩ | ⟨-, -, hnone, -⟩
        · exact ⟨view, hspace, rfl, Or.inl ⟨rfl, fun _ _ => hmem⟩⟩
        · exact absurd hnone (Option.some_ne_none page)
  | none =>
      rw [Option.filter_none, Option.elim_none, if_pos rfl]
      apply Program.wp_mono rule_monotone _ (h.vmfault_spec (v * pgsize))
      intro pa own'' hfault
      rw [mul_div_pgsize, ← lt_pages_iff, hview] at hfault
      rcases hfault with ⟨rfl, hspace, hstarved⟩ | ⟨hpos, hlt, -, hspace⟩
      · refine ⟨view, hspace, rfl, Or.inl ⟨rfl, fun hdata htable => ?_⟩⟩
        have hge : pages sz ≤ v := by
          by_contra hlt
          rcases hstarved (Nat.not_le.mp hlt) rfl with hfails | hfails
          · exact hdata hfails
          · exact htable hfails
        unfold Flat.user
        rw [flat_of_le hview hge]
        rfl
      · have hflat := flat_of_hole hview hlt
        refine ⟨_, hspace, ?_, Or.inr ⟨_, Function.update_self .., rfl, hpos, ?_⟩⟩
        · rw [flat_update]
          exact store_eq_self hflat
        · unfold Flat.user
          rw [hflat]
          exact Option.filter_some_pos rfl

omit h in
theorem loadFrom_spec {frame off n : Nat} {words : Index → Word} (hwords : own frame = some words) :
    (loadFrom frame off n).wp (rule ram fails) own fun bytes own' =>
      own' = own ∧ bytes = loadBytes words off n := by
  induction n generalizing off with
  | zero => exact ⟨rfl, rfl⟩
  | succ n ih =>
      rw [loadFrom, Program.wp_bind, wp_read]
      refine ⟨words, hwords, ?_⟩
      rw [Program.wp_bind]
      apply Program.wp_mono rule_monotone _ ih
      intro rest own' hrest
      obtain ⟨rfl, rfl⟩ := hrest
      exact ⟨rfl, rfl⟩

omit h in
theorem loadUntilNull_spec {frame off n : Nat} {words : Index → Word} (hwords : own frame = some words) :
    (loadUntilNull frame off n).wp (rule ram fails) own fun bytes own' =>
      own' = own ∧ bytes = untilNull (loadBytes words off n) := by
  induction n generalizing off with
  | zero => exact ⟨rfl, rfl⟩
  | succ n ih =>
      rw [loadUntilNull, Program.wp_bind, wp_read, loadBytes, untilNull]
      refine ⟨words, hwords, ?_⟩
      by_cases hnull : byteOf (words (slot off)) off = 0
      · rw [if_pos hnull, if_pos hnull]
        exact ⟨rfl, rfl⟩
      · rw [if_neg hnull, if_neg hnull, Program.wp_bind]
        apply Program.wp_mono rule_monotone _ ih
        intro rest own' hrest
        obtain ⟨rfl, rfl⟩ := hrest
        exact ⟨rfl, rfl⟩

theorem wp_load {page : Page Index Word Flags} (hpage : view v = some page) :
    own page.frame = some page.words := by
  obtain ⟨tree, htree⟩ := h.space
  exact (htree.page hpage).2.1

theorem store {page : Page Index Word Flags} (hpage : view v = some page) (words : Index → Word) :
    UserSpace ram trampoline trapframe root sz (own.set page.frame words)
      (Function.update view v (some { page with words })) := by
  obtain ⟨tree, htree⟩ := h.space
  exact ⟨⟨tree, htree.store hpage⟩, h.within.same (View.SamePages.store hpage words), h.le⟩

theorem wp_entry {page : Page Index Word Flags} {mask : Word} (hmask : flagMask &&& mask = mask)
    (hpage : view v = some page) {Q : Option (Nat × Index) → Owned Index Word → Prop}
    (hpost : ∀ t words, own t = some words →
      words (arch.lower v) &&& mask = page.flags.val &&& mask → Q (some (t, arch.lower v)) own) :
    (walk arch maxva false root (v * pgsize)).wp (rule ram fails) own Q := by
  have hlt := h.lt_trapframe hpage
  obtain ⟨tree, htree⟩ := h.space
  obtain ⟨hframe, -, hmaps⟩ := htree.page hpage
  obtain ⟨t, hnode⟩ := tree.node_of_append hframe
  obtain ⟨hwords, hleaf⟩ := htree.slot hnode
  apply htree.wp_walk (va_lt (hlt.trans (Nat.lt_succ_of_lt (Nat.lt_succ_self _))))
  rw [hnode]
  refine hpost t _ hwords ?_
  rw [hleaf, ← hmaps.flags]
  exact (pteFlags_and hmask _).symm

omit h in
/-- The address of the page after one of the user does not wrap. -/
theorem next_page (hv : v < trapframePage) : (v * pgsize + pgsize) % 18446744073709551616 = (v + 1) * pgsize := by
  unfold trapframePage at hv
  unfold pgsize
  omega

theorem copyoutFrom_spec {rounds dstva : Nat} {src : List UInt8} :
    (copyoutFrom ram root sz rounds dstva src).wp (rule ram fails) own fun result own' =>
      ∃ view', UserSpace ram trampoline trapframe root sz own' view' ∧
        (¬fails false → ¬fails true →
          (result, flat sz view') = (flat sz view).copyout rounds dstva src) := by
  induction rounds generalizing dstva src own view with
  | zero => exact ⟨view, h, fun _ _ => rfl⟩
  | succ rounds ih =>
      unfold copyoutFrom Flat.copyout
      by_cases hempty : src.length = 0
      · rw [if_pos hempty, if_pos hempty]
        exact ⟨view, h, fun _ _ => rfl⟩
      rw [if_neg hempty, if_neg hempty, pgrounddown]
      dsimp only
      generalize hv : dstva / pgsize = v
      by_cases hva : v * pgsize ≥ maxva
      · have hle : trapframePage ≤ v := by
          unfold pgsize maxva at hva
          unfold trapframePage
          omega
        have hnone : (flat sz view).user v = none := by
          unfold Flat.user
          rw [flat_of_le (h.eq_none hle) (h.le.trans hle)]
          rfl
        rw [if_pos hva, hnone]
        exact ⟨view, h, fun _ _ => rfl⟩
      rw [if_neg hva, Program.wp_bind]
      apply Program.wp_mono rule_monotone _ (h.pageAt_spec v)
      intro pa own' hfound
      obtain ⟨view', hspace, hflat, hcase⟩ := hfound
      rcases hcase with ⟨rfl, hnone⟩ | ⟨page, hpage, rfl, hpos, huser⟩
      · rw [if_pos rfl]
        refine ⟨view', hspace, fun hdata htable => ?_⟩
        rw [hnone hdata htable, hflat]
      rw [if_neg hpos, Program.wp_bind, huser]
      have hmask : flagMask &&& pteW = pteW := rfl
      apply hspace.wp_entry hmask hpage
      intro t words hwords hentry
      rw [Option.elim_some, Program.wp_bind, wp_read]
      refine ⟨words, hwords, ?_⟩
      rw [hentry]
      dsimp only
      by_cases hwrite : page.flags.val &&& pteW = 0
      · have hnot : allows page.flags pteW = false := by
          unfold allows
          rw [hwrite]
          rfl
        rw [if_pos hwrite, if_pos hnot]
        exact ⟨view', hspace, fun _ _ => congrArg _ hflat⟩
      · have hyes : ¬allows page.flags pteW = false := by
          rw [Bool.not_eq_false]
          exact bne_iff_ne.mpr hwrite
        rw [if_neg hwrite, if_neg hyes, Program.wp_bind, wp_modify]
        refine ⟨page.words, hspace.wp_load hpage, ?_⟩
        rw [next_page (hspace.lt_trapframe hpage)]
        apply Program.wp_mono rule_monotone _ (ih (hspace.store hpage _))
        intro result own'' hcopied
        obtain ⟨view'', hspace'', hresult⟩ := hcopied
        refine ⟨view'', hspace'', fun hdata htable => ?_⟩
        rw [hresult hdata htable, flat_update, hflat]

omit h in
theorem copyoutFrom_nil (rounds dstva : Nat) : copyoutFrom ram root sz rounds dstva [] = pure 0 := by
  cases rounds with
  | zero => rfl
  | succ rounds => rfl

theorem copyout_page {page : Page Index Word Flags} {off : Nat} {src : List UInt8} (hpage : view v = some page)
    (huser : userPage page = true) (hwrite : allows page.flags pteW = true) (hsrc : src ≠ [])
    (hoff : off + src.length ≤ pgsize) :
    (copyout ram root sz (v * pgsize + off) src).wp (rule ram fails) own fun result own' =>
      result = 0 ∧ UserSpace ram trampoline trapframe root sz own'
        (Function.update view v (some { page with words := storeBytes page.words off src })) := by
  have hlength : 0 < src.length := List.length_pos_of_ne_nil hsrc
  obtain ⟨rounds, hrounds⟩ := Nat.exists_eq_succ_of_ne_zero (Nat.ne_of_gt hlength)
  have hlow : (v * pgsize + off) / pgsize = v := by
    unfold pgsize at *
    omega
  have hva : ¬v * pgsize ≥ maxva :=
    Nat.not_le.mpr (va_lt ((h.lt_trapframe hpage).trans (Nat.lt_succ_of_lt (Nat.lt_succ_self _))))
  have hram : page.frame ≠ 0 := by
    obtain ⟨tree, htree⟩ := h.space
    exact Nat.ne_of_gt (Nat.lt_of_lt_of_le ram.first_pos (htree.ram (htree.page hpage).2.1).1)
  have hcount : min (pgsize - off) src.length = src.length := Nat.min_eq_right (by omega)
  rw [copyout, hrounds, copyoutFrom, if_neg (Nat.ne_of_gt hlength), pgrounddown, hlow, if_neg hva,
    Program.wp_bind, pageAt, Program.wp_bind]
  apply Program.wp_mono rule_monotone _ (h.walkaddr_spec v)
  intro pa own' hwalk
  obtain ⟨rfl, rfl⟩ := hwalk
  rw [hpage, Option.filter_some_pos huser, Option.elim_some, if_neg hram, Program.wp_pure, if_neg hram,
    Program.wp_bind]
  have hmask : flagMask &&& pteW = pteW := rfl
  apply h.wp_entry hmask hpage
  intro t words hwords hentry
  rw [Option.elim_some, Program.wp_bind, wp_read]
  refine ⟨words, hwords, ?_⟩
  rw [hentry, if_neg (bne_iff_ne.mp hwrite), Program.wp_bind, wp_modify, Nat.add_sub_cancel_left, hcount,
    List.take_length, List.drop_length, copyoutFrom_nil]
  exact ⟨page.words, h.wp_load hpage, rfl, h.store hpage _⟩

theorem copyinFrom_spec {rounds srcva len : Nat} :
    (copyinFrom ram root sz rounds srcva len).wp (rule ram fails) own fun result own' =>
      ∃ view', UserSpace ram trampoline trapframe root sz own' view' ∧ flat sz view' = flat sz view ∧
        (¬fails false → ¬fails true → result = (flat sz view).copyin rounds srcva len) := by
  induction rounds generalizing srcva len own view with
  | zero => exact ⟨view, h, rfl, fun _ _ => rfl⟩
  | succ rounds ih =>
      unfold copyinFrom Flat.copyin
      by_cases hempty : len = 0
      · rw [if_pos hempty, if_pos hempty]
        exact ⟨view, h, rfl, fun _ _ => rfl⟩
      rw [if_neg hempty, if_neg hempty, pgrounddown]
      dsimp only
      generalize srcva / pgsize = v
      rw [Program.wp_bind]
      apply Program.wp_mono rule_monotone _ (h.pageAt_spec v)
      intro pa own' hfound
      obtain ⟨view', hspace, hflat, hcase⟩ := hfound
      rcases hcase with ⟨rfl, hnone⟩ | ⟨page, hpage, rfl, hpos, huser⟩
      · rw [if_pos rfl]
        refine ⟨view', hspace, hflat, fun hdata htable => ?_⟩
        rw [hnone hdata htable]
      rw [if_neg hpos, Program.wp_bind, huser]
      apply Program.wp_mono rule_monotone _ (loadFrom_spec (hspace.wp_load hpage))
      intro bytes own'' hloaded
      obtain ⟨rfl, rfl⟩ := hloaded
      rw [Program.wp_bind, next_page (hspace.lt_trapframe hpage)]
      apply Program.wp_mono rule_monotone _ (ih hspace)
      intro rest own''' hrest
      obtain ⟨view'', hspace', hflat', hresult⟩ := hrest
      refine ⟨view'', hspace', hflat'.trans hflat, fun hdata htable => ?_⟩
      rw [hresult hdata htable, hflat]

theorem copyinstrFrom_spec {rounds srcva max : Nat} :
    (copyinstrFrom ram root sz rounds srcva max).wp (rule ram fails) own fun result own' =>
      ∃ view', UserSpace ram trampoline trapframe root sz own' view' ∧ flat sz view' = flat sz view ∧
        (¬fails false → ¬fails true → result = (flat sz view).copyinstr rounds srcva max) := by
  induction rounds generalizing srcva max own view with
  | zero => exact ⟨view, h, rfl, fun _ _ => rfl⟩
  | succ rounds ih =>
      unfold copyinstrFrom Flat.copyinstr
      by_cases hempty : max = 0
      · rw [if_pos hempty, if_pos hempty]
        exact ⟨view, h, rfl, fun _ _ => rfl⟩
      rw [if_neg hempty, if_neg hempty, pgrounddown]
      dsimp only
      generalize srcva / pgsize = v
      rw [Program.wp_bind]
      apply Program.wp_mono rule_monotone _ (h.pageAt_spec v)
      intro pa own' hfound
      obtain ⟨view', hspace, hflat, hcase⟩ := hfound
      rcases hcase with ⟨rfl, hnone⟩ | ⟨page, hpage, rfl, hpos, huser⟩
      · rw [if_pos rfl]
        refine ⟨view', hspace, hflat, fun hdata htable => ?_⟩
        rw [hnone hdata htable]
      rw [if_neg hpos, Program.wp_bind, huser]
      apply Program.wp_mono rule_monotone _ (loadUntilNull_spec (hspace.wp_load hpage))
      intro bytes own'' hloaded
      obtain ⟨rfl, rfl⟩ := hloaded
      dsimp only
      generalize untilNull (loadBytes page.words (srcva - v * pgsize)
        (min (pgsize - (srcva - v * pgsize)) max)) = bytes
      by_cases hnull : bytes.2 = true
      · rw [if_pos hnull, if_pos hnull]
        exact ⟨view', hspace, hflat, fun _ _ => rfl⟩
      · rw [if_neg hnull, if_neg hnull, Program.wp_bind, next_page (hspace.lt_trapframe hpage)]
        apply Program.wp_mono rule_monotone _ (ih hspace)
        intro rest own''' hrest
        obtain ⟨view'', hspace', hflat', hresult⟩ := hrest
        refine ⟨view'', hspace', hflat'.trans hflat, fun hdata htable => ?_⟩
        rw [hresult hdata htable, hflat]

end UserSpace

end Spec

end Xv6.Vm.Riscv64
