import Xv6.Vm.Contents
import Xv6.Vm.PageTable

/-!
# Loading a program in the legacy kernels

`exec` as the older ports have it. It builds the new image of a process next to the old one, and frees it where something
goes wrong. The ports differ in the functions of `vm.c` that it calls, and in what they put on the new stack.
-/

namespace Xv6.Vm.ExecLegacy

/-- `elf.h`: how long the headers are, and their fields that `exec` reads. -/
structure Elf where
  ehsize : Nat
  phoff : List UInt8 → Nat
  phnum : List UInt8 → Nat
  entry : List UInt8 → Nat
  phsize : Nat
  type : List UInt8 → Nat
  off : List UInt8 → Nat
  vaddr : List UInt8 → Nat
  filesz : List UInt8 → Nat
  memsz : List UInt8 → Nat

/-- `struct elf32hdr` and `struct proghdr32`. -/
def elf32 : Elf where
  ehsize := 52
  phoff header := field header 4 28
  phnum header := field header 2 44
  entry header := field header 4 24
  phsize := 32
  type header := field header 4 0
  off header := field header 4 4
  vaddr header := field header 4 8
  filesz header := field header 4 16
  memsz header := field header 4 20

def maxarg : Nat := 32

/-- A number as an `uint`. -/
def uint (n : Nat) : Nat := n % 4294967296

/-- `sp - n`. -/
def below (sp n : Nat) : Nat := uint (sp + 4294967296 - n)

/-- An `uint` as it is stored. -/
def word (n : Nat) : List UInt8 := (List.range 4).map fun k => UInt8.ofNat (n / 256 ^ k)

/-- The new image of a process. -/
structure Image where
  pagetable : Nat
  sz : Nat
  entry : Nat
  argc : Nat
  /-- Where the array of pointers to the arguments is. -/
  argv : Nat
  sp : Nat

/-- What `exec` calls, and what a port has different. -/
structure Kernel (I W : Type) where
  elf : Elf
  setupkvm : Code I W (Option Nat)
  allocuvm : (pgdir oldsz newsz : Nat) → Code I W Nat
  loaduvm : (file : List UInt8) → (pgdir addr offset sz : Nat) → Code I W Int
  clearpteu : (pgdir uva : Nat) → Code I W Unit
  copyout : (pgdir va : Nat) → List UInt8 → Code I W Int
  freevm : (pgdir : Nat) → Code I W Unit
  /-- The words of `ustack` before the pointers. -/
  frame : (argc argv : Nat) → List Nat
  /-- What `bad` does before there is a page directory. -/
  unset : Code I W (Option Image)

section Code

variable {I W : Type} (kernel : Kernel I W)

/-- The loop over the program headers: did all go well, and the size then. -/
def loadSegments (file : List UInt8) (pgdir : Nat) : (count off sz : Nat) → Code I W (Bool × Nat)
  | 0, _, sz => pure (true, sz)
  | count + 1, off, sz =>
      let ph := readi file off kernel.elf.phsize
      let vaddr := kernel.elf.vaddr ph
      let filesz := kernel.elf.filesz ph
      let memsz := kernel.elf.memsz ph
      if ph.length ≠ kernel.elf.phsize then pure (false, sz)
      else if kernel.elf.type ph ≠ 1 then loadSegments file pgdir count (uint (off + kernel.elf.phsize)) sz
      else if memsz < filesz then pure (false, sz)
      else do
        let sz1 ← kernel.allocuvm pgdir sz (uint (vaddr + memsz))
        if sz1 = 0 then pure (false, sz1)
        else do
          let loaded ← kernel.loaduvm file pgdir vaddr (kernel.elf.off ph) filesz
          if loaded < 0 then pure (false, sz1)
          else loadSegments file pgdir count (uint (off + kernel.elf.phsize)) sz1

def pushArgs (pgdir : Nat) :
    (argv : List (List UInt8)) → (argc sp : Nat) → (pointers : List UInt8) → Code I W (Option (Nat × Nat × List UInt8))
  | [], argc, sp, pointers => pure (some (argc, sp, pointers))
  | arg :: argv, argc, sp, pointers =>
      if argc ≥ maxarg then pure none
      else
        let sp := below sp (arg.length + 1) / 4 * 4
        do
          let copied ← kernel.copyout pgdir sp (arg ++ [0])
          if copied < 0 then pure none else pushArgs pgdir argv (argc + 1) sp (pointers ++ word sp)

/-- Push `ustack`: where the pointers to the arguments are, and the stack pointer. -/
def pushFrame (pgdir argc sp : Nat) (pointers : List UInt8) : Code I W (Option (Nat × Nat)) := do
  let argv := below sp ((argc + 1) * 4)
  let frame := (kernel.frame argc argv).flatMap word
  let sp := below sp (frame.length + (argc + 1) * 4)
  let copied ← kernel.copyout pgdir sp (frame ++ (pointers ++ word 0))
  if copied < 0 then pure none else pure (some (argv, sp))

/-- What `exec` does at `bad`. -/
def bad (pgdir : Nat) : Code I W (Option Image) := do
  kernel.freevm pgdir
  pure none

/-- The part of `exec` that makes the stack. -/
def buildStack (entry : Nat) (argv : List (List UInt8)) (pgdir sz : Nat) : Code I W (Option Image) := do
  kernel.clearpteu pgdir (sz - 2 * pgsize)
  let pushed ← pushArgs kernel pgdir argv 0 sz []
  pushed.elim (bad kernel pgdir) fun pushed => do
    let framed ← pushFrame kernel pgdir pushed.1 pushed.2.1 pushed.2.2
    framed.elim (bad kernel pgdir) fun framed => pure (some ⟨pgdir, sz, entry, pushed.1, framed.1, framed.2⟩)

/-- The part of `exec` that makes the new image. -/
def buildImage (file : List UInt8) (argv : List (List UInt8)) : Code I W (Option Image) :=
  let elf := readi file 0 kernel.elf.ehsize
  if elf.length < kernel.elf.ehsize then kernel.unset
  else if field elf 4 0 ≠ elfMagic then kernel.unset
  else do
    let pgdir ← kernel.setupkvm
    pgdir.elim (pure none) fun pgdir => do
      let loaded ← loadSegments kernel file pgdir (kernel.elf.phnum elf) (kernel.elf.phoff elf) 0
      if loaded.1 = false then bad kernel pgdir
      else do
        let sz := uint (pgroundup loaded.2)
        let sz1 ← kernel.allocuvm pgdir sz (uint (sz + 2 * pgsize))
        if sz1 = 0 then bad kernel pgdir else buildStack kernel (kernel.elf.entry elf) argv pgdir sz1

/-- Load the program in `file` in place of the one with this page directory. There is no file where `namei` finds none. -/
def exec (file : Option (List UInt8)) (argv : List (List UInt8)) (oldpgdir : Nat) : Code I W (Option Image) :=
  file.elim (pure none) fun file => do
    let image ← buildImage kernel file argv
    image.elim (pure none) fun image => do
      kernel.freevm oldpgdir
      pure (some image)

end Code

/-! ### What it needs -/

/-- The segments of the program are on page boundaries and end below `2^32`, up to the first one that is too large or has a
header that is not right. -/
def Loads (elf : Elf) (bound : Nat) (file : List UInt8) : (count off : Nat) → Prop
  | 0, _ => True
  | count + 1, off =>
      let ph := readi file off elf.phsize
      let fits := elf.vaddr ph + elf.memsz ph < bound
      ph.length = elf.phsize →
        (elf.type ph ≠ 1 → Loads elf bound file count (uint (off + elf.phsize))) ∧
        (elf.type ph = 1 → elf.filesz ph ≤ elf.memsz ph → elf.vaddr ph + elf.memsz ph < 4294967296 ∧
          (fits → elf.vaddr ph % pgsize = 0) ∧ (fits → Loads elf bound file count (uint (off + elf.phsize))))

instance decidableLoads (elf : Elf) (bound : Nat) (file : List UInt8) :
    (count off : Nat) → Decidable (Loads elf bound file count off)
  | 0, _ => isTrue trivial
  | count + 1, off =>
      have := decidableLoads elf bound file count (uint (off + elf.phsize))
      inferInstanceAs (Decidable (_ → _ ∧ _))

/-- Those of a program that `exec` takes. -/
def Loadable (elf : Elf) (bound : Nat) (file : List UInt8) : Prop :=
  Loads elf bound file (elf.phnum (readi file 0 elf.ehsize)) (elf.phoff (readi file 0 elf.ehsize))

instance (elf : Elf) (bound : Nat) (file : List UInt8) : Decidable (Loadable elf bound file) :=
  inferInstanceAs (Decidable (Loads _ _ _ _ _))

/-- The functions that `exec` calls keep what they should of a page table. `Img` is a page table with its size, and in a
`Guarded` one the page below that of the stack is not for the user. -/
structure Keeps {I W : Type} (kernel : Kernel I W) (ram : Ram) (fails : Bool → Prop) (bound : Nat)
    (Img Guarded : Nat → Nat → Owned I W → Prop) : Prop where
  bound_le : bound + 2 * pgsize ≤ 4294967296
  frame_le : ∀ argc argv, (kernel.frame argc argv).length ≤ 3
  lt : ∀ {pgdir sz own}, Img pgdir sz own → sz < bound
  img : ∀ {pgdir sz own}, Guarded pgdir sz own → Img pgdir sz own
  roundup : ∀ {pgdir sz own}, Img pgdir sz own → Img pgdir (pgroundup sz) own
  setupkvm : kernel.setupkvm.wp (rule ram fails) Heap.empty fun pgdir own =>
    (pgdir = none ∧ own = Heap.empty) ∨ ∃ root, pgdir = some root ∧ Img root 0 own
  allocuvm : ∀ {pgdir sz own}, Img pgdir sz own → ∀ newsz,
    (kernel.allocuvm pgdir sz newsz).wp (rule ram fails) own fun sz1 own' =>
      (sz1 = 0 ∧ Img pgdir sz own') ∨ (sz1 ≠ 0 ∧ newsz < bound ∧ sz1 = max sz newsz ∧ Img pgdir sz1 own')
  loaduvm : ∀ {pgdir sz own low n}, Img pgdir sz own → low * pgsize + n ≤ sz → ∀ file offset,
    (kernel.loaduvm file pgdir (low * pgsize) offset n).wp (rule ram fails) own fun _ own' => Img pgdir sz own'
  clearpteu : ∀ {pgdir v own}, Img pgdir ((v + 2) * pgsize) own →
    (kernel.clearpteu pgdir (v * pgsize)).wp (rule ram fails) own fun _ own' => Guarded pgdir ((v + 2) * pgsize) own'
  copyout : ∀ {pgdir v own va bytes}, Guarded pgdir ((v + 2) * pgsize) own → v * pgsize ≤ va →
    va + bytes.length ≤ (v + 2) * pgsize → 0 < bytes.length →
      (kernel.copyout pgdir va bytes).wp (rule ram fails) own fun copied own' =>
        Guarded pgdir ((v + 2) * pgsize) own' ∧ (0 ≤ copied → (v + 1) * pgsize ≤ va)
  freevm : ∀ {pgdir sz own}, Img pgdir sz own →
    (kernel.freevm pgdir).wp (rule ram fails) own fun _ own' => own' = Heap.empty
  unset : ∀ {own}, kernel.unset.wp (rule ram fails) own fun image own' => image = none ∧ own' = own

/-! ### What it does -/

section Spec

variable {I W : Type} {kernel : Kernel I W} {ram : Ram} {fails : Bool → Prop} {bound : Nat}
  {Img Guarded : Nat → Nat → Owned I W → Prop} {own : Owned I W} {pgdir sz v : Nat}

theorem uint_of_lt {n : Nat} (h : n < 4294967296) : uint n = n := Nat.mod_eq_of_lt h

theorem below_eq {sp n : Nat} (hle : n ≤ sp) (hsp : sp < 4294967296) : below sp n = sp - n := by
  unfold below uint
  omega

theorem length_word (n : Nat) : (word n).length = 4 := rfl

theorem length_words (words : List Nat) : (words.flatMap word).length = words.length * 4 := by
  induction words with
  | nil => rfl
  | cons n words ih =>
      rw [List.flatMap_cons, List.length_append, length_word, ih, List.length_cons]
      omega

theorem page_le {sp n : Nat} (hn : n ≤ pgsize) (hlow : (v + 1) * pgsize ≤ sp) : v * pgsize ≤ sp - n := by
  rw [Nat.add_mul, Nat.one_mul] at hlow
  omega

theorem page_le_align {sp : Nat} (h : v * pgsize ≤ sp) : v * pgsize ≤ sp / 4 * 4 := by
  have hpage : v * pgsize = v * 1024 * 4 := by rw [Nat.mul_assoc]; rfl
  rw [hpage] at h ⊢
  omega

theorem loadSegments_spec (hkeeps : Keeps kernel ram fails bound Img Guarded) {file : List UInt8} {count off : Nat}
    (himg : Img pgdir sz own) (hloads : Loads kernel.elf bound file count off) :
    (loadSegments kernel file pgdir count off sz).wp (rule ram fails) own fun loaded own' =>
      (∃ sz', Img pgdir sz' own') ∧ (loaded.1 = true → Img pgdir loaded.2 own') := by
  induction count generalizing off sz own with
  | zero => exact ⟨⟨sz, himg⟩, fun _ => himg⟩
  | succ count ih =>
      have hstop : (∃ sz', Img pgdir sz' own) ∧ (false = true → Img pgdir sz own) := ⟨⟨sz, himg⟩, fun h => Bool.noConfusion h⟩
      unfold loadSegments
      dsimp only [Loads] at hloads ⊢
      generalize readi file off kernel.elf.phsize = ph at hloads ⊢
      by_cases hshort : ph.length ≠ kernel.elf.phsize
      · rw [if_pos hshort]
        exact hstop
      rw [if_neg hshort]
      obtain ⟨hother, hload⟩ := hloads (not_not.mp hshort)
      by_cases htype : kernel.elf.type ph ≠ 1
      · rw [if_pos htype]
        exact ih himg (hother htype)
      rw [if_neg htype]
      by_cases hless : kernel.elf.memsz ph < kernel.elf.filesz ph
      · rw [if_pos hless]
        exact hstop
      obtain ⟨hwrap, haligned, hrest⟩ := hload (not_not.mp htype) (Nat.not_lt.mp hless)
      rw [if_neg hless, Program.wp_bind, uint_of_lt hwrap]
      apply Program.wp_mono rule_monotone _ (hkeeps.allocuvm himg _)
      intro sz1 own' hgrown
      rcases hgrown with ⟨rfl, himg'⟩ | ⟨hne, hfits, hsz1, himg'⟩
      · rw [if_pos rfl]
        exact ⟨⟨sz, himg'⟩, fun h => Bool.noConfusion h⟩
      obtain ⟨low, hlow⟩ := Nat.dvd_of_mod_eq_zero (haligned hfits)
      have hvaddr : kernel.elf.vaddr ph = low * pgsize := hlow.trans (Nat.mul_comm _ _)
      have hinside : low * pgsize + kernel.elf.filesz ph ≤ sz1 := by omega
      rw [if_neg hne, Program.wp_bind, hvaddr]
      apply Program.wp_mono rule_monotone _ (hkeeps.loaduvm himg' hinside _ _)
      intro loaded own'' himg''
      by_cases hfailed : loaded < 0
      · rw [if_pos hfailed]
        exact ⟨⟨sz1, himg''⟩, fun h => Bool.noConfusion h⟩
      · rw [if_neg hfailed]
        exact ih himg'' (hrest hfits)

theorem pushArgs_spec (hkeeps : Keeps kernel ram fails bound Img Guarded) {argv : List (List UInt8)} {argc sp : Nat}
    {pointers : List UInt8} (hguarded : Guarded pgdir ((v + 2) * pgsize) own) (hargs : ∀ arg ∈ argv, arg.length < pgsize)
    (hlow : (v + 1) * pgsize ≤ sp) (hhigh : sp ≤ (v + 2) * pgsize) (haligned : sp % 4 = 0)
    (hpointers : pointers.length = argc * 4) (hargc : argc ≤ maxarg) :
    (pushArgs kernel pgdir argv argc sp pointers).wp (rule ram fails) own fun pushed own' =>
      Guarded pgdir ((v + 2) * pgsize) own' ∧ ∀ argc' sp' pointers', pushed = some (argc', sp', pointers') →
        (v + 1) * pgsize ≤ sp' ∧ sp' ≤ (v + 2) * pgsize ∧ pointers'.length = argc' * 4 ∧ argc' ≤ maxarg := by
  have hbound := hkeeps.bound_le
  have hlt := hkeeps.lt (hkeeps.img hguarded)
  induction argv generalizing argc sp pointers own with
  | nil =>
      refine ⟨hguarded, fun argc' sp' pointers' hsome => ?_⟩
      cases hsome
      exact ⟨hlow, hhigh, hpointers, hargc⟩
  | cons arg argv ih =>
      have hshort : arg.length < pgsize := hargs arg List.mem_cons_self
      unfold pushArgs
      by_cases hmany : argc ≥ maxarg
      · rw [if_pos hmany]
        exact ⟨hguarded, fun argc' sp' pointers' hsome => by cases hsome⟩
      rw [if_neg hmany]
      have hroom : arg.length + 1 ≤ sp := by
        rw [Nat.add_mul] at hlow
        omega
      rw [below_eq hroom (by omega)]
      dsimp only
      have hnear := page_le_align (page_le hshort hlow)
      generalize hsp' : (sp - (arg.length + 1)) / 4 * 4 = sp' at hnear
      have hend : sp' + (arg ++ [0]).length ≤ (v + 2) * pgsize := by
        rw [List.length_append, List.length_singleton]
        omega
      rw [Program.wp_bind]
      apply Program.wp_mono rule_monotone _ (hkeeps.copyout hguarded hnear hend (by simp))
      intro copied own' hcopied
      obtain ⟨hguarded', hcopied⟩ := hcopied
      by_cases hfailed : copied < 0
      · rw [if_pos hfailed]
        exact ⟨hguarded', fun argc' sp' pointers' hsome => by cases hsome⟩
      · rw [if_neg hfailed]
        apply ih hguarded' (fun arg harg => hargs arg (List.mem_cons_of_mem _ harg)) (hcopied (Int.not_lt.mp hfailed))
        · omega
        · omega
        · rw [List.length_append, hpointers, length_word]
          omega
        · exact Nat.lt_of_not_le hmany

theorem pushFrame_spec (hkeeps : Keeps kernel ram fails bound Img Guarded) {argc sp : Nat} {pointers : List UInt8}
    (hguarded : Guarded pgdir ((v + 2) * pgsize) own) (hlow : (v + 1) * pgsize ≤ sp) (hhigh : sp ≤ (v + 2) * pgsize)
    (hpointers : pointers.length = argc * 4) (hargc : argc ≤ maxarg) :
    (pushFrame kernel pgdir argc sp pointers).wp (rule ram fails) own fun _ own' =>
      Guarded pgdir ((v + 2) * pgsize) own' := by
  have hbound := hkeeps.bound_le
  have hlt := hkeeps.lt (hkeeps.img hguarded)
  have hframe := hkeeps.frame_le argc (below sp ((argc + 1) * 4))
  unfold pushFrame
  dsimp only
  generalize kernel.frame argc (below sp ((argc + 1) * 4)) = frame at hframe
  have hlength : (frame.flatMap word ++ (pointers ++ word 0)).length = frame.length * 4 + (argc + 1) * 4 := by
    rw [List.length_append, List.length_append, length_words, hpointers, length_word]
    omega
  have hroom : frame.length * 4 + (argc + 1) * 4 ≤ pgsize := by
    unfold pgsize
    unfold maxarg at hargc
    omega
  have hroom' : pgsize ≤ sp := by
    rw [Nat.add_mul] at hlow
    omega
  have hsp : below sp ((frame.flatMap word).length + (argc + 1) * 4) = sp - (frame.length * 4 + (argc + 1) * 4) := by
    rw [length_words]
    exact below_eq (by omega) (by omega)
  rw [Program.wp_bind, hsp]
  apply Program.wp_mono rule_monotone _ (@hkeeps.copyout _ _ _ _ (frame.flatMap word ++ (pointers ++ word 0)) hguarded ?_ ?_ ?_)
  · intro copied own' hcopied
    by_cases hfailed : copied < 0
    · rw [if_pos hfailed]
      exact hcopied.1
    · rw [if_neg hfailed]
      exact hcopied.1
  · exact page_le hroom hlow
  · rw [hlength]
    omega
  · rw [hlength]
    omega

theorem bad_spec (hkeeps : Keeps kernel ram fails bound Img Guarded) (himg : Img pgdir sz own) :
    (bad kernel pgdir).wp (rule ram fails) own fun image own' => image = none ∧ own' = Heap.empty := by
  rw [bad, Program.wp_bind]
  apply Program.wp_mono rule_monotone _ (hkeeps.freevm himg)
  exact fun _ _ hempty => ⟨rfl, hempty⟩

/-- What `exec` ends with: nothing, or an image. -/
def Built (Img : Nat → Nat → Owned I W → Prop) (image : Option Image) (own : Owned I W) : Prop :=
  (image = none ∧ own = Heap.empty) ∨ ∃ new, image = some new ∧ Img new.pagetable new.sz own

theorem buildStack_spec (hkeeps : Keeps kernel ram fails bound Img Guarded) {entry : Nat} {argv : List (List UInt8)}
    (himg : Img pgdir ((v + 2) * pgsize) own) (hargs : ∀ arg ∈ argv, arg.length < pgsize) :
    (buildStack kernel entry argv pgdir ((v + 2) * pgsize)).wp (rule ram fails) own (Built Img) := by
  have hfailed : ∀ {own}, Guarded pgdir ((v + 2) * pgsize) own → (bad kernel pgdir).wp (rule ram fails) own (Built Img) :=
    fun hguarded => Program.wp_mono rule_monotone (fun _ _ hempty => Or.inl hempty) (bad_spec hkeeps (hkeeps.img hguarded))
  have hguard : (v + 2) * pgsize - 2 * pgsize = v * pgsize := by rw [Nat.add_mul, Nat.add_sub_cancel]
  have hhigh : (v + 1) * pgsize ≤ (v + 2) * pgsize := Nat.mul_le_mul_right _ (Nat.le_succ _)
  have haligned : (v + 2) * pgsize % 4 = 0 := by
    unfold pgsize
    omega
  rw [buildStack, Program.wp_bind, hguard]
  apply Program.wp_mono rule_monotone _ (hkeeps.clearpteu himg)
  intro _ own' hguarded
  rw [Program.wp_bind]
  apply Program.wp_mono rule_monotone _ (@pushArgs_spec _ _ _ _ _ _ _ _ _ _ _ hkeeps _ 0 _ [] hguarded hargs hhigh le_rfl haligned rfl
    (Nat.zero_le _))
  intro pushed own₁ hpushed
  obtain ⟨hguarded₁, hpushed⟩ := hpushed
  cases pushed with
  | none => exact hfailed hguarded₁
  | some pushed =>
      obtain ⟨hlow, hhigh', hpointers, hargc⟩ := hpushed pushed.1 pushed.2.1 pushed.2.2 rfl
      rw [Option.elim_some, Program.wp_bind]
      apply Program.wp_mono rule_monotone _ (pushFrame_spec hkeeps hguarded₁ hlow hhigh' hpointers hargc)
      intro framed own₂ hguarded₂
      cases framed with
      | none => exact hfailed hguarded₂
      | some framed => exact Or.inr ⟨_, rfl, hkeeps.img hguarded₂⟩

theorem buildImage_spec (hkeeps : Keeps kernel ram fails bound Img Guarded) {file : List UInt8} {argv : List (List UInt8)}
    (hloads : Loadable kernel.elf bound file) (hargs : ∀ arg ∈ argv, arg.length < pgsize) :
    (buildImage kernel file argv).wp (rule ram fails) Heap.empty (Built Img) := by
  have hunset : kernel.unset.wp (rule ram fails) Heap.empty (Built Img) :=
    Program.wp_mono rule_monotone (fun _ _ hnone => Or.inl hnone) hkeeps.unset
  have hfailed : ∀ {own pgdir sz}, Img pgdir sz own → (bad kernel pgdir).wp (rule ram fails) own (Built Img) :=
    fun himg => Program.wp_mono rule_monotone (fun _ _ hempty => Or.inl hempty) (bad_spec hkeeps himg)
  have hbound := hkeeps.bound_le
  unfold buildImage
  unfold Loadable at hloads
  dsimp only
  generalize readi file 0 kernel.elf.ehsize = elf at hloads ⊢
  by_cases hshort : elf.length < kernel.elf.ehsize
  · rw [if_pos hshort]
    exact hunset
  rw [if_neg hshort]
  by_cases hmagic : field elf 4 0 ≠ elfMagic
  · rw [if_pos hmagic]
    exact hunset
  rw [if_neg hmagic, Program.wp_bind]
  apply Program.wp_mono rule_monotone _ hkeeps.setupkvm
  rintro pgdir own (⟨rfl, rfl⟩ | ⟨root, rfl, himg⟩)
  · exact Or.inl ⟨rfl, rfl⟩
  rw [Option.elim_some, Program.wp_bind]
  apply Program.wp_mono rule_monotone _ (loadSegments_spec hkeeps himg hloads)
  intro loaded own' hloaded
  obtain ⟨⟨sz', himg'⟩, hloaded⟩ := hloaded
  by_cases hbad : loaded.1 = false
  · rw [if_pos hbad]
    exact hfailed himg'
  have himg₁ := hkeeps.roundup (hloaded (Bool.eq_true_of_not_eq_false hbad))
  have hlt := hkeeps.lt himg₁
  have huint : uint (pgroundup loaded.2) = pgroundup loaded.2 := uint_of_lt (by omega)
  have huint' : uint (pgroundup loaded.2 + 2 * pgsize) = (pages loaded.2 + 2) * pgsize := by
    rw [uint_of_lt (by omega), pgroundup_eq, Nat.add_mul]
  rw [if_neg hbad, huint, Program.wp_bind, huint']
  apply Program.wp_mono rule_monotone _ (hkeeps.allocuvm himg₁ _)
  rintro sz1 own₁ (⟨rfl, himg₂⟩ | ⟨hne, -, hsz1, himg₂⟩)
  · rw [if_pos rfl]
    exact hfailed himg₂
  · have hmax : sz1 = (pages loaded.2 + 2) * pgsize := by
      rw [hsz1, pgroundup_eq]
      exact Nat.max_eq_right (Nat.mul_le_mul_right _ (Nat.le_add_right _ _))
    rw [if_neg hne, hmax]
    rw [hmax] at himg₂
    exact buildStack_spec hkeeps himg₂ hargs

theorem exec_spec (hkeeps : Keeps kernel ram fails bound Img Guarded) {file : Option (List UInt8)} {argv : List (List UInt8)}
    (hloads : ∀ content ∈ file, Loadable kernel.elf bound content) (hargs : ∀ arg ∈ argv, arg.length < pgsize)
    (himg : Img pgdir sz own) :
    (exec kernel file argv pgdir).wp (rule ram fails) own fun image own' =>
      (image = none ∧ own' = own) ∨ ∃ new, image = some new ∧ Img new.pagetable new.sz own' := by
  unfold exec
  cases file with
  | none => exact Or.inl ⟨rfl, rfl⟩
  | some file =>
      have hempty : Heap.empty.Disjoint own := Heap.Disjoint.empty
      have hbuild := Program.wp_frame rule_monotone rule_local hempty
        (buildImage_spec hkeeps (hloads file rfl) hargs)
      rw [Heap.empty_union] at hbuild
      rw [Option.elim_some, Program.wp_bind]
      apply Program.wp_mono rule_monotone _ hbuild
      rintro image own' ⟨built, rfl, hdisjoint, ⟨rfl, rfl⟩ | ⟨new, rfl, hnew⟩⟩
      · exact Or.inl ⟨rfl, Heap.empty_union⟩
      · rw [Option.elim_some, Program.wp_bind, hdisjoint.union_comm]
        apply Program.wp_mono rule_monotone _ (Program.wp_frame rule_monotone rule_local hdisjoint.symm (hkeeps.freevm himg))
        rintro _ own'' ⟨_, rfl, -, rfl⟩
        rw [Heap.empty_union]
        exact Or.inr ⟨new, rfl, hnew⟩

end Spec

end Xv6.Vm.ExecLegacy
