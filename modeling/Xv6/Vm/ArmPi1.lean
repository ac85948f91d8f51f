import Mathlib.Data.BitVec
import Xv6.Vm.Mapping

/-!
# Memory exhaustion in the legacy kernels

`allocuvm`, `deallocuvm`, `copyuvm` and `freevm` on the Raspberry Pi 1. A page directory is one page, and
a table at the bottom is a page of which the first 256 entries are used.
-/

namespace Xv6.Vm.ArmPi1

abbrev Word := BitVec 32

abbrev Attr := BitVec 12

abbrev Index := Fin 1024

theorem neZero_index : NeZero 1024 := ⟨Nat.succ_ne_zero 1023⟩

def index (i : Nat) : Index := ⟨i % 1024, Nat.mod_lt i (Nat.succ_pos 1023)⟩

def npdentries : Nat := 1024

def nptentries : Nat := 1024

def userbound : Nat := 0x40000000

/-- `UVMPDXATTR`: `DOMAIN0|COARSE`. -/
def uvmpdxattr : Attr := 0x001

/-- `UVMPTXATTR`: `PTX_AP(U_RW)|CACHED|BUFFERED|SMALL`. -/
def uvmptxattr : Attr := 0xFFE

def pdx (va : Nat) : Nat := va / 1048576 % 4096

def ptx (va : Nat) : Nat := va / 4096 % 256

def entry (p : Nat) (attr : Attr) : Word := BitVec.ofNat 32 (p * 4096) ||| attr.setWidth 32

/-- `PTE_ADDR`, as a page number. -/
def pteAddr (pte : Word) : Nat := pte.toNat / 4096

def pteFlags (pte : Word) : Attr := pte.setWidth 12

theorem entry_toNat {p : Nat} (hp : p < 1048576) (attr : Attr) :
    (entry p attr).toNat = p * 4096 + attr.toNat := by
  have hattr := attr.isLt
  have hmul : p * 4096 = p <<< 12 := by rw [Nat.shiftLeft_eq]
  unfold entry
  rw [BitVec.toNat_or, BitVec.toNat_ofNat, BitVec.toNat_setWidth, Nat.mod_eq_of_lt (by omega),
    Nat.mod_eq_of_lt (by omega), hmul, ← Nat.shiftLeft_add_eq_or_of_lt hattr]

theorem pteAddr_entry {p : Nat} (hp : p < 1048576) (attr : Attr) : pteAddr (entry p attr) = p := by
  have hattr := attr.isLt
  rw [pteAddr, entry_toNat hp]
  omega

theorem pteFlags_entry {p : Nat} (hp : p < 1048576) (attr : Attr) :
    pteFlags (entry p attr) = attr := by
  have hattr := attr.isLt
  apply BitVec.eq_of_toNat_eq
  rw [pteFlags, BitVec.toNat_setWidth, entry_toNat hp]
  omega

theorem entry_ne_zero {p : Nat} (hp : p < 1048576) {attr : Attr} (hne : 0 < p ∨ attr ≠ 0) :
    entry p attr ≠ 0 := by
  intro hzero
  have haddr := pteAddr_entry hp attr
  have hflags := pteFlags_entry hp attr
  rw [hzero] at haddr hflags
  cases hne with
  | inl hpos =>
      rw [← haddr] at hpos
      exact absurd hpos (by decide)
  | inr hne => exact hne (hflags.symm.trans (by decide))

/-- The entries of the page tables of the Raspberry Pi 1. -/
def arch : Arch Index Word Attr where
  depth := 2
  upper v := [index (pdx (v * 4096))]
  lower v := index (ptx (v * 4096))
  limit := 262144
  zero := 0
  table p := entry p uvmpdxattr
  leaf p attr := entry p attr
  page := pteAddr
  flags := pteFlags
  sealed attr := attr
  isTable pte := pte != 0
  isMapped pte := pte != 0
  length_upper _ := rfl
  injective := by
    intro v w hv hw h
    simp only [List.cons_append, List.nil_append, List.cons.injEq, index, pdx, ptx,
      Fin.mk.injEq, and_true] at h
    omega
  isTable_zero := rfl
  isTable_table p hp := bne_iff_ne.mpr (entry_ne_zero hp (Or.inr (by decide)))
  page_table p hp := pteAddr_entry hp uvmpdxattr
  isMapped_zero := rfl
  isMapped_leaf p hp hpos _ := bne_iff_ne.mpr (entry_ne_zero hp (Or.inl hpos))
  page_leaf p hp attr := pteAddr_entry hp attr
  flags_leaf p hp attr := pteFlags_entry hp attr

section Code

variable (ram : Ram)

/-- Return the address of the PTE in page table `pgdir` that corresponds to virtual address `va`: its
page and its index there. If `alloc`, create any required page table pages. -/
def walkpgdir (pgdir va : Nat) (l1attr : Attr) (alloc : Bool) : Code Index Word (Option (Nat × Index)) := do
  let pde ← read pgdir (index (pdx va))
  if pde ≠ 0 then pure (some (pteAddr pde, index (ptx va)))
  else if alloc = false then pure none
  else
    let pgtab ← kalloc true
    pgtab.elim (pure none) fun pgtab => do
      fill pgtab 0
      write pgdir (index (pdx va)) (entry pgtab l1attr)
      pure (some (pgtab, index (ptx va)))

/-- The part of `mappages` for 4kB pages: that for 1 MB pages maps the kernel. `pa` is a page number. -/
def mappages (pgdir va size pa : Nat) (l1attr l2attr : Attr) : Code Index Word Int :=
  let a := pgrounddown va
  let last := pgrounddown (va + size - 1)
  mapFrom arch (walkpgdir pgdir · l1attr true) (· != 0) "remap" l2attr ((last - a) / pgsize + 1) a pa

/-- Set up kernel part of a page table. -/
def setupkvm : Code Index Word (Option Nat) := do
  let pgdir ← kalloc false
  pgdir.elim (pure none) fun pgdir => do
    fill pgdir 0
    pure (some pgdir)

/-- The loop of `deallocuvm`. Each round goes at least one page further. -/
def deallocFrom (pgdir oldsz : Nat) : (rounds a : Nat) → Code Index Word Unit
  | 0, _ => pure ()
  | rounds + 1, a =>
      if a < oldsz then do
        let pte ← walkpgdir pgdir a uvmpdxattr false
        pte.elim (deallocFrom pgdir oldsz rounds (a + (nptentries - 1) * pgsize + pgsize)) fun pte => do
          let word ← read pte.1 pte.2
          Program.when (word ≠ 0) do
            panicIf (pteAddr word = 0) "kfree"
            kfree ram (pteAddr word)
            write pte.1 pte.2 0
          deallocFrom pgdir oldsz rounds (a + pgsize)
      else pure ()

/-- Deallocate user pages to bring the process size from `oldsz` to `newsz`. Returns the new process
size. -/
def deallocuvm (pgdir oldsz newsz : Nat) : Code Index Word Nat := do
  if newsz ≥ oldsz then pure oldsz
  else
    deallocFrom ram pgdir oldsz (pages oldsz) (pgroundup newsz)
    pure newsz

/-- The loop of `allocuvm`. -/
def allocFrom (pgdir oldsz newsz : Nat) : (count a : Nat) → Code Index Word Nat
  | 0, _ => pure newsz
  | count + 1, a => do
      let mem ← kalloc false
      mem.elim (do
        let _ ← deallocuvm ram pgdir newsz oldsz
        pure 0) fun mem => do
        fill mem 0
        -- What it returns is not looked at.
        let _ ← mappages pgdir a pgsize mem uvmpdxattr uvmptxattr
        allocFrom pgdir oldsz newsz count (a + pgsize)

/-- Allocate page tables and physical memory to grow process from `oldsz` to `newsz`. Returns new size or
0 on error. -/
def allocuvm (pgdir oldsz newsz : Nat) : Code Index Word Nat :=
  if newsz ≥ userbound then pure 0
  else if newsz < oldsz then pure oldsz
  else allocFrom ram pgdir oldsz newsz (pages newsz - pages oldsz) (pgroundup oldsz)

/-- The loop of `freevm`. -/
def freeTables (pgdir : Nat) : (count i : Nat) → Code Index Word Unit
  | 0, _ => pure ()
  | count + 1, i => do
      let pde ← read pgdir (index i)
      Program.when (pde ≠ 0) (kfree ram (pteAddr pde))
      freeTables pgdir count (i + 1)

def freevm (pgdir : Nat) : Code Index Word Unit := do
  let _ ← deallocuvm ram pgdir userbound 0
  freeTables ram pgdir npdentries 0
  kfree ram pgdir

/-- The loop of `copyuvm`. -/
def copyFrom (pgdir d : Nat) : (count i : Nat) → Code Index Word (Option Nat)
  | 0, _ => pure (some d)
  | count + 1, i => do
      let pte ← walkpgdir pgdir i uvmpdxattr false
      pte.elim (panic "copyuvm: pte should exist") fun pte => do
        let word ← read pte.1 pte.2
        panicIf (word = 0) "copyuvm: page not present"
        let mem ← kalloc false
        mem.elim (do
          freevm ram d
          pure none) fun mem => do
          copy mem (pteAddr word)
          let mapped ← mappages d i pgsize mem uvmpdxattr (pteFlags word)
          if mapped < 0 then do
            freevm ram d
            pure none
          else copyFrom pgdir d count (i + pgsize)

/-- Given a parent process's page table, create a copy of it for a child. -/
def copyuvm (pgdir sz : Nat) : Code Index Word (Option Nat) := do
  let d ← setupkvm
  d.elim (pure none) fun d => copyFrom ram pgdir d (pages sz) 0

end Code

end Xv6.Vm.ArmPi1
