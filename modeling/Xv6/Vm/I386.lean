import Xv6.Lib.WordBytes
import Xv6.Vm.ArmPi1

/-!
# Page tables on i386

A page directory and one level of tables. The kernel is mapped above `KERNBASE` in every page table, and
the process below it. Entries are words of 32 bits, written as on the Raspberry Pi 1.
-/

namespace Xv6.Vm.I386

open ArmPi1 (Word Attr Index index entry pteAddr pteFlags entry_toNat pteAddr_entry pteFlags_entry)

attribute [local instance] ArmPi1.neZero_index

def pteP : Attr := 0x001

def pteW : Attr := 0x002

def pteU : Attr := 0x004

def has (pte : Word) (mask : Attr) : Bool := pteFlags pte &&& mask != 0

def pdx (va : Nat) : Nat := va / 4194304 % 1024

def ptx (va : Nat) : Nat := va / 4096 % 1024

def npdentries : Nat := 1024

def kernbase : Nat := 0x80000000

def extmem : Nat := 0x100000

def phystop : Nat := 0xE000000

def devspace : Nat := 0xFE000000

def kernlink : Nat := kernbase + extmem

def v2p (a : Nat) : Nat := a - kernbase

/-- A number as an `uint`. -/
def uint (n : Int) : Nat := (n % 4294967296).toNat

theorem has_entry {p : Nat} (hp : p < 1048576) (attr mask : Attr) :
    has (entry p attr) mask = (attr &&& mask != 0) := by
  rw [has, pteFlags_entry hp]

theorem has_zero (mask : Attr) : has 0 mask = false := by
  have hzero : pteFlags 0 &&& mask = 0 := BitVec.zero_and
  rw [has, hzero]
  rfl

theorem or_pteP (attr : Attr) : ((attr ||| pteP) &&& pteP != 0) = true := by
  have hself : (attr ||| pteP) &&& pteP = pteP := by
    ext i hi
    rw [BitVec.getElem_and, BitVec.getElem_or]
    cases attr[i] with
    | false => rw [Bool.false_or, Bool.and_self]
    | true => rw [Bool.true_or, Bool.true_and]
  rw [hself]
  rfl

/-- The entries of the page tables. The flags of an entry say too whether it maps a page. -/
def arch : Arch Index Word Attr where
  depth := 2
  upper v := [index (pdx (v * 4096))]
  lower v := index (ptx (v * 4096))
  limit := 1048576
  zero := 0
  table p := entry p (pteP ||| pteW ||| pteU)
  leaf p perm := entry p (perm ||| pteP)
  page := pteAddr
  flags := pteFlags
  sealed perm := perm ||| pteP
  isTable pte := has pte pteP
  isMapped pte := has pte pteP
  length_upper _ := rfl
  injective := by
    intro v w hv hw h
    simp only [List.cons_append, List.nil_append, List.cons.injEq, index, pdx, ptx,
      Fin.mk.injEq, and_true] at h
    omega
  isTable_zero := has_zero pteP
  isTable_table p hp := has_entry hp (pteP ||| pteW ||| pteU) pteP
  page_table p hp := pteAddr_entry hp (pteP ||| pteW ||| pteU)
  isMapped_zero := has_zero pteP
  isMapped_leaf p hp _ perm := (has_entry hp (perm ||| pteP) pteP).trans (or_pteP perm)
  page_leaf p hp perm := pteAddr_entry hp (perm ||| pteP)
  flags_leaf p hp perm := pteFlags_entry hp (perm ||| pteP)

/-! ### The code -/

section Code

/-- Return the address of the PTE in page table `pgdir` that corresponds to virtual address `va`: its
page and its index there. If `alloc`, create any required page table pages. -/
def walkpgdir (pgdir va : Nat) (alloc : Bool) : Code Index Word (Option (Nat × Index)) := do
  let pde ← read pgdir (index (pdx va))
  if has pde pteP then pure (some (pteAddr pde, index (ptx va)))
  else if alloc = false then pure none
  else
    let pgtab ← kalloc true
    pgtab.elim (pure none) fun pgtab => do
      fill pgtab 0
      write pgdir (index (pdx va)) (entry pgtab (pteP ||| pteW ||| pteU))
      pure (some (pgtab, index (ptx va)))

/-- Create PTEs for virtual addresses starting at `va` that refer to physical addresses starting at that
of page `pa`. -/
def mappages (pgdir va size pa : Nat) (perm : Attr) : Code Index Word Int :=
  let a := pgrounddown va
  let last := pgrounddown (uint (va + size - 1))
  mapFrom arch (walkpgdir pgdir · true) (has · pteP) "remap" perm ((last - a) / pgsize + 1) a pa

variable (ram : Ram)

/-- The loop of `deallocuvm`. Each round goes at least one page further. -/
def deallocFrom (pgdir oldsz : Nat) : (rounds a : Nat) → Code Index Word Unit
  | 0, _ => pure ()
  | rounds + 1, a =>
      if a < oldsz then do
        let pte ← walkpgdir pgdir a false
        -- `PGADDR(PDX(a) + 1, 0, 0) - PGSIZE`, and a page further.
        pte.elim (deallocFrom pgdir oldsz rounds ((pdx a + 1) * 4194304 - pgsize + pgsize)) fun pte => do
          let word ← read pte.1 pte.2
          Program.when (has word pteP = true) do
            panicIf (pteAddr word = 0) "kfree"
            kfree ram (pteAddr word)
            write pte.1 pte.2 0
          deallocFrom pgdir oldsz rounds (a + pgsize)
      else pure ()

/-- Deallocate user pages to bring the process size from `oldsz` to `newsz`. Returns the new process
size. -/
def deallocuvm (pgdir oldsz newsz : Nat) : Code Index Word Nat := do
  if newsz ≥ oldsz then pure oldsz
  else
    deallocFrom ram pgdir oldsz (pages oldsz) (pgroundup newsz)
    pure newsz

/-- The loop of `allocuvm`. -/
def allocFrom (pgdir oldsz newsz : Nat) : (count a : Nat) → Code Index Word Nat
  | 0, _ => pure newsz
  | count + 1, a => do
      let mem ← kalloc false
      mem.elim (do
        let _ ← deallocuvm ram pgdir newsz oldsz
        pure 0) fun mem => do
        fill mem 0
        let mapped ← mappages pgdir a pgsize mem (pteW ||| pteU)
        if mapped < 0 then do
          let _ ← deallocuvm ram pgdir newsz oldsz
          kfree ram mem
          pure 0
        else allocFrom pgdir oldsz newsz count (a + pgsize)

/-- Allocate page tables and physical memory to grow process from `oldsz` to `newsz`, which need not be
page aligned. Returns new size or 0 on error. -/
def allocuvm (pgdir oldsz newsz : Nat) : Code Index Word Nat :=
  if newsz ≥ kernbase then pure 0
  else if newsz < oldsz then pure oldsz
  else allocFrom ram pgdir oldsz newsz (pages newsz - pages oldsz) (pgroundup oldsz)

/-- The loop of `freevm`. -/
def freeTables (pgdir : Nat) : (count i : Nat) → Code Index Word Unit
  | 0, _ => pure ()
  | count + 1, i => do
      let pde ← read pgdir (index i)
      Program.when (has pde pteP = true) (kfree ram (pteAddr pde))
      freeTables pgdir count (i + 1)

def freevm (pgdir : Nat) : Code Index Word Unit := do
  let _ ← deallocuvm ram pgdir kernbase 0
  freeTables ram pgdir npdentries 0
  kfree ram pgdir

/-- Clear `PTE_U` on a page. Used to create an inaccessible page beneath the user stack. -/
def clearpteu (pgdir uva : Nat) : Code Index Word Unit := do
  let pte ← walkpgdir pgdir uva false
  pte.elim (panic "clearpteu") fun pte => do
    let word ← read pte.1 pte.2
    write pte.1 pte.2 (word &&& ~~~pteU.setWidth 32)

/-- The kernel's mappings, which are present in every process's page table. -/
structure Kmap where
  virt : Nat
  physStart : Nat
  physEnd : Nat
  perm : Attr

/-- The kernel's data begins at the address `data`. -/
def kmap (data : Nat) : List Kmap :=
  [⟨kernbase, 0, extmem, pteW⟩,
    ⟨kernlink, v2p kernlink, v2p data, 0⟩,
    ⟨data, v2p data, phystop, pteW⟩,
    ⟨devspace, devspace, 0, pteW⟩]

/-- The loop of `setupkvm`. -/
def mapKernel (pgdir : Nat) : List Kmap → Code Index Word (Option Nat)
  | [] => pure (some pgdir)
  | k :: rest => do
      let mapped ← mappages pgdir k.virt (uint (k.physEnd - k.physStart)) (k.physStart / pgsize) k.perm
      if mapped < 0 then do
        freevm ram pgdir
        pure none
      else mapKernel pgdir rest

/-- Set up kernel part of a page table, with the kernel's mappings. -/
def setupkvm (kmap : List Kmap) : Code Index Word (Option Nat) := do
  let pgdir ← kalloc false
  pgdir.elim (pure none) fun pgdir => do
    fill pgdir 0
    panicIf (kernbase + phystop > devspace) "PHYSTOP too high"
    mapKernel ram pgdir kmap

/-! Copying. -/

/-- A number as an `uint64`. -/
def uint64 (n : Nat) : Nat := n % 18446744073709551616

/-- Map user virtual address to kernel address. Where `walkpgdir` finds no page table the entry is read
through a null pointer, and nothing is said about what follows. -/
def uva2ka (pgdir uva : Nat) : Code Index Word (Option Nat) := do
  let pte ← walkpgdir pgdir uva false
  pte.elim (panic "null pte") fun pte => do
    let word ← read pte.1 pte.2
    if has word pteP = false then pure none
    else if has word pteU = false then pure none
    else pure (some (pteAddr word))

/-- The loop of `arch_copyout`. Each round copies at least one byte. The address of a page is cut to a
pointer, of 32 bits. -/
def copyoutFrom (pagetable : Nat) : (rounds dstva : Nat) → List UInt8 → Code Index Word Int
  | 0, _, _ => pure 0
  | rounds + 1, dstva, src =>
      if src.length = 0 then pure 0
      else do
        let va0 := pgrounddown dstva
        let pa0 ← uva2ka pagetable (uint va0)
        pa0.elim (pure (-1)) fun pa0 => do
          let n := min (pgsize - (dstva - va0)) src.length
          modify pa0 fun words => WordBytes.storeBytes 4 words (dstva - va0) (src.take n)
          copyoutFrom pagetable rounds (uint64 (va0 + pgsize)) (src.drop n)

/-- Copy from `src` to user address `dstva` in page table `pagetable`. -/
def archCopyout (pagetable dstva : Nat) (src : List UInt8) : Code Index Word Int :=
  copyoutFrom pagetable src.length dstva src

/-- `memmove` from a page: some of its bytes. -/
def loadFrom (page : Nat) : (off n : Nat) → Code Index Word (List UInt8)
  | _, 0 => pure []
  | off, n + 1 => do
      let word ← read page (WordBytes.slot 4 1024 off)
      let rest ← loadFrom page (off + 1) n
      pure (WordBytes.byteOf 4 word off :: rest)

/-- The loop of `arch_copyin`: the status, and the bytes that were copied. -/
def copyinFrom (pagetable : Nat) : (rounds srcva len : Nat) → Code Index Word (Int × List UInt8)
  | 0, _, _ => pure (0, [])
  | rounds + 1, srcva, len =>
      if len = 0 then pure (0, [])
      else do
        let va0 := pgrounddown srcva
        let pa0 ← uva2ka pagetable (uint va0)
        pa0.elim (pure (-1, [])) fun pa0 => do
          let n := min (pgsize - (srcva - va0)) len
          let bytes ← loadFrom pa0 (srcva - va0) n
          let rest ← copyinFrom pagetable rounds (uint64 (va0 + pgsize)) (len - n)
          pure (rest.1, bytes ++ rest.2)

/-- Copy `len` bytes from user address `srcva` in page table `pagetable`. -/
def archCopyin (pagetable srcva len : Nat) : Code Index Word (Int × List UInt8) :=
  copyinFrom pagetable len srcva len

def argaddr (arg : BitVec 32) : Nat := arg.toNat

end Code

end Xv6.Vm.I386
