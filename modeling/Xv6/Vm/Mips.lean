import Mathlib.Data.BitVec
import Mathlib.Logic.Function.Basic
import Xv6.Vm.PageTable

/-!
# Page tables on MIPS

An entry of a page table is for two pages, each in one half of it. A page directory is held with the
tables that it names; pages are named by their numbers in physical memory.
-/

namespace Xv6.Vm.Mips

theorem neZero_directory : NeZero 1024 := ⟨Nat.succ_ne_zero 1023⟩

theorem neZero_table : NeZero 512 := ⟨Nat.succ_ne_zero 511⟩

attribute [local instance] neZero_directory neZero_table

abbrev Elo := BitVec 32

/-- `pte_t`. -/
abbrev Pte := BitVec 64

def eloG : Elo := 0x001

def eloV : Elo := 0x002

def eloD : Elo := 0x004

def eloAddr (elo : Elo) : Elo := (elo &&& 0x03FFFFC0) <<< 6

def eloFlags (elo : Elo) : Elo := elo &&& 0x3F

def frame (elo : Elo) : Nat := (eloAddr elo).toNat / pgsize

/-- `PTE`. -/
def mkPte (e0 e1 : Elo) : Pte := e0.setWidth 64 <<< 32 ||| e1.setWidth 64

def pteElo (pte : Pte) (n : Nat) : Elo := (pte >>> (32 * (1 - n))).setWidth 32

def pdx (va : Nat) : Fin 1024 := Fin.ofNat 1024 (va / 4194304)

def ptx (va : Nat) : Fin 512 := Fin.ofNat 512 (va / 8192)

def elx (va : Nat) : Nat := va / 4096 % 2

def npdentries : Nat := 1024

def nptentries : Nat := 1024

def kernbase : Nat := 0x80000000

/-- A page table, with the ASID in the directory entry that names it: a `char` below 128. -/
structure Table where
  page : Nat
  asid : Nat
  pte : Fin 512 → Pte

structure Pgdir where
  page : Nat
  entry : Fin 1024 → Option Table

/-- The free pages, and a page table. -/
structure State where
  free : List Nat
  pgdir : Pgdir

namespace Pgdir

variable (pgdir : Pgdir)

def pte (va : Nat) : Pte := (pgdir.entry (pdx va)).elim 0 fun pgtab => pgtab.pte (ptx va)

def setPte (va : Nat) (pte : Pte) : Pgdir :=
  { pgdir with entry := Function.update pgdir.entry (pdx va) ((pgdir.entry (pdx va)).map fun pgtab =>
      { pgtab with pte := Function.update pgtab.pte (ptx va) pte }) }

def elo (va : Nat) : Elo := pteElo (pgdir.pte va) (elx va)

end Pgdir

section Code

/-- `ASID_MATCH`, with `EHI_ASID` of the directory entry. -/
def asidMatch (asid : Nat) (pgtab : Table) (pte : Pte) : Bool :=
  pgtab.asid == asid || pte.setWidth 32 &&& eloG != 0 && pteElo pte 0 &&& eloG != 0

/-- The end of `walkpgdir`, where there is no table that will do. -/
def newTable (s : State) (asid va : Nat) (alloc : Bool) : Bool × State :=
  if alloc = false then (false, s)
  else
    match s.free with
    | [] => (false, s)
    | p :: free => (true,
        ⟨free, { s.pgdir with entry := Function.update s.pgdir.entry (pdx va) (some ⟨p, asid, fun _ => 0⟩) }⟩)

/-- Look for the entry for a virtual address: is there one? If `alloc`, create any required page table
pages. -/
def walkpgdir (s : State) (asid va : Nat) (alloc checkAsid : Bool) : Bool × State :=
  match s.pgdir.entry (pdx va) with
  | none => newTable s asid va alloc
  | some pgtab =>
      if checkAsid = true ∧ asidMatch asid pgtab (pgtab.pte (ptx va)) = false then newTable s asid va alloc
      else (true, s)

/-- The loop of `mappages`, at an address and a page of memory. A panic is `none`. -/
def mapFrom (asid : Nat) (perm : Elo) : (count a pa : Nat) → State → Option (Int × State)
  | 0, _, _, s => some (0, s)
  | count + 1, a, pa, s =>
      let walked := walkpgdir s asid a true true
      if walked.1 = false then some (-1, walked.2)
      else
        let s := walked.2
        if s.pgdir.elo a &&& eloV ≠ 0 then none
        else
          let elo := BitVec.ofNat 32 (pa * pgsize) >>> 6 ||| perm ||| eloV
          let pte := if elx a ≠ 0 then mkPte (pteElo (s.pgdir.pte a) 0) elo
            else mkPte elo (pteElo (s.pgdir.pte a) 1)
          mapFrom asid perm count (a + pgsize) (pa + 1) { s with pgdir := s.pgdir.setPte a pte }

/-- Create PTEs for virtual addresses starting at `va` that refer to physical addresses starting at that
of page `pa`. -/
def mappages (asid va size pa : Nat) (perm : Elo) (s : State) : Option (Int × State) :=
  let a := pgrounddown va
  let last := pgrounddown (va + size - 1)
  mapFrom asid perm ((last - a) / pgsize + 1) a pa s

/-- Pages of the kernel that are mapped. -/
structure Region where
  virt : Nat
  size : Nat
  physStart : Nat
  perm : Elo

/-- The calls of `mappages` in `setupkvm`: those of its loop over `kmap`, and the two after it. -/
def mapKernel : List Region → State → Option (Option Pgdir × List Nat)
  | [], s => some (some s.pgdir, s.free)
  | k :: rest, s => do
      let mapped ← mappages 0 k.virt k.size k.physStart k.perm s
      if mapped.1 < 0 then some (none, mapped.2.free) else mapKernel rest mapped.2

/-- Set up kernel part of a page table. -/
def setupkvm (kmap : List Region) (free : List Nat) : Option (Option Pgdir × List Nat) :=
  match free with
  | [] => some (none, [])
  | p :: free => mapKernel kmap ⟨free, ⟨p, fun _ => none⟩⟩

variable (ram : Ram)

def kfree (p : Nat) (free : List Nat) : Option (List Nat) :=
  if p < ram.first ∨ p ≥ ram.top then none else some (p :: free)

/-- The loop of `deallocuvm`. Each round goes at least one page further. -/
def deallocFrom (oldsz : Nat) : (rounds a : Nat) → State → Option State
  | 0, _, s => some s
  | rounds + 1, a, s =>
      if a < oldsz then
        if (walkpgdir s 0 a false false).1 = false then
          deallocFrom oldsz rounds (a + (nptentries - 1) * pgsize + pgsize) s
        else if s.pgdir.elo a &&& eloV ≠ 0 then
          if frame (s.pgdir.elo a) = 0 then none
          else do
            let free ← kfree ram (frame (s.pgdir.elo a)) s.free
            deallocFrom oldsz rounds (a + pgsize) ⟨free, s.pgdir.setPte a 0⟩
        else deallocFrom oldsz rounds (a + pgsize) s
      else some s

/-- Deallocate user pages to bring the process size from `oldsz` to `newsz`. Returns the new process
size. -/
def deallocuvm (oldsz newsz : Nat) (s : State) : Option (Nat × State) :=
  if newsz ≥ oldsz then some (oldsz, s)
  else (deallocFrom ram oldsz (pages oldsz) (pgroundup newsz) s).map fun s => (newsz, s)

/-- The loop of `allocuvm`. -/
def allocFrom (asid oldsz newsz : Nat) : (count a : Nat) → State → Option (Nat × State)
  | 0, _, s => some (newsz, s)
  | count + 1, a, s =>
      match s.free with
      | [] => (deallocuvm ram newsz oldsz s).map fun result => (0, result.2)
      | mem :: free => do
          -- What it returns is not looked at.
          let mapped ← mappages asid a pgsize mem eloD { s with free }
          allocFrom asid oldsz newsz count (a + pgsize) mapped.2

/-- Allocate page tables and physical memory to grow process from `oldsz` to `newsz`. Returns new size or
0 on error. -/
def allocuvm (asid oldsz newsz : Nat) (s : State) : Option (Nat × State) :=
  if newsz ≥ kernbase then some (0, s)
  else if newsz < oldsz then some (oldsz, s)
  else allocFrom ram asid oldsz newsz (pages newsz - pages oldsz) (pgroundup oldsz) s

/-- The loop of `freevm`. -/
def freeTables (pgdir : Pgdir) : (count i : Nat) → List Nat → Option (List Nat)
  | 0, _, free => some free
  | count + 1, i, free =>
      match pgdir.entry (Fin.ofNat 1024 i) with
      | none => freeTables pgdir count (i + 1) free
      | some pgtab => do
          let free ← kfree ram pgtab.page free
          freeTables pgdir count (i + 1) free

/-- Free a page table and all the physical memory pages in the user part. -/
def freevm (s : State) : Option (List Nat) := do
  let result ← deallocuvm ram kernbase 0 s
  let free ← freeTables ram result.2.pgdir npdentries 0 result.2.free
  kfree ram result.2.pgdir.page free

/-- Clear `ELO_V` on a page. Used to create an inaccessible page beneath the user stack. -/
def clearpteu (uva : Nat) (s : State) : Option State :=
  if (walkpgdir s 0 uva false false).1 = false then none
  else
    let pte := s.pgdir.pte uva &&& ~~~(eloV.setWidth 64 <<< (32 * (1 - elx uva)))
    some { s with pgdir := s.pgdir.setPte uva pte }

/-- The loop of `copyuvm`, where `s` has the copy. -/
def copyFrom (parent : Pgdir) (asid : Nat) : (count i : Nat) → State → Option (Option Pgdir × List Nat)
  | 0, _, s => some (some s.pgdir, s.free)
  | count + 1, i, s =>
      if (walkpgdir { s with pgdir := parent } asid i false false).1 = false then none
      else if parent.elo i &&& eloV = 0 then copyFrom parent asid count (i + pgsize) s
      else
        match s.free with
        | [] => (freevm ram s).map fun free => (none, free)
        | mem :: free => do
            let mapped ← mappages asid i pgsize mem (eloFlags (parent.elo i)) { s with free }
            if mapped.1 < 0 then (freevm ram mapped.2).map fun free => (none, free)
            else copyFrom parent asid count (i + pgsize) mapped.2

/-- Given a parent process's page table, create a copy of it for a child. -/
def copyuvm (kmap : List Region) (parent : Pgdir) (asid sz : Nat) (free : List Nat) :
    Option (Option Pgdir × List Nat) := do
  let made ← setupkvm kmap free
  match made.1 with
  | none => some (none, made.2)
  | some d => copyFrom ram parent asid (pages sz) 0 ⟨made.2, d⟩

end Code

end Xv6.Vm.Mips
