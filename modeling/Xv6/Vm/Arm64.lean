import Mathlib.Data.BitVec
import Mathlib.Data.List.FinRange
import Xv6.Vm.AddressSpace

/-!
# The page tables of arm64

Three levels of tables with 512 entries of 64 bits each.
-/

namespace Xv6.Vm.Arm64

abbrev Word := BitVec 64

abbrev Index := Fin 512

def pteValid : Word := 1

def pteTable : Word := 2

def pteV : Word := 3

def pteAf : Word := 0x400

def pteU : Word := 0x40

def addrMask : Word := 0xfffffffff000

def flagMask : Word := 0x600000000003ff

/-- `PA2PTE`, of a page number. -/
def pa2pte (p : Nat) : Word := BitVec.ofNat 64 (p * 4096) &&& addrMask

/-- `PTE2PA`, as a page number. -/
def pte2pa (pte : Word) : Nat := (pte &&& addrMask).toNat / 4096

/-- What `PTE_FLAGS` can be. -/
abbrev Flags := {flags : Word // flags &&& flagMask = flags}

def pteFlags (pte : Word) : Flags := ⟨pte &&& flagMask, by rw [BitVec.and_assoc, BitVec.and_self]⟩

/-- `PTE_NORMAL|PTE_U`. -/
def userFlags : Flags := ⟨0x44, rfl⟩

def px (level va : Nat) : Index :=
  ⟨va >>> (39 - level * 9) % 512, Nat.mod_lt _ (Nat.succ_pos 511)⟩

def maxva : Nat := 0xffffffc000000000

/-! ### Entries -/

theorem or_zero (word : Word) : word ||| 0 = word := BitVec.or_zero

theorem zero_or (word : Word) : 0 ||| word = word := BitVec.zero_or

theorem or_and_of_and {word bits mask : Word} (h : bits &&& mask = mask) :
    (word ||| bits) &&& mask = mask := by
  rw [BitVec.and_or_distrib_right, h]
  apply BitVec.eq_of_getLsbD_eq
  intro i _
  rw [BitVec.getLsbD_or, BitVec.getLsbD_and]
  cases word.getLsbD i <;> cases mask.getLsbD i <;> rfl

theorem pa2pte_toNat {p : Nat} (hp : p < 1048576) : (pa2pte p).toNat = p * 4096 := by
  have hmask : addrMask.toNat = (2 ^ 36 - 1) <<< 12 := rfl
  have hmul : p * 4096 = p <<< 12 := by rw [Nat.shiftLeft_eq]
  unfold pa2pte
  rw [BitVec.toNat_and, BitVec.toNat_ofNat, Nat.mod_eq_of_lt (by omega), hmask, hmul,
    ← Nat.shiftLeft_and_distrib, Nat.and_two_pow_sub_one_eq_mod, Nat.mod_eq_of_lt (by omega)]

theorem pa2pte_and_addrMask (p : Nat) : pa2pte p &&& addrMask = pa2pte p := by
  unfold pa2pte
  rw [BitVec.and_assoc, BitVec.and_self]

theorem pte2pa_or {p : Nat} (hp : p < 1048576) {bits : Word} (hbits : bits &&& addrMask = 0) :
    pte2pa (pa2pte p ||| bits) = p := by
  unfold pte2pa
  rw [BitVec.and_or_distrib_right, hbits, pa2pte_and_addrMask, or_zero, pa2pte_toNat hp]
  omega

theorem pa2pte_and_flagMask (p : Nat) : pa2pte p &&& flagMask = 0 := by
  unfold pa2pte
  rw [BitVec.and_assoc]
  exact BitVec.and_zero

theorem flags_and_addrMask (flags : Flags) : flags.val &&& addrMask = 0 := by
  rw [← flags.property, BitVec.and_assoc]
  exact BitVec.and_zero

def tableEntry (p : Nat) : Word := pa2pte p ||| pteTable ||| pteValid

def leafEntry (p : Nat) (perm : Flags) : Word := pa2pte p ||| perm.val ||| pteAf ||| pteV

theorem leafEntry_eq (p : Nat) (perm : Flags) :
    leafEntry p perm = pa2pte p ||| (perm.val ||| pteAf ||| pteV) := by
  unfold leafEntry
  rw [BitVec.or_assoc, BitVec.or_assoc, BitVec.or_assoc]

theorem pte2pa_leafEntry {p : Nat} (hp : p < 1048576) (perm : Flags) :
    pte2pa (leafEntry p perm) = p := by
  rw [leafEntry_eq]
  apply pte2pa_or hp
  rw [BitVec.and_or_distrib_right, BitVec.and_or_distrib_right, flags_and_addrMask]
  rfl

theorem leafEntry_and_flagMask (p : Nat) (perm : Flags) :
    leafEntry p perm &&& flagMask = perm.val ||| pteV := by
  rw [leafEntry_eq, BitVec.and_or_distrib_right, pa2pte_and_flagMask, zero_or,
    BitVec.and_or_distrib_right, BitVec.and_or_distrib_right, perm.property]
  have haf : pteAf &&& flagMask = 0 := rfl
  have hv : pteV &&& flagMask = pteV := rfl
  rw [haf, hv, or_zero]

/-- The flags of a page that is mapped with these. -/
def sealedFlags (perm : Flags) : Flags :=
  ⟨perm.val ||| pteV, by
    rw [BitVec.and_or_distrib_right, perm.property]
    rfl⟩

/-- The test of `walk`. -/
def isTable (pte : Word) : Bool := (pte &&& pteValid != 0) && (pte &&& pteTable != 0)

/-- The test of `mappages`, `uvmcopy` and `walkaddr`. -/
def accessed (pte : Word) : Bool := pte &&& pteAf != 0

def isMapped (pte : Word) : Bool := (pte &&& pteV == pteV) && accessed pte

theorem isTable_tableEntry (p : Nat) : isTable (tableEntry p) = true := by
  have hvalid : tableEntry p &&& pteValid = pteValid := or_and_of_and rfl
  have htable : tableEntry p &&& pteTable = pteTable := by
    unfold tableEntry
    rw [BitVec.or_assoc]
    exact or_and_of_and rfl
  unfold isTable
  rw [hvalid, htable]
  rfl

theorem accessed_tableEntry (p : Nat) : accessed (tableEntry p) = false := by
  have haf : tableEntry p &&& pteAf = 0 := by
    unfold tableEntry pa2pte
    rw [BitVec.and_or_distrib_right, BitVec.and_or_distrib_right, BitVec.and_assoc]
    exact (congrArg (fun word : Word => word ||| pteTable &&& pteAf ||| pteValid &&& pteAf)
      BitVec.and_zero).trans rfl
  unfold accessed
  rw [haf]
  rfl

theorem isMapped_leafEntry (p : Nat) (perm : Flags) : isMapped (leafEntry p perm) = true := by
  have hv : leafEntry p perm &&& pteV = pteV := or_and_of_and rfl
  have haf : leafEntry p perm &&& pteAf = pteAf := by
    unfold leafEntry
    rw [BitVec.or_assoc]
    exact or_and_of_and rfl
  unfold isMapped accessed
  rw [hv, haf]
  rfl

theorem px_val (level va : Nat) : (px level va).val = va >>> (39 - level * 9) % 512 := rfl

/-- The page tables of arm64. -/
def arch : Arch Index Word Flags where
  depth := 3
  upper v := [px 1 (v * 4096), px 2 (v * 4096)]
  lower v := px 3 (v * 4096)
  limit := 134217728
  zero := 0
  table := tableEntry
  leaf := leafEntry
  page := pte2pa
  flags := pteFlags
  sealed := sealedFlags
  isTable := isTable
  isMapped := isMapped
  length_upper _ := rfl
  injective := by
    intro v w hv hw h
    simp only [List.cons_append, List.nil_append, List.cons.injEq, Fin.ext_iff, px_val, and_true,
      Nat.shiftRight_eq_div_pow] at h
    omega
  isTable_zero := rfl
  isTable_table p _ := isTable_tableEntry p
  page_table p hp := by
    unfold tableEntry
    rw [BitVec.or_assoc]
    exact pte2pa_or hp rfl
  isMapped_zero := rfl
  isMapped_leaf p _ _ perm := isMapped_leafEntry p perm
  page_leaf p hp perm := pte2pa_leafEntry hp perm
  flags_leaf p _ perm := Subtype.ext (leafEntry_and_flagMask p perm)

theorem arch_full : arch.Full := by
  intro path hlength
  obtain ⟨i, j, k, rfl⟩ := List.length_eq_three.mp hlength
  refine ⟨i.val * 262144 + j.val * 512 + k.val, ?_, ?_⟩
  · change i.val * 262144 + j.val * 512 + k.val < 134217728
    omega
  · change [px 1 _, px 2 _, px 3 _] = [i, j, k]
    simp only [List.cons.injEq, Fin.ext_iff, px_val, and_true, Nat.shiftRight_eq_div_pow]
    omega

/-! ### Mapping and unmapping -/

section Code

variable (ram : Ram)

/-- Create PTEs for virtual addresses starting at `va` that refer to physical pages starting at `pa`.
Returns -1 if `walk` couldn't allocate a needed page-table page. -/
def mappages (pagetable va size pa : Nat) (perm : Flags) : Code Index Word Int := do
  panicIf (size = 0) "mappages: size"
  panicIf (pa ≥ ram.top) "pa"
  let a := pgrounddown va
  let last := pgrounddown (va + size - 1)
  mapFrom arch (walk arch maxva true pagetable) accessed "mappages: remap" perm
    ((last - a) / pgsize + 1) a pa

/-- The loop of `uvmunmap`. -/
def unmapFrom (pagetable : Nat) (doFree : Bool) : (count a : Nat) → Code Index Word Unit
  | 0, _ => pure ()
  | count + 1, a => do
      let pte ← walk arch maxva false pagetable a
      pte.elim (panic "uvmunmap: walk") fun pte => do
        let word ← read pte.1 pte.2
        panicIf (word &&& pteV ≠ pteV) "uvmunmap: not mapped"
        panicIf (accessed word = false) "uvmunmap: not a leaf"
        Program.when (doFree = true) (kfree ram (pte2pa word))
        write pte.1 pte.2 0
        unmapFrom pagetable doFree count (a + pgsize)

/-- Remove `npages` of mappings starting from `va`. The mappings must exist. Optionally free the physical
memory. -/
def uvmunmap (pagetable va npages : Nat) (doFree : Bool) : Code Index Word Unit := do
  panicIf (va % pgsize ≠ 0) "uvmunmap: not aligned"
  unmapFrom ram pagetable doFree npages va

end Code

section Spec

variable {ram : Ram} {fails : Bool → Prop} {kept : Nat → Prop} {fixed : Nat → Word} {root : Nat} {own : Owned Index Word}
  {view : View Index Word Flags}

theorem va_lt {v : Nat} (hv : v < arch.limit) : v * pgsize < maxva := by
  change v < 134217728 at hv
  unfold pgsize maxva
  omega

theorem mappages_page {v mem : Nat} {words : Index → Word} (h : Space arch ram kept fixed root own view)
    (hv : v < arch.limit) (hnone : view v = none) (hfixed : fixed v = arch.zero) (hmem : own mem = none)
    (hram : ram.Has mem) (perm : Flags) :
    (mappages ram root (v * pgsize) pgsize mem perm).wp (rule ram fails) (own.set mem words)
      fun result own' =>
        (result = 0 ∧ Space arch ram kept fixed root own'
          (Function.update view v (some ⟨mem, arch.sealed perm, words⟩))) ∨
        (result = -1 ∧ fails true ∧ ∃ old, own' = old.set mem words ∧ old mem = none ∧
          Space arch ram kept fixed root old view) := by
  have ha : pgrounddown (v * pgsize) = v * pgsize := by rw [pgrounddown, mul_div_pgsize]
  have hlast : pgrounddown (v * pgsize + pgsize - 1) = v * pgsize := by
    unfold pgrounddown pgsize
    omega
  rw [mappages, Program.wp_bind, wp_panicIf, Program.wp_bind, wp_panicIf, ha, hlast]
  refine ⟨by decide, Nat.not_le.mpr hram.2, ?_⟩
  dsimp only
  rw [Nat.sub_self, Nat.zero_div]
  exact mapFrom_one (walk_finds (va_lt hv)) rfl h hv hnone hfixed hmem hram perm

theorem unmapFrom_spec {v count high : Nat} (h : Space arch ram kept fixed root own view)
    (hcount : v + count = high) (hhigh : high ≤ arch.limit)
    (hfixed : ∀ w, v ≤ w → w < high → fixed w = arch.zero)
    (hmapped : ∀ w, v ≤ w → w < high → view w ≠ none) :
    (unmapFrom ram root true count (v * pgsize)).wp (rule ram fails) own fun _ own' =>
      Space arch ram kept fixed root own' (view.drop v high) := by
  induction count generalizing v own view with
  | zero =>
      rw [View.drop_eq_self fun w hlow hw => by omega]
      exact h
  | succ count ih =>
      have hlt : v < high := by omega
      obtain ⟨tree, htree⟩ := h
      obtain ⟨page, hpage⟩ := Option.ne_none_iff_exists'.mp (hmapped v (Nat.le_refl v) hlt)
      obtain ⟨hframe, hwords, hmaps⟩ := htree.page hpage
      obtain ⟨t, hnode⟩ := tree.node_of_append hframe
      obtain ⟨htable, hleaf⟩ := htree.slot hnode
      have hbits := Bool.and_eq_true_iff.mp hmaps.isMapped
      rw [unmapFrom, Program.wp_bind]
      apply htree.wp_walk (va_lt (by omega))
      rw [hnode, Option.map_some, Option.elim_some, Program.wp_bind, wp_read]
      refine ⟨_, htable, ?_⟩
      rw [hleaf, Program.wp_bind, wp_panicIf, Program.wp_bind, wp_panicIf, hbits.2, Program.when,
        if_pos rfl]
      refine ⟨not_not_intro (eq_of_beq hbits.1), Bool.noConfusion, ?_⟩
      have haddr : pte2pa (tree.leaf (arch.path v)) = page.frame := hmaps.page
      rw [haddr, ← bind_assoc]
      apply Program.wp_seq rule_monotone
        (htree.wp_clear hpage hnode (hfixed v (Nat.le_refl v) hlt))
      intro _ own' hspace
      rw [← Nat.succ_mul, ← View.drop_update hlt]
      apply ih hspace (by omega) (fun w hw => hfixed w (by omega))
      intro w hw hw'
      rw [Function.update_of_ne (by omega)]
      exact hmapped w (by omega) hw'

end Spec

/-- The arm64 kernel. Its address spaces have no holes. -/
def port (ram : Ram) : Port Index Word Flags ram where
  arch := arch
  maxva := maxva
  limit := 134217728
  present := accessed
  mappages := mappages ram
  uvmunmap := uvmunmap ram
  hole := panic
  isChild pte := isTable pte && !accessed pte
  other _ := pure ()
  indices := List.finRange 512
  lenient := False
  limit_le_arch := Nat.le_refl _
  limit_le := Nat.le_of_ble_eq_true rfl
  full := arch_full
  mem_indices := List.mem_finRange
  nodup := List.nodup_finRange 512
  present_zero := rfl
  present_of_maps hmaps := (Bool.and_eq_true_iff.mp hmaps.isMapped).2
  mappages_page := mappages_page
  uvmunmap_pages := by
    intro fails kept fixed root own view low high h hle hhigh hfixed hmapped
    rw [uvmunmap, Program.wp_bind, wp_panicIf]
    refine ⟨not_not_intro (Nat.mul_mod_left low pgsize), ?_⟩
    exact unmapFrom_spec h (Nat.add_sub_of_le hle) hhigh hfixed (hmapped id)
  hole_lenient hlenient := absurd hlenient id
  isChild_table p _ := by
    have htable : isTable (arch.table p) = true := isTable_tableEntry p
    have hpage : accessed (arch.table p) = false := accessed_tableEntry p
    rw [htable, hpage]
    rfl
  isChild_zero := rfl
  other_zero := rfl

end Xv6.Vm.Arm64
