import Xv6.Vm.Arm64

/-!
# The page tables of loongarch

Four levels of tables with 512 entries of 64 bits each, with the address of a page where arm64 has it. There are only
256 pages below `MAXVA`, and the last of them is for the kernel.
-/

namespace Xv6.Vm.Loongarch

open Arm64 (Word Index addrMask pa2pte pte2pa or_zero zero_or or_and_of_and pte2pa_or pa2pte_and_addrMask)

def pteV : Word := 1

def pteD : Word := 2

def ptePlv : Word := 0xC

def pteMat : Word := 0x10

def pteP : Word := 0x80

def pteW : Word := 0x100

def pteNx : Word := 0x4000000000000000

/-- The mask of `PTE_FLAGS`. -/
def flagMask : Word := 0xE0000000000001FF

/-- The part of it that an `uint` holds. -/
def uintMask : Word := 0x1FF

/-- What `mappages` is given besides the page. There is always a `PTE_P`. -/
abbrev Flags := {flags : Word // flags &&& flagMask = flags ∧ flags &&& pteP = pteP}

theorem mask_or_pteP {bits mask : Word} (hbits : bits &&& mask = bits) (hmask : pteP &&& mask = pteP) :
    (bits ||| pteP) &&& mask = bits ||| pteP := by
  rw [BitVec.and_or_distrib_right, hbits, hmask]

/-- `PTE_FLAGS` in an `uint`, of an entry with `PTE_P`. -/
def pteFlags (pte : Word) : Flags :=
  ⟨pte &&& uintMask ||| pteP, mask_or_pteP (by rw [BitVec.and_assoc]; rfl) rfl, or_and_of_and rfl⟩

def px (level va : Nat) : Index := ⟨va >>> (12 + level * 9) % 512, Nat.mod_lt _ (Nat.succ_pos 511)⟩

def maxva : Nat := 1048576

/-- The page at `TRAPFRAME`. -/
def trapframePage : Nat := 255

/-! ### Entries -/

theorem pa2pte_and {mask : Word} (hmask : addrMask &&& mask = 0) (p : Nat) : pa2pte p &&& mask = 0 := by
  rw [← pa2pte_and_addrMask, BitVec.and_assoc, hmask]
  exact BitVec.and_zero

theorem flags_and_addrMask (flags : Flags) : flags.val &&& addrMask = 0 := by
  rw [← flags.property.1, BitVec.and_assoc]
  exact BitVec.and_zero

def tableEntry (p : Nat) : Word := pa2pte p ||| pteV

def leafEntry (p : Nat) (perm : Flags) : Word := pa2pte p ||| perm.val ||| pteV

theorem leafEntry_and {mask : Word} (hmask : addrMask &&& mask = 0) (p : Nat) (perm : Flags) :
    leafEntry p perm &&& mask = perm.val &&& mask ||| pteV &&& mask := by
  unfold leafEntry
  rw [BitVec.and_or_distrib_right, BitVec.and_or_distrib_right, pa2pte_and hmask, zero_or]

def sealedFlags (perm : Flags) : Flags := pteFlags (perm.val ||| pteV)

/-- The test of `PTE_V`. -/
def valid (pte : Word) : Bool := pte &&& pteV != 0

/-- `PTE_FLAGS` is not `PTE_V` alone. -/
def isLeaf (pte : Word) : Bool := pte &&& flagMask != pteV

def isMapped (pte : Word) : Bool := valid pte && (pte &&& pteP == pteP)

theorem valid_or (word : Word) : valid (word ||| pteV) = true := by
  have hv : (word ||| pteV) &&& pteV = pteV := or_and_of_and rfl
  unfold valid
  rw [hv]
  rfl

theorem isMapped_leafEntry (p : Nat) (perm : Flags) : isMapped (leafEntry p perm) = true := by
  have hp : leafEntry p perm &&& pteP = pteP := by
    rw [leafEntry_and rfl, perm.property.2]
    rfl
  unfold isMapped
  rw [hp, leafEntry, valid_or]
  rfl

theorem isLeaf_of_isMapped {word : Word} (hmapped : isMapped word = true) : isLeaf word = true := by
  obtain ⟨-, hp⟩ := Bool.and_eq_true_iff.mp hmapped
  refine bne_iff_ne.mpr fun hflags => ?_
  have hsame : word &&& flagMask &&& pteP = pteP := by
    rw [BitVec.and_assoc]
    exact eq_of_beq hp
  rw [hflags] at hsame
  exact absurd hsame (by decide)

theorem isLeaf_tableEntry (p : Nat) : isLeaf (tableEntry p) = false := by
  have hflags : tableEntry p &&& flagMask = pteV := by
    unfold tableEntry
    rw [BitVec.and_or_distrib_right, pa2pte_and rfl]
    rfl
  unfold isLeaf
  rw [hflags]
  rfl

theorem px_val (level va : Nat) : (px level va).val = va >>> (12 + level * 9) % 512 := rfl

theorem length_indices (v : Nat) : [px 3 (v * 4096), px 2 (v * 4096), px 1 (v * 4096)].length + 1 = 4 := rfl

theorem path_injective {v w : Nat} (hv : v < 68719476736) (hw : w < 68719476736)
    (h : [px 3 (v * 4096), px 2 (v * 4096), px 1 (v * 4096)] ++ [px 0 (v * 4096)] =
      [px 3 (w * 4096), px 2 (w * 4096), px 1 (w * 4096)] ++ [px 0 (w * 4096)]) : v = w := by
  simp only [List.cons_append, List.nil_append, List.cons.injEq, Fin.ext_iff, px_val, and_true,
    Nat.shiftRight_eq_div_pow] at h
  omega

/-- The page tables of loongarch. -/
def arch : Arch Index Word Flags where
  depth := 4
  upper v := [px 3 (v * 4096), px 2 (v * 4096), px 1 (v * 4096)]
  lower v := px 0 (v * 4096)
  limit := 68719476736
  zero := 0
  table := tableEntry
  leaf := leafEntry
  page := pte2pa
  flags := pteFlags
  sealed := sealedFlags
  isTable := valid
  isMapped := isMapped
  length_upper := length_indices
  injective := path_injective
  isTable_zero := rfl
  isTable_table p _ := valid_or (pa2pte p)
  page_table p hp := pte2pa_or hp rfl
  isMapped_zero := rfl
  isMapped_leaf p _ _ perm := isMapped_leafEntry p perm
  page_leaf p hp perm := by
    unfold leafEntry
    rw [BitVec.or_assoc]
    apply pte2pa_or hp
    rw [BitVec.and_or_distrib_right, flags_and_addrMask]
    rfl
  flags_leaf p _ perm := by
    apply Subtype.ext
    change leafEntry p perm &&& uintMask ||| pteP = (perm.val ||| pteV) &&& uintMask ||| pteP
    rw [leafEntry_and rfl, BitVec.and_or_distrib_right]

theorem arch_full : arch.Full := by
  intro path hlength
  obtain ⟨i, j, k, l, rfl⟩ := List.length_eq_four.mp hlength
  refine ⟨i.val * 134217728 + j.val * 262144 + k.val * 512 + l.val, ?_, ?_⟩
  · change i.val * 134217728 + j.val * 262144 + k.val * 512 + l.val < 68719476736
    omega
  · change [px 3 _, px 2 _, px 1 _, px 0 _] = [i, j, k, l]
    simp only [List.cons.injEq, Fin.ext_iff, px_val, and_true, Nat.shiftRight_eq_div_pow]
    omega

/-! ### Mapping and unmapping -/

section Code

variable (ram : Ram)

/-- Create PTEs for virtual addresses starting at `va` that refer to physical pages starting at `pa`.
Returns -1 if `walk` couldn't allocate a needed page-table page. -/
def mappages (pagetable va size pa : Nat) (perm : Flags) : Code Index Word Int := do
  panicIf (size = 0) "mappages: size"
  let a := pgrounddown va
  let last := pgrounddown (va + size - 1)
  mapFrom arch (walk arch maxva true pagetable) valid "mappages: remap" perm ((last - a) / pgsize + 1) a pa

/-- The loop of `uvmunmap`. -/
def unmapFrom (pagetable : Nat) (doFree : Bool) : (count a : Nat) → Code Index Word Unit
  | 0, _ => pure ()
  | count + 1, a => do
      let pte ← walk arch maxva false pagetable a
      pte.elim (panic "uvmunmap: walk") fun pte => do
        let word ← read pte.1 pte.2
        panicIf (valid word = false) "uvmunmap: not mapped"
        panicIf (isLeaf word = false) "uvmunmap: not a leaf"
        Program.when (doFree = true) (kfree ram (pte2pa word))
        write pte.1 pte.2 0
        unmapFrom pagetable doFree count (a + pgsize)

/-- Remove `npages` of mappings starting from `va`. The mappings must exist. Optionally free the physical
memory. -/
def uvmunmap (pagetable va npages : Nat) (doFree : Bool) : Code Index Word Unit := do
  panicIf (va % pgsize ≠ 0) "uvmunmap: not aligned"
  unmapFrom ram pagetable doFree npages va

end Code

section Spec

variable {ram : Ram} {fails : Bool → Prop} {kept : Nat → Prop} {fixed : Nat → Word} {root v : Nat}
  {own : Owned Index Word} {view : View Index Word Flags}

theorem va_lt (hv : v < 256) : v * pgsize < maxva := by
  unfold pgsize maxva
  omega

theorem lt_limit (hv : v < 256) : v < arch.limit := by
  change v < 68719476736
  omega

theorem mappages_one (v pa : Nat) (perm : Flags) {Q : Int → Owned Index Word → Prop}
    (hmap : (mapFrom arch (walk arch maxva true root) valid "mappages: remap" perm 1 (v * pgsize) pa).wp
      (rule ram fails) own Q) :
    (mappages root (v * pgsize) pgsize pa perm).wp (rule ram fails) own Q := by
  have hlast : pgrounddown (v * pgsize + pgsize - 1) = v * pgsize := by
    unfold pgrounddown pgsize
    omega
  rw [mappages, Program.wp_bind, wp_panicIf, pgrounddown_mul, hlast]
  refine ⟨by decide, ?_⟩
  dsimp only
  rw [Nat.sub_self, Nat.zero_div]
  exact hmap

theorem mappages_page {mem : Nat} {words : Index → Word} (h : Space arch ram kept fixed root own view)
    (hv : v < 256) (hnone : view v = none) (hfixed : fixed v = arch.zero) (hmem : own mem = none)
    (hram : ram.Has mem) (perm : Flags) :
    (mappages root (v * pgsize) pgsize mem perm).wp (rule ram fails) (own.set mem words)
      fun result own' =>
        (result = 0 ∧ Space arch ram kept fixed root own'
          (Function.update view v (some ⟨mem, arch.sealed perm, words⟩))) ∨
        (result = -1 ∧ fails true ∧ ∃ old, own' = old.set mem words ∧ old mem = none ∧
          Space arch ram kept fixed root old view) :=
  mappages_one v mem perm (mapFrom_one (walk_finds (va_lt hv)) rfl h (lt_limit hv) hnone hfixed hmem hram perm)

theorem mappages_fixed (h : Space arch ram kept fixed root own view) (hv : v < 256) (hnone : view v = none)
    (hfixed : fixed v = 0) (pa : Nat) (perm : Flags) :
    (mappages root (v * pgsize) pgsize pa perm).wp (rule ram fails) own fun result own' =>
      (result = 0 ∧ Space arch ram kept (Function.update fixed v (leafEntry pa perm)) root own' view) ∨
      (result = -1 ∧ fails true ∧ Space arch ram kept fixed root own' view) :=
  mappages_one v pa perm (mapFrom_fixed (walk_finds (va_lt hv)) rfl h (lt_limit hv) hnone hfixed pa perm)

theorem unmapFrom_spec {count high : Nat} (h : Space arch ram kept fixed root own view) (hcount : v + count = high)
    (hhigh : high ≤ 256) (hfixed : ∀ w, v ≤ w → w < high → fixed w = arch.zero)
    (hmapped : ∀ w, v ≤ w → w < high → view w ≠ none) :
    (unmapFrom ram root true count (v * pgsize)).wp (rule ram fails) own fun _ own' =>
      Space arch ram kept fixed root own' (view.drop v high) := by
  induction count generalizing v own view with
  | zero =>
      rw [View.drop_eq_self fun w hlow hw => by omega]
      exact h
  | succ count ih =>
      have hlt : v < high := by omega
      obtain ⟨tree, htree⟩ := h
      obtain ⟨page, hpage⟩ := Option.ne_none_iff_exists'.mp (hmapped v (Nat.le_refl v) hlt)
      obtain ⟨hframe, hwords, hmaps⟩ := htree.page hpage
      obtain ⟨t, hnode⟩ := tree.node_of_append hframe
      obtain ⟨htable, hleaf⟩ := htree.slot hnode
      have hvalid := (Bool.and_eq_true_iff.mp hmaps.isMapped).1
      rw [unmapFrom, Program.wp_bind]
      apply htree.wp_walk (va_lt (by omega))
      rw [hnode, Option.map_some, Option.elim_some, Program.wp_bind, wp_read]
      refine ⟨_, htable, ?_⟩
      rw [hleaf, Program.wp_bind, wp_panicIf, Program.wp_bind, wp_panicIf, hvalid, isLeaf_of_isMapped hmaps.isMapped,
        Program.when, if_pos rfl]
      refine ⟨Bool.noConfusion, Bool.noConfusion, ?_⟩
      have haddr : pte2pa (tree.leaf (arch.path v)) = page.frame := hmaps.page
      rw [haddr, ← bind_assoc]
      apply Program.wp_seq rule_monotone (htree.wp_clear hpage hnode (hfixed v (Nat.le_refl v) hlt))
      intro _ own' hspace
      rw [← Nat.succ_mul, ← View.drop_update hlt]
      apply ih hspace (by omega) (fun w hw => hfixed w (by omega))
      intro w hw hw'
      rw [Function.update_of_ne (by omega)]
      exact hmapped w (by omega) hw'

theorem uvmunmap_fixed (h : Space arch ram kept fixed root own view) (hv : v < 256) (hnone : view v = none)
    (hmapped : isMapped (fixed v) = true) :
    (uvmunmap ram root (v * pgsize) 1 false).wp (rule ram fails) own fun _ own' =>
      Space arch ram kept (Function.update fixed v 0) root own' view := by
  obtain ⟨tree, htree⟩ := h
  have hfixed : tree.leaf (arch.path v) = fixed v := htree.hole (lt_limit hv) hnone
  obtain ⟨hvalid, -⟩ := Bool.and_eq_true_iff.mp hmapped
  rw [uvmunmap, Program.wp_bind, wp_panicIf]
  refine ⟨not_not_intro (Nat.mul_mod_left v pgsize), ?_⟩
  rw [unmapFrom, Program.wp_bind]
  apply htree.wp_walk (va_lt hv)
  cases hnode : tree.node (arch.upper v) with
  | none =>
      have hlength := arch.length_upper v
      have hzero : fixed v = 0 := hfixed.symm.trans (tree.leaf_zero (by omega) hnode _)
      rw [hzero] at hmapped
      cases hmapped
  | some t =>
      obtain ⟨htable, hleaf⟩ := htree.slot hnode
      rw [Option.map_some, Option.elim_some, Program.wp_bind, wp_read]
      refine ⟨_, htable, ?_⟩
      rw [hleaf, hfixed, Program.wp_bind, wp_panicIf, Program.wp_bind, wp_panicIf, hvalid, isLeaf_of_isMapped hmapped]
      exact ⟨Bool.noConfusion, Bool.noConfusion, _, htable, htree.setFixed hnode (lt_limit hv) hnone⟩

end Spec

theorem mem_finRange_index (i : Index) : i ∈ List.finRange 512 := List.mem_finRange i

theorem nodup_finRange_index : (List.finRange 512 : List Index).Nodup := List.nodup_finRange 512

theorem panic_of_false (h : False) (message : String) : (panic message : Code Index Word Unit) = pure () := h.elim

/-- The loongarch kernel. Its address spaces have no holes. `uvmcopy` tests `PTE_V` only, and here `PTE_P` too, which every
entry has that maps a page: where an entry had not, this would be one panic more. -/
def port (ram : Ram) : Port Index Word Flags ram where
  arch := arch
  maxva := maxva
  limit := 256
  present := isMapped
  mappages := mappages
  uvmunmap := uvmunmap ram
  hole := panic
  isChild pte := valid pte && !isLeaf pte
  other pte := panicIf (valid pte = true) "freewalk: leaf"
  indices := List.finRange 512
  lenient := False
  limit_le_arch := Nat.le_of_ble_eq_true rfl
  limit_le := Nat.le_of_ble_eq_true rfl
  full := arch_full
  mem_indices := mem_finRange_index
  nodup := nodup_finRange_index
  present_zero := rfl
  present_of_maps hmaps := hmaps.isMapped
  mappages_page := mappages_page
  uvmunmap_pages := by
    intro fails kept fixed root own view low high h hle hhigh hfixed hmapped
    rw [uvmunmap, Program.wp_bind, wp_panicIf]
    refine ⟨not_not_intro (Nat.mul_mod_left low pgsize), ?_⟩
    exact unmapFrom_spec h (Nat.add_sub_of_le hle) hhigh hfixed (hmapped id)
  hole_lenient := panic_of_false
  isChild_table p _ := by
    have htable : valid (arch.table p) = true := valid_or (pa2pte p)
    have hpage : isLeaf (arch.table p) = false := isLeaf_tableEntry p
    rw [htable, hpage]
    rfl
  isChild_zero := rfl
  other_zero := rfl

end Xv6.Vm.Loongarch
