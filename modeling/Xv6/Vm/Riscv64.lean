import Mathlib.Data.BitVec
import Mathlib.Data.List.FinRange
import Xv6.Vm.AddressSpace

/-!
# The page tables of riscv64

Three levels of tables with 512 entries of 64 bits each. Half of the addresses are below `MAXVA`, and the
two pages at the end of these are for the kernel.
-/

namespace Xv6.Vm.Riscv64

abbrev Word := BitVec 64

abbrev Index := Fin 512

def pteV : Word := 1

def pteR : Word := 2

def pteW : Word := 4

def pteX : Word := 8

def pteU : Word := 0x10

def flagMask : Word := 0x3ff

/-- `PA2PTE`, of a page number. -/
def pa2pte (p : Nat) : Word := BitVec.ofNat 64 p <<< 10

/-- `PTE2PA`, as a page number. -/
def pte2pa (pte : Word) : Nat := ((pte >>> 10) <<< 12).toNat / 4096

/-- What `PTE_FLAGS` can be. -/
abbrev Flags := {flags : Word // flags &&& flagMask = flags}

def pteFlags (pte : Word) : Flags := ⟨pte &&& flagMask, by rw [BitVec.and_assoc, BitVec.and_self]⟩

def px (level va : Nat) : Index := ⟨va >>> (12 + 9 * level) % 512, Nat.mod_lt _ (Nat.succ_pos 511)⟩

def maxva : Nat := 0x4000000000

/-- The page of `TRAMPOLINE`. -/
def trampolinePage : Nat := 67108863

/-- The page of `TRAPFRAME`. -/
def trapframePage : Nat := 67108862

/-! ### Entries -/

theorem zero_or (word : Word) : 0 ||| word = word := BitVec.zero_or

theorem or_and_of_and {word bits mask : Word} (h : bits &&& mask = mask) :
    (word ||| bits) &&& mask = mask := by
  rw [BitVec.and_or_distrib_right, h]
  ext i
  rw [BitVec.getElem_or, BitVec.getElem_and]
  cases word[i] <;> cases mask[i] <;> rfl

theorem toNat_lt_of_flags {bits : Word} (hbits : bits &&& flagMask = bits) : bits.toNat < 1024 := by
  have hmask : flagMask.toNat = 2 ^ 10 - 1 := rfl
  rw [← hbits, BitVec.toNat_and, hmask, Nat.and_two_pow_sub_one_eq_mod]
  exact Nat.mod_lt _ (Nat.succ_pos 1023)

theorem pa2pte_toNat {p : Nat} (hp : p < 1048576) : (pa2pte p).toNat = p <<< 10 := by
  have hlt : p <<< 10 < 2 ^ 64 := by
    rw [Nat.shiftLeft_eq]
    omega
  unfold pa2pte
  rw [BitVec.toNat_shiftLeft, BitVec.toNat_ofNat, Nat.mod_eq_of_lt (a := p) (by omega),
    Nat.mod_eq_of_lt hlt]

theorem pte2pa_or {p : Nat} (hp : p < 1048576) {bits : Word} (hbits : bits &&& flagMask = bits) :
    pte2pa (pa2pte p ||| bits) = p := by
  have hlow : bits.toNat < 2 ^ 10 := toNat_lt_of_flags hbits
  unfold pte2pa
  rw [BitVec.toNat_shiftLeft, BitVec.toNat_ushiftRight, BitVec.toNat_or, pa2pte_toNat hp,
    ← Nat.shiftLeft_add_eq_or_of_lt hlow, Nat.shiftLeft_eq, Nat.shiftLeft_eq,
    Nat.shiftRight_eq_div_pow]
  omega

theorem pa2pte_and_flagMask (p : Nat) : pa2pte p &&& flagMask = 0 := by
  apply BitVec.eq_of_toNat_eq
  have hmask : flagMask.toNat = 2 ^ 10 - 1 := rfl
  unfold pa2pte
  rw [BitVec.toNat_and, hmask, Nat.and_two_pow_sub_one_eq_mod, BitVec.toNat_shiftLeft,
    Nat.shiftLeft_eq]
  change (BitVec.ofNat 64 p).toNat * 2 ^ 10 % 2 ^ 64 % 2 ^ 10 = 0
  omega

def tableEntry (p : Nat) : Word := pa2pte p ||| pteV

def leafEntry (p : Nat) (perm : Flags) : Word := pa2pte p ||| perm.val ||| pteV

/-- The flags of a page that is mapped with these. -/
def sealedFlags (perm : Flags) : Flags :=
  ⟨perm.val ||| pteV, by
    rw [BitVec.and_or_distrib_right, perm.property]
    rfl⟩

theorem leafEntry_eq (p : Nat) (perm : Flags) :
    leafEntry p perm = pa2pte p ||| (sealedFlags perm).val := BitVec.or_assoc ..

theorem leafEntry_and_flagMask (p : Nat) (perm : Flags) :
    leafEntry p perm &&& flagMask = (sealedFlags perm).val := by
  rw [leafEntry_eq, BitVec.and_or_distrib_right, pa2pte_and_flagMask, zero_or,
    (sealedFlags perm).property]

/-- The test of `walk`, of `mappages` and of the others. -/
def valid (pte : Word) : Bool := pte &&& pteV != 0

theorem valid_or (word : Word) : valid (word ||| pteV) = true := by
  unfold valid
  rw [or_and_of_and rfl]
  rfl

theorem px_val (level va : Nat) : (px level va).val = va >>> (12 + 9 * level) % 512 := rfl

theorem path_injective {v w : Nat} (hv : v < 134217728) (hw : w < 134217728)
    (h : [px 2 (v * 4096), px 1 (v * 4096)] ++ [px 0 (v * 4096)] =
      [px 2 (w * 4096), px 1 (w * 4096)] ++ [px 0 (w * 4096)]) : v = w := by
  simp only [List.cons_append, List.nil_append, List.cons.injEq, Fin.ext_iff, px_val, and_true,
    Nat.shiftRight_eq_div_pow] at h
  omega

theorem mem_indices (i : Index) : i ∈ List.finRange 512 := List.mem_finRange i

theorem nodup_indices : (List.finRange 512).Nodup := List.nodup_finRange 512

/-- The page tables of riscv64. -/
def arch : Arch Index Word Flags where
  depth := 3
  upper v := [px 2 (v * 4096), px 1 (v * 4096)]
  lower v := px 0 (v * 4096)
  limit := 134217728
  zero := 0
  table := tableEntry
  leaf := leafEntry
  page := pte2pa
  flags := pteFlags
  sealed := sealedFlags
  isTable := valid
  isMapped := valid
  length_upper _ := rfl
  injective := path_injective
  isTable_zero := rfl
  isTable_table p _ := valid_or _
  page_table p hp := pte2pa_or hp rfl
  isMapped_zero := rfl
  isMapped_leaf p _ _ perm := valid_or _
  page_leaf p hp perm := by
    rw [leafEntry_eq]
    exact pte2pa_or hp (sealedFlags perm).property
  flags_leaf p _ perm := Subtype.ext (leafEntry_and_flagMask p perm)

theorem arch_full : arch.Full := by
  intro path hlength
  obtain ⟨i, j, k, rfl⟩ := List.length_eq_three.mp hlength
  refine ⟨i.val * 262144 + j.val * 512 + k.val, ?_, ?_⟩
  · change i.val * 262144 + j.val * 512 + k.val < 134217728
    omega
  · change [px 2 _, px 1 _, px 0 _] = [i, j, k]
    simp only [List.cons.injEq, Fin.ext_iff, px_val, and_true, Nat.shiftRight_eq_div_pow]
    omega

/-! ### Mapping and unmapping -/

section Code

variable (ram : Ram)

/-- Create PTEs for virtual addresses starting at `va` that refer to physical pages starting at `pa`.
`va` and `size` must be page-aligned. Returns -1 if `walk` couldn't allocate a needed page-table page. -/
def mappages (pagetable va size pa : Nat) (perm : Flags) : Code Index Word Int := do
  panicIf (va % pgsize ≠ 0) "mappages: va not aligned"
  panicIf (size % pgsize ≠ 0) "mappages: size not aligned"
  panicIf (size = 0) "mappages: size"
  let last := va + size - pgsize
  mapFrom arch (walk arch maxva true pagetable) valid "mappages: remap" perm
    ((last - va) / pgsize + 1) va pa

/-- The loop of `uvmunmap`. -/
def unmapFrom (pagetable : Nat) (doFree : Bool) : (count a : Nat) → Code Index Word Unit
  | 0, _ => pure ()
  | count + 1, a => do
      let pte ← walk arch maxva false pagetable a
      pte.elim (unmapFrom pagetable doFree count (a + pgsize)) fun pte => do
        let word ← read pte.1 pte.2
        Program.when (valid word = true) do
          Program.when (doFree = true) (kfree ram (pte2pa word))
          write pte.1 pte.2 0
        unmapFrom pagetable doFree count (a + pgsize)

/-- Remove `npages` of mappings starting from `va`, which must be page-aligned. It's OK if the mappings
don't exist. Optionally free the physical memory. -/
def uvmunmap (pagetable va npages : Nat) (doFree : Bool) : Code Index Word Unit := do
  panicIf (va % pgsize ≠ 0) "uvmunmap: not aligned"
  unmapFrom ram pagetable doFree npages va

end Code

section Spec

variable {ram : Ram} {fails : Bool → Prop} {kept : Nat → Prop} {fixed : Nat → Word} {root : Nat}
  {own : Owned Index Word} {view : View Index Word Flags} {v : Nat}

theorem va_lt (hv : v < 67108864) : v * pgsize < maxva := by
  unfold pgsize maxva
  omega

theorem lt_limit (hv : v < 67108864) : v < arch.limit := by
  change v < 134217728
  omega

theorem mappages_one (v pa : Nat) (perm : Flags) {Q : Int → Owned Index Word → Prop}
    (hmap : (mapFrom arch (walk arch maxva true root) valid "mappages: remap" perm 1 (v * pgsize) pa).wp
      (rule ram fails) own Q) :
    (mappages root (v * pgsize) pgsize pa perm).wp (rule ram fails) own Q := by
  rw [mappages, Program.wp_bind, wp_panicIf, Program.wp_bind, wp_panicIf, Program.wp_bind, wp_panicIf]
  refine ⟨not_not_intro (Nat.mul_mod_left v pgsize), by decide, by decide, ?_⟩
  dsimp only
  rw [Nat.add_sub_cancel, Nat.sub_self, Nat.zero_div]
  exact hmap

theorem mappages_page {mem : Nat} {words : Index → Word} (h : Space arch ram kept fixed root own view)
    (hv : v < 67108864) (hnone : view v = none) (hfixed : fixed v = arch.zero) (hmem : own mem = none)
    (hram : ram.Has mem) (perm : Flags) :
    (mappages root (v * pgsize) pgsize mem perm).wp (rule ram fails) (own.set mem words)
      fun result own' =>
        (result = 0 ∧ Space arch ram kept fixed root own'
          (Function.update view v (some ⟨mem, arch.sealed perm, words⟩))) ∨
        (result = -1 ∧ fails true ∧ ∃ old, own' = old.set mem words ∧ old mem = none ∧
          Space arch ram kept fixed root old view) :=
  mappages_one v mem perm
    (mapFrom_one (walk_finds (va_lt hv)) rfl h (lt_limit hv) hnone hfixed hmem hram perm)

theorem mappages_fixed (h : Space arch ram kept fixed root own view) (hv : v < 67108864)
    (hnone : view v = none) (hfixed : fixed v = 0) (pa : Nat) (perm : Flags) :
    (mappages root (v * pgsize) pgsize pa perm).wp (rule ram fails) own fun result own' =>
      (result = 0 ∧
        Space arch ram kept (Function.update fixed v (leafEntry pa perm)) root own' view) ∨
      (result = -1 ∧ fails true ∧ Space arch ram kept fixed root own' view) :=
  mappages_one v pa perm
    (mapFrom_fixed (walk_finds (va_lt hv)) rfl h (lt_limit hv) hnone hfixed pa perm)

theorem unmapFrom_spec {count high : Nat} (h : Space arch ram kept fixed root own view)
    (hcount : v + count = high) (hhigh : high ≤ 67108864)
    (hfixed : ∀ w, v ≤ w → w < high → fixed w = arch.zero) :
    (unmapFrom ram root true count (v * pgsize)).wp (rule ram fails) own fun _ own' =>
      Space arch ram kept fixed root own' (view.drop v high) := by
  induction count generalizing v own view with
  | zero =>
      rw [View.drop_eq_self fun w hlow hw => by omega]
      exact h
  | succ count ih =>
      have hlt : v < high := by omega
      have hv : v < 67108864 := by omega
      have hskip : view v = none → ∀ {own'}, Space arch ram kept fixed root own' view →
          (unmapFrom ram root true count (v * pgsize + pgsize)).wp (rule ram fails) own' fun _ after =>
            Space arch ram kept fixed root after (view.drop v high) := by
        intro hhole own' h'
        rw [← Nat.succ_mul, ← View.drop_succ_of_hole hhole hlt]
        exact ih h' (by omega) fun w hw => hfixed w (by omega)
      obtain ⟨tree, htree⟩ := h
      rw [unmapFrom, Program.wp_bind]
      apply htree.wp_walk (va_lt hv)
      cases hnode : tree.node (arch.upper v) with
      | none => exact hskip (htree.hole_of_table_eq_none hnode) ⟨tree, htree⟩
      | some t =>
          obtain ⟨htable, hleaf⟩ := htree.slot hnode
          rw [Option.map_some, Option.elim_some, Program.wp_bind, wp_read]
          refine ⟨_, htable, ?_⟩
          rw [hleaf]
          cases hpage : view v with
          | none =>
              rw [(htree.hole (lt_limit hv) hpage).trans (hfixed v (Nat.le_refl v) hlt)]
              exact hskip hpage ⟨tree, htree⟩
          | some page =>
              obtain ⟨-, -, hmaps⟩ := htree.page hpage
              have haddr : pte2pa (tree.leaf (arch.path v)) = page.frame := hmaps.page
              have hvalid : valid (tree.leaf (arch.path v)) = true := hmaps.isMapped
              rw [haddr, Program.when, if_pos hvalid, Program.when, if_pos rfl]
              apply Program.wp_seq rule_monotone
                (htree.wp_clear hpage hnode (hfixed v (Nat.le_refl v) hlt))
              intro _ own' hspace
              rw [← Nat.succ_mul, ← View.drop_update hlt]
              exact ih hspace (by omega) fun w hw => hfixed w (by omega)

theorem uvmunmap_fixed (h : Space arch ram kept fixed root own view) (hv : v < 67108864)
    (hnone : view v = none) (hentry : valid (fixed v) = false → fixed v = 0) :
    (uvmunmap ram root (v * pgsize) 1 false).wp (rule ram fails) own fun _ own' =>
      Space arch ram kept (Function.update fixed v 0) root own' view := by
  obtain ⟨tree, htree⟩ := h
  have hfixed : tree.leaf (arch.path v) = fixed v := htree.hole (lt_limit hv) hnone
  have hsame : fixed v = 0 → Function.update fixed v 0 = fixed := by
    intro hzero
    rw [← hzero, Function.update_eq_self]
  rw [uvmunmap, Program.wp_bind, wp_panicIf]
  refine ⟨not_not_intro (Nat.mul_mod_left v pgsize), ?_⟩
  rw [unmapFrom, Program.wp_bind]
  apply htree.wp_walk (va_lt hv)
  cases hnode : tree.node (arch.upper v) with
  | none =>
      have hlength := arch.length_upper v
      rw [hsame (hfixed.symm.trans (tree.leaf_zero (by omega) hnode _))]
      exact ⟨tree, htree⟩
  | some t =>
      obtain ⟨htable, hleaf⟩ := htree.slot hnode
      rw [Option.map_some, Option.elim_some, Program.wp_bind, wp_read]
      refine ⟨_, htable, ?_⟩
      rw [hleaf, hfixed, Program.wp_bind, Program.wp_when]
      refine ⟨fun _ => ⟨_, htable, htree.setFixed hnode (lt_limit hv) hnone⟩, fun hnot => ?_⟩
      rw [hsame (hentry (Bool.eq_false_iff.mpr hnot))]
      exact ⟨tree, htree⟩

end Spec

/-- The test of `freewalk`. -/
def isChild (pte : Word) : Bool := valid pte && (pte &&& (pteR ||| pteW ||| pteX) == 0)

theorem isChild_tableEntry (p : Nat) : isChild (tableEntry p) = true := by
  have hmask : pteR ||| pteW ||| pteX = flagMask &&& (pteR ||| pteW ||| pteX) := rfl
  have hbits : tableEntry p &&& (pteR ||| pteW ||| pteX) = 0 := by
    rw [hmask, ← BitVec.and_assoc, tableEntry, BitVec.and_or_distrib_right, pa2pte_and_flagMask]
    rfl
  unfold isChild
  rw [hbits, tableEntry, valid_or]
  rfl

/-- The riscv64 kernel. Its address spaces may have holes. -/
def port (ram : Ram) : Port Index Word Flags ram where
  arch := arch
  maxva := maxva
  limit := 67108864
  present := valid
  mappages := mappages
  uvmunmap := uvmunmap ram
  hole _ := pure ()
  isChild := isChild
  other pte := panicIf (valid pte = true) "freewalk: leaf"
  indices := List.finRange 512
  lenient := True
  limit_le_arch := Nat.le_of_ble_eq_true rfl
  limit_le := Nat.le_of_ble_eq_true rfl
  full := arch_full
  mem_indices := mem_indices
  nodup := nodup_indices
  present_zero := rfl
  present_of_maps hmaps := hmaps.isMapped
  mappages_page := mappages_page
  uvmunmap_pages := by
    intro fails kept fixed root own view low high h hle hhigh hfixed _
    rw [uvmunmap, Program.wp_bind, wp_panicIf]
    refine ⟨not_not_intro (Nat.mul_mod_left low pgsize), ?_⟩
    exact unmapFrom_spec h (Nat.add_sub_of_le hle) hhigh hfixed
  hole_lenient _ _ := rfl
  isChild_table p _ := isChild_tableEntry p
  isChild_zero := rfl
  other_zero := rfl

end Xv6.Vm.Riscv64
