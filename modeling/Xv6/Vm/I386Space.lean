import Xv6.Vm.I386

/-!
# The page tables that the kernel builds on i386

`setupkvm` maps the kernel, and `allocuvm`, `deallocuvm` and `clearpteu` change the user part. `Built` is
what holds of a page table after any history of them: nothing of the kernel is for the user, and no table
is mapped for the user either.
-/

namespace Xv6.Vm.I386

open ArmPi1 (Word Attr Index index entry pteAddr pteFlags)

/-- How many pages are below `KERNBASE`. -/
def userPages : Nat := 524288

variable {ram : Ram} {fails : Bool → Prop} {kept : Nat → Prop} {fixed : Nat → Word} {tree : arch.Tree}
  {pgdir sz v : Nat} {own : Owned Index Word} {view : View Index Word Attr}

/-! ### Walks -/

theorem walkpgdir_eq (pgdir v : Nat) (alloc : Bool) :
    walkpgdir pgdir (v * pgsize) alloc =
      walkFrom arch alloc (arch.upper v) pgdir >>= fun pgtab =>
        pure (pgtab.map fun pgtab => (pgtab, arch.lower v)) := by
  have hupper : arch.upper v = [index (pdx (v * pgsize))] := rfl
  have hlower : arch.lower v = index (ptx (v * pgsize)) := rfl
  rw [hupper, hlower, walkpgdir, walkFrom, bind_assoc]
  congr 1
  funext pde
  change (if has pde pteP = true then _ else _) = (if has pde pteP = true then _ else _) >>= _
  by_cases hpde : has pde pteP = true
  · rw [if_pos hpde, if_pos hpde]
    rfl
  · rw [if_neg hpde, if_neg hpde]
    cases alloc with
    | false => rfl
    | true =>
        rw [if_neg (by decide), if_neg (by decide), bind_assoc]
        congr 1
        funext new
        cases new with
        | none => rfl
        | some new => rfl

theorem wp_walkpgdir_lookup (h : Layout arch ram kept fixed tree pgdir own view) (v : Nat)
    {Q : Option (Nat × Index) → Owned Index Word → Prop}
    (hpost : Q ((tree.node (arch.upper v)).map fun pgtab => (pgtab, arch.lower v)) own) :
    (walkpgdir pgdir (v * pgsize) false).wp (rule ram fails) own Q := by
  rw [walkpgdir_eq, Program.wp_bind]
  exact h.wp_walk_lookup v hpost

theorem finds (v : Nat) : Finds arch ram fails pgdir v (walkpgdir pgdir (v * pgsize) true) := by
  intro kept fixed own view h
  rw [walkpgdir_eq, Program.wp_bind]
  apply Program.wp_mono rule_monotone _ (h.walk_alloc v)
  intro pgtab own' hwalk
  obtain ⟨tree, htree, hfound⟩ := hwalk
  refine ⟨tree, htree, ?_⟩
  rcases hfound with ⟨rfl, hfails⟩ | ⟨t, rfl, hnode⟩
  · exact Or.inl ⟨rfl, hfails⟩
  · exact Or.inr ⟨t, rfl, hnode⟩

theorem mappages_eq {count : Nat} (hv : v + count < 1048576) (pgdir pa : Nat) (perm : Attr) :
    mappages pgdir (v * pgsize) ((count + 1) * pgsize) pa perm =
      mapFrom arch (walkpgdir pgdir · true) (has · pteP) "remap" perm (count + 1) (v * pgsize) pa := by
  have hlast : pgrounddown (uint ((v * pgsize : Nat) + ((count + 1) * pgsize : Nat) - 1)) = (v + count) * pgsize := by
    unfold pgrounddown uint pgsize
    omega
  have hcount : ((v + count) * pgsize - v * pgsize) / pgsize + 1 = count + 1 := by
    unfold pgsize
    omega
  unfold mappages
  dsimp only
  rw [pgrounddown_mul, hlast, hcount]

/-! ### The user part -/

theorem deallocFrom_spec {oldsz rounds : Nat} (h : Space arch ram kept fixed pgdir own view)
    (hbound : pages oldsz ≤ userPages) (hfixed : ∀ w < pages oldsz, fixed w = 0)
    (hrounds : pages oldsz ≤ v + rounds) :
    (deallocFrom ram pgdir oldsz rounds (v * pgsize)).wp (rule ram fails) own fun _ own' =>
      Space arch ram kept fixed pgdir own' (view.drop v (pages oldsz)) := by
  induction rounds generalizing v own view with
  | zero =>
      rw [View.drop_eq_self fun w hlow hhigh => by omega]
      exact h
  | succ rounds ih =>
      unfold deallocFrom
      by_cases hv : v * pgsize < oldsz
      · rw [if_pos hv]
        have hlt : v < pages oldsz := lt_pages_iff.mpr hv
        have huser : v < userPages := Nat.lt_of_lt_of_le hlt hbound
        obtain ⟨tree, htree⟩ := h
        rw [Program.wp_bind]
        apply wp_walkpgdir_lookup htree
        cases hnode : tree.node (arch.upper v) with
        | none =>
            -- No page of this directory entry is mapped, and the next round is at the next entry.
            have hnext : (pdx (v * pgsize) + 1) * 4194304 - pgsize + pgsize = (v / 1024 + 1) * 1024 * pgsize := by
              unfold pdx pgsize
              unfold userPages at huser
              omega
            have hholes : ∀ w, v ≤ w → w < (v / 1024 + 1) * 1024 → view w = none := by
              intro w hle hlt'
              have hsame : arch.upper w = arch.upper v := by
                have hpdx : pdx (w * 4096) = pdx (v * 4096) := by
                  unfold pdx
                  omega
                exact congrArg (fun i => [index i]) hpdx
              apply htree.hole_of_table_eq_none
              rw [hsame, hnode]
            have hdrop : view.drop v (pages oldsz) = view.drop ((v / 1024 + 1) * 1024) (pages oldsz) := by
              funext w
              unfold View.drop
              by_cases hskipped : v ≤ w ∧ w < (v / 1024 + 1) * 1024
              · rw [hholes w hskipped.1 hskipped.2, ite_self, ite_self]
              · refine if_congr ?_ rfl rfl
                omega
            simp only [Option.map_none, Option.elim_none]
            rw [hnext, hdrop]
            exact ih ⟨tree, htree⟩ (by omega)
        | some t =>
            have hnext : v * pgsize + pgsize = (v + 1) * pgsize := (Nat.succ_mul v pgsize).symm
            obtain ⟨hwords, hleaf⟩ := htree.slot hnode
            simp only [Option.map_some, Option.elim_some, Program.wp_bind, wp_read]
            refine ⟨_, hwords, ?_⟩
            rw [hleaf, hnext]
            cases hview : view v with
            | none =>
                have hzero : has (0 : Word) pteP = false := has_zero pteP
                have hlimit : v < arch.limit := Nat.lt_trans huser (by decide)
                rw [htree.hole hlimit hview, hfixed v hlt, Program.wp_when]
                refine ⟨fun hpresent => ?_, fun _ => ?_⟩
                · rw [hzero] at hpresent
                  cases hpresent
                rw [← View.drop_succ_of_hole hview hlt]
                exact ih ⟨tree, htree⟩ (by omega)
            | some page =>
                obtain ⟨hframe, hmem, hmaps⟩ := htree.page hview
                have hram := htree.ram hmem
                have hpresent : has (tree.leaf (arch.path v)) pteP = true := hmaps.isMapped
                have haddr : pteAddr (tree.leaf (arch.path v)) = page.frame := hmaps.page
                rw [Program.wp_when]
                refine ⟨fun _ => ?_, fun habsent => absurd hpresent habsent⟩
                rw [haddr, Program.wp_bind, wp_panicIf]
                refine ⟨Nat.ne_of_gt (Nat.lt_of_lt_of_le ram.first_pos hram.1), ?_⟩
                apply Program.wp_mono rule_monotone _ (htree.wp_clear hview hnode (hfixed v hlt))
                intro _ own' hspace
                rw [← View.drop_update hlt]
                exact ih hspace (by omega)
      · rw [if_neg hv, View.drop_eq_self fun w hlow hhigh => ?_]
        · exact h
        · have hlt := mt lt_pages_iff.mp hv
          omega

theorem deallocuvm_spec {oldsz newsz : Nat} (h : Space arch ram kept fixed pgdir own view)
    (hbound : pages oldsz ≤ userPages) (hfixed : ∀ w < pages oldsz, fixed w = 0) :
    (deallocuvm ram pgdir oldsz newsz).wp (rule ram fails) own fun result own' =>
      result = min oldsz newsz ∧
        Space arch ram kept fixed pgdir own' (view.drop (pages newsz) (pages oldsz)) := by
  unfold deallocuvm
  by_cases hge : newsz ≥ oldsz
  · have hle : pages oldsz ≤ pages newsz := pages_mono hge
    rw [if_pos hge, View.drop_eq_self fun w hlow hhigh => by omega]
    exact ⟨(Nat.min_eq_left hge).symm, h⟩
  · rw [if_neg hge, Program.wp_bind]
    apply Program.wp_mono rule_monotone _ (deallocFrom_spec h hbound hfixed (Nat.le_add_left _ _))
    intro _ own' hspace
    exact ⟨(Nat.min_eq_right (Nat.le_of_lt (Nat.not_le.mp hge))).symm, hspace⟩

/-- A page as `allocuvm` maps it. -/
def Zeroed (page : Page Index Word Attr) : Prop :=
  page.flags = arch.sealed (pteW ||| pteU) ∧ page.words = fun _ => 0

theorem allocFrom_spec {view₀ : View Index Word Attr} {oldsz newsz count : Nat}
    (h : Space arch ram kept fixed pgdir own view) (hbound : pages newsz ≤ userPages)
    (hfixed : ∀ w < pages newsz, fixed w = 0) (hcount : v + count = pages newsz) (hle : pages oldsz ≤ v)
    (hfills : View.Fills Zeroed (pages oldsz) v view₀ view)
    (hholes : ∀ w, pages oldsz ≤ w → w < pages newsz → view₀ w = none) :
    (allocFrom ram pgdir oldsz newsz count (v * pgsize)).wp (rule ram fails) own fun result own' =>
      (result = newsz ∧ ∃ view', Space arch ram kept fixed pgdir own' view' ∧
        View.Fills Zeroed (pages oldsz) (pages newsz) view₀ view') ∨
      (result = 0 ∧ Space arch ram kept fixed pgdir own' view₀) := by
  induction count generalizing v own view with
  | zero =>
      obtain rfl : v = pages newsz := hcount
      exact Or.inl ⟨rfl, view, h, hfills⟩
  | succ count ih =>
      have hlt : v < pages newsz := by omega
      have hlimit : v + 0 < 1048576 := by
        unfold userPages at hbound
        omega
      have hholes' : ∀ w, v ≤ w → w < pages newsz → view w = none := by
        intro w hw hw'
        rw [(hfills w).2 (by omega)]
        exact hholes w (by omega) hw'
      have hdrop : view.drop (pages oldsz) (pages newsz) = view₀ := by
        rw [View.drop_of_hole (Nat.le_of_lt hlt) hholes']
        exact hfills.drop_eq fun w hlow hhigh => hholes w hlow (by omega)
      have hundo : ∀ {own'}, Space arch ram kept fixed pgdir own' view →
          (deallocuvm ram pgdir newsz oldsz).wp (rule ram fails) own' fun _ own'' =>
            Space arch ram kept fixed pgdir own'' view₀ := by
        intro own' hspace
        apply Program.wp_mono rule_monotone _ (deallocuvm_spec hspace hbound hfixed)
        intro _ own'' hresult
        rw [← hdrop]
        exact hresult.2
      rw [allocFrom, Program.wp_bind, wp_kalloc]
      refine ⟨fun _ => ?_, fun mem words hram hnone => ?_⟩
      · rw [Option.elim_none, Program.wp_bind]
        apply Program.wp_mono rule_monotone _ (hundo h)
        exact fun _ own' hspace => Or.inr ⟨rfl, hspace⟩
      · have hmap := @mapFrom_one _ _ _ _ arch ram fails _ _ _ _ _ v (walkpgdir pgdir · true) (has · pteP) "remap"
          (v * pgsize) mem (fun _ => 0) (finds v) (has_zero pteP) h hlimit (hholes' v (Nat.le_refl v) hlt)
          (hfixed v hlt) hnone hram (pteW ||| pteU)
        rw [Option.elim_some, Program.wp_bind, wp_fill]
        refine ⟨words, Heap.set_self, ?_⟩
        have hone : mappages pgdir (v * pgsize) pgsize mem (pteW ||| pteU) =
            mapFrom arch (walkpgdir pgdir · true) (has · pteP) "remap" (pteW ||| pteU) 1 (v * pgsize) mem := by
          rw [← mappages_eq hlimit, Nat.zero_add, Nat.one_mul]
        rw [Heap.set_set, Program.wp_bind, hone]
        apply Program.wp_mono rule_monotone _ hmap
        intro mapped own' hmapped
        rcases hmapped with ⟨rfl, hspace⟩ | ⟨rfl, -, old, rfl, hmem, hspace⟩
        · rw [if_neg (by decide), ← Nat.succ_mul]
          exact ih hspace (by omega) (by omega) (hfills.succ hle ⟨rfl, rfl⟩)
        · rw [if_pos (by decide), Program.wp_bind, Heap.set_eq_union hmem]
          apply Program.wp_mono rule_monotone _ (Program.wp_frame rule_monotone rule_local
            (Heap.disjoint_single hmem) (hundo hspace))
          intro _ own'' hframe
          obtain ⟨left, rfl, hdisjoint, hspace'⟩ := hframe
          have hmem' : left mem = none := hdisjoint.left_eq_none Heap.set_self
          rw [← Heap.set_eq_union hmem', Program.wp_bind, wp_kfree hram]
          refine ⟨⟨_, Heap.set_self⟩, Or.inr ⟨rfl, ?_⟩⟩
          rwa [Heap.erase_set hmem']

/-! ### What holds of every page table -/

/-- A page table with `sz` bytes of user memory. -/
structure Built (ram : Ram) (pgdir sz : Nat) (own : Owned Index Word) (view : View Index Word Attr)
    (fixed : Nat → Word) : Prop where
  space : Space arch ram (fun _ => False) fixed pgdir own view
  within : view.Within (pages sz)
  le : pages sz ≤ userPages
  user : ∀ w < userPages, fixed w = 0
  kernel : ∀ w, has (fixed w) pteU = false

namespace Built

variable (h : Built ram pgdir sz own view fixed)
include h

theorem allocuvm_spec (newsz : Nat) :
    (allocuvm ram pgdir sz newsz).wp (rule ram fails) own fun sz1 own' =>
      ∃ view', Built ram pgdir (if sz1 = 0 then sz else sz1) own' view' fixed := by
  obtain ⟨hspace, hwithin, hle, huser, hkernel⟩ := h
  have hsame : ∀ {own' sz1}, Space arch ram (fun _ => False) fixed pgdir own' view → sz1 = 0 ∨ sz1 = sz →
      ∃ view', Built ram pgdir (if sz1 = 0 then sz else sz1) own' view' fixed := by
    intro own' sz1 hspace' hsz
    have hsz1 : (if sz1 = 0 then sz else sz1) = sz := by
      rcases hsz with rfl | rfl
      · exact if_pos rfl
      · exact ite_eq_right_iff.mpr fun _ => rfl
    rw [hsz1]
    exact ⟨view, hspace', hwithin, hle, huser, hkernel⟩
  unfold allocuvm
  by_cases hbound : newsz ≥ kernbase
  · rw [if_pos hbound]
    exact hsame hspace (Or.inl rfl)
  rw [if_neg hbound]
  by_cases hshrink : newsz < sz
  · rw [if_pos hshrink]
    exact hsame hspace (Or.inr rfl)
  rw [if_neg hshrink]
  have hgrow : pages sz ≤ pages newsz := pages_mono (Nat.not_lt.mp hshrink)
  have hnew : pages newsz ≤ userPages := pages_mono (Nat.le_of_lt (Nat.not_le.mp hbound))
  apply Program.wp_mono rule_monotone _ (allocFrom_spec hspace hnew
    (fun w hw => huser w (Nat.lt_of_lt_of_le hw hnew)) (Nat.add_sub_of_le hgrow) (Nat.le_refl _)
    View.Fills.refl fun w hlow _ => hwithin.eq_none hlow)
  intro sz1 own' hresult
  rcases hresult with ⟨rfl, view', hspace', hfills⟩ | ⟨rfl, hspace'⟩
  · have hwithin' : view'.Within (pages sz1) := hwithin.fills hgrow hfills
    refine ⟨view', hspace', ?_, ?_, huser, hkernel⟩
    · by_cases hzero : sz1 = 0
      · rw [if_pos hzero]
        exact hwithin'.mono (pages_mono (by omega))
      · rwa [if_neg hzero]
    · by_cases hzero : sz1 = 0
      · rwa [if_pos hzero]
      · rwa [if_neg hzero]
  · exact hsame hspace' (Or.inl rfl)

theorem deallocuvm_spec (newsz : Nat) :
    (deallocuvm ram pgdir sz newsz).wp (rule ram fails) own fun sz1 own' =>
      ∃ view', Built ram pgdir sz1 own' view' fixed := by
  obtain ⟨hspace, hwithin, hle, huser, hkernel⟩ := h
  have hpages : pages (min sz newsz) = min (pages newsz) (pages sz) := by
    unfold pages pgsize
    omega
  apply Program.wp_mono rule_monotone _
    (I386.deallocuvm_spec hspace hle fun w hw => huser w (Nat.lt_of_lt_of_le hw hle))
  rintro _ own' ⟨rfl, hspace'⟩
  refine ⟨_, hspace', ?_, ?_, huser, hkernel⟩
  · rw [hpages]
    exact hwithin.drop
  · rw [hpages]
    exact (Nat.min_le_right _ _).trans hle

omit h in
/-- Without `PTE_U` an entry is as it was but for that. -/
theorem clear_pteU (word : Word) :
    pteAddr (word &&& ~~~pteU.setWidth 32) = pteAddr word ∧
      has (word &&& ~~~pteU.setWidth 32) pteP = has word pteP ∧
      has (word &&& ~~~pteU.setWidth 32) pteU = false := by
  have haddr : ∀ pte : Word, pteAddr pte = (pte >>> 12).toNat := fun pte =>
    ((BitVec.toNat_ushiftRight pte 12).trans (Nat.shiftRight_eq_div_pow pte.toNat 12)).symm
  have hshift : (~~~pteU.setWidth 32 : Word) >>> 12 = BitVec.allOnes 32 >>> 12 := rfl
  have hflags : pteFlags (word &&& ~~~pteU.setWidth 32) = pteFlags word &&& ~~~pteU :=
    BitVec.setWidth_and
  have hkeep : ~~~pteU &&& pteP = pteP := rfl
  have hdrop : ~~~pteU &&& pteU = 0 := rfl
  refine ⟨?_, ?_, ?_⟩
  · rw [haddr, haddr, BitVec.ushiftRight_and_distrib, hshift, ← BitVec.ushiftRight_and_distrib,
      BitVec.and_allOnes]
  · unfold has
    rw [hflags, BitVec.and_assoc, hkeep]
  · unfold has
    rw [hflags, BitVec.and_assoc, hdrop, show pteFlags word &&& (0 : Attr) = 0 from BitVec.and_zero]
    rfl

theorem clearpteu_spec {t : Nat} (hlayout : Layout arch ram (fun _ => False) fixed tree pgdir own view)
    (hv : v < 1048576) (hnode : tree.node (arch.upper v) = some t) :
    (clearpteu pgdir (v * pgsize)).wp (rule ram fails) own fun _ own' =>
      ∃ view' fixed', Built ram pgdir sz own' view' fixed' := by
  obtain ⟨-, hwithin, hle, huser, hkernel⟩ := h
  obtain ⟨hwords, hleaf⟩ := hlayout.slot hnode
  obtain ⟨haddr, hpresent, hcleared⟩ := clear_pteU (tree.leaf (arch.path v))
  rw [clearpteu, Program.wp_bind]
  apply wp_walkpgdir_lookup hlayout
  rw [hnode, Option.map_some, Option.elim_some, Program.wp_bind, wp_read]
  refine ⟨_, hwords, ?_⟩
  rw [hleaf, wp_write]
  refine ⟨_, hwords, ?_⟩
  cases hview : view v with
  | some page =>
      obtain ⟨-, -, hmaps⟩ := hlayout.page hview
      have hmaps' : arch.Maps (tree.leaf (arch.path v) &&& ~~~pteU.setWidth 32) page.frame
          (pteFlags (tree.leaf (arch.path v) &&& ~~~pteU.setWidth 32)) :=
        ⟨hpresent.trans hmaps.isMapped, haddr.trans hmaps.page, rfl⟩
      refine ⟨_, fixed, hlayout.remap hnode hview hmaps', ?_, hle, huser, hkernel⟩
      apply hwithin.update (hwithin v _)
      rw [hview]
      exact Option.some_ne_none page
  | none =>
      have hhole : tree.leaf (arch.path v) = fixed v := hlayout.hole hv hview
      refine ⟨view, _, hlayout.setFixed hnode hv hview, hwithin, hle, fun w hw => ?_, fun w => ?_⟩
      · by_cases hself : w = v
        · rw [hself, Function.update_self, hhole, huser v (hself ▸ hw)]
          rfl
        · rw [Function.update_of_ne hself, huser w hw]
      · by_cases hself : w = v
        · rw [hself, Function.update_self, hcleared]
        · rw [Function.update_of_ne hself, hkernel w]

end Built

/-! ### Setting up -/

/-- Of whole pages at or above `low`, in ascending order, and none of them for the user. -/
def KernelMap : (low : Nat) → List Kmap → Prop
  | _, [] => True
  | low, k :: rest => ∃ v count, k.virt = v * pgsize ∧ low ≤ v ∧
      uint (k.physEnd - k.physStart) = (count + 1) * pgsize ∧ v + count < 1048576 ∧ k.perm &&& pteU = 0 ∧
      KernelMap (v + (count + 1)) rest

theorem kmap_kernelMap {data : Nat} (haligned : data % pgsize = 0) (hlow : kernlink < data)
    (hhigh : data < kernbase + phystop) : KernelMap userPages (kmap data) := by
  obtain ⟨d, rfl⟩ := Nat.dvd_of_mod_eq_zero haligned
  unfold kernlink kernbase extmem pgsize at hlow
  unfold kernbase phystop pgsize at hhigh
  have hperm : pteW &&& pteU = 0 := rfl
  have hperm' : (0 : Attr) &&& pteU = 0 := rfl
  refine ⟨524288, 255, rfl, Nat.le_refl _, rfl, by decide, hperm, 524544, d - 524545, rfl, Nat.le_refl _, ?_, by omega,
    hperm', d, 581632 - d - 1, Nat.mul_comm _ _, by omega, ?_, by omega, hperm, 1040384, 8191, rfl, by omega, rfl,
    by decide, hperm, trivial⟩
  · unfold uint v2p kernlink kernbase extmem pgsize
    dsimp only
    omega
  · unfold uint v2p kernbase phystop pgsize
    dsimp only
    omega

theorem pteFlags_entry (p : Nat) (attr : Attr) : pteFlags (entry p attr) = attr := by
  have hlow : (BitVec.ofNat 32 (p * 4096)).setWidth 12 = 0#12 := by
    apply BitVec.eq_of_toNat_eq
    rw [BitVec.toNat_setWidth, BitVec.toNat_ofNat, BitVec.toNat_ofNat]
    omega
  have hattr : (attr.setWidth 32).setWidth 12 = attr := BitVec.setWidth_setWidth_of_le attr (by decide)
  unfold pteFlags entry
  rw [BitVec.setWidth_or, hlow, hattr, BitVec.zero_or]

theorem leaf_pteU {perm : Attr} (hperm : perm &&& pteU = 0) (p : Nat) : has (arch.leaf p perm) pteU = false := by
  have hother : pteP &&& pteU = 0 := rfl
  have hflags : pteFlags (arch.leaf p perm) = perm ||| pteP := pteFlags_entry p (perm ||| pteP)
  unfold has
  rw [hflags, BitVec.and_or_distrib_right, hperm, hother]
  rfl

section Runs

variable {ι : Type} {who : ι} {pool : Nat → Prop} {others junk : Nat → Index → Word} {refuses : Nat → Bool}
  {state state' : Memory Index Word × Nat}

theorem of_exec {α : Type} {program : Code Index Word α} {Q : α → Owned Index Word → Prop} {value : α}
    (howns : Owns ram pool others state.1 own) (hwp : program.wp (rule ram fun _ => True) own Q)
    (hexec : program.exec (scarce junk refuses) who state = some (value, state')) :
    ∃ own', Q value own' ∧ Owns ram pool others state'.1 own' :=
  (howns.ends_scarce hwp).of_exec hexec

theorem mapKernel_exec {low root : Nat} {maps : List Kmap} (howns : Owns ram pool others state.1 own)
    (hmaps : KernelMap low maps) (hlow : userPages ≤ low)
    (hspace : Space arch ram (fun _ => False) fixed pgdir own (fun _ => none))
    (hzero : ∀ w, w < userPages ∨ low ≤ w → fixed w = 0) (hkernel : ∀ w, has (fixed w) pteU = false)
    (hexec : (mapKernel ram pgdir maps).exec (scarce junk refuses) who state = some (some root, state')) :
    root = pgdir ∧ ∃ own' fixed', Owns ram pool others state'.1 own' ∧
      Built ram pgdir 0 own' (fun _ => none) fixed' := by
  induction maps generalizing low state own fixed with
  | nil =>
      obtain ⟨hroot, rfl⟩ := Prod.mk.inj (Option.some.inj hexec)
      obtain rfl := Option.some.inj hroot
      exact ⟨rfl, own, fixed, howns, hspace, fun v hsome => absurd rfl hsome, by decide,
        fun w hw => hzero w (Or.inl hw), hkernel⟩
  | cons k rest ih =>
      obtain ⟨v, count, hvirt, hle, hsize, hlimit, hperm, hrest⟩ := hmaps
      rw [mapKernel, hvirt, hsize, mappages_eq hlimit] at hexec
      obtain ⟨mapped, between, hmap, hnext⟩ := Program.exec_bind_eq_some hexec
      have hholes : ∀ w, v ≤ w → w < v + (count + 1) →
          (none : Option (Page Index Word Attr)) = none ∧ fixed w = arch.zero := fun w hw _ =>
        ⟨rfl, hzero w (Or.inr (hle.trans hw))⟩
      obtain ⟨own', ⟨fixed', hspace', hentries⟩, howns'⟩ := of_exec howns
        (mapFrom_holes finds (has_zero pteP) hspace hlimit hholes k.perm) hmap
      by_cases hfailed : mapped < 0
      · rw [if_pos hfailed] at hnext
        obtain ⟨_, last, -, hnone⟩ := Program.exec_bind_eq_some hnext
        obtain ⟨hnone, -⟩ := Prod.mk.inj (Option.some.inj hnone)
        cases hnone
      rw [if_neg hfailed] at hnext
      refine ih howns' hrest (by omega) hspace' (fun w hw => ?_) (fun w => ?_) hnext
      · rcases hentries w with hsame | ⟨hlow', hhigh', -⟩
        · rw [hsame]
          exact hzero w (by omega)
        · omega
      · rcases hentries w with hsame | ⟨-, -, p, hleaf⟩
        · rw [hsame, hkernel w]
        · rw [hleaf, leaf_pteU hperm]

theorem setupkvm_exec {root : Nat} {maps : List Kmap} (howns : Owns ram pool others state.1 Heap.empty)
    (hmaps : KernelMap userPages maps)
    (hexec : (setupkvm ram maps).exec (scarce junk refuses) who state = some (some root, state')) :
    ∃ own' fixed', Owns ram pool others state'.1 own' ∧ Built ram root 0 own' (fun _ => none) fixed' := by
  obtain ⟨pgdir, between, hkalloc, hrest⟩ := Program.exec_bind_eq_some hexec
  have hspec : (kalloc false).wp (rule ram fun _ => True) Heap.empty fun pgdir (own' : Owned Index Word) =>
      ∀ p, pgdir = some p → ram.Has p ∧ ∃ words, own' = Heap.single p words := by
    refine (wp_kalloc _ _).mpr ⟨fun _ p hp => ?_, fun p words hram _ p' hp => ?_⟩
    · cases hp
    · obtain rfl := Option.some.inj hp
      exact ⟨hram, words, rfl⟩
  obtain ⟨own, hpgdir, howns'⟩ := of_exec howns hspec hkalloc
  cases pgdir with
  | none =>
      obtain ⟨hnone, -⟩ := Prod.mk.inj (Option.some.inj hrest)
      cases hnone
  | some p =>
      obtain ⟨hram, words, rfl⟩ := hpgdir p rfl
      obtain ⟨_, filled, hfill, hrest'⟩ := Program.exec_bind_eq_some hrest
      obtain ⟨_, checked, hpanic, hmap⟩ := Program.exec_bind_eq_some hrest'
      have hfilled : (fill p (0 : Word)).wp (rule ram fun _ => True) (Heap.single p words)
          fun _ (own' : Owned Index Word) => own' = Heap.single p fun _ => 0 :=
        (wp_fill _ _ _).mpr ⟨words, Heap.set_self, Heap.set_set⟩
      obtain ⟨_, rfl, hzeroed⟩ := of_exec howns' hfilled hfill
      obtain ⟨_, rfl⟩ := Prod.mk.inj (Option.some.inj hpanic)
      obtain ⟨rfl, hbuilt⟩ := mapKernel_exec hzeroed hmaps (Nat.le_refl _) (Space.create hram) (fun _ _ => rfl)
        (fun _ => has_zero pteU) hmap
      exact hbuilt

end Runs

/-! ### Histories -/

/-- What the kernel does with the user part of a page table. -/
inductive Change where
  | alloc (newsz : Nat)
  | dealloc (newsz : Nat)
  | guard (uva : BitVec 32)

def change (ram : Ram) (pgdir sz : Nat) : Change → Code Index Word Nat
  | .alloc newsz => do
      let sz1 ← allocuvm ram pgdir sz newsz
      pure (if sz1 = 0 then sz else sz1)
  | .dealloc newsz => deallocuvm ram pgdir sz newsz
  | .guard uva => do
      clearpteu pgdir uva.toNat
      pure sz

def changes (ram : Ram) (pgdir : Nat) : Nat → List Change → Code Index Word Nat
  | sz, [] => pure sz
  | sz, c :: rest => do
      let sz ← change ram pgdir sz c
      changes ram pgdir sz rest

/-- A page table is set up, and then changed. -/
def build (ram : Ram) (maps : List Kmap) (history : List Change) : Code Index Word (Option Nat) := do
  let pgdir ← setupkvm ram maps
  pgdir.elim (pure none) fun pgdir => do
    let _ ← changes ram pgdir 0 history
    pure (some pgdir)

section Histories

variable {ι : Type} {who : ι} {pool : Nat → Prop} {others junk : Nat → Index → Word} {refuses : Nat → Bool}
  {state state' : Memory Index Word × Nat}

theorem walkpgdir_page (pgdir va : Nat) (alloc : Bool) :
    walkpgdir pgdir va alloc = walkpgdir pgdir (va / pgsize * pgsize) alloc := by
  have hpdx : pdx (va / pgsize * pgsize) = pdx va := by
    unfold pdx pgsize
    omega
  have hptx : ptx (va / pgsize * pgsize) = ptx va := by
    unfold ptx pgsize
    omega
  unfold walkpgdir
  rw [hpdx, hptx]

theorem change_exec {sz' : Nat} {c : Change} (howns : Owns ram pool others state.1 own)
    (h : Built ram pgdir sz own view fixed)
    (hexec : (change ram pgdir sz c).exec (scarce junk refuses) who state = some (sz', state')) :
    ∃ own' view' fixed', Owns ram pool others state'.1 own' ∧ Built ram pgdir sz' own' view' fixed' := by
  cases c with
  | alloc newsz =>
      obtain ⟨sz1, between, halloc, hpure⟩ := Program.exec_bind_eq_some hexec
      obtain ⟨own', ⟨view', hbuilt⟩, howns'⟩ := of_exec howns (h.allocuvm_spec newsz) halloc
      obtain ⟨rfl, rfl⟩ := Prod.mk.inj (Option.some.inj hpure)
      exact ⟨own', view', fixed, howns', hbuilt⟩
  | dealloc newsz =>
      obtain ⟨own', ⟨view', hbuilt⟩, howns'⟩ := of_exec howns (h.deallocuvm_spec newsz) hexec
      exact ⟨own', view', fixed, howns', hbuilt⟩
  | guard uva =>
      obtain ⟨_, between, hclear, hpure⟩ := Program.exec_bind_eq_some hexec
      obtain ⟨rfl, rfl⟩ := Prod.mk.inj (Option.some.inj hpure)
      have hclear' : (clearpteu pgdir (uva.toNat / pgsize * pgsize)).exec (scarce junk refuses) who state =
          some ((), between) := by
        rwa [clearpteu, ← walkpgdir_page, ← clearpteu]
      have hv : uva.toNat / pgsize < 1048576 := by
        have hlt := uva.isLt
        unfold pgsize
        omega
      obtain ⟨tree, hlayout⟩ := h.space
      cases hnode : tree.node (arch.upper (uva.toNat / pgsize)) with
      | none =>
          -- `clearpteu` panics.
          obtain ⟨pte, found, hwalk, hrest⟩ := Program.exec_bind_eq_some hclear'
          have hlookup : (walkpgdir pgdir (uva.toNat / pgsize * pgsize) false).wp (rule ram fun _ => True) own
              fun pte _ => pte = none := by
            apply wp_walkpgdir_lookup hlayout
            rw [hnode]
            rfl
          obtain ⟨_, rfl, -⟩ := of_exec howns hlookup hwalk
          cases hrest
      | some t =>
          obtain ⟨own', ⟨view', fixed', hbuilt⟩, howns'⟩ := of_exec howns
            (h.clearpteu_spec hlayout hv hnode) hclear'
          exact ⟨own', view', fixed', howns', hbuilt⟩

theorem changes_exec {sz' : Nat} {history : List Change} (howns : Owns ram pool others state.1 own)
    (h : Built ram pgdir sz own view fixed)
    (hexec : (changes ram pgdir sz history).exec (scarce junk refuses) who state = some (sz', state')) :
    ∃ own' view' fixed', Owns ram pool others state'.1 own' ∧ Built ram pgdir sz' own' view' fixed' := by
  induction history generalizing sz own view fixed state with
  | nil =>
      obtain ⟨rfl, rfl⟩ := Prod.mk.inj (Option.some.inj hexec)
      exact ⟨own, view, fixed, howns, h⟩
  | cons c rest ih =>
      obtain ⟨sz1, between, hchange, hrest⟩ := Program.exec_bind_eq_some hexec
      obtain ⟨own', view', fixed', howns', hbuilt⟩ := change_exec howns h hchange
      exact ih howns' hbuilt hrest

theorem build_exec {maps : List Kmap} {history : List Change}
    (howns : Owns ram pool others state.1 Heap.empty) (hmaps : KernelMap userPages maps)
    (hexec : (build ram maps history).exec (scarce junk refuses) who state = some (some pgdir, state')) :
    ∃ sz own view fixed, Owns ram pool others state'.1 own ∧ Built ram pgdir sz own view fixed := by
  obtain ⟨root, between, hsetup, hrest⟩ := Program.exec_bind_eq_some hexec
  cases root with
  | none =>
      obtain ⟨hnone, -⟩ := Prod.mk.inj (Option.some.inj hrest)
      cases hnone
  | some root =>
      obtain ⟨own, fixed, howns', hbuilt⟩ := setupkvm_exec howns hmaps hsetup
      obtain ⟨sz, last, hchanges, hpure⟩ := Program.exec_bind_eq_some hrest
      obtain ⟨hroot, rfl⟩ := Prod.mk.inj (Option.some.inj hpure)
      obtain rfl := Option.some.inj hroot
      exact ⟨sz, changes_exec howns' hbuilt hchanges⟩

end Histories

end Xv6.Vm.I386
