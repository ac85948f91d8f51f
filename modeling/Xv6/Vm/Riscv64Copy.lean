import Xv6.Vm.Riscv64Bytes
import Xv6.Vm.Riscv64Proc

/-!
# Copying to and from the user on riscv64

The loops of `copyout`, `copyin` and `copyinstr` copy the bytes that they get to, and a page fault
allocates a page exactly where the copy can use one.
-/

namespace Xv6.Vm.Riscv64

/-! ### What the functions do -/

/-- A copy can start from here: the page table is laid out as `s` says, with the pages of the kernel
at the top, and this many pages are free. -/
structure LaidOut (ram : Ram) (pool : Nat → Prop) (trampoline trapframe root : Nat) (s : Start)
    (own : Owned Index Word) : Prop where
  layout : Layout arch ram (fun _ => False) (kernelPages trampoline trapframe) s.tree root own s.view
  within : s.view.Within trapframePage
  free : (spare ram pool own).card = s.free
  ram : ∀ p, pool p → ram.Has p

section Spec

variable {ram : Ram} {pool : Nat → Prop} {trampoline trapframe root v : Nat} {s : Start} {own : Owned Index Word}

theorem needed_self (tree : arch.Tree) (v : Nat) : needed tree v (v + 1) = absent tree (arch.path v) := by
  rw [needed, Nat.Ico_succ_singleton, Finset.singleton_biUnion]

theorem usable_of_hole (hnone : s.view v = none) :
    s.Usable v v ↔ v < trapframePage ∧ v * pgsize < s.psz ∧ (absent s.tree (arch.path v)).card ≤ s.free := by
  unfold Start.Usable
  rw [hnone, needed_self]

theorem usable_of_page {page : Page Index Word Flags} (hpage : s.view v = some page) :
    s.Usable v v ↔ userPage page = true ∧ (s.store = true → allows page.flags pteW = true) := by
  unfold Start.Usable
  rw [hpage]

theorem allows_lazyFlags : allows lazyFlags pteW = true := by decide

theorem valid_kernelPages (hlow : trapframePage ≤ v) (hhigh : v < 67108864) :
    valid (kernelPages trampoline trapframe v) = true := by
  have hv : v = trapframePage ∨ v = trampolinePage := by
    unfold trapframePage trampolinePage at *
    omega
  have hne : trampolinePage ≠ trapframePage := Nat.succ_ne_self _
  unfold kernelPages
  rcases hv with rfl | rfl
  · rw [Function.update_self]
    exact valid_or _
  · rw [Function.update_of_ne hne, Function.update_self]
    exact valid_or _

namespace LaidOut

variable (h : LaidOut ram pool trampoline trapframe root s own)
include h

theorem userSpace : UserSpace ram trampoline trapframe root (trapframePage * pgsize) own s.view := by
  refine ⟨⟨s.tree, h.layout⟩, ?_, ?_⟩
  · rw [pages_mul]
    exact h.within
  · rw [pages_mul]

theorem ismapped_kernel (hlow : trapframePage ≤ v) (hhigh : v < 67108864) :
    (ismapped root (v * pgsize)).wp (exactly ram pool) own fun mapped own' => own' = own ∧ mapped = true := by
  have hhole := h.within.eq_none hlow
  have hvalid : valid (s.tree.leaf (arch.path v)) = true := by
    rw [h.layout.hole (lt_limit hhigh) hhole]
    exact valid_kernelPages hlow hhigh
  apply wp_exactly h.ram
  rw [ismapped, Program.wp_bind]
  apply h.layout.wp_walk (va_lt hhigh)
  cases hnode : s.tree.node (arch.upper v) with
  | none =>
      have hlength : (arch.upper v).length < arch.depth := Nat.lt_of_succ_le (arch.length_upper v).le
      have hzero : s.tree.leaf (arch.path v) = 0 := s.tree.leaf_zero hlength hnode _
      rw [hzero] at hvalid
      cases hvalid
  | some t =>
      obtain ⟨hwords, hleaf⟩ := h.layout.slot hnode
      rw [Option.map_some, Option.elim_some, Program.wp_bind, wp_read]
      refine ⟨_, hwords, rfl, ?_⟩
      rw [hleaf, hvalid]

theorem kept {tree' : arch.Tree} {own' : Owned Index Word}
    (h' : Layout arch ram (fun _ => False) (kernelPages trampoline trapframe) tree' root own' s.view) :
    ∃ s' : Start, LaidOut ram pool trampoline trapframe root s' own' ∧ s'.view = s.view :=
  ⟨{ s with tree := tree', free := (spare ram pool own').card }, ⟨h', h.within, rfl, h.ram⟩, rfl⟩

theorem vmfault_exactly (hva : v * pgsize < maxva ∨ s.psz ≤ v * pgsize) :
    (vmfault ram root s.psz (v * pgsize)).wp (exactly ram pool) own fun pa own' =>
      (pa = 0 ∧ (s.view v = none → ¬s.Usable v v) ∧
        ∃ s' : Start, LaidOut ram pool trampoline trapframe root s' own' ∧ s'.view = s.view) ∨
      (pa ≠ 0 ∧ s.view v = none ∧ s.Usable v v ∧ ∃ s', s.Step s' v ∧
        LaidOut ram pool trampoline trapframe root s' own' ∧ s'.view v = some ⟨pa, lazyFlags, fun _ => 0⟩) := by
  unfold vmfault
  by_cases hpsz : v * pgsize ≥ s.psz
  · rw [if_pos hpsz]
    refine Or.inl ⟨rfl, fun hnone husable => ?_, h.kept h.layout⟩
    exact absurd ((usable_of_hole hnone).mp husable).2.1 (Nat.not_lt.mpr hpsz)
  have hlimit : v < 67108864 := by
    unfold pgsize maxva at *
    omega
  rw [if_neg hpsz]
  dsimp only
  rw [pgrounddown_mul, Program.wp_bind]
  by_cases hkernel : trapframePage ≤ v
  · apply Program.wp_mono exactly_monotone _ (h.ismapped_kernel hkernel hlimit)
    rintro mapped own' ⟨rfl, rfl⟩
    rw [if_pos rfl]
    refine Or.inl ⟨rfl, fun hnone husable => ?_, h.kept h.layout⟩
    exact absurd ((usable_of_hole hnone).mp husable).1 (Nat.not_lt.mpr hkernel)
  have hv := Nat.not_le.mp hkernel
  apply Program.wp_mono exactly_monotone _ (wp_exactly h.ram (h.userSpace.ismapped_spec hv))
  rintro mapped own' ⟨rfl, rfl⟩
  cases hview : s.view v with
  | some page =>
      rw [Option.isSome_some, if_pos rfl]
      exact Or.inl ⟨rfl, fun hnone => absurd hnone (Option.some_ne_none page), h.kept h.layout⟩
  | none =>
      have hnode : s.tree.node (arch.path v) = none := h.layout.node_of_hole (lt_limit hlimit) hview
      have habsent : 0 < (absent s.tree (arch.path v)).card :=
        Finset.card_pos.mpr ⟨_, mem_absent.mpr ⟨List.prefix_refl _, hnode⟩⟩
      rw [Option.isSome_none, if_neg Bool.false_ne_true, Program.wp_bind, exactly_kalloc]
      refine ⟨fun hfull => Or.inl ⟨rfl, fun _ husable => ?_, h.kept h.layout⟩, fun mem words hmem hfree => ?_⟩
      · have hle := ((usable_of_hole hview).mp husable).2.2
        rw [← h.free, (card_spare_eq_zero h.ram).mpr hfull] at hle
        omega
      have hpos : mem ≠ 0 := Nat.ne_of_gt (Nat.lt_of_lt_of_le ram.first_pos (h.ram mem hmem).1)
      rw [Option.elim_some, Program.wp_bind, exactly_fill]
      refine ⟨words, Heap.set_self, ?_⟩
      rw [Heap.set_set, Program.wp_bind, mappages, Program.wp_bind, exactly_panicIf, Program.wp_bind,
        exactly_panicIf, Program.wp_bind, exactly_panicIf]
      refine ⟨not_not_intro (Nat.mul_mod_left v pgsize), by decide, by decide, ?_⟩
      dsimp only
      rw [Nat.add_sub_cancel, Nat.sub_self, Nat.zero_div]
      apply Program.wp_mono exactly_monotone _ (h.layout.mapFrom_exactly h.ram (va_lt hlimit) rfl
        (lt_limit hlimit) hview (kernelPages_of_lt hv) hfree hmem _)
      rintro result own'' (⟨rfl, tree', htree', hcompletes, hcount⟩ | ⟨rfl, hlt, old, rfl, hold, tree', htree'⟩)
      · rw [if_neg (by decide)]
        refine Or.inr ⟨hpos, rfl, (usable_of_hole hview).mpr ⟨hv, Nat.not_le.mp hpsz, ?_⟩,
          ⟨s.psz, s.store, tree', _, (spare ram pool own'').card⟩, ⟨rfl, rfl, hcompletes, ?_, ?_⟩,
          ⟨htree', h.within.update hv _, rfl, h.ram⟩, Function.update_self ..⟩
        · rw [← h.free, hcount]
          exact Nat.le_add_left ..
        · rw [← h.free, hcount]
        · exact fun w hw => Function.update_of_ne hw ..
      · rw [if_pos (by decide), Program.wp_bind, exactly_kfree (h.ram mem hmem)]
        refine ⟨⟨_, Heap.set_self⟩, Or.inl ⟨rfl, fun _ husable => ?_, ?_⟩⟩
        · have hle := ((usable_of_hole hview).mp husable).2.2
          rw [← h.free] at hle
          omega
        · rw [Heap.erase_set hold]
          exact h.kept htree'

theorem leaves {page : Page Index Word Flags} (hpage : s.view v = some page) :
    s.Leaves s v (contents s.view v) := by
  have hnode := (h.layout.page hpage).1
  refine ⟨⟨rfl, rfl, Completes.refl hnode, ?_, fun _ _ => rfl⟩, rfl, page, hpage, fun hnone => ?_,
    fun old hold => ?_⟩
  · rw [absent_eq_empty hnode, Finset.card_empty]
    rfl
  · exact absurd (hpage.symm.trans hnone) (Option.some_ne_none page)
  · obtain rfl := Option.some.inj (hpage.symm.trans hold)
    exact ⟨rfl, rfl⟩

theorem pageAt_exactly (hva : v * pgsize < maxva ∨ s.psz ≤ v * pgsize) :
    (pageAt ram root s.psz (v * pgsize)).wp (exactly ram pool) own fun pa own' =>
      (pa = 0 ∧ ¬s.Usable v v ∧
        ∃ s' : Start, LaidOut ram pool trampoline trapframe root s' own' ∧ s'.view = s.view) ∨
      (∃ s' page, pa = page.frame ∧ pa ≠ 0 ∧ LaidOut ram pool trampoline trapframe root s' own' ∧
        s'.view v = some page ∧ s.Leaves s' v (contents s.view v) ∧
        (s.Usable v v ↔ (s.store = true → allows page.flags pteW = true)) ∧
        (s' = s ∨ page.flags = lazyFlags)) := by
  rw [pageAt, Program.wp_bind]
  apply Program.wp_mono exactly_monotone _ (wp_exactly h.ram (h.userSpace.walkaddr_spec v))
  rintro pa own' ⟨rfl, rfl⟩
  cases hview : s.view v with
  | some page =>
      have hiff := usable_of_page hview
      obtain ⟨-, hwords, -⟩ := h.layout.page hview
      have hpos : page.frame ≠ 0 := Nat.ne_of_gt (Nat.lt_of_lt_of_le ram.first_pos (h.layout.ram hwords).1)
      by_cases huser : userPage page = true
      · rw [Option.filter_some_pos huser, Option.elim_some, if_neg hpos]
        exact Or.inr ⟨s, page, rfl, hpos, h, hview, h.leaves hview, hiff.trans (and_iff_right huser), Or.inl rfl⟩
      · rw [Option.filter_some_neg (Bool.not_eq_true _ ▸ huser), Option.elim_none, if_pos rfl]
        apply Program.wp_mono exactly_monotone _ (h.vmfault_exactly hva)
        rintro pa own'' (⟨rfl, -, hkept⟩ | ⟨-, hnone, -⟩)
        · exact Or.inl ⟨rfl, fun husable => huser (hiff.mp husable).1, hkept⟩
        · exact absurd (hview.symm.trans hnone) (Option.some_ne_none page)
  | none =>
      rw [Option.filter_none, Option.elim_none, if_pos rfl]
      apply Program.wp_mono exactly_monotone _ (h.vmfault_exactly hva)
      rintro pa own'' (⟨rfl, hnot, hkept⟩ | ⟨hpos, -, husable, s', hstep, hlaid, hpage⟩)
      · exact Or.inl ⟨rfl, hnot hview, hkept⟩
      · have hcontents : contents s'.view v = contents s.view v := by
          unfold contents
          rw [hpage, hview]
          rfl
        refine Or.inr ⟨s', _, rfl, hpos, hlaid, hpage, ⟨hstep, hcontents, _, hpage, fun _ => rfl, fun old hold => ?_⟩,
          iff_of_true husable fun _ => allows_lazyFlags, Or.inr rfl⟩
        exact absurd (hold.symm.trans hview) (Option.some_ne_none old)

theorem store {page : Page Index Word Flags} (hpage : s.view v = some page) (words : Index → Word) :
    LaidOut ram pool trampoline trapframe root
      { s with view := Function.update s.view v (some { page with words }) } (own.set page.frame words) := by
  refine ⟨h.layout.store hpage, h.within.same (View.SamePages.store hpage words), ?_, h.ram⟩
  rw [spare_set (h.layout.page hpage).2.1, h.free]

end LaidOut

theorem Start.Leaves.stores {s' : Start} {page : Page Index Word Flags} {old : Index → Word}
    (h : s.Leaves s' v old) (hpage : s'.view v = some page) (words : Index → Word) :
    s.Leaves { s' with view := Function.update s'.view v (some { page with words }) } v words := by
  obtain ⟨page', hpage', hlazy, hsame⟩ := h.mapped
  obtain rfl := Option.some.inj (hpage.symm.trans hpage')
  refine ⟨⟨h.psz, h.store, h.completes, h.free, fun w hw => ?_⟩, ?_, _, Function.update_self .., hlazy, hsame⟩
  · exact (Function.update_of_ne hw ..).trans (h.view w hw)
  · change (Function.update s'.view v (some { page with words }) v).elim (fun _ => 0) Page.words = words
    rw [Function.update_self]
    rfl

/-! The loops. -/

namespace LaidOut

variable {va : Nat}

theorem loadFrom_exactly {page : Page Index Word Flags} (h : LaidOut ram pool trampoline trapframe root s own)
    (hpage : s.view v = some page) (off n : Nat) :
    (loadFrom page.frame off n).wp (exactly ram pool) own fun bytes own' =>
      own' = own ∧ bytes = loadBytes (contents s.view v) off n := by
  have hwords : contents s.view v = page.words := by
    rw [contents, hpage]
    rfl
  rw [hwords]
  exact wp_exactly h.ram (UserSpace.loadFrom_spec (h.layout.page hpage).2.1)

theorem loadUntilNull_exactly {page : Page Index Word Flags} (h : LaidOut ram pool trampoline trapframe root s own)
    (hpage : s.view v = some page) (off n : Nat) :
    (loadUntilNull page.frame off n).wp (exactly ram pool) own fun bytes own' =>
      own' = own ∧ bytes = untilNull (loadBytes (contents s.view v) off n) := by
  have hwords : contents s.view v = page.words := by
    rw [contents, hpage]
    rfl
  rw [hwords]
  exact wp_exactly h.ram (UserSpace.loadUntilNull_spec (h.layout.page hpage).2.1)

theorem copyoutFrom_exactly {rounds : Nat} {src : List UInt8} (h : LaidOut ram pool trampoline trapframe root s own)
    (hstore : s.store = true) (hrounds : src.length ≤ rounds) :
    (copyoutFrom ram root s.psz rounds va src).wp (exactly ram pool) own fun result own' =>
      ∃ s', LaidOut ram pool trampoline trapframe root s' own' ∧ CopiedOut s va src result s'.view := by
  induction rounds generalizing va src s own with
  | zero =>
      obtain rfl := List.eq_nil_of_length_eq_zero (Nat.le_zero.mp hrounds)
      exact ⟨s, h, CopiedOut.nil⟩
  | succ rounds ih =>
      unfold copyoutFrom
      by_cases hnil : src.length = 0
      · obtain rfl := List.eq_nil_of_length_eq_zero hnil
        exact ⟨s, h, CopiedOut.nil⟩
      have hpos := Nat.pos_of_ne_zero hnil
      have hsub : va - va / pgsize * pgsize = va % pgsize := by
        unfold pgsize
        omega
      rw [if_neg hnil, pgrounddown]
      by_cases hva : va / pgsize * pgsize ≥ maxva
      · have hlow : trapframePage ≤ va / pgsize := by
          unfold pgsize maxva trapframePage at *
          omega
        rw [if_pos hva]
        refine ⟨s, h, CopiedOut.fails hpos fun husable => ?_⟩
        exact absurd ((usable_of_hole (h.within.eq_none hlow)).mp husable).1 (Nat.not_lt.mpr hlow)
      rw [if_neg hva]
      dsimp only
      rw [hsub]
      generalize hn : min (pgsize - va % pgsize) src.length = n
      have hnpos : 0 < n := by
        unfold pgsize at hn
        omega
      rw [Program.wp_bind]
      apply Program.wp_mono exactly_monotone _ (h.pageAt_exactly (Or.inl (Nat.not_le.mp hva)))
      rintro pa own' (⟨rfl, hnot, s', hlaid, hview⟩ | ⟨s', page, rfl, hframe, hlaid, hpage, hleaves, hiff, hcase⟩)
      · rw [if_pos rfl]
        refine ⟨s', hlaid, ?_⟩
        rw [hview]
        exact CopiedOut.fails hpos hnot
      have hmask : flagMask &&& pteW = pteW := rfl
      rw [if_neg hframe, Program.wp_bind]
      apply wp_exactly h.ram
      apply hlaid.userSpace.wp_entry hmask hpage
      intro t words hwords hentry
      rw [Option.elim_some, Program.wp_bind, exactly_read]
      refine ⟨words, hwords, ?_⟩
      rw [hentry]
      by_cases hwrite : page.flags.val &&& pteW = 0
      · rw [if_pos hwrite]
        have hnot : ¬allows page.flags pteW = true := fun hallows => bne_iff_ne.mp hallows hwrite
        rcases hcase with rfl | hlazy
        · exact ⟨s', hlaid, CopiedOut.fails hpos fun husable => hnot (hiff.mp husable hstore)⟩
        · rw [hlazy] at hnot
          exact absurd allows_lazyFlags hnot
      · have husable : s.Usable (va / pgsize) (va / pgsize) := hiff.mpr fun _ => bne_iff_ne.mpr hwrite
        have hwords' : page.words = contents s.view (va / pgsize) := by
          rw [← hleaves.contents, contents, hpage]
          rfl
        rw [if_neg hwrite, Program.wp_bind, exactly_modify,
          UserSpace.next_page (hlaid.userSpace.lt_trapframe hpage), Nat.succ_mul]
        refine ⟨page.words, (hlaid.layout.page hpage).2.1, ?_⟩
        have hleft : (src.drop n).length ≤ rounds := by
          rw [List.length_drop]
          omega
        rw [← hleaves.psz]
        apply Program.wp_mono exactly_monotone _ (ih
          (hlaid.store hpage (storeBytes page.words (va % pgsize) (src.take n)))
          (hleaves.store.trans hstore) hleft)
        rintro result own'' ⟨s'', hlaid'', hcopied⟩
        rw [hwords'] at hcopied
        exact ⟨s'', hlaid'', hcopied.step hn.symm husable rfl hnpos (hleaves.stores hpage _)⟩

/-- `walk` is not called for an address beyond `MAXVA`: the size, or the range, is below it. -/
def Low (s : Start) (va len : Nat) : Prop := s.psz ≤ maxva ∨ va + len ≤ maxva

theorem Low.page {len : Nat} (h : Low s va len) (hpos : 0 < len) :
    va / pgsize * pgsize < maxva ∨ s.psz ≤ va / pgsize * pgsize := by
  unfold Low at h
  unfold pgsize
  omega

theorem Low.next {s' : Start} {len n : Nat} (h : Low s va len) (hpsz : s'.psz = s.psz) (hpos : 0 < len)
    (hn : n = min (pgsize - va % pgsize) len) : Low s' (va / pgsize * pgsize + pgsize) (len - n) := by
  unfold Low maxva pgsize at *
  rw [hpsz]
  omega

theorem copyinFrom_exactly {rounds len : Nat} (h : LaidOut ram pool trampoline trapframe root s own)
    (hlow : Low s va len) (hstore : s.store = false) (hrounds : len ≤ rounds) :
    (copyinFrom ram root s.psz rounds va len).wp (exactly ram pool) own fun result own' =>
      ∃ s', LaidOut ram pool trampoline trapframe root s' own' ∧ CopiedIn s va len result s'.view := by
  induction rounds generalizing va len s own with
  | zero =>
      obtain rfl := Nat.le_zero.mp hrounds
      exact ⟨s, h, CopiedIn.nil⟩
  | succ rounds ih =>
      unfold copyinFrom
      by_cases hzero : len = 0
      · rw [if_pos hzero, hzero]
        exact ⟨s, h, CopiedIn.nil⟩
      have hpos := Nat.pos_of_ne_zero hzero
      have hsub : va - va / pgsize * pgsize = va % pgsize := by
        unfold pgsize
        omega
      rw [if_neg hzero, pgrounddown]
      dsimp only
      rw [hsub]
      generalize hn : min (pgsize - va % pgsize) len = n
      have hnpos : 0 < n := by
        unfold pgsize at hn
        omega
      rw [Program.wp_bind]
      apply Program.wp_mono exactly_monotone _ (h.pageAt_exactly (hlow.page hpos))
      rintro pa own' (⟨rfl, hnot, s', hlaid, hview⟩ | ⟨s', page, rfl, hframe, hlaid, hpage, hleaves, hiff, -⟩)
      · rw [if_pos rfl]
        refine ⟨s', hlaid, ?_⟩
        rw [hview]
        exact CopiedIn.fails hpos hnot
      have husable : s.Usable (va / pgsize) (va / pgsize) := hiff.mpr fun hyes => by
        rw [hstore] at hyes
        cases hyes
      rw [if_neg hframe, Program.wp_bind]
      apply Program.wp_mono exactly_monotone _ (hlaid.loadFrom_exactly hpage _ _)
      rintro bytes own'' ⟨rfl, rfl⟩
      rw [Program.wp_bind, UserSpace.next_page (hlaid.userSpace.lt_trapframe hpage), Nat.succ_mul, hleaves.contents,
        ← hleaves.psz]
      apply Program.wp_mono exactly_monotone _ (ih hlaid (hlow.next hleaves.psz hpos hn.symm)
        (hleaves.store.trans hstore) (by omega))
      rintro rest own''' ⟨s'', hlaid'', hcopied⟩
      exact ⟨s'', hlaid'', hcopied.step hn.symm husable hnpos hleaves⟩

theorem copyinstrFrom_exactly {rounds max : Nat} (h : LaidOut ram pool trampoline trapframe root s own)
    (hlow : Low s va max) (hstore : s.store = false) (hrounds : max ≤ rounds) :
    (copyinstrFrom ram root s.psz rounds va max).wp (exactly ram pool) own fun result own' =>
      ∃ s', LaidOut ram pool trampoline trapframe root s' own' ∧ CopiedString s va max result s'.view := by
  induction rounds generalizing va max s own with
  | zero =>
      obtain rfl := Nat.le_zero.mp hrounds
      exact ⟨s, h, CopiedString.fails fun i hi => Nat.not_lt_zero i hi.1⟩
  | succ rounds ih =>
      unfold copyinstrFrom
      by_cases hzero : max = 0
      · rw [if_pos hzero, hzero]
        exact ⟨s, h, CopiedString.fails fun i hi => Nat.not_lt_zero i hi.1⟩
      have hpos := Nat.pos_of_ne_zero hzero
      have hsub : va - va / pgsize * pgsize = va % pgsize := by
        unfold pgsize
        omega
      rw [if_neg hzero, pgrounddown]
      dsimp only
      rw [hsub]
      generalize hn : min (pgsize - va % pgsize) max = n
      have hnpos : 0 < n := by
        unfold pgsize at hn
        omega
      rw [Program.wp_bind]
      apply Program.wp_mono exactly_monotone _ (h.pageAt_exactly (hlow.page hpos))
      rintro pa own' (⟨rfl, hnot, s', hlaid, hview⟩ | ⟨s', page, rfl, hframe, hlaid, hpage, hleaves, hiff, -⟩)
      · rw [if_pos rfl]
        refine ⟨s', hlaid, ?_⟩
        rw [hview]
        exact CopiedString.fails fun i hi => not_reaches hnot i hi.2
      have husable : s.Usable (va / pgsize) (va / pgsize) := hiff.mpr fun hyes => by
        rw [hstore] at hyes
        cases hyes
      have hlength := length_loadBytes (contents s.view (va / pgsize)) (va % pgsize) n
      rw [if_neg hframe, Program.wp_bind]
      apply Program.wp_mono exactly_monotone _ (hlaid.loadUntilNull_exactly hpage _ _)
      rintro bytes own'' ⟨rfl, rfl⟩
      rw [hleaves.contents]
      by_cases hnull : (untilNull (loadBytes (contents s.view (va / pgsize)) (va % pgsize) n)).2 = true
      · obtain ⟨k, hk, hfirst, hbytes, hbefore⟩ := untilNull_of_true hnull
        rw [if_pos hnull, hbytes]
        rw [getElem_loadBytes hn.symm] at hfirst
        refine ⟨s', hlaid, CopiedString.null hn.symm husable (hlength ▸ hk) hleaves hfirst fun i hi => ?_⟩
        rw [← getElem_loadBytes hn.symm (by omega)]
        exact hbefore i hi
      · obtain ⟨hbytes, hall⟩ := untilNull_of_false (Bool.eq_false_iff.mpr hnull)
        rw [if_neg hnull, hbytes, Program.wp_bind, UserSpace.next_page (hlaid.userSpace.lt_trapframe hpage), Nat.succ_mul,
          ← hleaves.psz]
        apply Program.wp_mono exactly_monotone _ (ih hlaid (hlow.next hleaves.psz hpos hn.symm)
          (hleaves.store.trans hstore) (by omega))
        rintro rest own''' ⟨s'', hlaid'', hcopied⟩
        refine ⟨s'', hlaid'', hcopied.step hn.symm husable hnpos hleaves fun i hi => ?_⟩
        rw [← getElem_loadBytes hn.symm (by omega)]
        exact hall _ (List.getElem_mem _)

end LaidOut

/-- What is left is a page table again, with these pages of the process, and the pool is the same.
-/
def Left (ram : Ram) (pool : Nat → Prop) (others : Nat → Index → Word) (trampoline trapframe root : Nat)
    (memory : Memory Index Word) (post : View Index Word Flags → Prop) : Prop :=
  ∃ own tree view, Owns ram pool others memory own ∧
    Layout arch ram (fun _ => False) (kernelPages trampoline trapframe) tree root own view ∧
    view.Within trapframePage ∧ post view

variable {ι : Type} {who : ι} {others junk : Nat → Index → Word} {memory : Memory Index Word} {tree : arch.Tree}
  {view : View Index Word Flags}

theorem ends_left {α : Type} {program : Code Index Word α} {post : α → View Index Word Flags → Prop}
    (howns : Owns ram pool others memory own)
    (hwp : program.wp (exactly ram pool) own fun value own' =>
      ∃ s', LaidOut ram pool trampoline trapframe root s' own' ∧ post value s'.view) :
    program.Ends (access junk) who memory fun value memory' =>
      Left ram pool others trampoline trapframe root memory' (post value) := by
  apply (howns.ends_exactly hwp).mono
  rintro value memory' ⟨own', ⟨s', hlaid, hpost⟩, howns'⟩
  exact ⟨own', s'.tree, s'.view, howns', hlaid.layout, hlaid.within, hpost⟩

/-- **User copies are copies of bytes.** For every page table that is laid out for the pages of a
process, every size, address and length, `copyout` ends and has copied the bytes that it gets to; so
do `copyin` and `copyinstr`, unless they come to an address beyond `MAXVA` that is below the size.
-/
theorem copies_exactly (howns : Owns ram pool others memory own)
    (hlayout : Layout arch ram (fun _ => False) (kernelPages trampoline trapframe) tree root own view)
    (hwithin : view.Within trapframePage) (psz va : Nat) :
    (∀ src, (copyout ram root psz va src).Ends (access junk) who memory fun result memory' =>
      Left ram pool others trampoline trapframe root memory'
        (CopiedOut ⟨psz, true, tree, view, memory.freelist.length⟩ va src result)) ∧
    (∀ len, psz ≤ maxva ∨ va + len ≤ maxva →
      (copyin ram root psz va len).Ends (access junk) who memory fun result memory' =>
        Left ram pool others trampoline trapframe root memory'
          (CopiedIn ⟨psz, false, tree, view, memory.freelist.length⟩ va len result)) ∧
    ∀ max, psz ≤ maxva ∨ va + max ≤ maxva →
      (copyinstr ram root psz va max).Ends (access junk) who memory fun result memory' =>
        Left ram pool others trampoline trapframe root memory'
          (CopiedString ⟨psz, false, tree, view, memory.freelist.length⟩ va max result) := by
  have hlaid : ∀ store, LaidOut ram pool trampoline trapframe root
      ⟨psz, store, tree, view, memory.freelist.length⟩ own :=
    fun store => ⟨hlayout, hwithin, howns.card_spare, fun _ => howns.ram⟩
  refine ⟨fun src => ends_left howns ?_, fun len hlow => ends_left howns ?_, fun max hlow => ends_left howns ?_⟩
  · exact (hlaid true).copyoutFrom_exactly rfl (Nat.le_refl _)
  · exact (hlaid false).copyinFrom_exactly hlow rfl (Nat.le_refl _)
  · exact (hlaid false).copyinstrFrom_exactly hlow rfl (Nat.le_refl _)

end Spec

theorem newProc_layout : ∃ memory pool others own tree,
    Owns smallRam pool others memory own ∧
      Layout arch smallRam (fun _ => False) (kernelPages 50 60) tree 2 own (fun _ => none) := by
  obtain ⟨state, pool, others, own, -, howns, huser⟩ := newProc_space
  obtain ⟨tree, hlayout⟩ := huser.space
  exact ⟨state.1, pool, others, own, tree, howns, hlayout⟩

theorem copies_exactly_newProc : ∃ memory pool others tree,
    (copyinstr smallRam 2 8192 4090 16).Ends (access fun _ _ => 1) () memory fun result memory' =>
      Left smallRam pool others 50 60 2 memory'
        (CopiedString ⟨8192, false, tree, fun _ => none, memory.freelist.length⟩ 4090 16 result) := by
  obtain ⟨memory, pool, others, own, tree, howns, hlayout⟩ := newProc_layout
  have hwithin : View.Within (fun _ => none : View Index Word Flags) trapframePage :=
    fun _ hsome => absurd rfl hsome
  exact ⟨memory, pool, others, tree,
    (copies_exactly howns hlayout hwithin 8192 4090).2.2 16 (Or.inl (by decide))⟩

/-- **`walk` panics** where the size is beyond `MAXVA`, and `copyin` comes to an address there. -/
theorem copyin_beyond_maxva : ∃ memory pool others own tree,
    Owns smallRam pool others memory own ∧
      Layout arch smallRam (fun _ => False) (kernelPages 50 60) tree 2 own (fun _ => none) ∧
      ¬(copyin smallRam 2 0x4000001000 0x4000000000 1).Ends (access fun _ _ => 1) () memory fun result memory' =>
        Left smallRam pool others 50 60 2 memory'
          (CopiedIn ⟨0x4000001000, false, tree, fun _ => none, memory.freelist.length⟩ 0x4000000000 1 result) := by
  obtain ⟨memory, pool, others, own, tree, howns, hlayout⟩ := newProc_layout
  refine ⟨memory, pool, others, own, tree, howns, hlayout, ?_⟩
  rintro ⟨result, memory', hexec, -⟩
  have hstuck : (copyin smallRam 2 0x4000001000 0x4000000000 1).exec (access fun _ _ => 1) () memory = none := rfl
  rw [hstuck] at hexec
  cases hexec

end Xv6.Vm.Riscv64
