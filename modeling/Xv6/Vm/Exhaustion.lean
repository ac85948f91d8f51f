import Xv6.Vm.ArmPi1

/-!
# What the legacy kernel does when memory runs out

`deallocuvm` and `freevm` put every page back on the free list, so growing a process or copying it either
succeeds or takes no page but for page tables. A page for a page table is the exception: where `kalloc`
has none, `allocuvm` does not look at what `mappages` returns, and `copyuvm` forgets a page.
-/

namespace Xv6.Vm.ArmPi1

variable {ram : Ram} {fails : Bool → Prop} {kept : Nat → Prop} {fixed : Nat → Word} {tree : arch.Tree} {pgdir : Nat}
  {own : Owned Index Word} {view : View Index Word Attr} {v : Nat}

theorem walkpgdir_eq (pgdir v : Nat) (alloc : Bool) :
    walkpgdir pgdir (v * pgsize) uvmpdxattr alloc =
      walkFrom arch alloc (arch.upper v) pgdir >>= fun pgtab =>
        pure (pgtab.map fun pgtab => (pgtab, arch.lower v)) := by
  have htable : ∀ pde : Word, arch.isTable pde = true ↔ pde ≠ 0 := fun _ => bne_iff_ne
  have hupper : arch.upper v = [index (pdx (v * pgsize))] := rfl
  have hlower : arch.lower v = index (ptx (v * pgsize)) := rfl
  rw [hupper, hlower, walkpgdir, walkFrom, bind_assoc]
  congr 1
  funext pde
  by_cases hpde : pde ≠ 0
  · rw [if_pos hpde, if_pos ((htable pde).mpr hpde)]
    rfl
  · rw [if_neg hpde, if_neg (mt (htable pde).mp hpde)]
    cases alloc with
    | false => rfl
    | true =>
        rw [if_neg (by decide), if_neg (by decide), bind_assoc]
        congr 1
        funext new
        cases new with
        | none => rfl
        | some new => rfl

theorem wp_walkpgdir_lookup (h : Layout arch ram kept fixed tree pgdir own view) (v : Nat)
    {Q : Option (Nat × Index) → Owned Index Word → Prop}
    (hpost : Q ((tree.node (arch.upper v)).map fun pgtab => (pgtab, arch.lower v)) own) :
    (walkpgdir pgdir (v * pgsize) uvmpdxattr false).wp (rule ram fails) own Q := by
  rw [walkpgdir_eq, Program.wp_bind]
  exact h.wp_walk_lookup v hpost

theorem finds (v : Nat) :
    Finds arch ram fails pgdir v (walkpgdir pgdir (v * pgsize) uvmpdxattr true) := by
  intro kept fixed own view h
  rw [walkpgdir_eq, Program.wp_bind]
  apply Program.wp_mono rule_monotone _ (h.walk_alloc v)
  intro pgtab own' hwalk
  obtain ⟨tree, htree, hfound⟩ := hwalk
  refine ⟨tree, htree, ?_⟩
  cases hfound with
  | inl hnone => exact Or.inl ⟨congrArg _ hnone.1, hnone.2⟩
  | inr hsome =>
      obtain ⟨t, rfl, hnode⟩ := hsome
      exact Or.inr ⟨t, rfl, hnode⟩

theorem mappages_one (pgdir v mem : Nat) (l2attr : Attr) :
    mappages pgdir (v * pgsize) pgsize mem uvmpdxattr l2attr =
      mapFrom arch (walkpgdir pgdir · uvmpdxattr true) (· != 0) "remap" l2attr 1 (v * pgsize) mem := by
  have hlast : pgrounddown (v * pgsize + pgsize - 1) = v * pgsize := by
    unfold pgrounddown pgsize
    omega
  unfold mappages
  dsimp only
  rw [pgrounddown_mul, hlast, Nat.sub_self, Nat.zero_div]

theorem deallocFrom_spec {oldsz rounds : Nat} (h : Space arch ram kept (fun _ => 0) pgdir own view)
    (hbound : pages oldsz ≤ arch.limit) (hrounds : pages oldsz ≤ v + rounds)
    (hholes : ∀ w w', v ≤ w → w ≤ w' → w' < pages oldsz → view w = none → view w' = none) :
    (deallocFrom ram pgdir oldsz rounds (v * pgsize)).wp (rule ram fails) own fun _ own' =>
      Space arch ram kept (fun _ => 0) pgdir own' (view.drop v (pages oldsz)) := by
  induction rounds generalizing v own view with
  | zero =>
      rw [View.drop_eq_self fun w hlow hhigh => by omega]
      exact h
  | succ rounds ih =>
      unfold deallocFrom
      by_cases hv : v * pgsize < oldsz
      · rw [if_pos hv]
        have hlt : v < pages oldsz := lt_pages_iff.mpr hv
        obtain ⟨tree, htree⟩ := h
        rw [Program.wp_bind]
        apply wp_walkpgdir_lookup htree
        cases hnode : tree.node (arch.upper v) with
        | none =>
            -- No page from here on is mapped, so it is safe to go on four tables later.
            have hhole := htree.hole_of_table_eq_none hnode
            have hnext : v * pgsize + (nptentries - 1) * pgsize + pgsize = (v + nptentries) * pgsize := by
              unfold nptentries pgsize
              omega
            have hall : ∀ w, v ≤ w → w < pages oldsz → view w = none := fun w hw hlt' =>
              hholes v w (Nat.le_refl v) hw hlt' hhole
            have hdrop : view.drop v (pages oldsz) = view.drop (v + nptentries) (pages oldsz) := by
              rw [View.drop_eq_self hall, View.drop_eq_self fun w hw => hall w (by omega)]
            simp only [Option.map_none, Option.elim_none]
            rw [hnext, hdrop]
            apply ih ⟨tree, htree⟩
            · unfold nptentries
              omega
            · intro w w' hw
              exact hholes w w' (by omega)
        | some t =>
            have hnext : v * pgsize + pgsize = (v + 1) * pgsize := (Nat.succ_mul v pgsize).symm
            obtain ⟨hwords, hleaf⟩ := htree.slot hnode
            simp only [Option.map_some, Option.elim_some, Program.wp_bind, wp_read]
            refine ⟨_, hwords, ?_⟩
            rw [hleaf, hnext]
            cases hview : view v with
            | none =>
                rw [htree.hole (by omega) hview, Program.wp_when]
                refine ⟨fun hne => absurd rfl hne, fun _ => ?_⟩
                rw [← View.drop_succ_of_hole hview hlt]
                apply ih ⟨tree, htree⟩ (by omega)
                intro w w' hw
                exact hholes w w' (by omega)
            | some page =>
                obtain ⟨hframe, hmem, hmaps⟩ := htree.page hview
                have hram := htree.ram hmem
                have hne : tree.leaf (arch.path v) ≠ 0 := bne_iff_ne.mp hmaps.isMapped
                have haddr : pteAddr (tree.leaf (arch.path v)) = page.frame := hmaps.page
                rw [Program.wp_when]
                refine ⟨fun _ => ?_, fun hzero => absurd hne hzero⟩
                rw [haddr, Program.wp_bind, wp_panicIf]
                refine ⟨?_, ?_⟩
                · exact Nat.ne_of_gt (Nat.lt_of_lt_of_le ram.first_pos hram.1)
                · apply Program.wp_mono rule_monotone _ (htree.wp_clear hview hnode rfl)
                  intro _ own' hspace
                  rw [← View.drop_update hlt]
                  apply ih hspace (by omega)
                  intro w w' hw hle hlt' hnone
                  rw [Function.update_of_ne (by omega)] at hnone ⊢
                  exact hholes w w' (by omega) hle hlt' hnone
      · rw [if_neg hv, View.drop_eq_self fun w hlow hhigh => ?_]
        · exact h
        · have hlt := mt lt_pages_iff.mp hv
          omega

theorem deallocuvm_spec {oldsz newsz : Nat} (h : Space arch ram kept (fun _ => 0) pgdir own view)
    (hbound : pages oldsz ≤ arch.limit)
    (hholes : ∀ w w', pages newsz ≤ w → w ≤ w' → w' < pages oldsz → view w = none → view w' = none) :
    (deallocuvm ram pgdir oldsz newsz).wp (rule ram fails) own fun _ own' =>
      Space arch ram kept (fun _ => 0) pgdir own' (view.drop (pages newsz) (pages oldsz)) := by
  unfold deallocuvm
  by_cases hge : newsz ≥ oldsz
  · have hle : pages oldsz ≤ pages newsz := by
      unfold pages pgsize
      omega
    rw [if_pos hge, View.drop_eq_self fun w hlow hhigh => by omega]
    exact h
  · rw [if_neg hge, Program.wp_bind]
    exact deallocFrom_spec h hbound (Nat.le_add_left _ _) hholes

/-! ### Freeing a page table -/

theorem index_injective {i j : Nat} (hi : i < npdentries) (hj : j < npdentries)
    (h : index i = index j) : i = j := by
  have hmod : i % 1024 = j % 1024 := congrArg Fin.val h
  unfold npdentries at hi hj
  omega

noncomputable def left (own : Owned Index Word) (tree : arch.Tree) (i : Nat) : Owned Index Word :=
  own.only fun p => ∀ j < i, tree.node [index j] ≠ some p

section Left

variable (h : Layout arch ram kept fixed tree pgdir own view)
include h

theorem left_pgdir (i : Nat) : left own tree i pgdir = some (tree.entry []) := by
  have hother : ∀ j < i, tree.node [index j] ≠ some pgdir := by
    intro j _ hnode
    cases tree.injective hnode h.root
  exact (Heap.only_of_pos hother).trans (h.holds.table h.root (by decide))

omit h in
theorem left_succ_of_none {i : Nat} (hnode : tree.node [index i] = none) :
    left own tree (i + 1) = left own tree i := by
  unfold left
  congr 1
  funext p
  apply propext
  refine ⟨fun hall j hj => hall j (Nat.lt_succ_of_lt hj), fun hall j hj => ?_⟩
  rcases Nat.lt_succ_iff_lt_or_eq.mp hj with hlt | rfl
  · exact hall j hlt
  · rw [hnode]
    exact (Option.some_ne_none p).symm

theorem left_table {i p : Nat} (hi : i < npdentries) (hnode : tree.node [index i] = some p) :
    ∃ words, left own tree i p = some words := by
  have hother : ∀ j < i, tree.node [index j] ≠ some p := by
    intro j hj hnode'
    have heq := List.head_eq_of_cons_eq (tree.injective hnode' hnode)
    exact absurd (index_injective (hj.trans hi) hi heq) (Nat.ne_of_lt hj)
  obtain ⟨words, hwords⟩ := h.holds.page hnode
  exact ⟨words, (Heap.only_of_pos hother).trans hwords⟩

omit h in
theorem left_succ_of_some {i p : Nat} (hnode : tree.node [index i] = some p) :
    left own tree (i + 1) = (left own tree i).erase p := by
  funext q
  by_cases hq : q = p
  · subst hq
    rw [Heap.erase_self]
    exact Heap.only_of_neg fun hall => hall i (Nat.lt_succ_self i) hnode
  · rw [Heap.erase_of_ne hq]
    by_cases hall : ∀ j < i, tree.node [index j] ≠ some q
    · have hall' : ∀ j < i + 1, tree.node [index j] ≠ some q := by
        intro j hj
        rcases Nat.lt_succ_iff_lt_or_eq.mp hj with hlt | rfl
        · exact hall j hlt
        · rw [hnode]
          exact fun heq => hq (Option.some.inj heq).symm
      exact (Heap.only_of_pos hall').trans (Heap.only_of_pos hall).symm
    · have hall' : ¬∀ j < i + 1, tree.node [index j] ≠ some q := fun hsucc =>
        hall fun j hj => hsucc j (Nat.lt_succ_of_lt hj)
      exact (Heap.only_of_neg hall').trans (Heap.only_of_neg hall).symm

theorem left_erase (hempty : ∀ v, view v = none) :
    (left own tree npdentries).erase pgdir = Heap.empty := by
  funext q
  by_cases hq : q = pgdir
  · rw [hq, Heap.erase_self]
    rfl
  · rw [Heap.erase_of_ne hq, Heap.empty_apply]
    cases hown : own q with
    | none =>
        unfold left Heap.only
        rw [hown, ite_self]
    | some words =>
        apply Heap.only_of_neg
        intro hall
        obtain ⟨path, hnode⟩ := h.holds.node hown
        have hlength : path.length ≤ 2 := tree.length_le hnode
        cases path with
        | nil => exact hq (Option.some.inj (hnode.symm.trans h.root))
        | cons i rest =>
            cases rest with
            | nil =>
                have hi : index i.val = i := Fin.ext (Nat.mod_eq_of_lt i.isLt)
                apply hall i.val i.isLt
                rw [hi, hnode]
            | cons j rest =>
                have hfull : (i :: j :: rest).length = arch.depth := by
                  apply Nat.le_antisymm hlength
                  exact Nat.le_add_left 2 rest.length
                obtain ⟨v, page, hpage, -⟩ := h.mapped hfull hnode
                rw [hempty v] at hpage
                cases hpage

end Left

theorem freeTables_spec (h : Layout arch ram kept fixed tree pgdir own view) {count i : Nat}
    (hcount : i + count = npdentries) :
    (freeTables ram pgdir count i).wp (rule ram fails) (left own tree i) fun _ own' =>
      own' = left own tree npdentries := by
  induction count generalizing i with
  | zero => exact congrArg (left own tree) hcount
  | succ count ih =>
      have hi : i < npdentries := by omega
      have hentry : tree.entry [] (index i) = (tree.node [index i]).elim 0 arch.table :=
        entry_above (by decide) (index i)
      rw [freeTables, Program.wp_bind, wp_read]
      refine ⟨_, left_pgdir h i, ?_⟩
      rw [hentry, Program.wp_bind, Program.wp_when]
      cases hnode : tree.node [index i] with
      | none =>
          refine ⟨fun hne => absurd rfl hne, fun _ => ?_⟩
          rw [← left_succ_of_none hnode]
          exact ih (by omega)
      | some p =>
          have hram := h.ram_of_node hnode
          have haddr : pteAddr (arch.table p) = p := arch.page_table p hram.lt
          refine ⟨fun _ => ?_, fun hzero => absurd ?_ hzero⟩
          · rw [Option.elim_some, haddr, wp_kfree hram]
            refine ⟨left_table h hi hnode, ?_⟩
            rw [← left_succ_of_some hnode]
            exact ih (by omega)
          · exact bne_iff_ne.mp (arch.isTable_table p hram.lt)

theorem freevm_spec (h : Space arch ram kept (fun _ => 0) pgdir own view)
    (hholes : ∀ w w', w ≤ w' → view w = none → view w' = none) :
    (freevm ram pgdir).wp (rule ram fails) own fun _ own' => own' = Heap.empty := by
  have hpages : pages userbound = arch.limit := by decide
  have hzero : pages 0 = 0 := by decide
  have hdealloc := @deallocuvm_spec _ fails _ _ _ _ _ 0 h (Nat.le_of_eq hpages)
    fun w w' (_ : pages 0 ≤ w) hle _ => hholes w w' hle
  rw [freevm, Program.wp_bind]
  apply Program.wp_mono rule_monotone _ hdealloc
  intro _ own' hspace
  rw [hzero, hpages] at hspace
  have hempty : ∀ v, view.drop 0 arch.limit v = none := by
    intro v
    by_contra hsome
    obtain ⟨page, hpage⟩ := Option.ne_none_iff_exists'.mp hsome
    have hlt := hspace.lt hpage
    rw [View.drop_of_mem ⟨Nat.zero_le v, hlt⟩] at hpage
    cases hpage
  obtain ⟨tree, htree⟩ := hspace
  have hstart : left own' tree 0 = own' := by
    funext p
    exact Heap.only_of_pos fun j hj => absurd hj (Nat.not_lt_zero j)
  have htables : (freeTables ram pgdir npdentries 0).wp (rule ram fails) (left own' tree 0) fun _ own' => _ :=
    freeTables_spec htree (Nat.zero_add npdentries)
  rw [hstart] at htables
  rw [Program.wp_bind]
  apply Program.wp_mono rule_monotone _ htables
  rintro _ _ rfl
  rw [wp_kfree (htree.ram_of_node htree.root)]
  exact ⟨⟨_, left_pgdir htree npdentries⟩, left_erase htree hempty⟩

/-! ### Growing -/

theorem mappages_spec {mem : Nat} {words : Index → Word} (h : Space arch ram kept (fun _ => 0) pgdir own view)
    (hv : v < arch.limit) (hnone : view v = none) (hmem : own mem = none) (hram : ram.Has mem)
    (attr : Attr) :
    (mappages pgdir (v * pgsize) pgsize mem uvmpdxattr attr).wp (rule ram (· = false)) (own.set mem words)
      fun result own' => result = 0 ∧
        Space arch ram kept (fun _ => 0) pgdir own' (Function.update view v (some ⟨mem, attr, words⟩)) := by
  rw [mappages_one]
  apply Program.wp_mono rule_monotone _
    (mapFrom_one (finds v) rfl h hv hnone rfl hmem hram attr)
  intro result own' hresult
  cases hresult with
  | inl hmapped => exact hmapped
  | inr hstarved => exact Bool.noConfusion hstarved.2.1

/-- A page as `allocuvm` maps it. -/
def Zeroed (page : Page Index Word Attr) : Prop := page.flags = uvmptxattr ∧ page.words = fun _ => 0

theorem allocFrom_spec {view₀ : View Index Word Attr} {oldsz newsz count : Nat}
    (h : Space arch ram kept (fun _ => 0) pgdir own view) (hbound : newsz < userbound)
    (hcount : v + count = pages newsz) (hle : pages oldsz ≤ v)
    (hfills : View.Fills Zeroed (pages oldsz) v view₀ view)
    (hholes : ∀ w, pages oldsz ≤ w → w < pages newsz → view₀ w = none) :
    (allocFrom ram pgdir oldsz newsz count (v * pgsize)).wp (rule ram (· = false)) own fun result own' =>
      (result = newsz ∧ ∃ view', Space arch ram kept (fun _ => 0) pgdir own' view' ∧
        View.Fills Zeroed (pages oldsz) (pages newsz) view₀ view') ∨
      (result = 0 ∧ Space arch ram kept (fun _ => 0) pgdir own' view₀) := by
  have hlimit : pages newsz ≤ arch.limit := by
    have hbound' : pages newsz ≤ pages userbound := by
      unfold pages
      apply Nat.div_le_div_right
      omega
    exact hbound'
  induction count generalizing v own view with
  | zero =>
      obtain rfl : v = pages newsz := hcount
      exact Or.inl ⟨rfl, view, h, hfills⟩
  | succ count ih =>
      have hlt : v < pages newsz := by omega
      have hholes' : ∀ w, v ≤ w → w < pages newsz → view w = none := by
        intro w hw hw'
        rw [(hfills w).2 (by omega)]
        exact hholes w (by omega) hw'
      rw [allocFrom, Program.wp_bind, wp_kalloc]
      refine ⟨fun _ => ?_, fun mem words hram hnone => ?_⟩
      · have hdrop : view.drop (pages oldsz) (pages newsz) = view₀ := by
          rw [View.drop_of_hole (Nat.le_of_lt hlt) hholes']
          exact hfills.drop_eq fun w hlow hhigh => hholes w hlow (by omega)
        have hundo := @deallocuvm_spec _ (· = false) _ _ _ _ _ _ h hlimit fun w w' hlow hw hw' hhole => by
          by_cases hin : w < v
          · obtain ⟨page, hpage, -⟩ := (hfills w).1 ⟨hlow, hin⟩
            rw [hhole] at hpage
            cases hpage
          · exact hholes' w' (by omega) hw'
        rw [Option.elim_none, Program.wp_bind]
        apply Program.wp_mono rule_monotone _ hundo
        intro _ own' hspace
        rw [hdrop] at hspace
        exact Or.inr ⟨rfl, hspace⟩
      · rw [Option.elim_some, Program.wp_bind, wp_fill]
        refine ⟨words, Heap.set_self, ?_⟩
        rw [Heap.set_set, Program.wp_bind]
        apply Program.wp_mono rule_monotone _
          (mappages_spec h (by omega) (hholes' v (Nat.le_refl v) hlt) hnone hram uvmptxattr)
        intro _ own' hmapped
        rw [← Nat.succ_mul]
        exact ih hmapped.2 (by omega) (by omega) (hfills.succ hle ⟨rfl, rfl⟩)

theorem allocuvm_spec {oldsz newsz : Nat} (h : Space arch ram kept (fun _ => 0) pgdir own view)
    (hholes : ∀ w, pages oldsz ≤ w → w < pages newsz → view w = none) :
    (allocuvm ram pgdir oldsz newsz).wp (rule ram (· = false)) own fun result own' =>
      (result = newsz ∧ oldsz ≤ newsz ∧ newsz < userbound ∧
        ∃ view', Space arch ram kept (fun _ => 0) pgdir own' view' ∧
          View.Fills Zeroed (pages oldsz) (pages newsz) view view') ∨
      (result = oldsz ∧ newsz < oldsz ∧ own' = own) ∨
      (result = 0 ∧ Space arch ram kept (fun _ => 0) pgdir own' view) := by
  unfold allocuvm
  by_cases hbound : newsz ≥ userbound
  · rw [if_pos hbound]
    exact Or.inr (Or.inr ⟨rfl, h⟩)
  rw [if_neg hbound]
  by_cases hshrink : newsz < oldsz
  · rw [if_pos hshrink]
    exact Or.inr (Or.inl ⟨rfl, hshrink, rfl⟩)
  rw [if_neg hshrink]
  have hle : pages oldsz ≤ pages newsz := by
    unfold pages
    apply Nat.div_le_div_right
    omega
  apply Program.wp_mono rule_monotone _ (allocFrom_spec h (Nat.not_le.mp hbound)
    (Nat.add_sub_of_le hle) (Nat.le_refl _) View.Fills.refl hholes)
  intro result own' hresult
  cases hresult with
  | inl hgrown => exact Or.inl ⟨hgrown.1, Nat.not_lt.mp hshrink, Nat.not_le.mp hbound, hgrown.2⟩
  | inr hfailed => exact Or.inr (Or.inr hfailed)

/-! ### Copying -/

section Copy

variable {d : Nat} {child : Owned Index Word} {copied : View Index Word Attr}

theorem freevm_child (hd : Space arch ram (fun _ => False) (fun _ => 0) d child copied) (hdisjoint : own.Disjoint child)
    (hcopies : View.Copies arch v view copied) (hmapped : ∀ w < v, view w ≠ none) :
    (freevm ram d).wp (rule ram fails) (own.union child) fun _ own' => own' = own := by
  have hclosed : ∀ w w', w ≤ w' → copied w = none → copied w' = none := by
    intro w w' hle hhole
    apply (hcopies w').2
    by_contra hlt
    have hw : w < v := by omega
    exact hmapped w hw ((hcopies.eq_none_iff hw).mp hhole)
  rw [hdisjoint.union_comm]
  apply Program.wp_mono rule_monotone _ (Program.wp_frame rule_monotone rule_local hdisjoint.symm
    (freevm_spec hd hclosed))
  intro _ own' hframe
  obtain ⟨child', rfl, -, rfl⟩ := hframe
  exact Heap.empty_union

theorem lookup_parent {page : Page Index Word Attr} (h : Layout arch ram kept fixed tree pgdir own view)
    (hdisjoint : own.Disjoint child) (hpage : view v = some page) :
    (walkpgdir pgdir (v * pgsize) uvmpdxattr false).wp (rule ram fails) (own.union child)
      fun pte own' => own' = own.union child ∧ ∃ t words, pte = some (t, arch.lower v) ∧
        own t = some words ∧ arch.Maps (words (arch.lower v)) page.frame page.flags := by
  obtain ⟨hframe, -, hmaps⟩ := h.page hpage
  obtain ⟨t, hnode⟩ := tree.node_of_append hframe
  obtain ⟨hwords, hleaf⟩ := h.slot hnode
  have hlookup : (walkpgdir pgdir (v * pgsize) uvmpdxattr false).wp (rule ram fails) own
      fun pte own' => own' = own ∧ pte = some (t, arch.lower v) := by
    apply wp_walkpgdir_lookup h
    rw [hnode]
    exact ⟨rfl, rfl⟩
  apply Program.wp_mono rule_monotone _
    (Program.wp_frame rule_monotone rule_local hdisjoint hlookup)
  intro pte own' hfound
  obtain ⟨_, rfl, -, rfl, rfl⟩ := hfound
  refine ⟨rfl, t, _, rfl, hwords, ?_⟩
  rw [hleaf]
  exact hmaps

theorem copyFrom_spec {count bound : Nat} (h : Space arch ram kept (fun _ => 0) pgdir own view)
    (hmapped : ∀ w < bound, view w ≠ none) (hd : Space arch ram (fun _ => False) (fun _ => 0) d child copied)
    (hdisjoint : own.Disjoint child) (hcopies : View.Copies arch v view copied) (hcount : v + count = bound) :
    (copyFrom ram pgdir d count (v * pgsize)).wp (rule ram (· = false)) (own.union child) fun result own' =>
      (result = none ∧ own' = own) ∨ ∃ child' copied', result = some d ∧ own' = own.union child' ∧
        own.Disjoint child' ∧ Space arch ram (fun _ => False) (fun _ => 0) d child' copied' ∧
        View.Copies arch bound view copied' := by
  induction count generalizing v child copied with
  | zero =>
      obtain rfl : v = bound := hcount
      exact Or.inr ⟨child, copied, rfl, rfl, hdisjoint, hd, hcopies⟩
  | succ count ih =>
      obtain ⟨tree, htree⟩ := h
      obtain ⟨page, hpage⟩ := Option.ne_none_iff_exists'.mp (hmapped v (by omega))
      have hlt := htree.lt hpage
      obtain ⟨-, hpageWords, -⟩ := htree.page hpage
      rw [copyFrom, Program.wp_bind]
      apply Program.wp_mono rule_monotone _ (lookup_parent htree hdisjoint hpage)
      intro pte own' hfound
      obtain ⟨rfl, t, words, rfl, hwords, hmaps⟩ := hfound
      have hne : words (arch.lower v) ≠ 0 := bne_iff_ne.mp hmaps.isMapped
      have haddr : pteAddr (words (arch.lower v)) = page.frame := hmaps.page
      have hflags : pteFlags (words (arch.lower v)) = page.flags := hmaps.flags
      rw [Option.elim_some, Program.wp_bind, wp_read]
      refine ⟨words, Heap.union_eq_some_left hwords, ?_⟩
      rw [Program.wp_bind, wp_panicIf]
      refine ⟨hne, ?_⟩
      rw [Program.wp_bind, wp_kalloc, haddr, hflags]
      refine ⟨fun _ => ?_, fun mem junk hram hnone => ?_⟩
      · rw [Option.elim_none, Program.wp_bind]
        apply Program.wp_mono rule_monotone _ (freevm_child hd hdisjoint hcopies
          fun w hw => hmapped w (by omega))
        intro _ own' hown
        exact Or.inl ⟨rfl, hown⟩
      · obtain ⟨hmem, hmem'⟩ := Heap.union_eq_none.mp hnone
        have hframe : page.frame ≠ mem := by
          intro heq
          rw [heq, hmem] at hpageWords
          cases hpageWords
        rw [Option.elim_some, Program.wp_bind, wp_copy]
        refine ⟨⟨junk, Heap.set_self⟩, page.words, ?_, ?_⟩
        · rw [Heap.set_of_ne hframe]
          exact Heap.union_eq_some_left hpageWords
        · rw [Heap.set_set, hdisjoint.union_comm, ← Heap.set_union, Program.wp_bind]
          apply Program.wp_mono rule_monotone _ (Program.wp_frame rule_monotone rule_local
            (hdisjoint.symm.set hmem) (mappages_spec hd hlt ((hcopies v).2 (Nat.le_refl v)) hmem' hram
              page.flags))
          intro result own' hmapped'
          obtain ⟨child', rfl, hdisjoint', rfl, hspace⟩ := hmapped'
          rw [if_neg (by decide), ← hdisjoint'.symm.union_comm, ← Nat.succ_mul]
          exact ih hspace hdisjoint'.symm (hcopies.succ hpage) (by omega)

theorem copyuvm_spec {sz : Nat} (h : Space arch ram kept (fun _ => 0) pgdir own view)
    (hmapped : ∀ w < pages sz, view w ≠ none) :
    (copyuvm ram pgdir sz).wp (rule ram (· = false)) own fun result own' =>
      (result = none ∧ own' = own) ∨ ∃ d child copied, result = some d ∧ own' = own.union child ∧
        own.Disjoint child ∧ Space arch ram (fun _ => False) (fun _ => 0) d child copied ∧
        View.Copies arch (pages sz) view copied := by
  rw [copyuvm, Program.wp_bind, setupkvm, Program.wp_bind, wp_kalloc]
  refine ⟨fun _ => Or.inl ⟨rfl, rfl⟩, fun d words hram hnone => ?_⟩
  rw [Option.elim_some, Program.wp_bind, wp_fill]
  refine ⟨words, Heap.set_self, ?_⟩
  have hcopy := copyFrom_spec h hmapped (Space.create hram) (Heap.disjoint_single hnone)
    View.Copies.zero (Nat.zero_add _)
  rw [Heap.set_set, Heap.set_eq_union hnone, Program.wp_pure, Option.elim_some]
  rw [Nat.zero_mul] at hcopy
  apply Program.wp_mono rule_monotone _ hcopy
  intro result own' hresult
  cases hresult with
  | inl hfailed => exact Or.inl hfailed
  | inr hcopied =>
      obtain ⟨child, copied, rfl, hrest⟩ := hcopied
      exact Or.inr ⟨d, child, copied, rfl, hrest⟩

end Copy

/-! ### Memory -/

section Memory

variable {ι : Type} {pool : Nat → Prop} {others junk : Nat → Index → Word} {who : ι}
  {memory : Memory Index Word}

/-- **No page is lost when memory runs out**, unless it is a page for a page table that is missing. The
process is grown or copied, or keeps the pages it had. What is not free then is its own. -/
theorem exhaustion {sz : Nat} (howns : Owns ram pool others memory own)
    (h : Space arch ram kept (fun _ => 0) pgdir own view) (hmapped : ∀ v < pages sz, view v ≠ none) :
    (∀ newsz, (∀ v, pages sz ≤ v → v < pages newsz → view v = none) →
      (allocuvm ram pgdir sz newsz).Meets (access junk) who (Spares (· = false)) memory →
      (allocuvm ram pgdir sz newsz).Ends (access junk) who memory fun result memory' => ∃ own',
        Owns ram pool others memory' own' ∧
          ((result = newsz ∧ sz ≤ newsz ∧ newsz < userbound ∧ ∃ view',
              Space arch ram (fun _ => False) (fun _ => 0) pgdir own' view' ∧ (∀ v < pages newsz, view' v ≠ none) ∧
              View.Fills Zeroed (pages sz) (pages newsz) view view') ∨
            (result = sz ∧ newsz < sz ∧ own' = own) ∨
            (result = 0 ∧ ∃ tree, Layout arch ram (fun _ => False) (fun _ => 0) tree pgdir own' view ∧
              FreeButTables tree memory memory'))) ∧
    ((copyuvm ram pgdir sz).Meets (access junk) who (Spares (· = false)) memory →
      (copyuvm ram pgdir sz).Ends (access junk) who memory fun result memory' =>
        (result = none ∧ Owns ram pool others memory' own ∧
          ∀ p, p ∈ memory'.freelist ↔ p ∈ memory.freelist) ∨
        ∃ d child copied, result = some d ∧ Owns ram pool others memory' (own.union child) ∧
          own.Disjoint child ∧ Space arch ram (fun _ => False) (fun _ => 0) d child copied ∧
          View.Copies arch (pages sz) view copied) := by
  refine ⟨fun newsz hholes hmeets => ?_, fun hmeets => ?_⟩
  · obtain ⟨tree, htree⟩ := h
    apply Program.Ends.mono (howns.ends hmeets (allocuvm_spec htree.keep hholes))
    intro result memory' hresult
    obtain ⟨own', hcases, howns'⟩ := hresult
    refine ⟨own', howns', ?_⟩
    rcases hcases with ⟨hnewsz, hle, hlt, view', hspace, hfills⟩ | hsame | ⟨hzero, tree', htree'⟩
    · refine Or.inl ⟨hnewsz, hle, hlt, view', hspace.forget, fun v hv => ?_, hfills⟩
      by_cases hin : pages sz ≤ v
      · obtain ⟨page, hpage, -⟩ := (hfills v).1 ⟨hin, hv⟩
        rw [hpage]
        exact Option.some_ne_none page
      · rw [(hfills v).2 fun hin' => hin hin'.1]
        exact hmapped v (Nat.not_le.mp hin)
    · exact Or.inr (Or.inl hsame)
    · exact Or.inr (Or.inr ⟨hzero, tree', htree'.forget, htree.freeButTables htree' howns howns'⟩)
  · apply Program.Ends.mono (howns.ends hmeets (copyuvm_spec h hmapped))
    intro result memory' hresult
    obtain ⟨own', hcases, howns'⟩ := hresult
    rcases hcases with ⟨hnone, rfl⟩ | ⟨d, child, copied, hd, rfl, hrest⟩
    · refine Or.inl ⟨hnone, howns', fun p => ?_⟩
      rw [howns'.mem_freelist, howns.mem_freelist]
    · exact Or.inr ⟨d, child, copied, hd, howns', hrest⟩

/-! An empty page directory, and three free pages. -/

def smallMemory : Vm.Memory Index Word := ⟨fun _ _ => 0, [3, 4, 5]⟩

theorem smallMemory_owns :
    Owns smallRam (fun p => p = 2 ∨ p ∈ smallMemory.freelist) smallMemory.words smallMemory
      (Heap.single 2 fun _ => 0) := by
  apply Owns.single
  · decide
  · decide
  · intro p hp
    change 2 ≤ p ∧ p < 6
    simp only [smallMemory, List.mem_cons, List.not_mem_nil, or_false] at hp
    omega

theorem smallMemory_space :
    Space arch smallRam (fun _ => False) (fun _ => 0) 2 (Heap.single 2 fun _ => 0) (fun _ => none) :=
  Space.create ⟨Nat.le_refl 2, Nat.lt_add_of_pos_right (Nat.succ_pos 3)⟩

theorem exhaustion_smallMemory :
    (allocuvm smallRam 2 0 12288).Ends (access fun _ _ => 1) () smallMemory (fun _ memory' =>
      ∃ own', Owns smallRam (fun p => p = 2 ∨ p ∈ smallMemory.freelist) smallMemory.words memory' own') ∧
    (copyuvm smallRam 2 0).Ends (access fun _ _ => 1) () smallMemory (fun _ memory' =>
      ∃ own', Owns smallRam (fun p => p = 2 ∨ p ∈ smallMemory.freelist) smallMemory.words memory'
        own') := by
  have hmapped : ∀ v < pages 0, (none : Option (Page Index Word Attr)) ≠ none := by
    intro v hv
    exact absurd (lt_pages_iff.mp hv) (Nat.not_lt_zero _)
  have h := @exhaustion smallRam _ 2 _ _ Unit _ _ (fun _ _ => 1) () smallMemory 0
    smallMemory_owns smallMemory_space hmapped
  refine ⟨(h.1 12288 (fun _ _ _ => rfl) (by decide +kernel)).mono fun _ _ hgrown => ?_,
    (h.2 (by decide +kernel)).mono fun _ _ hcopied => ?_⟩
  · obtain ⟨own', howns, -⟩ := hgrown
    exact ⟨own', howns⟩
  · rcases hcopied with ⟨-, howns, -⟩ | ⟨_, _, _, -, howns, -⟩
    · exact ⟨_, howns⟩
    · exact ⟨_, howns⟩

/-- The page for a page table is not given back. -/
theorem allocuvm_keeps_table :
    Owns smallRam (fun p => p = 2 ∨ p ∈ smallMemory.freelist) smallMemory.words smallMemory
      (Heap.single 2 fun _ => 0) ∧
    Space arch smallRam (fun _ => False) (fun _ => 0) 2 (Heap.single 2 fun _ => 0) (fun _ => none) ∧
    ((allocuvm smallRam 2 0 12288).exec (access fun _ _ => 1) () smallMemory).map
      (fun ends => (ends.1, ends.2.freelist)) = some (0, [5, 3]) :=
  ⟨smallMemory_owns, smallMemory_space, by decide +kernel⟩

end Memory

end Xv6.Vm.ArmPi1
