import Xv6.Vm.FreeWalk
import Xv6.Vm.Mapping

/-!
# Address spaces

Growing, shrinking and copying the memory of a process, as the arm64 and the riscv64 kernel do it. They
differ in `mappages`, in `uvmunmap` and in what they make of a page that is not mapped.
-/

namespace Xv6.Vm

/-- Return the PTE in page table `pagetable` that corresponds to virtual address `va`: its table and its
index there. If `alloc`, create any required page-table pages. -/
def walk {I W P : Type} [DecidableEq I] (arch : Arch I W P) (maxva : Nat) (alloc : Bool)
    (pagetable va : Nat) : Code I W (Option (Nat × I)) := do
  panicIf (va ≥ maxva) "walk"
  let table ← walkFrom arch alloc (arch.upper (va / pgsize)) pagetable
  pure (table.map fun table => (table, arch.lower (va / pgsize)))

section Walks

variable {I W P : Type} [DecidableEq I] {arch : Arch I W P} {maxva : Nat} {ram : Ram}
  {fails : Bool → Prop} {kept : Nat → Prop} {fixed : Nat → W} {tree : arch.Tree} {root : Nat} {own : Owned I W}
  {view : View I W P} {v : Nat}

theorem walk_finds (hva : v * pgsize < maxva) :
    Finds arch ram fails root v (walk arch maxva true root (v * pgsize)) := by
  intro kept fixed own view h
  rw [walk, Program.wp_bind, wp_panicIf, mul_div_pgsize, Program.wp_bind]
  refine ⟨Nat.not_le.mpr hva, ?_⟩
  apply Program.wp_mono rule_monotone _ (h.walk_alloc v)
  intro table own' hwalk
  obtain ⟨tree, htree, hfound⟩ := hwalk
  refine ⟨tree, htree, ?_⟩
  cases hfound with
  | inl hnone => exact Or.inl ⟨congrArg _ hnone.1, hnone.2⟩
  | inr hsome =>
      obtain ⟨t, rfl, hnode⟩ := hsome
      exact Or.inr ⟨t, rfl, hnode⟩

theorem Layout.wp_walk (h : Layout arch ram kept fixed tree root own view) (hva : v * pgsize < maxva)
    {Q : Option (Nat × I) → Owned I W → Prop}
    (hpost : Q ((tree.node (arch.upper v)).map fun table => (table, arch.lower v)) own) :
    (walk arch maxva false root (v * pgsize)).wp (rule ram fails) own Q := by
  rw [walk, Program.wp_bind, wp_panicIf, mul_div_pgsize, Program.wp_bind]
  exact ⟨Nat.not_le.mpr hva, h.wp_walk_lookup v hpost⟩

end Walks

/-! ### The kernels -/

/-- What the rest of `vm.c` uses of the functions that the kernels write differently, and what these do:
`mappages` maps a page, and `uvmunmap` unmaps a range. -/
structure Port (I W P : Type) [DecidableEq I] (ram : Ram) where
  arch : Arch I W P
  /-- `MAXVA`, one beyond the highest possible virtual address. -/
  maxva : Nat
  /-- How many pages are below `MAXVA`. -/
  limit : Nat
  /-- The entry is that of a page, as `uvmcopy` tests it. -/
  present : W → Bool
  mappages : (pagetable va size pa : Nat) → P → Code I W Int
  uvmunmap : (pagetable va npages : Nat) → (doFree : Bool) → Code I W Unit
  /-- What `uvmcopy` does about a page that is not mapped. -/
  hole : String → Code I W Unit
  /-- `freewalk` takes the entry for that of a table. -/
  isChild : W → Bool
  /-- What `freewalk` does with another entry. -/
  other : W → Code I W Unit
  /-- The entries of a table. -/
  indices : List I
  /-- Does `uvmunmap` put up with pages that are not mapped? -/
  lenient : Prop
  limit_le_arch : limit ≤ arch.limit
  limit_le : limit * pgsize ≤ maxva
  full : arch.Full
  mem_indices : ∀ i, i ∈ indices
  nodup : indices.Nodup
  present_zero : present arch.zero = false
  present_of_maps : ∀ {word p flags}, arch.Maps word p flags → present word = true
  mappages_page : ∀ {fails kept fixed root own view v mem words}, Space arch ram kept fixed root own view →
    v < limit → view v = none → fixed v = arch.zero → own mem = none → ram.Has mem → ∀ perm,
      (mappages root (v * pgsize) pgsize mem perm).wp (rule ram fails) (own.set mem words)
        fun result own' =>
          (result = 0 ∧ Space arch ram kept fixed root own'
            (Function.update view v (some ⟨mem, arch.sealed perm, words⟩))) ∨
          (result = -1 ∧ fails true ∧ ∃ old, own' = old.set mem words ∧ old mem = none ∧
            Space arch ram kept fixed root old view)
  uvmunmap_pages : ∀ {fails kept fixed root own view low high}, Space arch ram kept fixed root own view →
    low ≤ high → high ≤ limit → (∀ v, low ≤ v → v < high → fixed v = arch.zero) →
      (¬lenient → ∀ v, low ≤ v → v < high → view v ≠ none) →
        (uvmunmap root (low * pgsize) (high - low) true).wp (rule ram fails) own fun _ own' =>
          Space arch ram kept fixed root own' (view.drop low high)
  hole_lenient : lenient → ∀ message, hole message = pure ()
  isChild_table : ∀ p < 1048576, isChild (arch.table p) = true
  isChild_zero : isChild arch.zero = false
  other_zero : other arch.zero = pure ()

section Port

variable {I W P : Type} [DecidableEq I] {ram : Ram} (port : Port I W P ram)

/-- Create an empty user page table. Returns 0 if out of memory. -/
def uvmcreate : Code I W (Option Nat) := do
  let pagetable ← kalloc false
  pagetable.elim (pure none) fun pagetable => do
    fill pagetable port.arch.zero
    pure (some pagetable)

/-- Deallocate user pages to bring the process size from `oldsz` to `newsz`. Returns the new process
size. -/
def uvmdealloc (pagetable oldsz newsz : Nat) : Code I W Nat := do
  if newsz ≥ oldsz then pure oldsz
  else
    Program.when (pgroundup newsz < pgroundup oldsz)
      (port.uvmunmap pagetable (pgroundup newsz)
        ((pgroundup oldsz - pgroundup newsz) / pgsize) true)
    pure newsz

/-- The loop of `uvmalloc`: was there memory for `count` pages from `a`? -/
def uvmallocFrom (pagetable oldsz : Nat) (perm : P) : (count a : Nat) → Code I W Bool
  | 0, _ => pure true
  | count + 1, a => do
      let mem ← kalloc false
      mem.elim (do
        let _ ← uvmdealloc port pagetable a oldsz
        pure false) fun mem => do
        fill mem port.arch.zero
        let mapped ← port.mappages pagetable a pgsize mem perm
        if mapped ≠ 0 then do
          kfree ram mem
          let _ ← uvmdealloc port pagetable a oldsz
          pure false
        else uvmallocFrom pagetable oldsz perm count (a + pgsize)

/-- Allocate PTEs and physical memory to grow process from `oldsz` to `newsz`, which need not be page
aligned. Returns new size or 0 on error. -/
def uvmalloc (pagetable oldsz newsz : Nat) (perm : P) : Code I W Nat := do
  if newsz < oldsz then pure oldsz
  else
    let grown ← uvmallocFrom port pagetable (pgroundup oldsz) perm (pages newsz - pages oldsz)
      (pgroundup oldsz)
    if grown then pure newsz else pure 0

/-- Free user memory pages, then free page-table pages. -/
def uvmfree (pagetable sz : Nat) : Code I W Unit := do
  Program.when (sz > 0) (port.uvmunmap pagetable 0 (pgroundup sz / pgsize) true)
  freewalk port.arch ram port.isChild port.other port.indices port.arch.depth pagetable

/-- The loop of `uvmcopy`. -/
def uvmcopyFrom (old new : Nat) : (count i : Nat) → Code I W Int
  | 0, _ => pure 0
  | count + 1, i => do
      let pte ← walk port.arch port.maxva false old i
      pte.elim (do
        port.hole "uvmcopy: pte should exist"
        uvmcopyFrom old new count (i + pgsize)) fun pte => do
        let word ← read pte.1 pte.2
        if port.present word = false then do
          port.hole "uvmcopy: page not present"
          uvmcopyFrom old new count (i + pgsize)
        else do
          let mem ← kalloc false
          mem.elim (do
            port.uvmunmap new 0 (i / pgsize) true
            pure (-1)) fun mem => do
            copy mem (port.arch.page word)
            let mapped ← port.mappages new i pgsize mem (port.arch.flags word)
            if mapped ≠ 0 then do
              kfree ram mem
              port.uvmunmap new 0 (i / pgsize) true
              pure (-1)
            else uvmcopyFrom old new count (i + pgsize)

def uvmcopy (old new sz : Nat) : Code I W Int := uvmcopyFrom port old new (pages sz) 0

variable {port} {fails : Bool → Prop} {kept : Nat → Prop} {fixed : Nat → W} {root : Nat} {own : Owned I W}
  {view : View I W P}

/-! ### Growing and shrinking -/

theorem uvmdealloc_spec (h : Space port.arch ram kept fixed root own view) (oldsz newsz : Nat)
    (hle : pages oldsz ≤ port.limit)
    (hfixed : ∀ v, pages newsz ≤ v → v < pages oldsz → fixed v = port.arch.zero)
    (hmapped : ¬port.lenient → ∀ v, pages newsz ≤ v → v < pages oldsz → view v ≠ none) :
    (uvmdealloc port root oldsz newsz).wp (rule ram fails) own fun result own' =>
      result = min oldsz newsz ∧
        Space port.arch ram kept fixed root own' (view.drop (pages newsz) (pages oldsz)) := by
  unfold uvmdealloc
  by_cases hge : newsz ≥ oldsz
  · have hpages := pages_mono hge
    rw [if_pos hge, View.drop_eq_self fun v hlow hhigh => by omega]
    exact ⟨(Nat.min_eq_left hge).symm, h⟩
  · have hmin : newsz = min oldsz newsz := (Nat.min_eq_right (by omega)).symm
    have hcount : (pages oldsz * pgsize - pages newsz * pgsize) / pgsize =
        pages oldsz - pages newsz := by
      rw [← Nat.sub_mul]
      exact mul_div_pgsize _
    rw [if_neg hge, Program.wp_bind, Program.wp_when, pgroundup_eq, pgroundup_eq, hcount]
    refine ⟨fun hpages => ?_, fun hpages => ?_⟩
    · have hlt : pages newsz < pages oldsz := Nat.lt_of_mul_lt_mul_right hpages
      apply Program.wp_mono rule_monotone _
        (port.uvmunmap_pages h (Nat.le_of_lt hlt) hle hfixed hmapped)
      exact fun _ own' hspace => ⟨hmin, hspace⟩
    · have hge' : pages oldsz ≤ pages newsz := by
        rw [← Nat.not_lt]
        exact fun hlt => hpages (Nat.mul_lt_mul_of_pos_right hlt (Nat.succ_pos 4095))
      rw [View.drop_eq_self fun v hlow hhigh => by omega]
      exact ⟨hmin, h⟩

/-- A page as `uvmalloc` maps it. -/
def Fresh (arch : Arch I W P) (perm : P) (page : Page I W P) : Prop :=
  page.flags = arch.sealed perm ∧ page.words = fun _ => arch.zero

theorem uvmallocFrom_spec {view₀ : View I W P} {low high v count : Nat} (perm : P)
    (h : Space port.arch ram kept fixed root own view) (hcount : v + count = high) (hle : low ≤ v)
    (hfills : View.Fills (Fresh port.arch perm) low v view₀ view)
    (hholes : ∀ w, low ≤ w → w < high → view₀ w = none)
    (hbound : high ≤ port.limit ∨ low + 65536 < port.limit)
    (hfixed : ∀ w, low ≤ w → w < high → w ≤ low + 65536 → fixed w = port.arch.zero) :
    (uvmallocFrom port root (low * pgsize) perm count (v * pgsize)).wp (rule ram fails) own
      fun grown own' =>
        (grown = true ∧ ∃ view', Space port.arch ram kept fixed root own' view' ∧
          View.Fills (Fresh port.arch perm) low high view₀ view') ∨
        (grown = false ∧ (fails false ∨ fails true) ∧ Space port.arch ram kept fixed root own' view₀) := by
  induction count generalizing v own view with
  | zero =>
      obtain rfl : v = high := hcount
      exact Or.inl ⟨rfl, view, h, hfills⟩
  | succ count ih =>
      have hmapped : ∀ w, low ≤ w → w < v → view w ≠ none := by
        intro w hlow hlt
        obtain ⟨page, hpage, -⟩ := (hfills w).1 ⟨hlow, hlt⟩
        rw [hpage]
        exact Option.some_ne_none page
      have hdone : v ≤ low + 65536 := by
        have hcard := h.card_le (Finset.Ico low v) fun w hw =>
          hmapped w (Finset.mem_Ico.mp hw).1 (Finset.mem_Ico.mp hw).2
        rw [Nat.card_Ico] at hcard
        omega
      have hlt : v < port.limit := by omega
      have hundo : ∀ {old}, Space port.arch ram kept fixed root old view →
          (uvmdealloc port root (v * pgsize) (low * pgsize)).wp (rule ram fails) old
            fun _ own' => Space port.arch ram kept fixed root own' view₀ := by
        intro old hold
        have hspec := @uvmdealloc_spec _ _ _ _ _ _ fails _ _ _ _ _ hold (v * pgsize) (low * pgsize)
        simp only [pages_mul] at hspec
        apply Program.wp_mono rule_monotone _
          (hspec (Nat.le_of_lt hlt) (fun w hlow hw => hfixed w hlow (by omega) (by omega))
            fun _ => hmapped)
        intro _ own' hdrop
        rw [hfills.drop_eq fun w hlow hw => hholes w hlow (by omega)] at hdrop
        exact hdrop.2
      rw [uvmallocFrom, Program.wp_bind, wp_kalloc]
      refine ⟨fun hfails => ?_, fun mem words hram hmem => ?_⟩
      · rw [Option.elim_none, Program.wp_bind]
        apply Program.wp_mono rule_monotone _ (hundo h)
        exact fun _ own' hspace => Or.inr ⟨rfl, Or.inl hfails, hspace⟩
      · have hnone : view v = none := by
          rw [(hfills v).2 (by omega)]
          exact hholes v hle (by omega)
        rw [Option.elim_some, Program.wp_bind, wp_fill]
        refine ⟨words, Heap.set_self, ?_⟩
        rw [Heap.set_set, Program.wp_bind]
        apply Program.wp_mono rule_monotone _ (port.mappages_page h hlt hnone
          (hfixed v hle (by omega) hdone) hmem hram perm)
        intro result own' hresult
        cases hresult with
        | inl hdone' =>
            obtain ⟨rfl, hspace⟩ := hdone'
            rw [if_neg (by decide), ← Nat.succ_mul]
            exact ih hspace (by omega) (by omega) (hfills.succ hle ⟨rfl, rfl⟩)
        | inr hfailed =>
            obtain ⟨rfl, hfails, old, rfl, hold, hspace⟩ := hfailed
            rw [if_pos (by decide), Program.wp_bind, wp_kfree hram, Heap.erase_set hold,
              Program.wp_bind]
            refine ⟨⟨_, Heap.set_self⟩, ?_⟩
            apply Program.wp_mono rule_monotone _ (hundo hspace)
            exact fun _ own' hspace' => Or.inr ⟨rfl, Or.inr hfails, hspace'⟩

theorem uvmalloc_spec {oldsz newsz : Nat} (perm : P) (h : Space port.arch ram kept fixed root own view)
    (hholes : ∀ v, pages oldsz ≤ v → v < pages newsz → view v = none)
    (hbound : pages newsz ≤ port.limit ∨ pages oldsz + 65536 < port.limit)
    (hfixed : ∀ v, pages oldsz ≤ v → v < pages newsz → v ≤ pages oldsz + 65536 →
      fixed v = port.arch.zero) :
    (uvmalloc port root oldsz newsz perm).wp (rule ram fails) own fun result own' =>
      (newsz < oldsz ∧ result = oldsz ∧ own' = own) ∨
      (oldsz ≤ newsz ∧ result = newsz ∧ ∃ view', Space port.arch ram kept fixed root own' view' ∧
        View.Fills (Fresh port.arch perm) (pages oldsz) (pages newsz) view view') ∨
      (oldsz ≤ newsz ∧ result = 0 ∧ (fails false ∨ fails true) ∧
        Space port.arch ram kept fixed root own' view) := by
  unfold uvmalloc
  by_cases hlt : newsz < oldsz
  · rw [if_pos hlt]
    exact Or.inl ⟨hlt, rfl, rfl⟩
  · rw [if_neg hlt, pgroundup_eq, Program.wp_bind]
    have hmono := pages_mono (Nat.not_lt.mp hlt)
    apply Program.wp_mono rule_monotone _ (uvmallocFrom_spec perm h (Nat.add_sub_of_le hmono)
      (Nat.le_refl _) View.Fills.refl hholes hbound hfixed)
    intro grown own' hgrown
    rcases hgrown with ⟨rfl, hspace⟩ | ⟨rfl, hfails, hspace⟩
    · exact Or.inr (Or.inl ⟨Nat.not_lt.mp hlt, rfl, hspace⟩)
    · exact Or.inr (Or.inr ⟨Nat.not_lt.mp hlt, rfl, hfails, hspace⟩)

/-! ### Freeing -/

theorem uvmfree_spec {sz : Nat} (h : Space port.arch ram kept fixed root own view)
    (hle : pages sz ≤ port.limit) (hfixed : ∀ v < port.arch.limit, fixed v = port.arch.zero)
    (habove : ∀ v, pages sz ≤ v → view v = none)
    (hmapped : ¬port.lenient → ∀ v < pages sz, view v ≠ none) :
    (uvmfree port root sz).wp (rule ram fails) own fun _ own' => own' = Heap.empty := by
  have hwalk : ∀ {own'} {view' : View I W P}, Space port.arch ram kept fixed root own' view' →
      (∀ v, view' v = none) →
        (freewalk port.arch ram port.isChild port.other port.indices port.arch.depth root).wp
          (rule ram fails) own' fun _ after => after = Heap.empty := fun hspace hview =>
    hspace.freewalk port.full hview hfixed port.mem_indices port.nodup port.isChild_zero
      port.isChild_table port.other_zero
  rw [uvmfree, Program.wp_bind, Program.wp_when]
  refine ⟨fun _ => ?_, fun hzero => ?_⟩
  · have hunmap := @port.uvmunmap_pages fails _ _ _ _ _ _ _ h (Nat.zero_le (pages sz)) hle
      (fun v _ hv => hfixed v (Nat.lt_of_lt_of_le hv (hle.trans port.limit_le_arch))) fun hstrict v _ => hmapped hstrict v
    rw [Nat.zero_mul, Nat.sub_zero] at hunmap
    rw [pgroundup_eq, mul_div_pgsize]
    apply Program.wp_mono rule_monotone _ hunmap
    intro _ own' hspace
    apply hwalk hspace
    intro v
    by_cases hv : v < pages sz
    · exact View.drop_of_mem ⟨Nat.zero_le v, hv⟩
    · rw [View.drop_of_not fun hin => hv hin.2]
      exact habove v (Nat.not_lt.mp hv)
  · obtain rfl : sz = 0 := by omega
    exact hwalk h fun v => habove v (Nat.zero_le v)

/-! ### Copying -/

section Copy

variable {new : Nat} {kept' : Nat → Prop} {fixed' : Nat → W} {child : Owned I W} {copied : View I W P} {v bound : Nat}

theorem undo_copy (hd : Space port.arch ram kept' fixed' new child copied) (hdisjoint : own.Disjoint child)
    (hcopies : View.Copies port.arch v view copied) (hv : v ≤ port.limit)
    (hfixed : ∀ w < v, fixed' w = port.arch.zero)
    (hmapped : ¬port.lenient → ∀ w < v, view w ≠ none) :
    (port.uvmunmap new 0 (v * pgsize / pgsize) true).wp (rule ram fails) (own.union child)
      fun _ own' => ∃ child', own' = own.union child' ∧ own.Disjoint child' ∧
        Space port.arch ram kept' fixed' new child' (fun _ => none) := by
  have hunmap := @port.uvmunmap_pages fails _ _ _ _ _ _ _ hd (Nat.zero_le v) hv (fun w _ => hfixed w)
    fun hstrict w _ hw hnone => hmapped hstrict w hw ((hcopies.eq_none_iff hw).mp hnone)
  rw [Nat.zero_mul, Nat.sub_zero] at hunmap
  rw [mul_div_pgsize, hdisjoint.union_comm]
  apply Program.wp_mono rule_monotone _
    (Program.wp_frame rule_monotone rule_local hdisjoint.symm hunmap)
  intro _ own' hframe
  obtain ⟨child', rfl, hdisjoint', hspace⟩ := hframe
  refine ⟨child', hdisjoint'.union_comm, hdisjoint'.symm, ?_⟩
  have hempty : copied.drop 0 v = fun _ => none := by
    funext w
    by_cases hw : w < v
    · exact View.drop_of_mem ⟨Nat.zero_le w, hw⟩
    · rw [View.drop_of_not fun hin => hw hin.2]
      exact (hcopies w).2 (Nat.not_lt.mp hw)
  rw [hempty] at hspace
  exact hspace

theorem uvmcopyFrom_spec {count : Nat} (h : Space port.arch ram kept fixed root own view)
    (hd : Space port.arch ram kept' fixed' new child copied) (hdisjoint : own.Disjoint child)
    (hcopies : View.Copies port.arch v view copied) (hcount : v + count = bound)
    (hbound : bound ≤ port.limit) (hfixed : ∀ w < bound, fixed w = port.arch.zero)
    (hfixed' : ∀ w < bound, fixed' w = port.arch.zero)
    (hmapped : ¬port.lenient → ∀ w < bound, view w ≠ none) :
    (uvmcopyFrom port root new count (v * pgsize)).wp (rule ram fails) (own.union child)
      fun result own' => ∃ child' copied', own' = own.union child' ∧ own.Disjoint child' ∧
        Space port.arch ram kept' fixed' new child' copied' ∧
        ((result = 0 ∧ View.Copies port.arch bound view copied') ∨
          (result = -1 ∧ (fails false ∨ fails true) ∧ copied' = fun _ => none)) := by
  induction count generalizing v child copied with
  | zero =>
      obtain rfl : v = bound := hcount
      exact ⟨child, copied, rfl, hdisjoint, hd, Or.inl ⟨rfl, hcopies⟩⟩
  | succ count ih =>
      obtain ⟨tree, htree⟩ := h
      have hv : v < bound := by omega
      have hlimit : v < port.limit := by omega
      have hva : v * pgsize < port.maxva :=
        Nat.lt_of_lt_of_le (Nat.mul_lt_mul_of_pos_right hlimit (Nat.succ_pos 4095)) port.limit_le
      have hundo : ∀ {child}, Space port.arch ram kept' fixed' new child copied → own.Disjoint child →
          (port.uvmunmap new 0 (v * pgsize / pgsize) true).wp (rule ram fails) (own.union child)
            fun _ own' => ∃ child', own' = own.union child' ∧ own.Disjoint child' ∧
              Space port.arch ram kept' fixed' new child' (fun _ => none) := fun hd hdisjoint =>
        undo_copy hd hdisjoint hcopies (by omega) (fun w hw => hfixed' w (by omega))
          fun hstrict w hw => hmapped hstrict w (by omega)
      have hskip : view v = none → ∀ message, (port.hole message >>= fun _ =>
          uvmcopyFrom port root new count (v * pgsize + pgsize)).wp (rule ram fails) (own.union child)
            fun result own' => ∃ child' copied', own' = own.union child' ∧ own.Disjoint child' ∧
              Space port.arch ram kept' fixed' new child' copied' ∧
              ((result = 0 ∧ View.Copies port.arch bound view copied') ∨
                (result = -1 ∧ (fails false ∨ fails true) ∧ copied' = fun _ => none)) := by
        intro hhole message
        by_cases hlenient : port.lenient
        · rw [port.hole_lenient hlenient, ← Nat.succ_mul]
          exact ih hd hdisjoint (hcopies.skip hhole) (by omega)
        · exact absurd hhole (hmapped hlenient v hv)
      have hlookup : (walk port.arch port.maxva false root (v * pgsize)).wp (rule ram fails) own
          fun pte own' => own' = own ∧
            pte = (tree.node (port.arch.upper v)).map fun table => (table, port.arch.lower v) :=
        htree.wp_walk hva ⟨rfl, rfl⟩
      rw [uvmcopyFrom, Program.wp_bind]
      apply Program.wp_mono rule_monotone _
        (Program.wp_frame rule_monotone rule_local hdisjoint hlookup)
      intro pte own' hfound
      obtain ⟨same, rfl, -, hsame, rfl⟩ := hfound
      rw [hsame]
      cases hnode : tree.node (port.arch.upper v) with
      | none =>
          rw [Option.map_none, Option.elim_none]
          exact hskip (htree.hole_of_table_eq_none hnode) _
      | some t =>
          obtain ⟨hwords, hleaf⟩ := htree.slot hnode
          rw [Option.map_some, Option.elim_some, Program.wp_bind, wp_read]
          refine ⟨_, Heap.union_eq_some_left hwords, ?_⟩
          rw [hleaf]
          cases hview : view v with
          | none =>
              have hzero := (htree.hole (Nat.lt_of_lt_of_le hlimit port.limit_le_arch) hview).trans (hfixed v hv)
              rw [hzero, if_pos port.present_zero]
              exact hskip hview _
          | some page =>
              obtain ⟨-, hpageWords, hmaps⟩ := htree.page hview
              have hpresent := port.present_of_maps hmaps
              rw [if_neg (by rw [hpresent]; exact Bool.noConfusion), hmaps.page, hmaps.flags,
                Program.wp_bind, wp_kalloc]
              refine ⟨fun hfails => ?_, fun mem junk hram hnone => ?_⟩
              · rw [Option.elim_none, Program.wp_bind]
                apply Program.wp_mono rule_monotone _ (hundo hd hdisjoint)
                intro _ own' hundone
                obtain ⟨child', rfl, hdisjoint', hspace⟩ := hundone
                exact ⟨child', _, rfl, hdisjoint', hspace, Or.inr ⟨rfl, Or.inl hfails, rfl⟩⟩
              · obtain ⟨hmem, hmem'⟩ := Heap.union_eq_none.mp hnone
                have hframe : page.frame ≠ mem := by
                  intro heq
                  rw [heq, hmem] at hpageWords
                  cases hpageWords
                rw [Option.elim_some, Program.wp_bind, wp_copy]
                refine ⟨⟨junk, Heap.set_self⟩, page.words, ?_, ?_⟩
                · rw [Heap.set_of_ne hframe]
                  exact Heap.union_eq_some_left hpageWords
                rw [Heap.set_set, hdisjoint.union_comm, ← Heap.set_union, Program.wp_bind]
                apply Program.wp_mono rule_monotone _ (Program.wp_frame rule_monotone rule_local
                  (hdisjoint.symm.set hmem) (port.mappages_page hd hlimit
                    ((hcopies v).2 (Nat.le_refl v)) (hfixed' v hv) hmem' hram page.flags))
                intro result own' hresult
                obtain ⟨child', rfl, hdisjoint', hcase⟩ := hresult
                rw [hdisjoint'.union_comm]
                rcases hcase with ⟨rfl, hspace⟩ | ⟨rfl, hfails, old, rfl, hold, hspace⟩
                · rw [if_neg (by decide), ← Nat.succ_mul]
                  exact ih hspace hdisjoint'.symm (hcopies.succ hview) (by omega)
                · have hdisjoint'' : own.Disjoint old := by
                    have herase : ((old.set mem page.words).erase mem).Disjoint own := hdisjoint'.erase
                    rw [Heap.erase_set hold] at herase
                    exact herase.symm
                  rw [if_pos (by decide), Program.wp_bind, wp_kfree hram]
                  refine ⟨⟨page.words, ?_⟩, ?_⟩
                  · rw [Heap.union_apply, hmem, Heap.set_self]
                    rfl
                  · rw [hdisjoint'.symm.union_comm, ← Heap.erase_union hmem, Heap.erase_set hold,
                      ← hdisjoint''.union_comm, Program.wp_bind]
                    apply Program.wp_mono rule_monotone _ (hundo hspace hdisjoint'')
                    intro _ own' hundone
                    obtain ⟨child'', rfl, hdisjoint''', hspace'⟩ := hundone
                    exact ⟨child'', _, rfl, hdisjoint''', hspace', Or.inr ⟨rfl, Or.inr hfails, rfl⟩⟩

theorem uvmcopy_spec {sz : Nat} (h : Space port.arch ram kept fixed root own view)
    (hd : Space port.arch ram kept' fixed' new child (fun _ => none)) (hdisjoint : own.Disjoint child)
    (hbound : pages sz ≤ port.limit) (hfixed : ∀ w < pages sz, fixed w = port.arch.zero)
    (hfixed' : ∀ w < pages sz, fixed' w = port.arch.zero)
    (hmapped : ¬port.lenient → ∀ w < pages sz, view w ≠ none) :
    (uvmcopy port root new sz).wp (rule ram fails) (own.union child) fun result own' =>
      ∃ child' copied', own' = own.union child' ∧ own.Disjoint child' ∧
        Space port.arch ram kept' fixed' new child' copied' ∧
        ((result = 0 ∧ View.Copies port.arch (pages sz) view copied') ∨
          (result = -1 ∧ (fails false ∨ fails true) ∧ copied' = fun _ => none)) := by
  have hcopy := @uvmcopyFrom_spec _ _ _ _ _ _ fails _ _ _ _ _ _ _ _ _ _ _ _ _ h hd hdisjoint
    View.Copies.zero (Nat.zero_add _) hbound hfixed hfixed' hmapped
  rw [Nat.zero_mul] at hcopy
  exact hcopy

end Copy

end Port

end Xv6.Vm
