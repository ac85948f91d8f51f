import Mathlib.Order.Interval.Finset.Nat
import Xv6.Lib.RadixTree
import Xv6.Vm.Memory

/-!
# Page tables

A page table is a tree of tables whose leaves map pages of the process. `Layout` is about the tree, and
`Space` says only which pages are mapped. The kernels differ in how an entry is written and in how many
levels there are, and take that as an argument.
-/

namespace Xv6.Vm

def pgsize : Nat := 4096

def pgroundup (sz : Nat) : Nat := (sz + pgsize - 1) / pgsize * pgsize

def pgrounddown (a : Nat) : Nat := a / pgsize * pgsize

/-- How many pages `[0, PGROUNDUP(sz))` has. -/
def pages (sz : Nat) : Nat := (sz + pgsize - 1) / pgsize

theorem pgroundup_eq (sz : Nat) : pgroundup sz = pages sz * pgsize := rfl

theorem mul_div_pgsize (v : Nat) : v * pgsize / pgsize = v := Nat.mul_div_cancel _ (Nat.succ_pos 4095)

theorem pgrounddown_mul (v : Nat) : pgrounddown (v * pgsize) = v * pgsize := by
  rw [pgrounddown, mul_div_pgsize]

theorem pages_mul (v : Nat) : pages (v * pgsize) = v := by
  unfold pages pgsize
  omega

theorem pages_mono {sz sz' : Nat} (h : sz ≤ sz') : pages sz ≤ pages sz' := by
  unfold pages
  apply Nat.div_le_div_right
  omega

theorem lt_pages_iff {sz v : Nat} : v < pages sz ↔ v * pgsize < sz := by
  unfold pages pgsize
  omega

theorem div_of_lt {va len n i : Nat} (hn : n = min (pgsize - va % pgsize) len) (hi : i < n) :
    (va + i) / pgsize = va / pgsize ∧ (va + i) % pgsize = va % pgsize + i := by
  unfold pgsize at *
  omega

theorem add_of_le {va len n i : Nat} (hn : n = min (pgsize - va % pgsize) len) (hlow : n ≤ i) (hhigh : i < len) :
    va + i = va / pgsize * pgsize + pgsize + (i - n) := by
  unfold pgsize at *
  omega

/-- What the kernels say differently about the entries of a page table. `P` is what `mappages` is given
besides the page. -/
structure Arch (I W P : Type) where
  /-- How many levels of tables there are. -/
  depth : Nat
  /-- The indices that the address of a page has above the bottom. -/
  upper : Nat → List I
  /-- Its index in the table at the bottom. -/
  lower : Nat → I
  /-- How many pages have an address. -/
  limit : Nat
  zero : W
  /-- The entry that names a table. -/
  table : Nat → W
  /-- The entry that maps a page. -/
  leaf : Nat → P → W
  /-- `PTE_ADDR`, as a page number. -/
  page : W → Nat
  /-- `PTE_FLAGS`. -/
  flags : W → P
  /-- The flags of an entry that maps a page with these. -/
  sealed : P → P
  /-- The entry names a table. -/
  isTable : W → Bool
  /-- The entry maps a page. -/
  isMapped : W → Bool
  length_upper : ∀ v, (upper v).length + 1 = depth
  injective : ∀ {v w}, v < limit → w < limit → upper v ++ [lower v] = upper w ++ [lower w] → v = w
  isTable_zero : isTable zero = false
  isTable_table : ∀ p < 1048576, isTable (table p) = true
  page_table : ∀ p < 1048576, page (table p) = p
  isMapped_zero : isMapped zero = false
  isMapped_leaf : ∀ p < 1048576, 0 < p → ∀ perm, isMapped (leaf p perm) = true
  page_leaf : ∀ p < 1048576, ∀ perm, page (leaf p perm) = p
  flags_leaf : ∀ p < 1048576, ∀ perm, flags (leaf p perm) = sealed perm

def Arch.path {I W P : Type} (arch : Arch I W P) (v : Nat) : List I := arch.upper v ++ [arch.lower v]

theorem Arch.length_path {I W P : Type} (arch : Arch I W P) (v : Nat) :
    (arch.path v).length = arch.depth := by
  rw [path, List.length_append, List.length_singleton]
  exact arch.length_upper v

theorem Arch.path_eq_iff {I W P : Type} {arch : Arch I W P} {v w : Nat} :
    arch.path v = arch.path w ↔ arch.upper v = arch.upper w ∧ arch.lower v = arch.lower w := by
  unfold path
  rw [List.append_singleton_inj]

section Walk

variable {I W P : Type} [DecidableEq I] (arch : Arch I W P) (alloc : Bool)

/-- Follow the entries at the given indices, one a level. If `alloc`, create any required page-table
pages. -/
def walkFrom : List I → Nat → Code I W (Option Nat)
  | [], pagetable => pure (some pagetable)
  | i :: rest, pagetable => do
      let pte ← read pagetable i
      if arch.isTable pte then walkFrom rest (arch.page pte)
      else if alloc = false then pure none
      else
        let new ← kalloc true
        new.elim (pure none) fun new => do
          fill new arch.zero
          write pagetable i (arch.table new)
          walkFrom rest new

end Walk

/-! ### What a page table lays out -/

/-- A page of a process: where it is in memory, its flags, and its words. -/
structure Page (I W P : Type) where
  frame : Nat
  flags : P
  words : I → W

abbrev View (I W P : Type) := Nat → Option (Page I W P)

section Arch

variable {I W P : Type} (arch : Arch I W P)

abbrev Arch.format : EntryFormat Nat W := ⟨arch.zero, arch.table⟩

abbrev Arch.Tree := RadixTree arch.format I arch.depth

/-- The entry maps the page. -/
structure Arch.Maps (word : W) (p : Nat) (flags : P) : Prop where
  isMapped : arch.isMapped word = true
  page : arch.page word = p
  flags : arch.flags word = flags

/-- The tree of tables at `root` takes up the pages owned, and its leaves map the pages of the view.
`fixed` is what the other leaf entries hold, and `kept` says which pages are tables for sure. -/
structure Layout (ram : Ram) (kept : Nat → Prop) (fixed : Nat → W) (tree : arch.Tree) (root : Nat) (own : Owned I W)
    (view : View I W P) : Prop where
  root : tree.node [] = some root
  holds : tree.Holds own
  ram : ∀ {p words}, own p = some words → ram.Has p
  page : ∀ {v page}, view v = some page → tree.node (arch.path v) = some page.frame ∧
    own page.frame = some page.words ∧ arch.Maps (tree.leaf (arch.path v)) page.frame page.flags
  mapped : ∀ {path p}, path.length = arch.depth → tree.node path = some p →
    ∃ v page, view v = some page ∧ path = arch.path v
  hole : ∀ {v}, v < arch.limit → view v = none → tree.leaf (arch.path v) = fixed v
  lt : ∀ {v page}, view v = some page → v < arch.limit
  table : ∀ {p}, kept p → ∃ path, path.length < arch.depth ∧ tree.node path = some p

/-- The pages owned are those of the view and of the tables at `root` that map them. -/
def Space (ram : Ram) (kept : Nat → Prop) (fixed : Nat → W) (root : Nat) (own : Owned I W)
    (view : View I W P) : Prop :=
  ∃ tree, Layout arch ram kept fixed tree root own view

end Arch

section Layout

variable {I W P : Type} {arch : Arch I W P} {ram : Ram} {kept : Nat → Prop} {fixed : Nat → W} {tree : arch.Tree}
  {root : Nat} {own : Owned I W} {view : View I W P} {fails : Bool → Prop}

theorem Arch.maps_leaf {p : Nat} (hram : ram.Has p) (perm : P) :
    arch.Maps (arch.leaf p perm) p (arch.sealed perm) :=
  ⟨arch.isMapped_leaf p hram.lt (Nat.lt_of_lt_of_le ram.first_pos hram.1) perm,
    arch.page_leaf p hram.lt perm, arch.flags_leaf p hram.lt perm⟩

theorem entry_above {path : List I} (hpath : path.length + 1 < arch.depth) (i : I) :
    tree.entry path i = (tree.node (path ++ [i])).elim arch.zero arch.table := by
  unfold RadixTree.entry
  rw [if_neg (Nat.ne_of_lt hpath)]

theorem ne_path {path : List I} (hpath : path.length < arch.depth) (v : Nat) :
    path ≠ arch.path v := by
  intro heq
  rw [heq, arch.length_path] at hpath
  exact Nat.lt_irrefl _ hpath

theorem ne_upper (v w : Nat) : arch.upper v ≠ arch.path w := by
  apply ne_path
  have hlength := arch.length_upper v
  omega

namespace Layout

variable (h : Layout arch ram kept fixed tree root own view)
include h

theorem ram_of_node {path : List I} {p : Nat} (hnode : tree.node path = some p) : ram.Has p := by
  obtain ⟨words, hwords⟩ := h.holds.page hnode
  exact h.ram hwords

theorem slot {v t : Nat} (hnode : tree.node (arch.upper v) = some t) :
    own t = some (tree.entry (arch.upper v)) ∧
      tree.entry (arch.upper v) (arch.lower v) = tree.leaf (arch.path v) := by
  have hlength := arch.length_upper v
  refine ⟨h.holds.table hnode (by omega), ?_⟩
  unfold RadixTree.entry
  rw [if_pos hlength]
  rfl

theorem node_of_hole {v : Nat} (hv : v < arch.limit) (hnone : view v = none) :
    tree.node (arch.path v) = none := by
  rw [Option.eq_none_iff_forall_ne_some]
  intro p hnode
  obtain ⟨w, page, hpage, hpath⟩ := h.mapped (arch.length_path v) hnode
  rw [arch.injective hv (h.lt hpage) hpath, hpage] at hnone
  cases hnone

theorem hole_of_table_eq_none {v : Nat} (hnode : tree.node (arch.upper v) = none) :
    view v = none := by
  rw [Option.eq_none_iff_forall_ne_some]
  intro page hpage
  have hframe := (h.page hpage).1
  rw [Arch.path, tree.node_append_eq_none hnode] at hframe
  cases hframe

variable [DecidableEq I]

theorem addTable {path : List I} {i : I} {t new : Nat} (hparent : tree.node path = some t)
    (hpath : path.length + 1 < arch.depth) (hempty : tree.node (path ++ [i]) = none) (hnew : own new = none)
    (hram : ram.Has new) :
    ∃ tree', Layout arch ram kept fixed tree' root ((own.set new (fun _ => arch.zero)).set t
        (Function.update (tree.entry path) i (arch.table new))) view ∧
      tree'.node (path ++ [i]) = some new ∧
        ∀ other, other ≠ path ++ [i] → tree'.node other = tree.node other := by
  have hne : t ≠ new := by
    rintro rfl
    exact h.holds.fresh hnew path hparent
  refine ⟨tree.addTable path i new ⟨t, hparent⟩ (by omega) (h.holds.fresh hnew), ?_,
    RadixTree.addTable_node_self, fun _ => RadixTree.addTable_node_of_ne⟩
  have hlong : ∀ v, arch.path v ≠ path ++ [i] := by
    intro v heq
    exact ne_path (by simpa using hpath) v heq.symm
  refine ⟨?_, ?_, ?_, ?_, ?_, h.hole, h.lt, ?_⟩
  · exact (RadixTree.addTable_node_of_ne (by simp)).trans h.root
  · refine h.holds.addTable hparent (by omega) hnew hempty ?_ Heap.set_self fun other hother ht => ?_
    · rw [Heap.set_of_ne hne.symm, Heap.set_self]
    · rw [Heap.set_of_ne ht, Heap.set_of_ne hother]
  · intro p words hwords
    by_cases ht : p = t
    · exact ht ▸ h.ram_of_node hparent
    · rw [Heap.set_of_ne ht] at hwords
      by_cases hp : p = new
      · exact hp ▸ hram
      · rw [Heap.set_of_ne hp] at hwords
        exact h.ram hwords
  · intro v page hpage
    obtain ⟨hnode, hwords, hmaps⟩ := h.page hpage
    refine ⟨(RadixTree.addTable_node_of_ne (hlong v)).trans hnode, ?_, hmaps⟩
    have hpt : page.frame ≠ t := by
      intro heq
      rw [heq] at hnode
      exact ne_path (by omega) v (tree.injective hparent hnode)
    have hpnew : page.frame ≠ new := by
      intro heq
      rw [heq] at hnode
      exact h.holds.fresh hnew _ hnode
    rw [Heap.set_of_ne hpt, Heap.set_of_ne hpnew, hwords]
  · intro other p hlength hnode
    have hother : other ≠ path ++ [i] := by
      rintro rfl
      rw [List.length_append, List.length_singleton] at hlength
      omega
    exact h.mapped hlength ((RadixTree.addTable_node_of_ne hother).symm.trans hnode)
  · intro p hkept
    obtain ⟨other, hlength, hnode⟩ := h.table hkept
    refine ⟨other, hlength, (RadixTree.addTable_node_of_ne ?_).trans hnode⟩
    rintro rfl
    rw [hempty] at hnode
    cases hnode

theorem setLeaf {fixed' : Nat → W} {own' : Owned I W} {v t : Nat} (word : W)
    (now : Option (Page I W P)) (hv : v < arch.limit) (hparent : tree.node (arch.upper v) = some t)
    (hframe : ∀ page, now = some page → ram.Has page.frame ∧
      ∀ other, tree.node other = some page.frame → other = arch.path v)
    (hnow : now.elim (word = fixed' v) fun page =>
      own' page.frame = some page.words ∧ arch.Maps word page.frame page.flags)
    (hfixed : ∀ w, w ≠ v → fixed' w = fixed w)
    (hself : own' t = some (Function.update (tree.entry (arch.upper v)) (arch.lower v) word))
    (hgone : ∀ p, tree.node (arch.path v) = some p → now.map Page.frame ≠ some p → own' p = none)
    (hothers : ∀ q, q ≠ t → now.map Page.frame ≠ some q → tree.node (arch.path v) ≠ some q →
      own' q = own q) :
    ∃ tree', Layout arch ram kept fixed' tree' root own' (Function.update view v now) ∧
      tree'.node (arch.path v) = now.map Page.frame ∧
        ∀ other, other ≠ arch.path v → tree'.node other = tree.node other := by
  have hkey : ∀ p, now.map Page.frame = some p →
      ram.Has p ∧ ∀ other, tree.node other = some p → other = arch.path v := by
    intro p hp
    obtain ⟨page, rfl, rfl⟩ := Option.map_eq_some_iff.mp hp
    exact hframe page rfl
  have hpage : ∀ p, now.map Page.frame = some p → ∃ words, own' p = some words := by
    intro p hp
    obtain ⟨page, rfl, rfl⟩ := Option.map_eq_some_iff.mp hp
    exact ⟨_, hnow.1⟩
  refine ⟨tree.setLeaf (arch.upper v) (arch.lower v) (now.map Page.frame) word ⟨t, hparent⟩
    (arch.length_upper v) fun p hp => (hkey p hp).2, ⟨?_, ?_, ?_, ?_, ?_, ?_, ?_, ?_⟩,
    RadixTree.setLeaf_node_self, fun _ => RadixTree.setLeaf_node_of_ne⟩
  · have hne : [] ≠ arch.upper v ++ [arch.lower v] := by simp
    exact Eq.trans (RadixTree.setLeaf_node_of_ne hne) h.root
  · exact h.holds.setLeaf hparent (arch.length_upper v) (fun p hp => (hkey p hp).2) hself hpage hgone
      hothers
  · intro p words hwords
    by_cases ht : p = t
    · exact ht ▸ h.ram_of_node hparent
    · by_cases hp : now.map Page.frame = some p
      · exact (hkey p hp).1
      · by_cases hold : tree.node (arch.path v) = some p
        · exact h.ram_of_node hold
        · rw [hothers p ht hp hold] at hwords
          exact h.ram hwords
  · intro w page hpage'
    by_cases hw : w = v
    · subst hw
      rw [Function.update_self] at hpage'
      subst hpage'
      obtain ⟨hwords, hmaps⟩ := hnow
      refine ⟨RadixTree.setLeaf_node_self, hwords, ?_⟩
      exact (congrArg (arch.Maps · page.frame page.flags) RadixTree.setLeaf_leaf_self).mpr hmaps
    · rw [Function.update_of_ne hw] at hpage'
      obtain ⟨hnode, hwords, hmaps⟩ := h.page hpage'
      have hne : arch.path w ≠ arch.path v := fun heq =>
        hw (arch.injective (h.lt hpage') hv heq)
      refine ⟨(RadixTree.setLeaf_node_of_ne hne).trans hnode, ?_, ?_⟩
      · rw [hothers page.frame ?_ ?_ ?_, hwords]
        · intro heq
          rw [heq] at hnode
          exact ne_upper v w (tree.injective hparent hnode)
        · exact fun hp => hne ((hkey _ hp).2 _ hnode)
        · exact fun heq => hne (tree.injective hnode heq)
      · exact (congrArg (arch.Maps · page.frame page.flags)
          (RadixTree.setLeaf_leaf_of_ne hne)).mpr hmaps
  · intro path p hlength hnode
    by_cases hpath : path = arch.path v
    · subst hpath
      obtain ⟨page, hnow', -⟩ := Option.map_eq_some_iff.mp (RadixTree.setLeaf_node_self.symm.trans hnode)
      refine ⟨v, page, ?_, rfl⟩
      rw [Function.update_self]
      exact hnow'
    · obtain ⟨w, page, hpage', rfl⟩ :=
        h.mapped hlength ((RadixTree.setLeaf_node_of_ne hpath).symm.trans hnode)
      refine ⟨w, page, ?_, rfl⟩
      rw [Function.update_of_ne fun heq => hpath (congrArg arch.path heq)]
      exact hpage'
  · intro w hlt hnone
    by_cases hw : w = v
    · subst hw
      rw [Function.update_self] at hnone
      subst hnone
      exact RadixTree.setLeaf_leaf_self.trans hnow
    · rw [Function.update_of_ne hw] at hnone
      have hne : arch.path w ≠ arch.path v := fun heq => hw (arch.injective hlt hv heq)
      rw [hfixed w hw]
      exact (RadixTree.setLeaf_leaf_of_ne hne).trans (h.hole hlt hnone)
  · intro w page hpage'
    by_cases hw : w = v
    · exact hw ▸ hv
    · rw [Function.update_of_ne hw] at hpage'
      exact h.lt hpage'
  · intro p hkept
    obtain ⟨other, hlength, hnode⟩ := h.table hkept
    exact ⟨other, hlength, (RadixTree.setLeaf_node_of_ne (ne_path hlength v)).trans hnode⟩

variable {v t : Nat} (hparent : tree.node (arch.upper v) = some t)
include hparent

omit h [DecidableEq I] in
theorem ne_table {p : Nat} (hnode : tree.node (arch.path v) = some p) : t ≠ p := by
  rintro rfl
  exact ne_upper v v (tree.injective hparent hnode)

theorem map_node {word : W} (page : Page I W P) (hv : v < arch.limit) (hnone : view v = none)
    (hmem : own page.frame = none) (hram : ram.Has page.frame)
    (hmaps : arch.Maps word page.frame page.flags) :
    ∃ tree', Layout arch ram kept fixed tree' root ((own.set page.frame page.words).set t
        (Function.update (tree.entry (arch.upper v)) (arch.lower v) word))
        (Function.update view v (some page)) ∧
      tree'.node (arch.path v) = some page.frame ∧
        ∀ other, other ≠ arch.path v → tree'.node other = tree.node other := by
  have hne : page.frame ≠ t := by
    intro heq
    rw [heq] at hmem
    exact h.holds.fresh hmem _ hparent
  refine h.setLeaf word (some page) hv hparent ?_ ⟨?_, hmaps⟩ (fun _ _ => rfl) Heap.set_self ?_
    fun q ht hq _ => ?_
  · intro other hother
    obtain rfl := Option.some.inj hother
    exact ⟨hram, fun path hpath => absurd hpath (h.holds.fresh hmem path)⟩
  · rw [Heap.set_of_ne hne, Heap.set_self]
  · intro p hnode
    rw [h.node_of_hole hv hnone] at hnode
    cases hnode
  · rw [Heap.set_of_ne ht, Heap.set_of_ne fun heq => hq (congrArg some heq.symm)]

theorem map {word : W} (page : Page I W P) (hv : v < arch.limit) (hnone : view v = none)
    (hmem : own page.frame = none) (hram : ram.Has page.frame)
    (hmaps : arch.Maps word page.frame page.flags) :
    Space arch ram kept fixed root ((own.set page.frame page.words).set t
      (Function.update (tree.entry (arch.upper v)) (arch.lower v) word))
      (Function.update view v (some page)) := by
  obtain ⟨tree', h', -⟩ := h.map_node hparent page hv hnone hmem hram hmaps
  exact ⟨tree', h'⟩

theorem unmap {page : Page I W P} (hview : view v = some page) (hfixed : fixed v = arch.zero) :
    Space arch ram kept fixed root ((own.erase page.frame).set t
      (Function.update (tree.entry (arch.upper v)) (arch.lower v) arch.zero))
      (Function.update view v none) := by
  have hnode := (h.page hview).1
  refine Exists.imp (fun _ h' => h'.1) (h.setLeaf arch.zero none (h.lt hview) hparent ?_ hfixed.symm
    (fun _ _ => rfl) Heap.set_self ?_ fun q ht _ hq => ?_)
  · intro other hother
    cases hother
  · intro q hq _
    obtain rfl := Option.some.inj (hnode.symm.trans hq)
    rw [Heap.set_of_ne (ne_table hparent hnode).symm, Heap.erase_self]
  · rw [Heap.set_of_ne ht, Heap.erase_of_ne fun heq => hq (hnode.trans (congrArg some heq.symm))]

theorem remap {word : W} {page : Page I W P} {flags : P} (hview : view v = some page)
    (hmaps : arch.Maps word page.frame flags) :
    Space arch ram kept fixed root (own.set t
      (Function.update (tree.entry (arch.upper v)) (arch.lower v) word))
      (Function.update view v (some { page with flags })) := by
  obtain ⟨hnode, hwords, -⟩ := h.page hview
  refine Exists.imp (fun _ h' => h'.1) (h.setLeaf word (some { page with flags }) (h.lt hview) hparent ?_
    ⟨?_, hmaps⟩ (fun _ _ => rfl) Heap.set_self ?_ fun other ht _ _ => Heap.set_of_ne ht)
  · intro other hother
    obtain rfl := Option.some.inj hother
    exact ⟨h.ram_of_node hnode, fun path hpath => tree.injective hpath hnode⟩
  · rw [Heap.set_of_ne (ne_table hparent hnode).symm, hwords]
  · intro other hother hne
    exact absurd (hnode.symm.trans hother) hne

theorem setFixed {word : W} (hv : v < arch.limit) (hnone : view v = none) :
    Space arch ram kept (Function.update fixed v word) root (own.set t
      (Function.update (tree.entry (arch.upper v)) (arch.lower v) word)) view := by
  have hsame : Function.update view v none = view := by
    rw [← hnone, Function.update_eq_self]
  rw [← hsame]
  have hword : word = Function.update fixed v word v := by rw [Function.update_self]
  refine Exists.imp (fun _ h' => h'.1) (h.setLeaf word none hv hparent ?_ hword
    (fun w hw => Function.update_of_ne hw ..) Heap.set_self ?_ fun q ht _ _ => Heap.set_of_ne ht)
  · intro other hother
    cases hother
  · intro p hnode
    rw [h.node_of_hole hv hnone] at hnode
    cases hnode

omit hparent [DecidableEq I] in
/-- The words of a page change. -/
theorem store {page : Page I W P} {words : I → W} (hview : view v = some page) :
    Layout arch ram kept fixed tree root (own.set page.frame words)
      (Function.update view v (some { page with words })) := by
  obtain ⟨hnode, -, hmaps⟩ := h.page hview
  refine ⟨h.root, ⟨?_, ?_, ?_⟩, ?_, ?_, ?_, ?_, ?_, h.table⟩
  · intro path t hpath hlt
    have hne : t ≠ page.frame := by
      rintro rfl
      exact ne_path hlt v (tree.injective hpath hnode)
    rw [Heap.set_of_ne hne]
    exact h.holds.table hpath hlt
  · intro path q hpath
    by_cases hq : q = page.frame
    · exact ⟨words, hq ▸ Heap.set_self⟩
    · rw [Heap.set_of_ne hq]
      exact h.holds.page hpath
  · intro q words' hwords
    by_cases hq : q = page.frame
    · exact ⟨arch.path v, hq ▸ hnode⟩
    · rw [Heap.set_of_ne hq] at hwords
      exact h.holds.node hwords
  · intro q words' hwords
    by_cases hq : q = page.frame
    · exact hq ▸ h.ram_of_node hnode
    · rw [Heap.set_of_ne hq] at hwords
      exact h.ram hwords
  · intro w other hother
    by_cases hw : w = v
    · subst hw
      rw [Function.update_self] at hother
      obtain rfl := Option.some.inj hother
      exact ⟨hnode, Heap.set_self, hmaps⟩
    · rw [Function.update_of_ne hw] at hother
      obtain ⟨hq, hwords, hmaps'⟩ := h.page hother
      refine ⟨hq, ?_, hmaps'⟩
      rw [Heap.set_of_ne ?_, hwords]
      intro heq
      rw [heq] at hq
      exact hw (arch.injective (h.lt hother) (h.lt hview) (tree.injective hq hnode))
  · intro path p hlength hpath
    obtain ⟨w, other, hother, rfl⟩ := h.mapped hlength hpath
    by_cases hw : w = v
    · exact ⟨v, _, Function.update_self .., congrArg arch.path hw⟩
    · exact ⟨w, other, (Function.update_of_ne hw ..).trans hother, rfl⟩
  · intro w hlt hnone
    refine h.hole hlt ?_
    by_cases hw : w = v
    · rw [hw, Function.update_self] at hnone
      cases hnone
    · rwa [Function.update_of_ne hw] at hnone
  · intro w other hother
    by_cases hw : w = v
    · exact hw ▸ h.lt hview
    · rw [Function.update_of_ne hw] at hother
      exact h.lt hother

end Layout

/-! ### Walks -/

section Walks

variable [DecidableEq I]

namespace Layout

variable (h : Layout arch ram kept fixed tree root own view)
include h

theorem wp_walkFrom_lookup {path rest : List I} {t : Nat} (hnode : tree.node path = some t)
    (hlength : path.length + rest.length + 1 = arch.depth) {Q : Option Nat → Owned I W → Prop}
    (hpost : Q (tree.node (path ++ rest)) own) :
    (walkFrom arch false rest t).wp (rule ram fails) own Q := by
  induction rest generalizing path t with
  | nil =>
      rw [List.append_nil, hnode] at hpost
      exact hpost
  | cons i rest ih =>
      simp only [List.length_cons] at hlength
      have hpath : path.length + 1 < arch.depth := by omega
      unfold walkFrom
      rw [Program.wp_bind, wp_read]
      refine ⟨_, h.holds.table hnode (by omega), ?_⟩
      rw [entry_above hpath]
      rw [List.append_cons] at hpost
      cases hnext : tree.node (path ++ [i]) with
      | none =>
          rw [tree.node_append_eq_none hnext] at hpost
          simp only [Option.elim_none, arch.isTable_zero, Bool.false_eq_true, if_false, if_true]
          exact hpost
      | some next =>
          have hlt := (h.ram_of_node hnext).lt
          simp only [Option.elim_some, arch.isTable_table next hlt, if_true,
            arch.page_table next hlt]
          exact ih hnext (by simp; omega) hpost

theorem wp_walk_lookup (v : Nat) {Q : Option Nat → Owned I W → Prop}
    (hpost : Q (tree.node (arch.upper v)) own) :
    (walkFrom arch false (arch.upper v) root).wp (rule ram fails) own Q := by
  apply h.wp_walkFrom_lookup h.root
  · rw [List.length_nil, Nat.zero_add]
    exact arch.length_upper v
  · exact hpost

theorem walkFrom_alloc {path rest : List I} {t : Nat} (hnode : tree.node path = some t)
    (hlength : path.length + rest.length + 1 = arch.depth) :
    (walkFrom arch true rest t).wp (rule ram fails) own fun result own' =>
      ∃ tree', Layout arch ram kept fixed tree' root own' view ∧
        ((result = none ∧ fails true) ∨ ∃ t', result = some t' ∧ tree'.node (path ++ rest) = some t') := by
  induction rest generalizing path t tree own with
  | nil =>
      refine ⟨tree, h, Or.inr ⟨t, rfl, ?_⟩⟩
      rw [List.append_nil, hnode]
  | cons i rest ih =>
      simp only [List.length_cons] at hlength
      have hpath : path.length + 1 < arch.depth := by omega
      have hlength' : (path ++ [i]).length + rest.length + 1 = arch.depth := by
        simp only [List.length_append, List.length_cons, List.length_nil]
        omega
      unfold walkFrom
      rw [Program.wp_bind, wp_read, List.append_cons]
      refine ⟨_, h.holds.table hnode (by omega), ?_⟩
      rw [entry_above hpath]
      cases hnext : tree.node (path ++ [i]) with
      | some next =>
          have hlt := (h.ram_of_node hnext).lt
          simp only [Option.elim_some, arch.isTable_table next hlt, if_true,
            arch.page_table next hlt]
          exact ih h hnext hlength'
      | none =>
          simp only [Option.elim_none, arch.isTable_zero, Bool.false_eq_true, if_false]
          rw [if_neg (by decide), Program.wp_bind, wp_kalloc]
          refine ⟨fun hfails => ⟨tree, h, Or.inl ⟨rfl, ?_⟩⟩, fun new words hram hnew => ?_⟩
          · exact hfails
          obtain ⟨tree', h', hnode', -⟩ := h.addTable hnode hpath hnext hnew hram
          have hne : t ≠ new := by
            rintro rfl
            exact h.holds.fresh hnew path hnode
          simp only [Option.elim_some, Program.wp_bind, wp_fill, wp_write]
          refine ⟨words, Heap.set_self, tree.entry path, ?_, ?_⟩
          · rw [Heap.set_of_ne hne, Heap.set_of_ne hne]
            exact h.holds.table hnode (by omega)
          · rw [Heap.set_set]
            exact ih h' hnode' hlength'

end Layout

theorem Space.walk_alloc (h : Space arch ram kept fixed root own view) (v : Nat) :
    (walkFrom arch true (arch.upper v) root).wp (rule ram fails) own fun result own' =>
      ∃ tree', Layout arch ram kept fixed tree' root own' view ∧
        ((result = none ∧ fails true) ∨ ∃ t, result = some t ∧ tree'.node (arch.upper v) = some t) := by
  obtain ⟨tree, htree⟩ := h
  apply htree.walkFrom_alloc htree.root
  rw [List.length_nil, Nat.zero_add]
  exact arch.length_upper v

end Walks

theorem Space.create [DecidableEq I] {p : Nat} (hram : ram.Has p) :
    Space arch ram (fun _ => False) (fun _ => arch.zero) p (Heap.single p fun _ => arch.zero) (fun _ => none) := by
  refine ⟨RadixTree.create arch.format I arch.depth p, RadixTree.create_node_nil,
    RadixTree.create_holds p, ?_, ?_, ?_, fun _ _ => rfl, ?_, False.elim⟩
  · intro q words hq
    by_cases hne : q = p
    · exact hne ▸ hram
    · rw [Heap.single, Heap.set_of_ne hne] at hq
      cases hq
  · intro v page hpage
    cases hpage
  · intro path q hlength hnode
    have hpos := arch.length_upper 0
    rw [RadixTree.create_node_eq_none] at hnode
    · cases hnode
    · rintro rfl
      rw [← hlength, List.length_nil] at hpos
      omega
  · intro v page hpage
    cases hpage

theorem Layout.forget (h : Layout arch ram kept fixed tree root own view) :
    Layout arch ram (fun _ => False) fixed tree root own view := { h with table := False.elim }

theorem Space.forget (h : Space arch ram kept fixed root own view) :
    Space arch ram (fun _ => False) fixed root own view := by
  obtain ⟨tree, htree⟩ := h
  exact ⟨tree, htree.forget⟩

theorem Space.lt (h : Space arch ram kept fixed root own view) {v : Nat} {page : Page I W P}
    (hpage : view v = some page) : v < arch.limit := by
  obtain ⟨tree, htree⟩ := h
  exact htree.lt hpage

/-! ### How many pages there are -/

theorem Space.card_le (h : Space arch ram kept fixed root own view) (mapped : Finset Nat)
    (hmapped : ∀ v ∈ mapped, view v ≠ none) : mapped.card ≤ 65536 := by
  obtain ⟨tree, htree⟩ := h
  have hpage : ∀ v ∈ mapped, ∃ p, tree.node (arch.path v) = some p ∧ v < arch.limit := by
    intro v hv
    obtain ⟨page, hpage⟩ := Option.ne_none_iff_exists'.mp (hmapped v hv)
    exact ⟨page.frame, (htree.page hpage).1, htree.lt hpage⟩
  have hle : mapped.card ≤ (Finset.Ico ram.first ram.top).card := by
    refine Finset.card_le_card_of_injOn (fun v => (tree.node (arch.path v)).getD 0) ?_ ?_
    · intro v hv
      obtain ⟨p, hnode, -⟩ := hpage v hv
      simp only [hnode, Option.getD_some, Finset.coe_Ico]
      exact htree.ram_of_node hnode
    · intro v hv w hw heq
      obtain ⟨p, hp, hlt⟩ := hpage v hv
      obtain ⟨q, hq, hlt'⟩ := hpage w hw
      simp only [hp, hq, Option.getD_some] at heq
      subst heq
      exact arch.injective hlt hlt' (tree.injective hp hq)
  rw [Nat.card_Ico] at hle
  exact hle.trans ram.size_le

/-! ### What the words determine -/

theorem Layout.node_eq {kept' : Nat → Prop} {fixed' : Nat → W} {tree' : arch.Tree} {view' : View I W P}
    (h : Layout arch ram kept fixed tree root own view) (h' : Layout arch ram kept' fixed' tree' root own view')
    {path : List I} (hpath : path.length < arch.depth) : tree.node path = tree'.node path := by
  induction path using List.reverseRecOn with
  | nil => rw [h.root, h'.root]
  | append_singleton path i ih =>
      rw [List.length_append, List.length_singleton] at hpath
      have hparent := ih (by omega)
      cases hnode : tree.node path with
      | none =>
          rw [tree.node_append_eq_none hnode, tree'.node_append_eq_none (hparent.symm.trans hnode)]
      | some p =>
          have hwords := h.holds.table hnode (by omega)
          rw [h'.holds.table (hparent.symm.trans hnode) (by omega)] at hwords
          have hentry := congrFun (Option.some.inj hwords) i
          rw [entry_above hpath, entry_above hpath] at hentry
          cases hchild : tree.node (path ++ [i]) with
          | none =>
              cases hchild' : tree'.node (path ++ [i]) with
              | none => rfl
              | some q =>
                  have htable := arch.isTable_table q (h'.ram_of_node hchild').lt
                  rw [hchild, hchild', Option.elim_some, Option.elim_none] at hentry
                  rw [hentry, arch.isTable_zero] at htable
                  cases htable
          | some q =>
              cases hchild' : tree'.node (path ++ [i]) with
              | none =>
                  have htable := arch.isTable_table q (h.ram_of_node hchild).lt
                  rw [hchild, hchild', Option.elim_some, Option.elim_none] at hentry
                  rw [← hentry, arch.isTable_zero] at htable
                  cases htable
              | some q' =>
                  rw [hchild, hchild', Option.elim_some, Option.elim_some] at hentry
                  rw [← arch.page_table q (h.ram_of_node hchild).lt, ← hentry,
                    arch.page_table q' (h'.ram_of_node hchild').lt]

theorem Layout.page_eq {kept' : Nat → Prop} {tree' : arch.Tree} {view' : View I W P}
    (h : Layout arch ram kept fixed tree root own view) (h' : Layout arch ram kept' fixed tree' root own view')
    (hfixed : ∀ v, arch.isMapped (fixed v) = false) {v : Nat} {page : Page I W P} (hpage : view v = some page) :
    view' v = some page := by
  obtain ⟨hframe, hwords, hmaps⟩ := h.page hpage
  have hlength := arch.length_upper v
  cases hnode : tree.node (arch.upper v) with
  | none =>
      rw [h.hole_of_table_eq_none hnode] at hpage
      cases hpage
  | some t =>
      have hnode' := (h.node_eq h' (by omega)).symm.trans hnode
      obtain ⟨htable, hleaf⟩ := h.slot hnode
      obtain ⟨htable', hleaf'⟩ := h'.slot hnode'
      have hsame : tree.leaf (arch.path v) = tree'.leaf (arch.path v) := by
        rw [← hleaf, ← hleaf', Option.some.inj (htable.symm.trans htable')]
      cases hview : view' v with
      | none =>
          have hmapped := hmaps.isMapped
          rw [hsame, h'.hole (h.lt hpage) hview, hfixed] at hmapped
          cases hmapped
      | some page' =>
          obtain ⟨-, hwords', hmaps'⟩ := h'.page hview
          have hframe' : page'.frame = page.frame := by rw [← hmaps'.page, ← hsame, hmaps.page]
          have hflags : page'.flags = page.flags := by rw [← hmaps'.flags, ← hsame, hmaps.flags]
          rw [hframe', hwords] at hwords'
          obtain ⟨frame, flags, words⟩ := page
          obtain ⟨frame', flags', words'⟩ := page'
          dsimp only at hframe' hflags hwords'
          rw [hframe', hflags, Option.some.inj hwords']

theorem Space.view_eq {kept' : Nat → Prop} {view' : View I W P} (h : Space arch ram kept fixed root own view)
    (h' : Space arch ram kept' fixed root own view') (hfixed : ∀ v, arch.isMapped (fixed v) = false) : view = view' := by
  obtain ⟨tree, htree⟩ := h
  obtain ⟨tree', htree'⟩ := h'
  funext v
  cases hview : view v with
  | none =>
      cases hview' : view' v with
      | none => rfl
      | some page => exact hview.symm.trans (htree'.page_eq htree hfixed hview')
  | some page => exact (htree.page_eq htree' hfixed hview).symm

/-! ### Which pages are free -/

def IsTable (tree : arch.Tree) (p : Nat) : Prop :=
  ∃ path, path.length < arch.depth ∧ tree.node path = some p

def FreeButTables (tree : arch.Tree) (before after : Memory I W) : Prop :=
  (∀ p ∈ after.freelist, p ∈ before.freelist) ∧ ∀ p ∈ before.freelist, p ∈ after.freelist ∨ IsTable tree p

theorem Layout.keep (h : Layout arch ram kept fixed tree root own view) :
    Space arch ram (IsTable tree) fixed root own view := ⟨tree, { h with table := id }⟩

theorem Layout.freeButTables {pool : Nat → Prop} {others : Nat → I → W} {memory memory' : Memory I W}
    {own' : Owned I W} {tree' : arch.Tree} (h : Layout arch ram kept fixed tree root own view)
    (h' : Layout arch ram (IsTable tree) fixed tree' root own' view)
    (howns : Owns ram pool others memory own) (howns' : Owns ram pool others memory' own') :
    FreeButTables tree' memory memory' := by
  refine ⟨fun p hp => ?_, fun p hp => ?_⟩
  · obtain ⟨hpool, hnone⟩ := howns'.mem_freelist.mp hp
    refine howns.mem_freelist.mpr ⟨hpool, ?_⟩
    by_contra hsome
    obtain ⟨words, hwords⟩ := Option.ne_none_iff_exists'.mp hsome
    obtain ⟨path, hnode⟩ := h.holds.node hwords
    by_cases hlength : path.length < arch.depth
    · obtain ⟨path', -, hnode'⟩ := h'.table ⟨path, hlength, hnode⟩
      exact h'.holds.fresh hnone path' hnode'
    · have hfull := Nat.le_antisymm (tree.length_le hnode) (Nat.not_lt.mp hlength)
      obtain ⟨v, page, hpage, rfl⟩ := h.mapped hfull hnode
      obtain rfl := Option.some.inj (hnode.symm.trans (h.page hpage).1)
      rw [(h'.page hpage).2.1] at hnone
      cases hnone
  · obtain ⟨hpool, hnone⟩ := howns.mem_freelist.mp hp
    by_cases hfree : own' p = none
    · exact Or.inl (howns'.mem_freelist.mpr ⟨hpool, hfree⟩)
    · obtain ⟨words, hwords⟩ := Option.ne_none_iff_exists'.mp hfree
      obtain ⟨path, hnode⟩ := h'.holds.node hwords
      refine Or.inr ⟨path, Nat.lt_of_le_of_ne (tree'.length_le hnode) fun hlength => ?_, hnode⟩
      obtain ⟨v, page, hpage, rfl⟩ := h'.mapped hlength hnode
      obtain rfl := Option.some.inj (hnode.symm.trans (h'.page hpage).1)
      rw [(h.page hpage).2.1] at hnone
      cases hnone

end Layout

end Xv6.Vm
