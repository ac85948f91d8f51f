import Mathlib.Data.List.Induction
import Xv6.Lib.Heap

/-!
# Radix trees in memory

A tree of tables of a fixed depth: an entry of a table that is not at the bottom is empty or names a
table one level down, and an entry at the bottom is a leaf, which may own a page. Nodes are named by
the path of indices that leads to them. `Holds` says that a heap is exactly the pages of a tree, with
the tables in them.
-/

structure EntryFormat (K W : Type) where
  zero : W
  table : K → W

/-- A tree: the page at each path and the leaf entries. A page is at one path only. -/
structure RadixTree {K W : Type} (format : EntryFormat K W) (I : Type) (depth : Nat) where
  node : List I → Option K
  leaf : List I → W
  length_le : ∀ {path key}, node path = some key → path.length ≤ depth
  parent : ∀ {path i key}, node (path ++ [i]) = some key → ∃ key', node path = some key'
  injective : ∀ {path path' key}, node path = some key → node path' = some key → path = path'
  leaf_zero : ∀ {path}, path.length < depth → node path = none →
    ∀ i, leaf (path ++ [i]) = format.zero

namespace RadixTree

variable {K W I : Type} {format : EntryFormat K W} {depth : Nat}

def entry (tree : RadixTree format I depth) (path : List I) (i : I) : W :=
  if path.length + 1 = depth then tree.leaf (path ++ [i])
  else (tree.node (path ++ [i])).elim format.zero format.table

/-- The heap is exactly the pages of the tree. -/
structure Holds (tree : RadixTree format I depth) (heap : Heap K (I → W)) : Prop where
  table : ∀ {path key}, tree.node path = some key → path.length < depth →
    heap key = some (tree.entry path)
  page : ∀ {path key}, tree.node path = some key → ∃ words, heap key = some words
  node : ∀ {key words}, heap key = some words → ∃ path, tree.node path = some key

theorem node_of_append (tree : RadixTree format I depth) {path rest : List I} {key : K}
    (h : tree.node (path ++ rest) = some key) : ∃ key', tree.node path = some key' := by
  induction rest using List.reverseRecOn generalizing key with
  | nil => exact ⟨key, by simpa using h⟩
  | append_singleton rest i ih =>
      rw [← List.append_assoc] at h
      obtain ⟨key', hkey⟩ := tree.parent h
      exact ih hkey

theorem node_append_eq_none (tree : RadixTree format I depth) {path : List I}
    (h : tree.node path = none) (rest : List I) : tree.node (path ++ rest) = none := by
  rw [Option.eq_none_iff_forall_ne_some]
  intro key hkey
  obtain ⟨key', hnode⟩ := tree.node_of_append hkey
  rw [h] at hnode
  cases hnode

namespace Holds

variable {tree : RadixTree format I depth} {heap : Heap K (I → W)}

theorem fresh (h : tree.Holds heap) {key : K} (hnone : heap key = none) (path : List I) :
    tree.node path ≠ some key := by
  intro hnode
  obtain ⟨words, hwords⟩ := h.page hnode
  rw [hnone] at hwords
  cases hwords

end Holds

/-! ### A tree with one table -/

section Create

variable [DecidableEq I]

/-- An empty table, and nothing below it. -/
def create (format : EntryFormat K W) (I : Type) [DecidableEq I] (depth : Nat) (root : K) :
    RadixTree format I depth where
  node path := if path = [] then some root else none
  leaf _ := format.zero
  length_le := by
    intro path key h
    split at h
    next hpath => simp [hpath]
    next => cases h
  parent := by
    intro path i key h
    rw [if_neg (by simp)] at h
    cases h
  injective := by
    intro path path' key h h'
    split at h
    next hpath =>
      split at h'
      next hpath' => rw [hpath, hpath']
      next => cases h'
    next => cases h
  leaf_zero := fun _ _ _ => rfl

theorem create_node_nil {root : K} : (create format I depth root).node [] = some root := by
  simp [create]

theorem create_node_eq_none {root : K} {path : List I} (hne : path ≠ []) :
    (create format I depth root).node path = none := if_neg hne

theorem create_holds [DecidableEq K] (root : K) :
    (create format I depth root).Holds (Heap.single root fun _ => format.zero) where
  table := by
    intro path key h hlt
    by_cases hpath : path = []
    · subst hpath
      obtain rfl : root = key := by simpa [create] using h
      have hentry : (create format I depth root).entry [] = fun _ => format.zero := by
        funext i
        unfold entry
        split
        · rfl
        · rw [create_node_eq_none (by simp)]
          rfl
      rw [hentry]
      exact Heap.set_self
    · rw [create_node_eq_none hpath] at h
      cases h
  page := by
    intro path key h
    by_cases hpath : path = []
    · subst hpath
      obtain rfl : root = key := by simpa [create] using h
      exact ⟨_, Heap.set_self⟩
    · rw [create_node_eq_none hpath] at h
      cases h
  node := by
    intro key words h
    by_cases hkey : key = root
    · subst hkey
      exact ⟨[], create_node_nil⟩
    · rw [Heap.single, Heap.set_of_ne hkey] at h
      cases h

end Create

/-! ### Changes -/

section Change

variable [DecidableEq I] (tree : RadixTree format I depth) {path : List I} {i : I} {key : K}

/-- The tree with a table more, where an entry was empty. -/
def addTable (path : List I) (i : I) (key : K) (hpath : ∃ parent, tree.node path = some parent)
    (hlength : path.length + 1 < depth) (hfresh : ∀ other, tree.node other ≠ some key) :
    RadixTree format I depth where
  node := Function.update tree.node (path ++ [i]) (some key)
  leaf := tree.leaf
  length_le := by
    intro other key' h
    by_cases hother : other = path ++ [i]
    · subst hother
      simp
      omega
    · rw [Function.update_of_ne hother] at h
      exact tree.length_le h
  parent := by
    intro other j key' h
    by_cases hself : other = path ++ [i]
    · exact ⟨key, by rw [hself, Function.update_self]⟩
    · rw [Function.update_of_ne hself]
      by_cases hother : other ++ [j] = path ++ [i]
      · rw [(List.append_inj' hother rfl).1]
        exact hpath
      · rw [Function.update_of_ne hother] at h
        exact tree.parent h
  injective := by
    intro other other' key' h h'
    by_cases hother : other = path ++ [i]
    · by_cases hother' : other' = path ++ [i]
      · rw [hother, hother']
      · rw [hother, Function.update_self] at h
        rw [Function.update_of_ne hother', ← h] at h'
        exact absurd h' (hfresh other')
    · by_cases hother' : other' = path ++ [i]
      · rw [hother', Function.update_self] at h'
        rw [Function.update_of_ne hother, ← h'] at h
        exact absurd h (hfresh other)
      · rw [Function.update_of_ne hother] at h
        rw [Function.update_of_ne hother'] at h'
        exact tree.injective h h'
  leaf_zero := by
    intro other hlt h
    by_cases hother : other = path ++ [i]
    · rw [hother, Function.update_self] at h
      cases h
    · rw [Function.update_of_ne hother] at h
      exact tree.leaf_zero hlt h

/-- The tree with a leaf entry changed, and the page the leaf owns. -/
def setLeaf (path : List I) (i : I) (page : Option K) (word : W)
    (hpath : ∃ parent, tree.node path = some parent) (hlength : path.length + 1 = depth)
    (hfresh : ∀ key, page = some key → ∀ other, tree.node other = some key → other = path ++ [i]) :
    RadixTree format I depth where
  node := Function.update tree.node (path ++ [i]) page
  leaf := Function.update tree.leaf (path ++ [i]) word
  length_le := by
    intro other key h
    by_cases hother : other = path ++ [i]
    · subst hother
      simp
      omega
    · rw [Function.update_of_ne hother] at h
      exact tree.length_le h
  parent := by
    intro other j key h
    have hne : other ≠ path ++ [i] := by
      rintro rfl
      have hlong : path ++ [i] ++ [j] ≠ path ++ [i] := by simp
      rw [Function.update_of_ne hlong] at h
      have hle := tree.length_le h
      simp at hle
      omega
    rw [Function.update_of_ne hne]
    by_cases hother : other ++ [j] = path ++ [i]
    · rw [(List.append_inj' hother rfl).1]
      exact hpath
    · rw [Function.update_of_ne hother] at h
      exact tree.parent h
  injective := by
    intro other other' key h h'
    by_cases hother : other = path ++ [i]
    · by_cases hother' : other' = path ++ [i]
      · rw [hother, hother']
      · rw [hother, Function.update_self] at h
        rw [Function.update_of_ne hother'] at h'
        exact hother.trans (hfresh key h other' h').symm
    · by_cases hother' : other' = path ++ [i]
      · rw [hother', Function.update_self] at h'
        rw [Function.update_of_ne hother] at h
        exact (hfresh key h' other h).trans hother'.symm
      · rw [Function.update_of_ne hother] at h
        rw [Function.update_of_ne hother'] at h'
        exact tree.injective h h'
  leaf_zero := by
    intro other hlt h j
    by_cases hself : other = path ++ [i]
    · rw [hself] at hlt
      simp at hlt
      omega
    · rw [Function.update_of_ne hself] at h
      have hne : other ++ [j] ≠ path ++ [i] := by
        intro heq
        obtain ⟨parent, hparent⟩ := hpath
        rw [(List.append_inj' heq rfl).1, hparent] at h
        cases h
      rw [Function.update_of_ne hne]
      exact tree.leaf_zero hlt h j

variable {tree}

omit [DecidableEq I] in
/-- An entry of a table changes with the nodes below it only. -/
theorem entry_congr {tree' : RadixTree format I depth} {other : List I} {j : I}
    (hnode : tree'.node (other ++ [j]) = tree.node (other ++ [j]))
    (hleaf : tree'.leaf (other ++ [j]) = tree.leaf (other ++ [j])) :
    tree'.entry other j = tree.entry other j := by
  unfold entry
  rw [hnode, hleaf]

theorem addTable_node_self {hpath : ∃ parent, tree.node path = some parent}
    {hlength : path.length + 1 < depth} {hfresh : ∀ other, tree.node other ≠ some key} :
    (tree.addTable path i key hpath hlength hfresh).node (path ++ [i]) = some key :=
  Function.update_self ..

theorem addTable_node_of_ne {hpath : ∃ parent, tree.node path = some parent}
    {hlength : path.length + 1 < depth} {hfresh : ∀ other, tree.node other ≠ some key}
    {other : List I} (hne : other ≠ path ++ [i]) :
    (tree.addTable path i key hpath hlength hfresh).node other = tree.node other :=
  Function.update_of_ne hne ..

theorem setLeaf_node_self {page : Option K} {word : W}
    {hpath : ∃ parent, tree.node path = some parent} {hlength : path.length + 1 = depth}
    {hfresh : ∀ key, page = some key → ∀ other, tree.node other = some key → other = path ++ [i]} :
    (tree.setLeaf path i page word hpath hlength hfresh).node (path ++ [i]) = page :=
  Function.update_self ..

theorem setLeaf_node_of_ne {page : Option K} {word : W}
    {hpath : ∃ parent, tree.node path = some parent} {hlength : path.length + 1 = depth}
    {hfresh : ∀ key, page = some key → ∀ other, tree.node other = some key → other = path ++ [i]}
    {other : List I} (hne : other ≠ path ++ [i]) :
    (tree.setLeaf path i page word hpath hlength hfresh).node other = tree.node other :=
  Function.update_of_ne hne ..

theorem setLeaf_leaf_self {page : Option K} {word : W}
    {hpath : ∃ parent, tree.node path = some parent} {hlength : path.length + 1 = depth}
    {hfresh : ∀ key, page = some key → ∀ other, tree.node other = some key → other = path ++ [i]} :
    (tree.setLeaf path i page word hpath hlength hfresh).leaf (path ++ [i]) = word :=
  Function.update_self ..

theorem setLeaf_leaf_of_ne {page : Option K} {word : W}
    {hpath : ∃ parent, tree.node path = some parent} {hlength : path.length + 1 = depth}
    {hfresh : ∀ key, page = some key → ∀ other, tree.node other = some key → other = path ++ [i]}
    {other : List I} (hne : other ≠ path ++ [i]) :
    (tree.setLeaf path i page word hpath hlength hfresh).leaf other = tree.leaf other :=
  Function.update_of_ne hne ..

theorem addTable_entry_self {hpath : ∃ parent, tree.node path = some parent}
    {hlength : path.length + 1 < depth} {hfresh : ∀ other, tree.node other ≠ some key} :
    (tree.addTable path i key hpath hlength hfresh).entry path =
      Function.update (tree.entry path) i (format.table key) := by
  funext j
  by_cases hj : j = i
  · subst hj
    rw [Function.update_self, entry, if_neg (by omega)]
    rw [addTable_node_self]
    rfl
  · rw [Function.update_of_ne hj]
    exact entry_congr (addTable_node_of_ne (by simpa using hj)) rfl

theorem addTable_entry_of_ne {hpath : ∃ parent, tree.node path = some parent}
    {hlength : path.length + 1 < depth} {hfresh : ∀ other, tree.node other ≠ some key}
    {other : List I} (hne : other ≠ path) :
    (tree.addTable path i key hpath hlength hfresh).entry other = tree.entry other := by
  funext j
  refine entry_congr (addTable_node_of_ne ?_) rfl
  exact fun heq => hne (List.append_inj' heq rfl).1

theorem setLeaf_entry_self {page : Option K} {word : W}
    {hpath : ∃ parent, tree.node path = some parent} {hlength : path.length + 1 = depth}
    {hfresh : ∀ key, page = some key → ∀ other, tree.node other = some key → other = path ++ [i]} :
    (tree.setLeaf path i page word hpath hlength hfresh).entry path =
      Function.update (tree.entry path) i word := by
  funext j
  by_cases hj : j = i
  · subst hj
    rw [Function.update_self, entry, if_pos hlength]
    exact setLeaf_leaf_self
  · rw [Function.update_of_ne hj]
    have hne : path ++ [j] ≠ path ++ [i] := by simpa using hj
    exact entry_congr (setLeaf_node_of_ne hne) (setLeaf_leaf_of_ne hne)

theorem setLeaf_entry_of_ne {page : Option K} {word : W}
    {hpath : ∃ parent, tree.node path = some parent} {hlength : path.length + 1 = depth}
    {hfresh : ∀ key, page = some key → ∀ other, tree.node other = some key → other = path ++ [i]}
    {other : List I} (hne : other ≠ path) :
    (tree.setLeaf path i page word hpath hlength hfresh).entry other = tree.entry other := by
  funext j
  have hpaths : other ++ [j] ≠ path ++ [i] := fun heq => hne (List.append_inj' heq rfl).1
  exact entry_congr (setLeaf_node_of_ne hpaths) (setLeaf_leaf_of_ne hpaths)

namespace Holds

variable {heap heap' : Heap K (I → W)} {parent : K}

theorem addTable (h : tree.Holds heap) (hparent : tree.node path = some parent)
    (hlength : path.length + 1 < depth) (hnone : heap key = none)
    (hempty : tree.node (path ++ [i]) = none)
    (hkey : heap' key = some fun _ => format.zero)
    (hself : heap' parent = some (Function.update (tree.entry path) i (format.table key)))
    (hothers : ∀ other, other ≠ key → other ≠ parent → heap' other = heap other) :
    (tree.addTable path i key ⟨parent, hparent⟩ hlength (h.fresh hnone)).Holds heap' := by
  have hbelow : (tree.addTable path i key ⟨parent, hparent⟩ hlength (h.fresh hnone)).entry
      (path ++ [i]) = fun _ => format.zero := by
    funext j
    have hnode : (tree.addTable path i key ⟨parent, hparent⟩ hlength (h.fresh hnone)).node
        (path ++ [i] ++ [j]) = none := by
      have hne : path ++ [i] ++ [j] ≠ path ++ [i] := by simp
      exact (addTable_node_of_ne hne).trans (tree.node_append_eq_none hempty [j])
    unfold entry
    split
    · exact tree.leaf_zero (by simp; omega) hempty j
    · rw [hnode]
      rfl
  have hsome : ∀ {other key'}, tree.node other = some key' → key' ≠ key := by
    intro other key' hnode heq
    exact h.fresh hnone other (hnode.trans (congrArg some heq))
  refine ⟨fun {other key'} hnode hlt => ?_, fun {other key'} hnode => ?_, fun {key' words} hwords => ?_⟩
  · by_cases hother : other = path ++ [i]
    · subst hother
      have heq : key = key' := Option.some.inj (addTable_node_self.symm.trans hnode)
      rw [hbelow, ← heq]
      exact hkey
    · have hnode' : tree.node other = some key' := (addTable_node_of_ne hother).symm.trans hnode
      by_cases hpath : other = path
      · subst hpath
        obtain rfl := Option.some.inj (hparent.symm.trans hnode')
        rw [addTable_entry_self]
        exact hself
      · have hne : key' ≠ parent := by
          rintro rfl
          exact hpath (tree.injective hnode' hparent)
        rw [addTable_entry_of_ne hpath, hothers key' (hsome hnode') hne]
        exact h.table hnode' hlt
  · by_cases hother : other = path ++ [i]
    · subst hother
      have heq : key = key' := Option.some.inj (addTable_node_self.symm.trans hnode)
      exact ⟨_, heq ▸ hkey⟩
    · have hnode' : tree.node other = some key' := (addTable_node_of_ne hother).symm.trans hnode
      by_cases hne : key' = parent
      · exact ⟨_, hne ▸ hself⟩
      · rw [hothers key' (hsome hnode') hne]
        exact h.page hnode'
  · by_cases hne : key' = key
    · exact ⟨path ++ [i], addTable_node_self.trans (congrArg some hne.symm)⟩
    · have hold : ∃ other, tree.node other = some key' := by
        by_cases hpar : key' = parent
        · exact ⟨path, hpar ▸ hparent⟩
        · rw [hothers key' hne hpar] at hwords
          exact h.node hwords
      obtain ⟨other, hnode⟩ := hold
      refine ⟨other, (addTable_node_of_ne ?_).trans hnode⟩
      rintro rfl
      rw [hempty] at hnode
      cases hnode

theorem setLeaf (h : tree.Holds heap) (hparent : tree.node path = some parent)
    (hlength : path.length + 1 = depth) {page : Option K} {word : W}
    (hfresh : ∀ key, page = some key → ∀ other, tree.node other = some key → other = path ++ [i])
    (hself : heap' parent = some (Function.update (tree.entry path) i word))
    (hpage : ∀ key, page = some key → ∃ words, heap' key = some words)
    (hgone : ∀ key, tree.node (path ++ [i]) = some key → page ≠ some key → heap' key = none)
    (hothers : ∀ other, other ≠ parent → page ≠ some other →
      tree.node (path ++ [i]) ≠ some other → heap' other = heap other) :
    (tree.setLeaf path i page word ⟨parent, hparent⟩ hlength hfresh).Holds heap' := by
  have hlong : ∀ {other key'}, tree.node other = some key' → other.length < depth →
      tree.node (path ++ [i]) ≠ some key' := by
    intro other key' hnode hlt heq
    have hlen := congrArg List.length (tree.injective hnode heq)
    simp at hlen
    omega
  have hkept : ∀ {other key'}, tree.node other = some key' → other ≠ path ++ [i] →
      key' ≠ parent → heap' key' = heap key' := by
    intro other key' hnode hother hne
    refine hothers key' hne (fun heq => hother (hfresh key' heq other hnode)) fun heq => ?_
    exact hother (tree.injective hnode heq)
  refine ⟨fun {other key'} hnode hlt => ?_, fun {other key'} hnode => ?_, fun {key' words} hwords => ?_⟩
  · have hother : other ≠ path ++ [i] := by
      rintro rfl
      simp at hlt
      omega
    have hnode' : tree.node other = some key' := (setLeaf_node_of_ne hother).symm.trans hnode
    by_cases hpath : other = path
    · subst hpath
      obtain rfl := Option.some.inj (hparent.symm.trans hnode')
      rw [setLeaf_entry_self]
      exact hself
    · have hne : key' ≠ parent := by
        rintro rfl
        exact hpath (tree.injective hnode' hparent)
      rw [setLeaf_entry_of_ne hpath, hkept hnode' hother hne]
      exact h.table hnode' hlt
  · by_cases hother : other = path ++ [i]
    · subst hother
      exact hpage key' (setLeaf_node_self.symm.trans hnode)
    · have hnode' : tree.node other = some key' := (setLeaf_node_of_ne hother).symm.trans hnode
      by_cases hne : key' = parent
      · exact ⟨_, hne ▸ hself⟩
      · rw [hkept hnode' hother hne]
        exact h.page hnode'
  · by_cases hnew : page = some key'
    · exact ⟨path ++ [i], setLeaf_node_self.trans hnew⟩
    · by_cases hold : tree.node (path ++ [i]) = some key'
      · rw [hgone key' hold hnew] at hwords
        cases hwords
      · have hnode : ∃ other, tree.node other = some key' := by
          by_cases hpar : key' = parent
          · exact ⟨path, hpar ▸ hparent⟩
          · rw [hothers key' hpar hnew hold] at hwords
            exact h.node hwords
        obtain ⟨other, hnode⟩ := hnode
        refine ⟨other, (setLeaf_node_of_ne ?_).trans hnode⟩
        rintro rfl
        exact hold hnode

end Holds

end Change

end RadixTree
