import Xv6.Vm.PageTable

/-!
# Freeing page tables

`freewalk` frees the tables of an address space from which every page has been unmapped. It goes down the
tree, so each call owns the part of the tree below its table and leaves nothing of it.
-/

namespace Xv6.Vm

variable {I W P : Type} [DecidableEq I] (arch : Arch I W P) (ram : Ram) (isChild : W → Bool)
  (other : W → Code I W Unit) (indices : List I)

/-- What `freewalk` does with an entry. `child` is the call for a lower-level table, and `other` what is
done with an entry that names none. -/
def freeEntry (child : Nat → Code I W Unit) (pagetable : Nat) (i : I) : Code I W Unit := do
  let pte ← read pagetable i
  if isChild pte then do
    child (arch.page pte)
    write pagetable i arch.zero
  else other pte

/-- The loop of `freewalk` over the entries of a table. -/
def freeEntries (child : Nat → Code I W Unit) (pagetable : Nat) : List I → Code I W Unit
  | [] => pure ()
  | i :: rest => do
      freeEntry arch isChild other child pagetable i
      freeEntries child pagetable rest

/-- Recursively free page-table pages. `depth` bounds the recursion, which the source leaves to the tree:
to run out of it is a panic. -/
def freewalk : (depth pagetable : Nat) → Code I W Unit
  | 0, _ => panic "freewalk"
  | depth + 1, pagetable => do
      freeEntries arch isChild other (freewalk depth) pagetable indices
      kfree ram pagetable

section Spec

variable {arch ram isChild other indices} {fails : Bool → Prop} {tree : arch.Tree} {root : Nat}
  {own : Owned I W} {path : List I} {t : Nat} {i : I} {todo : List I}

def Below (tree : arch.Tree) (path : List I) (p : Nat) : Prop :=
  ∃ rest, tree.node (path ++ rest) = some p

omit [DecidableEq I] in
theorem Below.step {p : Nat} (h : Below tree (path ++ [i]) p) :
    ∃ rest, tree.node (path ++ i :: rest) = some p := by
  obtain ⟨rest, hrest⟩ := h
  rw [← List.append_cons] at hrest
  exact ⟨rest, hrest⟩

structure Bare (ram : Ram) (tree : arch.Tree) (own : Owned I W) : Prop where
  holds : tree.Holds own
  ram : ∀ {p words}, own p = some words → ram.Has p
  node : ∀ {path}, path.length = arch.depth → tree.node path = none
  leaf : ∀ {path}, path.length = arch.depth → tree.leaf path = arch.zero

def Arch.Full (arch : Arch I W P) : Prop :=
  ∀ path : List I, path.length = arch.depth → ∃ v < arch.limit, arch.path v = path

omit [DecidableEq I] in
theorem Layout.bare {kept : Nat → Prop} {fixed : Nat → W} {view : View I W P} (h : Layout arch ram kept fixed tree root own view)
    (hfull : arch.Full) (hview : ∀ v, view v = none) (hfixed : ∀ v < arch.limit, fixed v = arch.zero) :
    Bare ram tree own := by
  refine ⟨h.holds, h.ram, fun {path} hlength => ?_, fun {path} hlength => ?_⟩
  · obtain ⟨v, hv, rfl⟩ := hfull path hlength
    exact h.node_of_hole hv (hview v)
  · obtain ⟨v, hv, rfl⟩ := hfull path hlength
    exact (h.hole hv (hview v)).trans (hfixed v hv)

def Left (tree : arch.Tree) (own : Owned I W) (path : List I) (t : Nat) (todo : List I)
    (heap : Owned I W) : Prop :=
  ∃ words, heap = (own.only fun p => ∃ i ∈ todo, Below tree (path ++ [i]) p).set t words ∧
    ∀ i ∈ todo, words i = tree.entry path i

omit [DecidableEq I] in
theorem ne_of_below (hnode : tree.node path = some t) {p : Nat} (hbelow : Below tree (path ++ [i]) p) :
    p ≠ t := by
  rintro rfl
  obtain ⟨rest, hrest⟩ := hbelow.step
  have hlength := congrArg List.length (tree.injective hrest hnode)
  simp at hlength

omit [DecidableEq I] in
/-- What is below different entries is apart. -/
theorem eq_of_below {j : I} {p : Nat} (hi : Below tree (path ++ [i]) p)
    (hj : Below tree (path ++ [j]) p) : i = j := by
  obtain ⟨rest, hrest⟩ := hi.step
  obtain ⟨rest', hrest'⟩ := hj.step
  exact List.head_eq_of_cons_eq (List.append_cancel_left (tree.injective hrest hrest'))

namespace Left

variable {heap : Owned I W}

omit [DecidableEq I] in
/-- Nothing is below an entry without a table. -/
theorem of_none (h : Left tree own path t (i :: todo) heap) (hnode : tree.node (path ++ [i]) = none) :
    Left tree own path t todo heap := by
  obtain ⟨words, rfl, hwords⟩ := h
  refine ⟨words, ?_, fun j hj => hwords j (List.mem_cons_of_mem i hj)⟩
  refine congrArg (Heap.set · t words) (Heap.only_congr fun p => ?_)
  simp only [List.mem_cons, exists_eq_or_imp]
  apply or_iff_right
  intro hbelow
  obtain ⟨rest, hrest⟩ := hbelow
  rw [tree.node_append_eq_none hnode] at hrest
  cases hrest

omit [DecidableEq I] in
/-- What is below the next entry, and the rest. -/
theorem split (h : Left tree own path t (i :: todo) heap) (hnode : tree.node path = some t)
    (hnew : i ∉ todo) :
    ∃ rest, heap = (own.only (Below tree (path ++ [i]))).union rest ∧
      (own.only (Below tree (path ++ [i]))).Disjoint rest ∧ Left tree own path t todo rest := by
  obtain ⟨words, rfl, hwords⟩ := h
  have ht : own.only (Below tree (path ++ [i])) t = none :=
    Heap.only_of_neg fun hself => ne_of_below hnode hself rfl
  have hapart : ∀ p, Below tree (path ++ [i]) p → ¬∃ j ∈ todo, Below tree (path ++ [j]) p := by
    intro p hp hex
    obtain ⟨j, hj, hp'⟩ := hex
    exact hnew (eq_of_below hp hp' ▸ hj)
  have hdisjoint : ((own.only fun p => ∃ j ∈ todo, Below tree (path ++ [j]) p).set t words).Disjoint
      (own.only (Below tree (path ++ [i]))) := (Heap.disjoint_only hapart).symm.set ht
  refine ⟨_, ?_, hdisjoint.symm, words, rfl, fun j hj => hwords j (List.mem_cons_of_mem i hj)⟩
  rw [hdisjoint.symm.union_comm, Heap.set_union, ← Heap.only_or]
  refine congrArg (Heap.set · t words) (Heap.only_congr fun p => ?_)
  simp only [List.mem_cons, exists_eq_or_imp]
  exact or_comm

end Left

namespace Bare

variable (h : Bare ram tree own)
include h

omit [DecidableEq I] in
theorem entry (i : I) :
    tree.entry path i = (tree.node (path ++ [i])).elim arch.zero arch.table := by
  unfold RadixTree.entry
  by_cases hbottom : path.length + 1 = arch.depth
  · have hlength : (path ++ [i]).length = arch.depth := by
      rw [List.length_append, List.length_singleton]
      exact hbottom
    rw [if_pos hbottom, h.leaf hlength, h.node hlength]
    rfl
  · rw [if_neg hbottom]

omit [DecidableEq I] in
/-- A table and what is below it. -/
theorem left (hnode : tree.node path = some t) (hpath : path.length < arch.depth)
    (hall : ∀ i, i ∈ indices) : Left tree own path t indices (own.only (Below tree path)) := by
  refine ⟨tree.entry path, ?_, fun _ _ => rfl⟩
  funext p
  by_cases hp : p = t
  · subst hp
    rw [Heap.set_self, Heap.only_of_pos ⟨[], by rw [List.append_nil, hnode]⟩]
    exact h.holds.table hnode hpath
  · rw [Heap.set_of_ne hp]
    by_cases hbelow : Below tree path p
    · obtain ⟨rest, hrest⟩ := hbelow
      rw [Heap.only_of_pos ⟨rest, hrest⟩]
      cases rest with
      | nil =>
          rw [List.append_nil, hnode] at hrest
          exact absurd (Option.some.inj hrest).symm hp
      | cons i rest =>
          rw [List.append_cons] at hrest
          exact (Heap.only_of_pos ⟨i, hall i, rest, hrest⟩).symm
    · rw [Heap.only_of_neg hbelow]
      refine (Heap.only_of_neg fun hex => hbelow ?_).symm
      obtain ⟨i, -, hi⟩ := hex
      obtain ⟨rest, hrest⟩ := hi.step
      exact ⟨i :: rest, hrest⟩

theorem freeEntries_spec {child : Nat → Code I W Unit} (hnode : tree.node path = some t)
    (hzero : isChild arch.zero = false) (htable : ∀ p < 1048576, isChild (arch.table p) = true)
    (hother : other arch.zero = pure ())
    (hchild : ∀ {i c}, tree.node (path ++ [i]) = some c →
      (child c).wp (rule ram fails) (own.only (Below tree (path ++ [i]))) fun _ own' =>
        own' = Heap.empty)
    {heap : Owned I W} (hnodup : todo.Nodup) (hleft : Left tree own path t todo heap) :
    (freeEntries arch isChild other child t todo).wp (rule ram fails) heap fun _ own' =>
      Left tree own path t [] own' := by
  induction todo generalizing heap with
  | nil => exact hleft
  | cons i rest ih =>
      obtain ⟨hnew, hnodup⟩ := List.nodup_cons.mp hnodup
      obtain ⟨words, hheap, hwords⟩ := hleft
      have hpte : words i = (tree.node (path ++ [i])).elim arch.zero arch.table :=
        (hwords i List.mem_cons_self).trans (h.entry i)
      rw [freeEntries, Program.wp_bind, freeEntry, Program.wp_bind, wp_read]
      refine ⟨words, by rw [hheap, Heap.set_self], ?_⟩
      rw [hpte]
      cases hbelow : tree.node (path ++ [i]) with
      | none =>
          rw [Option.elim_none, hzero, if_neg Bool.false_ne_true, hother]
          exact ih hnodup (Left.of_none ⟨words, hheap, hwords⟩ hbelow)
      | some c =>
          obtain ⟨cwords, hcwords⟩ := h.holds.page hbelow
          have hlt := (h.ram hcwords).lt
          obtain ⟨rest', hsplit, hdisjoint, words', rfl, hwords'⟩ :=
            Left.split ⟨words, hheap, hwords⟩ hnode hnew
          rw [Option.elim_some, htable c hlt, if_pos rfl, arch.page_table c hlt, Program.wp_bind, hsplit]
          apply Program.wp_mono rule_monotone _
            (Program.wp_frame rule_monotone rule_local hdisjoint (hchild hbelow))
          intro _ own' hframe
          obtain ⟨_, rfl, -, rfl⟩ := hframe
          rw [Heap.empty_union, wp_write]
          refine ⟨words', Heap.set_self, ?_⟩
          rw [Heap.set_set]
          refine ih hnodup ⟨_, rfl, fun j hj => ?_⟩
          have hne : j ≠ i := fun heq => hnew (heq ▸ hj)
          rw [Function.update_of_ne hne]
          exact hwords' j hj

theorem freewalk_spec {depth : Nat} (hnode : tree.node path = some t)
    (hdepth : path.length + depth = arch.depth) (hall : ∀ i, i ∈ indices) (hnodup : indices.Nodup)
    (hzero : isChild arch.zero = false) (htable : ∀ p < 1048576, isChild (arch.table p) = true)
    (hother : other arch.zero = pure ()) :
    (freewalk arch ram isChild other indices depth t).wp (rule ram fails)
      (own.only (Below tree path)) fun _ own' => own' = Heap.empty := by
  induction depth generalizing path t with
  | zero =>
      rw [h.node hdepth] at hnode
      cases hnode
  | succ depth ih =>
      obtain ⟨words, hwords⟩ := h.holds.page hnode
      have hchild : ∀ {i c}, tree.node (path ++ [i]) = some c →
          (freewalk arch ram isChild other indices depth c).wp (rule ram fails)
            (own.only (Below tree (path ++ [i]))) fun _ own' => own' = Heap.empty := by
        intro i c hc
        apply ih hc
        rw [List.length_append, List.length_singleton]
        omega
      have hloop := h.freeEntries_spec hnode hzero htable hother hchild hnodup
        (h.left hnode (by omega) hall)
      rw [freewalk, Program.wp_bind]
      apply Program.wp_mono rule_monotone _ hloop
      intro _ own' hleft
      obtain ⟨words, rfl, -⟩ := hleft
      rw [wp_kfree (h.ram hwords)]
      refine ⟨⟨words, Heap.set_self⟩, ?_⟩
      funext p
      by_cases hp : p = t
      · rw [hp, Heap.erase_self]
        rfl
      · rw [Heap.erase_of_ne hp, Heap.set_of_ne hp]
        apply Heap.only_of_neg
        intro hex
        obtain ⟨i, hi, -⟩ := hex
        cases hi

end Bare

theorem Space.freewalk {kept : Nat → Prop} {fixed : Nat → W} {view : View I W P} (h : Space arch ram kept fixed root own view)
    (hfull : arch.Full) (hview : ∀ v, view v = none) (hfixed : ∀ v < arch.limit, fixed v = arch.zero)
    (hall : ∀ i, i ∈ indices) (hnodup : indices.Nodup) (hzero : isChild arch.zero = false)
    (htable : ∀ p < 1048576, isChild (arch.table p) = true) (hother : other arch.zero = pure ()) :
    (freewalk arch ram isChild other indices arch.depth root).wp (rule ram fails) own fun _ own' =>
      own' = Heap.empty := by
  obtain ⟨tree, htree⟩ := h
  have hbare := htree.bare hfull hview hfixed
  have hown : own.only (Below tree []) = own := by
    funext p
    by_cases hbelow : Below tree [] p
    · exact Heap.only_of_pos hbelow
    · rw [Heap.only_of_neg hbelow]
      cases hp : own p with
      | none => rfl
      | some words => exact absurd (hbare.holds.node hp) hbelow
  have hfree : (Vm.freewalk arch ram isChild other indices arch.depth root).wp (rule ram fails)
      (own.only (Below tree [])) fun _ own' => own' = Heap.empty :=
    hbare.freewalk_spec htree.root (Nat.zero_add _) hall hnodup hzero htable hother
  rwa [hown] at hfree

end Spec

end Xv6.Vm
