import Mathlib.Data.Finset.Card
import Mathlib.Data.List.Infix
import Xv6.Vm.AddressSpace

/-!
# When there is no memory

`rule` leaves open where an allocation fails. Here it fails exactly where every page of the pool is
owned, so that the number of free pages says which pages can be mapped. A walk takes one page for
each table that is not there yet.
-/

namespace Xv6.Vm

variable {I W P : Type}

/-! ### The rule -/

def exactly (ram : Ram) (pool : Nat → Prop) : Rule (accesses I W) (Owned I W)
  | .kalloc _, own, Q => ((∀ p, pool p → own p ≠ none) → Q none own) ∧
      ∀ p words, pool p → own p = none → Q (some p) (own.set p words)
  | op, own, Q => rule ram (fun _ => False) op own Q

section Exactly

variable {ι α : Type} {ram : Ram} {pool : Nat → Prop} {own : Owned I W}

theorem exactly_monotone : (exactly ram pool : Rule (accesses I W) (Owned I W)).Monotone := by
  intro op own post post' hpost h
  cases op with
  | kalloc table =>
      exact ⟨fun hfull => hpost _ _ (h.1 hfull), fun p words hp hnone => hpost _ _ (h.2 p words hp hnone)⟩
  | kfree p => exact ⟨h.1, hpost _ _ h.2⟩
  | read p i =>
      obtain ⟨words, hwords, hnext⟩ := h
      exact ⟨words, hwords, hpost _ _ hnext⟩
  | modify p change =>
      obtain ⟨words, hwords, hnext⟩ := h
      exact ⟨words, hwords, hpost _ _ hnext⟩
  | copy dst src =>
      obtain ⟨hdst, words, hwords, hnext⟩ := h
      exact ⟨hdst, words, hwords, hpost _ _ hnext⟩
  | panic message => exact h

theorem exactly_kalloc (table : Bool) (Q : Option Nat → Owned I W → Prop) :
    (kalloc table).wp (exactly ram pool) own Q ↔ ((∀ p, pool p → own p ≠ none) → Q none own) ∧
      ∀ p words, pool p → own p = none → Q (some p) (own.set p words) := Iff.rfl

theorem exactly_read (p : Nat) (i : I) (Q : W → Owned I W → Prop) :
    (read p i).wp (exactly ram pool) own Q ↔ ∃ words, own p = some words ∧ Q (words i) own := Iff.rfl

theorem exactly_modify (p : Nat) (change : (I → W) → I → W) (Q : Unit → Owned I W → Prop) :
    (modify p change).wp (exactly ram pool) own Q ↔
      ∃ words, own p = some words ∧ Q () (own.set p (change words)) := Iff.rfl

theorem exactly_write [DecidableEq I] (p : Nat) (i : I) (word : W) (Q : Unit → Owned I W → Prop) :
    (write p i word).wp (exactly ram pool) own Q ↔
      ∃ words, own p = some words ∧ Q () (own.set p (Function.update words i word)) := Iff.rfl

theorem exactly_fill (p : Nat) (word : W) (Q : Unit → Owned I W → Prop) :
    (fill p word).wp (exactly ram pool) own Q ↔
      ∃ words, own p = some words ∧ Q () (own.set p fun _ => word) := Iff.rfl

theorem exactly_panicIf (bad : Prop) [Decidable bad] (message : String) (Q : Unit → Owned I W → Prop) :
    (panicIf bad message).wp (exactly ram pool) own Q ↔ ¬bad ∧ Q () own := by
  unfold panicIf
  rw [Program.wp_when]
  exact ⟨fun h => ⟨h.1, h.2 h.1⟩, fun h => ⟨fun hbad => absurd hbad h.1, fun _ => h.2⟩⟩

theorem exactly_kfree {p : Nat} (hram : ram.Has p) (Q : Unit → Owned I W → Prop) :
    (kfree ram p).wp (exactly ram pool) own Q ↔
      (∃ words, own p = some words) ∧ Q () (own.erase p) := by
  have hnot : ¬(p < ram.first ∨ p ≥ ram.top) := by
    rintro (hlt | hge)
    · exact absurd hram.1 (Nat.not_le.mpr hlt)
    · exact absurd hram.2 (Nat.not_lt.mpr hge)
  unfold kfree
  rw [Program.wp_bind, exactly_panicIf]
  exact ⟨fun h => h.2, fun h => ⟨hnot, h⟩⟩

theorem wp_exactly (hram : ∀ p, pool p → ram.Has p) {program : Code I W α} {Q : α → Owned I W → Prop}
    (h : program.wp (rule ram fun _ => True) own Q) : program.wp (exactly ram pool) own Q := by
  induction program generalizing own with
  | ret value => exact h
  | call op next ih =>
      cases op with
      | kalloc table =>
          exact ⟨fun _ => ih _ (h.1 trivial), fun p words hp hnone => ih _ (h.2 p words (hram p hp) hnone)⟩
      | kfree p => exact ⟨h.1, ih _ h.2⟩
      | read p i =>
          obtain ⟨words, hwords, hnext⟩ := h
          exact ⟨words, hwords, ih _ hnext⟩
      | modify p change =>
          obtain ⟨words, hwords, hnext⟩ := h
          exact ⟨words, hwords, ih _ hnext⟩
      | copy dst src =>
          obtain ⟨hdst, words, hwords, hnext⟩ := h
          exact ⟨hdst, words, hwords, ih _ hnext⟩
      | panic message => exact h

theorem wp_exactly_frame {program : Code I W α} {rest : Owned I W} {Q : α → Owned I W → Prop}
    (hdisjoint : own.Disjoint rest)
    (h : program.wp (exactly ram fun p => pool p ∧ rest p = none) own Q) :
    program.wp (exactly ram pool) (own.union rest) fun value heap =>
      ∃ own', heap = own'.union rest ∧ own'.Disjoint rest ∧ Q value own' := by
  induction program generalizing own with
  | ret value => exact ⟨own, rfl, hdisjoint, h⟩
  | call op next ih =>
      cases op with
      | kalloc table =>
          refine ⟨fun hfull => ih _ hdisjoint (h.1 fun p hp hnone => ?_), fun p words hp hnone => ?_⟩
          · exact hfull p hp.1 (Heap.union_eq_none.mpr ⟨hnone, hp.2⟩)
          · obtain ⟨hown, hrest⟩ := Heap.union_eq_none.mp hnone
            rw [← Heap.set_union]
            exact ih _ (hdisjoint.set hrest) (h.2 p words ⟨hp, hrest⟩ hown)
      | kfree p =>
          obtain ⟨⟨words, hwords⟩, hnext⟩ := h
          refine ⟨⟨words, Heap.union_eq_some_left hwords⟩, ?_⟩
          rw [← Heap.erase_union (hdisjoint.right_eq_none hwords)]
          exact ih _ hdisjoint.erase hnext
      | read p i =>
          obtain ⟨words, hwords, hnext⟩ := h
          exact ⟨words, Heap.union_eq_some_left hwords, ih _ hdisjoint hnext⟩
      | modify p change =>
          obtain ⟨words, hwords, hnext⟩ := h
          refine ⟨words, Heap.union_eq_some_left hwords, ?_⟩
          rw [← Heap.set_union]
          exact ih _ (hdisjoint.set (hdisjoint.right_eq_none hwords)) hnext
      | copy dst src =>
          obtain ⟨⟨old, hold⟩, words, hwords, hnext⟩ := h
          refine ⟨⟨old, Heap.union_eq_some_left hold⟩, words, Heap.union_eq_some_left hwords, ?_⟩
          rw [← Heap.set_union]
          exact ih _ (hdisjoint.set (hdisjoint.right_eq_none hold)) hnext
      | panic message => exact h

theorem exactly_sound {others junk : Nat → I → W} {memory : Memory I W} {who : ι} {op : (accesses I W).Op}
    {Q : (accesses I W).Resp op → Owned I W → Prop} (h : Owns ram pool others memory own)
    (hrule : exactly ram pool op own Q) :
    ∃ response memory' own', access junk who memory op 0 = some (response, memory') ∧
      Q response own' ∧ Owns ram pool others memory' own' := by
  cases op with
  | kalloc table =>
      cases hfree : memory.freelist with
      | nil =>
          refine ⟨none, memory, own, ?_, hrule.1 fun p hp hnone => ?_, h⟩
          · simp only [access, hfree]
          · have hmem := h.mem_freelist.mpr ⟨hp, hnone⟩
            rw [hfree] at hmem
            cases hmem
      | cons p rest =>
          obtain ⟨hnone, -, howns⟩ := h.kalloc (junk p) hfree
          have hmem : p ∈ memory.freelist := hfree ▸ List.mem_cons_self
          refine ⟨some p, _, _, ?_, hrule.2 p (junk p) (h.mem_freelist.mp hmem).1 hnone, howns⟩
          simp only [access, hfree]
  | kfree p => exact access_sound h (spares_of_fails memory (.kfree p)) hrule
  | read p i => exact access_sound h (spares_of_fails memory (.read p i)) hrule
  | modify p change => exact access_sound h (spares_of_fails memory (.modify p change)) hrule
  | copy dst src => exact access_sound h (spares_of_fails memory (.copy dst src)) hrule
  | panic message => exact absurd hrule id

theorem Owns.ends_exactly {others junk : Nat → I → W} {memory : Memory I W} {who : ι} {program : Code I W α}
    {Q : α → Owned I W → Prop} (h : Owns ram pool others memory own)
    (hwp : program.wp (exactly ram pool) own Q) :
    program.Ends (access junk) who memory fun value memory' =>
      ∃ own', Q value own' ∧ Owns ram pool others memory' own' :=
  Program.Ends.of_wp (fun howns (_ : True) hrule => exactly_sound howns hrule) h
    (Program.meets_of_forall (fun _ _ => trivial) program memory) hwp

end Exactly

/-! ### How many pages are free -/

section Spare

variable {ram : Ram} {pool : Nat → Prop} {own : Owned I W} {p : Nat} {words : I → W}

open Classical in
/-- The pages that can be allocated. -/
noncomputable def spare (ram : Ram) (pool : Nat → Prop) (own : Owned I W) : Finset Nat :=
  (Finset.Ico ram.first ram.top).filter fun p => pool p ∧ own p = none

theorem mem_spare_iff : p ∈ spare ram pool own ↔ ram.Has p ∧ pool p ∧ own p = none := by
  classical
  rw [spare, Finset.mem_filter, Finset.mem_Ico]
  exact Iff.rfl

theorem mem_spare (hram : ∀ p, pool p → ram.Has p) : p ∈ spare ram pool own ↔ pool p ∧ own p = none := by
  rw [mem_spare_iff]
  exact and_iff_right_of_imp fun h => hram p h.1

theorem Owns.card_spare {others : Nat → I → W} {memory : Memory I W} (h : Owns ram pool others memory own) :
    (spare ram pool own).card = memory.freelist.length := by
  rw [← List.toFinset_card_of_nodup h.nodup]
  congr 1
  ext p
  rw [mem_spare fun _ => h.ram, List.mem_toFinset, h.mem_freelist]

theorem card_spare_eq_zero (hram : ∀ p, pool p → ram.Has p) :
    (spare ram pool own).card = 0 ↔ ∀ p, pool p → own p ≠ none := by
  rw [Finset.card_eq_zero, Finset.eq_empty_iff_forall_notMem]
  simp only [mem_spare hram, not_and]

theorem card_spare_set (hram : ∀ p, pool p → ram.Has p) (hp : pool p) (hnone : own p = none) :
    (spare ram pool own).card = (spare ram pool (own.set p words)).card + 1 := by
  have hinsert : spare ram pool own = insert p (spare ram pool (own.set p words)) := by
    ext q
    rw [Finset.mem_insert, mem_spare hram, mem_spare hram]
    by_cases hq : q = p
    · exact iff_of_true (hq ▸ ⟨hp, hnone⟩) (Or.inl hq)
    · rw [Heap.set_of_ne hq, or_iff_right hq]
  rw [hinsert, Finset.card_insert_of_notMem]
  rw [mem_spare hram, Heap.set_self]
  exact fun h => Option.some_ne_none words h.2

theorem spare_set {old : I → W} (hown : own p = some old) :
    spare ram pool (own.set p words) = spare ram pool own := by
  have hiff : ∀ q, own.set p words q = none ↔ own q = none := by
    intro q
    by_cases hq : q = p
    · rw [hq, Heap.set_self, hown]
      exact iff_of_false (Option.some_ne_none _) (Option.some_ne_none _)
    · rw [Heap.set_of_ne hq]
  ext q
  rw [mem_spare_iff, mem_spare_iff, hiff]

theorem spare_union {rest : Owned I W} :
    spare ram (fun p => pool p ∧ rest p = none) own = spare ram pool (own.union rest) := by
  ext p
  rw [mem_spare_iff, mem_spare_iff, Heap.union_eq_none, and_assoc, and_comm (a := rest p = none)]

end Spare

/-! ### What is not there yet -/

section Absent

variable [DecidableEq I] {arch : Arch I W P} {tree tree' : arch.Tree} {path whole q : List I} {i : I}

def absent (tree : arch.Tree) (path : List I) : Finset (List I) :=
  path.inits.toFinset.filter fun q => tree.node q = none

def Completes (path : List I) (tree tree' : arch.Tree) : Prop :=
  ∀ q, tree'.node q = none ↔ tree.node q = none ∧ ¬q <+: path

theorem mem_absent : q ∈ absent tree path ↔ q <+: path ∧ tree.node q = none := by
  rw [absent, Finset.mem_filter, List.mem_toFinset, List.mem_inits]

theorem absent_eq_empty {p : Nat} (hnode : tree.node path = some p) : absent tree path = ∅ := by
  rw [Finset.eq_empty_iff_forall_notMem]
  intro q hq
  obtain ⟨⟨rest, rfl⟩, hnone⟩ := mem_absent.mp hq
  obtain ⟨t, ht⟩ := tree.node_of_append hnode
  rw [hnone] at ht
  cases ht

theorem card_absent_succ {new : Nat} (hnone : tree.node q = none) (hpath : q <+: path)
    (hself : tree'.node q = some new) (hothers : ∀ other, other ≠ q → tree'.node other = tree.node other) :
    (absent tree path).card = (absent tree' path).card + 1 := by
  have hinsert : absent tree path = insert q (absent tree' path) := by
    ext other
    rw [Finset.mem_insert, mem_absent, mem_absent]
    by_cases hother : other = q
    · exact iff_of_true ⟨hother ▸ hpath, hother ▸ hnone⟩ (Or.inl hother)
    · rw [hothers other hother, or_iff_right hother]
  rw [hinsert, Finset.card_insert_of_notMem]
  rw [mem_absent, hself]
  exact fun h => Option.some_ne_none new h.2

theorem card_absent_append (hnone : tree.node (path ++ [i]) = none) :
    (absent tree (path ++ [i])).card = (absent tree path).card + 1 := by
  have hinsert : absent tree (path ++ [i]) = insert (path ++ [i]) (absent tree path) := by
    ext q
    rw [Finset.mem_insert, mem_absent, mem_absent, List.prefix_concat_iff]
    by_cases hq : q = path ++ [i]
    · exact iff_of_true ⟨Or.inl hq, hq ▸ hnone⟩ (Or.inl hq)
    · rw [or_iff_right hq, or_iff_right hq]
  rw [hinsert, Finset.card_insert_of_notMem]
  intro hmem
  have hle := (mem_absent.mp hmem).1.length_le
  rw [List.length_append, List.length_singleton] at hle
  omega

theorem Completes.refl {p : Nat} (hnode : tree.node path = some p) : Completes path tree tree := by
  intro q
  refine ⟨fun hnone => ⟨hnone, fun hpath => ?_⟩, fun h => h.1⟩
  have hmem : q ∈ absent tree path := mem_absent.mpr ⟨hpath, hnone⟩
  rw [absent_eq_empty hnode] at hmem
  exact Finset.notMem_empty q hmem

theorem Completes.step {tree'' : arch.Tree} {new : Nat} (h : Completes path tree' tree'') (hpath : q <+: path)
    (hself : tree'.node q = some new) (hothers : ∀ other, other ≠ q → tree'.node other = tree.node other) :
    Completes path tree tree'' := by
  intro other
  rw [h other]
  by_cases hother : other = q
  · rw [hother, hself]
    exact iff_of_false (fun hnone => Option.some_ne_none new hnone.1) fun hnot => hnot.2 hpath
  · rw [hothers other hother]

theorem Completes.append {tree'' : arch.Tree} {new : Nat} (h : Completes path tree tree')
    (hself : tree''.node (path ++ [i]) = some new)
    (hothers : ∀ other, other ≠ path ++ [i] → tree''.node other = tree'.node other) :
    Completes (path ++ [i]) tree tree'' := by
  intro q
  rw [List.prefix_concat_iff]
  by_cases hq : q = path ++ [i]
  · rw [hq, hself]
    exact iff_of_false (Option.some_ne_none new) fun hnot => hnot.2 (Or.inl rfl)
  · rw [hothers q hq, h q, or_iff_right hq]

end Absent

/-! ### Walks and mappings -/

section Walks

variable [DecidableEq I] {arch : Arch I W P} {ram : Ram} {pool kept : Nat → Prop} {fixed : Nat → W}
  {tree : arch.Tree} {root v : Nat} {own : Owned I W} {view : View I W P}

namespace Layout

variable (h : Layout arch ram kept fixed tree root own view) (hpool : ∀ p, pool p → ram.Has p)
include h hpool

theorem walkFrom_exactly {path rest : List I} {t : Nat} (hnode : tree.node path = some t)
    (hlength : path.length + rest.length + 1 = arch.depth) :
    (walkFrom arch true rest t).wp (exactly ram pool) own fun result own' =>
      ∃ tree', Layout arch ram kept fixed tree' root own' view ∧
        ((result = none ∧ (spare ram pool own).card < (absent tree (path ++ rest)).card) ∨
          ∃ t', result = some t' ∧ tree'.node (path ++ rest) = some t' ∧ Completes (path ++ rest) tree tree' ∧
            (spare ram pool own).card = (spare ram pool own').card + (absent tree (path ++ rest)).card) := by
  induction rest generalizing path t tree own with
  | nil =>
      rw [List.append_nil, absent_eq_empty hnode, Finset.card_empty]
      exact ⟨tree, h, Or.inr ⟨t, rfl, hnode, Completes.refl hnode, rfl⟩⟩
  | cons i rest ih =>
      rw [List.length_cons] at hlength
      have hdepth : path.length + 1 < arch.depth := by omega
      have hlength' : (path ++ [i]).length + rest.length + 1 = arch.depth := by
        rw [List.length_append, List.length_singleton]
        omega
      have hon : path ++ [i] <+: path ++ [i] ++ rest := List.prefix_append ..
      unfold walkFrom
      rw [Program.wp_bind, exactly_read, List.append_cons]
      refine ⟨_, h.holds.table hnode (by omega), ?_⟩
      rw [entry_above hdepth]
      cases hnext : tree.node (path ++ [i]) with
      | some next =>
          have hlt := (h.ram_of_node hnext).lt
          rw [Option.elim_some, arch.isTable_table next hlt, if_pos rfl, arch.page_table next hlt]
          exact ih h hnext hlength'
      | none =>
          rw [Option.elim_none, arch.isTable_zero, if_neg Bool.false_ne_true, if_neg Bool.noConfusion,
            Program.wp_bind, exactly_kalloc]
          refine ⟨fun hfull => ⟨tree, h, Or.inl ⟨rfl, ?_⟩⟩, fun new words hnew hfree => ?_⟩
          · rw [(card_spare_eq_zero hpool).mpr hfull]
            exact Finset.card_pos.mpr ⟨_, mem_absent.mpr ⟨hon, hnext⟩⟩
          obtain ⟨tree', h', hnode', hothers⟩ := h.addTable hnode hdepth hnext hfree (hpool new hnew)
          have htable := h.holds.table hnode (by omega)
          have hne : t ≠ new := by
            rintro rfl
            exact h.holds.fresh hfree path hnode
          have hentry : (own.set new fun _ => arch.zero) t = some (tree.entry path) := by
            rw [Heap.set_of_ne hne, htable]
          have hcount : (spare ram pool own).card =
              (spare ram pool ((own.set new fun _ => arch.zero).set t
                (Function.update (tree.entry path) i (arch.table new)))).card + 1 := by
            rw [spare_set hentry]
            exact card_spare_set hpool hnew hfree
          have habsent := card_absent_succ hnext hon hnode' hothers
          rw [Option.elim_some, Program.wp_bind, exactly_fill]
          refine ⟨words, Heap.set_self, ?_⟩
          rw [Heap.set_set, Program.wp_bind, exactly_write]
          refine ⟨_, hentry, ?_⟩
          apply Program.wp_mono exactly_monotone _ (ih h' hnode' hlength')
          rintro result own' ⟨tree'', h'', hresult⟩
          refine ⟨tree'', h'', ?_⟩
          rcases hresult with ⟨rfl, hlt⟩ | ⟨t', rfl, ht', hcompletes, heq⟩
          · exact Or.inl ⟨rfl, by omega⟩
          · exact Or.inr ⟨t', rfl, ht', hcompletes.step hon hnode' hothers, by omega⟩

theorem mapFrom_exactly {maxva mem : Nat} {present : W → Bool} {message : String} {words : I → W}
    (hva : v * pgsize < maxva) (hpresent : present arch.zero = false) (hv : v < arch.limit)
    (hnone : view v = none) (hfixed : fixed v = arch.zero) (hmem : own mem = none) (hfree : pool mem) (perm : P) :
    (mapFrom arch (walk arch maxva true root) present message perm 1 (v * pgsize) mem).wp (exactly ram pool)
      (own.set mem words) fun result own' =>
        (result = 0 ∧ ∃ tree', Layout arch ram kept fixed tree' root own'
            (Function.update view v (some ⟨mem, arch.sealed perm, words⟩)) ∧ Completes (arch.path v) tree tree' ∧
          (spare ram pool own).card = (spare ram pool own').card + (absent tree (arch.path v)).card) ∨
        (result = -1 ∧ (spare ram pool own).card < (absent tree (arch.path v)).card ∧
          ∃ old, own' = old.set mem words ∧ old mem = none ∧ Space arch ram kept fixed root old view) := by
  have hnode : tree.node (arch.path v) = none := h.node_of_hole hv hnone
  have hpath : (absent tree (arch.path v)).card = (absent tree (arch.upper v)).card + 1 :=
    card_absent_append hnode
  have htaken : (spare ram pool own).card = (spare ram pool (own.set mem words)).card + 1 :=
    card_spare_set hpool hfree hmem
  have hlength : ([] : List I).length + (arch.upper v).length + 1 = arch.depth := by
    rw [List.length_nil, Nat.zero_add]
    exact arch.length_upper v
  have hrest : ∀ old : Owned I W, old mem = none → spare ram (fun p => pool p ∧ Heap.single mem words p = none) old =
      spare ram pool (old.set mem words) := by
    intro old hold
    rw [Heap.set_eq_union hold, spare_union]
  have hwalk := h.walkFrom_exactly (fun p (hp : pool p ∧ Heap.single mem words p = none) => hpool p hp.1)
    h.root hlength
  rw [hrest own hmem, List.nil_append] at hwalk
  unfold mapFrom walk
  rw [Heap.set_eq_union hmem, Program.wp_bind, Program.wp_bind, exactly_panicIf, mul_div_pgsize, Program.wp_bind]
  refine ⟨Nat.not_le.mpr hva, ?_⟩
  apply Program.wp_mono exactly_monotone _ (wp_exactly_frame (Heap.disjoint_single hmem) hwalk)
  rintro table heap ⟨old, rfl, hdisjoint, tree', htree', hresult⟩
  have hmem' : old mem = none := hdisjoint.left_eq_none Heap.set_self
  rw [← Heap.set_eq_union hmem']
  rcases hresult with ⟨rfl, hlt⟩ | ⟨t, rfl, ht, hcompletes, heq⟩
  · exact Or.inr ⟨rfl, by omega, old, rfl, hmem', tree', htree'⟩
  rw [hrest old hmem'] at heq
  obtain ⟨htable, hleaf⟩ := htree'.slot ht
  have hne : t ≠ mem := by
    rintro rfl
    rw [hmem'] at htable
    cases htable
  have hown : old.set mem words t = some (tree'.entry (arch.upper v)) := by
    rw [Heap.set_of_ne hne, htable]
  have hzero : tree'.leaf (arch.path v) = arch.zero := (htree'.hole hv hnone).trans hfixed
  obtain ⟨tree'', htree'', hself, hothers⟩ := htree'.map_node ht ⟨mem, arch.sealed perm, words⟩ hv hnone hmem'
    (hpool mem hfree) (Arch.maps_leaf (hpool mem hfree) perm)
  rw [Program.wp_pure, Option.map_some, Option.elim_some, Program.wp_bind, exactly_read]
  refine ⟨_, hown, ?_⟩
  rw [Program.wp_bind, exactly_panicIf, hleaf, hzero, hpresent, Program.wp_bind, exactly_write]
  refine ⟨Bool.false_ne_true, _, hown, Or.inl ⟨rfl, tree'', htree'', hcompletes.append hself hothers, ?_⟩⟩
  rw [spare_set hown, htaken, hpath, heq]
  omega

end Layout

end Walks

end Xv6.Vm
