import Xv6.Vm.Shared
import Xv6.Vm.PageTable

/-!
# What the hardware finds

The entry of a page, read off the memory. A page table that is laid out for a view has an entry for each of its pages, no
two pages have the same frame, and no frame is free.
-/

namespace Xv6.Vm

variable {I W P : Type} {arch : Arch I W P}

def Arch.tableAt (arch : Arch I W P) (memory : Memory I W) : List I → Nat → Option Nat
  | [], table => some table
  | i :: rest, table =>
      if arch.isTable (memory.words table i) then arch.tableAt memory rest (arch.page (memory.words table i)) else none

def Arch.entryAt (arch : Arch I W P) (memory : Memory I W) (root v : Nat) : W :=
  (arch.tableAt memory (arch.upper v) root).elim arch.zero fun table => memory.words table (arch.lower v)

namespace Layout

variable {ram : Ram} {kept : Nat → Prop} {fixed : Nat → W} {tree : arch.Tree} {root v w : Nat} {own : Owned I W}
  {view : View I W P} {memory : Memory I W} {page page' : Page I W P}

theorem tableAt_eq (h : Layout arch ram kept fixed tree root own view)
    (hwords : ∀ {p words}, own p = some words → memory.words p = words) {path rest : List I} {t : Nat}
    (hnode : tree.node path = some t) (hlength : path.length + rest.length + 1 = arch.depth) :
    arch.tableAt memory rest t = tree.node (path ++ rest) := by
  induction rest generalizing path t with
  | nil =>
      rw [List.append_nil, hnode]
      rfl
  | cons i rest ih =>
      rw [List.length_cons] at hlength
      have hpath : path.length + 1 < arch.depth := by omega
      have htable := hwords (h.holds.table hnode (by omega))
      have happend : path ++ i :: rest = path ++ [i] ++ rest := List.append_cons ..
      rw [Arch.tableAt, htable, entry_above hpath, happend]
      cases hnext : tree.node (path ++ [i]) with
      | none =>
          rw [tree.node_append_eq_none hnext, Option.elim_none, arch.isTable_zero]
          exact if_neg Bool.noConfusion
      | some next =>
          have hlt := (h.ram_of_node hnext).lt
          rw [Option.elim_some, arch.isTable_table next hlt, if_pos rfl, arch.page_table next hlt]
          exact ih hnext (by rw [List.length_append, List.length_singleton]; omega)

theorem entryAt_eq (h : Layout arch ram kept fixed tree root own view)
    (hwords : ∀ {p words}, own p = some words → memory.words p = words) (v : Nat) :
    arch.entryAt memory root v = tree.leaf (arch.path v) := by
  have hlength : ([] : List I).length + (arch.upper v).length + 1 = arch.depth := by
    rw [List.length_nil, Nat.zero_add]
    exact arch.length_upper v
  rw [Arch.entryAt, h.tableAt_eq hwords h.root hlength, List.nil_append]
  cases hnode : tree.node (arch.upper v) with
  | none => exact (tree.leaf_zero (by have := arch.length_upper v; omega) hnode _).symm
  | some t =>
      obtain ⟨htable, hleaf⟩ := h.slot hnode
      rw [Option.elim_some, hwords htable]
      exact hleaf

end Layout

end Xv6.Vm
