import Mathlib.Data.Finset.Card
import Mathlib.Data.Finset.Max
import Mathlib.Logic.Function.Iterate

/-!
# Rings in order

A circular singly linked list that keeps its nodes in order: following `next` climbs from the least
node to the largest and then wraps around. The nodes are a finite set, and being a ring is a
statement about each node by itself, its link leads to the node that follows it in the set.
Inserting and erasing are then arguments about one or two nodes and never about the shape of a list.
-/

variable {α : Type*} [LinearOrder α]

/-- `b` is the node after `a`: the next larger one, or the least one after the largest. -/
def Follows (nodes : Finset α) (a b : α) : Prop :=
  b ∈ nodes ∧ ((a < b ∧ ∀ c ∈ nodes, c ≤ a ∨ b ≤ c) ∨ (b ≤ a ∧ ∀ c ∈ nodes, b ≤ c ∧ c ≤ a))

def SortedRing (next : α → α) (nodes : Finset α) : Prop := ∀ a ∈ nodes, Follows nodes a (next a)

/-- A new node `x` belongs right behind `p`. -/
def Accepts (next : α → α) (x p : α) : Prop :=
  (p < x ∧ x < next p) ∨ (next p ≤ p ∧ (p < x ∨ x < next p))

theorem Follows.unique {nodes : Finset α} {a a' b : α} (ha : a ∈ nodes) (ha' : a' ∈ nodes)
    (h : Follows nodes a b) (h' : Follows nodes a' b) : a = a' := by
  obtain ⟨-, ⟨hlt, hgap⟩ | ⟨hle, hends⟩⟩ := h
  · obtain ⟨-, ⟨hlt', hgap'⟩ | ⟨-, hends'⟩⟩ := h'
    · refine le_antisymm ((hgap' a ha).resolve_right (not_le.mpr hlt))
        ((hgap a' ha').resolve_right (not_le.mpr hlt'))
    · exact absurd hlt (not_lt.mpr (hends' a ha).1)
  · obtain ⟨-, ⟨hlt', -⟩ | ⟨-, hends'⟩⟩ := h'
    · exact absurd hlt' (not_lt.mpr (hends a' ha').1)
    · exact le_antisymm (hends' a ha).2 (hends a' ha').2

namespace SortedRing

variable {next : α → α} {nodes : Finset α} {a b p x : α}

theorem singleton (h : next a = a) : SortedRing next {a} := by
  intro b hb
  obtain rfl := Finset.mem_singleton.mp hb
  refine ⟨by simp [h], Or.inr ⟨h.le, fun c hc => ?_⟩⟩
  obtain rfl := Finset.mem_singleton.mp hc
  exact ⟨h.le, le_rfl⟩

theorem next_mem (h : SortedRing next nodes) (ha : a ∈ nodes) : next a ∈ nodes := (h a ha).1

theorem iterate_mem (h : SortedRing next nodes) (ha : a ∈ nodes) (k : ℕ) : next^[k] a ∈ nodes := by
  induction k with
  | zero => exact ha
  | succ k ih =>
      rw [Function.iterate_succ_apply']
      exact h.next_mem ih

theorem eq_of_next_self (h : SortedRing next nodes) (ha : a ∈ nodes) (hself : next a = a)
    (hb : b ∈ nodes) : b = a := by
  obtain ⟨-, ⟨hlt, -⟩ | ⟨-, hends⟩⟩ := h a ha
  · exact absurd hself hlt.ne'
  · rw [hself] at hends
    exact le_antisymm (hends b hb).2 (hends b hb).1

theorem wraps_once (h : SortedRing next nodes) (hnonempty : nodes.Nonempty) :
    ∃! a, a ∈ nodes ∧ next a ≤ a := by
  have htop := nodes.max'_mem hnonempty
  refine ⟨nodes.max' hnonempty, ⟨htop, nodes.le_max' _ (h.next_mem htop)⟩, ?_⟩
  rintro a ⟨ha, hwraps⟩
  obtain ⟨-, ⟨hup, -⟩ | ⟨-, hends⟩⟩ := h a ha
  · exact absurd hwraps (not_le.mpr hup)
  · exact le_antisymm (nodes.le_max' a ha) (hends _ htop).2

theorem insert (h : SortedRing next nodes) (hp : p ∈ nodes) (hx : x ∉ nodes)
    (haccepts : Accepts next x p) :
    SortedRing (Function.update (Function.update next x (next p)) p x) (insert x nodes) := by
  have hpx : x ≠ p := fun heq => hx (heq ▸ hp)
  obtain ⟨hnext, hfollows⟩ := h p hp
  intro a ha
  obtain rfl | hap := eq_or_ne a p
  · rw [Function.update_self]
    refine ⟨Finset.mem_insert_self x nodes, ?_⟩
    grind [Accepts]
  obtain rfl | hax := eq_or_ne a x
  · rw [Function.update_of_ne hap, Function.update_self]
    refine ⟨Finset.mem_insert_of_mem hnext, ?_⟩
    grind [Accepts]
  · rw [Function.update_of_ne hap, Function.update_of_ne hax]
    have hmem := (Finset.mem_insert.mp ha).resolve_left hax
    obtain ⟨hnexta, hfollowsa⟩ := h a hmem
    refine ⟨Finset.mem_insert_of_mem hnexta, ?_⟩
    have hunique : next a ≠ next p := fun heq =>
      hap (Follows.unique hmem hp (heq ▸ h a hmem) ⟨hnext, hfollows⟩)
    grind [Accepts]

theorem erase (h : SortedRing next nodes) (hp : p ∈ nodes) (hself : next p ≠ p) :
    SortedRing (Function.update next p (next (next p))) (nodes.erase (next p)) := by
  obtain ⟨hnext, hfollows⟩ := h p hp
  obtain ⟨hnext', hfollows'⟩ := h (next p) hnext
  intro a ha
  obtain ⟨hne, hmem⟩ := Finset.mem_erase.mp ha
  obtain rfl | hap := eq_or_ne a p
  · rw [Function.update_self]
    refine ⟨Finset.mem_erase.mpr ⟨?_, hnext'⟩, ?_⟩
    · intro heq
      exact hself (h.eq_of_next_self hnext heq hp).symm
    · grind
  · rw [Function.update_of_ne hap]
    obtain ⟨hnexta, hfollowsa⟩ := h a hmem
    refine ⟨Finset.mem_erase.mpr ⟨?_, hnexta⟩, ?_⟩
    · intro heq
      exact hap (Follows.unique hmem hp (heq ▸ h a hmem) ⟨hnext, hfollows⟩)
    · grind

theorem exists_iterate_of_le (h : SortedRing next nodes) (ha : a ∈ nodes) (hb : b ∈ nodes)
    (hle : a ≤ b) : ∃ k, next^[k] a = b := by
  induction hn : (nodes.filter (a < ·)).card using Nat.strong_induction_on generalizing a with
  | _ n ih =>
      obtain rfl | hlt := hle.eq_or_lt
      · exact ⟨0, rfl⟩
      obtain ⟨hmem, ⟨hup, hgap⟩ | ⟨-, hends⟩⟩ := h a ha
      · have hle' : next a ≤ b := (hgap b hb).resolve_left (not_le.mpr hlt)
        have hless : (nodes.filter (next a < ·)).card < n := by
          rw [← hn]
          refine Finset.card_lt_card (Finset.ssubset_iff_of_subset ?_ |>.mpr ⟨next a, ?_, ?_⟩)
          · exact Finset.monotone_filter_right nodes fun c _ hc => lt_trans hup hc
          · exact Finset.mem_filter.mpr ⟨hmem, hup⟩
          · simp
        obtain ⟨k, hk⟩ := ih _ hless hmem hle' rfl
        exact ⟨k + 1, hk⟩
      · exact absurd hlt (not_lt.mpr (hends b hb).2)

theorem exists_iterate (h : SortedRing next nodes) (ha : a ∈ nodes) (hb : b ∈ nodes) :
    ∃ k, next^[k] a = b := by
  have hnonempty : nodes.Nonempty := ⟨a, ha⟩
  have htop := nodes.max'_mem hnonempty
  obtain ⟨i, hi⟩ := h.exists_iterate_of_le ha htop (nodes.le_max' a ha)
  -- Past the largest node the ring comes back to a node below all others.
  have hwrap : next (nodes.max' hnonempty) ≤ b := by
    obtain ⟨hmem, ⟨hup, -⟩ | ⟨-, hends⟩⟩ := h _ htop
    · exact absurd hup (not_lt.mpr (nodes.le_max' _ hmem))
    · exact (hends b hb).1
  obtain ⟨j, hj⟩ := h.exists_iterate_of_le (h.next_mem htop) hb hwrap
  refine ⟨j + 1 + i, ?_⟩
  rw [Function.iterate_add_apply, hi, Function.iterate_succ_apply, hj]

theorem exists_accepts (h : SortedRing next nodes) (ha : a ∈ nodes) (hx : x ∉ nodes) :
    ∃ p ∈ nodes, Accepts next x p := by
  have hnonempty : nodes.Nonempty := ⟨a, ha⟩
  obtain hbelow | hbelow := (nodes.filter (· < x)).eq_empty_or_nonempty
  · -- Every node is above `x`, which then comes behind the largest.
    have htop := nodes.max'_mem hnonempty
    refine ⟨_, htop, Or.inr ?_⟩
    obtain ⟨hmem, ⟨hup, -⟩ | ⟨hle, hends⟩⟩ := h _ htop
    · exact absurd hup (not_lt.mpr (nodes.le_max' _ hmem))
    · refine ⟨hle, Or.inr (lt_of_le_of_ne (not_lt.mp fun hlt => ?_) fun heq => hx (heq ▸ hmem))⟩
      have hin : next (nodes.max' hnonempty) ∈ nodes.filter (· < x) :=
        Finset.mem_filter.mpr ⟨hmem, hlt⟩
      simp [hbelow] at hin
  · -- Behind the largest node below `x`.
    have hmax := (nodes.filter (· < x)).max'_mem hbelow
    obtain ⟨hmem, hlt⟩ := Finset.mem_filter.mp hmax
    refine ⟨_, hmem, ?_⟩
    obtain ⟨hnext, ⟨hup, -⟩ | ⟨hle, -⟩⟩ := h _ hmem
    · refine Or.inl ⟨hlt, lt_of_le_of_ne (not_lt.mp fun hlt' => ?_) fun heq => hx (heq ▸ hnext)⟩
      exact absurd hup (not_lt.mpr (Finset.le_max' _ _ (Finset.mem_filter.mpr ⟨hnext, hlt'⟩)))
    · exact Or.inr ⟨hle, Or.inl hlt⟩

theorem exists_first (h : SortedRing next nodes) (ha : a ∈ nodes) (property : α → Prop)
    (hb : b ∈ nodes) (hproperty : property b) :
    ∃ k, property (next^[k] (next a)) ∧
      ∀ j < k, ¬ property (next^[j] (next a)) ∧ next^[j] (next a) ≠ a := by
  classical
  have hexists : ∃ k, property (next^[k] (next a)) := by
    obtain ⟨k, hk⟩ := h.exists_iterate (h.next_mem ha) hb
    exact ⟨k, hk.symm ▸ hproperty⟩
  refine ⟨Nat.find hexists, Nat.find_spec hexists, fun j hj => ⟨Nat.find_min hexists hj, ?_⟩⟩
  intro hback
  have hearlier : Nat.find hexists - (j + 1) < Nat.find hexists := by omega
  refine Nat.find_min hexists hearlier ?_
  have hspec := Nat.find_spec hexists
  rw [show Nat.find hexists = Nat.find hexists - (j + 1) + 1 + j by omega,
    Function.iterate_add_apply, hback, Function.iterate_succ_apply] at hspec
  exact hspec

end SortedRing
