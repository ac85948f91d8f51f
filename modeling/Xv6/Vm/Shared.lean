import Xv6.Vm.Memory

/-!
# Memory that is shared

Several owners of pages, and a free list that they share. Where one of them accesses memory, its own pages
and the free ones may change, and pages may pass from one to another.
-/

namespace Xv6.Vm

variable {I W κ : Type}

structure Shared (ram : Ram) (memory : Memory I W) (heaps : κ → Owned I W) : Prop where
  words : ∀ {k p words}, heaps k p = some words → memory.words p = words
  disjoint : ∀ {j k}, j ≠ k → (heaps j).Disjoint (heaps k)
  nodup : memory.freelist.Nodup
  free : ∀ {k p}, p ∈ memory.freelist → heaps k p = none
  covered : ∀ p, ram.Has p ↔ p ∈ memory.freelist ∨ ∃ k, heaps k p ≠ none

namespace Shared

variable {ram : Ram} {memory memory' : Memory I W} {heaps heaps' : κ → Owned I W} {k : κ}

theorem eq_of_ne_none (h : Shared ram memory heaps) {j : κ} {p : Nat} (hj : heaps j p ≠ none)
    (hk : heaps k p ≠ none) : j = k := by
  by_contra hne
  rcases h.disjoint hne p with hnone | hnone
  · exact hj hnone
  · exact hk hnone

theorem owns (h : Shared ram memory heaps) (k : κ) :
    Owns ram (fun p => ram.Has p ∧ ∀ j, j ≠ k → heaps j p = none) memory.words memory (heaps k) := by
  refine ⟨h.words, h.nodup, h.free, fun p => ⟨fun hpool => ?_, fun hor => ?_⟩, And.left, fun _ _ => rfl⟩
  · rcases (h.covered p).mp hpool.1 with hfree | ⟨j, hj⟩
    · exact Or.inl hfree
    · obtain rfl : j = k := by
        by_contra hne
        exact hj (hpool.2 j hne)
      exact Or.inr hj
  · rcases hor with hfree | hsome
    · exact ⟨(h.covered p).mpr (Or.inl hfree), fun j _ => h.free hfree⟩
    · refine ⟨(h.covered p).mpr (Or.inr ⟨k, hsome⟩), fun j hne => ?_⟩
      by_contra hj
      exact hne (h.eq_of_ne_none hj hsome)

theorem access [DecidableEq κ] (h : Shared ram memory heaps) {own : Owned I W}
    (howns : Owns ram (fun p => ram.Has p ∧ ∀ j, j ≠ k → heaps j p = none) memory.words memory' own) :
    Shared ram memory' (Function.update heaps k own) := by
  have hpool : ∀ {p}, own p ≠ none → ∀ j, j ≠ k → heaps j p = none := fun hsome =>
    ((howns.mem_pool _).mpr (Or.inr hsome)).2
  refine ⟨fun {j p words} hwords => ?_, fun {i j} hne p => ?_, howns.nodup, fun {j p} hfree => ?_,
    fun p => ?_⟩
  · by_cases hj : j = k
    · rw [hj, Function.update_self] at hwords
      exact howns.words hwords
    · rw [Function.update_of_ne hj] at hwords
      rw [howns.same p fun hin => ?_, h.words hwords]
      rw [hin.2 j hj] at hwords
      cases hwords
  · by_cases hi : i = k
    · have hj : j ≠ k := fun heq => hne (hi.trans heq.symm)
      rw [hi, Function.update_self, Function.update_of_ne hj]
      by_cases hp : own p = none
      · exact Or.inl hp
      · exact Or.inr (hpool hp j hj)
    · by_cases hj : j = k
      · rw [hj, Function.update_self, Function.update_of_ne hi]
        by_cases hp : own p = none
        · exact Or.inr hp
        · exact Or.inl (hpool hp i hi)
      · rw [Function.update_of_ne hi, Function.update_of_ne hj]
        exact h.disjoint hne p
  · by_cases hj : j = k
    · rw [hj, Function.update_self]
      exact howns.free hfree
    · rw [Function.update_of_ne hj]
      exact ((howns.mem_pool p).mpr (Or.inl hfree)).2 j hj
  · refine ⟨fun hram => ?_, fun hor => ?_⟩
    · by_cases hin : ∀ j, j ≠ k → heaps j p = none
      · rcases (howns.mem_pool p).mp ⟨hram, hin⟩ with hfree | hsome
        · exact Or.inl hfree
        · refine Or.inr ⟨k, ?_⟩
          rwa [Function.update_self]
      · obtain ⟨j, hj⟩ := not_forall.mp hin
        obtain ⟨hne, hsome⟩ := Classical.not_imp.mp hj
        refine Or.inr ⟨j, ?_⟩
        rwa [Function.update_of_ne hne]
    · rcases hor with hfree | ⟨j, hsome⟩
      · exact howns.ram ((howns.mem_pool p).mpr (Or.inl hfree))
      · by_cases hj : j = k
        · rw [hj, Function.update_self] at hsome
          exact howns.ram ((howns.mem_pool p).mpr (Or.inr hsome))
        · rw [Function.update_of_ne hj] at hsome
          exact (h.covered p).mpr (Or.inr ⟨j, hsome⟩)

theorem divide [DecidableEq κ] (h : Shared ram memory heaps) {j : κ} {first second : Owned I W}
    (hne : j ≠ k) (hunion : (heaps j).union (heaps k) = first.union second)
    (hdisjoint : first.Disjoint second) :
    Shared ram memory (Function.update (Function.update heaps j first) k second) := by
  have hself : Function.update (Function.update heaps j first) k second j = first := by
    rw [Function.update_of_ne hne, Function.update_self]
  have hother : ∀ i, i ≠ j → i ≠ k →
      Function.update (Function.update heaps j first) k second i = heaps i := by
    intro i hij hik
    rw [Function.update_of_ne hik, Function.update_of_ne hij]
  have hold : ∀ {p words}, first p = some words ∨ second p = some words →
      heaps j p = some words ∨ heaps k p = some words := by
    intro p words hor
    have hboth : (heaps j).union (heaps k) p = some words := by
      rw [hunion]
      rcases hor with hfirst | hsecond
      · exact Heap.union_eq_some_left hfirst
      · rw [hdisjoint.union_comm]
        exact Heap.union_eq_some_left hsecond
    exact (Option.or_eq_some_iff.mp hboth).imp_right And.right
  have hnone : ∀ {p}, heaps j p = none → heaps k p = none → first p = none ∧ second p = none := by
    intro p hj hk
    rw [← Heap.union_eq_none, ← hunion, Heap.union_eq_none]
    exact ⟨hj, hk⟩
  have hapart : ∀ {i p}, i ≠ j → i ≠ k → heaps i p = none ∨ (first p = none ∧ second p = none) := by
    intro i p hij hik
    rcases h.disjoint hij p with hp | hp
    · exact Or.inl hp
    · rcases h.disjoint hik p with hp' | hp'
      · exact Or.inl hp'
      · exact Or.inr (hnone hp hp')
  refine ⟨fun {i p words} hwords => ?_, fun {i i'} hi p => ?_, h.nodup, fun {i p} hfree => ?_, fun p => ?_⟩
  · by_cases hik : i = k
    · rw [hik, Function.update_self] at hwords
      exact (hold (Or.inr hwords)).elim h.words h.words
    · by_cases hij : i = j
      · rw [hij, hself] at hwords
        exact (hold (Or.inl hwords)).elim h.words h.words
      · rw [hother i hij hik] at hwords
        exact h.words hwords
  · by_cases hik : i = k
    · rw [hik, Function.update_self]
      have hik' : i' ≠ k := fun heq => hi (hik.trans heq.symm)
      by_cases hij' : i' = j
      · rw [hij', hself]
        exact (hdisjoint p).symm
      · rw [hother i' hij' hik']
        exact (hapart hij' hik').symm.imp_left And.right
    · by_cases hij : i = j
      · rw [hij, hself]
        have hij' : i' ≠ j := fun heq => hi (hij.trans heq.symm)
        by_cases hik' : i' = k
        · rw [hik', Function.update_self]
          exact hdisjoint p
        · rw [hother i' hij' hik']
          exact (hapart hij' hik').symm.imp_left And.left
      · rw [hother i hij hik]
        by_cases hik' : i' = k
        · rw [hik', Function.update_self]
          exact (hapart hij hik).imp_right And.right
        · by_cases hij' : i' = j
          · rw [hij', hself]
            exact (hapart hij hik).imp_right And.left
          · rw [hother i' hij' hik']
            exact h.disjoint hi p
  · have hnew := hnone (@h.free j p hfree) (@h.free k p hfree)
    by_cases hik : i = k
    · rw [hik, Function.update_self]
      exact hnew.2
    · by_cases hij : i = j
      · rw [hij, hself]
        exact hnew.1
      · rw [hother i hij hik]
        exact h.free hfree
  · rw [h.covered p]
    refine or_congr_right ⟨fun hex => ?_, fun hex => ?_⟩
    · obtain ⟨i, hi⟩ := hex
      by_cases hin : i = j ∨ i = k
      · by_contra hall
        have hfirst : first p = none := by
          by_contra hsome
          exact hall ⟨j, by rwa [hself]⟩
        have hsecond : second p = none := by
          by_contra hsome
          exact hall ⟨k, by rwa [Function.update_self]⟩
        have hboth : heaps j p = none ∧ heaps k p = none := by
          rw [← Heap.union_eq_none, hunion, Heap.union_eq_none]
          exact ⟨hfirst, hsecond⟩
        rcases hin with rfl | rfl
        · exact hi hboth.1
        · exact hi hboth.2
      · obtain ⟨hij, hik⟩ := not_or.mp hin
        exact ⟨i, by rwa [hother i hij hik]⟩
    · obtain ⟨i, hi⟩ := hex
      by_contra hall
      have hzero : ∀ i, heaps i p = none := fun i => by
        by_contra hsome
        exact hall ⟨i, hsome⟩
      have hnew := hnone (hzero j) (hzero k)
      by_cases hik : i = k
      · rw [hik, Function.update_self] at hi
        exact hi hnew.2
      · by_cases hij : i = j
        · rw [hij, hself] at hi
          exact hi hnew.1
        · rw [hother i hij hik] at hi
          exact hi (hzero i)

end Shared

end Xv6.Vm
