import Mathlib.Data.List.Nodup

/-!
# Doubly linked lists that end in null

Two pointers for each element of `β`. `Linked` says that the pointers met from a left neighbour on
are those of a list. The list surgery is stated by what each pointer is afterwards, so that a program
may store the pointers as it likes: behind an insertion at the front, and behind taking one element
out, which makes whatever pointed at it point past it.
-/

namespace LinkedChain

variable {β : Type*} {next prev next' prev' : β → Option β}

/-- The pointers of a list with the left neighbour `p`. -/
def Linked (next prev : β → Option β) : Option β → List β → Prop
  | _, [] => True
  | p, x :: rest => prev x = p ∧ next x = rest.head? ∧ Linked next prev (some x) rest

theorem Linked.congr {list : List β} : ∀ {p : Option β}, Linked next prev p list →
    (∀ x ∈ list, next' x = next x) → (∀ x ∈ list, prev' x = prev x) → Linked next' prev' p list := by
  induction list with
  | nil => exact fun _ _ _ => trivial
  | cons x rest ih =>
      intro p h hnext hprev
      refine ⟨?_, ?_, ih h.2.2 (fun y hy => hnext y (List.mem_cons_of_mem x hy))
        fun y hy => hprev y (List.mem_cons_of_mem x hy)⟩
      · rw [hprev x List.mem_cons_self]
        exact h.1
      · rw [hnext x List.mem_cons_self]
        exact h.2.1

theorem Linked.mem_of_next {list : List β} : ∀ {p : Option β}, Linked next prev p list →
    ∀ {x y}, x ∈ list → next x = some y → y ∈ list := by
  induction list with
  | nil =>
      intro _ _ x _ hx _
      cases hx
  | cons z rest ih =>
      intro p h x y hx hnext
      rcases List.mem_cons.mp hx with rfl | hx
      · rw [h.2.1] at hnext
        exact List.mem_cons_of_mem _ (List.mem_of_head? hnext)
      · exact List.mem_cons_of_mem _ (ih h.2.2 hx hnext)

theorem Linked.mem_of_prev {list : List β} : ∀ {p : Option β}, Linked next prev p list →
    ∀ {x y}, x ∈ list → prev x = some y → p = some y ∨ y ∈ list := by
  induction list with
  | nil =>
      intro _ _ x _ hx _
      cases hx
  | cons z rest ih =>
      intro p h x y hx hprev
      rcases List.mem_cons.mp hx with rfl | hx
      · exact Or.inl (h.1.symm.trans hprev)
      · rcases ih h.2.2 hx hprev with hz | hy
        · exact Or.inr (Option.some.inj hz ▸ List.mem_cons_self)
        · exact Or.inr (List.mem_cons_of_mem z hy)

theorem Linked.prev_of_next {list : List β} : ∀ {p : Option β}, Linked next prev p list →
    ∀ {x y}, x ∈ list → next x = some y → prev y = some x := by
  induction list with
  | nil =>
      intro _ _ x _ hx _
      cases hx
  | cons z rest ih =>
      intro p h x y hx hnext
      rcases List.mem_cons.mp hx with rfl | hx
      · rw [h.2.1] at hnext
        obtain ⟨rest, rfl⟩ := List.head?_eq_some_iff.mp hnext
        exact h.2.2.1
      · exact ih h.2.2 hx hnext

theorem Linked.next_of_prev {list : List β} : ∀ {p : Option β}, Linked next prev p list →
    list.Nodup → ∀ {x y}, x ∈ list → prev x = some y → p = some y ∨ next y = some x := by
  induction list with
  | nil =>
      intro _ _ _ x _ hx _
      cases hx
  | cons z rest ih =>
      intro p h hnodup x y hx hprev
      rcases List.mem_cons.mp hx with rfl | hx
      · exact Or.inl (h.1.symm.trans hprev)
      refine Or.inr ((ih h.2.2 hnodup.of_cons hx hprev).elim (fun hz => ?_) id)
      obtain rfl := Option.some.inj hz
      cases rest with
      | nil => cases hx
      | cons w rest =>
          rcases List.mem_cons.mp hx with rfl | hx
          · exact h.2.1
          · -- only the first of the rest points at `z`
            have hnot : z ∉ w :: rest := (List.nodup_cons.mp hnodup).1
            rcases h.2.2.2.2.mem_of_prev hx hprev with hw | hz
            · exact absurd (Option.some.inj hw ▸ List.mem_cons_self) hnot
            · exact absurd (List.mem_cons_of_mem w hz) hnot

theorem Linked.cons {list : List β} {b : β} (h : Linked next prev none list)
    (hnodup : list.Nodup) (hnext : next' b = list.head?) (hprev : prev' b = none)
    (hnexts : ∀ x ∈ list, next' x = next x)
    (hfirst : ∀ x, list.head? = some x → prev' x = some b)
    (hprevs : ∀ x ∈ list, list.head? ≠ some x → prev' x = prev x) :
    Linked next' prev' none (b :: list) := by
  refine ⟨hprev, hnext, ?_⟩
  cases list with
  | nil => trivial
  | cons y rest =>
      have hy : y ∉ rest := (List.nodup_cons.mp hnodup).1
      refine ⟨hfirst y rfl, (hnexts y List.mem_cons_self).trans h.2.1, h.2.2.congr ?_ ?_⟩
      · exact fun x hx => hnexts x (List.mem_cons_of_mem y hx)
      · refine fun x hx => hprevs x (List.mem_cons_of_mem y hx) fun heq => hy ?_
        rw [Option.some.inj heq]
        exact hx

section Erase

variable [DecidableEq β]

theorem Linked.head_erase {list : List β} {p : Option β} {b : β} (h : Linked next prev p list) :
    (list.erase b).head? = if list.head? = some b then next b else list.head? := by
  cases list with
  | nil => rfl
  | cons x rest =>
      by_cases hx : x = b
      · subst hx
        rw [List.erase_cons_head, List.head?_cons, if_pos rfl, h.2.1]
      · rw [List.erase_cons_tail (by simpa using hx), List.head?_cons, List.head?_cons,
          if_neg fun heq => hx (Option.some.inj heq)]

theorem Linked.erase {list : List β} {b : β} : ∀ {p : Option β}, Linked next prev p list →
    list.Nodup → p ≠ some b →
    (∀ x ∈ list, x ≠ b → next' x = if next x = some b then next b else next x) →
    (∀ x ∈ list, x ≠ b → prev' x = if prev x = some b then prev b else prev x) →
    Linked next' prev' p (list.erase b) := by
  induction list with
  | nil => exact fun _ _ _ _ _ => trivial
  | cons x rest ih =>
      intro p h hnodup hp hnext hprev
      have hx : x ∉ rest := (List.nodup_cons.mp hnodup).1
      by_cases hxb : x = b
      · subst hxb
        rw [List.erase_cons_head]
        cases rest with
        | nil => trivial
        | cons y rest =>
            have hne : ∀ z ∈ y :: rest, z ≠ x := fun z hz heq => hx (heq ▸ hz)
            have hto : ∀ z ∈ y :: rest, next z ≠ some x := fun z hz heq =>
              hx (h.2.2.mem_of_next hz heq)
            have hy : y ∉ rest := (List.nodup_cons.mp hnodup.of_cons).1
            have hfrom : ∀ z ∈ rest, prev z ≠ some x := fun z hz heq => by
              rcases h.2.2.2.2.mem_of_prev hz heq with hyx | hmem
              · exact hne y List.mem_cons_self (Option.some.inj hyx)
              · exact hx (List.mem_cons_of_mem y hmem)
            refine ⟨?_, ?_, h.2.2.2.2.congr (fun z hz => ?_) fun z hz => ?_⟩
            · rw [hprev y (List.mem_cons_of_mem x List.mem_cons_self) (hne y List.mem_cons_self),
                if_pos h.2.2.1, h.1]
            · rw [hnext y (List.mem_cons_of_mem x List.mem_cons_self) (hne y List.mem_cons_self),
                if_neg (hto y List.mem_cons_self), h.2.2.2.1]
            · have hz := List.mem_cons_of_mem y hz
              rw [hnext z (List.mem_cons_of_mem x hz) (hne z hz), if_neg (hto z hz)]
            · rw [hprev z (List.mem_cons_of_mem x (List.mem_cons_of_mem y hz))
                (hne z (List.mem_cons_of_mem y hz)), if_neg (hfrom z hz)]
      · rw [List.erase_cons_tail (by simpa using hxb)]
        refine ⟨?_, ?_, ih h.2.2 hnodup.of_cons (fun heq => hxb (Option.some.inj heq)) ?_ ?_⟩
        · rw [hprev x List.mem_cons_self hxb, h.1, if_neg hp]
        · rw [hnext x List.mem_cons_self hxb, h.2.2.head_erase, h.2.1]
        · exact fun z hz => hnext z (List.mem_cons_of_mem x hz)
        · exact fun z hz => hprev z (List.mem_cons_of_mem x hz)

end Erase

end LinkedChain
