import Mathlib.Data.List.Nodup
import Mathlib.Logic.Function.Basic

/-!
# Singly linked queues

A head and a `next` pointer for each element of `β`. `IsQueue` says which list they represent. Insertion walks to
the end, so it returns only where there is one.
-/

structure LinkedQueue (β : Type*) where
  head : Option β
  next : β → Option β

namespace LinkedQueue

variable {β : Type*} [DecidableEq β]

def insertFrom (b : β) : Nat → β → (β → Option β) → Option (β → Option β)
  | 0, _, _ => none
  | fuel + 1, x, next =>
      match next x with
      | none => some (Function.update next x (some b))
      | some y => insertFrom b fuel y next

def append (queue : LinkedQueue β) (fuel : Nat) (b : β) : Option (LinkedQueue β) :=
  let next := Function.update queue.next b none
  match queue.head with
  | none => some ⟨some b, next⟩
  | some x => (insertFrom b fuel x next).map fun next => ⟨some x, next⟩

def Linked (next : β → Option β) : Option β → List β → Prop
  | p, [] => p = none
  | p, x :: rest => p = some x ∧ Linked next (next x) rest

/-- The queue represents a list: each element once. -/
structure IsQueue (queue : LinkedQueue β) (list : List β) : Prop where
  nodup : list.Nodup
  linked : Linked queue.next queue.head list

omit [DecidableEq β] in
theorem Linked.congr {next next' : β → Option β} {list : List β} : ∀ {p : Option β},
    Linked next p list → (∀ x ∈ list, next' x = next x) → Linked next' p list := by
  induction list with
  | nil => exact fun h _ => h
  | cons x rest ih =>
      intro p h hsame
      refine ⟨h.1, ?_⟩
      rw [hsame x List.mem_cons_self]
      exact ih h.2 fun y hy => hsame y (List.mem_cons_of_mem x hy)

theorem insertFrom_linked {b : β} {rest : List β} : ∀ {fuel : Nat} {x : β} {next : β → Option β},
    Linked next (some x) (x :: rest) → (x :: rest).Nodup → b ∉ x :: rest → next b = none → rest.length < fuel →
      ∃ next', insertFrom b fuel x next = some next' ∧ Linked next' (some x) (x :: rest ++ [b]) ∧
        ∀ y, y ∉ x :: rest → next' y = next y := by
  induction rest with
  | nil =>
      intro fuel x next hlinked _ hb hnone hfuel
      obtain ⟨fuel, rfl⟩ := Nat.exists_eq_add_of_lt hfuel
      have hx : next x = none := hlinked.2
      have hne : b ≠ x := fun heq => hb (heq ▸ List.mem_cons_self)
      refine ⟨Function.update next x (some b), ?_, ⟨rfl, ?_, ?_⟩, ?_⟩
      · simp only [insertFrom, hx]
      · rw [Function.update_self]
      · rw [Function.update_of_ne hne]
        exact hnone
      · intro y hy
        rw [Function.update_of_ne]
        rintro rfl
        exact hy List.mem_cons_self
  | cons y rest ih =>
      intro fuel x next hlinked hnodup hb hnone hfuel
      obtain ⟨fuel, rfl⟩ : ∃ less, fuel = less + 1 := ⟨fuel - 1, by omega⟩
      have hx : next x = some y := hlinked.2.1
      have hrest : Linked next (some y) (y :: rest) := hx ▸ hlinked.2
      obtain ⟨next', hinsert, hlinked', hsame⟩ := ih hrest hnodup.of_cons
        (fun hmem => hb (List.mem_cons_of_mem x hmem)) hnone (Nat.lt_of_succ_lt_succ hfuel)
      refine ⟨next', ?_, ⟨rfl, ?_⟩, ?_⟩
      · simp only [insertFrom, hx]
        exact hinsert
      · rw [hsame x (List.nodup_cons.mp hnodup).1, hx]
        exact hlinked'
      · exact fun z hz => hsame z fun hmem => hz (List.mem_cons_of_mem x hmem)

theorem IsQueue.append {queue : LinkedQueue β} {list : List β} (h : queue.IsQueue list) {b : β} (hb : b ∉ list)
    {fuel : Nat} (hfuel : list.length ≤ fuel) :
    ∃ queue', queue.append fuel b = some queue' ∧ queue'.IsQueue (list ++ [b]) := by
  have hnodup : (list ++ [b]).Nodup := List.nodup_append.mpr
    ⟨h.nodup, List.nodup_singleton b, fun x hx y hy heq => hb (by rwa [← List.mem_singleton.mp hy, ← heq])⟩
  have hcleared : Linked (Function.update queue.next b none) queue.head list := by
    apply h.linked.congr
    intro x hx
    rw [Function.update_of_ne]
    rintro rfl
    exact hb hx
  unfold LinkedQueue.append
  cases list with
  | nil =>
      have hhead : queue.head = none := h.linked
      refine ⟨⟨some b, Function.update queue.next b none⟩, ?_, hnodup, rfl, ?_⟩
      · simp only [hhead]
      · exact Function.update_self ..
  | cons x rest =>
      have hhead : queue.head = some x := h.linked.1
      rw [hhead] at hcleared
      obtain ⟨next', hinsert, hlinked, -⟩ := insertFrom_linked hcleared h.nodup hb
        (Function.update_self ..) hfuel
      refine ⟨⟨some x, next'⟩, ?_, hnodup, hlinked⟩
      simp only [hhead, hinsert, Option.map_some]

omit [DecidableEq β] in
/-- The head is the first element, and the queue behind it is the rest. -/
theorem IsQueue.tail {queue : LinkedQueue β} {b : β} {list : List β} (h : queue.IsQueue (b :: list)) :
    IsQueue ⟨queue.next b, queue.next⟩ list :=
  ⟨h.nodup.of_cons, h.linked.2⟩

omit [DecidableEq β] in
theorem IsQueue.head_eq {queue : LinkedQueue β} {list : List β} (h : queue.IsQueue list) :
    queue.head = list.head? := by
  cases list with
  | nil => exact h.linked
  | cons x rest => exact h.linked.1

end LinkedQueue
