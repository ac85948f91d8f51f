import Mathlib.Data.List.Nodup
import Mathlib.Logic.Function.Basic

/-!
# Circular doubly linked lists with a head

The nodes are the elements of `β` and one head, `none`. The pointers are two total functions, and
`IsRing` says which list of elements they represent: following `next` from the head visits it in
order and comes back, and `prev` undoes every step. The list surgery of a program is then a theorem
about lists: inserting behind the head is `cons`, unlinking is removal, and a scan in either
direction is `List.find?` on the list or on its reverse.
-/

structure LinkedRing (β : Type*) where
  next : Option β → Option β
  prev : Option β → Option β

namespace LinkedRing

variable {β : Type*} [DecidableEq β]

def empty : LinkedRing β where
  next := fun _ => none
  prev := fun _ => none

def pushFront (ring : LinkedRing β) (b : β) : LinkedRing β :=
  let ring := { ring with next := Function.update ring.next (some b) (ring.next none) }
  let ring := { ring with prev := Function.update ring.prev (some b) none }
  let ring := { ring with prev := Function.update ring.prev (ring.next none) (some b) }
  { ring with next := Function.update ring.next none (some b) }

def unlink (ring : LinkedRing β) (b : β) : LinkedRing β :=
  let ring := { ring with
    prev := Function.update ring.prev (ring.next (some b)) (ring.prev (some b)) }
  { ring with next := Function.update ring.next (ring.prev (some b)) (ring.next (some b)) }

def moveToFront (ring : LinkedRing β) (b : β) : LinkedRing β := (ring.unlink b).pushFront b

def flip (ring : LinkedRing β) : LinkedRing β where
  next := ring.prev
  prev := ring.next

/-- From a node on, the first one that satisfies `p`, giving up at the head or out of fuel. -/
def scanFrom (ring : LinkedRing β) (p : β → Bool) : Nat → Option β → Option β
  | 0, _ => none
  | _ + 1, none => none
  | fuel + 1, some b => if p b then some b else ring.scanFrom p fuel (ring.next (some b))

/-- `for(b = head.next; b != head; b = b->next)`, returning the first `b` with `p b`. -/
def scanNext (ring : LinkedRing β) (fuel : Nat) (p : β → Bool) : Option β :=
  ring.scanFrom p fuel (ring.next none)

/-- `for(b = head.prev; b != head; b = b->prev)`, returning the first `b` with `p b`. -/
def scanPrev (ring : LinkedRing β) (fuel : Nat) (p : β → Bool) : Option β := ring.flip.scanNext fuel p

/-- The nodes strictly between `x` and `y`, with every pair of neighbours linked both ways. -/
def Path (ring : LinkedRing β) : Option β → List β → Option β → Prop
  | x, [], y => ring.next x = y ∧ ring.prev y = x
  | x, b :: nodes, y => ring.next x = some b ∧ ring.prev (some b) = x ∧ ring.Path (some b) nodes y

/-- The pointers represent a list: each of its nodes once, with consistent links. -/
structure IsRing (ring : LinkedRing β) (nodes : List β) : Prop where
  nodup : nodes.Nodup
  path : ring.Path none nodes none

section Path

variable {ring ring' : LinkedRing β}

omit [DecidableEq β] in
theorem path_append {x y : Option β} {before after : List β} {b : β} :
    ring.Path x (before ++ b :: after) y ↔
      ring.Path x before (some b) ∧ ring.Path (some b) after y := by
  induction before generalizing x with
  | nil => simp [Path, and_assoc]
  | cons c before ih => simp [Path, ih, and_assoc]

omit [DecidableEq β] in
/-- A path only looks at the `next` of its start and nodes and the `prev` of its nodes and end. -/
theorem Path.congr {x y : Option β} {nodes : List β} (h : ring.Path x nodes y)
    (hnext : ∀ z, z = x ∨ (∃ b ∈ nodes, z = some b) → ring'.next z = ring.next z)
    (hprev : ∀ z, z = y ∨ (∃ b ∈ nodes, z = some b) → ring'.prev z = ring.prev z) :
    ring'.Path x nodes y := by
  induction nodes generalizing x with
  | nil => exact ⟨(hnext _ (Or.inl rfl)).trans h.1, (hprev _ (Or.inl rfl)).trans h.2⟩
  | cons b nodes ih =>
      obtain ⟨hx, hb, hrest⟩ := h
      refine ⟨(hnext _ (Or.inl rfl)).trans hx,
        (hprev _ (Or.inr ⟨b, List.mem_cons_self, rfl⟩)).trans hb, ih hrest ?_ ?_⟩
      · rintro z (rfl | ⟨c, hc, rfl⟩)
        · exact hnext _ (Or.inr ⟨b, List.mem_cons_self, rfl⟩)
        · exact hnext _ (Or.inr ⟨c, List.mem_cons_of_mem _ hc, rfl⟩)
      · rintro z (rfl | ⟨c, hc, rfl⟩)
        · exact hprev _ (Or.inl rfl)
        · exact hprev _ (Or.inr ⟨c, List.mem_cons_of_mem _ hc, rfl⟩)

omit [DecidableEq β] in
theorem Path.flip {x y : Option β} {nodes : List β} (h : ring.Path x nodes y) :
    ring.flip.Path y nodes.reverse x := by
  induction nodes generalizing x with
  | nil => exact ⟨h.2, h.1⟩
  | cons b nodes ih =>
      rw [List.reverse_cons, path_append]
      exact ⟨ih h.2.2, h.2.1, h.1⟩

omit [DecidableEq β] in
theorem Path.prev_end {x y : Option β} {nodes : List β} (h : ring.Path x nodes y) :
    ring.prev y = x ∨ ∃ b ∈ nodes, ring.prev y = some b := by
  induction nodes generalizing x with
  | nil => exact Or.inl h.2
  | cons b nodes ih =>
      refine Or.inr ?_
      obtain hb | ⟨c, hc, hprev⟩ := ih h.2.2
      · exact ⟨b, List.mem_cons_self, hb⟩
      · exact ⟨c, List.mem_cons_of_mem _ hc, hprev⟩

omit [DecidableEq β] in
theorem Path.next_start {x y : Option β} {nodes : List β} (h : ring.Path x nodes y) :
    ring.next x = y ∨ ∃ b ∈ nodes, ring.next x = some b := by
  cases nodes with
  | nil => exact Or.inl h.1
  | cons b nodes => exact Or.inr ⟨b, List.mem_cons_self, h.1⟩

theorem Path.unlink {x : Option β} {before after : List β} {b : β}
    (hbefore : ring.Path x before (some b)) (hafter : ring.Path (some b) after none)
    (hnodup : (before ++ b :: after).Nodup) (hx : ∀ c ∈ before ++ b :: after, x ≠ some c) :
    (ring.unlink b).Path x (before ++ after) none := by
  induction before generalizing x with
  | nil =>
      have hxb : x ≠ some b := hx b List.mem_cons_self
      obtain ⟨-, hprev⟩ := hbefore
      cases after with
      | nil =>
          obtain ⟨hnext, -⟩ := hafter
          simp [LinkedRing.unlink, Path, hprev, hnext]
      | cons c after =>
          obtain ⟨hnext, -, hrest⟩ := hafter
          have hxc : x ≠ some c := hx c (by simp)
          have hbc : b ≠ c := by simp at hnodup; tauto
          have hc : c ∉ after := by simp at hnodup; tauto
          refine ⟨by simp [LinkedRing.unlink, hprev, hnext, hbc], by simp [LinkedRing.unlink, hprev, hnext],
            hrest.congr ?_ ?_⟩
          · rintro z (rfl | ⟨d, hd, rfl⟩)
            · simp [LinkedRing.unlink, hprev, hnext, hbc, hxc.symm]
            · have hxd : x ≠ some d := hx d (by simp [hd])
              simp [LinkedRing.unlink, hprev, hnext, hbc, hxd.symm]
          · rintro z (rfl | ⟨d, hd, rfl⟩)
            · simp [LinkedRing.unlink, hnext]
            · have hdc : d ≠ c := fun heq => hc (heq ▸ hd)
              simp [LinkedRing.unlink, hnext, hdc]
  | cons d before ih =>
      obtain ⟨hnext, hprev, hrest⟩ := hbefore
      have hd : ∀ c ∈ before ++ b :: after, some d ≠ some c := by
        intro c hc heq
        rw [Option.some.injEq] at heq
        exact (List.nodup_cons.mp hnodup).1 (heq ▸ hc)
      -- the two pointers written belong to the nodes next to `b`, past `d`
      have hprevB : ring.prev (some b) ≠ x := by
        obtain hlast | ⟨c, hc, hlast⟩ := hrest.prev_end
        · rw [hlast]
          exact (hx d (by simp)).symm
        · rw [hlast]
          exact (hx c (by simp [hc])).symm
      have hnextB : ring.next (some b) ≠ some d := by
        obtain hfirst | ⟨c, hc, hfirst⟩ := hafter.next_start
        · simp [hfirst]
        · rw [hfirst]
          exact (hd c (by simp [hc])).symm
      have hbNext : some b ≠ ring.next (some b) := by
        obtain hfirst | ⟨c, hc, hfirst⟩ := hafter.next_start
        · simp [hfirst]
        · rw [hfirst, ne_eq, Option.some.injEq]
          rintro rfl
          simp [List.nodup_append, hc] at hnodup
      refine ⟨?_, ?_, ih hrest (List.nodup_cons.mp hnodup).2 hd⟩
      · simp [LinkedRing.unlink, hbNext, hprevB.symm, hnext]
      · simp [LinkedRing.unlink, hnextB.symm, hprev]

omit [DecidableEq β] in
theorem Path.scanFrom {x : Option β} {nodes : List β} (h : ring.Path x nodes none)
    (p : β → Bool) {fuel : Nat} (hfuel : nodes.length < fuel) :
    ring.scanFrom p fuel (ring.next x) = nodes.find? p := by
  induction nodes generalizing x fuel with
  | nil =>
      obtain ⟨fuel, rfl⟩ : ∃ rest, fuel = rest + 1 := ⟨fuel - 1, by simp at hfuel; omega⟩
      rw [h.1]
      rfl
  | cons b nodes ih =>
      obtain ⟨fuel, rfl⟩ : ∃ rest, fuel = rest + 1 := ⟨fuel - 1, by omega⟩
      rw [h.1, LinkedRing.scanFrom, List.find?_cons]
      cases p b with
      | true => rfl
      | false =>
          rw [if_neg (by simp)]
          exact ih h.2.2 (by simp at hfuel; omega)

end Path

namespace IsRing

variable {ring : LinkedRing β} {nodes : List β}

omit [DecidableEq β] in
theorem empty : (LinkedRing.empty : LinkedRing β).IsRing [] := ⟨List.nodup_nil, rfl, rfl⟩

omit [DecidableEq β] in
theorem flip (h : ring.IsRing nodes) : ring.flip.IsRing nodes.reverse :=
  ⟨List.nodup_reverse.mpr h.nodup, h.path.flip⟩

theorem pushFront {b : β} (h : ring.IsRing nodes) (hb : b ∉ nodes) :
    (ring.pushFront b).IsRing (b :: nodes) := by
  refine ⟨List.nodup_cons.mpr ⟨hb, h.nodup⟩, ?_⟩
  cases nodes with
  | nil =>
      obtain ⟨hnext, hprev⟩ := h.path
      simp [LinkedRing.pushFront, Path, hnext]
  | cons c nodes =>
      obtain ⟨hnext, hprev, hrest⟩ := h.path
      have hcb : c ≠ b := fun heq => hb (heq ▸ List.mem_cons_self)
      have hnodes : b ∉ nodes := fun hmem => hb (List.mem_cons_of_mem _ hmem)
      have hc : c ∉ nodes := (List.nodup_cons.mp h.nodup).1
      refine ⟨by simp [LinkedRing.pushFront], ?_, by simp [LinkedRing.pushFront, hnext], ?_, ?_⟩
      · simp [LinkedRing.pushFront, hnext, hcb.symm]
      · simp [LinkedRing.pushFront, hnext]
      · refine hrest.congr ?_ ?_
        · rintro z (rfl | ⟨d, hd, rfl⟩)
          · simp [LinkedRing.pushFront, hcb]
          · have hdb : d ≠ b := fun heq => hnodes (heq ▸ hd)
            simp [LinkedRing.pushFront, hdb]
        · rintro z (rfl | ⟨d, hd, rfl⟩)
          · simp [LinkedRing.pushFront, hnext]
          · have hdb : d ≠ b := fun heq => hnodes (heq ▸ hd)
            have hdc : d ≠ c := fun heq => hc (heq ▸ hd)
            simp [LinkedRing.pushFront, hnext, hdb, hdc]

theorem unlink {before after : List β} {b : β} (h : ring.IsRing (before ++ b :: after)) :
    (ring.unlink b).IsRing (before ++ after) := by
  obtain ⟨hbefore, hafter⟩ := path_append.mp h.path
  exact ⟨h.nodup.sublist (List.Sublist.append_left (List.sublist_cons_self b after) before),
    hbefore.unlink hafter h.nodup (by simp)⟩

theorem moveToFront {b : β} (h : ring.IsRing nodes) (hb : b ∈ nodes) :
    (ring.moveToFront b).IsRing (b :: nodes.erase b) := by
  obtain ⟨before, after, rfl⟩ := List.append_of_mem hb
  have hnotBefore : b ∉ before := by
    have hdisjoint := List.disjoint_of_nodup_append h.nodup
    exact fun hmem => hdisjoint hmem List.mem_cons_self
  have hnotAfter : b ∉ after := (List.nodup_cons.mp (List.nodup_append.mp h.nodup).2.1).1
  rw [List.erase_append_right _ hnotBefore, List.erase_cons_head]
  exact h.unlink.pushFront (by simp [hnotBefore, hnotAfter])

omit [DecidableEq β] in
theorem scanNext (h : ring.IsRing nodes) {fuel : Nat} (hfuel : nodes.length < fuel)
    (p : β → Bool) : ring.scanNext fuel p = nodes.find? p := h.path.scanFrom p hfuel

omit [DecidableEq β] in
theorem scanPrev (h : ring.IsRing nodes) {fuel : Nat} (hfuel : nodes.length < fuel)
    (p : β → Bool) : ring.scanPrev fuel p = nodes.reverse.find? p :=
  h.flip.scanNext (by simpa using hfuel) p

theorem foldl_pushFront {added : List β} (h : ring.IsRing nodes)
    (hnodup : (added.reverse ++ nodes).Nodup) :
    (added.foldl LinkedRing.pushFront ring).IsRing (added.reverse ++ nodes) := by
  induction added generalizing ring nodes with
  | nil => exact h
  | cons b added ih =>
      rw [List.reverse_cons, List.append_assoc] at hnodup ⊢
      refine ih (h.pushFront ?_) hnodup
      exact (List.nodup_cons.mp (List.nodup_append.mp hnodup).2.1).1

end IsRing

end LinkedRing
