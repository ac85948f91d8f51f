import Xv6.Malloc.Blocks

/-!
# The heap between two calls

What `umalloc.c` has in memory after any calls of `malloc` and `free` whose requests are at most
2 ^ 30 bytes: a free list in address order that turns around once and keeps its blocks apart by at
least one byte, and live blocks whose headers still say what `malloc` wrote there. None overlaps
another, all of it came from `sbrk`, and both functions return whatever they are called with next.
-/

namespace Xv6.Malloc

variable {m : Machine} {s : State} {nodes live : Finset Nat}

theorem Abi.units_mul_unit_lt (abi : Abi) {nbytes : Nat} (hle : nbytes ≤ 2 ^ 30) :
    abi.units nbytes * abi.unit < 2 ^ 31 := by
  cases abi <;> simp only [units, unit, wordBits] <;> omega

theorem fits_of_le {nbytes : Nat} (hle : nbytes ≤ 2 ^ 30) : Fits m s nbytes := by
  have hsum : nbytes + m.abi.unit - 1 < 2 ^ m.abi.wordBits := by
    cases m.abi <;> simp only [Abi.unit, Abi.wordBits] <;> omega
  exact ⟨by omega, hsum, Or.inl (m.abi.units_mul_unit_lt hle)⟩

def Block.header (abi : Abi) (block : Block) : Nat := block.ptr - abi.unit

def Heap.Apart (heap : Heap) (abi : Abi) (a b : Nat) : Prop :=
  heap.blockEnd abi a ≤ b ∨ heap.blockEnd abi b ≤ a

/-- The free list and the live blocks. -/
structure State.Intact (m : Machine) (s : State) (free : Finset Nat) : Prop where
  onList : ∀ p, s.heap.OnList p ↔ p ∈ free
  base_mem : m.base ∈ free
  sorted : SortedRing s.heap.ptr free
  wraps_once : ∃! a, a ∈ free ∧ s.heap.ptr a ≤ a
  spaced : ∀ a ∈ free, ∀ b ∈ free, a ≠ b → s.heap.blockEnd m.abi a ≠ b
  header : ∀ block ∈ s.live, block.header m.abi + m.abi.unit = block.ptr ∧
    s.heap.size (block.header m.abi) = m.abi.units block.nbytes
  room : ∀ block ∈ s.live,
    block.ptr + block.nbytes ≤ s.heap.blockEnd m.abi (block.header m.abi)
  free_granted : ∀ a ∈ free, ∀ x, a ≤ x → x < s.heap.blockEnd m.abi a → s.Granted x
  live_granted : ∀ block ∈ s.live, ∀ x, block.header m.abi ≤ x →
    x < s.heap.blockEnd m.abi (block.header m.abi) → s.Granted x
  free_apart : ∀ a ∈ free, ∀ b ∈ free, a ≠ b → s.heap.Apart m.abi a b
  live_apart : s.live.Pairwise fun block other =>
    s.heap.Apart m.abi (block.header m.abi) (other.header m.abi)
  apart : ∀ a ∈ free, ∀ block ∈ s.live, s.heap.Apart m.abi a (block.header m.abi)

namespace Accounted

theorem intact (h : Accounted m s nodes live) {freep : Nat} (hfreep : s.heap.freep = some freep) :
    s.Intact m nodes := by
  have hsound := h.sound
  have hblocks := h.blocks
  rw [prepare_of_freep hfreep] at hsound hblocks
  have htiled := hsound.tiled
  have hring := htiled.ring
  have hfirst : freep ∈ nodes := by
    obtain ⟨first, hmem, hfirst⟩ := hsound.freep
    exact Option.some.inj (hfreep.symm.trans hfirst) ▸ hmem
  have hheader : ∀ block ∈ s.live, block.header m.abi ∈ live ∧
      block.header m.abi + m.abi.unit = block.ptr ∧
      s.heap.size (block.header m.abi) = m.abi.units block.nbytes ∧
      block.nbytes + m.abi.unit ≤ s.heap.size (block.header m.abi) * m.abi.unit := by
    intro block hblock
    obtain ⟨a, ha, hptr, hroom, hsize⟩ := hblocks block hblock
    have heq : block.header m.abi = a := by rw [Block.header, hptr, Nat.add_sub_cancel]
    rw [heq]
    exact ⟨ha, hptr.symm, hsize, hroom⟩
  refine ⟨fun p => ⟨fun hp => (h.onList hp).1, fun hp => ?_⟩, htiled.base_mem, hring,
    hring.wraps_once ⟨freep, hfirst⟩, fun a ha b hb hne htouch => ?_,
    fun block hblock => ?_, fun block hblock => ?_,
    fun a ha => htiled.inside a (Finset.mem_union_left live ha), fun block hblock => ?_,
    fun a ha b hb => htiled.apart a (Finset.mem_union_left live ha) b
      (Finset.mem_union_left live hb), ?_, fun a ha block hblock => ?_⟩
  · obtain ⟨k, hk⟩ := hring.exists_iterate hfirst hp
    exact ⟨freep, k, hfreep, hk⟩
  · have hnext := htiled.next_of_touch ha hb hne htouch
    exact hsound.spaced a ha id (hnext ▸ hne.symm) (htouch.trans hnext.symm)
  · obtain ⟨-, hptr, hsize, -⟩ := hheader block hblock
    exact ⟨hptr, hsize⟩
  · obtain ⟨-, hptr, -, hroom⟩ := hheader block hblock
    unfold Heap.blockEnd
    omega
  · exact htiled.inside _ (Finset.mem_union_right nodes (hheader block hblock).1)
  · refine List.Pairwise.imp_of_mem ?_ (List.pairwise_map.mp h.nodup)
    intro block other hblock hother hne
    obtain ⟨hlive, hptr, -⟩ := hheader block hblock
    obtain ⟨hlive', hptr', -⟩ := hheader other hother
    exact htiled.apart _ (Finset.mem_union_right nodes hlive) _
      (Finset.mem_union_right nodes hlive') fun heq => hne (by rw [← hptr, ← hptr', heq])
  · have hlive := (hheader block hblock).1
    exact htiled.apart a (Finset.mem_union_left live ha) _ (Finset.mem_union_right nodes hlive)
      (htiled.ne_of_mem ha hlive)

theorem free_returns (h : Accounted m s nodes live) {block : Block} (hblock : block ∈ s.live) :
    ∃ heap bound, ∀ fuel ≥ bound, s.heap.free m.abi fuel block.ptr = some heap := by
  have hsound := h.sound
  have hblocks := h.blocks
  obtain ⟨freep, hfreep⟩ := Option.ne_none_iff_exists'.mp fun hnone =>
    List.ne_nil_of_mem hblock (h.first hnone)
  rw [prepare_of_freep hfreep] at hsound hblocks
  obtain ⟨a, ha, hptr, -⟩ := hblocks block hblock
  obtain ⟨bound, hbound⟩ := hsound.tiled.free hsound.arena hsound.freep ha
  obtain ⟨heap, hfree, -⟩ := hbound bound (Nat.le_refl bound)
  exact ⟨heap, bound, fun fuel hfuel => hptr ▸ Heap.free_mono hfree hfuel⟩

end Accounted

/-- **The heap stays intact.** After any calls of `malloc` and `free` whose requests are at most
2 ^ 30 bytes, the process lives, its free list and its blocks are in order, and both functions
return from whatever they are called with next. -/
theorem intact_of_run (m : Machine) (fuel : Nat) {actions : List Action} {s : State}
    (hrun : Transition.run (step m fuel) (.init m) actions = some s)
    (hsmall : ∀ nbytes, .malloc nbytes ∈ actions → nbytes ≤ 2 ^ 30) :
    s.killed = false ∧
      ((s.heap.freep = none ∧ s.live = []) ∨ ∃ free, s.Intact m free) ∧
      (∀ nbytes ≤ 2 ^ 30, ∃ after outcome, outcome ≠ .fault ∧
        ∃ bound, ∀ fuel ≥ bound, malloc m fuel s nbytes = some (after, outcome)) ∧
      ∀ block ∈ s.live, ∃ heap bound, ∀ fuel ≥ bound,
        s.heap.free m.abi fuel block.ptr = some heap := by
  have hpreserve : ∀ state action next, (∃ nodes live, Accounted m state nodes live) →
      (∀ nbytes, action = .malloc nbytes → nbytes ≤ 2 ^ 30) →
      step m fuel state action = some next → ∃ nodes live, Accounted m next nodes live :=
    fun _ _ _ ⟨_, _, h⟩ hle hstep => h.step (fun nbytes heq => fits_of_le (hle nbytes heq)) hstep
  have halong : Transition.Along (step m fuel)
      (fun _ action => ∀ nbytes, action = .malloc nbytes → nbytes ≤ 2 ^ 30) (.init m) actions :=
    Transition.along_of_forall_mem fun action haction nbytes heq => hsmall nbytes (heq ▸ haction)
  obtain ⟨nodes, live, haccounted⟩ :=
    Transition.invariant_along hpreserve ⟨_, _, .init m⟩ halong hrun
  refine ⟨haccounted.alive, ?_, fun nbytes hle => ?_, fun block => haccounted.free_returns⟩
  · cases hfreep : s.heap.freep with
    | none => exact Or.inl ⟨rfl, haccounted.first hfreep⟩
    | some freep => exact Or.inr ⟨nodes, haccounted.intact hfreep⟩
  · obtain ⟨bound, ⟨after, outcome⟩, hreturns, hends⟩ := haccounted.malloc (fits_of_le hle)
    refine ⟨after, outcome, ?_, bound, hreturns⟩
    rintro rfl
    exact hends

/-- Two requests, and the first block given back. -/
theorem intact_of_run_freed :
    ∃ s, Transition.run (step (.small .lp64) 5) (.init (.small .lp64))
        [.malloc 1000, .malloc 500, .free 72720] = some s ∧
      s.killed = false ∧
      ((s.heap.freep = none ∧ s.live = []) ∨ ∃ free, s.Intact (.small .lp64) free) ∧
      (∀ nbytes ≤ 2 ^ 30, ∃ after outcome, outcome ≠ .fault ∧
        ∃ bound, ∀ fuel ≥ bound, malloc (.small .lp64) fuel s nbytes = some (after, outcome)) ∧
      ∀ block ∈ s.live, ∃ heap bound, ∀ fuel ≥ bound,
        s.heap.free Abi.lp64 fuel block.ptr = some heap := by
  have hreturns : (Transition.run (step (.small .lp64) 5) (.init (.small .lp64))
      [.malloc 1000, .malloc 500, .free 72720]).isSome := by decide
  obtain ⟨s, hs⟩ := Option.isSome_iff_exists.mp hreturns
  exact ⟨s, hs, intact_of_run (.small .lp64) 5 hs fun nbytes hmem => by simp at hmem; omega⟩

end Xv6.Malloc
