import Mathlib.Data.Finset.Basic
import Xv6.Lib.SortedRing
import Xv6.Malloc.Rounding

/-!
# The free list and the blocks

What a heap looks like between calls: the free headers form a ring in address order that starts at
the static header, and the blocks behind all headers, free or live, lie apart from each other in
granted memory. Freeing puts a live header on the ring and then lets it, and the header before it,
take in a neighbour that touches; allocating takes a header off the ring or cuts the tail off one.
-/

namespace Xv6.Malloc

namespace Heap

def blockEnd (heap : Heap) (abi : Abi) (a : Nat) : Nat := a + heap.size a * abi.unit

structure Tiled (heap : Heap) (abi : Abi) (base : Nat) (granted : Nat → Prop)
    (nodes live : Finset Nat) : Prop where
  ring : SortedRing heap.ptr nodes
  base_mem : base ∈ nodes
  base_size : heap.size base = 0
  disjoint : Disjoint nodes live
  size_pos : ∀ a ∈ nodes ∪ live, a ≠ base → 0 < heap.size a
  inside : ∀ a ∈ nodes ∪ live, ∀ x, a ≤ x → x < heap.blockEnd abi a → granted x
  apart : ∀ a ∈ nodes ∪ live, ∀ b ∈ nodes ∪ live, a ≠ b →
    heap.blockEnd abi a ≤ b ∨ heap.blockEnd abi b ≤ a

def SpacedBut (heap : Heap) (abi : Abi) (nodes : Finset Nat) (changed : Nat → Prop) : Prop :=
  ∀ a ∈ nodes, ¬changed a → heap.ptr a ≠ a → heap.blockEnd abi a ≠ heap.ptr a

def Spaced (heap : Heap) (abi : Abi) (nodes : Finset Nat) : Prop :=
  heap.SpacedBut abi nodes fun _ => False

structure Arena (abi : Abi) (base : Nat) (granted : Nat → Prop) : Prop where
  base_lt : ∀ x, granted x → base < x
  lt_limit : ∀ x, granted x → x + 1 < abi.limit
  base_lt_limit : base < abi.limit

def absorb (heap : Heap) (abi : Abi) (a : Nat) : Heap :=
  if abi.offset a (heap.size a) = heap.ptr a then
    (heap.setSize a ((heap.size a + heap.size (heap.ptr a)) % 2 ^ 32)).setPtr a
      (heap.ptr (heap.ptr a))
  else heap

theorem absorb_ptr_of_ne (heap : Heap) (abi : Abi) {a b : Nat} (hne : b ≠ a) :
    (heap.absorb abi a).ptr b = heap.ptr b := by
  unfold absorb
  split
  · simp [setPtr, setSize, Function.update_of_ne hne]
  · rfl

/-- A header placed on the ring behind `p`. -/
def link (heap : Heap) (p bp : Nat) : Heap := (heap.setPtr bp (heap.ptr p)).setPtr p bp

theorem joinPrev_eq (heap : Heap) (abi : Abi) {p bp : Nat} (hne : bp ≠ p) :
    heap.joinPrev abi p bp = (heap.setPtr p bp).absorb abi p := by
  unfold joinPrev absorb
  simp only [setPtr, setSize, Function.update_self, Function.update_of_ne hne, Function.update_idem]

theorem joinNext_eq (heap : Heap) (abi : Abi) {p bp : Nat} (hne : bp ≠ p)
    (htouch : abi.offset bp (heap.size bp) = heap.ptr p → heap.ptr p ≠ p ∧ heap.ptr p ≠ bp) :
    (heap.joinNext abi p bp).setPtr p bp = (heap.link p bp).absorb abi bp := by
  unfold joinNext absorb link
  simp only [setPtr, setSize, Function.update_self, Function.update_of_ne hne]
  split
  case isTrue heq =>
    obtain ⟨hp, hbp⟩ := htouch heq
    simp only [Function.update_of_ne hp, Function.update_of_ne hbp]
    rw [Function.update_comm hne.symm, Function.update_idem]
  case isFalse => rfl

namespace Tiled

variable {heap : Heap} {abi : Abi} {base : Nat} {granted : Nat → Prop} {nodes live : Finset Nat}
  {a b p : Nat}

section Addresses

variable (h : heap.Tiled abi base granted nodes live) (harena : Arena abi base granted)
include h harena

theorem base_lt (ha : a ∈ nodes ∪ live) (hne : a ≠ base) : base < a := by
  refine harena.base_lt a (h.inside a ha a (Nat.le_refl a) ?_)
  have := Nat.mul_pos (h.size_pos a ha hne) abi.unit_pos
  unfold blockEnd
  omega

theorem blockEnd_lt (ha : a ∈ nodes ∪ live) : heap.blockEnd abi a < abi.limit := by
  obtain rfl | hne := eq_or_ne a base
  · simpa [blockEnd, h.base_size] using harena.base_lt_limit
  · have hpos := Nat.mul_pos (h.size_pos a ha hne) abi.unit_pos
    have hlast := harena.lt_limit (heap.blockEnd abi a - 1)
      (h.inside a ha _ (by unfold blockEnd; omega) (by unfold blockEnd; omega))
    unfold blockEnd at *
    omega

theorem offset_eq (ha : a ∈ nodes ∪ live) {n : Nat} (hle : n ≤ heap.size a) :
    abi.offset a n = a + n * abi.unit := by
  refine Abi.offset_eq ?_
  have hend := h.blockEnd_lt harena ha
  have hmul := Nat.mul_le_mul_right abi.unit hle
  have hlimit := abi.limit_add_slack
  unfold blockEnd at hend
  omega

end Addresses

theorem mono (h : heap.Tiled abi base granted nodes live) {granted' : Nat → Prop}
    (hgranted : ∀ x, granted x → granted' x) : heap.Tiled abi base granted' nodes live :=
  { h with inside := fun a ha x hle hlt => hgranted x (h.inside a ha x hle hlt) }

theorem setFreep (h : heap.Tiled abi base granted nodes live) (freep : Option Nat) :
    Heap.Tiled { heap with freep } abi base granted nodes live :=
  { h with }

theorem ne_of_mem (h : heap.Tiled abi base granted nodes live) (ha : a ∈ nodes) (hb : b ∈ live) :
    a ≠ b := fun heq => Finset.disjoint_left.mp h.disjoint ha (heq ▸ hb)

theorem link (h : heap.Tiled abi base granted nodes live) (hp : p ∈ nodes) (ha : a ∈ live)
    (hstops : heap.Stops a p) :
    (heap.link p a).Tiled abi base granted (insert a nodes) (live.erase a) := by
  have hnot : a ∉ nodes := fun hmem => h.ne_of_mem hmem ha rfl
  have hall : insert a nodes ∪ live.erase a = nodes ∪ live := by
    rw [Finset.insert_union, ← Finset.union_insert, Finset.insert_erase ha]
  refine ⟨h.ring.insert hp hnot hstops, Finset.mem_insert_of_mem h.base_mem, h.base_size, ?_,
    ?_, ?_, ?_⟩
  · rw [Finset.disjoint_insert_left]
    exact ⟨Finset.notMem_erase a live, h.disjoint.mono_right (Finset.erase_subset a live)⟩
  all_goals rw [hall]
  exacts [h.size_pos, h.inside, h.apart]

omit a b p in
/-- Where nothing touched, only a header that is put on the ring and the one before it can touch. -/
theorem link_spaced {a p : Nat} (hspaced : heap.Spaced abi nodes) :
    (heap.link p a).SpacedBut abi (insert a nodes) fun b => b = a ∨ b = p := by
  intro b hb hkept hptr
  have hba : b ≠ a := fun heq => hkept (Or.inl heq)
  have hbp : b ≠ p := fun heq => hkept (Or.inr heq)
  simp only [Heap.link, blockEnd, setPtr, Function.update_of_ne hba, Function.update_of_ne hbp]
    at hptr ⊢
  exact hspaced b ((Finset.mem_insert.mp hb).resolve_left hba) id hptr

theorem merge (h : heap.Tiled abi base granted nodes live) (ha : a ∈ nodes) (hbase : a ≠ base)
    (hself : heap.ptr a ≠ a) (htouch : heap.blockEnd abi a = heap.ptr a)
    (hnext_base : heap.ptr a ≠ base) :
    ((heap.setSize a (heap.size a + heap.size (heap.ptr a))).setPtr a
      (heap.ptr (heap.ptr a))).Tiled abi base granted (nodes.erase (heap.ptr a)) live := by
  have hnext := h.ring.next_mem ha
  have hmem : ∀ b ∈ nodes.erase (heap.ptr a) ∪ live, b ∈ nodes ∪ live ∧ b ≠ heap.ptr a := by
    intro b hb
    obtain hb | hb := Finset.mem_union.mp hb
    · exact ⟨Finset.mem_union_left live (Finset.mem_of_mem_erase hb), Finset.ne_of_mem_erase hb⟩
    · exact ⟨Finset.mem_union_right nodes hb, (h.ne_of_mem hnext hb).symm⟩
  have hall := Finset.mem_union_left live ha
  have hnextall := Finset.mem_union_left live hnext
  -- Only the end of the lower block has changed, and it is that of the upper one.
  have hself' : ((heap.setSize a (heap.size a + heap.size (heap.ptr a))).setPtr a
      (heap.ptr (heap.ptr a))).blockEnd abi a = heap.blockEnd abi (heap.ptr a) := by
    simp only [blockEnd, setSize, setPtr, Function.update_self] at htouch ⊢
    rw [Nat.add_mul]
    omega
  have hother : ∀ b ≠ a, ((heap.setSize a (heap.size a + heap.size (heap.ptr a))).setPtr a
      (heap.ptr (heap.ptr a))).blockEnd abi b = heap.blockEnd abi b := by
    intro b hne
    simp only [blockEnd, setSize, setPtr, Function.update_of_ne hne]
  have hclear : ∀ b ∈ nodes ∪ live, b ≠ a → b ≠ heap.ptr a →
      heap.blockEnd abi (heap.ptr a) ≤ b ∨ heap.blockEnd abi b ≤ a := by
    intro b hb hne hbnext
    obtain hafter | hbefore := h.apart a hall b hb hne.symm
    · obtain hclear | hclash := h.apart _ hnextall b hb hbnext.symm
      · exact Or.inl hclear
      · unfold blockEnd at hclash hafter htouch
        omega
    · exact Or.inr hbefore
  refine ⟨h.ring.erase ha hself, Finset.mem_erase.mpr ⟨hnext_base.symm, h.base_mem⟩, ?_,
    h.disjoint.mono_left (Finset.erase_subset _ nodes), ?_, ?_, ?_⟩
  · simpa [setSize, setPtr, Function.update_of_ne hbase.symm] using h.base_size
  · intro b hb hne
    obtain ⟨hmemb, -⟩ := hmem b hb
    have hpos := h.size_pos b hmemb hne
    obtain rfl | hba := eq_or_ne b a
    · simp only [setSize, setPtr, Function.update_self]
      omega
    · simpa [setSize, setPtr, Function.update_of_ne hba] using hpos
  · intro b hb x hle hlt
    obtain ⟨hmemb, -⟩ := hmem b hb
    obtain rfl | hba := eq_or_ne b a
    · rw [hself'] at hlt
      obtain hlow | hhigh := Nat.lt_or_ge x (heap.ptr b)
      · exact h.inside b hall x hle (htouch.symm ▸ hlow)
      · exact h.inside _ hnextall x hhigh hlt
    · exact h.inside b hmemb x hle (hother b hba ▸ hlt)
  · intro b hb c hc hne
    obtain ⟨hmemb, hbnext⟩ := hmem b hb
    obtain ⟨hmemc, hcnext⟩ := hmem c hc
    obtain rfl | hba := eq_or_ne b a
    · rw [hself', hother c hne.symm]
      exact hclear c hmemc hne.symm hcnext
    obtain rfl | hca := eq_or_ne c a
    · rw [hself', hother b hne]
      exact (hclear b hmemb hne hbnext).symm
    · rw [hother b hba, hother c hca]
      exact h.apart b hmemb c hmemc hne

theorem spacedBut_merge (h : heap.Tiled abi base granted nodes live) (ha : a ∈ nodes)
    (hself : heap.ptr a ≠ a) (htouch : heap.blockEnd abi a = heap.ptr a) {changed : Nat → Prop}
    (hnext : ¬changed (heap.ptr a)) (hspaced : heap.SpacedBut abi nodes changed) :
    ((heap.setSize a (heap.size a + heap.size (heap.ptr a))).setPtr a
      (heap.ptr (heap.ptr a))).SpacedBut abi (nodes.erase (heap.ptr a))
        fun b => changed b ∧ b ≠ a := by
  intro b hb hkept hptr
  obtain ⟨-, hmem⟩ := Finset.mem_erase.mp hb
  obtain rfl | hne := eq_or_ne b a
  · have hlast : heap.ptr (heap.ptr b) ≠ heap.ptr b := fun heq =>
      hself (h.ring.eq_of_next_self (h.ring.next_mem ha) heq ha).symm
    have hapart := hspaced _ (h.ring.next_mem ha) hnext hlast
    simp only [blockEnd, setSize, setPtr, Function.update_self] at htouch hapart ⊢
    rw [Nat.add_mul]
    omega
  · simp only [blockEnd, setSize, setPtr, Function.update_of_ne hne] at hptr ⊢
    exact hspaced b hmem (fun hchanged => hkept ⟨hchanged, hne⟩) hptr

theorem absorb (h : heap.Tiled abi base granted nodes live) (harena : Arena abi base granted)
    (ha : a ∈ nodes) (hself : heap.ptr a ≠ a) :
    ∃ nodes', (heap.absorb abi a).Tiled abi base granted nodes' live ∧
      (∀ b ∈ nodes, (abi.offset a (heap.size a) = heap.ptr a → b ≠ heap.ptr a) → b ∈ nodes') ∧
      (∀ b ∈ live, (heap.absorb abi a).size b = heap.size b) ∧
      (∀ b ∈ nodes, ∃ c ∈ nodes', heap.size b ≤ (heap.absorb abi a).size c) ∧
      ∀ changed : Nat → Prop, (abi.offset a (heap.size a) = heap.ptr a → ¬changed (heap.ptr a)) →
        heap.SpacedBut abi nodes changed →
          (heap.absorb abi a).SpacedBut abi nodes' fun b => changed b ∧ b ≠ a := by
  have hall := Finset.mem_union_left live ha
  unfold Heap.absorb
  split
  case isFalse hgap =>
    refine ⟨nodes, h, fun b hb _ => hb, fun _ _ => rfl, fun b hb => ⟨b, hb, le_rfl⟩,
      fun changed _ hspaced b hb hkept hptr => ?_⟩
    obtain rfl | hne := eq_or_ne b a
    · rw [h.offset_eq harena hall le_rfl] at hgap
      exact hgap
    · exact hspaced b hb (fun hchanged => hkept ⟨hchanged, hne⟩) hptr
  case isTrue htouch =>
    have hnext := h.ring.next_mem ha
    have hnextall := Finset.mem_union_left live hnext
    have hend : heap.blockEnd abi a = heap.ptr a :=
      (h.offset_eq harena hall le_rfl).symm.trans htouch
    have hbase : a ≠ base := by
      rintro rfl
      rw [blockEnd, h.base_size, Nat.zero_mul, Nat.add_zero] at hend
      exact hself hend.symm
    have hlt := h.base_lt harena hall hbase
    have hsum : heap.size a + heap.size (heap.ptr a) < 2 ^ 32 := by
      have hlimit := h.blockEnd_lt harena hnextall
      have hbound : (heap.size a + heap.size (heap.ptr a)) * abi.unit < abi.limit + abi.slack := by
        rw [Nat.add_mul]
        unfold blockEnd at hlimit hend
        omega
      exact Abi.lt_of_mul_unit hbound
    rw [Nat.mod_eq_of_lt hsum]
    have hup : heap.ptr a ≠ base := by
      unfold blockEnd at hend
      omega
    refine ⟨nodes.erase (heap.ptr a), h.merge ha hbase hself hend hup,
      fun b hb hne => Finset.mem_erase.mpr ⟨hne htouch, hb⟩, fun b hb => ?_, fun b hb => ?_,
      fun changed hnext => h.spacedBut_merge ha hself hend (hnext htouch)⟩
    · simp [setSize, setPtr, Function.update_of_ne (h.ne_of_mem ha hb).symm]
    · by_cases hgone : b = heap.ptr a
      · refine ⟨a, Finset.mem_erase.mpr ⟨hself.symm, ha⟩, ?_⟩
        simp [setSize, setPtr, hgone]
      · refine ⟨b, Finset.mem_erase.mpr ⟨hgone, hb⟩, ?_⟩
        obtain rfl | hba := eq_or_ne b a
        · simp [setSize, setPtr]
        · simp [setSize, setPtr, Function.update_of_ne hba]

theorem place (h : heap.Tiled abi base granted nodes live) (hp : p ∈ nodes) (ha : a ∉ nodes) :
    ∃ bound, ∀ fuel ≥ bound, ∃ q ∈ nodes, heap.place a fuel p = some q ∧ heap.Stops a q := by
  obtain ⟨q, hq, haccepts⟩ := h.ring.exists_accepts hp ha
  obtain ⟨k, hk⟩ := h.ring.exists_iterate hp hq
  refine ⟨k + 1, fun fuel hfuel => ?_⟩
  obtain ⟨fuel, rfl⟩ := Nat.exists_eq_add_of_le hfuel
  induction k generalizing p with
  | zero =>
      obtain rfl : p = q := hk
      exact ⟨p, hp, by rw [Nat.add_right_comm, Heap.place, if_pos (show heap.Stops a p from haccepts)],
        haccepts⟩
  | succ k ih =>
      rw [Nat.add_right_comm, Heap.place]
      split
      case isTrue hstops => exact ⟨p, hp, rfl, hstops⟩
      case isFalse => exact ih (h.ring.next_mem hp) hk (Nat.le_add_right _ _)

theorem free (h : heap.Tiled abi base granted nodes live) (harena : Arena abi base granted)
    (hfreep : ∃ freep ∈ nodes, heap.freep = some freep) (ha : a ∈ live) :
    ∃ bound, ∀ fuel ≥ bound, ∃ heap', heap.free abi fuel (a + abi.unit) = some heap' ∧
      ∃ nodes', heap'.Tiled abi base granted nodes' (live.erase a) ∧
        (∃ freep ∈ nodes', heap'.freep = some freep) ∧
        (∀ b ∈ live.erase a, heap'.size b = heap.size b) ∧
        (∀ b ∈ insert a nodes, ∃ c ∈ nodes', heap.size b ≤ heap'.size c) ∧
        (heap.Spaced abi nodes → heap'.Spaced abi nodes') := by
  obtain ⟨freep, hmem, hfreep⟩ := hfreep
  have hnot : a ∉ nodes := fun hin => h.ne_of_mem hin ha rfl
  obtain ⟨bound, hbound⟩ := h.place hmem hnot
  refine ⟨bound, fun fuel hfuel => ?_⟩
  obtain ⟨p, hp, hplace, hstops⟩ := hbound fuel hfuel
  have hne : a ≠ p := fun heq => hnot (heq ▸ hp)
  have hall := Finset.mem_union_right nodes ha
  have hnext := h.ring.next_mem hp
  -- The static header lies below every block, so it is never the successor that touches.
  have htouch : abi.offset a (heap.size a) = heap.ptr p → heap.ptr p ≠ p ∧ heap.ptr p ≠ a := by
    intro heq
    refine ⟨fun hself => ?_, fun hback => hnot (hback ▸ hnext)⟩
    rw [h.offset_eq harena hall le_rfl] at heq
    have hbase := h.ring.eq_of_next_self hp hself h.base_mem
    have hlt := h.base_lt harena hall fun hab => hnot (hab ▸ h.base_mem)
    omega
  have hlinked := h.link hp ha hstops
  have hptr : (heap.link p a).ptr a = heap.ptr p := by
    simp [Heap.link, setPtr, Function.update_of_ne hne]
  have hself : (heap.link p a).ptr a ≠ a := fun hback => hnot (hback ▸ hptr.symm ▸ hnext)
  obtain ⟨nodes₁, htiled₁, hkept₁, hsize₁, hlarge₁, hspaced₁⟩ :=
    hlinked.absorb harena (Finset.mem_insert_self a nodes) hself
  have hp₁ : p ∈ nodes₁ := by
    refine hkept₁ p (Finset.mem_insert_of_mem hp) fun htouches => ?_
    rw [hptr] at htouches ⊢
    exact (htouch htouches).1.symm
  have hself₁ : ((heap.link p a).absorb abi a).ptr p ≠ p := by
    rw [absorb_ptr_of_ne _ _ hne.symm]
    simpa [Heap.link, setPtr] using hne
  obtain ⟨nodes₂, htiled₂, hkept₂, hsize₂, hlarge₂, hspaced₂⟩ := htiled₁.absorb harena hp₁ hself₁
  have hp₂ : p ∈ nodes₂ := hkept₂ p hp₁ fun _ => hself₁.symm
  refine ⟨{ (heap.joinNext abi p a).joinPrev abi p a with freep := some p },
    by simp [Heap.free, hfreep, hplace], nodes₂, ?_⟩
  rw [joinPrev_eq _ abi hne, joinNext_eq heap abi hne htouch]
  refine ⟨htiled₂.setFreep _, ⟨p, hp₂, rfl⟩, fun b hb => (hsize₂ b hb).trans (hsize₁ b hb),
    fun b hb => ?_, fun hspaced => ?_⟩
  · obtain ⟨c, hc, hle⟩ := hlarge₁ b hb
    obtain ⟨d, hd, hle'⟩ := hlarge₂ c hc
    exact ⟨d, hd, hle.trans hle'⟩
  -- Only the new header and the one before it can touch what follows, until both have taken it in.
  · have hlinked' : (heap.link p a).SpacedBut abi (insert a nodes) fun b => b = a ∨ b = p :=
      link_spaced hspaced
    have hfirst := hspaced₁ _ (fun htouches hchanged => ?_) hlinked'
    · have hsecond := hspaced₂ _ (fun _ hchanged => ?_) hfirst
      · intro b hb _
        refine hsecond b hb fun hchanged => ?_
        obtain ⟨⟨rfl | rfl, hnota⟩, hnotp⟩ := hchanged
        · exact hnota rfl
        · exact hnotp rfl
      · obtain ⟨heq | heq, hnota⟩ := hchanged
        · exact hnota heq
        · exact hself₁ heq
    · rw [hptr] at htouches hchanged
      obtain ⟨hnotp, hnota⟩ := htouch htouches
      exact hchanged.elim hnota hnotp

theorem unlink (h : heap.Tiled abi base granted nodes live) (hp : p ∈ nodes)
    (hbase : heap.ptr p ≠ base) :
    (heap.setPtr p (heap.ptr (heap.ptr p))).Tiled abi base granted (nodes.erase (heap.ptr p))
      (insert (heap.ptr p) live) := by
  have hnext := h.ring.next_mem hp
  have hself : heap.ptr p ≠ p := fun heq =>
    hbase (heq.trans (h.ring.eq_of_next_self hp heq h.base_mem).symm)
  have hall : nodes.erase (heap.ptr p) ∪ insert (heap.ptr p) live = nodes ∪ live := by
    rw [Finset.union_insert, ← Finset.insert_union, Finset.insert_erase hnext]
  refine ⟨h.ring.erase hp hself, Finset.mem_erase.mpr ⟨hbase.symm, h.base_mem⟩, h.base_size, ?_,
    ?_, ?_, ?_⟩
  · rw [Finset.disjoint_insert_right]
    exact ⟨Finset.notMem_erase _ nodes, h.disjoint.mono_left (Finset.erase_subset _ nodes)⟩
  all_goals rw [hall]
  exacts [h.size_pos, h.inside, h.apart]

theorem next_of_touch (h : heap.Tiled abi base granted nodes live) (ha : a ∈ nodes)
    (hb : b ∈ nodes) (hne : a ≠ b) (htouch : heap.blockEnd abi a = b) : heap.ptr a = b := by
  by_contra hother
  have hlt : a < b := by
    unfold blockEnd at htouch
    omega
  obtain ⟨hnext, ⟨hup, hgap⟩ | ⟨-, hends⟩⟩ := h.ring a ha
  · have hle : heap.ptr a ≤ b := (hgap b hb).resolve_left (Nat.not_le.mpr hlt)
    -- The next header would lie inside the block.
    obtain hbelow | habove := h.apart a (Finset.mem_union_left live ha) _
      (Finset.mem_union_left live hnext) (Nat.ne_of_lt hup)
    · omega
    · unfold blockEnd at habove
      omega
  · exact absurd (hends b hb).2 (Nat.not_le.mpr hlt)

theorem unlink_spaced (h : heap.Tiled abi base granted nodes live) (hp : p ∈ nodes)
    (hself : heap.ptr p ≠ p) (hspaced : heap.Spaced abi nodes) :
    (heap.setPtr p (heap.ptr (heap.ptr p))).Spaced abi (nodes.erase (heap.ptr p)) := by
  intro b hb _ hptr
  obtain ⟨-, hmem⟩ := Finset.mem_erase.mp hb
  obtain rfl | hne := eq_or_ne b p
  · simp only [blockEnd, setPtr, Function.update_self] at hptr ⊢
    intro htouch
    have hnext := h.ring.next_mem hp
    have hsame := h.next_of_touch hp (h.ring.next_mem hnext) hptr.symm htouch
    exact hself (h.ring.eq_of_next_self hnext hsame.symm hp).symm
  · simp only [blockEnd, setPtr, Function.update_of_ne hne] at hptr ⊢
    exact hspaced b hmem id hptr

theorem size_spaced {n tail : Nat} (hnot : tail ∉ nodes)
    (hspaced : heap.Spaced abi nodes) : (heap.setSize tail n).Spaced abi nodes := by
  intro b hb _ hptr
  have hbt : b ≠ tail := fun heq => hnot (heq ▸ hb)
  simp only [blockEnd, setSize, Function.update_of_ne hbt]
  exact hspaced b hb id hptr

theorem cut_spaced (h : heap.Tiled abi base granted nodes live) {k n tail : Nat}
    (htail : tail = p + k * abi.unit) (hnot : tail ∉ nodes) (hspaced : heap.Spaced abi nodes) :
    ((heap.setSize p k).setSize tail n).Spaced abi nodes := by
  intro b hb _ hptr
  have hbt : b ≠ tail := fun heq => hnot (heq ▸ hb)
  obtain rfl | hne := eq_or_ne b p
  · simp only [blockEnd, setSize, Function.update_of_ne hbt, Function.update_self]
    rw [← htail]
    exact fun htouch => hnot (htouch ▸ h.ring.next_mem hb)
  · simp only [blockEnd, setSize, Function.update_of_ne hbt, Function.update_of_ne hne]
    exact hspaced b hb id hptr

theorem add (h : heap.Tiled abi base granted nodes live) {n : Nat} (hnot : a ∉ nodes ∪ live)
    (hpos : 0 < n) (hgranted : ∀ x, a ≤ x → x < a + n * abi.unit → granted x)
    (hclear : ∀ b ∈ nodes ∪ live, a + n * abi.unit ≤ b ∨ heap.blockEnd abi b ≤ a) :
    (heap.setSize a n).Tiled abi base granted nodes (insert a live) := by
  have hnodes : a ∉ nodes := fun hin => hnot (Finset.mem_union_left live hin)
  have hself : (heap.setSize a n).blockEnd abi a = a + n * abi.unit := by
    simp [blockEnd, setSize]
  have hother : ∀ b ∈ nodes ∪ live, (heap.setSize a n).size b = heap.size b ∧
      (heap.setSize a n).blockEnd abi b = heap.blockEnd abi b := by
    intro b hb
    have hne : b ≠ a := fun heq => hnot (heq ▸ hb)
    simp [blockEnd, setSize, Function.update_of_ne hne]
  have hmem : ∀ b ∈ nodes ∪ insert a live, b = a ∨ b ∈ nodes ∪ live := by
    intro b hb
    rwa [Finset.union_insert, Finset.mem_insert] at hb
  refine ⟨h.ring, h.base_mem, ?_, Finset.disjoint_insert_right.mpr ⟨hnodes, h.disjoint⟩,
    ?_, ?_, ?_⟩
  · rw [(hother base (Finset.mem_union_left live h.base_mem)).1, h.base_size]
  · intro b hb hne
    obtain rfl | hb := hmem b hb
    · simpa [setSize] using hpos
    · rw [(hother b hb).1]
      exact h.size_pos b hb hne
  · intro b hb x hle hlt
    obtain rfl | hb := hmem b hb
    · exact hgranted x hle (hself ▸ hlt)
    · exact h.inside b hb x hle ((hother b hb).2 ▸ hlt)
  · intro b hb c hc hne
    obtain rfl | hmemb := hmem b hb
    · have hmemc := (hmem c hc).resolve_left hne.symm
      rw [hself, (hother c hmemc).2]
      exact hclear c hmemc
    obtain rfl | hmemc := hmem c hc
    · rw [hself, (hother b hmemb).2]
      exact (hclear b hmemb).symm
    · rw [(hother b hmemb).2, (hother c hmemc).2]
      exact h.apart b hmemb c hmemc hne

theorem shorten (h : heap.Tiled abi base granted nodes live) (ha : a ∈ nodes) (hbase : a ≠ base)
    {n : Nat} (hpos : 0 < n) (hle : n ≤ heap.size a) :
    (heap.setSize a n).Tiled abi base granted nodes live := by
  have hless : ∀ b, (heap.setSize a n).blockEnd abi b ≤ heap.blockEnd abi b := by
    intro b
    obtain rfl | hne := eq_or_ne b a
    · have := Nat.mul_le_mul_right abi.unit hle
      simp only [blockEnd, setSize, Function.update_self]
      omega
    · simp [blockEnd, setSize, Function.update_of_ne hne]
  refine ⟨h.ring, h.base_mem, ?_, h.disjoint, fun b hb hne => ?_, fun b hb x hfrom hto => ?_,
    fun b hb c hc hne => ?_⟩
  · simpa [setSize, Function.update_of_ne hbase.symm] using h.base_size
  · obtain rfl | hba := eq_or_ne b a
    · simpa [setSize] using hpos
    · simpa [setSize, Function.update_of_ne hba] using h.size_pos b hb hne
  · exact h.inside b hb x hfrom (hto.trans_le (hless b))
  · exact (h.apart b hb c hc hne).imp (hless b).trans (hless c).trans

end Tiled

end Heap

end Xv6.Malloc
