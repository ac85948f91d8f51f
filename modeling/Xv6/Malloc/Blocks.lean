import Xv6.Malloc.FreeList
import Xv6.Malloc.OneSize

/-!
# The blocks malloc hands out

As long as no size wraps on its way to `sbrk`, every call of `malloc` returns, and what it returns
is null or the start of a block of its own: granted by `sbrk`, as long as was asked for, and apart
from all live blocks. The two roundings of a request near the top of `uint` break this: the sum in
`malloc` wraps where `size_t` has 32 bits, and the product in `morecore` does not fit the `int` it
is passed as.
-/

namespace Xv6.Malloc

variable {m : Machine} {s : State} {nodes live : Finset Nat} {n fuel : Nat}

namespace State

/-- A byte that a call of `sbrk` by `morecore` has granted, and that is still below the break. -/
def Granted (s : State) (x : Nat) : Prop :=
  x < s.brk ∧ ∃ call ∈ s.calls, ∃ p, call.answer = some p ∧ p ≤ x ∧ (x : Int) < p + call.amount

/-- What `malloc(nbytes)` owes its caller: a block of granted bytes that overlaps no live block. -/
def Serves (s : State) (nbytes p : Nat) (after : State) : Prop :=
  (∀ x, p ≤ x → x < p + nbytes → after.Granted x) ∧
    ∀ block ∈ s.live, p + nbytes ≤ block.ptr ∨ block.ptr + block.nbytes ≤ p

end State

structure Sound (m : Machine) (s : State) (nodes live : Finset Nat) : Prop where
  tiled : s.heap.Tiled m.abi m.base s.Granted nodes live
  spaced : s.heap.Spaced m.abi nodes
  freep : ∃ freep ∈ nodes, s.heap.freep = some freep
  start_le : m.start ≤ s.brk
  brk_le : s.brk ≤ m.memory
  answers : ∀ call ∈ s.calls, ∀ p, call.answer = some p → m.start ≤ p

namespace Sound

theorem arena (h : Sound m s nodes live) : Heap.Arena m.abi m.base s.Granted where
  base_lt x hx := by
    obtain ⟨-, call, hcall, p, hp, hle, -⟩ := hx
    have := h.answers call hcall p hp
    have := m.base_le
    have := m.abi.unit_pos
    omega
  lt_limit x hx := by
    have := hx.1
    have := h.brk_le
    have := m.memory_lt
    omega
  base_lt_limit := by
    have := m.base_le
    have := m.start_le
    have := m.memory_lt
    omega

theorem blockEnd_le (h : Sound m s nodes live) {a : Nat} (ha : a ∈ nodes ∪ live) :
    s.heap.blockEnd m.abi a ≤ s.brk := by
  obtain rfl | hne := eq_or_ne a m.base
  · have := m.base_le
    have := h.start_le
    simp only [Heap.blockEnd, h.tiled.base_size]
    omega
  · have hpos := Nat.mul_pos (h.tiled.size_pos a ha hne) m.abi.unit_pos
    have hlast := h.tiled.inside a ha (s.heap.blockEnd m.abi a - 1)
      (by unfold Heap.blockEnd; omega) (by unfold Heap.blockEnd; omega)
    have := hlast.1
    omega

theorem setHeap (h : Sound m s nodes live) {heap : Heap} {nodes' live' : Finset Nat}
    (htiled : heap.Tiled m.abi m.base s.Granted nodes' live') (hspaced : heap.Spaced m.abi nodes')
    (hfreep : ∃ freep ∈ nodes', heap.freep = some freep) :
    Sound m { s with heap } nodes' live' where
  tiled := htiled
  spaced := hspaced
  freep := hfreep
  start_le := h.start_le
  brk_le := h.brk_le
  answers := h.answers

end Sound

structure Served (m : Machine) (s : State) (live : Finset Nat) (n : Nat) (after : State) (a : Nat) :
    Prop where
  fresh : a ∉ live
  sound : ∃ nodes, Sound m after nodes (insert a live)
  size_eq : after.heap.size a = n
  keeps : ∀ b ∈ live, after.heap.size b = s.heap.size b

/-- What the search for `n` units may end in. -/
def Ends (m : Machine) (s : State) (live : Finset Nat) (n : Nat) : State × Outcome → Prop
  | (after, .returned p) => ∃ a, p = a + m.abi.unit ∧ Served m s live n after a
  | (after, .refused) =>
      (∃ nodes, Sound m after nodes live) ∧ ∀ b ∈ live, after.heap.size b = s.heap.size b
  | (_, .fault) => False

theorem Ends.of_keeps {t : State} (hkeeps : ∀ b ∈ live, t.heap.size b = s.heap.size b)
    {result : State × Outcome} (hends : Ends m t live n result) : Ends m s live n result := by
  obtain ⟨after, outcome⟩ := result
  cases outcome with
  | returned p =>
      obtain ⟨a, hp, hserved⟩ := hends
      exact ⟨a, hp, hserved.fresh, hserved.sound, hserved.size_eq,
        fun b hb => (hserved.keeps b hb).trans (hkeeps b hb)⟩
  | refused => exact ⟨hends.1, fun b hb => (hends.2 b hb).trans (hkeeps b hb)⟩
  | fault => exact hends

namespace Sound

theorem mapped_of_le {p : Nat} (hend : p + m.abi.unit ≤ s.brk) : s.Mapped m p := by
  refine Nat.le_trans hend ?_
  have hmod := Nat.mod_lt (s.brk + m.pageSize - 1) m.pageSize_pos
  have hdiv := Nat.div_add_mod (s.brk + m.pageSize - 1) m.pageSize
  rw [Nat.mul_comm] at hdiv
  omega

theorem split (h : Sound m s nodes live) {p : Nat} (hp : p ∈ nodes) (hpos : 0 < n)
    (hlarger : n < s.heap.size p) :
    p + (s.heap.size p - n) * m.abi.unit ∉ nodes ∪ live ∧
      s.Mapped m (p + (s.heap.size p - n) * m.abi.unit) ∧
      ((s.heap.setSize p (s.heap.size p - n)).setSize (p + (s.heap.size p - n) * m.abi.unit) n).Tiled
        m.abi m.base s.Granted nodes (insert (p + (s.heap.size p - n) * m.abi.unit) live) := by
  have hall := Finset.mem_union_left live hp
  have hbase : p ≠ m.base := by
    rintro rfl
    rw [h.tiled.base_size] at hlarger
    omega
  have hbefore := Nat.mul_pos (show 0 < s.heap.size p - n by omega) m.abi.unit_pos
  have htail := Nat.mul_le_mul_right m.abi.unit (show 1 ≤ n from hpos)
  have hunit := m.abi.unit_pos
  have hend : p + (s.heap.size p - n) * m.abi.unit + n * m.abi.unit = s.heap.blockEnd m.abi p := by
    rw [Nat.add_assoc, ← Nat.add_mul, Nat.sub_add_cancel (Nat.le_of_lt hlarger)]
    rfl
  have hbrk := h.blockEnd_le hall
  have hnot : p + (s.heap.size p - n) * m.abi.unit ∉ nodes ∪ live := by
    intro hin
    have hclash := h.tiled.apart p hall _ hin (by omega)
    simp only [Heap.blockEnd] at hclash hend
    omega
  refine ⟨hnot, mapped_of_le (by omega), ?_⟩
  have hshort := h.tiled.shorten hp hbase (show 0 < s.heap.size p - n by omega) (by omega)
  refine hshort.add hnot hpos (fun x hfrom hto => ?_) fun b hb => ?_
  · exact h.tiled.inside p hall x (by omega) (by omega)
  · obtain rfl | hne := eq_or_ne b p
    · exact Or.inr (by simp [Heap.blockEnd, Heap.setSize])
    · have hsame : (s.heap.setSize p (s.heap.size p - n)).blockEnd m.abi b
          = s.heap.blockEnd m.abi b := by
        simp [Heap.blockEnd, Heap.setSize, Function.update_of_ne hne]
      rw [hsame, hend]
      obtain hafter | hbelow := h.tiled.apart p hall b hb hne.symm
      · exact Or.inl hafter
      · exact Or.inr (by omega)

theorem take (h : Sound m s nodes live) (hpos : 0 < n) {prevp : Nat} (hprevp : prevp ∈ nodes)
    (hfits : n ≤ s.heap.size (s.heap.ptr prevp)) :
    Ends m s live n (take m s n prevp (s.heap.ptr prevp)) := by
  have hp := h.tiled.ring.next_mem hprevp
  have hall := Finset.mem_union_left live hp
  have hbase : s.heap.ptr prevp ≠ m.base := by
    intro heq
    rw [heq, h.tiled.base_size] at hfits
    omega
  have hself : s.heap.ptr prevp ≠ prevp := fun heq =>
    hbase (heq.trans (h.tiled.ring.eq_of_next_self hprevp heq h.tiled.base_mem).symm)
  unfold Malloc.take
  split
  case isTrue hexact =>
    have hspaced := h.tiled.unlink_spaced hprevp hself h.spaced
    have hkept := Finset.mem_erase.mpr ⟨hself.symm, hprevp⟩
    have hnew := h.setHeap ((h.tiled.unlink hprevp hbase).setFreep (some prevp)) hspaced
      ⟨prevp, hkept, rfl⟩
    refine ⟨s.heap.ptr prevp, ?_, fun hlive => h.tiled.ne_of_mem hp hlive rfl, ⟨_, hnew⟩, hexact,
      fun b _ => rfl⟩
    rw [h.tiled.offset_eq h.arena hall (by omega), Nat.one_mul]
  case isFalse hlarger =>
    have hmore : n < s.heap.size (s.heap.ptr prevp) := by omega
    obtain ⟨hnot, hmapped, htiled⟩ := h.split hp hpos hmore
    have hrest : (s.heap.setSize (s.heap.ptr prevp) (s.heap.size (s.heap.ptr prevp) - n)).size
        (s.heap.ptr prevp) = s.heap.size (s.heap.ptr prevp) - n := by simp [Heap.setSize]
    have htail : m.abi.offset (s.heap.ptr prevp) (s.heap.size (s.heap.ptr prevp) - n) =
        s.heap.ptr prevp + (s.heap.size (s.heap.ptr prevp) - n) * m.abi.unit :=
      h.tiled.offset_eq h.arena hall (by omega)
    have hnottail := fun hin => hnot (Finset.mem_union_left live hin)
    have hspaced := h.tiled.cut_spaced (n := n) rfl hnottail h.spaced
    have hnew := h.setHeap (htiled.setFreep (some prevp)) hspaced ⟨prevp, hprevp, rfl⟩
    dsimp only
    rw [hrest, htail, if_pos hmapped]
    refine ⟨_, ?_, fun hlive => hnot (Finset.mem_union_right nodes hlive), ⟨nodes, hnew⟩, ?_,
      fun b hb => ?_⟩
    · have hself' := hnew.tiled.offset_eq hnew.arena
        (Finset.mem_union_right nodes (Finset.mem_insert_self _ live)) (n := 1)
        (by simp only [Heap.setSize, Function.update_self]; exact hpos)
      rw [hself', Nat.one_mul]
    · simp [Heap.setSize]
    · have hne : b ≠ s.heap.ptr prevp := (h.tiled.ne_of_mem hp hb).symm
      have hne' : b ≠ s.heap.ptr prevp + (s.heap.size (s.heap.ptr prevp) - n) * m.abi.unit :=
        fun heq => hnot (heq ▸ Finset.mem_union_right nodes hb)
      simp [Heap.setSize, Function.update_of_ne hne, Function.update_of_ne hne']

/-- What `morecore` may end in. -/
def Grows (m : Machine) (s : State) (live : Finset Nat) (n : Nat) : State × Outcome → Prop
  | (after, .returned p) =>
      (∃ nodes, Sound m after nodes live ∧ after.heap.freep = some p ∧
        ∃ c ∈ nodes, n ≤ after.heap.size c) ∧ ∀ b ∈ live, after.heap.size b = s.heap.size b
  | (after, .refused) => (∃ nodes, Sound m after nodes live) ∧ after.heap = s.heap
  | (_, .fault) => False

theorem sbrk (h : Sound m s nodes live) {nu : Nat} (hlt : nu * m.abi.unit < 2 ^ 31) :
    Sound m (s.sbrk m (m.abi.growth nu)).1 nodes live ∧
      ∀ hp, (s.sbrk m (m.abi.growth nu)).2 = some hp → hp = s.brk ∧
        (s.sbrk m (m.abi.growth nu)).1.brk = s.brk + nu * m.abi.unit ∧
        ∀ x, hp ≤ x → x < hp + nu * m.abi.unit → (s.sbrk m (m.abi.growth nu)).1.Granted x := by
  rw [Abi.growth_eq hlt]
  unfold State.sbrk
  split
  case isTrue hgrant =>
    have hbrk : (if 0 ≤ (s.brk : Int) + ↑(nu * m.abi.unit) then
        ((s.brk : Int) + ↑(nu * m.abi.unit)).toNat else s.brk) = s.brk + nu * m.abi.unit := by
      rw [if_pos (by omega)]
      omega
    simp only [Option.isSome_some, true_and, hbrk]
    refine ⟨⟨h.tiled.mono fun x hx => ?_, h.spaced, h.freep, ?_, ?_, ?_⟩, ?_⟩
    · obtain ⟨hlow, call, hcall, hin⟩ := hx
      exact ⟨by dsimp only; omega, call, List.mem_append_left _ hcall, hin⟩
    · have := h.start_le
      dsimp only
      omega
    · dsimp only
      omega
    · intro call hcall p hp
      obtain hcall | hcall := List.mem_append.mp hcall
      · exact h.answers call hcall p hp
      · obtain rfl := List.mem_singleton.mp hcall
        cases hp
        exact h.start_le
    · rintro _ ⟨⟩
      refine ⟨rfl, fun x hfrom hto => ⟨hto, _,
        List.mem_append_right _ (List.mem_singleton_self _), s.brk, rfl, hfrom, ?_⟩⟩
      dsimp only
      omega
  case isFalse =>
    simp only [Option.isSome_none, Bool.false_eq_true, false_and, if_false]
    refine ⟨⟨h.tiled.mono fun x hx => ?_, h.spaced, h.freep, h.start_le, h.brk_le, ?_⟩, by simp⟩
    · obtain ⟨hlow, call, hcall, hin⟩ := hx
      exact ⟨hlow, call, List.mem_append_left _ hcall, hin⟩
    · intro call hcall p hp
      obtain hcall | hcall := List.mem_append.mp hcall
      · exact h.answers call hcall p hp
      · obtain rfl := List.mem_singleton.mp hcall
        cases hp

theorem grow (h : Sound m s nodes live) {after : State} {hp nu : Nat}
    (hafter : Sound m after nodes live) (hheap : after.heap = s.heap) (hhp : hp = s.brk)
    (hpos : 0 < nu)
    (hgranted : ∀ x, hp ≤ x → x < hp + nu * m.abi.unit → after.Granted x) :
    hp ∉ nodes ∪ live ∧
      (after.heap.setSize hp nu).Tiled m.abi m.base after.Granted nodes (insert hp live) := by
  have hbelow : ∀ b ∈ nodes ∪ live, after.heap.blockEnd m.abi b ≤ hp := by
    intro b hb
    rw [hheap, hhp]
    exact h.blockEnd_le hb
  have hnot : hp ∉ nodes ∪ live := by
    intro hin
    have hend := hbelow hp hin
    obtain heq | hne := eq_or_ne hp m.base
    · have := m.base_le
      have := h.start_le
      have := m.abi.unit_pos
      omega
    · have := Nat.mul_pos (hafter.tiled.size_pos hp hin hne) m.abi.unit_pos
      unfold Heap.blockEnd at hend
      omega
  exact ⟨hnot, hafter.tiled.add hnot hpos hgranted fun b hb => Or.inr (hbelow b hb)⟩

theorem morecore (h : Sound m s nodes live) (hpos : 0 < n) (hn : n * m.abi.unit < 2 ^ 31) :
    ∃ bound, ∀ fuel ≥ bound, ∃ result, morecore m fuel s n = some result ∧
      Grows m s live n result := by
  have hround : m.rounding.round n * m.abi.unit < 2 ^ 31 := by
    obtain hlt | hle := Nat.lt_or_ge n 4096
    · have hsmall := m.rounding.round_le hpos (show n ≤ 8191 by omega) (Nat.le_refl _)
      refine Nat.lt_of_le_of_lt (Nat.mul_le_mul_right _ hsmall) ?_
      cases m.abi <;> decide
    · rwa [Rounding.round_of_le _ hle]
  have hle : n ≤ m.rounding.round n := m.rounding.le_round hpos
  obtain ⟨hafter, hanswer⟩ := h.sbrk hround
  have hheap : (s.sbrk m (m.abi.growth (m.rounding.round n))).1.heap = s.heap := rfl
  unfold Malloc.morecore
  dsimp only
  generalize hsbrk : s.sbrk m (m.abi.growth (m.rounding.round n)) = called at hafter hanswer hheap ⊢
  obtain ⟨after, _ | hp⟩ := called
  · exact ⟨0, fun fuel _ => ⟨_, rfl, ⟨nodes, hafter⟩, hheap⟩⟩
  · obtain ⟨hhp, hbrk, hgranted⟩ := hanswer hp rfl
    obtain ⟨hnot, htiled⟩ := h.grow hafter hheap hhp (by omega) hgranted
    have hunits := Nat.mul_le_mul_right m.abi.unit (show 1 ≤ m.rounding.round n by omega)
    have hmapped : after.Mapped m hp := mapped_of_le (by dsimp only at hbrk; omega)
    have hfreep : ∃ freep ∈ nodes,
        (after.heap.setSize hp (m.rounding.round n)).freep = some freep :=
      hafter.freep
    obtain ⟨bound, hbound⟩ := htiled.free hafter.arena hfreep (Finset.mem_insert_self hp live)
    have hend : m.abi.offset hp 1 = hp + m.abi.unit := by
      have hself := htiled.offset_eq hafter.arena
        (Finset.mem_union_right nodes (Finset.mem_insert_self hp live)) (n := 1)
        (by simp only [Heap.setSize, Function.update_self]; omega)
      rw [hself, Nat.one_mul]
    refine ⟨bound, fun fuel hfuel => ?_⟩
    obtain ⟨heap, hfree, nodes', htiled', ⟨freep, hmem, hfreep'⟩, hsizes, hlarge, hspaced⟩ :=
      hbound fuel hfuel
    have hlive : (insert hp live).erase hp = live :=
      Finset.erase_insert fun hin => hnot (Finset.mem_union_right nodes hin)
    rw [hlive] at htiled' hsizes
    simp only [if_pos hmapped, hend, hfree, Option.bind_some, hfreep', Option.map_some]
    have hadded : (after.heap.setSize hp (m.rounding.round n)).Spaced m.abi nodes :=
      Heap.Tiled.size_spaced (fun hin => hnot (Finset.mem_union_left live hin)) hafter.spaced
    have hsound := hafter.setHeap htiled' (hspaced hadded) ⟨freep, hmem, hfreep'⟩
    refine ⟨_, rfl, ⟨nodes', hsound, hfreep', ?_⟩, fun b hb => ?_⟩
    · obtain ⟨c, hc, hsize⟩ := hlarge hp (Finset.mem_insert_self hp nodes)
      refine ⟨c, hc, hle.trans ?_⟩
      simpa [Heap.setSize] using hsize
    · have hne : b ≠ hp := fun heq => hnot (heq ▸ Finset.mem_union_right nodes hb)
      rw [hsizes b hb, ← hheap]
      simp [Heap.setSize, Function.update_of_ne hne]

theorem search_found (h : Sound m s nodes live) (hpos : 0 < n) {freep : Nat}
    (hfreep : s.heap.freep = some freep) (k : Nat) {prevp : Nat} (hprevp : prevp ∈ nodes)
    (hfits : n ≤ s.heap.size (s.heap.ptr^[k] (s.heap.ptr prevp)))
    (hbefore : ∀ j < k, ¬ n ≤ s.heap.size (s.heap.ptr^[j] (s.heap.ptr prevp)) ∧
      s.heap.ptr^[j] (s.heap.ptr prevp) ≠ freep) {fuel : Nat} (hfuel : k < fuel) :
    ∃ result, search m n fuel s prevp (s.heap.ptr prevp) = some result ∧ Ends m s live n result := by
  obtain ⟨fuel, rfl⟩ := Nat.exists_eq_add_of_lt hfuel
  induction k generalizing prevp with
  | zero =>
      refine ⟨_, ?_, h.take hpos hprevp hfits⟩
      rw [search, if_pos (show n ≤ s.heap.size (s.heap.ptr prevp) from hfits)]
  | succ k ih =>
      obtain ⟨hsmall, hother⟩ := hbefore 0 k.succ_pos
      have hnotfreep : s.heap.freep ≠ some (s.heap.ptr prevp) := fun heq =>
        hother (Option.some.inj (heq.symm.trans hfreep))
      rw [search, if_neg (show ¬ n ≤ s.heap.size (s.heap.ptr prevp) from hsmall),
        if_neg hnotfreep, show k + 1 + fuel = k + fuel + 1 by omega]
      exact ih (h.tiled.ring.next_mem hprevp) hfits (fun j hj => hbefore (j + 1) (by omega)) (by omega)

theorem search_fits (h : Sound m s nodes live) (hpos : 0 < n) {freep : Nat} (hmem : freep ∈ nodes)
    (hfreep : s.heap.freep = some freep) {c : Nat} (hc : c ∈ nodes) (hfits : n ≤ s.heap.size c) :
    ∃ bound, ∀ fuel ≥ bound, ∃ result,
      search m n fuel s freep (s.heap.ptr freep) = some result ∧ Ends m s live n result := by
  obtain ⟨k, hk, hbefore⟩ :=
    h.tiled.ring.exists_first hmem (fun a => n ≤ s.heap.size a) hc hfits
  exact ⟨k + 1, fun fuel hfuel => h.search_found hpos hfreep k hmem hk hbefore (by omega)⟩

theorem search_wraps (h : Sound m s nodes live) (hpos : 0 < n) (hn : n * m.abi.unit < 2 ^ 31)
    {prevp : Nat} (hfreep : s.heap.freep = some (s.heap.ptr prevp))
    (hsmall : ¬ n ≤ s.heap.size (s.heap.ptr prevp)) :
    ∃ bound, ∀ fuel ≥ bound, ∃ result,
      search m n fuel s prevp (s.heap.ptr prevp) = some result ∧ Ends m s live n result := by
  obtain ⟨bound, hbound⟩ := h.morecore hpos hn
  obtain ⟨⟨after, outcome⟩, hmore, hgrows⟩ := hbound bound (Nat.le_refl bound)
  cases outcome with
  | returned p =>
      obtain ⟨⟨nodes', hafter, hfreep', c, hc, hlarge⟩, hkeeps⟩ := hgrows
      obtain ⟨q, hq, hfreep''⟩ := hafter.freep
      obtain rfl : p = q := Option.some.inj (hfreep'.symm.trans hfreep'')
      obtain ⟨bound', hbound'⟩ := hafter.search_fits hpos hq hfreep' hc hlarge
      refine ⟨max bound bound' + 1, fun fuel hfuel => ?_⟩
      obtain ⟨fuel, rfl⟩ := Nat.exists_eq_add_of_le' hfuel
      obtain ⟨result, hresult, hends⟩ := hbound' (fuel + max bound bound') (by omega)
      refine ⟨result, ?_, Ends.of_keeps hkeeps hends⟩
      rw [← Nat.add_assoc, search, if_neg hsmall, if_pos hfreep, morecore_mono hmore (by omega)]
      exact hresult
  | refused =>
      refine ⟨bound + 1, fun fuel hfuel => ⟨(after, .refused), ?_, hgrows.1, fun b _ => ?_⟩⟩
      · obtain ⟨fuel, rfl⟩ := Nat.exists_eq_add_of_le' hfuel
        rw [← Nat.add_assoc, search, if_neg hsmall, if_pos hfreep, morecore_mono hmore (by omega)]
        rfl
      · rw [hgrows.2]
  | fault => exact absurd hgrows id

theorem search_grows (h : Sound m s nodes live) (hpos : 0 < n) (hn : n * m.abi.unit < 2 ^ 31)
    {freep : Nat} (hfreep : s.heap.freep = some freep)
    (hsmall : ∀ c ∈ nodes, ¬ n ≤ s.heap.size c) (k : Nat) {prevp : Nat} (hprevp : prevp ∈ nodes)
    (hround : s.heap.ptr^[k] (s.heap.ptr prevp) = freep) :
    ∃ bound, ∀ fuel ≥ bound, ∃ result,
      search m n fuel s prevp (s.heap.ptr prevp) = some result ∧ Ends m s live n result := by
  induction k generalizing prevp with
  | zero =>
      obtain rfl : s.heap.ptr prevp = freep := hround
      exact h.search_wraps hpos hn hfreep (hsmall _ (h.tiled.ring.next_mem hprevp))
  | succ k ih =>
      have hnext := h.tiled.ring.next_mem hprevp
      by_cases hearly : s.heap.freep = some (s.heap.ptr prevp)
      · exact h.search_wraps hpos hn hearly (hsmall _ hnext)
      · obtain ⟨bound, hbound⟩ := ih hnext hround
        refine ⟨bound + 1, fun fuel hfuel => ?_⟩
        obtain ⟨fuel, rfl⟩ := Nat.exists_eq_add_of_le' hfuel
        rw [← Nat.add_assoc, search, if_neg (hsmall _ hnext), if_neg hearly]
        exact hbound _ (by omega)

end Sound

theorem mem_eraseP_of_nodup {blocks : List Block} {ap : Nat} (hnodup : (blocks.map Block.ptr).Nodup)
    {block : Block} (hblock : block ∈ blocks.eraseP fun block => block.ptr = ap) :
    block ∈ blocks ∧ block.ptr ≠ ap := by
  induction blocks with
  | nil => simp at hblock
  | cons first rest ih =>
      obtain ⟨hnew, hnodup⟩ := List.nodup_cons.mp hnodup
      by_cases hfirst : first.ptr = ap
      · rw [List.eraseP_cons_of_pos (by simpa using hfirst)] at hblock
        refine ⟨List.mem_cons_of_mem first hblock, fun heq => hnew ?_⟩
        exact List.mem_map.mpr ⟨block, hblock, heq.trans hfirst.symm⟩
      · rw [List.eraseP_cons_of_neg (by simpa using hfirst)] at hblock
        obtain rfl | hblock := List.mem_cons.mp hblock
        · exact ⟨List.mem_cons_self, hfirst⟩
        · obtain ⟨hmem, hne⟩ := ih hnodup hblock
          exact ⟨List.mem_cons_of_mem first hmem, hne⟩

theorem prepare_of_freep {freep : Nat} (h : s.heap.freep = some freep) : prepare m s = s := by
  simp [prepare, h]

namespace Sound

theorem prepare_eq (h : Sound m s nodes live) : prepare m s = s := by
  obtain ⟨freep, -, hfreep⟩ := h.freep
  exact prepare_of_freep hfreep

theorem prepare (h : Sound m s nodes live) : Sound m (prepare m s) nodes live := by
  rwa [h.prepare_eq]

theorem freep_ne_none (h : Sound m s nodes live) : s.heap.freep ≠ none := by
  obtain ⟨freep, -, hfreep⟩ := h.freep
  simp [hfreep]

theorem setLive (h : Sound m s nodes live) (blocks : List Block) :
    Sound m { s with live := blocks } nodes live :=
  ⟨h.tiled, h.spaced, h.freep, h.start_le, h.brk_le, h.answers⟩

end Sound

/-- The condition under which the arithmetic of a request is sound: the sum in `malloc` does not
wrap, and either the product in `morecore` fits an `int` or a block on the free list is large
enough. -/
structure Fits (m : Machine) (s : State) (nbytes : Nat) : Prop where
  uint : nbytes < 2 ^ 32
  sum_lt : nbytes + m.abi.unit - 1 < 2 ^ m.abi.wordBits
  growth : m.abi.units nbytes * m.abi.unit < 2 ^ 31 ∨
    ∃ p, s.heap.OnList p ∧ m.abi.units nbytes ≤ s.heap.size p

theorem Fits.le_units {nbytes : Nat} (h : Fits m s nbytes) :
    nbytes + m.abi.unit ≤ m.abi.units nbytes * m.abi.unit := by
  obtain ⟨huint, hsum, -⟩ := h
  revert hsum
  cases m.abi <;> simp only [Abi.units, Abi.unit, Abi.wordBits] <;> omega

/-- What the books say about a state: the process lives, the heap is sound once the static header is
set up, and every live block has a header of its own, as `malloc` left it, and the room it was
promised. -/
structure Accounted (m : Machine) (s : State) (nodes live : Finset Nat) : Prop where
  alive : s.killed = false
  first : s.heap.freep = none → s.live = []
  sound : Sound m (prepare m s) nodes live
  blocks : ∀ block ∈ s.live, ∃ a ∈ live, block.ptr = a + m.abi.unit ∧
    block.nbytes + m.abi.unit ≤ (prepare m s).heap.size a * m.abi.unit ∧
    (prepare m s).heap.size a = m.abi.units block.nbytes
  nodup : (s.live.map Block.ptr).Nodup

namespace Accounted

theorem init (m : Machine) : Accounted m (.init m) {m.base} ∅ where
  alive := rfl
  first _ := rfl
  sound := {
    tiled := {
      ring := SortedRing.singleton (by simp [prepare, State.init, Heap.setPtr, Heap.setSize])
      base_mem := Finset.mem_singleton_self _
      base_size := by simp [prepare, State.init, Heap.setSize]
      disjoint := Finset.disjoint_empty_right _
      size_pos := by simp
      inside := by
        simp [prepare, State.init, Heap.setPtr, Heap.setSize, Heap.blockEnd]
        omega
      apart := by simp }
    spaced := by
      intro a ha _ hptr
      obtain rfl := Finset.mem_singleton.mp ha
      exact absurd (by simp [prepare, State.init, Heap.setPtr, Heap.setSize]) hptr
    freep := ⟨m.base, Finset.mem_singleton_self _, rfl⟩
    start_le := Nat.le_refl _
    brk_le := m.start_le
    answers := by simp [prepare, State.init] }
  blocks := by simp [State.init]
  nodup := by simp [State.init]

theorem onList (h : Accounted m s nodes live) {p : Nat} (hp : s.heap.OnList p) :
    p ∈ nodes ∧ (prepare m s).heap.size p = s.heap.size p := by
  obtain ⟨freep, k, hfreep, rfl⟩ := hp
  have hsound := h.sound
  have hprepared : prepare m s = s := prepare_of_freep hfreep
  rw [hprepared] at hsound ⊢
  obtain ⟨freep', hmem, hfreep'⟩ := hsound.freep
  obtain rfl : freep = freep' := Option.some.inj (hfreep.symm.trans hfreep')
  exact ⟨hsound.tiled.ring.iterate_mem hmem k, rfl⟩

theorem malloc (h : Accounted m s nodes live) {nbytes : Nat} (hfits : Fits m s nbytes) :
    ∃ bound result, (∀ fuel ≥ bound, malloc m fuel s nbytes = some result) ∧
      Ends m (prepare m s) live (m.abi.units nbytes) result := by
  have hsound := h.sound
  have hpos : 0 < m.abi.units nbytes := Abi.units_pos hfits.uint
  obtain ⟨freep, hmem, hfreep⟩ := hsound.freep
  have hsearch : ∃ bound, ∀ fuel ≥ bound, ∃ result,
      search m (m.abi.units nbytes) fuel (prepare m s) freep ((prepare m s).heap.ptr freep)
        = some result ∧ Ends m (prepare m s) live (m.abi.units nbytes) result := by
    by_cases hlarge : ∃ c ∈ nodes, m.abi.units nbytes ≤ (prepare m s).heap.size c
    · obtain ⟨c, hc, hle⟩ := hlarge
      exact hsound.search_fits hpos hmem hfreep hc hle
    · have hsmall : ∀ c ∈ nodes, ¬ m.abi.units nbytes ≤ (prepare m s).heap.size c :=
        fun c hc hle => hlarge ⟨c, hc, hle⟩
      have hgrowth := hfits.growth.resolve_right fun ⟨p, hp, hle⟩ => by
        obtain ⟨hnode, hsize⟩ := h.onList hp
        exact hsmall p hnode (hsize ▸ hle)
      obtain ⟨k, hk⟩ := hsound.tiled.ring.exists_iterate (hsound.tiled.ring.next_mem hmem) hmem
      exact hsound.search_grows hpos hgrowth hfreep hsmall k hmem hk
  obtain ⟨bound, hbound⟩ := hsearch
  obtain ⟨result, hresult, hends⟩ := hbound bound (Nat.le_refl bound)
  refine ⟨bound, result, fun fuel hfuel => ?_, hends⟩
  exact Option.bind_eq_some_iff.mpr ⟨freep, hfreep, search_mono hresult hfuel⟩

theorem settle (h : Accounted m s nodes live) {nbytes : Nat} (hfits : Fits m s nbytes)
    {result : State × Outcome} (hmalloc : Malloc.malloc m fuel s nbytes = some result) :
    ∃ nodes' live', Accounted m (result.1.settle nbytes result.2) nodes' live' := by
  obtain ⟨bound, result', hbound, hends⟩ := h.malloc hfits
  obtain rfl : result = result' := Option.some.inj
    ((malloc_mono hmalloc (Nat.le_max_left fuel bound)).symm.trans
      (hbound _ (Nat.le_max_right fuel bound)))
  obtain ⟨after, outcome⟩ := result
  obtain ⟨hlive, hkilled⟩ := malloc_books hmalloc
  dsimp only at hlive hkilled
  have halive := hkilled.trans h.alive
  cases outcome with
  | returned p =>
      obtain ⟨a, rfl, hfresh, ⟨nodes', hafter⟩, hsize, hkeeps⟩ := hends
      refine ⟨nodes', insert a live, ⟨halive, fun hnone => absurd hnone hafter.freep_ne_none,
        (hafter.setLive _).prepare, fun block hblock => ?_, ?_⟩⟩
      · rw [State.settle, (hafter.setLive _).prepare_eq]
        obtain rfl | hblock := List.mem_cons.mp hblock
        · exact ⟨a, Finset.mem_insert_self a live, rfl, hsize.symm ▸ hfits.le_units, hsize⟩
        · obtain ⟨b, hb, hptr, hroom⟩ := h.blocks block (hlive ▸ hblock)
          exact ⟨b, Finset.mem_insert_of_mem hb, hptr, (hkeeps b hb).symm ▸ hroom⟩
      · refine List.nodup_cons.mpr ⟨fun hold => ?_, hlive ▸ h.nodup⟩
        obtain ⟨block, hblock, hptr⟩ := List.mem_map.mp hold
        obtain ⟨b, hb, hptr', -⟩ := h.blocks block (hlive ▸ hblock)
        obtain rfl : b = a := Nat.add_right_cancel (hptr'.symm.trans hptr)
        exact hfresh hb
  | refused =>
      obtain ⟨⟨nodes', hafter⟩, hkeeps⟩ := hends
      refine ⟨nodes', live, ⟨halive, fun hnone => absurd hnone hafter.freep_ne_none, hafter.prepare,
        fun block hblock => ?_, hlive ▸ h.nodup⟩⟩
      obtain ⟨b, hb, hptr, hroom⟩ := h.blocks block (hlive ▸ hblock)
      rw [State.settle, hafter.prepare_eq]
      exact ⟨b, hb, hptr, (hkeeps b hb).symm ▸ hroom⟩
  | fault => exact absurd hends id

theorem free (h : Accounted m s nodes live) {ap : Nat} {block : Block} (hblock : block ∈ s.live)
    (hap : block.ptr = ap) {heap : Heap} (hfree : s.heap.free m.abi fuel ap = some heap) :
    ∃ nodes' live', Accounted m
      { s with heap, live := s.live.eraseP fun block => block.ptr = ap } nodes' live' := by
  obtain ⟨freep, hfreep, -⟩ := Option.bind_eq_some_iff.mp hfree
  have hsound := h.sound
  have hblocks := h.blocks
  rw [prepare_of_freep hfreep] at hsound hblocks
  obtain ⟨a, ha, hptr, -⟩ := hblocks block hblock
  obtain rfl : ap = a + m.abi.unit := hap.symm.trans hptr
  obtain ⟨bound, hbound⟩ := hsound.tiled.free hsound.arena hsound.freep ha
  obtain ⟨heap', hfree', nodes', htiled, hfreep', hsizes, -, hspaced⟩ :=
    hbound (max fuel bound) (Nat.le_max_right fuel bound)
  obtain rfl : heap = heap' := Option.some.inj
    ((Heap.free_mono hfree (Nat.le_max_left fuel bound)).symm.trans hfree')
  have hafter := hsound.setHeap htiled (hspaced hsound.spaced) hfreep'
  refine ⟨nodes', live.erase a, ⟨h.alive, fun hnone => absurd hnone hafter.freep_ne_none,
    (hafter.setLive _).prepare, fun other hother => ?_, ?_⟩⟩
  · rw [(hafter.setLive _).prepare_eq]
    obtain ⟨hmem, hne⟩ := mem_eraseP_of_nodup h.nodup hother
    obtain ⟨b, hb, hptr', hroom⟩ := hblocks other hmem
    have hba : b ≠ a := fun heq => hne (heq ▸ hptr')
    have hin : b ∈ live.erase a := Finset.mem_erase.mpr ⟨hba, hb⟩
    exact ⟨b, hin, hptr', (hsizes b hin).symm ▸ hroom⟩
  · exact h.nodup.sublist (s.live.eraseP_sublist.map Block.ptr)

theorem sbrk (h : Accounted m s nodes live) {k : Nat} (hle : s.brk + k ≤ m.memory) :
    Accounted m { s with brk := s.brk + k } nodes live := by
  have hbrk : (prepare m s).brk = s.brk := by
    unfold prepare
    split <;> rfl
  have hprepare : prepare m { s with brk := s.brk + k } = { prepare m s with brk := s.brk + k } := by
    unfold prepare
    dsimp only
    cases s.heap.freep <;> rfl
  obtain ⟨htiled, hspaced, hfreep, hstart, -, hanswers⟩ := h.sound
  refine ⟨h.alive, h.first, ?_, ?_, h.nodup⟩ <;> rw [hprepare]
  · refine ⟨htiled.mono fun x hx => ⟨?_, hx.2⟩, hspaced, hfreep, ?_, hle, hanswers⟩
    · have := hx.1
      dsimp only
      omega
    · dsimp only
      omega
  · exact h.blocks

theorem step (h : Accounted m s nodes live) {action : Action} {next : State}
    (hfits : ∀ nbytes, action = .malloc nbytes → Fits m s nbytes)
    (hstep : step m fuel s action = some next) : ∃ nodes' live', Accounted m next nodes' live' := by
  unfold Malloc.step at hstep
  split at hstep
  case isTrue => cases hstep
  case isFalse =>
    cases action with
    | malloc nbytes =>
        obtain ⟨result, hmalloc, rfl⟩ := Option.map_eq_some_iff.mp hstep
        exact h.settle (hfits nbytes rfl) hmalloc
    | free ap =>
        simp only at hstep
        split at hstep
        case isTrue hlive =>
          obtain ⟨heap, hfree, rfl⟩ := Option.map_eq_some_iff.mp hstep
          obtain ⟨block, hblock, hptr⟩ := List.any_eq_true.mp hlive
          exact h.free hblock (of_decide_eq_true hptr) hfree
        case isFalse => cases hstep
    | sbrk k =>
        simp only at hstep
        split at hstep
        case isTrue hle =>
          cases hstep
          exact ⟨nodes, live, h.sbrk hle⟩
        case isFalse => cases hstep

end Accounted

theorem Served.serves {a : Nat} {after : State} {nbytes : Nat}
    (h : Served m (prepare m s) live n after a) (haccounted : Accounted m s nodes live)
    (hroom : nbytes + m.abi.unit ≤ n * m.abi.unit) :
    s.Serves nbytes (a + m.abi.unit) after := by
  obtain ⟨hfresh, ⟨nodes', hafter⟩, hsize, hkeeps⟩ := h
  have hall := Finset.mem_union_right nodes' (Finset.mem_insert_self a live)
  have hend : after.heap.blockEnd m.abi a = a + n * m.abi.unit := by rw [Heap.blockEnd, hsize]
  refine ⟨fun x hfrom hto => hafter.tiled.inside a hall x (by omega) (by omega), ?_⟩
  intro block hblock
  obtain ⟨b, hb, hptr, hroom', -⟩ := haccounted.blocks block hblock
  have hne : a ≠ b := fun heq => hfresh (heq ▸ hb)
  have hother := Finset.mem_union_right nodes' (Finset.mem_insert_of_mem (a := b) (b := a) hb)
  rw [← hkeeps b hb] at hroom'
  obtain hbelow | habove := hafter.tiled.apart a hall b hother hne
  · exact Or.inl (by omega)
  · unfold Heap.blockEnd at habove
    exact Or.inr (by omega)

/-- **No block is too small.** In a process all of whose requests meet the condition, `malloc`
returns, and it returns null or a block of granted memory as long as was asked for and apart from
every live one. -/
theorem malloc_serves (m : Machine) (fuel : Nat) {actions : List Action} {s : State}
    (hrun : Transition.run (step m fuel) (.init m) actions = some s)
    (hfits : Transition.Along (step m fuel)
      (fun state action => ∀ nbytes, action = .malloc nbytes → Fits m state nbytes) (.init m) actions)
    {nbytes : Nat} (hlast : Fits m s nbytes) :
    ∃ after outcome, (∃ bound, ∀ fuel ≥ bound, malloc m fuel s nbytes = some (after, outcome)) ∧
      (outcome = .refused ∨ ∃ p, outcome = .returned p ∧ s.Serves nbytes p after) := by
  have hpreserve : ∀ state action next, (∃ nodes live, Accounted m state nodes live) →
      (∀ nbytes, action = .malloc nbytes → Fits m state nbytes) →
      step m fuel state action = some next → ∃ nodes live, Accounted m next nodes live :=
    fun _ _ _ ⟨_, _, h⟩ hfits hstep => h.step hfits hstep
  obtain ⟨nodes, live, haccounted⟩ :=
    Transition.invariant_along hpreserve ⟨_, _, .init m⟩ hfits hrun
  obtain ⟨bound, ⟨after, outcome⟩, hreturns, hends⟩ := haccounted.malloc hlast
  refine ⟨after, outcome, ⟨bound, hreturns⟩, ?_⟩
  cases outcome with
  | returned p =>
      obtain ⟨a, rfl, hserved⟩ := hends
      exact Or.inr ⟨_, rfl, hserved.serves haccounted hlast.le_units⟩
  | refused => exact Or.inl rfl
  | fault => exact absurd hends id

/-- A first request of a thousand bytes, and a second one of five hundred. -/
theorem malloc_serves_thousand :
    ∃ s after outcome, Transition.run (step (.small .lp64) 5) (.init (.small .lp64))
        [.malloc 1000] = some s ∧
      (∃ bound, ∀ fuel ≥ bound, malloc (.small .lp64) fuel s 500 = some (after, outcome)) ∧
      (outcome = .refused ∨ ∃ p, outcome = .returned p ∧ s.Serves 500 p after) := by
  have hsmall : ∀ s : State, ∀ nbytes ≤ 1000, Fits (.small .lp64) s nbytes := by
    intro s nbytes hle
    refine ⟨by omega, ?_, Or.inl ?_⟩ <;>
      simp only [Machine.small, Abi.units, Abi.unit, Abi.wordBits] <;> omega
  have hreturns : (Transition.run (step (.small .lp64) 5) (.init (.small .lp64))
      [.malloc 1000]).isSome := by decide
  obtain ⟨s, hs⟩ := Option.isSome_iff_exists.mp hreturns
  obtain ⟨after, outcome, hmalloc, hserves⟩ := malloc_serves (.small .lp64) 5 hs
    ⟨fun nbytes heq => hsmall _ _ (by cases heq; omega), fun _ _ => trivial⟩ (hsmall s 500 (by omega))
  exact ⟨s, after, outcome, hs, hmalloc, hserves⟩

/-- Every block a process is ever handed serves its caller. -/
def AlwaysServes (m : Machine) : Prop :=
  ∀ fuel s, Transition.Reachable (step m fuel) (.init m) s → ∀ nbytes < 2 ^ 32, ∀ after p,
    malloc m fuel s nbytes = some (after, .returned p) → s.Serves nbytes p after

theorem not_alwaysServes_of_brk (m : Machine) (fuel p nbytes : Nat) (hpos : 0 < nbytes)
    (hlt : nbytes < 2 ^ 32)
    (h : (malloc m fuel (.init m) nbytes).map (fun result => (result.2, result.1.brk)) =
      some (.returned p, p)) : ¬ AlwaysServes m := by
  intro halways
  obtain ⟨⟨after, outcome⟩, hmalloc, heq⟩ := Option.map_eq_some_iff.mp h
  obtain ⟨rfl, hbrk⟩ := Prod.mk.inj heq
  have hserves := halways fuel _ (Transition.Reachable.refl _) nbytes hlt after p hmalloc
  have hgranted := hserves.1 p (Nat.le_refl p) (by omega)
  exact absurd hgranted.1 (by dsimp only at hbrk; omega)

/-- The largest `uint`, as the first request: the sum wraps to one unit on 32 bits, and on 64 bits
`sbrk` is asked for sixteen bytes. Either way the block starts at the break. -/
theorem not_alwaysServes :
    ¬ AlwaysServes (.small .ilp32) ∧ ¬ AlwaysServes (.small .lp64) :=
  ⟨not_alwaysServes_of_brk (.small .ilp32) 5 40960 (2 ^ 32 - 1) (by omega) (by omega) (by decide),
    not_alwaysServes_of_brk (.small .lp64) 5 8208 (2 ^ 32 - 1) (by omega) (by omega) (by decide)⟩

end Xv6.Malloc
