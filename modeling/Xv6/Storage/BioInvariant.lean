import Xv6.Storage.Bio
import Xv6.Lib.Tally

/-!
# What holds of the buffer cache at every point

The buffers `binit` left zeroed all carry `(dev, blockno) = (0, 0)`, so identities are unique only
among the others; the zeroed ones that no `bget` has picked stay behind every buffer in use for that
block, which is why the first loop of `bget` never takes one while another is in use.
-/

set_option linter.unusedSectionVars false

namespace Xv6.Bio

variable {n : Nat} {ι : Type} [DecidableEq ι] [Fintype ι]

/-- How often the processes together are counted in the `refcnt` of a buffer. -/
def totalUses (proc : ι → Proc n) (b : Fin n) : Nat := ∑ who, (proc who).uses b

theorem totalUses_update (proc : ι → Proc n) (who : ι) (changed : Proc n) (b : Fin n) :
    totalUses (Function.update proc who changed) b + (proc who).uses b =
      totalUses proc b + changed.uses b :=
  Tally.sum_update proc (fun proc => proc.uses b) who changed

theorem uses_le_totalUses (proc : ι → Proc n) (who : ι) (b : Fin n) :
    (proc who).uses b ≤ totalUses proc b :=
  Tally.le_sum proc (fun proc => proc.uses b) who

def Unfilled (state : State n ι) (b : Fin n) : Prop :=
  state.pins b = 0 ∧ ∀ who, b ∉ (state.proc who).held ∧ (state.proc who).pc ≠ .releasing b

structure Identities (buf : Fin n → Buf ι Bool) (released : Fin n → Nat) (nodes : List (Fin n)) :
    Prop where
  key : ∀ b b', (buf b).key = (buf b').key → b = b' ∨ buf b = .zero ∨ buf b' = .zero
  fresh : nodes.Pairwise fun b b' => buf b = .zero → (buf b').key = (0, 0) → buf b' = .zero
  order : nodes.Pairwise fun b b' => (buf b).refcnt = 0 → (buf b').refcnt = 0 →
    released b' < released b ∨ released b' = 0

structure Inv (state : State n ι) (nodes : List (Fin n)) : Prop where
  ring : state.cache.list.IsRing nodes
  complete : ∀ b, b ∈ nodes
  refcnt : ∀ b, (state.cache.buf b).refcnt = totalUses state.proc b + state.pins b
  owner : ∀ who b, (state.cache.buf b).owner = some who ↔
    b ∈ (state.proc who).held ∨ (state.proc who).pc = .reading b
  notHeld : ∀ who b, (state.proc who).pc = .reading b → b ∉ (state.proc who).held
  ids : Identities state.cache.buf state.released nodes
  invalid : ∀ b, (state.cache.buf b).content = false →
    state.cache.buf b = .zero ∨ 0 < (state.cache.buf b).refcnt ∧ Unfilled state b
  clock : ∀ b, state.released b ≤ state.clock

theorem Unfilled.setProc {state : State n ι} {who : ι} {pc : Pc n} {held : Finset (Fin n)}
    {b : Fin n} (h : Unfilled state b) (hheld : b ∉ held) (hpc : pc ≠ .releasing b)
    (cache : Bcache n ι Bool) : Unfilled { state.setProc who pc held with cache } b := by
  refine ⟨h.1, fun other => ?_⟩
  by_cases hother : other = who
  · subst hother
    simpa using ⟨hheld, hpc⟩
  · simpa [hother] using h.2 other

/-! ### Identities when one buffer changes -/

namespace Identities

variable {buf : Fin n → Buf ι Bool} {released : Fin n → Nat} {nodes : List (Fin n)} {b : Fin n}
  {changed : Buf ι Bool}

omit [Fintype ι] in
theorem ne_zero_of_refcnt {buf : Buf ι Bool} (hrefcnt : 0 < buf.refcnt) : buf ≠ .zero := by
  rintro rfl
  simp [Buf.zero] at hrefcnt

theorem setBuf_inUse (h : Identities buf released nodes) (hkey : changed.key = (buf b).key)
    (hbefore : 0 < (buf b).refcnt) (hafter : 0 < changed.refcnt) :
    Identities (Function.update buf b changed) released nodes := by
  have hsame : ∀ x, (Function.update buf b changed x).key = (buf x).key := by
    intro x
    by_cases hx : x = b
    · rw [hx, Function.update_self, hkey]
    · rw [Function.update_of_ne hx]
  have hzero : ∀ x, Function.update buf b changed x = .zero ↔ buf x = .zero := by
    intro x
    by_cases hx : x = b
    · subst hx
      rw [Function.update_self]
      exact iff_of_false (ne_zero_of_refcnt hafter) (ne_zero_of_refcnt hbefore)
    · rw [Function.update_of_ne hx]
  have hrefcnt : ∀ x, (Function.update buf b changed x).refcnt = 0 → (buf x).refcnt = 0 := by
    intro x hx
    by_cases hxb : x = b
    · subst hxb
      rw [Function.update_self] at hx
      omega
    · rwa [Function.update_of_ne hxb] at hx
  refine ⟨fun x y => ?_, h.fresh.imp fun {x y} => ?_, h.order.imp fun {x y} hxy hx hy => ?_⟩
  · rw [hsame, hsame, hzero, hzero]
    exact h.key x y
  · rw [hsame, hzero, hzero]
    exact id
  · exact hxy (hrefcnt x hx) (hrefcnt y hy)

theorem setBuf_of_unique {before after : List (Fin n)}
    (h : Identities buf released (before ++ b :: after)) (hafter : 0 < changed.refcnt)
    (hunique : ∀ x, x ≠ b → (buf x).key = changed.key → buf x = .zero)
    (hfront : changed.key = (0, 0) → ∀ x ∈ before, buf x ≠ .zero)
    (hnodup : (before ++ b :: after).Nodup) :
    Identities (Function.update buf b changed) released (before ++ b :: after) := by
  have hchanged : changed ≠ .zero := ne_zero_of_refcnt hafter
  have hbefore : ∀ x ∈ before, x ≠ b := by
    rintro x hx rfl
    exact List.disjoint_of_nodup_append hnodup hx List.mem_cons_self
  have hafterMem : ∀ x ∈ after, x ≠ b := by
    rintro x hx rfl
    exact (List.nodup_cons.mp (List.nodup_append.mp hnodup).2.1).1 hx
  refine ⟨fun x y hxy => ?_, ?_, ?_⟩
  · by_cases hx : x = b
    · subst hx
      by_cases hy : y = x
      · exact Or.inl hy.symm
      · rw [Function.update_self, Function.update_of_ne hy] at hxy
        rw [Function.update_of_ne hy]
        exact Or.inr (Or.inr (hunique y hy hxy.symm))
    · by_cases hy : y = b
      · subst hy
        rw [Function.update_self, Function.update_of_ne hx] at hxy
        rw [Function.update_of_ne hx]
        exact Or.inr (Or.inl (hunique x hx hxy))
      · rw [Function.update_of_ne hx, Function.update_of_ne hy] at hxy ⊢
        exact h.key x y hxy
  · have hfresh := h.fresh
    rw [List.pairwise_append, List.pairwise_cons] at hfresh ⊢
    obtain ⟨hpairs, ⟨-, hpairs'⟩, hcross⟩ := hfresh
    refine ⟨hpairs.imp_of_mem fun {x y} hx hy hxy => ?_,
      ⟨fun y hy hzero => ?_, hpairs'.imp_of_mem fun {x y} hx hy hxy => ?_⟩, fun x hx y hy => ?_⟩
    · rwa [Function.update_of_ne (hbefore x hx), Function.update_of_ne (hbefore y hy)]
    · rw [Function.update_self] at hzero
      exact absurd hzero hchanged
    · rwa [Function.update_of_ne (hafterMem x hx), Function.update_of_ne (hafterMem y hy)]
    · rw [Function.update_of_ne (hbefore x hx)]
      obtain rfl | hy := List.mem_cons.mp hy
      · rw [Function.update_self]
        exact fun hzero hkey => absurd hzero (hfront hkey x hx)
      · rw [Function.update_of_ne (hafterMem y hy)]
        exact hcross x hx y (List.mem_cons_of_mem _ hy)
  · refine h.order.imp fun {x y} hxy => ?_
    by_cases hxb : x = b
    · subst hxb
      rw [Function.update_self]
      exact fun hzero => absurd hzero (by omega)
    · by_cases hyb : y = b
      · subst hyb
        rw [Function.update_self]
        exact fun _ hzero => absurd hzero (by omega)
      · rw [Function.update_of_ne hxb, Function.update_of_ne hyb]
        exact hxy

theorem setBuf_release (h : Identities buf released nodes) (hkey : changed.key = (buf b).key)
    (hbefore : 0 < (buf b).refcnt) (hchanged : changed ≠ .zero) {clock : Nat}
    (hclock : ∀ x, released x ≤ clock) (hmem : b ∈ nodes) (hnodup : nodes.Nodup) :
    Identities (Function.update buf b changed) (Function.update released b (clock + 1))
      (b :: nodes.erase b) := by
  have hrest : ∀ x ∈ nodes.erase b, x ≠ b := by
    rintro x hx rfl
    exact (List.Nodup.not_mem_erase hnodup) hx
  refine ⟨fun x y hxy => ?_, List.pairwise_cons.mpr ⟨fun y _ hzero => ?_, ?_⟩,
    List.pairwise_cons.mpr ⟨fun y hy _ _ => ?_, ?_⟩⟩
  · by_cases hx : x = b
    · subst hx
      by_cases hy : y = x
      · exact Or.inl hy.symm
      · rw [Function.update_self, Function.update_of_ne hy, hkey] at hxy
        rw [Function.update_of_ne hy]
        obtain heq | hzero | hzero := h.key x y hxy
        · exact Or.inl heq
        · exact absurd hzero (ne_zero_of_refcnt hbefore)
        · exact Or.inr (Or.inr hzero)
    · by_cases hy : y = b
      · subst hy
        rw [Function.update_self, Function.update_of_ne hx, hkey] at hxy
        rw [Function.update_of_ne hx]
        obtain heq | hzero | hzero := h.key x y hxy
        · exact Or.inl heq
        · exact Or.inr (Or.inl hzero)
        · exact absurd hzero (ne_zero_of_refcnt hbefore)
      · rw [Function.update_of_ne hx, Function.update_of_ne hy] at hxy ⊢
        exact h.key x y hxy
  · rw [Function.update_self] at hzero
    exact absurd hzero hchanged
  · refine (h.fresh.sublist List.erase_sublist).imp_of_mem fun {x y} hx hy hxy => ?_
    rwa [Function.update_of_ne (hrest x hx), Function.update_of_ne (hrest y hy)]
  · rw [Function.update_self, Function.update_of_ne (hrest y hy)]
    have hle := hclock y
    exact Or.inl (by omega)
  · refine (h.order.sublist List.erase_sublist).imp_of_mem fun {x y} hx hy hxy => ?_
    rwa [Function.update_of_ne (hrest x hx), Function.update_of_ne (hrest y hy),
      Function.update_of_ne (hrest x hx), Function.update_of_ne (hrest y hy)]

theorem update_released (h : Identities buf released nodes) (hbefore : 0 < (buf b).refcnt)
    (time : Nat) : Identities buf (Function.update released b time) nodes := by
  refine ⟨h.key, h.fresh, h.order.imp fun {x y} hxy hx hy => ?_⟩
  have hne : ∀ z, (buf z).refcnt = 0 → z ≠ b := by
    rintro z hz rfl
    omega
  rw [Function.update_of_ne (hne x hx), Function.update_of_ne (hne y hy)]
  exact hxy hx hy

end Identities

namespace Inv

variable {state next : State n ι} {nodes : List (Fin n)} {who : ι} {b : Fin n}

theorem length_lt (h : Inv state nodes) : nodes.length < n + 1 := by
  have hle := h.ring.nodup.length_le_card
  simp at hle
  omega

theorem uses_le (h : Inv state nodes) (who : ι) (b : Fin n) :
    (state.proc who).uses b ≤ (state.cache.buf b).refcnt := by
  have hle := uses_le_totalUses state.proc who b
  have hrefcnt := h.refcnt b
  omega

theorem refcnt_pos_of_pc (h : Inv state nodes)
    (hpc : (state.proc who).pc = .waiting b ∨ (state.proc who).pc = .reading b ∨
      (state.proc who).pc = .releasing b) : 0 < (state.cache.buf b).refcnt := by
  have hle := h.uses_le who b
  rw [Proc.uses, if_pos hpc] at hle
  omega

theorem refcnt_pos_of_held (h : Inv state nodes) (hheld : b ∈ (state.proc who).held) :
    0 < (state.cache.buf b).refcnt := by
  have hle := h.uses_le who b
  rw [Proc.uses, if_pos hheld] at hle
  omega

theorem unfilled_of_refcnt (h : Inv state nodes) (hrefcnt : (state.cache.buf b).refcnt = 0) :
    Unfilled state b := by
  refine ⟨?_, fun who => ⟨fun hheld => ?_, fun hpc => ?_⟩⟩
  · have htotal := h.refcnt b
    omega
  · have hpos := h.refcnt_pos_of_held hheld
    omega
  · have hpos := h.refcnt_pos_of_pc (Or.inr (Or.inr hpc))
    omega

/-! ### What the two loops of `bget` find -/

theorem cached_eq (h : Inv state nodes) (dev blockno : Nat) :
    state.cache.cached dev blockno =
      nodes.find? fun b => (state.cache.buf b).dev = dev ∧ (state.cache.buf b).blockno = blockno :=
  h.ring.scanNext h.length_lt _

theorem unused_eq (h : Inv state nodes) :
    state.cache.unused = nodes.reverse.find? fun b => (state.cache.buf b).refcnt = 0 :=
  h.ring.scanPrev h.length_lt _

theorem key_ne_of_cached_eq_none (h : Inv state nodes) {dev blockno : Nat}
    (hcached : state.cache.cached dev blockno = none) (b : Fin n) :
    (state.cache.buf b).key ≠ (dev, blockno) := by
  rw [h.cached_eq, List.find?_eq_none] at hcached
  have hb := hcached b (h.complete b)
  simpa [Buf.key] using hb

theorem unused_spec (h : Inv state nodes) (hunused : state.cache.unused = some b) :
    (state.cache.buf b).refcnt = 0 ∧
      ∀ b', b' ≠ b → (state.cache.buf b').refcnt = 0 →
        state.released b < state.released b' ∨ state.released b = 0 := by
  rw [h.unused_eq, List.find?_eq_some_iff_append] at hunused
  obtain ⟨hrefcnt, after, before, hsplit, hafter⟩ := hunused
  have hnodes : nodes = before.reverse ++ b :: after.reverse := by
    rw [← List.reverse_reverse nodes, hsplit]
    simp
  refine ⟨by simpa using hrefcnt, fun b' hne hrefcnt' => ?_⟩
  have hmem := h.complete b'
  have horder := h.ids.order
  rw [hnodes] at hmem horder
  simp only [List.mem_append, List.mem_reverse, List.mem_cons] at hmem
  obtain hmem | hmem | hmem := hmem
  · have hpair := (List.pairwise_append.mp horder).2.2 b' (List.mem_reverse.mpr hmem) b
      List.mem_cons_self
    exact hpair hrefcnt' (by simpa using hrefcnt)
  · exact absurd hmem hne
  · have hused := hafter b' hmem
    simp [hrefcnt'] at hused

theorem cached_spec (h : Inv state nodes) {dev blockno : Nat}
    (hcached : state.cache.cached dev blockno = some b) :
    (state.cache.buf b).key = (dev, blockno) ∧
      ∃ before after, nodes = before ++ b :: after ∧
        ∀ b' ∈ before, (state.cache.buf b').key ≠ (dev, blockno) := by
  rw [h.cached_eq, List.find?_eq_some_iff_append] at hcached
  obtain ⟨hkey, before, after, hsplit, hbefore⟩ := hcached
  refine ⟨by simpa [Buf.key] using hkey, before, after, hsplit, fun b' hb' => ?_⟩
  have hother := hbefore b' hb'
  simpa [Buf.key, -not_and, Classical.not_and_iff_not_or_not] using hother

theorem zero_of_cached (h : Inv state nodes) {dev blockno : Nat}
    (hcached : state.cache.cached dev blockno = some b) {x : Fin n} (hx : x ≠ b)
    (hkey : (state.cache.buf x).key = (dev, blockno)) : state.cache.buf x = .zero := by
  obtain ⟨hkeyB, before, after, rfl, hbefore⟩ := h.cached_spec hcached
  obtain hmem | hmem := List.mem_append.mp (h.complete x)
  · exact absurd hkey (hbefore x hmem)
  · obtain heq | hmem := List.mem_cons.mp hmem
    · exact absurd heq hx
    · obtain heq | hzero | hzero := h.ids.key x b (hkey.trans hkeyB.symm)
      · exact absurd heq hx
      · exact hzero
      · refine (List.pairwise_cons.mp (List.pairwise_append.mp h.ids.fresh).2.1).1 x hmem hzero ?_
        rw [hkey, ← hkeyB, hzero]
        rfl

end Inv

end Xv6.Bio
