import Xv6.Vm.FreePages
import Xv6.Vm.Riscv64Memory

/-!
# The bytes of a user copy on riscv64

A copy comes to one page after the other, and may allocate pages on its way. It gets as far as every
page is one of the user's, or is not mapped although it is below the size and there are free pages
for it and for the tables above it. A copy that has gone through a page goes on as one that starts
at the next, with the page table and the free pages that are left.
-/

namespace Xv6.Vm.Riscv64

/-! ### What a copy is to do -/

/-- The tables and pages that are not there on the way to the pages from `first` up to `last`. -/
def needed (tree : arch.Tree) (first last : Nat) : Finset (List Index) :=
  (Finset.Ico first last).biUnion fun v => absent tree (arch.path v)

def contents (view : View Index Word Flags) (v : Nat) : Index → Word := (view v).elim (fun _ => 0) Page.words

def byte (view : View Index Word Flags) (a : Nat) : UInt8 := byteAt (contents view (a / pgsize)) (a % pgsize)

/-- What a copy starts from: the size of the process, whether it is to store bytes, the page table,
the pages of the process, and how many pages are free. -/
structure Start where
  psz : Nat
  store : Bool
  tree : arch.Tree
  view : View Index Word Flags
  free : Nat

namespace Start

variable (s : Start) (first v va i : Nat)

/-- A copy can use the page `v` if it can use those before it, from `first` on: the page is one of
the user's and may be written if need be, or it is not mapped, is below the size, and can be
allocated. -/
def Usable : Prop :=
  match s.view v with
  | some page => userPage page = true ∧ (s.store = true → allows page.flags pteW = true)
  | none => v < trapframePage ∧ v * pgsize < s.psz ∧ (needed s.tree first (v + 1)).card ≤ s.free

/-- A copy at `va` gets to the byte `i`. Beyond `MAXVA` no page is usable, so that no address that
it gets to wraps. -/
def Reaches : Prop := ∀ j ≤ i, s.Usable (va / pgsize) ((va + j) / pgsize)

/-- A copy of a string gets to the byte `i`: there is no null before it. -/
def Goes : Prop := s.Reaches va i ∧ ∀ j < i, byte s.view (va + j) ≠ 0

end Start

/-- The pages that are touched and were not mapped are allocated, and the others are as they were.
-/
structure Faults (touched : Nat → Prop) (view view' : View Index Word Flags) : Prop where
  allocated : ∀ v, touched v → view v = none → ∃ page, view' v = some page ∧ page.flags = lazyFlags
  others : ∀ v, ¬(touched v ∧ view v = none) →
    (view' v).map (fun page => (page.frame, page.flags)) = (view v).map fun page => (page.frame, page.flags)

/-- The pages of the bytes at `va` that a copy gets to. -/
def touched (reach : Nat → Prop) (va v : Nat) : Prop := ∃ i, reach i ∧ (va + i) / pgsize = v

/-- How a copy of `len` bytes at `va` is to end: with 0 if every page that they are in is usable. -/
def Status (s : Start) (va len : Nat) (result : Int) : Prop :=
  (result = 0 ∧ ∀ i < len, s.Usable (va / pgsize) ((va + i) / pgsize)) ∨
    (result = -1 ∧ ∃ i < len, ¬s.Usable (va / pgsize) ((va + i) / pgsize))

/-- What `copyout` is to do: it stores the bytes that it gets to, and changes no other byte of the
user's. -/
structure CopiedOut (s : Start) (va : Nat) (src : List UInt8) (result : Int)
    (view' : View Index Word Flags) : Prop where
  status : Status s va src.length result
  stored : ∀ i, (hi : i < src.length) → s.Reaches va i → byte view' (va + i) = src[i]
  kept : ∀ a, (∀ i < src.length, s.Reaches va i → a ≠ va + i) → byte view' a = byte s.view a
  pages : Faults (touched (fun i => i < src.length ∧ s.Reaches va i) va) s.view view'

/-- What `copyin` is to do: it reads the bytes that it gets to, and changes no byte of the user's.
-/
structure CopiedIn (s : Start) (va len : Nat) (result : Int × List UInt8) (view' : View Index Word Flags) : Prop where
  status : Status s va len result.1
  length : ∀ i, i < result.2.length ↔ i < len ∧ s.Reaches va i
  loaded : ∀ i, (hi : i < result.2.length) → result.2[i] = byte s.view (va + i)
  kept : ∀ a, byte view' a = byte s.view a
  pages : Faults (touched (fun i => i < len ∧ s.Reaches va i) va) s.view view'

/-- What `copyinstr` writes: the string, and the null where there was one. -/
def written (result : Int × List UInt8) : List UInt8 :=
  if result.1 = 0 then result.2 ++ [0] else result.2

/-- What `copyinstr` is to do: it reads the bytes that it gets to up to a null, and returns 0 if
there is one. -/
structure CopiedString (s : Start) (va max : Nat) (result : Int × List UInt8) (view' : View Index Word Flags) :
    Prop where
  status : (result.1 = 0 ∧ ∃ i < max, s.Reaches va i ∧ byte s.view (va + i) = 0) ∨
    (result.1 = -1 ∧ ¬∃ i < max, s.Reaches va i ∧ byte s.view (va + i) = 0)
  length : ∀ i, i < (written result).length ↔ i < max ∧ s.Goes va i
  loaded : ∀ i, (hi : i < (written result).length) → (written result)[i] = byte s.view (va + i)
  kept : ∀ a, byte view' a = byte s.view a
  pages : Faults (touched (fun i => i < max ∧ s.Goes va i) va) s.view view'

/-! ### From one page to the next -/

section Needed

variable {tree tree' : arch.Tree} {v last : Nat}

theorem mem_needed {first : Nat} {q : List Index} :
    q ∈ needed tree first last ↔ ∃ w, (first ≤ w ∧ w < last) ∧ q <+: arch.path w ∧ tree.node q = none := by
  simp only [needed, Finset.mem_biUnion, Finset.mem_Ico, mem_absent]

theorem card_needed (hlt : v < last) (h : Completes (arch.path v) tree tree') :
    (needed tree v last).card = (absent tree (arch.path v)).card + (needed tree' (v + 1) last).card := by
  have hunion : needed tree v last = absent tree (arch.path v) ∪ needed tree' (v + 1) last := by
    ext q
    rw [Finset.mem_union, mem_needed, mem_needed, mem_absent, h q]
    constructor
    · rintro ⟨w, hw, hpath, hnone⟩
      by_cases hfirst : q <+: arch.path v
      · exact Or.inl ⟨hfirst, hnone⟩
      · have hne : w ≠ v := by
          rintro rfl
          exact hfirst hpath
        exact Or.inr ⟨w, by omega, hpath, hnone, hfirst⟩
    · rintro (⟨hpath, hnone⟩ | ⟨w, hw, hpath, hnone, -⟩)
      · exact ⟨v, ⟨Nat.le_refl v, hlt⟩, hpath, hnone⟩
      · exact ⟨w, by omega, hpath, hnone⟩
  rw [hunion, Finset.card_union_of_disjoint]
  rw [Finset.disjoint_left]
  intro q hq hq'
  obtain ⟨w, -, -, hnone⟩ := mem_needed.mp hq'
  exact ((h q).mp hnone).2 (mem_absent.mp hq).1

end Needed

/-- A copy has gone through the page `v`, and goes on from what it left. -/
structure Start.Step (s s' : Start) (v : Nat) : Prop where
  psz : s'.psz = s.psz
  store : s'.store = s.store
  completes : Completes (arch.path v) s.tree s'.tree
  free : s.free = s'.free + (absent s.tree (arch.path v)).card
  view : ∀ w, w ≠ v → s'.view w = s.view w

section Step

variable {s s' : Start} {v va i n len : Nat}

theorem Start.Step.usable_iff (h : s.Step s' v) {w : Nat} (hw : v < w) :
    s'.Usable (v + 1) w ↔ s.Usable v w := by
  have hneeded : (needed s.tree v (w + 1)).card =
      (absent s.tree (arch.path v)).card + (needed s'.tree (v + 1) (w + 1)).card :=
    card_needed (Nat.lt_succ_of_lt hw) h.completes
  have hfree := h.free
  unfold Start.Usable
  rw [h.view w (Nat.ne_of_gt hw), h.psz, h.store]
  cases s.view w with
  | some page => exact Iff.rfl
  | none =>
      have hle : (needed s.tree v (w + 1)).card ≤ s.free ↔ (needed s'.tree (v + 1) (w + 1)).card ≤ s'.free := by
        omega
      simp only [hle]

theorem next_div (v : Nat) : (v * pgsize + pgsize) / pgsize = v + 1 := by
  rw [← Nat.succ_mul, mul_div_pgsize]

theorem next_add_div (v i : Nat) : (v * pgsize + pgsize + i) / pgsize = v + 1 + i / pgsize := by
  unfold pgsize
  omega

variable (hn : n = min (pgsize - va % pgsize) len) (h : s.Step s' (va / pgsize))
include hn h

theorem Start.Step.usable_next (hlow : n ≤ i) (hhigh : i < len) :
    s'.Usable (va / pgsize + 1) ((va / pgsize * pgsize + pgsize + (i - n)) / pgsize) ↔
      s.Usable (va / pgsize) ((va + i) / pgsize) := by
  rw [add_of_le hn hlow hhigh, next_add_div]
  exact h.usable_iff (Nat.lt_of_lt_of_le (Nat.lt_succ_self _) (Nat.le_add_right _ _))

variable (husable : s.Usable (va / pgsize) (va / pgsize))
include husable

omit h in
theorem usable_of_lt (hi : i < n) : s.Usable (va / pgsize) ((va + i) / pgsize) := by
  rw [(div_of_lt hn hi).1]
  exact husable

omit h in
theorem reaches_of_lt (hi : i < n) : s.Reaches va i :=
  fun _ hj => usable_of_lt hn husable (Nat.lt_of_le_of_lt hj hi)

theorem Start.Step.reaches_iff (hlow : n ≤ i) (hhigh : i < len) :
    s'.Reaches (va / pgsize * pgsize + pgsize) (i - n) ↔ s.Reaches va i := by
  unfold Start.Reaches
  rw [next_div]
  refine ⟨fun hreach j hj => ?_, fun hreach j hj => ?_⟩
  · by_cases hlt : j < n
    · exact usable_of_lt hn husable hlt
    · exact (h.usable_next hn (Nat.not_lt.mp hlt) (by omega)).mp (hreach (j - n) (by omega))
  · have hnext := (h.usable_next hn (Nat.le_add_right n j) (by omega)).mpr (hreach (n + j) (by omega))
    rwa [Nat.add_sub_cancel_left] at hnext

theorem Start.Step.status {result : Int}
    (hrest : Status s' (va / pgsize * pgsize + pgsize) (len - n) result) : Status s va len result := by
  unfold Status at hrest
  rw [next_div] at hrest
  rcases hrest with ⟨hresult, hall⟩ | ⟨hresult, j, hj, hnot⟩
  · refine Or.inl ⟨hresult, fun i hi => ?_⟩
    by_cases hlt : i < n
    · exact usable_of_lt hn husable hlt
    · exact (h.usable_next hn (Nat.not_lt.mp hlt) hi).mp (hall (i - n) (by omega))
  · refine Or.inr ⟨hresult, n + j, by omega, fun husable' => hnot ?_⟩
    have hnext := (h.usable_next hn (Nat.le_add_right n j) (by omega)).mpr husable'
    rwa [Nat.add_sub_cancel_left] at hnext

end Step

structure Start.Leaves (s s' : Start) (v : Nat) (words : Index → Word) : Prop extends s.Step s' v where
  contents : contents s'.view v = words
  mapped : ∃ page, s'.view v = some page ∧ (s.view v = none → page.flags = lazyFlags) ∧
    ∀ old, s.view v = some old → page.frame = old.frame ∧ page.flags = old.flags

theorem Faults.none {T : Nat → Prop} {view : View Index Word Flags} (hnone : ∀ v, ¬T v) : Faults T view view :=
  ⟨fun v hv => absurd hv (hnone v), fun _ _ => rfl⟩

theorem Faults.step {s s' : Start} {v : Nat} {words : Index → Word} {T T' : Nat → Prop}
    {view' : View Index Word Flags} (hrest : Faults T' s'.view view') (h : s.Leaves s' v words)
    (hT : ∀ w, T w ↔ w = v ∨ T' w) : Faults T s.view view' := by
  obtain ⟨page, hpage, hlazy, hsame⟩ := h.mapped
  have hself : (view' v).map (fun page => (page.frame, page.flags)) = some (page.frame, page.flags) := by
    rw [hrest.others v fun hnone => Option.some_ne_none page (hpage.symm.trans hnone.2), hpage]
    rfl
  refine ⟨fun w hw hnone => ?_, fun w hw => ?_⟩
  · by_cases hv : w = v
    · subst hv
      obtain ⟨page', hpage', heq⟩ := Option.map_eq_some_iff.mp hself
      exact ⟨page', hpage', (congrArg Prod.snd heq).trans (hlazy hnone)⟩
    · exact hrest.allocated w (((hT w).mp hw).resolve_left hv) ((h.view w hv).trans hnone)
  · by_cases hv : w = v
    · subst hv
      cases hold : s.view w with
      | none => exact absurd ⟨(hT w).mpr (Or.inl rfl), hold⟩ hw
      | some old =>
          obtain ⟨hframe, hflags⟩ := hsame old hold
          rw [hself, hframe, hflags]
          rfl
    · rw [hrest.others w fun htouched => hw ⟨(hT w).mpr (Or.inr htouched.1), (h.view w hv).symm.trans htouched.2⟩,
        h.view w hv]

section Touched

variable {R R' : Nat → Prop} {va n len : Nat} (hn : n = min (pgsize - va % pgsize) len)
include hn

theorem touched_iff (hpos : 0 < n) (hfirst : R 0) (hlen : ∀ i, R i → i < len) (hlen' : ∀ i, R' i → i < len - n)
    (hiff : ∀ i, n ≤ i → i < len → (R' (i - n) ↔ R i)) (w : Nat) :
    touched R va w ↔ w = va / pgsize ∨ touched R' (va / pgsize * pgsize + pgsize) w := by
  unfold touched
  constructor
  · rintro ⟨i, hi, rfl⟩
    by_cases hlt : i < n
    · exact Or.inl (div_of_lt hn hlt).1
    · have hlow := Nat.not_lt.mp hlt
      refine Or.inr ⟨i - n, (hiff i hlow (hlen i hi)).mpr hi, ?_⟩
      rw [← add_of_le hn hlow (hlen i hi)]
  · rintro (rfl | ⟨i, hi, rfl⟩)
    · exact ⟨0, hfirst, (div_of_lt hn hpos).1⟩
    · have hhigh : n + i < len := by
        have hlt := hlen' i hi
        omega
      refine ⟨n + i, (hiff (n + i) (Nat.le_add_right n i) hhigh).mp ?_, ?_⟩
      · rwa [Nat.add_sub_cancel_left]
      · rw [add_of_le hn (Nat.le_add_right n i) hhigh, Nat.add_sub_cancel_left]

end Touched

section Leaves

variable {s s' : Start} {words : Index → Word} {a va n len : Nat} {view' : View Index Word Flags}

theorem Start.Leaves.byte_of_ne (h : s.Leaves s' (va / pgsize) words) (ha : a / pgsize ≠ va / pgsize) :
    byte s'.view a = byte s.view a := by
  unfold byte Riscv64.contents
  rw [h.view _ ha]

theorem Start.Leaves.byte_eq (h : s.Leaves s' (va / pgsize) words) (ha : a / pgsize = va / pgsize) :
    byte s'.view a = byteAt words (a % pgsize) := by
  rw [byte, ha, h.contents]

theorem Start.Leaves.byte_same (h : s.Leaves s' (va / pgsize) (Riscv64.contents s.view (va / pgsize))) (a : Nat) :
    byte s'.view a = byte s.view a := by
  by_cases ha : a / pgsize = va / pgsize
  · rw [h.byte_eq ha, byte, ha]
  · exact h.byte_of_ne ha

theorem getElem_loadBytes (hn : n = min (pgsize - va % pgsize) len) {i : Nat}
    (hi : i < (loadBytes (contents s.view (va / pgsize)) (va % pgsize) n).length) :
    (loadBytes (contents s.view (va / pgsize)) (va % pgsize) n)[i] = byte s.view (va + i) := by
  have hlt : i < n := by
    rwa [loadBytes_eq_map, List.length_map, List.length_range] at hi
  obtain ⟨hdiv, hmod⟩ := div_of_lt hn hlt
  rw [byte, hdiv, hmod]
  simp only [loadBytes_eq_map, List.getElem_map, List.getElem_range]

theorem length_loadBytes (words : Index → Word) (off n : Nat) : (loadBytes words off n).length = n := by
  rw [loadBytes_eq_map, List.length_map, List.length_range]

variable (hn : n = min (pgsize - va % pgsize) len) (husable : s.Usable (va / pgsize) (va / pgsize))
include hn husable

theorem Start.Step.touched_iff (h : s.Step s' (va / pgsize)) (hpos : 0 < n) (w : Nat) :
    touched (fun i => i < len ∧ s.Reaches va i) va w ↔ w = va / pgsize ∨
      touched (fun i => i < len - n ∧ s'.Reaches (va / pgsize * pgsize + pgsize) i)
        (va / pgsize * pgsize + pgsize) w := by
  apply Riscv64.touched_iff hn hpos
  · exact ⟨by omega, reaches_of_lt hn husable hpos⟩
  · exact fun i hi => hi.1
  · exact fun i hi => hi.1
  · intro i hlow hhigh
    rw [h.reaches_iff hn husable hlow hhigh]
    exact and_congr_left fun _ => iff_of_true (by omega) hhigh

theorem CopiedIn.step {result : Int × List UInt8} (hpos : 0 < n)
    (h : s.Leaves s' (va / pgsize) (contents s.view (va / pgsize)))
    (hrest : CopiedIn s' (va / pgsize * pgsize + pgsize) (len - n) result view') :
    CopiedIn s va len
      (result.1, loadBytes (contents s.view (va / pgsize)) (va % pgsize) n ++ result.2) view' := by
  have hfirst := length_loadBytes (contents s.view (va / pgsize)) (va % pgsize) n
  refine ⟨h.status hn husable hrest.status, fun i => ?_, fun i hi => ?_, fun a => ?_, ?_⟩
  · rw [List.length_append, hfirst]
    by_cases hlt : i < n
    · exact iff_of_true (by omega) ⟨by omega, reaches_of_lt hn husable hlt⟩
    · have hlow := Nat.not_lt.mp hlt
      have hiff := hrest.length (i - n)
      constructor
      · intro hi
        obtain ⟨hi', hreach⟩ := hiff.mp (by omega)
        exact ⟨by omega, (h.reaches_iff hn husable hlow (by omega)).mp hreach⟩
      · rintro ⟨hi, hreach⟩
        have hrest' := hiff.mpr ⟨by omega, (h.reaches_iff hn husable hlow hi).mpr hreach⟩
        omega
  · by_cases hlt : i < n
    · rw [List.getElem_append_left (by omega)]
      exact getElem_loadBytes hn _
    · have hlow := Nat.not_lt.mp hlt
      have hlt' : i - n < result.2.length := by
        rw [List.length_append, hfirst] at hi
        omega
      have hlen := ((hrest.length (i - n)).mp hlt').1
      rw [List.getElem_append_right (by omega), add_of_le hn hlow (by omega), ← h.byte_same]
      simp only [hfirst]
      exact hrest.loaded (i - n) hlt'
  · rw [hrest.kept, h.byte_same]
  · exact hrest.pages.step h (h.touched_iff hn husable hpos)

theorem CopiedOut.step {src : List UInt8} {result : Int} (hlen : len = src.length) (hpos : 0 < n)
    (h : s.Leaves s' (va / pgsize)
      (storeBytes (contents s.view (va / pgsize)) (va % pgsize) (src.take n)))
    (hrest : CopiedOut s' (va / pgsize * pgsize + pgsize) (src.drop n) result view') :
    CopiedOut s va src result view' := by
  obtain ⟨hstatus, hstored, hkept, hpages⟩ := hrest
  simp only [List.length_drop, ← hlen] at hstatus hstored hkept hpages
  have htake : (src.take n).length = n := by
    rw [List.length_take]
    omega
  have hfit : va % pgsize + (src.take n).length ≤ 4096 := by
    unfold pgsize at *
    omega
  have hoff : ∀ a, a % pgsize < 4096 := fun a => Nat.mod_lt a (Nat.succ_pos 4095)
  refine ⟨hlen ▸ h.status hn husable hstatus, fun i hi hreach => ?_, fun a hnot => ?_, ?_⟩
  · by_cases hlt : i < n
    · obtain ⟨hdiv, hmod⟩ := div_of_lt hn hlt
      rw [hkept (va + i) fun j _ _ heq => ?_, h.byte_eq hdiv, byteAt_storeBytes hfit (hoff _), htake, hmod,
        if_pos (by omega), Nat.add_sub_cancel_left, List.getD_eq_getElem _ _ (by omega), List.getElem_take]
      have hpage := congrArg (· / pgsize) heq
      rw [hdiv, next_add_div] at hpage
      generalize j / pgsize = k at hpage
      omega
    · have hlow := Nat.not_lt.mp hlt
      have hbyte := hstored (i - n) (by omega) ((h.reaches_iff hn husable hlow (by omega)).mpr hreach)
      rw [add_of_le hn hlow (by omega), hbyte, List.getElem_drop]
      simp only [Nat.add_sub_of_le hlow]
  · rw [hkept a fun j hj hreach heq => ?_]
    · by_cases ha : a / pgsize = va / pgsize
      · rw [h.byte_eq ha, byteAt_storeBytes hfit (hoff a), htake, if_neg, byte, ha]
        intro hin
        have hlt : a % pgsize - va % pgsize < n := by omega
        refine hnot _ (by omega) (reaches_of_lt hn husable hlt) ?_
        unfold pgsize at *
        omega
      · exact h.byte_of_ne ha
    · have hadd := add_of_le hn (Nat.le_add_right n j) (by omega)
      rw [Nat.add_sub_cancel_left] at hadd
      refine hnot (n + j) (by omega) ((h.reaches_iff hn husable (Nat.le_add_right n j) (by omega)).mp ?_) ?_
      · rwa [Nat.add_sub_cancel_left]
      · rw [heq, hadd]
  · rw [← hlen]
    exact hpages.step h (h.touched_iff hn husable hpos)

theorem CopiedString.step {result : Int × List UInt8} (hpos : 0 < n)
    (h : s.Leaves s' (va / pgsize) (contents s.view (va / pgsize)))
    (hnull : ∀ i < n, byte s.view (va + i) ≠ 0)
    (hrest : CopiedString s' (va / pgsize * pgsize + pgsize) (len - n) result view') :
    CopiedString s va len
      (result.1, loadBytes (contents s.view (va / pgsize)) (va % pgsize) n ++ result.2) view' := by
  have hfirst := length_loadBytes (contents s.view (va / pgsize)) (va % pgsize) n
  have hbyte : ∀ i, n ≤ i → i < len →
      byte s'.view (va / pgsize * pgsize + pgsize + (i - n)) = byte s.view (va + i) := by
    intro i hlow hhigh
    rw [h.byte_same, add_of_le hn hlow hhigh]
  have hgoes : ∀ i, n ≤ i → i < len →
      (s'.Goes (va / pgsize * pgsize + pgsize) (i - n) ↔ s.Goes va i) := by
    intro i hlow hhigh
    unfold Start.Goes
    rw [h.reaches_iff hn husable hlow hhigh]
    refine and_congr_right fun _ => ⟨fun hall j hj => ?_, fun hall j hj => ?_⟩
    · by_cases hlt : j < n
      · exact hnull j hlt
      · rw [← hbyte j (Nat.not_lt.mp hlt) (by omega)]
        exact hall (j - n) (by omega)
    · have hnext := hall (n + j) (by omega)
      rwa [← hbyte (n + j) (Nat.le_add_right n j) (by omega), Nat.add_sub_cancel_left] at hnext
  have hfound : (∃ i < len, s.Reaches va i ∧ byte s.view (va + i) = 0) ↔
      ∃ i < len - n, s'.Reaches (va / pgsize * pgsize + pgsize) i ∧
        byte s'.view (va / pgsize * pgsize + pgsize + i) = 0 := by
    constructor
    · rintro ⟨i, hi, hreach, hzero⟩
      have hlow : n ≤ i := Nat.not_lt.mp fun hlt => hnull i hlt hzero
      refine ⟨i - n, by omega, (h.reaches_iff hn husable hlow hi).mpr hreach, ?_⟩
      rw [hbyte i hlow hi, hzero]
    · rintro ⟨i, hi, hreach, hzero⟩
      have hbyte' := hbyte (n + i) (Nat.le_add_right n i) (by omega)
      rw [Nat.add_sub_cancel_left, hzero] at hbyte'
      refine ⟨n + i, by omega, (h.reaches_iff hn husable (Nat.le_add_right n i) (by omega)).mp ?_, hbyte'.symm⟩
      rwa [Nat.add_sub_cancel_left]
  have hwritten : written (result.1, loadBytes (contents s.view (va / pgsize)) (va % pgsize) n ++ result.2) =
      loadBytes (contents s.view (va / pgsize)) (va % pgsize) n ++ written result := by
    unfold written
    by_cases hresult : result.1 = 0
    · rw [if_pos hresult, if_pos hresult, List.append_assoc]
    · rw [if_neg hresult, if_neg hresult]
  refine ⟨?_, fun i => ?_, fun i hi => ?_, fun a => ?_, ?_⟩
  · rw [hfound]
    exact hrest.status
  · rw [hwritten, List.length_append, hfirst]
    by_cases hlt : i < n
    · exact iff_of_true (by omega)
        ⟨by omega, reaches_of_lt hn husable hlt, fun j hj => hnull j (Nat.lt_trans hj hlt)⟩
    · have hlow := Nat.not_lt.mp hlt
      have hiff := hrest.length (i - n)
      constructor
      · intro hi
        obtain ⟨hi', hgo⟩ := hiff.mp (by omega)
        exact ⟨by omega, (hgoes i hlow (by omega)).mp hgo⟩
      · rintro ⟨hi, hgo⟩
        have hrest' := hiff.mpr ⟨by omega, (hgoes i hlow hi).mpr hgo⟩
        omega
  · simp only [hwritten] at hi ⊢
    by_cases hlt : i < n
    · rw [List.getElem_append_left (by omega)]
      exact getElem_loadBytes hn _
    · have hlow := Nat.not_lt.mp hlt
      have hlt' : i - n < (written result).length := by
        rw [List.length_append, hfirst] at hi
        omega
      have hlen := ((hrest.length (i - n)).mp hlt').1
      rw [List.getElem_append_right (by omega), ← hbyte i hlow (by omega)]
      simp only [hfirst]
      exact hrest.loaded (i - n) hlt'
  · rw [hrest.kept, h.byte_same]
  · refine hrest.pages.step h (Riscv64.touched_iff hn hpos ?_ (fun i hi => hi.1) (fun i hi => hi.1) ?_)
    · exact ⟨by omega, reaches_of_lt hn husable hpos, fun j hj => absurd hj (Nat.not_lt_zero j)⟩
    · intro i hlow hhigh
      rw [hgoes i hlow hhigh]
      exact and_congr_left fun _ => iff_of_true (by omega) hhigh

theorem CopiedString.null {k : Nat} (hk : k < n)
    (h : s.Leaves s' (va / pgsize) (contents s.view (va / pgsize)))
    (hnull : byte s.view (va + k) = 0) (hbefore : ∀ i < k, byte s.view (va + i) ≠ 0) :
    CopiedString s va len
      (0, (loadBytes (contents s.view (va / pgsize)) (va % pgsize) n).take k) s'.view := by
  have hfirst := length_loadBytes (contents s.view (va / pgsize)) (va % pgsize) n
  have htake : ((loadBytes (contents s.view (va / pgsize)) (va % pgsize) n).take k).length = k := by
    rw [List.length_take, hfirst]
    omega
  have hwritten : written (0, (loadBytes (contents s.view (va / pgsize)) (va % pgsize) n).take k) =
      (loadBytes (contents s.view (va / pgsize)) (va % pgsize) n).take k ++ [0] := if_pos rfl
  have hle : ∀ {i}, s.Goes va i → i ≤ k := fun hgo => Nat.not_lt.mp fun hlt => hgo.2 k hlt hnull
  refine ⟨Or.inl ⟨rfl, k, by omega, reaches_of_lt hn husable hk, hnull⟩, fun i => ?_, fun i hi => ?_,
    h.byte_same, ?_⟩
  · rw [hwritten, List.length_append, htake, List.length_singleton]
    constructor
    · intro hi
      exact ⟨by omega, reaches_of_lt hn husable (by omega), fun j hj => hbefore j (by omega)⟩
    · rintro ⟨-, hgo⟩
      exact Nat.lt_succ_of_le (hle hgo)
  · simp only [hwritten] at hi ⊢
    rw [List.length_append, htake, List.length_singleton] at hi
    by_cases hlt : i < k
    · rw [List.getElem_append_left (by omega), List.getElem_take]
      exact getElem_loadBytes hn _
    · obtain rfl : i = k := by omega
      rw [List.getElem_append_right (by omega), hnull]
      simp only [htake, Nat.sub_self, List.getElem_cons_zero]
  · have hnone : Faults (fun _ => False) s'.view s'.view := Faults.none fun _ => id
    refine hnone.step h fun w => ?_
    rw [or_false]
    constructor
    · rintro ⟨i, ⟨-, hgo⟩, rfl⟩
      exact (div_of_lt hn (Nat.lt_of_le_of_lt (hle hgo) hk)).1
    · rintro rfl
      exact ⟨0, ⟨by omega, reaches_of_lt hn husable (by omega), fun j hj => absurd hj (Nat.not_lt_zero j)⟩,
        (div_of_lt hn (by omega)).1⟩

end Leaves

/-! ### Strings -/

theorem untilNull_of_false {bytes : List UInt8} (h : (untilNull bytes).2 = false) :
    (untilNull bytes).1 = bytes ∧ ∀ byte ∈ bytes, byte ≠ 0 := by
  induction bytes with
  | nil => exact ⟨rfl, fun byte hbyte => absurd hbyte List.not_mem_nil⟩
  | cons byte bytes ih =>
      unfold untilNull at h ⊢
      by_cases hzero : byte = 0
      · rw [if_pos hzero] at h
        cases h
      · rw [if_neg hzero] at h ⊢
        obtain ⟨hsame, hall⟩ := ih h
        exact ⟨congrArg (byte :: ·) hsame, List.forall_mem_cons.mpr ⟨hzero, hall⟩⟩

theorem untilNull_of_true {bytes : List UInt8} (h : (untilNull bytes).2 = true) :
    ∃ k, ∃ hk : k < bytes.length, bytes[k] = 0 ∧ (untilNull bytes).1 = bytes.take k ∧
      ∀ j, (hj : j < k) → bytes[j] ≠ 0 := by
  induction bytes with
  | nil => cases h
  | cons byte bytes ih =>
      unfold untilNull at h ⊢
      by_cases hzero : byte = 0
      · rw [if_pos hzero]
        exact ⟨0, Nat.succ_pos _, hzero, rfl, fun j hj => absurd hj (Nat.not_lt_zero j)⟩
      · rw [if_neg hzero] at h ⊢
        obtain ⟨k, hk, hnull, hbytes, hbefore⟩ := ih h
        refine ⟨k + 1, Nat.succ_lt_succ hk, hnull, congrArg (byte :: ·) hbytes, fun j hj => ?_⟩
        cases j with
        | zero => exact hzero
        | succ j => exact hbefore j (Nat.lt_of_succ_lt_succ hj)

/-! The end of a copy. -/

section Ends

variable {s : Start} {va len : Nat}

theorem not_reaches (hnot : ¬s.Usable (va / pgsize) (va / pgsize)) (i : Nat) : ¬s.Reaches va i :=
  fun hreach => hnot (hreach 0 (Nat.zero_le i))

theorem status_fails (hpos : 0 < len) (hnot : ¬s.Usable (va / pgsize) (va / pgsize)) : Status s va len (-1) :=
  Or.inr ⟨rfl, 0, hpos, hnot⟩

theorem not_touched {R : Nat → Prop} (hnone : ∀ i, ¬R i) (v : Nat) : ¬touched R va v := by
  rintro ⟨i, hi, -⟩
  exact hnone i hi

theorem CopiedOut.nil : CopiedOut s va [] 0 s.view :=
  ⟨Or.inl ⟨rfl, fun i hi => absurd hi (Nat.not_lt_zero i)⟩, fun i hi => absurd hi (Nat.not_lt_zero i), fun _ _ => rfl,
    Faults.none (not_touched fun i hi => Nat.not_lt_zero i hi.1)⟩

theorem CopiedOut.fails {src : List UInt8} (hpos : 0 < src.length)
    (hnot : ¬s.Usable (va / pgsize) (va / pgsize)) : CopiedOut s va src (-1) s.view :=
  ⟨status_fails hpos hnot, fun i _ hreach => absurd hreach (not_reaches hnot i), fun _ _ => rfl,
    Faults.none (not_touched fun i hi => not_reaches hnot i hi.2)⟩

theorem CopiedIn.nil : CopiedIn s va 0 (0, []) s.view :=
  ⟨Or.inl ⟨rfl, fun i hi => absurd hi (Nat.not_lt_zero i)⟩,
    fun i => iff_of_false (Nat.not_lt_zero i) fun hi => Nat.not_lt_zero i hi.1,
    fun i hi => absurd hi (Nat.not_lt_zero i), fun _ => rfl,
    Faults.none (not_touched fun i hi => Nat.not_lt_zero i hi.1)⟩

theorem CopiedIn.fails (hpos : 0 < len) (hnot : ¬s.Usable (va / pgsize) (va / pgsize)) :
    CopiedIn s va len (-1, []) s.view :=
  ⟨status_fails hpos hnot, fun i => iff_of_false (Nat.not_lt_zero i) fun hi => not_reaches hnot i hi.2,
    fun i hi => absurd hi (Nat.not_lt_zero i), fun _ => rfl,
    Faults.none (not_touched fun i hi => not_reaches hnot i hi.2)⟩

theorem CopiedString.fails (hnone : ∀ i, ¬(i < len ∧ s.Reaches va i)) : CopiedString s va len (-1, []) s.view := by
  refine ⟨Or.inr ⟨rfl, ?_⟩, fun i => ?_, fun i hi => absurd hi (Nat.not_lt_zero i), fun _ => rfl,
    Faults.none (not_touched fun i hi => hnone i ⟨hi.1, hi.2.1⟩)⟩
  · rintro ⟨i, hi, hreach, -⟩
    exact hnone i ⟨hi, hreach⟩
  · exact iff_of_false (Nat.not_lt_zero i) fun hi => hnone i ⟨hi.1, hi.2.1⟩

end Ends

end Xv6.Vm.Riscv64
