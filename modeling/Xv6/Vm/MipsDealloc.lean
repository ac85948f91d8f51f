import Mathlib.Algebra.BigOperators.Group.Finset.Basic
import Mathlib.Algebra.Order.Group.Multiset
import Xv6.Vm.MipsPages

/-!
# Shrinking on MIPS

`deallocuvm` clears a whole entry for each page that it frees, and so unmaps the other page of the pair
without freeing it. `Freed` says what a run of its loop does.
-/

namespace Xv6.Vm.Mips

attribute [local instance] neZero_directory neZero_table

namespace Pgdir

variable (d : Pgdir)

/-- The walk from page `lo` finds no table there, goes 1024 pages further each time that it finds none, and
so lands behind page `v` in the first table that there is. -/
def Passed (d : Pgdir) (lo v : Nat) : Prop :=
  lo / 1024 < v / 1024 ∧ v % 1024 < lo % 1024 ∧
    ∀ t, lo / 1024 ≤ t → t < v / 1024 → d.entry (Fin.ofNat 1024 t) = none

/-! ### The pages that the walk passes -/

theorem not_passed {lo : Nat} (h : d.table lo ≠ none) (v : Nat) : ¬ d.Passed lo v := by
  rintro ⟨hdir, -, hnone⟩
  exact h (hnone _ (Nat.le_refl _) hdir)

theorem not_passed_succ {lo : Nat} (h : d.table lo ≠ none) (v : Nat) : ¬ d.Passed (lo + 1) v := by
  rintro ⟨hdir, hmod, hnone⟩
  have hsame : (lo + 1) / 1024 = lo / 1024 := by omega
  rw [hsame] at hdir hnone
  exact h (hnone _ (Nat.le_refl _) hdir)

theorem passed_skip {lo v : Nat} (hlo : d.table lo = none) (hv : d.table v ≠ none) (hle : lo ≤ v) :
    d.Passed lo v ↔ v < lo + 1024 ∨ d.Passed (lo + 1024) v := by
  have hdiff : lo / 1024 ≠ v / 1024 := by
    intro heq
    rw [table, ← heq] at hv
    exact hv hlo
  have hmod : (lo + 1024) % 1024 = lo % 1024 := Nat.add_mod_right lo 1024
  have hdiv : (lo + 1024) / 1024 = lo / 1024 + 1 := by omega
  unfold Passed
  rw [hmod, hdiv]
  constructor
  · rintro ⟨hdir, hbehind, hnone⟩
    by_cases hnext : v < lo + 1024
    · exact Or.inl hnext
    · exact Or.inr ⟨by omega, hbehind, fun t hle hlt => hnone t (by omega) hlt⟩
  · rintro (hnext | ⟨hdir, hbehind, hnone⟩)
    · refine ⟨by omega, by omega, ?_⟩
      intro t hfrom hto
      have ht : t = lo / 1024 := by omega
      rw [ht]
      exact hlo
    · refine ⟨by omega, hbehind, ?_⟩
      intro t hfrom hto
      by_cases ht : t = lo / 1024
      · rw [ht]
        exact hlo
      · exact hnone t (by omega) hto

theorem passed_congr {d d' : Pgdir} (h : ∀ i, d'.entry i = none ↔ d.entry i = none) {lo v : Nat} :
    d'.Passed lo v ↔ d.Passed lo v := by
  unfold Passed
  simp only [h]

end Pgdir

/-! ### What the loop frees -/

/-- The loop of `deallocuvm` from `s` to `s'` frees the pages `F` of `[lo, hi)`: never two of a pair. -/
structure Freed (ram : Ram) (s s' : State) (lo hi : Nat) (F : Finset Nat) : Prop where
  mem : ∀ v ∈ F, lo ≤ v ∧ v < hi
  valid : ∀ v ∈ F, Valid (s.pgdir.half v)
  ram : ∀ v ∈ F, ram.Has (frame (s.pgdir.half v))
  visited : ∀ v ∈ F, ¬ s.pgdir.Passed lo v
  single : ∀ v ∈ F, partner v ∉ F
  free : (s'.free : Multiset Nat) = s.free + F.val.map fun v => frame (s.pgdir.half v)
  half : ∀ v < 1048576, s'.pgdir.half v = if v ∈ F ∨ partner v ∈ F then 0 else s.pgdir.half v
  rest : ∀ v, lo ≤ v → v < hi → Valid (s.pgdir.half v) → v ∈ F ∨ partner v ∈ F ∨ s.pgdir.Passed lo v
  page : s'.pgdir.page = s.pgdir.page
  entry : ∀ i, (s'.pgdir.entry i).map (fun t => (t.page, t.asid)) = (s.pgdir.entry i).map fun t => (t.page, t.asid)

theorem not_valid_zero : ¬ Valid 0 := fun h => h rfl

theorem Pgdir.table_of_valid {d : Pgdir} {v : Nat} (h : Valid (d.half v)) : d.table v ≠ none := by
  intro hnone
  rw [d.half_of_absent hnone] at h
  exact not_valid_zero h

theorem Freed.nothing (ram : Ram) (s : State) {lo hi : Nat}
    (h : ∀ v, lo ≤ v → v < hi → Valid (s.pgdir.half v) → s.pgdir.Passed lo v) : Freed ram s s lo hi ∅ where
  mem := by simp
  valid := by simp
  ram := by simp
  visited := by simp
  single := by simp
  free := by simp
  half := by simp
  rest v hlo hhi hv := Or.inr (Or.inr (h v hlo hhi hv))
  page := rfl
  entry _ := rfl

theorem Freed.skip {ram : Ram} {s s' : State} {lo hi : Nat} {F : Finset Nat} (hlo : s.pgdir.table lo = none)
    (h : Freed ram s s' (lo + 1024) hi F) : Freed ram s s' lo hi F where
  mem v hv := ⟨by have := (h.mem v hv).1; omega, (h.mem v hv).2⟩
  valid := h.valid
  ram := h.ram
  visited v hv := by
    have hle := (h.mem v hv).1
    rw [s.pgdir.passed_skip hlo (Pgdir.table_of_valid (h.valid v hv)) (by omega)]
    rintro (hlt | hpassed)
    · omega
    · exact h.visited v hv hpassed
  single := h.single
  free := h.free
  half := h.half
  rest v hle hhi hv := by
    rw [s.pgdir.passed_skip hlo (Pgdir.table_of_valid hv) hle]
    by_cases hnext : v < lo + 1024
    · exact Or.inr (Or.inr (Or.inl hnext))
    · obtain hF | hF | hpassed := h.rest v (by omega) hhi hv
      · exact Or.inl hF
      · exact Or.inr (Or.inl hF)
      · exact Or.inr (Or.inr (Or.inr hpassed))
  page := h.page
  entry := h.entry

theorem Freed.next {ram : Ram} {s s' : State} {lo hi : Nat} {F : Finset Nat} (hlo : s.pgdir.table lo ≠ none)
    (hvalid : ¬ Valid (s.pgdir.half lo)) (h : Freed ram s s' (lo + 1) hi F) : Freed ram s s' lo hi F where
  mem v hv := ⟨by have := (h.mem v hv).1; omega, (h.mem v hv).2⟩
  valid := h.valid
  ram := h.ram
  visited v _ := s.pgdir.not_passed hlo v
  single := h.single
  free := h.free
  half := h.half
  rest v hle hhi hv := by
    have hne : v ≠ lo := by
      rintro rfl
      exact hvalid hv
    obtain hF | hF | hpassed := h.rest v (by omega) hhi hv
    · exact Or.inl hF
    · exact Or.inr (Or.inl hF)
    · exact absurd hpassed (s.pgdir.not_passed_succ hlo v)
  page := h.page
  entry := h.entry

theorem Freed.cons {ram : Ram} {s s' : State} {lo hi : Nat} {F : Finset Nat} (hhi : hi ≤ 1048576) (hlt : lo < hi)
    (hvalid : Valid (s.pgdir.half lo)) (hram : ram.Has (frame (s.pgdir.half lo)))
    (h : Freed ram ⟨frame (s.pgdir.half lo) :: s.free, s.pgdir.setPte (lo * pgsize) 0⟩ s' (lo + 1) hi F) :
    Freed ram s s' lo hi (insert lo F) := by
  obtain ⟨t, ht⟩ := Option.ne_none_iff_exists'.mp (Pgdir.table_of_valid hvalid)
  have hpresent : s.pgdir.table lo ≠ none := Pgdir.table_of_valid hvalid
  have hcleared : ∀ v < 1048576, (s.pgdir.setPte (lo * pgsize) 0).half v =
      if v / 2 = lo / 2 then 0 else s.pgdir.half v := by
    intro v hv
    rw [s.pgdir.half_setPte (by omega) hv ht, pteElo_zero]
  have hpair : ∀ v ∈ F, v / 2 ≠ lo / 2 := by
    intro v hv heq
    have hv' := h.valid v hv
    have hin := h.mem v hv
    dsimp only at hv'
    rw [hcleared v (by omega), if_pos heq] at hv'
    exact not_valid_zero hv'
  have hhalf : ∀ v ∈ F, (s.pgdir.setPte (lo * pgsize) 0).half v = s.pgdir.half v := by
    intro v hv
    have hin := h.mem v hv
    rw [hcleared v (by omega), if_neg (hpair v hv)]
  have hnew : lo ∉ F := fun hmem => hpair lo hmem rfl
  have hpartner : partner lo ∉ F := fun hmem => hpair _ hmem (partner_div lo)
  constructor
  case mem =>
    intro v hv
    obtain rfl | hv := Finset.mem_insert.mp hv
    · exact ⟨Nat.le_refl _, hlt⟩
    · have hin := h.mem v hv
      omega
  case valid =>
    intro v hv
    obtain rfl | hv := Finset.mem_insert.mp hv
    · exact hvalid
    · have hv' := h.valid v hv
      rwa [hhalf v hv] at hv'
  case ram =>
    intro v hv
    obtain rfl | hv := Finset.mem_insert.mp hv
    · exact hram
    · have hv' := h.ram v hv
      rwa [hhalf v hv] at hv'
  case visited => exact fun v _ => s.pgdir.not_passed hpresent v
  case single =>
    intro v hv hmem
    obtain rfl | hv := Finset.mem_insert.mp hv
    · obtain heq | hmem := Finset.mem_insert.mp hmem
      · exact partner_ne v heq
      · exact hpartner hmem
    · obtain heq | hmem := Finset.mem_insert.mp hmem
      · exact hpair v hv (by rw [← heq, partner_div])
      · exact h.single v hv hmem
  case free =>
    have hmap : (F.val.map fun v => frame ((s.pgdir.setPte (lo * pgsize) 0).half v)) =
        F.val.map fun v => frame (s.pgdir.half v) :=
      Multiset.map_congr rfl fun v hv => by rw [hhalf v hv]
    rw [h.free, hmap, Finset.insert_val_of_notMem hnew, Multiset.map_cons, ← Multiset.cons_coe,
      Multiset.cons_add, Multiset.add_cons]
  case half =>
    intro v hv
    rw [h.half v hv, hcleared v hv]
    simp only [Finset.mem_insert]
    have hpair' : v / 2 = lo / 2 ↔ v = lo ∨ partner v = lo := by
      rw [div_two_eq_iff]
      constructor
      · rintro (heq | heq)
        · exact Or.inl heq
        · exact Or.inr (by rw [heq, partner_partner])
      · rintro (heq | heq)
        · exact Or.inl heq
        · exact Or.inr (by rw [← heq, partner_partner])
    by_cases hF : v ∈ F ∨ partner v ∈ F
    · rw [if_pos hF, if_pos (by tauto)]
    · rw [if_neg hF]
      by_cases hlo : v / 2 = lo / 2
      · rw [if_pos hlo, if_pos (by rw [hpair'] at hlo; tauto)]
      · rw [if_neg hlo, if_neg (by rw [hpair'] at hlo; tauto)]
  case rest =>
    intro v hle hlt' hv
    rw [Finset.mem_insert, Finset.mem_insert]
    by_cases hlo : v / 2 = lo / 2
    · obtain heq | heq := div_two_eq_iff.mp hlo
      · exact Or.inl (Or.inl heq)
      · exact Or.inr (Or.inl (Or.inl (by rw [heq, partner_partner])))
    · have hne : v ≠ lo := by
        rintro rfl
        exact hlo rfl
      have hv' : Valid ((s.pgdir.setPte (lo * pgsize) 0).half v) := by
        rwa [hcleared v (by omega), if_neg hlo]
      obtain hF | hF | hpassed := h.rest v (by omega) hlt' hv'
      · exact Or.inl (Or.inr hF)
      · exact Or.inr (Or.inl (Or.inr hF))
      · have hsame := s.pgdir.setPte_entry (lo * pgsize) 0
        rw [Pgdir.passed_congr (Pgdir.table_eq_none_iff hsame)] at hpassed
        exact absurd hpassed (s.pgdir.not_passed_succ hpresent v)
  case page => exact h.page
  case entry =>
    intro i
    rw [h.entry]
    exact s.pgdir.setPte_entry (lo * pgsize) 0 i

section Code

variable {ram : Ram}

/-- The pages that are mapped in `[lo, hi)`. -/
def Pgdir.mapped (d : Pgdir) (lo hi : Nat) : Finset Nat := (Finset.Ico lo hi).filter fun v => Valid (d.half v)

theorem Pgdir.mem_mapped {d : Pgdir} {lo hi v : Nat} :
    v ∈ d.mapped lo hi ↔ (lo ≤ v ∧ v < hi) ∧ Valid (d.half v) := by
  rw [mapped, Finset.mem_filter, Finset.mem_Ico]

theorem Freed.subset {s s' : State} {lo hi : Nat} {F : Finset Nat} (h : Freed ram s s' lo hi F) :
    F ⊆ s.pgdir.mapped lo hi :=
  fun v hv => Pgdir.mem_mapped.mpr ⟨h.mem v hv, h.valid v hv⟩

end Code

end Xv6.Vm.Mips
