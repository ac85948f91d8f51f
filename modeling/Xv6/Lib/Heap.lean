import Xv6.Lib.Program

/-!
# Partial maps as ghost states, and the frame rule

A heap is a partial map: what a program owns. Where the rule of each operation is local, which means
that it says nothing about keys outside the heap it is given, a program verified from a heap can be
run from any larger one, and leaves the rest as it was.
-/

abbrev Heap (K V : Type) := K → Option V

namespace Heap

variable {K V : Type} {own other rest : Heap K V} {key : K}

def empty : Heap K V := fun _ => none

def union (own rest : Heap K V) : Heap K V := fun key => (own key).or (rest key)

def Disjoint (own rest : Heap K V) : Prop := ∀ key, own key = none ∨ rest key = none

def keys (own : Heap K V) : Set K := {key | own key ≠ none}

@[simp]
theorem union_apply : own.union rest key = (own key).or (rest key) := rfl

@[simp]
theorem empty_apply : (empty : Heap K V) key = none := rfl

@[simp]
theorem empty_union : empty.union rest = rest := by
  funext key
  simp

@[simp]
theorem union_empty : own.union empty = own := by
  funext key
  simp

theorem union_assoc : (own.union other).union rest = own.union (other.union rest) := by
  funext key
  simp [Option.or_assoc]

namespace Disjoint

theorem symm (h : own.Disjoint rest) : rest.Disjoint own := fun key => (h key).symm

theorem empty : (Heap.empty : Heap K V).Disjoint rest := fun _ => Or.inl rfl

theorem left_eq_none (h : own.Disjoint rest) {value : V} (hrest : rest key = some value) :
    own key = none := by
  obtain hown | hnone := h key
  · exact hown
  · rw [hnone] at hrest
    cases hrest

theorem right_eq_none (h : own.Disjoint rest) {value : V} (hown : own key = some value) :
    rest key = none := h.symm.left_eq_none hown

theorem union_comm (h : own.Disjoint rest) : own.union rest = rest.union own := by
  funext key
  obtain hnone | hnone := h key <;> simp [hnone]

theorem union_left (hown : own.Disjoint rest) (hother : other.Disjoint rest) :
    (own.union other).Disjoint rest := by
  intro key
  obtain hnone | hnone := hown key
  · obtain hnone' | hnone' := hother key
    · exact Or.inl (by simp [hnone, hnone'])
    · exact Or.inr hnone'
  · exact Or.inr hnone

theorem of_union_left (h : (own.union other).Disjoint rest) :
    own.Disjoint rest ∧ other.Disjoint rest := by
  refine ⟨fun key => ?_, fun key => ?_⟩
  · obtain hnone | hnone := h key
    · exact Or.inl (Option.or_eq_none_iff.mp hnone).1
    · exact Or.inr hnone
  · obtain hnone | hnone := h key
    · exact Or.inl (Option.or_eq_none_iff.mp hnone).2
    · exact Or.inr hnone

theorem assoc (h : own.Disjoint other) (hrest : (own.union other).Disjoint rest) :
    own.Disjoint (other.union rest) :=
  (h.symm.union_left hrest.of_union_left.1.symm).symm

theorem of_assoc (h : own.Disjoint (other.union rest)) (hother : other.Disjoint rest) :
    own.Disjoint other ∧ (own.union other).Disjoint rest := by
  obtain ⟨hfirst, hsecond⟩ := h.symm.of_union_left
  exact ⟨hfirst.symm, hsecond.symm.union_left hother⟩

theorem interchange {rest' : Heap K V} (hfirst : own.Disjoint other) (hsecond : rest.Disjoint rest')
    (h : (own.union other).Disjoint (rest.union rest')) :
    own.Disjoint rest ∧ other.Disjoint rest' ∧ (own.union rest).Disjoint (other.union rest') ∧
      (own.union other).union (rest.union rest') = (own.union rest).union (other.union rest') := by
  obtain ⟨hown, hother⟩ := h.of_union_left
  obtain ⟨hownRest, hownRest'⟩ := hown.symm.of_union_left
  obtain ⟨hotherRest, hotherRest'⟩ := hother.symm.of_union_left
  refine ⟨hownRest.symm, hotherRest'.symm, ?_, ?_⟩
  · exact (hfirst.symm.union_left hownRest').symm.union_left (hotherRest.symm.union_left hsecond.symm).symm
  · calc (own.union other).union (rest.union rest')
      _ = own.union ((other.union rest).union rest') := by rw [union_assoc, union_assoc]
      _ = own.union ((rest.union other).union rest') := by rw [hotherRest.union_comm]
      _ = (own.union rest).union (other.union rest') := by rw [union_assoc, union_assoc]

end Disjoint

theorem union_eq_some_left {value : V} (hown : own key = some value) :
    own.union rest key = some value := by
  simp [hown]

theorem union_eq_none : own.union rest key = none ↔ own key = none ∧ rest key = none :=
  Option.or_eq_none_iff

section Update

variable [DecidableEq K] {value : V}

def set (own : Heap K V) (key : K) (value : V) : Heap K V := Function.update own key (some value)

def erase (own : Heap K V) (key : K) : Heap K V := Function.update own key none

def single (key : K) (value : V) : Heap K V := empty.set key value

@[simp]
theorem set_self : own.set key value key = some value := Function.update_self ..

@[simp]
theorem set_of_ne {key' : K} (hne : key' ≠ key) : own.set key value key' = own key' :=
  Function.update_of_ne hne ..

@[simp]
theorem erase_self : own.erase key key = none := Function.update_self ..

@[simp]
theorem erase_of_ne {key' : K} (hne : key' ≠ key) : own.erase key key' = own key' :=
  Function.update_of_ne hne ..

@[simp]
theorem set_set {value' : V} : (own.set key value).set key value' = own.set key value' :=
  Function.update_idem ..

theorem erase_set (hnone : own key = none) : (own.set key value).erase key = own := by
  unfold set erase
  rw [Function.update_idem, ← hnone, Function.update_eq_self]

theorem set_union : (own.set key value).union rest = (own.union rest).set key value := by
  funext key'
  by_cases hkey : key' = key
  · subst hkey
    simp
  · simp [hkey]

theorem set_eq_union (hnone : own key = none) : own.set key value = own.union (single key value) := by
  funext key'
  by_cases hkey : key' = key
  · subst hkey
    simp [single, hnone]
  · simp [single, hkey]

theorem disjoint_single (hnone : own key = none) : own.Disjoint (single key value) := by
  intro key'
  by_cases hkey : key' = key
  · exact Or.inl (hkey ▸ hnone)
  · exact Or.inr (set_of_ne hkey)

theorem erase_union (hrest : rest key = none) :
    (own.erase key).union rest = (own.union rest).erase key := by
  funext key'
  by_cases hkey : key' = key
  · subst hkey
    simp [hrest]
  · simp [hkey]

theorem Disjoint.set (h : own.Disjoint rest) (hrest : rest key = none) :
    (own.set key value).Disjoint rest := by
  intro key'
  by_cases hkey : key' = key
  · subst hkey
    exact Or.inr hrest
  · rw [set_of_ne hkey]
    exact h key'

theorem Disjoint.erase (h : own.Disjoint rest) : (own.erase key).Disjoint rest := by
  intro key'
  by_cases hkey : key' = key
  · subst hkey
    exact Or.inl erase_self
  · rw [erase_of_ne hkey]
    exact h key'

end Update

section Only

open Classical in
/-- The part of a heap whose keys satisfy a predicate. -/
noncomputable def only (own : Heap K V) (keep : K → Prop) : Heap K V :=
  fun key => if keep key then own key else none

variable {keep keep' : K → Prop}

theorem only_of_pos (hkeep : keep key) : own.only keep key = own key := if_pos hkeep

theorem only_of_neg (hkeep : ¬keep key) : own.only keep key = none := if_neg hkeep

theorem only_congr (hiff : ∀ key, keep key ↔ keep' key) : own.only keep = own.only keep' :=
  congrArg own.only (funext fun key => propext (hiff key))

theorem only_or :
    own.only (fun key => keep key ∨ keep' key) = (own.only keep).union (own.only keep') := by
  funext key
  by_cases hkeep : keep key
  · by_cases hkeep' : keep' key <;> simp [only, hkeep, hkeep']
  · by_cases hkeep' : keep' key <;> simp [only, hkeep, hkeep']

theorem disjoint_only (hdisjoint : ∀ key, keep key → ¬keep' key) :
    (own.only keep).Disjoint (own.only keep') := by
  intro key
  by_cases hkeep : keep key
  · exact Or.inr (only_of_neg (hdisjoint key hkeep))
  · exact Or.inl (only_of_neg hkeep)

end Only

end Heap

def Rule.Local {S : Signature} {K V : Type} (rule : Rule S (Heap K V)) : Prop :=
  ∀ op own rest (post : S.Resp op → Heap K V → Prop), own.Disjoint rest → rule op own post →
    rule op (own.union rest) fun response heap =>
      ∃ own', heap = own'.union rest ∧ own'.Disjoint rest ∧ post response own'

namespace Program

variable {S : Signature} {K V α : Type} {rule : Rule S (Heap K V)}

theorem wp_frame (hmono : rule.Monotone) (hlocal : rule.Local) {program : Program S α}
    {own rest : Heap K V} {post : α → Heap K V → Prop} (hdisjoint : own.Disjoint rest)
    (h : program.wp rule own post) :
    program.wp rule (own.union rest) fun value heap =>
      ∃ own', heap = own'.union rest ∧ own'.Disjoint rest ∧ post value own' := by
  induction program generalizing own with
  | ret value => exact ⟨own, rfl, hdisjoint, h⟩
  | call op next ih =>
      refine hmono _ _ _ _ ?_ (hlocal op own rest _ hdisjoint h)
      rintro response _ ⟨own', rfl, hdisjoint', hnext⟩
      exact ih response hdisjoint' hnext

end Program
