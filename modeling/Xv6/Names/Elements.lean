import Xv6.Fs.Directory
import Mathlib.Data.List.TakeWhile

/-!
# Path elements

`skipelem` of `arm64/fs.c`. A path is what is before the NUL, so the end of the list is where `*path` is 0.
-/

namespace Xv6.Names

open Fs (dirsiz)

abbrev Path := List UInt8

/-- `'/'`. -/
def slash : UInt8 := 47

def skipelem (path : Path) (name : Bytes) : Option (Path × Bytes) :=
  let path := path.dropWhile (· = slash)
  if path = [] then
    none
  else
    let s := path.takeWhile (· ≠ slash)
    let len := s.length
    let path := path.dropWhile (· ≠ slash)
    let name := if len ≥ dirsiz then name.store 0 (s.take dirsiz) else (name.store 0 s).store len [0]
    some (path.dropWhile (· = slash), name)

/-- The names that successive calls yield, unless they do not end. -/
def elements : (fuel : Nat) → Path → Bytes → Option (List Path)
  | 0, _, _ => none
  | fuel + 1, path, name =>
      match skipelem path name with
      | none => some []
      | some (path, name) => (elements fuel path name).map (charsOf name dirsiz :: ·)

def components (path : Path) : List Path := (path.splitOnP (· = slash)).filter (· ≠ [])

section Components

variable {path rest : Path}

theorem components_slash : components (slash :: rest) = components rest := by
  rw [components, List.splitOnP_cons_eq_if_modifyHead, if_pos (by simp)]
  rfl

theorem components_dropWhile (path : Path) : components (path.dropWhile (· = slash)) = components path := by
  induction path with
  | nil => rfl
  | cons c rest ih =>
      by_cases hc : c = slash
      · rw [List.dropWhile_cons_of_pos (by simpa using hc), ih, hc, components_slash]
      · rw [List.dropWhile_cons_of_neg (by simpa using hc)]

theorem components_cons {c : UInt8} (hc : c ≠ slash) :
    components (c :: rest) = (c :: rest).takeWhile (· ≠ slash) ::
      components ((c :: rest).dropWhile (· ≠ slash)) := by
  have hsplit := (List.takeWhile_append_dropWhile (p := (· ≠ slash)) (l := c :: rest)).symm
  have hword : ∀ x ∈ (c :: rest).takeWhile (· ≠ slash), (decide (x = slash)) = false := by
    intro x hx
    simpa using List.mem_takeWhile_imp hx
  have hne : (c :: rest).takeWhile (· ≠ slash) ≠ [] := by
    rw [List.takeWhile_cons_of_pos (by simpa using hc)]
    exact List.cons_ne_nil _ _
  have hstop := List.head?_dropWhile_not (· ≠ slash) (c :: rest)
  generalize (c :: rest).takeWhile (· ≠ slash) = word at hsplit hword hne ⊢
  generalize (c :: rest).dropWhile (· ≠ slash) = tail at hsplit hstop ⊢
  rw [hsplit]
  cases tail with
  | nil =>
      rw [List.append_nil, components, List.splitOnP_eq_singleton hword, List.filter_cons_of_pos (by simpa using hne)]
      rfl
  | cons d tail =>
      have hd : d = slash := by simpa using hstop
      subst hd
      rw [components_slash, components, List.splitOnP_append_cons_of_forall_mem hword _ (by simp),
        List.filter_cons_of_pos (by simpa using hne)]
      rfl

end Components

/-! ### One step of the scanner -/

section Element

variable {path rest : Path} {name name' : Bytes}

theorem charsOf_store {word : Path} (hword : 0 ∉ word) (name : Bytes) :
    charsOf (if word.length ≥ dirsiz then name.store 0 (word.take dirsiz)
      else (name.store 0 word).store word.length [0]) dirsiz = word.take dirsiz := by
  have hmap : ∀ buffer : Bytes, (∀ i, i < word.length → i < dirsiz → buffer i = word.getD i 0) →
      (word.length < dirsiz → buffer word.length = 0) →
        charsOf buffer dirsiz = charsOf (cstring word) dirsiz := by
    intro buffer hsame hend
    rw [← strncmp_eq_zero_iff]
    exact strncmp_cstring hword hsame hend
  refine Eq.trans ?_ (charsOf_cstring hword dirsiz)
  split
  · next hlong =>
    refine hmap _ (fun i _ hi => ?_) fun hshort => absurd hlong (by omega)
    rw [Bytes.store, if_pos ⟨Nat.zero_le i, by simp; omega⟩, Nat.sub_zero]
    simp [List.getD_eq_getElem?_getD, hi]
  · next hshort =>
    refine hmap _ (fun i hi _ => ?_) fun _ => ?_
    · rw [Bytes.store_of_outside (Or.inl hi), Bytes.store, if_pos ⟨Nat.zero_le i, by omega⟩, Nat.sub_zero]
    · rw [Bytes.store, if_pos ⟨Nat.le_refl _, by simp⟩, Nat.sub_self]
      rfl

theorem skipelem_eq_none_iff : skipelem path name = none ↔ components path = [] := by
  rw [skipelem, ← components_dropWhile]
  have hstop := List.head?_dropWhile_not (· = slash) path
  generalize path.dropWhile (· = slash) = path' at hstop ⊢
  cases path' with
  | nil => exact iff_of_true rfl rfl
  | cons c rest =>
      have hc : c ≠ slash := by simpa using hstop
      rw [components_cons hc, if_neg (List.cons_ne_nil _ _)]
      exact iff_of_false (Option.some_ne_none _) (List.cons_ne_nil _ _)

theorem skipelem_rest (h : skipelem path name = some (rest, name')) : rest = [] ↔ components rest = [] := by
  have hstop : ∀ c ∈ rest.head?, c ≠ slash := by
    rw [skipelem] at h
    dsimp only at h
    split at h
    · cases h
    · cases h
      intro c hc
      have := List.head?_dropWhile_not (· = slash) ((path.dropWhile (· = slash)).dropWhile (· ≠ slash))
      rw [hc] at this
      simpa using this
  cases rest with
  | nil => exact iff_of_true rfl rfl
  | cons c rest =>
      rw [components_cons (hstop c rfl)]
      exact iff_of_false (List.cons_ne_nil _ _) (List.cons_ne_nil _ _)

theorem skipelem_some (hpath : 0 ∉ path) (h : skipelem path name = some (rest, name')) :
    ∃ word, components path = word :: components rest ∧ charsOf name' dirsiz = word.take dirsiz ∧
      rest.length < path.length ∧ 0 ∉ rest ∧ 0 ∉ word := by
  rw [skipelem] at h
  have hsub := List.dropWhile_suffix (l := path) (· = slash)
  rw [← components_dropWhile path]
  have hstop := List.head?_dropWhile_not (· = slash) path
  dsimp only at h
  generalize path.dropWhile (· = slash) = path' at h hsub hstop ⊢
  cases path' with
  | nil => cases h
  | cons c tail =>
      rw [if_neg (List.cons_ne_nil _ _)] at h
      cases h
      have hc : c ≠ slash := by simpa using hstop
      have hpath' : 0 ∉ c :: tail := fun hmem => hpath (hsub.subset hmem)
      have hword : 0 ∉ (c :: tail).takeWhile (· ≠ slash) :=
        fun hmem => hpath' ((List.takeWhile_prefix _).subset hmem)
      have hrest := (List.dropWhile_suffix (l := (c :: tail).dropWhile (· ≠ slash)) (· = slash)).trans
        (List.dropWhile_suffix (l := c :: tail) (· ≠ slash))
      refine ⟨_, ?_, charsOf_store hword name, ?_, fun hmem => hpath' (hrest.subset hmem), hword⟩
      · rw [components_dropWhile]
        exact components_cons hc
      · have hshort : ((c :: tail).dropWhile (· ≠ slash)).length < (c :: tail).length := by
          rw [List.dropWhile_cons_of_pos (by simpa using hc)]
          exact Nat.lt_succ_of_le (List.dropWhile_suffix _).length_le
        exact ((List.dropWhile_suffix _).length_le.trans_lt hshort).trans_le hsub.length_le

theorem elements_eq {fuel : Nat} (hfuel : path.length < fuel) (hpath : 0 ∉ path) :
    elements fuel path name = some ((components path).map (List.take dirsiz)) := by
  induction fuel generalizing path name with
  | zero => exact absurd hfuel (Nat.not_lt_zero _)
  | succ fuel ih =>
      rw [elements]
      cases hnext : skipelem path name with
      | none =>
          rw [skipelem_eq_none_iff.mp hnext]
          rfl
      | some next =>
          obtain ⟨word, hcomponents, hname, hlength, hrest, -⟩ := skipelem_some hpath hnext
          dsimp only
          rw [ih (by omega) hrest, hcomponents, hname]
          rfl

end Element

end Xv6.Names
