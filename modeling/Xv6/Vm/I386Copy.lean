import Mathlib.Data.List.GetD
import Xv6.Vm.I386Space

/-!
# Copying to and from the user on i386

`arch_copyout` and `arch_copyin` go page by page. They do what they should exactly where every page that
they come to has a page table: where there is none they read an entry through a null pointer.
-/

namespace Xv6.Vm.I386

open ArmPi1 (Word Attr Index index pteAddr)

attribute [local instance] ArmPi1.neZero_index

variable {memory memory' : Memory Index Word} {root va v f k n : Nat} {src : List UInt8}

/-! ### What a page table says -/

def pdeAt (memory : Memory Index Word) (root v : Nat) : Word := memory.words root (index (pdx (v * pgsize)))

def hasTable (memory : Memory Index Word) (root v : Nat) : Bool := has (pdeAt memory root v) pteP

def pteAt (memory : Memory Index Word) (root v : Nat) : Word :=
  memory.words (pteAddr (pdeAt memory root v)) (index (ptx (v * pgsize)))

def userFrame (memory : Memory Index Word) (root v : Nat) : Option Nat :=
  if v < 1048576 ∧ hasTable memory root v = true ∧ has (pteAt memory root v) pteP = true ∧
      has (pteAt memory root v) pteU = true then
    some (pteAddr (pteAt memory root v))
  else none

def frameAt (memory : Memory Index Word) (root va : Nat) : Option Nat := userFrame memory root (va / pgsize)

structure Apart (memory : Memory Index Word) (root : Nat) : Prop where
  directory : ∀ {v f}, userFrame memory root v = some f → root ≠ f
  table : ∀ {v w f}, userFrame memory root v = some f → hasTable memory root w = true →
    pteAddr (pdeAt memory root w) ≠ f
  injective : ∀ {v w f}, userFrame memory root v = some f → userFrame memory root w = some f → v = w
  last : userFrame memory root 1048575 = none

theorem userFrame_eq_some (h : userFrame memory root v = some f) :
    v < 1048576 ∧ hasTable memory root v = true ∧ has (pteAt memory root v) pteP = true ∧
      has (pteAt memory root v) pteU = true ∧ pteAddr (pteAt memory root v) = f := by
  unfold userFrame at h
  by_cases hall : v < 1048576 ∧ hasTable memory root v = true ∧ has (pteAt memory root v) pteP = true ∧
      has (pteAt memory root v) pteU = true
  · rw [if_pos hall] at h
    exact ⟨hall.1, hall.2.1, hall.2.2.1, hall.2.2.2, Option.some.inj h⟩
  · rw [if_neg hall] at h
    cases h

namespace Built

variable {ram : Ram} {pool : Nat → Prop} {others : Nat → Index → Word} {sz : Nat} {own : Owned Index Word}
  {view : View Index Word Attr} {fixed : Nat → Word} {tree : arch.Tree}

theorem pdeAt_eq (hlayout : Layout arch ram (fun _ => False) fixed tree root own view)
    (howns : Owns ram pool others memory own) (v : Nat) :
    pdeAt memory root v = (tree.node (arch.upper v)).elim 0 arch.table := by
  have hwords : memory.words root = tree.entry [] :=
    howns.words (hlayout.holds.table hlayout.root (Nat.succ_pos 1))
  have hentry : tree.entry [] (index (pdx (v * pgsize))) = (tree.node (arch.upper v)).elim 0 arch.table :=
    entry_above (by decide) _
  rw [pdeAt, hwords, hentry]

theorem hasTable_iff (hlayout : Layout arch ram (fun _ => False) fixed tree root own view)
    (howns : Owns ram pool others memory own) :
    hasTable memory root v = true ↔
      ∃ t, tree.node (arch.upper v) = some t ∧ pteAddr (pdeAt memory root v) = t := by
  unfold hasTable
  rw [pdeAt_eq hlayout howns]
  cases hnode : tree.node (arch.upper v) with
  | none =>
      refine iff_of_false ?_ ?_
      · intro htrue
        rw [Option.elim_none, has_zero] at htrue
        cases htrue
      · rintro ⟨t, hsome, -⟩
        cases hsome
  | some t =>
      have hlt := (hlayout.ram_of_node hnode).lt
      exact iff_of_true (arch.isTable_table t hlt) ⟨t, rfl, arch.page_table t hlt⟩

theorem exists_page (h : Built ram root sz own view fixed)
    (hlayout : Layout arch ram (fun _ => False) fixed tree root own view)
    (howns : Owns ram pool others memory own) (hframe : userFrame memory root v = some f) :
    tree.node (arch.path v) = some f ∧ v < pages sz := by
  obtain ⟨hv, htable, hpresent, huser, haddr⟩ := userFrame_eq_some hframe
  obtain ⟨t, hnode, ht⟩ := (hasTable_iff hlayout howns).mp htable
  obtain ⟨hwords, hleaf⟩ := hlayout.slot hnode
  have hpte : pteAt memory root v = tree.leaf (arch.path v) := by
    rw [pteAt, ht, howns.words hwords]
    exact hleaf
  cases hview : view v with
  | none =>
      rw [hpte, hlayout.hole hv hview, h.kernel v] at huser
      cases huser
  | some page =>
      obtain ⟨hpath, -, hmaps⟩ := hlayout.page hview
      have hpage : pteAddr (tree.leaf (arch.path v)) = page.frame := hmaps.page
      refine ⟨?_, h.within v ?_⟩
      · rw [hpath, ← hpage, ← hpte, haddr]
      · rw [hview]
        exact Option.some_ne_none page

theorem apart (h : Built ram root sz own view fixed) (howns : Owns ram pool others memory own) :
    Apart memory root := by
  obtain ⟨tree, hlayout⟩ := h.space
  refine ⟨fun {v f} hframe heq => ?_, fun {v w f} hframe htable heq => ?_,
    fun {v w f} hframe hframe' => ?_, ?_⟩
  · obtain ⟨hpath, -⟩ := h.exists_page hlayout howns hframe
    rw [← heq] at hpath
    cases tree.injective hlayout.root hpath
  · obtain ⟨hpath, -⟩ := h.exists_page hlayout howns hframe
    obtain ⟨t, hnode, ht⟩ := (hasTable_iff hlayout howns).mp htable
    rw [← heq, ht] at hpath
    exact ne_upper w v (tree.injective hnode hpath)
  · obtain ⟨hpath, -⟩ := h.exists_page hlayout howns hframe
    obtain ⟨hpath', -⟩ := h.exists_page hlayout howns hframe'
    exact arch.injective (userFrame_eq_some hframe).1 (userFrame_eq_some hframe').1
      (tree.injective hpath hpath')
  · rw [Option.eq_none_iff_forall_ne_some]
    intro f hframe
    obtain ⟨-, hlt⟩ := h.exists_page hlayout howns hframe
    have hle := h.le
    unfold userPages at hle
    omega

end Built

/-! ### Stores -/

def setPage (memory : Memory Index Word) (f : Nat) (words : Index → Word) : Memory Index Word :=
  { memory with words := Function.update memory.words f words }

section SetPage

variable {words : Index → Word} (h : Apart memory root) (hframe : userFrame memory root v = some f)
include h hframe

theorem pdeAt_setPage (w : Nat) : pdeAt (setPage memory f words) root w = pdeAt memory root w := by
  have hroot : (setPage memory f words).words root = memory.words root :=
    Function.update_of_ne (h.directory hframe) ..
  unfold pdeAt
  rw [hroot]

theorem hasTable_setPage (w : Nat) : hasTable (setPage memory f words) root w = hasTable memory root w := by
  unfold hasTable
  rw [pdeAt_setPage h hframe]

theorem userFrame_setPage (w : Nat) :
    userFrame (setPage memory f words) root w = userFrame memory root w := by
  unfold userFrame
  rw [hasTable_setPage h hframe]
  by_cases htable : hasTable memory root w = true
  · have hpte : pteAt (setPage memory f words) root w = pteAt memory root w := by
      have hwords : (setPage memory f words).words (pteAddr (pdeAt memory root w)) =
          memory.words (pteAddr (pdeAt memory root w)) := Function.update_of_ne (h.table hframe htable) ..
      unfold pteAt
      rw [pdeAt_setPage h hframe, hwords]
    rw [hpte]
  · rw [if_neg fun hall => htable hall.2.1, if_neg fun hall => htable hall.2.1]

theorem Apart.setPage : Apart (setPage memory f words) root := by
  have hsame : ∀ w, userFrame (I386.setPage memory f words) root w = userFrame memory root w :=
    userFrame_setPage h hframe
  refine ⟨fun hframe' => ?_, fun hframe' htable => ?_, fun hframe' hframe'' => ?_, ?_⟩
  · rw [hsame] at hframe'
    exact h.directory hframe'
  · rw [hsame] at hframe'
    rw [hasTable_setPage h hframe] at htable
    rw [pdeAt_setPage h hframe]
    exact h.table hframe' htable
  · rw [hsame] at hframe' hframe''
    exact h.injective hframe' hframe''
  · rw [hsame]
    exact h.last

end SetPage

/-! ### Copies -/

/-- A copy that starts at `va` gets to the byte `i`: up to there, every page is for the user. -/
def Reaches (memory : Memory Index Word) (root va i : Nat) : Prop :=
  ∀ j ≤ i, frameAt memory root (va + j) ≠ none

/-- A copy of `len` bytes at `va` never comes to a page without a page table. -/
def Covered (memory : Memory Index Word) (root va len : Nat) : Prop :=
  ∀ i < len, (∀ j < i, frameAt memory root (va + j) ≠ none) →
    hasTable memory root ((va + i) / pgsize) = true

/-- How a copy of `len` bytes at `va` is to end. -/
def Status (memory : Memory Index Word) (root va len : Nat) (result : Int) : Prop :=
  (result = 0 ∧ ∀ i < len, frameAt memory root (va + i) ≠ none) ∨
    (result = -1 ∧ ∃ i < len, frameAt memory root (va + i) = none)

/-- What `arch_copyout` is to do: it stores the bytes that it gets to, each where the page table says,
and changes no other byte of memory. -/
structure CopiedOut (memory : Memory Index Word) (root va : Nat) (src : List UInt8) (result : Int)
    (memory' : Memory Index Word) : Prop where
  status : Status memory root va src.length result
  stored : ∀ i f, (hi : i < src.length) → Reaches memory root va i →
    frameAt memory root (va + i) = some f → WordBytes.byteAt 4 (memory'.words f) ((va + i) % pgsize) = src[i]
  kept : ∀ f k, k < pgsize → (∀ i < src.length, Reaches memory root va i →
      ¬(frameAt memory root (va + i) = some f ∧ (va + i) % pgsize = k)) →
    WordBytes.byteAt 4 (memory'.words f) k = WordBytes.byteAt 4 (memory.words f) k
  free : memory'.freelist = memory.freelist

/-- What `arch_copyin` is to do: it reads the bytes that it gets to, each where the page table says. -/
structure CopiedIn (memory : Memory Index Word) (root va len : Nat) (result : Int) (bytes : List UInt8)
    (memory' : Memory Index Word) : Prop where
  status : Status memory root va len result
  length : ∀ i, i < bytes.length ↔ i < len ∧ Reaches memory root va i
  loaded : ∀ i f, (hi : i < bytes.length) → frameAt memory root (va + i) = some f →
    bytes[i] = WordBytes.byteAt 4 (memory.words f) ((va + i) % pgsize)
  same : memory' = memory

section Exec

variable {ι : Type} {who : ι} {junk : Nat → Index → Word}

theorem walkpgdir_exec (root v : Nat) :
    (walkpgdir root (v * pgsize) false).exec (access junk) who memory =
      some (if hasTable memory root v = true then
        some (pteAddr (pdeAt memory root v), index (ptx (v * pgsize))) else none, memory) := by
  change ((if hasTable memory root v = true then
      pure (some (pteAddr (pdeAt memory root v), index (ptx (v * pgsize)))) else pure none :
    Code Index Word _).exec (access junk) who memory) = _
  by_cases htable : hasTable memory root v = true
  · rw [if_pos htable, if_pos htable]
    rfl
  · rw [if_neg htable, if_neg htable]
    rfl

theorem uva2ka_exec (hv : v < 1048576) :
    (uva2ka root (v * pgsize)).exec (access junk) who memory =
      if hasTable memory root v = true then some (userFrame memory root v, memory) else none := by
  rw [uva2ka, Program.exec_bind, walkpgdir_exec, Option.bind_some]
  by_cases htable : hasTable memory root v = true
  · dsimp only
    rw [if_pos htable, if_pos htable, Option.elim_some]
    change ((if has (pteAt memory root v) pteP = false then pure none
      else if has (pteAt memory root v) pteU = false then pure none
      else pure (some (pteAddr (pteAt memory root v))) : Code Index Word _).exec (access junk) who memory) = _
    unfold userFrame
    by_cases hpresent : has (pteAt memory root v) pteP = true
    · rw [if_neg (ne_false_of_eq_true hpresent)]
      by_cases huser : has (pteAt memory root v) pteU = true
      · rw [if_neg (ne_false_of_eq_true huser), if_pos ⟨hv, htable, hpresent, huser⟩]
        rfl
      · rw [if_pos (eq_false_of_ne_true huser), if_neg fun hall => huser hall.2.2.2]
        rfl
    · rw [if_pos (eq_false_of_ne_true hpresent), if_neg fun hall => hpresent hall.2.2.1]
      rfl
  · dsimp only
    rw [if_neg htable, if_neg htable]
    rfl

end Exec

/-! A round of a copy, with `n` bytes up to the end of the page or of the copy. -/

section Round

variable {len : Nat} (hn : n = min (pgsize - va % pgsize) len)
include hn

variable (hframe : userFrame memory root (va / pgsize) = some f)
include hframe

theorem frameAt_of_lt {i : Nat} (hi : i < n) : frameAt memory root (va + i) = some f := by
  rw [frameAt, (div_of_lt hn hi).1, hframe]

theorem reaches_of_lt {i : Nat} (hi : i < n) : Reaches memory root va i := by
  intro j hj
  rw [frameAt_of_lt hn hframe (Nat.lt_of_le_of_lt hj hi)]
  exact Option.some_ne_none f

theorem reaches_iff {i : Nat} (hlow : n ≤ i) (hhigh : i < len) :
    Reaches memory root va i ↔ Reaches memory root (va / pgsize * pgsize + pgsize) (i - n) := by
  refine ⟨fun h j hj => ?_, fun h j hj => ?_⟩
  · have hnext := h (n + j) (by omega)
    rwa [add_of_le hn (Nat.le_add_right n j) (by omega), Nat.add_sub_cancel_left] at hnext
  · by_cases hfirst : j < n
    · exact reaches_of_lt hn hframe hfirst j (Nat.le_refl j)
    · rw [add_of_le hn (Nat.not_lt.mp hfirst) (by omega)]
      exact h (j - n) (by omega)

theorem status_iff {result : Int} :
    Status memory root va len result ↔
      Status memory root (va / pgsize * pgsize + pgsize) (len - n) result := by
  have hall : (∀ i < len, frameAt memory root (va + i) ≠ none) ↔
      ∀ i < len - n, frameAt memory root (va / pgsize * pgsize + pgsize + i) ≠ none := by
    refine ⟨fun h i hi => ?_, fun h i hi => ?_⟩
    · have hnext := h (n + i) (by omega)
      rwa [add_of_le hn (Nat.le_add_right n i) (by omega), Nat.add_sub_cancel_left] at hnext
    · by_cases hfirst : i < n
      · rw [frameAt_of_lt hn hframe hfirst]
        exact Option.some_ne_none f
      · rw [add_of_le hn (Nat.not_lt.mp hfirst) hi]
        exact h (i - n) (by omega)
  have hsome : ∀ {va len}, (∃ i < len, frameAt memory root (va + i) = none) ↔
      ¬∀ i < len, frameAt memory root (va + i) ≠ none := by
    intro va len
    push Not
    exact Iff.rfl
  unfold Status
  rw [hsome, hsome, hall]

theorem covered_iff :
    Covered memory root va len ↔ Covered memory root (va / pgsize * pgsize + pgsize) (len - n) := by
  refine ⟨fun h i hi hbefore => ?_, fun h i hi hbefore => ?_⟩
  · have hnext := h (n + i) (by omega) fun j hj => ?_
    · rwa [add_of_le hn (Nat.le_add_right n i) (by omega), Nat.add_sub_cancel_left] at hnext
    · by_cases hfirst : j < n
      · rw [frameAt_of_lt hn hframe hfirst]
        exact Option.some_ne_none f
      · rw [add_of_le hn (Nat.not_lt.mp hfirst) (by omega)]
        exact hbefore (j - n) (by omega)
  · by_cases hfirst : i < n
    · rw [(div_of_lt hn hfirst).1]
      exact (userFrame_eq_some hframe).2.1
    · rw [add_of_le hn (Nat.not_lt.mp hfirst) hi]
      refine h (i - n) (by omega) fun j hj => ?_
      have hnext := hbefore (n + j) (by omega)
      rwa [add_of_le hn (Nat.le_add_right n j) (by omega), Nat.add_sub_cancel_left] at hnext

end Round

/-! The first page. -/

theorem not_covered_of_first {len : Nat} (hlen : 0 < len) (htable : hasTable memory root (va / pgsize) = false) :
    ¬Covered memory root va len := by
  intro hcovered
  have hfirst := hcovered 0 hlen fun j hj => absurd hj (Nat.not_lt_zero j)
  rw [Nat.add_zero, htable] at hfirst
  cases hfirst

section Refused

variable {len : Nat} (hlen : 0 < len) (hnone : userFrame memory root (va / pgsize) = none)
include hnone

theorem not_reaches_of_first (i : Nat) : ¬Reaches memory root va i := fun hreaches =>
  hreaches 0 (Nat.zero_le i) hnone

theorem covered_of_first (htable : hasTable memory root (va / pgsize) = true) : Covered memory root va len := by
  intro i _ hbefore
  cases i with
  | zero => exact htable
  | succ i => exact absurd hnone (hbefore 0 (Nat.succ_pos i))

include hlen

theorem status_of_first : Status memory root va len (-1) := Or.inr ⟨rfl, 0, hlen, hnone⟩

end Refused

/-! Rounds that go well. -/

theorem ne_frame (h : Apart memory root) (hframe : userFrame memory root (va / pgsize) = some f) (i : Nat) :
    frameAt memory root (va / pgsize * pgsize + pgsize + i) ≠ some f := by
  intro hsame
  have heq := h.injective hframe hsame
  unfold pgsize at heq
  omega

theorem CopiedOut.step {result : Int} (h : Apart memory root)
    (hframe : userFrame memory root (va / pgsize) = some f) (hn : n = min (pgsize - va % pgsize) src.length)
    (hrest : CopiedOut (setPage memory f (WordBytes.storeBytes 4 (memory.words f) (va % pgsize) (src.take n))) root
      (va / pgsize * pgsize + pgsize) (src.drop n) result memory') :
    CopiedOut memory root va src result memory' := by
  obtain ⟨hstatus, hstored, hkept, hfree⟩ := hrest
  have hsame : ∀ a, frameAt (setPage memory f (WordBytes.storeBytes 4 (memory.words f) (va % pgsize) (src.take n))) root a =
      frameAt memory root a := fun a => userFrame_setPage h hframe (a / pgsize)
  have hreaches : ∀ a i, Reaches (setPage memory f (WordBytes.storeBytes 4 (memory.words f) (va % pgsize) (src.take n)))
      root a i ↔ Reaches memory root a i := fun a i => by simp only [Reaches, hsame]
  simp only [hsame, hreaches, List.length_drop] at hstored hkept
  simp only [Status, hsame, List.length_drop] at hstatus
  have hself : (setPage memory f (WordBytes.storeBytes 4 (memory.words f) (va % pgsize) (src.take n))).words f =
      WordBytes.storeBytes 4 (memory.words f) (va % pgsize) (src.take n) := Function.update_self ..
  have hlength : (src.take n).length = n := by
    rw [List.length_take, Nat.min_eq_left (hn ▸ Nat.min_le_right _ _)]
  have hroom : va % pgsize + (src.take n).length ≤ 1024 * 4 := by
    rw [hlength]
    unfold pgsize at *
    omega
  have hbyte : ∀ k < pgsize, WordBytes.byteAt 4 (WordBytes.storeBytes 4 (memory.words f) (va % pgsize) (src.take n)) k = _ := fun k hk =>
    WordBytes.byteAt_storeBytes (Nat.succ_pos 3) rfl hroom hk
  refine ⟨(status_iff hn hframe).mpr hstatus, fun i g hi hreach hg => ?_, fun g k hk hnot => ?_, hfree⟩
  · by_cases hfirst : i < n
    · obtain ⟨-, hmod⟩ := div_of_lt hn hfirst
      rw [frameAt_of_lt hn hframe hfirst] at hg
      obtain rfl := Option.some.inj hg
      have hlt : va % pgsize + i < pgsize := by
        rw [← hmod]
        exact Nat.mod_lt _ (Nat.succ_pos 4095)
      rw [hmod, hkept f _ hlt fun i' _ _ hin => ne_frame h hframe i' hin.1, hself, hbyte _ hlt, hlength,
        if_pos ⟨Nat.le_add_right _ i, Nat.add_lt_add_left hfirst _⟩, Nat.add_sub_cancel_left,
        List.getD_eq_getElem _ _ (by omega), List.getElem_take]
    · have hle := Nat.not_lt.mp hfirst
      have hnext : i - n < src.length - n := by omega
      have hadd := add_of_le hn hle hi
      rw [hadd] at hg ⊢
      rw [hstored (i - n) g hnext ((reaches_iff hn hframe hle hi).mp hreach) hg,
        List.getElem_drop]
      simp only [Nat.add_sub_cancel' hle]
  · rw [hkept g k hk fun i hi hreach hin => ?_]
    · by_cases hg : g = f
      · rw [hg, hself, hbyte k hk, hlength, if_neg]
        intro hin
        have hi : k - va % pgsize < n := by omega
        refine hnot (k - va % pgsize) (Nat.lt_of_lt_of_le hi (hn ▸ Nat.min_le_right _ _))
          (reaches_of_lt hn hframe hi) ⟨?_, ?_⟩
        · rw [hg]
          exact frameAt_of_lt hn hframe hi
        · rw [(div_of_lt hn hi).2]
          omega
      · have hother : (setPage memory f (WordBytes.storeBytes 4 (memory.words f) (va % pgsize) (src.take n))).words g =
            memory.words g := Function.update_of_ne hg ..
        rw [hother]
    · have hadd := add_of_le hn (Nat.le_add_right n i) (by omega)
      rw [Nat.add_sub_cancel_left] at hadd
      rw [← hadd] at hin
      refine hnot (n + i) (by omega) ((reaches_iff hn hframe (Nat.le_add_right n i) (by omega)).mpr ?_) hin
      rwa [Nat.add_sub_cancel_left]

theorem CopiedIn.step {len : Nat} {result : Int} {bytes : List UInt8}
    (hframe : userFrame memory root (va / pgsize) = some f) (hn : n = min (pgsize - va % pgsize) len)
    (hrest : CopiedIn memory root (va / pgsize * pgsize + pgsize) (len - n) result bytes memory') :
    CopiedIn memory root va len result (WordBytes.loadBytes 4 (memory.words f) (va % pgsize) n ++ bytes) memory' := by
  obtain ⟨hstatus, hlength, hloaded, hsame⟩ := hrest
  have hfirst : (WordBytes.loadBytes 4 (memory.words f) (va % pgsize) n).length = n := by
    rw [WordBytes.loadBytes_eq_map, List.length_map, List.length_range]
  have hle : n ≤ len := hn ▸ Nat.min_le_right _ _
  refine ⟨(status_iff hn hframe).mpr hstatus, fun i => ?_, fun i g hi hg => ?_, hsame⟩
  · rw [List.length_append, hfirst]
    by_cases hin : i < n
    · exact iff_of_true (by omega) ⟨by omega, reaches_of_lt hn hframe hin⟩
    · have hiff := hlength (i - n)
      constructor
      · intro hi
        obtain ⟨hi', hreach⟩ := hiff.mp (by omega)
        exact ⟨by omega, (reaches_iff hn hframe (Nat.not_lt.mp hin) (by omega)).mpr hreach⟩
      · rintro ⟨hi, hreach⟩
        have hlt := hiff.mpr ⟨by omega, (reaches_iff hn hframe (Nat.not_lt.mp hin) hi).mp hreach⟩
        omega
  · by_cases hin : i < n
    · rw [frameAt_of_lt hn hframe hin] at hg
      obtain rfl := Option.some.inj hg
      have hi' : i < (WordBytes.loadBytes 4 (memory.words f) (va % pgsize) n).length := by rwa [hfirst]
      rw [List.getElem_append_left hi', (div_of_lt hn hin).2]
      simp only [WordBytes.loadBytes_eq_map, List.getElem_map, List.getElem_range]
    · have hge := Nat.not_lt.mp hin
      have hi' : (WordBytes.loadBytes 4 (memory.words f) (va % pgsize) n).length ≤ i := by rwa [hfirst]
      have hlt : i - n < bytes.length := by
        rw [List.length_append, hfirst] at hi
        omega
      have hlen := ((hlength (i - n)).mp hlt).1
      have hadd := add_of_le hn hge (by omega)
      rw [hadd] at hg ⊢
      rw [List.getElem_append_right hi']
      simp only [hfirst]
      exact hloaded (i - n) g hlt hg

/-! ### The loops -/

section Loops

variable {ι : Type} {who : ι} {junk : Nat → Index → Word}

theorem sub_pgrounddown (va : Nat) : va - pgrounddown va = va % pgsize := by
  unfold pgrounddown pgsize
  omega

theorem uint_pgrounddown (hva : va < 4294967296) : uint (pgrounddown va) = va / pgsize * pgsize := by
  unfold uint pgrounddown pgsize
  omega

theorem page_lt (hva : va < 4294967296) : va / pgsize < 1048576 := by
  unfold pgsize
  omega

theorem next_lt (h : Apart memory root) (hva : va < 4294967296)
    (hframe : userFrame memory root (va / pgsize) = some f) :
    va / pgsize * pgsize + pgsize < 4294967296 ∧
      uint64 (pgrounddown va + pgsize) = va / pgsize * pgsize + pgsize := by
  have hne : va / pgsize ≠ 1048575 := by
    intro hlast
    rw [hlast, h.last] at hframe
    cases hframe
  have hlt : va / pgsize * pgsize + pgsize < 4294967296 := by
    unfold pgsize at *
    omega
  refine ⟨hlt, ?_⟩
  unfold uint64 pgrounddown
  omega

theorem covered_zero : Covered memory root va 0 := fun i hi => absurd hi (Nat.not_lt_zero i)

theorem CopiedOut.nil : CopiedOut memory root va [] 0 memory :=
  ⟨Or.inl ⟨rfl, fun i hi => absurd hi (Nat.not_lt_zero i)⟩, fun i _ hi => absurd hi (Nat.not_lt_zero i),
    fun _ _ _ _ => rfl, rfl⟩

theorem CopiedIn.nil : CopiedIn memory root va 0 0 [] memory := by
  refine ⟨Or.inl ⟨rfl, fun i hi => absurd hi (Nat.not_lt_zero i)⟩, fun i => ?_,
    fun i _ hi => absurd hi (Nat.not_lt_zero i), rfl⟩
  exact iff_of_false (Nat.not_lt_zero i) fun hin => Nat.not_lt_zero i hin.1

theorem copyoutFrom_exec {rounds : Nat} (h : Apart memory root) (hva : va < 4294967296)
    (hrounds : src.length ≤ rounds) :
    (Covered memory root va src.length → (copyoutFrom root rounds va src).Ends (access junk) who memory
      fun result memory' => CopiedOut memory root va src result memory') ∧
    (¬Covered memory root va src.length → (copyoutFrom root rounds va src).exec (access junk) who memory = none) := by
  induction rounds generalizing memory va src with
  | zero =>
      obtain rfl := List.eq_nil_of_length_eq_zero (Nat.le_zero.mp hrounds)
      exact ⟨fun _ => Program.Ends.ret CopiedOut.nil, fun hnot => absurd covered_zero hnot⟩
  | succ rounds ih =>
      rw [copyoutFrom]
      by_cases hnil : src.length = 0
      · obtain rfl := List.eq_nil_of_length_eq_zero hnil
        exact ⟨fun _ => Program.Ends.ret CopiedOut.nil, fun hnot => absurd covered_zero hnot⟩
      have hpos := Nat.pos_of_ne_zero hnil
      rw [if_neg hnil]
      dsimp only
      rw [uint_pgrounddown hva, sub_pgrounddown]
      generalize hn : min (pgsize - va % pgsize) src.length = n
      have huva : (uva2ka root (va / pgsize * pgsize)).exec (access junk) who memory = _ :=
        uva2ka_exec (page_lt hva)
      unfold Program.Ends
      rw [Program.exec_bind, huva]
      by_cases htable : hasTable memory root (va / pgsize) = true
      swap
      · rw [if_neg htable, Option.bind_none]
        exact ⟨fun hcov => absurd hcov (not_covered_of_first hpos (eq_false_of_ne_true htable)), fun _ => rfl⟩
      rw [if_pos htable, Option.bind_some]
      dsimp only
      cases hframe : userFrame memory root (va / pgsize) with
      | none =>
          refine ⟨fun _ => ⟨-1, memory, rfl, status_of_first hpos hframe, fun i f _ hreach => ?_,
            fun f k _ _ => rfl, rfl⟩, fun hnot => absurd (covered_of_first hframe htable) hnot⟩
          exact absurd hreach (not_reaches_of_first hframe i)
      | some f =>
          obtain ⟨hlt, hnext⟩ := next_lt h hva hframe
          have hdrop : (src.drop n).length ≤ rounds := by
            rw [List.length_drop]
            unfold pgsize at hn
            omega
          have hapart : Apart (setPage memory f (WordBytes.storeBytes 4 (memory.words f) (va % pgsize) (src.take n))) root :=
            h.setPage hframe
          have hloop := ih hapart hlt hdrop
          have hcov : Covered (setPage memory f (WordBytes.storeBytes 4 (memory.words f) (va % pgsize) (src.take n))) root
              (va / pgsize * pgsize + pgsize) (src.drop n).length ↔ Covered memory root va src.length := by
            rw [covered_iff hn.symm hframe, List.length_drop]
            unfold Covered frameAt
            simp only [hasTable_setPage h hframe, userFrame_setPage h hframe]
          rw [hcov] at hloop
          rw [hnext, Option.elim_some]
          refine ⟨fun hcovered => ?_, hloop.2⟩
          obtain ⟨result, memory', hexec, hrest⟩ := hloop.1 hcovered
          exact ⟨result, memory', hexec, hrest.step h hframe hn.symm⟩

theorem loadFrom_exec (page : Nat) (off : Nat) :
    (loadFrom page off n).exec (access junk) who memory =
      some (WordBytes.loadBytes 4 (memory.words page) off n, memory) := by
  induction n generalizing off with
  | zero => rfl
  | succ n ih =>
      change ((loadFrom page (off + 1) n >>= fun rest =>
        pure (WordBytes.byteAt 4 (memory.words page) off :: rest) : Code Index Word _).exec (access junk) who memory) = _
      rw [Program.exec_bind, ih]
      rfl

theorem copyinFrom_exec {rounds len : Nat} (h : Apart memory root) (hva : va < 4294967296)
    (hrounds : len ≤ rounds) :
    (Covered memory root va len → (copyinFrom root rounds va len).Ends (access junk) who memory
      fun result memory' => CopiedIn memory root va len result.1 result.2 memory') ∧
    (¬Covered memory root va len → (copyinFrom root rounds va len).exec (access junk) who memory = none) := by
  induction rounds generalizing va len with
  | zero =>
      obtain rfl := Nat.le_zero.mp hrounds
      exact ⟨fun _ => Program.Ends.ret CopiedIn.nil, fun hnot => absurd covered_zero hnot⟩
  | succ rounds ih =>
      rw [copyinFrom]
      by_cases hzero : len = 0
      · rw [hzero]
        exact ⟨fun _ => Program.Ends.ret CopiedIn.nil, fun hnot => absurd covered_zero hnot⟩
      have hpos := Nat.pos_of_ne_zero hzero
      rw [if_neg hzero]
      dsimp only
      rw [uint_pgrounddown hva, sub_pgrounddown]
      generalize hn : min (pgsize - va % pgsize) len = n
      have huva : (uva2ka root (va / pgsize * pgsize)).exec (access junk) who memory = _ :=
        uva2ka_exec (page_lt hva)
      unfold Program.Ends
      rw [Program.exec_bind, huva]
      by_cases htable : hasTable memory root (va / pgsize) = true
      swap
      · rw [if_neg htable, Option.bind_none]
        exact ⟨fun hcov => absurd hcov (not_covered_of_first hpos (eq_false_of_ne_true htable)), fun _ => rfl⟩
      rw [if_pos htable, Option.bind_some]
      dsimp only
      cases hframe : userFrame memory root (va / pgsize) with
      | none =>
          refine ⟨fun _ => ⟨(-1, []), memory, rfl, status_of_first hpos hframe, fun i => ?_,
            fun i f hi => absurd hi (Nat.not_lt_zero i), rfl⟩,
            fun hnot => absurd (covered_of_first hframe htable) hnot⟩
          exact iff_of_false (Nat.not_lt_zero i) fun hin => not_reaches_of_first hframe i hin.2
      | some f =>
          obtain ⟨hlt, hnext⟩ := next_lt h hva hframe
          have hleft : len - n ≤ rounds := by
            unfold pgsize at hn
            omega
          have hloop := ih hlt hleft
          rw [← covered_iff hn.symm hframe] at hloop
          rw [hnext, Option.elim_some, Program.exec_bind, loadFrom_exec, Option.bind_some]
          dsimp only
          rw [Program.exec_bind]
          refine ⟨fun hcovered => ?_, fun hnot => ?_⟩
          · obtain ⟨result, memory', hexec, hrest⟩ := hloop.1 hcovered
            rw [hexec]
            exact ⟨_, memory', rfl, hrest.step hframe hn.symm⟩
          · rw [hloop.2 hnot]
            rfl

/-- **Copies do what they should exactly where they are covered.** In every page table that the kernel has
built, and for every address that a system call passes on: `arch_copyout` and `arch_copyin` end, with 0 or
with -1 as the page table says, and have copied the bytes up to the first page that is not for the user,
each from or to where the page table says, if and only if they never come to a page without a page table. -/
theorem copies_iff {ram : Ram} {pool : Nat → Prop} {others : Nat → Index → Word} {refuses : Nat → Bool}
    {maps : List Kmap} {history : List Change} {state state' : Memory Index Word × Nat}
    (howns : Owns ram pool others state.1 Heap.empty) (hmaps : KernelMap userPages maps)
    (hbuild : (build ram maps history).exec (scarce junk refuses) who state = some (some root, state'))
    (arg : BitVec 32) :
    (∀ src, (archCopyout root (argaddr arg) src).Ends (access junk) who state'.1 (fun result memory' =>
        CopiedOut state'.1 root (argaddr arg) src result memory') ↔
      Covered state'.1 root (argaddr arg) src.length) ∧
    ∀ len, (archCopyin root (argaddr arg) len).Ends (access junk) who state'.1 (fun result memory' =>
        CopiedIn state'.1 root (argaddr arg) len result.1 result.2 memory') ↔
      Covered state'.1 root (argaddr arg) len := by
  obtain ⟨sz, own, view, fixed, howns', hbuilt⟩ := build_exec howns hmaps hbuild
  have hapart := hbuilt.apart howns'
  have hva : argaddr arg < 4294967296 := arg.isLt
  refine ⟨fun src => ⟨fun hends => ?_, (copyoutFrom_exec hapart hva (Nat.le_refl _)).1⟩,
    fun len => ⟨fun hends => ?_, (copyinFrom_exec hapart hva (Nat.le_refl _)).1⟩⟩
  · by_contra hnot
    obtain ⟨result, memory', hexec, -⟩ := hends
    rw [archCopyout, (copyoutFrom_exec hapart hva (Nat.le_refl _)).2 hnot] at hexec
    cases hexec
  · by_contra hnot
    obtain ⟨result, memory', hexec, -⟩ := hends
    rw [archCopyin, (copyinFrom_exec hapart hva (Nat.le_refl _)).2 hnot] at hexec
    cases hexec

end Loops

/-! A page table with one page of the kernel and one of the user. -/

def smallRam : Ram := ⟨2, 10, Nat.two_pos, Nat.le_add_left 8 65528, Nat.le_add_left 10 1048566⟩

def smallMemory : Memory Index Word := ⟨fun _ _ => 0, List.range' 2 8⟩

def smallMaps : List Kmap := [⟨kernbase, 0, pgsize, pteW⟩]

def smallHistory : List Change := [.alloc 4096]

def smallBuild : Option (Option Nat × Memory Index Word × Nat) :=
  (build smallRam smallMaps smallHistory).exec (scarce (fun _ _ => 1) fun _ => false) () (smallMemory, 0)

theorem smallBuild_eq : ∃ state, smallBuild = some (some 2, state) := by
  have hroot : smallBuild.map (fun ends => ends.1) = some (some 2) := by decide +kernel
  obtain ⟨ends, hends, hfirst⟩ := Option.map_eq_some_iff.mp hroot
  exact ⟨ends.2, by rw [hends, ← hfirst]⟩

theorem copies_iff_small : ∃ state, smallBuild = some (some 2, state) ∧
    ∀ arg src, (archCopyout 2 (argaddr arg) src).Ends (access fun _ _ => 1) () state.1 (fun result memory' =>
        CopiedOut state.1 2 (argaddr arg) src result memory') ↔
      Covered state.1 2 (argaddr arg) src.length := by
  obtain ⟨state, hbuild⟩ := smallBuild_eq
  have howns : Owns smallRam (fun p => p ∈ smallMemory.freelist) smallMemory.words smallMemory
      Heap.empty := by
    refine ⟨fun {p words} hwords => ?_, List.nodup_range', fun _ => rfl, fun p => ?_, fun {p} hp => ?_,
      fun _ _ => rfl⟩
    · cases hwords
    · exact ⟨Or.inl, fun h => h.resolve_right fun hsome => hsome rfl⟩
    · obtain ⟨hlow, hhigh⟩ := List.mem_range'_1.mp hp
      exact ⟨hlow, hhigh⟩
  have hmaps : KernelMap userPages smallMaps := by
    have hperm : pteW &&& pteU = 0 := rfl
    exact ⟨524288, 0, rfl, Nat.le_refl _, rfl, by decide, hperm, trivial⟩
  exact ⟨state, hbuild, fun arg => (copies_iff howns hmaps hbuild arg).1⟩

/-- **The entry of a page without a page table is read through a null pointer.** -/
theorem null_entry_used : ∃ state, smallBuild = some (some 2, state) ∧
    ¬(archCopyin 2 (argaddr 0x400000) 1).Ends (access fun _ _ => 1) () state.1 (fun result memory' =>
        CopiedIn state.1 2 (argaddr 0x400000) 1 result.1 result.2 memory') := by
  obtain ⟨state, hbuild⟩ := smallBuild_eq
  have hstuck : smallBuild.bind (fun ends =>
      ((archCopyin 2 (argaddr 0x400000) 1).exec (access fun _ _ => 1) () ends.2.1).map fun ends => ends.1) = none := by
    decide +kernel
  refine ⟨state, hbuild, ?_⟩
  rintro ⟨result, memory', hexec, -⟩
  rw [hbuild, Option.bind_some, hexec] at hstuck
  cases hstuck

end Xv6.Vm.I386
