import Xv6.Vm.Exhaustion

/-!
# What the legacy `sbrk` does to the size of a process

The helpers of `growproc` return the new size, and 0 where they fail. A process that is shrunk to nothing takes the one for
the other, and one that is asked to shrink by more than it has is told that it did.
-/

namespace Xv6.Vm.ArmPi1

/-- What of `struct proc` is about memory. -/
structure Proc where
  pagetable : Nat
  sz : Nat

/-- Grow current process's memory by `n` bytes. Return 0 on success, -1 on failure. -/
def growproc (ram : Ram) (p : Proc) (n : BitVec 32) : Code Index Word (Int × Proc) :=
  let newsz := (p.sz + n.toNat) % 4294967296
  if n.toInt > 0 then do
    let sz ← allocuvm ram p.pagetable p.sz newsz
    if sz = 0 then pure (-1, p) else pure (0, { p with sz })
  else if n.toInt < 0 then do
    let sz ← deallocuvm ram p.pagetable p.sz newsz
    if sz = 0 then pure (-1, p) else pure (0, { p with sz })
  else pure (0, p)

variable {ram : Ram} {own own' : Owned Index Word} {view : View Index Word Attr} {p : Proc} {n : BitVec 32}

/-- The call fails and nothing has changed; or the size is larger by `n`, all pages below it are mapped and no others,
and those that were mapped are as before. -/
def AllOrNothing (ram : Ram) (view : View Index Word Attr) (p : Proc) (n : Int) (result : Int × Proc)
    (own' : Owned Index Word) : Prop :=
  (result.1 = -1 ∧ result.2 = p ∧ Space arch ram (fun _ => False) (fun _ => 0) p.pagetable own' view) ∨
  (result.1 = 0 ∧ ∃ sz view', result.2 = { p with sz } ∧ (sz : Int) = p.sz + n ∧ sz < userbound ∧
    Space arch ram (fun _ => False) (fun _ => 0) p.pagetable own' view' ∧ view'.Below (pages sz) ∧
      ∀ v < min (pages p.sz) (pages sz), view' v = view v)

def Keeps (p : Proc) (n : Int) : Prop := 0 ≤ n ∨ 0 < p.sz + n ∨ p.sz = 0

theorem toInt_bounds (n : BitVec 32) : -2147483648 ≤ n.toInt ∧ n.toInt < 2147483648 := by
  have hlt := n.isLt
  rw [BitVec.toInt_eq_toNat_cond]
  split <;> omega

theorem toNat_eq (n : BitVec 32) : (n.toNat : Int) = if 0 ≤ n.toInt then n.toInt else n.toInt + 4294967296 := by
  have hlt := n.isLt
  rw [BitVec.toInt_eq_toNat_cond]
  split <;> split <;> omega

theorem newsz_eq (hsz : p.sz < userbound) (n : BitVec 32) : (((p.sz + n.toNat) % 4294967296 : Nat) : Int) =
    if 0 ≤ p.sz + n.toInt then p.sz + n.toInt else p.sz + n.toInt + 4294967296 := by
  have hbounds := toInt_bounds n
  have hnat := toNat_eq n
  unfold userbound at hsz
  split at hnat <;> split <;> omega

theorem pages_le_limit {sz : Nat} (hsz : sz < userbound) : pages sz ≤ arch.limit :=
  pages_mono (Nat.le_of_lt hsz)

theorem growproc_grow (h : Space arch ram (fun _ => False) (fun _ => 0) p.pagetable own view)
    (hbelow : view.Below (pages p.sz)) (hsz : p.sz < userbound) (hpos : 0 < n.toInt) :
    (growproc ram p n).wp (rule ram (· = false)) own fun result own' =>
      AllOrNothing ram view p n.toInt result own' := by
  have hnew := newsz_eq hsz n
  rw [if_pos (by omega)] at hnew
  unfold growproc
  dsimp only
  generalize (p.sz + n.toNat) % 4294967296 = newsz at hnew
  rw [if_pos hpos, Program.wp_bind]
  apply Program.wp_mono rule_monotone _ (allocuvm_spec h fun v hlow _ => hbelow.within.eq_none hlow)
  intro sz own' hgrown
  rcases hgrown with ⟨rfl, hle, hlt, view', hspace, hfills⟩ | ⟨-, hshrink, -⟩ | ⟨rfl, hspace⟩
  · rw [if_neg (by omega)]
    refine Or.inr ⟨rfl, sz, view', rfl, hnew, hlt, hspace, hfills.below hbelow (pages_mono hle), ?_⟩
    intro v hv
    exact (hfills v).2 fun hin => absurd hin.1 (by omega)
  · omega
  · rw [if_pos rfl]
    exact Or.inl ⟨rfl, rfl, hspace⟩

theorem growproc_shrink {fails : Bool → Prop} (h : Space arch ram (fun _ => False) (fun _ => 0) p.pagetable own view)
    (hbelow : view.Below (pages p.sz)) (hsz : p.sz < userbound) (hneg : n.toInt < 0) :
    (growproc ram p n).wp (rule ram fails) own fun result own' =>
      if 0 < p.sz + n.toInt ∨ p.sz = 0 then AllOrNothing ram view p n.toInt result own'
      else (result.1 = -1 ∧ p.sz + n.toInt = 0 ∧
          Space arch ram (fun _ => False) (fun _ => 0) p.pagetable own' (fun _ => none)) ∨
        (result = (0, p) ∧ p.sz + n.toInt < 0) := by
  have hnew := newsz_eq hsz n
  have hbounds := toInt_bounds n
  have huser : userbound = 1073741824 := rfl
  unfold growproc
  dsimp only
  generalize (p.sz + n.toNat) % 4294967296 = newsz at hnew
  rw [if_neg (by omega), if_pos hneg, Program.wp_bind]
  by_cases hge : newsz ≥ p.sz
  · -- the sum is below zero, and large modulo 2^32
    have hbig : p.sz + n.toInt < 0 := by
      split at hnew <;> omega
    unfold deallocuvm
    rw [if_pos hge]
    by_cases hzero : p.sz = 0
    · change (if p.sz = 0 then _ else _ : Code Index Word (Int × Proc)).wp _ _ _
      rw [if_pos hzero]
      simp only [if_pos (Or.inr hzero : 0 < p.sz + n.toInt ∨ p.sz = 0)]
      exact Or.inl ⟨rfl, rfl, h⟩
    · change (if p.sz = 0 then _ else _ : Code Index Word (Int × Proc)).wp _ _ _
      rw [if_neg hzero]
      have hnot : ¬ (0 < p.sz + n.toInt ∨ p.sz = 0) := by omega
      simp only [if_neg hnot]
      exact Or.inr ⟨rfl, hbig⟩
  · have hsum : (newsz : Int) = p.sz + n.toInt := by
      split at hnew <;> omega
    have hlt : newsz < p.sz := Nat.not_le.mp hge
    have hholes : ∀ w w', pages newsz ≤ w → w ≤ w' → w' < pages p.sz → view w = none → view w' = none := by
      intro w w' _ hle hw' hhole
      exact absurd hhole ((hbelow w).mpr (by omega))
    unfold deallocuvm
    rw [if_neg hge, Program.wp_bind]
    apply Program.wp_mono rule_monotone _
      (deallocFrom_spec h (pages_le_limit hsz) (Nat.le_add_left _ _) hholes)
    intro _ own' hspace
    have hbelow' : View.Below (view.drop (pages newsz) (pages p.sz)) (pages newsz) := by
      have hmin : min (pages newsz) (pages p.sz) = pages newsz := Nat.min_eq_left (pages_mono (Nat.le_of_lt hlt))
      have hdrop : View.Below (view.drop (pages newsz) (pages p.sz)) (min (pages newsz) (pages p.sz)) := hbelow.drop
      rwa [hmin] at hdrop
    change (if newsz = 0 then _ else _ : Code Index Word (Int × Proc)).wp _ _ _
    by_cases hzero : newsz = 0
    · have hnot : ¬ (0 < p.sz + n.toInt ∨ p.sz = 0) := by omega
      have hnone : view.drop (pages newsz) (pages p.sz) = fun _ => none := by
        funext v
        have hpages : pages newsz = 0 := by rw [hzero]; decide
        exact hbelow'.within.eq_none (by omega)
      rw [if_pos hzero]
      simp only [if_neg hnot]
      rw [hnone] at hspace
      exact Or.inl ⟨rfl, by omega, hspace⟩
    · have hkeeps : 0 < p.sz + n.toInt ∨ p.sz = 0 := by omega
      rw [if_neg hzero]
      simp only [if_pos hkeeps]
      refine Or.inr ⟨rfl, newsz, _, rfl, hsum, by omega, hspace, hbelow', ?_⟩
      intro v hv
      exact View.drop_of_not fun hin => absurd hin.1 (by omega)

section Memory

variable {ι : Type} {who : ι} {pool : Nat → Prop} {others junk : Nat → Index → Word} {memory : Memory Index Word}

theorem growproc_loses (howns : Owns ram pool others memory own)
    (h : Space arch ram (fun _ => False) (fun _ => 0) p.pagetable own view) (hbelow : view.Below (pages p.sz))
    (hsz : p.sz < userbound) (hlost : ¬ Keeps p n.toInt) :
    ¬ (growproc ram p n).Ends (access junk) who memory fun result memory' =>
      ∃ own', Owns ram pool others memory' own' ∧ AllOrNothing ram view p n.toInt result own' := by
  intro hends
  unfold Keeps at hlost
  have hneg : n.toInt < 0 := by omega
  have hnot : ¬ (0 < p.sz + n.toInt ∨ p.sz = 0) := by omega
  have hshrink := @growproc_shrink ram own view p n (fun _ => True) h hbelow hsz hneg
  simp only [if_neg hnot] at hshrink
  have hmeets : (growproc ram p n).Meets (access junk) who (Spares fun _ => True) memory :=
    Program.meets_of_forall spares_of_fails _ memory
  obtain ⟨result, memory', hexec, own', howns', hall⟩ := hends
  obtain ⟨own'', hresult, howns''⟩ := (howns.ends hmeets hshrink).of_exec hexec
  obtain rfl := howns'.unique howns''
  rcases hresult with ⟨hfailed, hsum, hnone⟩ | ⟨rfl, hbig⟩
  · rcases hall with ⟨-, -, hspace⟩ | ⟨hdone, -⟩
    · have hview := hspace.view_eq hnone fun _ => rfl
      have hmapped := (hbelow 0).mpr (lt_pages_iff.mpr (by omega))
      rw [hview] at hmapped
      exact hmapped rfl
    · rw [hfailed] at hdone
      cases hdone
  · rcases hall with ⟨hfailed, -⟩ | ⟨-, sz, view', hproc, hsize, -⟩
    · cases hfailed
    · omega

/-- **`sbrk` is all or nothing if and only if the process keeps a byte**, or does not shrink, or has none, where no page for
a page table is missing. -/
theorem growproc_all_or_nothing (howns : Owns ram pool others memory own)
    (h : Space arch ram (fun _ => False) (fun _ => 0) p.pagetable own view) (hbelow : view.Below (pages p.sz))
    (hsz : p.sz < userbound) (n : BitVec 32)
    (hmeets : (growproc ram p n).Meets (access junk) who (Spares (· = false)) memory) :
    ((growproc ram p n).Ends (access junk) who memory fun result memory' =>
        ∃ own', Owns ram pool others memory' own' ∧ AllOrNothing ram view p n.toInt result own') ↔
      Keeps p n.toInt := by
  constructor
  · intro hends
    by_contra hlost
    exact growproc_loses howns h hbelow hsz hlost hends
  · intro hkeeps
    have hspec : (growproc ram p n).wp (rule ram (· = false)) own fun result own' =>
        AllOrNothing ram view p n.toInt result own' := by
      rcases lt_trichotomy n.toInt 0 with hneg | hzero | hpos
      · have hpos : 0 < p.sz + n.toInt ∨ p.sz = 0 := hkeeps.resolve_left (not_le.mpr hneg)
        have hshrink := @growproc_shrink ram own view p n (· = false) h hbelow hsz hneg
        simp only [if_pos hpos] at hshrink
        exact hshrink
      · unfold growproc
        rw [hzero]
        exact Or.inr ⟨rfl, p.sz, view, rfl, by omega, hsz, h, hbelow, fun _ _ => rfl⟩
      · exact growproc_grow h hbelow hsz hpos
    refine (howns.ends hmeets hspec).mono ?_
    rintro result memory' ⟨own', hresult, howns'⟩
    exact ⟨own', howns', hresult⟩

end Memory

def emptyProc : Proc := ⟨2, 0⟩

theorem emptyProc_below : View.Below (fun _ => none : View Index Word Attr) (pages emptyProc.sz) := by
  intro v
  have hpages : pages emptyProc.sz = 0 := by decide
  rw [hpages]
  exact iff_of_false (not_not_intro rfl) (Nat.not_lt_zero v)

theorem growproc_all_or_nothing_emptyProc :
    (growproc smallRam emptyProc 4096).Ends (access fun _ _ => 1) () smallMemory fun result memory' =>
      ∃ own', Owns smallRam (fun p => p = 2 ∨ p ∈ smallMemory.freelist) smallMemory.words memory' own' ∧
        AllOrNothing smallRam (fun _ => none) emptyProc 4096 result own' :=
  (@growproc_all_or_nothing smallRam _ _ emptyProc Unit () _ _ (fun _ _ => 1) smallMemory smallMemory_owns
    smallMemory_space emptyProc_below (by decide) 4096 (by decide +kernel)).mpr (Or.inl (by decide))

/-- It grows by a page, and then it is shrunk to nothing. -/
theorem growproc_to_nothing : ¬ ∀ (ram : Ram) (pool : Nat → Prop) (others : Nat → Index → Word)
    (memory : Memory Index Word) (own : Owned Index Word) (view : View Index Word Attr) (p : Proc) (n : BitVec 32),
    Owns ram pool others memory own → Space arch ram (fun _ => False) (fun _ => 0) p.pagetable own view →
      view.Below (pages p.sz) → p.sz < userbound →
      (growproc ram p n).Ends (access fun _ _ => 1) () memory (fun result memory' =>
        ∃ own', Owns ram pool others memory' own' ∧ AllOrNothing ram view p n.toInt result own') := by
  intro hclaim
  obtain ⟨result, memory, hexec, own, howns, hgrown⟩ := hclaim smallRam _ _ _ _ _ emptyProc 4096 smallMemory_owns
    smallMemory_space emptyProc_below (by decide)
  have hdone : ((growproc smallRam emptyProc 4096).exec (access fun _ _ => 1) () smallMemory).map
      (fun ends => ends.1.1) = some 0 := by decide +kernel
  rw [hexec, Option.map_some, Option.some.injEq] at hdone
  rcases hgrown with ⟨hfailed, -⟩ | ⟨-, sz, view, -, hsize, hlt, hspace, hbelow, -⟩
  · rw [hdone] at hfailed
    cases hfailed
  · obtain rfl : sz = 4096 := by
      have hsum : ((emptyProc.sz : Nat) : Int) + (4096 : BitVec 32).toInt = 4096 := by decide
      omega
    have hlost : ¬ Keeps ⟨2, 4096⟩ (0xFFFFF000 : BitVec 32).toInt := by
      unfold Keeps
      decide
    have hends := hclaim smallRam _ _ memory own view ⟨2, 4096⟩ 0xFFFFF000 howns hspace hbelow hlt
    exact @growproc_loses _ _ _ ⟨2, 4096⟩ _ _ _ _ _ _ _ howns hspace hbelow hlt hlost hends

end Xv6.Vm.ArmPi1
