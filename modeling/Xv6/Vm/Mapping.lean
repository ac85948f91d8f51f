import Xv6.Vm.PageTable

/-!
# Mapping and unmapping pages

What the loop of `mappages` does with a page, and what becomes of an entry whose page is freed. The kernels
walk to an entry in different ways, and take the walk as an argument.
-/

namespace Xv6.Vm

/-! ### Views -/

namespace View

variable {I W P : Type}

/-- Nothing is mapped from `low` up to `high`. -/
def drop (view : View I W P) (low high : Nat) : View I W P :=
  fun v => if low ≤ v ∧ v < high then none else view v

/-- Pages with a property are mapped from `low` up to `high`, and the others are as they were. -/
def Fills (good : Page I W P → Prop) (low high : Nat) (view view' : View I W P) : Prop :=
  ∀ v, (low ≤ v ∧ v < high → ∃ page, view' v = some page ∧ good page) ∧
    (¬(low ≤ v ∧ v < high) → view' v = view v)

def Below (view : View I W P) (bound : Nat) : Prop := ∀ v, view v ≠ none ↔ v < bound

variable {view view' : View I W P} {low high v : Nat} {page : Page I W P} {good : Page I W P → Prop}

theorem drop_of_mem (hv : low ≤ v ∧ v < high) : view.drop low high v = none := if_pos hv

theorem drop_of_not (hv : ¬(low ≤ v ∧ v < high)) : view.drop low high v = view v := if_neg hv

theorem drop_eq_self (hholes : ∀ v, low ≤ v → v < high → view v = none) :
    view.drop low high = view := by
  funext v
  by_cases hin : low ≤ v ∧ v < high
  · rw [drop_of_mem hin, hholes v hin.1 hin.2]
  · exact drop_of_not hin

theorem drop_update (hlt : low < high) :
    drop (Function.update view low none) (low + 1) high = view.drop low high := by
  funext v
  by_cases hv : v = low
  · subst hv
    rw [drop_of_not (by omega), Function.update_self]
    exact (drop_of_mem ⟨Nat.le_refl v, hlt⟩).symm
  · by_cases hin : low ≤ v ∧ v < high
    · rw [drop_of_mem hin, drop_of_mem (by omega)]
    · rw [drop_of_not hin, drop_of_not (by omega), Function.update_of_ne hv]

theorem drop_succ_of_hole (hhole : view low = none) (hlt : low < high) :
    view.drop (low + 1) high = view.drop low high := by
  rw [← drop_update hlt, ← hhole, Function.update_eq_self]

theorem drop_of_hole {high' : Nat} (hle : high ≤ high')
    (hholes : ∀ v, high ≤ v → v < high' → view v = none) :
    view.drop low high' = view.drop low high := by
  funext v
  by_cases hin : low ≤ v ∧ v < high
  · rw [drop_of_mem hin, drop_of_mem (by omega)]
  · rw [drop_of_not hin]
    by_cases hin' : low ≤ v ∧ v < high'
    · rw [drop_of_mem hin']
      exact (hholes v (by omega) hin'.2).symm
    · exact drop_of_not hin'

/-- The pages below a bound are copied, and nothing else is mapped. -/
def Copies (arch : Arch I W P) (bound : Nat) (view copied : View I W P) : Prop :=
  ∀ v, (v < bound → (copied v).map (fun page => (page.flags, page.words)) =
      (view v).map fun page => (arch.sealed page.flags, page.words)) ∧
    (bound ≤ v → copied v = none)

theorem Fills.refl : Fills good low low view view := by
  intro v
  refine ⟨fun hv => ?_, fun _ => rfl⟩
  omega

theorem Fills.succ (h : Fills good low high view view') (hle : low ≤ high) (hgood : good page) :
    Fills good low (high + 1) view (Function.update view' high (some page)) := by
  intro v
  by_cases hv : v = high
  · rw [hv, Function.update_self]
    refine ⟨fun _ => ⟨page, rfl, hgood⟩, fun hnot => ?_⟩
    omega
  · rw [Function.update_of_ne hv]
    refine ⟨fun hin => (h v).1 (by omega), fun hnot => (h v).2 (by omega)⟩

theorem Fills.drop_eq (h : Fills good low high view view')
    (hholes : ∀ v, low ≤ v → v < high → view v = none) : view'.drop low high = view := by
  funext v
  by_cases hin : low ≤ v ∧ v < high
  · rw [drop_of_mem hin]
    exact (hholes v hin.1 hin.2).symm
  · rw [drop_of_not hin]
    exact (h v).2 hin

theorem Fills.below (h : Fills good low high view view') (hbelow : view.Below low) (hle : low ≤ high) :
    view'.Below high := by
  intro v
  by_cases hin : low ≤ v ∧ v < high
  · obtain ⟨page, hpage, -⟩ := (h v).1 hin
    rw [hpage]
    exact iff_of_true (Option.some_ne_none _) hin.2
  · rw [(h v).2 hin, hbelow v]
    omega

theorem Copies.zero {arch : Arch I W P} : Copies arch 0 view (fun _ => none) := by
  intro v
  exact ⟨fun hlt => absurd hlt (Nat.not_lt_zero v), fun _ => rfl⟩

theorem Copies.eq_none_iff {arch : Arch I W P} {bound : Nat} (h : Copies arch bound view view')
    (hv : v < bound) : view' v = none ↔ view v = none := by
  have hmap := (h v).1 hv
  rw [← Option.map_eq_none_iff (f := fun page => (page.flags, page.words)), hmap,
    Option.map_eq_none_iff]

theorem Copies.succ {arch : Arch I W P} {bound mem : Nat} (h : Copies arch bound view view')
    (hpage : view bound = some page) : Copies arch (bound + 1) view
      (Function.update view' bound (some ⟨mem, arch.sealed page.flags, page.words⟩)) := by
  intro v
  by_cases hv : v = bound
  · subst hv
    rw [Function.update_self, hpage]
    exact ⟨fun _ => rfl, fun hle => absurd hle (Nat.not_succ_le_self v)⟩
  · rw [Function.update_of_ne hv]
    exact ⟨fun hlt => (h v).1 (by omega), fun hle => (h v).2 (by omega)⟩

theorem Copies.skip {arch : Arch I W P} {bound : Nat} (h : Copies arch bound view view')
    (hhole : view bound = none) : Copies arch (bound + 1) view view' := by
  intro v
  refine ⟨fun hlt => ?_, fun hle => (h v).2 (by omega)⟩
  by_cases hv : v = bound
  · rw [hv, hhole, (h bound).2 (Nat.le_refl bound)]
    rfl
  · exact (h v).1 (by omega)

theorem Below.eq_none (h : view.Below low) (hv : low ≤ v) : view v = none := by
  by_contra hsome
  exact absurd ((h v).mp hsome) (Nat.not_lt.mpr hv)

def SamePages (view view' : View I W P) : Prop :=
  ∀ v, (view' v).map (fun page => (page.frame, page.flags)) =
    (view v).map fun page => (page.frame, page.flags)

namespace SamePages

theorem refl (view : View I W P) : SamePages view view := fun _ => rfl

theorem trans {view'' : View I W P} (h : SamePages view view') (h' : SamePages view' view'') :
    SamePages view view'' := fun v => (h' v).trans (h v)

theorem store (hpage : view v = some page) (words : I → W) :
    SamePages view (Function.update view v (some { page with words })) := by
  intro w
  by_cases hw : w = v
  · rw [hw, Function.update_self, hpage]
    rfl
  · rw [Function.update_of_ne hw]

theorem eq_none_iff (h : SamePages view view') (v : Nat) : view' v = none ↔ view v = none := by
  rw [← Option.map_eq_none_iff (f := fun page => (page.frame, page.flags)), h v,
    Option.map_eq_none_iff]

theorem below {bound : Nat} (h : SamePages view view') (hbelow : view.Below bound) :
    view'.Below bound := fun v => (not_congr (h.eq_none_iff v)).trans (hbelow v)

theorem «exists» {page' : Page I W P} (h : SamePages view view') (hpage : view' v = some page') :
    ∃ page, view v = some page ∧ page.frame = page'.frame ∧ page.flags = page'.flags := by
  have hmap := h v
  rw [hpage, Option.map_some] at hmap
  obtain ⟨page, hpage', heq⟩ := Option.map_eq_some_iff.mp hmap.symm
  exact ⟨page, hpage', congrArg Prod.fst heq, congrArg Prod.snd heq⟩

end SamePages

def Within (view : View I W P) (bound : Nat) : Prop := ∀ v, view v ≠ none → v < bound

namespace Within

variable {bound : Nat}

theorem eq_none (h : view.Within bound) (hv : bound ≤ v) : view v = none := by
  by_contra hsome
  exact absurd (h v hsome) (Nat.not_lt.mpr hv)

theorem mono {bound' : Nat} (h : view.Within bound) (hle : bound ≤ bound') : view.Within bound' :=
  fun v hsome => Nat.lt_of_lt_of_le (h v hsome) hle

theorem same (h : view.Within bound) (hsame : SamePages view view') : view'.Within bound :=
  fun v hsome => h v (mt (hsame.eq_none_iff v).mpr hsome)

theorem update (h : view.Within bound) (hv : v < bound) (now : Option (Page I W P)) :
    Within (Function.update view v now) bound := by
  intro w hsome
  by_cases hw : w = v
  · exact hw ▸ hv
  · rw [Function.update_of_ne hw] at hsome
    exact h w hsome

theorem fills (h : view.Within low) (hle : low ≤ high) (hfills : Fills good low high view view') :
    view'.Within high := by
  intro v hsome
  by_cases hin : low ≤ v ∧ v < high
  · exact hin.2
  · rw [(hfills v).2 hin] at hsome
    exact Nat.lt_of_lt_of_le (h v hsome) hle

theorem drop (h : view.Within high) : (view.drop low high).Within (min low high) := by
  intro v hsome
  by_cases hin : low ≤ v ∧ v < high
  · exact absurd (drop_of_mem hin) hsome
  · rw [drop_of_not hin] at hsome
    have hlt := h v hsome
    omega

theorem copies {arch : Arch I W P} (hcopies : Copies arch bound view view') : view'.Within bound := by
  intro v hsome
  by_contra hle
  exact hsome ((hcopies v).2 (Nat.not_lt.mp hle))

end Within

theorem Below.copies {arch : Arch I W P} {bound : Nat} (h : view.Below bound)
    (hcopies : Copies arch bound view view') : view'.Below bound := by
  intro v
  by_cases hv : v < bound
  · rw [Ne, hcopies.eq_none_iff hv]
    exact h v
  · rw [(hcopies v).2 (Nat.not_lt.mp hv)]
    exact iff_of_false (not_not_intro rfl) hv

theorem Below.within {bound : Nat} (h : view.Below bound) : view.Within bound := fun v => (h v).mp

theorem Below.drop {low high : Nat} (h : view.Below high) : (view.drop low high).Below (min low high) := by
  intro v
  by_cases hin : low ≤ v ∧ v < high
  · rw [drop_of_mem hin]
    exact iff_of_false (not_not_intro rfl) (by omega)
  · rw [drop_of_not hin, h v]
    omega

end View

/-! ### Mapping -/

section Map

variable {I W P : Type} [DecidableEq I]

/-- The loop of `mappages`, at an address and a page of memory. -/
def mapFrom (arch : Arch I W P) (walk : Nat → Code I W (Option (Nat × I))) (present : W → Bool)
    (message : String) (perm : P) : (count a pa : Nat) → Code I W Int
  | 0, _, _ => pure 0
  | count + 1, a, pa => do
      let pte ← walk a
      pte.elim (pure (-1)) fun pte => do
        let old ← read pte.1 pte.2
        panicIf (present old = true) message
        write pte.1 pte.2 (arch.leaf pa perm)
        mapFrom arch walk present message perm count (a + pgsize) (pa + 1)

variable {arch : Arch I W P} {ram : Ram} {fails : Bool → Prop} {kept : Nat → Prop} {fixed : Nat → W} {tree : arch.Tree}
  {root : Nat} {own : Owned I W} {view : View I W P} {v : Nat}

def Finds (arch : Arch I W P) (ram : Ram) (fails : Bool → Prop) (root v : Nat)
    (walk : Code I W (Option (Nat × I))) : Prop :=
  ∀ {kept fixed own view}, Space arch ram kept fixed root own view →
    walk.wp (rule ram fails) own fun slot own' => ∃ tree, Layout arch ram kept fixed tree root own' view ∧
      ((slot = none ∧ fails true) ∨
        ∃ t, slot = some (t, arch.lower v) ∧ tree.node (arch.upper v) = some t)

theorem mapFrom_one {walk : Nat → Code I W (Option (Nat × I))} {present : W → Bool} {message : String}
    {a mem : Nat} {words : I → W} (hwalk : Finds arch ram fails root v (walk a))
    (hpresent : present arch.zero = false) (h : Space arch ram kept fixed root own view)
    (hv : v < arch.limit) (hnone : view v = none) (hfixed : fixed v = arch.zero) (hmem : own mem = none)
    (hram : ram.Has mem) (perm : P) :
    (mapFrom arch walk present message perm 1 a mem).wp (rule ram fails) (own.set mem words)
      fun result own' =>
        (result = 0 ∧ Space arch ram kept fixed root own'
          (Function.update view v (some ⟨mem, arch.sealed perm, words⟩))) ∨
        (result = -1 ∧ fails true ∧ ∃ old, own' = old.set mem words ∧ old mem = none ∧
          Space arch ram kept fixed root old view) := by
  unfold mapFrom
  rw [Heap.set_eq_union hmem]
  apply Program.wp_seq rule_monotone
    (Program.wp_frame rule_monotone rule_local (Heap.disjoint_single hmem) (hwalk h))
  intro slot heap hheap
  obtain ⟨old, rfl, hdisjoint, tree, htree, hslot⟩ := hheap
  have hmem' : old mem = none := hdisjoint.left_eq_none Heap.set_self
  rw [← Heap.set_eq_union hmem']
  cases hslot with
  | inl hfails =>
      obtain ⟨rfl, hfails⟩ := hfails
      exact Or.inr ⟨rfl, hfails, old, rfl, hmem', tree, htree⟩
  | inr hfound =>
      obtain ⟨t, rfl, hnode⟩ := hfound
      obtain ⟨hwords, hleaf⟩ := htree.slot hnode
      have hne : t ≠ mem := by
        intro heq
        rw [heq, hmem'] at hwords
        cases hwords
      have hzero : tree.leaf (arch.path v) = arch.zero := (htree.hole hv hnone).trans hfixed
      have hown : (old.set mem words) t = some (tree.entry (arch.upper v)) := by
        rw [Heap.set_of_ne hne, hwords]
      simp only [Option.elim_some, Program.wp_bind, wp_read, wp_panicIf, wp_write]
      refine ⟨_, hown, ?_, _, hown, ?_⟩
      · rw [hleaf, hzero, hpresent]
        exact Bool.false_ne_true
      · have hmap := htree.map hnode ⟨mem, arch.sealed perm, words⟩ hv hnone hmem' hram
          (Arch.maps_leaf hram perm)
        exact Or.inl ⟨rfl, hmap⟩

theorem mapFrom_fixed {walk : Nat → Code I W (Option (Nat × I))} {present : W → Bool} {message : String}
    {a : Nat} (hwalk : Finds arch ram fails root v (walk a)) (hpresent : present arch.zero = false)
    (h : Space arch ram kept fixed root own view) (hv : v < arch.limit) (hnone : view v = none)
    (hfixed : fixed v = arch.zero) (pa : Nat) (perm : P) :
    (mapFrom arch walk present message perm 1 a pa).wp (rule ram fails) own fun result own' =>
      (result = 0 ∧
        Space arch ram kept (Function.update fixed v (arch.leaf pa perm)) root own' view) ∨
      (result = -1 ∧ fails true ∧ Space arch ram kept fixed root own' view) := by
  unfold mapFrom
  apply Program.wp_seq rule_monotone (hwalk h)
  intro slot own' hfound
  obtain ⟨tree, htree, hslot⟩ := hfound
  rcases hslot with ⟨rfl, hfails⟩ | ⟨t, rfl, hnode⟩
  · exact Or.inr ⟨rfl, hfails, tree, htree⟩
  · obtain ⟨hwords, hleaf⟩ := htree.slot hnode
    have hzero : tree.leaf (arch.path v) = arch.zero := (htree.hole hv hnone).trans hfixed
    simp only [Option.elim_some, Program.wp_bind, wp_read, wp_panicIf, wp_write]
    refine ⟨_, hwords, ?_, _, hwords, Or.inl ⟨rfl, htree.setFixed hnode hv hnone⟩⟩
    rw [hleaf, hzero, hpresent]
    exact Bool.false_ne_true

theorem mapFrom_succ (arch : Arch I W P) (walk : Nat → Code I W (Option (Nat × I))) (present : W → Bool)
    (message : String) (perm : P) (count a pa : Nat) :
    mapFrom arch walk present message perm (count + 1) a pa =
      mapFrom arch walk present message perm 1 a pa >>= fun mapped =>
        if mapped < 0 then pure mapped
        else mapFrom arch walk present message perm count (a + pgsize) (pa + 1) := by
  have hrest : ∀ a pa, mapFrom arch walk present message perm 0 a pa = pure 0 := fun _ _ => rfl
  rw [mapFrom, mapFrom, bind_assoc]
  congr 1
  funext pte
  cases pte with
  | none => rfl
  | some pte =>
      simp only [Option.elim_some, bind_assoc, hrest]
      rfl

theorem mapFrom_holes {walk : Nat → Code I W (Option (Nat × I))} {present : W → Bool} {message : String}
    {count pa : Nat} (hwalk : ∀ w, Finds arch ram fails root w (walk (w * pgsize)))
    (hpresent : present arch.zero = false) (h : Space arch ram kept fixed root own view)
    (hlimit : v + count ≤ arch.limit)
    (hholes : ∀ w, v ≤ w → w < v + count → view w = none ∧ fixed w = arch.zero) (perm : P) :
    (mapFrom arch walk present message perm count (v * pgsize) pa).wp (rule ram fails) own fun _ own' =>
      ∃ fixed', Space arch ram kept fixed' root own' view ∧
        ∀ w, fixed' w = fixed w ∨ v ≤ w ∧ w < v + count ∧ ∃ p, fixed' w = arch.leaf p perm := by
  induction count generalizing v pa own fixed with
  | zero => exact ⟨fixed, h, fun w => Or.inl rfl⟩
  | succ count ih =>
      obtain ⟨hnone, hfixed⟩ := hholes v (Nat.le_refl v) (by omega)
      rw [mapFrom_succ, Program.wp_bind]
      apply Program.wp_mono rule_monotone _ (mapFrom_fixed (hwalk v) hpresent h (by omega) hnone hfixed pa perm)
      intro mapped own' hmapped
      rcases hmapped with ⟨rfl, hspace⟩ | ⟨rfl, -, hspace⟩
      · rw [if_neg (by decide), ← Nat.succ_mul]
        apply Program.wp_mono rule_monotone _ (ih hspace (by omega) fun w hlow hhigh => ?_)
        · intro _ own'' hrest
          obtain ⟨fixed', hspace', hentries⟩ := hrest
          refine ⟨fixed', hspace', fun w => ?_⟩
          rcases hentries w with hsame | ⟨hlow, hhigh, hleaf⟩
          · by_cases hw : w = v
            · subst hw
              rw [Function.update_self] at hsame
              exact Or.inr ⟨Nat.le_refl w, by omega, pa, hsame⟩
            · rw [Function.update_of_ne hw] at hsame
              exact Or.inl hsame
          · exact Or.inr ⟨by omega, by omega, hleaf⟩
        · rw [Function.update_of_ne (by omega)]
          exact hholes w (by omega) (by omega)
      · rw [if_pos (by decide)]
        exact ⟨fixed, hspace, fun w => Or.inl rfl⟩

theorem Layout.wp_clear {t : Nat} {page : Page I W P} (h : Layout arch ram kept fixed tree root own view)
    (hview : view v = some page) (hnode : tree.node (arch.upper v) = some t)
    (hfixed : fixed v = arch.zero) :
    (kfree ram page.frame >>= fun _ => write t (arch.lower v) arch.zero).wp (rule ram fails) own
      fun _ own' => Space arch ram kept fixed root own' (Function.update view v none) := by
  obtain ⟨hframe, hwords, -⟩ := h.page hview
  have hne : t ≠ page.frame := Layout.ne_table hnode hframe
  rw [Program.wp_bind, wp_kfree (h.ram hwords), wp_write, Heap.erase_of_ne hne]
  exact ⟨⟨_, hwords⟩, _, (h.slot hnode).1, h.unmap hnode hview hfixed⟩

end Map

end Xv6.Vm
