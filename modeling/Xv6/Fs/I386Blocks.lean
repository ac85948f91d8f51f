import Xv6.Fs.I386Inode

/-!
# Which file a block is for

`Layout` says that the blocks that were allocated for an inode are those that its addresses and the words of its
indirect block name, each once. The addresses are an argument: those on disk, or those in memory for the inode that
a function is working on.
-/

namespace Xv6.Fs.I386

variable {n : Nat}

inductive Place where
  | addr (inum : Nat) (k : Fin (ndirect + 1))
  | word (inum : Nat) (j : Fin nindirect)
  deriving DecidableEq

def Place.inum : Place → Nat
  | .addr inum _ | .word inum _ => inum

abbrev Addrs := Nat → Fin (ndirect + 1) → Nat

def State.at (s : State n) (addrs : Addrs) : Place → Nat
  | .addr inum k => addrs inum k
  | .word inum j => if addrs inum indirect = 0 then 0 else s.word (addrs inum indirect) j

structure Layout (s : State n) (addrs : Addrs) : Prop where
  /-- Block 0 is in use, for no inode. -/
  zero : s.bit 0 = true ∧ s.owner 0 = none
  owned : ∀ p, s.at addrs p ≠ 0 → s.owner (s.at addrs p) = some p.inum ∧ s.bit (s.at addrs p) = true
  recorded : ∀ b inum, s.owner b = some inum → ∃ p : Place, p.inum = inum ∧ s.at addrs p = b
  inj : ∀ p p', s.at addrs p = s.at addrs p' → s.at addrs p ≠ 0 → p = p'

namespace Layout

variable {s s' : State n} {addrs addrs' : Addrs}

theorem bit_of_owner (h : Layout s addrs) {b inum : Nat} (howner : s.owner b = some inum) : s.bit b = true := by
  obtain ⟨p, -, rfl⟩ := h.recorded b inum howner
  have hne : s.at addrs p ≠ 0 := by
    intro hzero
    rw [hzero, h.zero.2] at howner
    cases howner
  exact (h.owned p hne).2

theorem at_ne (h : Layout s addrs) {b : Nat} (hfree : s.bit b = false) (p : Place) : s.at addrs p ≠ b := by
  rintro rfl
  by_cases hzero : s.at addrs p = 0
  · rw [hzero, h.zero.1] at hfree
    cases hfree
  · rw [(h.owned p hzero).2] at hfree
    cases hfree

theorem extend (h : Layout s addrs) {p₀ : Place} {b : Nat} (hfree : s.bit b = false)
    (hplace : ∀ p, s'.at addrs' p = if p = p₀ then b else s.at addrs p)
    (hbit : s'.bit = Function.update s.bit b true)
    (howner : s'.owner = Function.update s.owner b (some p₀.inum)) (hempty : s.at addrs p₀ = 0) : Layout s' addrs' := by
  have hb : b ≠ 0 := by
    rintro rfl
    rw [h.zero.1] at hfree
    cases hfree
  constructor
  case zero =>
    rw [hbit, howner, Function.update_of_ne hb.symm, Function.update_of_ne hb.symm]
    exact h.zero
  case owned =>
    intro p hp
    rw [hplace] at hp ⊢
    rw [hbit, howner]
    split at hp
    · next heq =>
      rw [if_pos heq, heq, Function.update_self, Function.update_self]
      exact ⟨rfl, rfl⟩
    · next hne =>
      have hother := h.at_ne hfree p
      rw [if_neg hne, Function.update_of_ne hother, Function.update_of_ne hother]
      exact h.owned p hp
  case recorded =>
    intro c inum hc
    rw [howner] at hc
    by_cases heq : c = b
    · rw [heq, Function.update_self] at hc
      refine ⟨p₀, Option.some.inj hc, ?_⟩
      rw [hplace, if_pos rfl, heq]
    · rw [Function.update_of_ne heq] at hc
      obtain ⟨p, hp, rfl⟩ := h.recorded c inum hc
      refine ⟨p, hp, ?_⟩
      rw [hplace, if_neg]
      rintro rfl
      rw [hempty, h.zero.2] at hc
      cases hc
  case inj =>
    intro p p' heq hne
    rw [hplace, hplace] at heq
    rw [hplace] at hne
    split at heq
    · next hp =>
      split at heq
      · next hp' => rw [hp, hp']
      · next hp' => exact absurd heq.symm (h.at_ne hfree p')
    · next hp =>
      rw [if_neg hp] at hne
      split at heq
      · exact absurd heq (h.at_ne hfree p)
      · exact h.inj p p' heq hne

theorem congr (h : Layout s addrs) (hplace : ∀ p, s'.at addrs' p = s.at addrs p) (hbit : s'.bit = s.bit)
    (howner : s'.owner = s.owner) : Layout s' addrs' := by
  constructor
  case zero =>
    rw [hbit, howner]
    exact h.zero
  case owned =>
    intro p hp
    rw [hplace] at hp ⊢
    rw [hbit, howner]
    exact h.owned p hp
  case recorded =>
    intro b inum hb
    rw [howner] at hb
    obtain ⟨p, hp, heq⟩ := h.recorded b inum hb
    exact ⟨p, hp, by rw [hplace, heq]⟩
  case inj =>
    intro p p' heq hne
    rw [hplace] at heq hne
    rw [hplace] at heq
    exact h.inj p p' heq hne

theorem data (h : Layout s addrs) {p : Place} (hp : ∀ inum, p ≠ .addr inum indirect) (hne : s.at addrs p ≠ 0)
    (words : Nat → Nat) : Layout { s with word := Function.update s.word (s.at addrs p) words } addrs := by
  refine h.congr ?_ rfl rfl
  intro q
  cases q with
  | addr inum k => rfl
  | word inum j =>
      have hother : addrs inum indirect ≠ s.at addrs p := by
        intro heq
        exact hp inum (h.inj p (.addr inum indirect) heq.symm hne)
      unfold State.at at hother ⊢
      dsimp only
      rw [Function.update_of_ne hother]

theorem clear (h : Layout s addrs) {inum : Nat}
    (hplace : ∀ p, s'.at addrs' p = if p.inum = inum then 0 else s.at addrs p)
    (hfreed : ∀ b, s.owner b = some inum → s'.owner b = none)
    (hkept : ∀ b, s.owner b ≠ some inum → s'.bit b = s.bit b ∧ s'.owner b = s.owner b) : Layout s' addrs' := by
  have hzero : s.owner 0 ≠ some inum := by
    rw [h.zero.2]
    exact (Option.some_ne_none inum).symm
  constructor
  case zero =>
    rw [(hkept 0 hzero).1, (hkept 0 hzero).2]
    exact h.zero
  case owned =>
    intro p hp
    rw [hplace] at hp ⊢
    split at hp
    · exact absurd rfl hp
    · next hne =>
      rw [if_neg hne]
      have hold := h.owned p hp
      have hother : s.owner (s.at addrs p) ≠ some inum := by
        rw [hold.1]
        exact fun heq => hne (Option.some.inj heq)
      rw [(hkept _ hother).1, (hkept _ hother).2]
      exact hold
  case recorded =>
    intro b inum' hb
    by_cases howner : s.owner b = some inum
    · rw [hfreed b howner] at hb
      cases hb
    · rw [(hkept b howner).2] at hb
      obtain ⟨p, hp, rfl⟩ := h.recorded b inum' hb
      refine ⟨p, hp, ?_⟩
      rw [hplace, if_neg]
      intro heq
      rw [← hp, heq] at hb
      exact howner hb
  case inj =>
    intro p p' heq hne
    rw [hplace] at heq hne
    split at heq
    · next hp => exact absurd (if_pos hp) hne
    · next hp =>
      rw [if_neg hp] at hne
      rw [hplace] at heq
      split at heq
      · exact absurd heq hne
      · exact h.inj p p' heq hne

end Layout

/-! ### Allocation -/

namespace State

variable {s s' : State n}

theorem balloc_eq_some {size inum b : Nat} (halloc : s.balloc size inum = some (b, s')) :
    s.bit b = false ∧ s' = { s with
      bit := Function.update s.bit b true
      word := Function.update s.word b fun _ => 0
      owner := Function.update s.owner b (some inum) } := by
  obtain ⟨b', hfind, heq⟩ := Option.map_eq_some_iff.mp halloc
  obtain ⟨rfl, rfl⟩ := Prod.mk.inj heq
  have hbit := List.find?_some hfind
  exact ⟨by simpa using hbit, rfl⟩

theorem bfree_eq_some {b : Nat} (hfree : s.bfree b = some s') :
    s' = { s with bit := Function.update s.bit b false, owner := Function.update s.owner b none } := by
  unfold bfree at hfree
  split at hfree
  · cases hfree
  · exact (Option.some.inj hfree).symm

@[simp]
theorem setInode_self (s : State n) (i : Fin n) (ip : Inode) : (s.setInode i ip).inode i = ip :=
  Function.update_self ..

theorem setInode_of_ne (s : State n) {i j : Fin n} (ip : Inode) (hne : j ≠ i) : (s.setInode i ip).inode j = s.inode j :=
  Function.update_of_ne hne ..

end State

def State.onDisk (s : State n) : Addrs := fun inum => (s.dinode inum).addrs

def State.inMemory (s : State n) (i : Fin n) : Addrs :=
  Function.update s.onDisk (s.inode i).inum (s.inode i).addrs

variable {s s' : State n} {addrs : Addrs}

theorem at_setAddr (hlayout : Layout s addrs) {inum b : Nat} {k : Fin (ndirect + 1)} (hfree : s.bit b = false)
    (hword : s'.word = Function.update s.word b fun _ => 0) (hempty : addrs inum k = 0) (p : Place) :
    s'.at (Function.update addrs inum (Function.update (addrs inum) k b)) p =
      if p = .addr inum k then b else s.at addrs p := by
  cases p with
  | addr inum' k' =>
      unfold State.at
      dsimp only
      by_cases hinum : inum' = inum
      · subst hinum
        rw [Function.update_self]
        by_cases hk : k' = k
        · rw [hk, Function.update_self, if_pos rfl]
        · rw [Function.update_of_ne hk, if_neg (fun heq => hk (Place.addr.inj heq).2)]
      · rw [Function.update_of_ne hinum, if_neg (fun heq => hinum (Place.addr.inj heq).1)]
  | word inum' j =>
      rw [if_neg (by simp)]
      have hother : addrs inum' indirect ≠ b := hlayout.at_ne hfree (.addr inum' indirect)
      unfold State.at
      dsimp only
      by_cases hnew : inum' = inum ∧ indirect = k
      · obtain ⟨rfl, rfl⟩ := hnew
        rw [Function.update_self, Function.update_self, hempty, if_pos rfl, hword, Function.update_self, ite_self]
      · have hsame : Function.update addrs inum (Function.update (addrs inum) k b) inum' indirect =
            addrs inum' indirect := by
          by_cases hinum : inum' = inum
          · subst hinum
            rw [Function.update_self, Function.update_of_ne (fun hk => hnew ⟨rfl, hk⟩)]
          · rw [Function.update_of_ne hinum]
        rw [hsame, hword, Function.update_of_ne hother]

theorem at_setWord (hlayout : Layout s addrs) {inum b : Nat} {j : Fin nindirect} (hfree : s.bit b = false)
    (hindirect : addrs inum indirect ≠ 0)
    (hword : s'.word = Function.update (Function.update s.word b fun _ => 0) (addrs inum indirect)
      (Function.update (s.word (addrs inum indirect)) j b)) (p : Place) :
    s'.at addrs p = if p = .word inum j then b else s.at addrs p := by
  have hnew : ∀ inum', addrs inum' indirect ≠ b := fun inum' => hlayout.at_ne hfree (.addr inum' indirect)
  cases p with
  | addr inum' k => rw [if_neg (by simp)]; rfl
  | word inum' j' =>
      unfold State.at
      dsimp only
      rw [hword]
      by_cases hinum : inum' = inum
      · subst hinum
        rw [if_neg hindirect, if_neg hindirect, Function.update_self]
        by_cases hj : j' = j
        · rw [hj, Function.update_self, if_pos rfl]
        · have hval : (j' : Nat) ≠ j := fun heq => hj (Fin.ext heq)
          rw [Function.update_of_ne hval, if_neg (fun heq => hj (Place.word.inj heq).2)]
      · rw [if_neg (fun heq : Place.word inum' j' = .word inum j => hinum (Place.word.inj heq).1)]
        split
        · rfl
        · next hne =>
          have hother : addrs inum' indirect ≠ addrs inum indirect := by
            intro heq
            have hplace := hlayout.inj (.addr inum' indirect) (.addr inum indirect) heq hne
            exact hinum (Place.addr.inj hplace).1
          rw [Function.update_of_ne hother, Function.update_of_ne (hnew inum')]

structure Worked (s s' : State n) (i : Fin n) : Prop where
  layout : Layout s' (s'.inMemory i)
  inode : ∃ addrs, s'.inode = Function.update s.inode i { s.inode i with addrs }
  dinode : s'.dinode = s.dinode

theorem Worked.refl {i : Fin n} (hlayout : Layout s (s.inMemory i)) : Worked s s i :=
  ⟨hlayout, ⟨(s.inode i).addrs, (Function.update_eq_self i s.inode).symm⟩, rfl⟩

theorem Worked.trans {s'' : State n} {i : Fin n} (h : Worked s s' i) (h' : Worked s' s'' i) : Worked s s'' i := by
  obtain ⟨addrs, hinode⟩ := h.inode
  obtain ⟨addrs', hinode'⟩ := h'.inode
  refine ⟨h'.layout, ⟨addrs', ?_⟩, h'.dinode.trans h.dinode⟩
  rw [hinode', hinode, Function.update_self, Function.update_idem]

theorem listed_layout {size : Nat} {i : Fin n} {k : Fin (ndirect + 1)} {addr : Nat} (hlayout : Layout s (s.inMemory i))
    (hlisted : s.listed size i k = some (addr, s')) :
    Worked s s' i ∧ addr ≠ 0 ∧ (s'.inode i).addrs k = addr ∧ ((s.inode i).addrs k ≠ 0 → s' = s) := by
  unfold State.listed at hlisted
  split at hlisted
  case isFalse hne =>
    obtain ⟨rfl, rfl⟩ := Prod.mk.inj (Option.some.inj hlisted)
    exact ⟨.refl hlayout, hne, rfl, fun _ => rfl⟩
  case isTrue hempty =>
    obtain ⟨result, halloc, heq⟩ := Option.map_eq_some_iff.mp hlisted
    obtain ⟨rfl, rfl⟩ := Prod.mk.inj heq
    obtain ⟨hfree, hresult⟩ := State.balloc_eq_some halloc
    have hinode : result.2.inode = s.inode := by rw [hresult]
    have hnew : (result.2.setAddr i k result.1).inMemory i = Function.update (s.inMemory i) (s.inode i).inum
        (Function.update (s.inMemory i (s.inode i).inum) k result.1) := by
      unfold State.inMemory State.setAddr State.onDisk
      rw [State.setInode_self, hinode, Function.update_self, Function.update_idem]
      have hdinode : (result.2.setInode i { s.inode i with
          addrs := Function.update (s.inode i).addrs k result.1 }).dinode = s.dinode := by rw [hresult]; rfl
      rw [hdinode]
    have hmem : s.inMemory i (s.inode i).inum = (s.inode i).addrs := Function.update_self ..
    refine ⟨⟨?_, ⟨Function.update (s.inode i).addrs k result.1, ?_⟩, ?_⟩, ?_, ?_, fun hne => absurd hempty hne⟩
    · rw [hnew]
      refine @Layout.extend n s _ _ _ hlayout (.addr (s.inode i).inum k) result.1 hfree ?_ ?_ ?_ ?_
      · intro p
        refine at_setAddr hlayout hfree ?_ ?_ p
        · change result.2.word = _
          rw [hresult]
        · rw [hmem, hempty]
      · change result.2.bit = _
        rw [hresult]
      · change result.2.owner = _
        rw [hresult]
        rfl
      · change s.inMemory i (s.inode i).inum k = 0
        rw [hmem, hempty]
    · unfold State.setAddr State.setInode
      dsimp only
      rw [hinode]
    · change result.2.dinode = _
      rw [hresult]
    · intro hzero
      rw [hzero, hlayout.zero.1] at hfree
      cases hfree
    · unfold State.setAddr
      rw [State.setInode_self]
      dsimp only
      rw [Function.update_self]

end Xv6.Fs.I386
