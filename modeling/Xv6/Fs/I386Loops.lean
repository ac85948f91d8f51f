import Xv6.Fs.I386Blocks

/-!
# What the loops over the blocks of a file do

`bmap` puts the address of a block that it allocates in the indirect block, where it is on disk at once, or among the
addresses of the inode, where it is in memory only. `Hole` is when it does the second; the loops of `readi` and
`writei` leave the inode alone when no block that they come to is one.
-/

namespace Xv6.Fs.I386

variable {n size : Nat} {s s' : State n} {i : Fin n}

def Hole (ip : Inode) (bn : Nat) : Prop :=
  if bn < ndirect then ip.addrs (State.direct bn) = 0 else ip.addrs indirect = 0

instance (ip : Inode) (bn : Nat) : Decidable (Hole ip bn) := inferInstanceAs (Decidable (ite ..))

theorem direct_ne_indirect {bn : Nat} (hbn : bn < ndirect) : State.direct bn ≠ indirect := by
  intro heq
  have hval : bn % (ndirect + 1) = ndirect := congrArg Fin.val heq
  rw [Nat.mod_eq_of_lt (by omega)] at hval
  omega

theorem bmap_worked {bn b : Nat} (hlayout : Layout s (s.inMemory i)) (hbmap : s.bmap size i bn = some (b, s')) :
    Worked s s' i ∧ (∃ p, (∀ inum, p ≠ .addr inum indirect) ∧ s'.at (s'.inMemory i) p = b) ∧ b ≠ 0 ∧
      (¬ Hole (s.inode i) bn → s'.inode = s.inode) := by
  unfold State.bmap at hbmap
  split at hbmap
  · next hbn =>
    obtain ⟨hworked, hne, haddr, hsame⟩ := listed_layout hlayout hbmap
    refine ⟨hworked, ⟨.addr (s'.inode i).inum (State.direct bn), ?_, ?_⟩, hne, ?_⟩
    · intro inum heq
      exact direct_ne_indirect hbn (Place.addr.inj heq).2
    · unfold State.at State.inMemory
      dsimp only
      rw [Function.update_self, haddr]
    · intro hhole
      unfold Hole at hhole
      rw [if_pos hbn] at hhole
      rw [hsame hhole]
  · next hbn =>
    split at hbmap
    · next hin =>
      obtain ⟨bp, hbp, hbmap⟩ := Option.bind_eq_some_iff.mp hbmap
      obtain ⟨hworked, hne, haddr, hsame⟩ := listed_layout hlayout hbp
      have hinode : ¬ Hole (s.inode i) bn → bp.2.inode = s.inode := by
        intro hhole
        unfold Hole at hhole
        rw [if_neg hbn] at hhole
        rw [hsame hhole]
      have haddrs : bp.2.inMemory i (bp.2.inode i).inum indirect = bp.1 := by
        unfold State.inMemory
        rw [Function.update_self, haddr]
      split at hbmap
      · next hword =>
        obtain ⟨result, halloc, heq⟩ := Option.map_eq_some_iff.mp hbmap
        obtain ⟨rfl, rfl⟩ := Prod.mk.inj heq
        obtain ⟨hfree, hresult⟩ := State.balloc_eq_some halloc
        have hbitmap : bp.1 ≠ result.1 := by
          rw [← haddrs]
          exact hworked.layout.at_ne hfree (.addr (bp.2.inode i).inum indirect)
        have hold : bp.2.at (bp.2.inMemory i) (.word (bp.2.inode i).inum ⟨bn - ndirect, hin⟩) = 0 := by
          unfold State.at
          dsimp only
          rw [haddrs, if_neg hne, hword]
        have hmem : (result.2.setWord bp.1 (bn - ndirect) result.1).inMemory i = bp.2.inMemory i := by
          rw [hresult]
          rfl
        have hwords : (result.2.setWord bp.1 (bn - ndirect) result.1).word =
            Function.update (Function.update bp.2.word result.1 fun _ => 0) bp.1
              (Function.update (bp.2.word bp.1) (bn - ndirect) result.1) := by
          unfold State.setWord
          rw [hresult]
          dsimp only
          rw [Function.update_of_ne hbitmap]
        have hplace : ∀ p, (result.2.setWord bp.1 (bn - ndirect) result.1).at (bp.2.inMemory i) p =
            if p = .word (bp.2.inode i).inum ⟨bn - ndirect, hin⟩ then result.1
            else bp.2.at (bp.2.inMemory i) p := by
          intro p
          refine at_setWord hworked.layout hfree ?_ ?_ p
          · rw [haddrs]
            exact hne
          · rw [haddrs]
            exact hwords
        have hnew : Worked bp.2 (result.2.setWord bp.1 (bn - ndirect) result.1) i := by
          refine ⟨?_, ⟨(bp.2.inode i).addrs, ?_⟩, ?_⟩
          · rw [hmem]
            exact hworked.layout.extend hfree hplace (by rw [hresult]; rfl) (by rw [hresult]; rfl) hold
          · rw [Function.update_eq_self, hresult]
            rfl
          · rw [hresult]
            rfl
        refine ⟨hworked.trans hnew, ⟨.word (bp.2.inode i).inum ⟨bn - ndirect, hin⟩, ?_, ?_⟩, ?_, ?_⟩
        · intro inum heq
          cases heq
        · rw [hmem, hplace, if_pos rfl]
        · intro hzero
          rw [hzero, hworked.layout.zero.1] at hfree
          cases hfree
        · intro hhole
          rw [← hinode hhole, hresult]
          rfl
      · next hword =>
        obtain ⟨rfl, rfl⟩ := Prod.mk.inj (Option.some.inj hbmap)
        refine ⟨hworked, ⟨.word (bp.2.inode i).inum ⟨bn - ndirect, hin⟩, ?_, ?_⟩, hword, hinode⟩
        · intro inum heq
          cases heq
        · unfold State.at
          dsimp only
          rw [haddrs, if_neg hne]
    · cases hbmap

/-! ### The loops -/

def visited (ok : Nat → Bool) (count : Nat) : (rounds k off tot : Nat) → List Nat
  | 0, _, _, _ => []
  | rounds + 1, k, off, tot =>
      if tot < count then
        off / bsize :: if ok k = false then [] else
          visited ok count rounds (k + 1) (off + State.chunk count off tot) (tot + State.chunk count off tot)
      else []

/-- The offset that the loop of `writei` gets to. -/
def reached (ok : Nat → Bool) (count : Nat) : (rounds k off tot : Nat) → Nat
  | 0, _, off, _ => off
  | rounds + 1, k, off, tot =>
      if tot < count then
        if ok k = false then off else
          reached ok count rounds (k + 1) (off + State.chunk count off tot) (tot + State.chunk count off tot)
      else off

theorem chunk_pos {count off tot : Nat} (htot : tot < count) : 0 < State.chunk count off tot := by
  have hmod : off % bsize < bsize := Nat.mod_lt _ (by unfold bsize; omega)
  unfold State.chunk
  omega

theorem reached_of_le {ok : Nat → Bool} {count rounds k off tot : Nat} (hle : count ≤ tot) :
    reached ok count rounds k off tot = off := by
  cases rounds with
  | zero => rfl
  | succ rounds =>
      unfold reached
      rw [if_neg (by omega)]

theorem readiFrom_rounds {copyout : Nat → Bool} {count rounds k off tot : Nat} (hle : count ≤ tot + rounds) :
    State.readiFrom size copyout i count (rounds + 1) k off tot s =
      State.readiFrom size copyout i count rounds k off tot s := by
  induction rounds generalizing k off tot s with
  | zero =>
      unfold State.readiFrom
      rw [if_neg (by omega)]
  | succ rounds ih =>
      rw [State.readiFrom, State.readiFrom.eq_2]
      by_cases htot : tot < count
      · rw [if_pos htot, if_pos htot]
        refine congrArg _ (funext fun mapped => ?_)
        have hpos : 0 < State.chunk count off tot := chunk_pos htot
        rw [ih (by omega)]
      · rw [if_neg htot, if_neg htot]

theorem writeiFrom_rounds {copyin : Nat → (Nat → Nat) × Bool} {count rounds k off tot : Nat}
    (hle : count ≤ tot + rounds) :
    State.writeiFrom size copyin i count (rounds + 1) k off tot s =
      State.writeiFrom size copyin i count rounds k off tot s := by
  induction rounds generalizing k off tot s with
  | zero =>
      unfold State.writeiFrom
      rw [if_neg (by omega)]
  | succ rounds ih =>
      rw [State.writeiFrom, State.writeiFrom.eq_2]
      by_cases htot : tot < count
      · rw [if_pos htot, if_pos htot]
        refine congrArg _ (funext fun mapped => ?_)
        have hpos : 0 < State.chunk count off tot := chunk_pos htot
        dsimp only
        rw [ih (by omega)]
      · rw [if_neg htot, if_neg htot]

theorem readiFrom_worked {copyout : Nat → Bool} {count rounds k off tot : Nat} (hlayout : Layout s (s.inMemory i))
    (hread : State.readiFrom size copyout i count rounds k off tot s = some s') :
    Worked s s' i ∧ ((∀ bn ∈ visited copyout count rounds k off tot, ¬ Hole (s.inode i) bn) → s'.inode = s.inode) := by
  induction rounds generalizing k off tot s with
  | zero =>
      cases hread
      exact ⟨.refl hlayout, fun _ => rfl⟩
  | succ rounds ih =>
      unfold State.readiFrom at hread
      unfold visited
      split at hread
      · next htot =>
        rw [if_pos htot]
        obtain ⟨mapped, hbmap, hread⟩ := Option.bind_eq_some_iff.mp hread
        obtain ⟨hworked, -, -, hsame⟩ := bmap_worked hlayout hbmap
        split at hread
        · next hok =>
          cases hread
          rw [if_pos hok]
          exact ⟨hworked, fun hholes => hsame (hholes _ List.mem_cons_self)⟩
        · next hok =>
          rw [if_neg hok]
          obtain ⟨hrest, hkept⟩ := ih hworked.layout hread
          refine ⟨hworked.trans hrest, ?_⟩
          intro hholes
          have hinode := hsame (hholes _ List.mem_cons_self)
          rw [hinode] at hkept
          exact hkept fun bn hbn => hholes bn (List.mem_cons_of_mem _ hbn)
      · next htot =>
        cases hread
        exact ⟨.refl hlayout, fun _ => rfl⟩

theorem writeiFrom_worked {copyin : Nat → (Nat → Nat) × Bool} {count rounds k off tot off' : Nat}
    (hlayout : Layout s (s.inMemory i))
    (hwrite : State.writeiFrom size copyin i count rounds k off tot s = some (off', s')) :
    off' = reached (fun k => (copyin k).2) count rounds k off tot ∧ Worked s s' i ∧
      ((∀ bn ∈ visited (fun k => (copyin k).2) count rounds k off tot, ¬ Hole (s.inode i) bn) →
        s'.inode = s.inode) := by
  induction rounds generalizing k off tot s with
  | zero =>
      cases hwrite
      exact ⟨rfl, .refl hlayout, fun _ => rfl⟩
  | succ rounds ih =>
      unfold State.writeiFrom at hwrite
      unfold visited reached
      split at hwrite
      · next htot =>
        rw [if_pos htot, if_pos htot]
        obtain ⟨mapped, hbmap, hwrite⟩ := Option.bind_eq_some_iff.mp hwrite
        obtain ⟨hmapped, ⟨p, hp, hat⟩, hne, hsame⟩ := bmap_worked hlayout hbmap
        have hdata : Worked s { mapped.2 with word := Function.update mapped.2.word mapped.1 (copyin k).1 } i := by
          refine ⟨?_, hmapped.inode, hmapped.dinode⟩
          have hkept := hmapped.layout.data hp (by rw [hat]; exact hne) (copyin k).1
          rw [hat] at hkept
          exact hkept
        dsimp only at hwrite
        split at hwrite
        · next hok =>
          obtain ⟨rfl, rfl⟩ := Prod.mk.inj (Option.some.inj hwrite)
          rw [if_pos hok, if_pos hok]
          exact ⟨rfl, hdata, fun hholes => hsame (hholes _ List.mem_cons_self)⟩
        · next hok =>
          rw [if_neg hok, if_neg hok]
          obtain ⟨hoff, hrest, hkept⟩ := ih hdata.layout hwrite
          refine ⟨hoff, hdata.trans hrest, ?_⟩
          intro hholes
          have hinode : mapped.2.inode = s.inode := hsame (hholes _ List.mem_cons_self)
          dsimp only at hkept
          rw [hinode] at hkept
          exact hkept fun bn hbn => hholes bn (List.mem_cons_of_mem _ hbn)
      · next htot =>
        obtain ⟨rfl, rfl⟩ := Prod.mk.inj (Option.some.inj hwrite)
        rw [if_neg htot, if_neg htot]
        exact ⟨rfl, .refl hlayout, fun _ => rfl⟩

/-! ### `itrunc` -/

structure Freed (s s' : State n) (blocks : Nat → Prop) : Prop where
  freed : ∀ b, blocks b → s'.bit b = false ∧ s'.owner b = none
  kept : ∀ b, ¬ blocks b → s'.bit b = s.bit b ∧ s'.owner b = s.owner b
  word : s'.word = s.word
  dinode : s'.dinode = s.dinode

namespace Freed

theorem trans {s'' : State n} {blocks blocks' : Nat → Prop} (h : Freed s s' blocks) (h' : Freed s' s'' blocks') :
    Freed s s'' fun b => blocks b ∨ blocks' b := by
  refine ⟨?_, ?_, h'.word.trans h.word, h'.dinode.trans h.dinode⟩
  · intro b hb
    by_cases hb' : blocks' b
    · exact h'.freed b hb'
    · rw [(h'.kept b hb').1, (h'.kept b hb').2]
      exact h.freed b (hb.resolve_right hb')
  · intro b hb
    rw [(h'.kept b fun hb' => hb (.inr hb')).1, (h'.kept b fun hb' => hb (.inr hb')).2]
    exact h.kept b fun hb' => hb (.inl hb')

theorem congr {blocks blocks' : Nat → Prop} (h : Freed s s' blocks) (hiff : ∀ b, blocks b ↔ blocks' b) :
    Freed s s' blocks' :=
  ⟨fun b hb => h.freed b ((hiff b).mpr hb), fun b hb => h.kept b fun hb' => hb ((hiff b).mp hb'), h.word, h.dinode⟩

theorem nothing (s : State n) : Freed s s (fun _ => False) :=
  ⟨fun _ hb => hb.elim, fun _ _ => ⟨rfl, rfl⟩, rfl, rfl⟩

end Freed

theorem bfree_freed {b : Nat} (hfree : s.bfree b = some s') : Freed s s' (· = b) ∧ s'.inode = s.inode := by
  rw [State.bfree_eq_some hfree]
  refine ⟨⟨?_, ?_, rfl, rfl⟩, rfl⟩
  · rintro b rfl
    exact ⟨Function.update_self .., Function.update_self ..⟩
  · intro c hc
    exact ⟨Function.update_of_ne hc .., Function.update_of_ne hc ..⟩

theorem cleared_cons (addrs : Fin (ndirect + 1) → Nat) (k : Fin (ndirect + 1)) (rest : List (Fin (ndirect + 1))) :
    (fun k' => if k' ∈ rest then 0 else Function.update addrs k 0 k') =
      fun k' => if k' ∈ k :: rest then 0 else addrs k' := by
  funext k'
  by_cases hk' : k' = k
  · subst hk'
    simp
  · simp [hk']

theorem itruncDirect_freed {ks : List (Fin (ndirect + 1))} (htrunc : State.itruncDirect i ks s = some s') :
    Freed s s' (fun b => b ≠ 0 ∧ ∃ k ∈ ks, (s.inode i).addrs k = b) ∧
      s'.inode = Function.update s.inode i
        { s.inode i with addrs := fun k => if k ∈ ks then 0 else (s.inode i).addrs k } := by
  induction ks generalizing s with
  | nil =>
      cases htrunc
      refine ⟨(Freed.nothing _).congr fun b => by simp, ?_⟩
      simp
  | cons k rest ih =>
      unfold State.itruncDirect at htrunc
      split at htrunc
      · next hzero =>
        obtain ⟨hfreed, hinode⟩ := ih htrunc
        refine ⟨hfreed.congr ?_, ?_⟩
        · intro b
          constructor
          · rintro ⟨hb, k', hk', heq⟩
            exact ⟨hb, k', List.mem_cons_of_mem _ hk', heq⟩
          · rintro ⟨hb, k', hk', heq⟩
            obtain rfl | hk' := List.mem_cons.mp hk'
            · exact absurd (heq.symm.trans hzero) hb
            · exact ⟨hb, k', hk', heq⟩
        · have hself : Function.update (s.inode i).addrs k 0 = (s.inode i).addrs := by
            rw [← hzero, Function.update_eq_self]
          rw [hinode, ← cleared_cons, hself]
      · next hne =>
        obtain ⟨next, hfree, htrunc⟩ := Option.bind_eq_some_iff.mp htrunc
        obtain ⟨hfirst, hsame⟩ := bfree_freed hfree
        have hset : Freed s (next.setAddr i k 0) (· = (s.inode i).addrs k) :=
          ⟨hfirst.freed, hfirst.kept, hfirst.word, hfirst.dinode⟩
        have haddrs : ((next.setAddr i k 0).inode i) =
            { s.inode i with addrs := Function.update (s.inode i).addrs k 0 } := by
          unfold State.setAddr
          rw [State.setInode_self, hsame]
        obtain ⟨hfreed, hinode⟩ := ih htrunc
        refine ⟨(hset.trans hfreed).congr ?_, ?_⟩
        · intro b
          rw [haddrs]
          dsimp only
          constructor
          · rintro (rfl | ⟨hb, k', hk', heq⟩)
            · exact ⟨hne, k, List.mem_cons_self, rfl⟩
            · by_cases hkk : k' = k
              · rw [hkk, Function.update_self] at heq
                exact absurd heq.symm hb
              · rw [Function.update_of_ne hkk] at heq
                exact ⟨hb, k', List.mem_cons_of_mem _ hk', heq⟩
          · rintro ⟨hb, k', hk', heq⟩
            by_cases hkk : k' = k
            · exact .inl (hkk ▸ heq.symm)
            · refine .inr ⟨hb, k', (List.mem_cons.mp hk').resolve_left hkk, ?_⟩
              rw [Function.update_of_ne hkk, heq]
        · rw [hinode, haddrs]
          unfold State.setAddr State.setInode
          dsimp only
          rw [hsame, Function.update_idem, cleared_cons]

theorem itruncIndirect_freed {bp : Nat} {js : List Nat} (htrunc : State.itruncIndirect bp js s = some s') :
    Freed s s' (fun b => b ≠ 0 ∧ ∃ j ∈ js, s.word bp j = b) ∧ s'.inode = s.inode := by
  induction js generalizing s with
  | nil =>
      cases htrunc
      exact ⟨(Freed.nothing _).congr fun b => by simp, rfl⟩
  | cons j rest ih =>
      unfold State.itruncIndirect at htrunc
      split at htrunc
      · next hzero =>
        obtain ⟨hfreed, hinode⟩ := ih htrunc
        refine ⟨hfreed.congr ?_, hinode⟩
        intro b
        constructor
        · rintro ⟨hb, j', hj', heq⟩
          exact ⟨hb, j', List.mem_cons_of_mem _ hj', heq⟩
        · rintro ⟨hb, j', hj', heq⟩
          obtain rfl | hj' := List.mem_cons.mp hj'
          · exact absurd (heq.symm.trans hzero) hb
          · exact ⟨hb, j', hj', heq⟩
      · next hne =>
        obtain ⟨next, hfree, htrunc⟩ := Option.bind_eq_some_iff.mp htrunc
        obtain ⟨hfirst, hsame⟩ := bfree_freed hfree
        obtain ⟨hfreed, hinode⟩ := ih htrunc
        refine ⟨(hfirst.trans hfreed).congr ?_, hinode.trans hsame⟩
        intro b
        rw [hfirst.word]
        constructor
        · rintro (rfl | ⟨hb, j', hj', heq⟩)
          · exact ⟨hne, j, List.mem_cons_self, rfl⟩
          · exact ⟨hb, j', List.mem_cons_of_mem _ hj', heq⟩
        · rintro ⟨hb, j', hj', heq⟩
          obtain rfl | hj' := List.mem_cons.mp hj'
          · exact .inl heq.symm
          · exact .inr ⟨hb, j', hj', heq⟩

theorem mem_direct (k : Fin (ndirect + 1)) : k ∈ (List.range ndirect).map State.direct ↔ k ≠ indirect := by
  rw [List.mem_map]
  constructor
  · rintro ⟨bn, hbn, rfl⟩
    exact direct_ne_indirect (List.mem_range.mp hbn)
  · intro hne
    have hlt : (k : Nat) < ndirect := by
      have hval : (k : Nat) ≠ ndirect := fun heq => hne (Fin.ext heq)
      omega
    refine ⟨k, List.mem_range.mpr hlt, Fin.ext ?_⟩
    exact Nat.mod_eq_of_lt k.isLt

def Listed (s : State n) (bp b : Nat) : Prop :=
  b ≠ 0 ∧ (bp = b ∨ bp ≠ 0 ∧ ∃ j ∈ List.range nindirect, s.word bp j = b)

theorem itruncListed_freed (htrunc : s.itruncListed i = some s') :
    Freed s s' (Listed s ((s.inode i).addrs indirect)) ∧
      s'.inode = Function.update s.inode i
        { s.inode i with addrs := Function.update (s.inode i).addrs indirect 0 } := by
  unfold State.itruncListed at htrunc
  split at htrunc
  · next hzero =>
    cases htrunc
    refine ⟨(Freed.nothing s).congr ?_, ?_⟩
    · intro b
      constructor
      · exact False.elim
      · rintro ⟨hb, heq | ⟨hne, -⟩⟩
        · exact hb (heq.symm.trans hzero)
        · exact hne hzero
    · rw [← hzero, Function.update_eq_self, Function.update_eq_self]
  · next hne =>
    obtain ⟨words, hwords, htrunc⟩ := Option.bind_eq_some_iff.mp htrunc
    obtain ⟨last, hlast, rfl⟩ := Option.map_eq_some_iff.mp htrunc
    obtain ⟨hwordsFreed, hwordsInode⟩ := itruncIndirect_freed hwords
    obtain ⟨hlastFreed, hlastInode⟩ := bfree_freed hlast
    rw [hwordsInode] at hlastFreed
    have hall := hwordsFreed.trans hlastFreed
    refine ⟨⟨?_, ?_, hall.word, hall.dinode⟩, ?_⟩
    · rintro b ⟨hb, heq | ⟨-, hj⟩⟩
      · exact hall.freed b (.inr heq.symm)
      · exact hall.freed b (.inl ⟨hb, hj⟩)
    · intro b hb
      refine hall.kept b ?_
      rintro (⟨hb', hj⟩ | rfl)
      · exact hb ⟨hb', .inr ⟨hne, hj⟩⟩
      · exact hb ⟨hne, .inl rfl⟩
    · unfold State.setAddr State.setInode
      dsimp only
      rw [hlastInode, hwordsInode]

theorem owner_iff (hlayout : Layout s (s.inMemory i)) (b : Nat) :
    s.owner b = some (s.inode i).inum ↔
      (b ≠ 0 ∧ ∃ k ∈ (List.range ndirect).map State.direct, (s.inode i).addrs k = b) ∨
        Listed s ((s.inode i).addrs indirect) b := by
  have hmem : s.inMemory i (s.inode i).inum = (s.inode i).addrs := Function.update_self ..
  constructor
  · intro howner
    have hb : b ≠ 0 := by
      rintro rfl
      rw [hlayout.zero.2] at howner
      cases howner
    obtain ⟨p, hp, hat⟩ := hlayout.recorded b _ howner
    unfold State.at at hat
    cases p with
    | addr inum k =>
        change inum = _ at hp
        dsimp only at hat
        rw [hp, hmem] at hat
        by_cases hk : k = indirect
        · exact .inr ⟨hb, .inl (hk ▸ hat)⟩
        · exact .inl ⟨hb, k, (mem_direct k).mpr hk, hat⟩
    | word inum j =>
        change inum = _ at hp
        dsimp only at hat
        rw [hp, hmem] at hat
        split at hat
        · exact absurd hat.symm hb
        · next hne => exact .inr ⟨hb, .inr ⟨hne, j, List.mem_range.mpr j.isLt, hat⟩⟩
  · have haddr : ∀ k, (s.inode i).addrs k ≠ 0 → s.owner ((s.inode i).addrs k) = some (s.inode i).inum := by
      intro k hne
      have howned := hlayout.owned (.addr (s.inode i).inum k)
      unfold State.at at howned
      dsimp only at howned
      rw [hmem] at howned
      exact (howned hne).1
    rintro (⟨hb, k, -, rfl⟩ | ⟨hb, rfl | ⟨hne, j, hj, rfl⟩⟩)
    · exact haddr k hb
    · exact haddr indirect hb
    · have howned := hlayout.owned (.word (s.inode i).inum ⟨j, List.mem_range.mp hj⟩)
      unfold State.at at howned
      dsimp only at howned
      rw [hmem, if_neg hne] at howned
      exact (howned hb).1

theorem cleared_all (addrs : Fin (ndirect + 1) → Nat) :
    Function.update (fun k => if k ∈ (List.range ndirect).map State.direct then 0 else addrs k) indirect 0 =
      fun _ => 0 := by
  funext k
  by_cases hk : k = indirect
  · rw [hk, Function.update_self]
  · rw [Function.update_of_ne hk, if_pos ((mem_direct k).mpr hk)]

theorem itrunc_eq_some (hlayout : Layout s (s.inMemory i)) (htrunc : s.itrunc i = some s') :
    (∀ b, s.owner b = some (s.inode i).inum → s'.owner b = none) ∧
      (∀ b, s.owner b ≠ some (s.inode i).inum → s'.bit b = s.bit b ∧ s'.owner b = s.owner b) ∧ s'.word = s.word ∧
      s'.inode = Function.update s.inode i { s.inode i with size := 0, addrs := fun _ => 0 } ∧
      s'.dinode = Function.update s.dinode (s.inode i).inum
        { (s.inode i).toDinode with size := 0, addrs := fun _ => 0 } := by
  unfold State.itrunc at htrunc
  obtain ⟨listed, hlisted, htrunc⟩ := Option.bind_eq_some_iff.mp htrunc
  obtain ⟨cleared, hcleared, rfl⟩ := Option.map_eq_some_iff.mp htrunc
  obtain ⟨hfreed, hinode⟩ := itruncDirect_freed hlisted
  obtain ⟨hfreed', hinode'⟩ := itruncListed_freed hcleared
  have haddr : (listed.inode i).addrs indirect = (s.inode i).addrs indirect := by
    rw [hinode, Function.update_self]
    dsimp only
    rw [if_neg fun hmem => (mem_direct indirect).mp hmem rfl]
  have hword : ∀ b, Listed listed ((listed.inode i).addrs indirect) b ↔ Listed s ((s.inode i).addrs indirect) b := by
    intro b
    unfold Listed
    rw [haddr, hfreed.word]
  have hall := hfreed.trans (hfreed'.congr hword)
  have hcell : cleared.inode = Function.update s.inode i { s.inode i with addrs := fun _ => 0 } := by
    rw [hinode', hinode, Function.update_self, Function.update_idem]
    dsimp only
    rw [cleared_all]
  have hentry : cleared.inode i = { s.inode i with addrs := fun _ => 0 } := by
    rw [hcell, Function.update_self]
  unfold State.iupdate State.setInode
  dsimp only
  rw [hentry, Function.update_self]
  refine ⟨?_, ?_, hall.word, ?_, ?_⟩
  · intro b howner
    exact (hall.freed b ((owner_iff hlayout b).mp howner)).2
  · intro b howner
    exact hall.kept b fun hb => howner ((owner_iff hlayout b).mpr hb)
  · rw [hcell, Function.update_idem]
  · rw [hall.dinode]

end Xv6.Fs.I386
