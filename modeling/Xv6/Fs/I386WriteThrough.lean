import Xv6.Fs.I386Loops

/-!
# The table of inodes and the disk

An entry of the table that is in use and valid is what is on disk, and the blocks that were allocated for a file are
those that the disk records, in every run where no call leaves an address in memory only.
-/

namespace Xv6.Fs.I386

variable {n size ninodes : Nat} {s s' : State n} {i : Fin n}

structure Inv (s : State n) : Prop where
  layout : Layout s s.onDisk
  free : ∀ inum, (s.dinode inum).type = 0 → ∀ k, (s.dinode inum).addrs k = 0
  same : ∀ i, 0 < (s.inode i).ref → (s.inode i).valid →
    (s.inode i).toDinode = s.dinode (s.inode i).inum ∧ (s.inode i).type ≠ 0
  alone : ∀ i j, 0 < (s.inode i).ref → 0 < (s.inode j).ref → (s.inode i).inum = (s.inode j).inum → i = j
  held : ∀ i, (s.inode i).locked → (s.inode i).valid ∧ 0 < (s.inode i).ref

namespace Inv

theorem held_same (h : Inv s) (hlocked : (s.inode i).locked) :
    (s.inode i).toDinode = s.dinode (s.inode i).inum ∧ (s.inode i).type ≠ 0 :=
  h.same i (h.held i hlocked).2 (h.held i hlocked).1

theorem inMemory_eq (hsame : (s.inode i).toDinode = s.dinode (s.inode i).inum) : s.inMemory i = s.onDisk := by
  unfold State.inMemory
  rw [hsame]
  exact Function.update_eq_self ..

theorem entry (h : Inv s) {ip : Inode}
    (hsame : 0 < ip.ref → ip.valid → ip.toDinode = s.dinode ip.inum ∧ ip.type ≠ 0)
    (halone : 0 < ip.ref → ∀ j, j ≠ i → 0 < (s.inode j).ref → (s.inode j).inum ≠ ip.inum)
    (hheld : ip.locked → ip.valid ∧ 0 < ip.ref) : Inv (s.setInode i ip) := by
  refine ⟨h.layout.congr (fun p => by cases p <;> rfl) rfl rfl, h.free, ?_, ?_, ?_⟩
  · intro j
    by_cases hj : j = i
    · subst hj
      rw [State.setInode_self]
      exact hsame
    · rw [State.setInode_of_ne s ip hj]
      exact h.same j
  · intro j k
    by_cases hj : j = i
    · subst hj
      by_cases hk : k = j
      · exact fun _ _ _ => hk.symm
      · rw [State.setInode_self, State.setInode_of_ne s ip hk]
        intro href href' hinum
        exact absurd hinum.symm (halone href k hk href')
    · by_cases hk : k = i
      · subst hk
        rw [State.setInode_self, State.setInode_of_ne s ip hj]
        intro href href' hinum
        exact absurd hinum (halone href' j hj href)
      · rw [State.setInode_of_ne s ip hj, State.setInode_of_ne s ip hk]
        exact h.alone j k
  · intro j
    by_cases hj : j = i
    · subst hj
      rw [State.setInode_self]
      exact hheld
    · rw [State.setInode_of_ne s ip hj]
      exact h.held j

theorem written (h : Inv s) {ip : Inode} (hlayout : Layout s' s'.onDisk) (href : 0 < (s.inode i).ref)
    (hinode : s'.inode = Function.update s.inode i ip)
    (hdinode : s'.dinode = Function.update s.dinode (s.inode i).inum ip.toDinode)
    (hinum : ip.inum = (s.inode i).inum) (hfree : ip.type = 0 → ip.valid = false ∧ ∀ k, ip.addrs k = 0)
    (hheld : ip.locked → ip.valid ∧ 0 < ip.ref) : Inv s' := by
  have hself : s'.inode i = ip := by rw [hinode, Function.update_self]
  have hother : ∀ j, j ≠ i → s'.inode j = s.inode j := by
    intro j hj
    rw [hinode, Function.update_of_ne hj]
  have hdself : s'.dinode (s.inode i).inum = ip.toDinode := by rw [hdinode, Function.update_self]
  refine ⟨hlayout, ?_, ?_, ?_, ?_⟩
  · intro inum
    by_cases heq : inum = (s.inode i).inum
    · rw [heq, hdself]
      exact fun htype => (hfree htype).2
    · rw [hdinode, Function.update_of_ne heq]
      exact h.free inum
  · intro j
    by_cases hj : j = i
    · subst hj
      rw [hself, hinum, hdself]
      intro _ hvalid
      refine ⟨rfl, ?_⟩
      intro htype
      rw [(hfree htype).1] at hvalid
      cases hvalid
    · rw [hother j hj]
      intro hrefj hvalid
      rw [hdinode, Function.update_of_ne]
      · exact h.same j hrefj hvalid
      · exact fun heq => hj (h.alone j i hrefj href heq)
  · have hkey : ∀ j, 0 < (s'.inode j).ref → (s'.inode j).inum = (s.inode j).inum ∧ 0 < (s.inode j).ref := by
      intro j
      by_cases hj : j = i
      · subst hj
        rw [hself]
        exact fun _ => ⟨hinum, href⟩
      · rw [hother j hj]
        exact fun hrefj => ⟨rfl, hrefj⟩
    intro j k hrefj hrefk heq
    rw [(hkey j hrefj).1, (hkey k hrefk).1] at heq
    exact h.alone j k (hkey j hrefj).2 (hkey k hrefk).2 heq
  · intro j
    by_cases hj : j = i
    · subst hj
      rw [hself]
      exact hheld
    · rw [hother j hj]
      exact h.held j

/-! ### The calls -/

theorem iget (h : Inv s) {inum : Nat} {result : Fin n × State n} (higet : s.iget inum = some result) :
    Inv result.2 := by
  unfold State.iget at higet
  dsimp only at higet
  split at higet
  · next _ i hfind =>
    cases higet
    have hcached := List.find?_some hfind
    simp only [decide_eq_true_eq] at hcached
    refine h.entry ?_ ?_ ?_
    · exact fun _ hvalid => h.same i hcached.1 hvalid
    · intro _ j hj hrefj heq
      exact hj (h.alone j i hrefj hcached.1 heq)
    · exact fun hlocked => ⟨(h.held i hlocked).1, Nat.succ_pos _⟩
  · next i hnone hfind =>
    cases higet
    have hempty := List.find?_some hfind
    simp only [decide_eq_true_eq] at hempty
    refine h.entry ?_ ?_ ?_
    · intro _ hvalid
      cases hvalid
    · intro _ j _ hrefj heq
      have hmiss := List.find?_eq_none.mp hnone j (List.mem_finRange j)
      simp only [decide_eq_true_eq] at hmiss
      exact hmiss ⟨hrefj, heq⟩
    · intro hlocked
      have href := (h.held i hlocked).2
      omega
  · cases higet

theorem ialloc (h : Inv s) {type : Nat} {result : Fin n × State n}
    (hialloc : s.ialloc ninodes type = some result) : Inv result.2 := by
  unfold State.ialloc at hialloc
  obtain ⟨inum, hfind, higet⟩ := Option.bind_eq_some_iff.mp hialloc
  have hzero := List.find?_some hfind
  simp only [decide_eq_true_eq] at hzero
  refine iget ?_ higet
  have haddrs := h.free inum hzero.2
  have honDisk : ∀ inum', (Function.update s.dinode inum ⟨type, 0, 0, 0, 0, fun _ => 0⟩ inum').addrs =
      (s.dinode inum').addrs := by
    intro inum'
    by_cases heq : inum' = inum
    · rw [heq, Function.update_self]
      exact funext fun k => (haddrs k).symm
    · rw [Function.update_of_ne heq]
  refine ⟨?_, ?_, ?_, h.alone, h.held⟩
  · refine h.layout.congr ?_ rfl rfl
    intro p
    unfold State.at State.onDisk
    cases p with
    | addr inum' k => exact congrFun (honDisk inum') k
    | word inum' j =>
        dsimp only
        rw [honDisk]
  · intro inum' htype' k
    dsimp only at htype' ⊢
    rw [honDisk]
    by_cases heq : inum' = inum
    · rw [heq]
      exact haddrs k
    · rw [Function.update_of_ne heq] at htype'
      exact h.free inum' htype' k
  · intro j hrefj hvalid
    dsimp only
    rw [Function.update_of_ne]
    · exact h.same j hrefj hvalid
    · intro heq
      have hsame := h.same j hrefj hvalid
      rw [hsame.1, heq] at hsame
      exact hsame.2 hzero.2

theorem ilock (h : Inv s) (hilock : s.ilock i = some s') : Inv s' := by
  unfold State.ilock at hilock
  split at hilock
  · cases hilock
  · next hfree =>
    have href : 0 < (s.inode i).ref := by omega
    have halone : ∀ j, j ≠ i → 0 < (s.inode j).ref → (s.inode j).inum ≠ (s.inode i).inum :=
      fun j hj hrefj heq => hj (h.alone j i hrefj href heq)
    split at hilock
    · next hvalid =>
      cases hilock
      exact h.entry (fun _ _ => h.same i href hvalid) (fun _ => halone) (fun _ => ⟨hvalid, href⟩)
    · split at hilock
      · cases hilock
      · next htype =>
        cases hilock
        exact h.entry (fun _ _ => ⟨rfl, htype⟩) (fun _ => halone) (fun _ => ⟨rfl, href⟩)

theorem iunlock (h : Inv s) (hiunlock : s.iunlock i = some s') : Inv s' := by
  unfold State.iunlock at hiunlock
  split at hiunlock
  · cases hiunlock
  · next hlocked =>
    cases hiunlock
    have href : 0 < (s.inode i).ref := by omega
    refine h.entry (fun _ hvalid => h.same i href hvalid) ?_ ?_
    · exact fun _ j hj hrefj heq => hj (h.alone j i hrefj href heq)
    · intro hfalse
      cases hfalse

theorem idup (h : Inv s) (href : 0 < (s.inode i).ref) : Inv (s.idup i) := by
  refine h.entry (fun _ hvalid => h.same i href hvalid) ?_ ?_
  · exact fun _ j hj hrefj heq => hj (h.alone j i hrefj href heq)
  · exact fun hlocked => ⟨(h.held i hlocked).1, Nat.succ_pos _⟩

theorem iupdate (h : Inv s) (hlocked : (s.inode i).locked) (major minor nlink : Nat) :
    Inv ((s.setInode i { s.inode i with major, minor, nlink }).iupdate i) := by
  obtain ⟨hsame, htype⟩ := h.held_same hlocked
  have hself := State.setInode_self s i { s.inode i with major, minor, nlink }
  have hdinode : ((s.setInode i { s.inode i with major, minor, nlink }).iupdate i).dinode =
      Function.update s.dinode (s.inode i).inum { (s.inode i).toDinode with major, minor, nlink } := by
    unfold State.iupdate
    rw [hself]
    rfl
  refine h.written (i := i) ?_ (h.held i hlocked).2 rfl hdinode rfl (fun hzero => absurd hzero htype) ?_
  · refine h.layout.congr ?_ rfl rfl
    have haddrs : ((s.setInode i { s.inode i with major, minor, nlink }).iupdate i).onDisk = s.onDisk := by
      unfold State.onDisk
      rw [hdinode]
      funext inum
      by_cases heq : inum = (s.inode i).inum
      · rw [heq, Function.update_self, ← hsame]
      · rw [Function.update_of_ne heq]
    intro p
    rw [haddrs]
    cases p <;> rfl
  · exact fun _ => h.held i hlocked

theorem worked (h : Inv s) (hlocked : (s.inode i).locked) (hworked : Worked s s' i) (fileSize : Nat) :
    Inv ((s'.setInode i { s'.inode i with size := fileSize }).iupdate i) := by
  have htype := (h.held_same hlocked).2
  obtain ⟨addrs, hinode⟩ := hworked.inode
  have hself : s'.inode i = { s.inode i with addrs } := by rw [hinode, Function.update_self]
  have hentry := State.setInode_self s' i { s'.inode i with size := fileSize }
  have hdinode : ((s'.setInode i { s'.inode i with size := fileSize }).iupdate i).dinode =
      Function.update s.dinode (s.inode i).inum { (s.inode i).toDinode with size := fileSize, addrs } := by
    unfold State.iupdate
    rw [hentry, hself]
    change Function.update s'.dinode _ _ = _
    rw [hworked.dinode]
  have hcell : ((s'.setInode i { s'.inode i with size := fileSize }).iupdate i).inode =
      Function.update s.inode i { s.inode i with size := fileSize, addrs } := by
    change Function.update s'.inode i { s'.inode i with size := fileSize } = _
    rw [hself, hinode, Function.update_idem]
  refine h.written ?_ (h.held i hlocked).2 hcell hdinode rfl (fun hzero => absurd hzero htype) ?_
  · have haddrs : ((s'.setInode i { s'.inode i with size := fileSize }).iupdate i).onDisk = s'.inMemory i := by
      unfold State.inMemory State.onDisk
      rw [hdinode, hworked.dinode, hself]
      funext inum
      by_cases heq : inum = (s.inode i).inum
      · rw [heq, Function.update_self, Function.update_self]
      · rw [Function.update_of_ne heq, Function.update_of_ne heq]
    refine hworked.layout.congr ?_ rfl rfl
    intro p
    rw [haddrs]
    cases p <;> rfl
  · exact fun _ => h.held i hlocked

theorem unchanged (h : Inv s) (hlocked : (s.inode i).locked) (hworked : Worked s s' i) (hinode : s'.inode = s.inode) :
    Inv s' := by
  obtain ⟨hsame, -⟩ := h.held_same hlocked
  have haddrs : s'.inMemory i = s'.onDisk := by
    refine inMemory_eq ?_
    rw [hinode, hworked.dinode]
    exact hsame
  have hlayout := hworked.layout
  rw [haddrs] at hlayout
  refine ⟨hlayout, ?_, ?_, ?_, ?_⟩
  · rw [hworked.dinode]
    exact h.free
  · rw [hinode, hworked.dinode]
    exact h.same
  · rw [hinode]
    exact h.alone
  · rw [hinode]
    exact h.held

theorem itrunc_layout (h : Inv s) (hsame : (s.inode i).toDinode = s.dinode (s.inode i).inum)
    (htrunc : s.itrunc i = some s') : Layout s' s'.onDisk := by
  have hlayout : Layout s (s.inMemory i) := by
    rw [inMemory_eq hsame]
    exact h.layout
  obtain ⟨hfreed, hkept, hword, -, hdinode⟩ := itrunc_eq_some hlayout htrunc
  refine h.layout.clear ?_ hfreed hkept
  have haddrs : s'.onDisk = Function.update s.onDisk (s.inode i).inum fun _ => 0 := by
    unfold State.onDisk
    rw [hdinode]
    funext inum
    by_cases heq : inum = (s.inode i).inum
    · rw [heq, Function.update_self, Function.update_self]
    · rw [Function.update_of_ne heq, Function.update_of_ne heq]
  intro p
  rw [haddrs]
  unfold State.at
  cases p with
  | addr inum k =>
      change Function.update s.onDisk (s.inode i).inum _ inum k = if inum = _ then 0 else _
      split
      · next heq => rw [heq, Function.update_self]
      · next hne => rw [Function.update_of_ne hne]
  | word inum j =>
      dsimp only
      change _ = if inum = _ then 0 else _
      rw [hword]
      by_cases heq : inum = (s.inode i).inum
      · rw [heq, Function.update_self, if_pos rfl, if_pos rfl]
      · rw [Function.update_of_ne heq, if_neg heq]

theorem itrunc (h : Inv s) (hlocked : (s.inode i).locked) (htrunc : s.itrunc i = some s') : Inv s' := by
  obtain ⟨hsame, htype⟩ := h.held_same hlocked
  have hlayout : Layout s (s.inMemory i) := by
    rw [inMemory_eq hsame]
    exact h.layout
  obtain ⟨-, -, -, hinode, hdinode⟩ := itrunc_eq_some hlayout htrunc
  refine h.written (h.itrunc_layout hsame htrunc) (h.held i hlocked).2 hinode hdinode rfl ?_ fun _ => h.held i hlocked
  exact fun hzero => absurd hzero htype

theorem iput (h : Inv s) (hiput : s.iput i = some s') : Inv s' := by
  unfold State.iput at hiput
  split at hiput
  · cases hiput
  · next hfree =>
    have href : 0 < (s.inode i).ref := by omega
    have hunlocked : (s.inode i).locked = false := by
      cases hlocked : (s.inode i).locked
      · rfl
      · exact absurd (.inr hlocked) hfree
    have halone : ∀ j, j ≠ i → 0 < (s.inode j).ref → (s.inode j).inum ≠ (s.inode i).inum :=
      fun j hj hrefj heq => hj (h.alone j i hrefj href heq)
    dsimp only at hiput
    split at hiput
    · next hlast =>
      -- the last reference to an inode without a name: the inode is freed
      obtain ⟨freed, hfreed, rfl⟩ := Option.map_eq_some_iff.mp hiput
      obtain ⟨truncated, htrunc, rfl⟩ := Option.map_eq_some_iff.mp hfreed
      have hsame := (h.same i href hlast.1).1
      have hlayout : Layout s (s.inMemory i) := by
        rw [inMemory_eq hsame]
        exact h.layout
      have hdisk := h.itrunc_layout hsame htrunc
      obtain ⟨-, -, -, hinode, hdinode⟩ := itrunc_eq_some hlayout htrunc
      have hentry : truncated.inode i = { s.inode i with size := 0, addrs := fun _ => 0 } := by
        rw [hinode, Function.update_self]
      unfold State.iupdate State.setInode
      dsimp only
      rw [hentry, Function.update_self, Function.update_self, Function.update_idem, Function.update_idem, hinode,
        Function.update_idem, hdinode, Function.update_idem]
      refine h.written (i := i) ?_ href rfl rfl rfl (fun _ => ⟨rfl, fun _ => rfl⟩) ?_
      · refine hdisk.congr ?_ rfl rfl
        have haddrs : ∀ inum, (Function.update s.dinode (s.inode i).inum
            { (s.inode i).toDinode with type := 0, size := 0, addrs := fun _ => 0 } inum).addrs =
              (truncated.dinode inum).addrs := by
          intro inum
          rw [hdinode]
          by_cases heq : inum = (s.inode i).inum
          · rw [heq, Function.update_self, Function.update_self]
          · rw [Function.update_of_ne heq, Function.update_of_ne heq]
        intro p
        unfold State.at State.onDisk
        cases p with
        | addr inum k => exact congrFun (haddrs inum) k
        | word inum j =>
            dsimp only
            rw [haddrs]
      · intro hlocked
        rw [hunlocked] at hlocked
        cases hlocked
    · cases hiput
      refine h.entry (fun _ hvalid => h.same i href hvalid) (fun _ => halone) ?_
      intro hlocked
      rw [hunlocked] at hlocked
      cases hlocked

end Inv

/-! ### The runs -/

/-- The blocks that a call of `readi` comes to. -/
def readiBlocks (copyout : Nat → Bool) (ip : Inode) (off count : UInt32) : List Nat :=
  if off.toNat > ip.size ∨ off + count < off then []
  else
    let count := if off.toNat + count.toNat > ip.size then ip.size - off.toNat else count.toNat
    visited copyout count count 0 off.toNat 0

/-- The blocks that a call of `writei` comes to. -/
def writeiBlocks (copyin : Nat → (Nat → Nat) × Bool) (ip : Inode) (off count : UInt32) : List Nat :=
  if off.toNat > ip.size ∨ off + count < off then []
  else if off.toNat + count.toNat > maxFile * bsize then []
  else visited (fun k => (copyin k).2) count.toNat count.toNat 0 off.toNat 0

/-- The offset that a call of `writei` gets to. -/
def writeiEnd (copyin : Nat → (Nat → Nat) × Bool) (off count : UInt32) : Nat :=
  reached (fun k => (copyin k).2) count.toNat count.toNat 0 off.toNat 0

/-- A call that does not leave an address in memory only: `readi` meets no hole, and `writei` meets none or makes the
file longer. -/
def Fits (s : State n) : Call n → Prop
  | .readi copyout i off count => ∀ bn ∈ readiBlocks copyout (s.inode i) off count, ¬ Hole (s.inode i) bn
  | .writei copyin i off count =>
      (s.inode i).size < writeiEnd copyin off count ∨
        ∀ bn ∈ writeiBlocks copyin (s.inode i) off count, ¬ Hole (s.inode i) bn
  | _ => True

instance (s : State n) (call : Call n) : Decidable (Fits s call) := by
  cases call <;> unfold Fits <;> infer_instance

namespace Inv

theorem readi (h : Inv s) {copyout : Nat → Bool} {off count : UInt32} (hlocked : (s.inode i).locked)
    (hfits : ∀ bn ∈ readiBlocks copyout (s.inode i) off count, ¬ Hole (s.inode i) bn)
    (hread : s.readi size copyout i off count = some s') : Inv s' := by
  have hlayout : Layout s (s.inMemory i) := by
    rw [inMemory_eq (h.held_same hlocked).1]
    exact h.layout
  unfold State.readi at hread
  unfold readiBlocks at hfits
  split at hread
  · cases hread
    exact h
  · next hvalid =>
    rw [if_neg hvalid] at hfits
    obtain ⟨hworked, hinode⟩ := readiFrom_worked hlayout hread
    exact h.unchanged hlocked hworked (hinode hfits)

theorem writei (h : Inv s) {copyin : Nat → (Nat → Nat) × Bool} {off count : UInt32} (hlocked : (s.inode i).locked)
    (hfits : (s.inode i).size < writeiEnd copyin off count ∨
      ∀ bn ∈ writeiBlocks copyin (s.inode i) off count, ¬ Hole (s.inode i) bn)
    (hwrite : s.writei size copyin i off count = some s') : Inv s' := by
  have hlayout : Layout s (s.inMemory i) := by
    rw [inMemory_eq (h.held_same hlocked).1]
    exact h.layout
  unfold State.writei at hwrite
  unfold writeiBlocks at hfits
  split at hwrite
  · cases hwrite
    exact h
  · next hvalid =>
    rw [if_neg hvalid] at hfits
    split at hwrite
    · cases hwrite
      exact h
    · next hmax =>
      rw [if_neg hmax] at hfits
      obtain ⟨written, hfrom, rfl⟩ := Option.map_eq_some_iff.mp hwrite
      obtain ⟨hoff, hworked, hinode⟩ := writeiFrom_worked hlayout hfrom
      have hsize : (written.2.inode i).size = (s.inode i).size := by
        obtain ⟨addrs, heq⟩ := hworked.inode
        rw [heq, Function.update_self]
      dsimp only
      rw [hsize]
      split
      · exact h.worked hlocked hworked written.1
      · next hshort =>
        have hle : written.1 ≤ (s.inode i).size := by
          by_cases hcount : count.toNat = 0
          · rw [hoff, reached_of_le (by omega)]
            omega
          · omega
        refine h.unchanged hlocked hworked (hinode ?_)
        refine hfits.resolve_left ?_
        unfold writeiEnd
        rw [← hoff]
        omega

theorem step (h : Inv s) {call : Call n} (hfits : Fits s call) (hstep : step size ninodes s call = some s') :
    Inv s' := by
  unfold I386.step at hstep
  cases call with
  | ialloc type =>
      dsimp only at hstep
      split at hstep
      · cases hstep
      · obtain ⟨result, hialloc, rfl⟩ := Option.map_eq_some_iff.mp hstep
        exact h.ialloc hialloc
  | iget inum =>
      obtain ⟨result, higet, rfl⟩ := Option.map_eq_some_iff.mp hstep
      exact h.iget higet
  | idup i =>
      dsimp only at hstep
      split at hstep
      · cases hstep
      · next href =>
        cases hstep
        exact h.idup (by omega)
  | ilock i => exact h.ilock hstep
  | iunlock i => exact h.iunlock hstep
  | iupdate i major minor nlink =>
      dsimp only at hstep
      split at hstep
      · next hlocked =>
        cases hstep
        exact h.iupdate hlocked major minor nlink
      · cases hstep
  | readi copyout i off count =>
      dsimp only at hstep
      split at hstep
      · next hlocked => exact h.readi hlocked hfits hstep
      · cases hstep
  | writei copyin i off count =>
      dsimp only at hstep
      split at hstep
      · next hlocked => exact h.writei hlocked hfits hstep
      · cases hstep
  | itrunc i =>
      dsimp only at hstep
      split at hstep
      · next hlocked => exact h.itrunc hlocked hstep
      · cases hstep
  | iput i => exact h.iput hstep

end Inv

/-- Before the first call: no entry of the table is in use, and the disk records the blocks of its files. -/
structure Mounted (s : State n) : Prop where
  layout : Layout s s.onDisk
  free : ∀ inum, (s.dinode inum).type = 0 → ∀ k, (s.dinode inum).addrs k = 0
  idle : ∀ i, (s.inode i).ref = 0 ∧ (s.inode i).locked = false

theorem Mounted.inv (h : Mounted s) : Inv s := by
  refine ⟨h.layout, h.free, ?_, ?_, ?_⟩
  · intro i href
    rw [(h.idle i).1] at href
    exact absurd href (lt_irrefl 0)
  · intro i _ href
    rw [(h.idle i).1] at href
    exact absurd href (lt_irrefl 0)
  · intro i hlocked
    rw [(h.idle i).2] at hlocked
    cases hlocked

/-- An entry that is in use and valid, with its lock free, is what is on disk, so that loading it again changes
nothing; a block that was allocated for a file is one that the inode on disk or its indirect block records. -/
structure WriteThrough (s : State n) : Prop where
  same : ∀ i, 0 < (s.inode i).ref → (s.inode i).valid → (s.inode i).locked = false →
    (s.inode i).toDinode = s.dinode (s.inode i).inum
  reloaded : ∀ i, 0 < (s.inode i).ref → (s.inode i).valid → (s.inode i).locked = false → s.load i = s.inode i
  recorded : ∀ b inum, s.owner b = some inum → s.bit b = true ∧ ((∃ k, (s.dinode inum).addrs k = b) ∨
    (s.dinode inum).addrs indirect ≠ 0 ∧ ∃ j < nindirect, s.word ((s.dinode inum).addrs indirect) j = b)

theorem Inv.writeThrough (h : Inv s) : WriteThrough s := by
  constructor
  case same => exact fun i href hvalid _ => (h.same i href hvalid).1
  case reloaded =>
    intro i href hvalid _
    have hsame := (h.same i href hvalid).1
    unfold State.load
    rw [← hsame, ← hvalid]
  case recorded =>
    intro b inum howner
    refine ⟨h.layout.bit_of_owner howner, ?_⟩
    obtain ⟨p, hp, hat⟩ := h.layout.recorded b inum howner
    unfold State.at at hat
    cases p with
    | addr inum' k =>
        change inum' = inum at hp
        exact .inl ⟨k, hp ▸ hat⟩
    | word inum' j =>
        change inum' = inum at hp
        subst hp
        dsimp only at hat
        split at hat
        · rw [← hat, h.layout.zero.2] at howner
          cases howner
        · next hne => exact .inr ⟨hne, j, j.isLt, hat⟩

/-- **Memory is written through.** In every run whose calls of `readi` and `writei` leave no address in memory only. -/
theorem write_through {start : State n} {calls : List (Call n)} (hstart : Mounted start)
    (hfits : Transition.Along (step size ninodes) Fits start calls)
    (hrun : Transition.run (step size ninodes) start calls = some s) : WriteThrough s := by
  have hinv : Inv s := Transition.invariant_along
    (fun _ _ _ hinv hcall hstep => hinv.step hcall hstep) hstart.inv hfits hrun
  exact hinv.writeThrough

/-- A disk without files, where only block 0 is in use. -/
def blank : State n where
  dinode := fun _ => ⟨0, 0, 0, 0, 0, fun _ => 0⟩
  bit := fun b => b = 0
  word := fun _ _ => 0
  inode := fun _ => ⟨⟨0, 0, 0, 0, 0, fun _ => 0⟩, 0, 0, false, false⟩
  owner := fun _ => none

theorem blank_at (p : Place) : (blank : State n).at (blank : State n).onDisk p = 0 := by
  cases p <;> rfl

theorem blank_mounted : Mounted (blank : State n) := by
  refine ⟨⟨⟨rfl, rfl⟩, ?_, ?_, ?_⟩, fun _ _ _ => rfl, fun _ => ⟨rfl, rfl⟩⟩
  · intro p hne
    exact absurd (blank_at p) hne
  · intro b inum howner
    cases howner
  · intro p _ _ hne
    exact absurd (blank_at p) hne

/-- A file is made, written and let go of. -/
def fileWritten (copied : Bool) : List (Call 1) :=
  let ip := Fin.last 0
  [.ialloc 2, .ilock ip, .iupdate ip 0 0 1, .writei (fun _ => (fun _ => 7, copied)) ip 0 1, .iunlock ip]

theorem write_through_fileWritten :
    ∃ s, Transition.run (step 4 4) blank (fileWritten true) = some s ∧ (s.inode 0).addrs 0 = 1 ∧ WriteThrough s :=
  ⟨_, rfl, by decide, @write_through 1 4 4 _ blank (fileWritten true) blank_mounted (by decide) rfl⟩

/-- The first copy of a `writei` at the end of a file fails. The block that was allocated is known to the entry in
memory only. -/
theorem address_in_memory_only : ¬ ∀ (n size ninodes : Nat) (start s : State n) (calls : List (Call n)),
    Mounted start → Transition.run (step size ninodes) start calls = some s → WriteThrough s := by
  intro hclaim
  have hwritten : ∃ s, Transition.run (step 4 4) blank (fileWritten false) = some s ∧
      s.owner 1 = some 1 ∧ (∀ k, (s.dinode 1).addrs k = 0) := ⟨_, rfl, by decide, by decide⟩
  obtain ⟨s, hrun, howner, haddrs⟩ := hwritten
  obtain ⟨-, ⟨k, hk⟩ | ⟨hne, -⟩⟩ := (hclaim 1 4 4 blank s (fileWritten false) blank_mounted hrun).recorded 1 1 howner
  · rw [haddrs] at hk
    cases hk
  · exact hne (haddrs indirect)

end Xv6.Fs.I386
