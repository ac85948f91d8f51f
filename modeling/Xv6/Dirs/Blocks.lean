import Xv6.Layout
import Xv6.Lib.Bytes
import Mathlib.Algebra.BigOperators.Group.Finset.Basic
import Mathlib.Data.Finset.Card

/-!
# The blocks of a directory

`balloc`, `bmap`, `readi` and `writei` of `riscv64/fs.c` for one locked inode, with the rest of the disk. A
block is what the log and the buffer cache make of it.
-/

namespace Xv6.Dirs

/-- The inode, the bits of the free map, and the blocks. -/
structure State where
  size : Nat
  addrs : Nat → Nat
  used : Nat → Bool
  disk : Nat → Bytes

/-- The number of the block that has an entry of `addrs`, or of the indirect block. -/
def State.addr (s : State) (bn : Nat) : Nat :=
  if bn < ndirect then s.addrs bn
  else if s.addrs ndirect = 0 then 0
  else Bytes.uint 4 (s.disk (s.addrs ndirect)) (4 * (bn - ndirect))

def State.set (s : State) (b : Nat) (data : Bytes) : State := { s with disk := Function.update s.disk b data }

def State.mark (s : State) (b : Nat) : State :=
  { s with used := Function.update s.used b true, disk := Function.update s.disk b fun _ => 0 }

/-- `addrs[k]` is changed. -/
def State.point (s : State) (k addr : Nat) : State := { s with addrs := Function.update s.addrs k addr }

section Code

variable (blocks : Nat)

def balloc (s : State) : Nat × State :=
  match (List.range blocks).find? fun b => s.used b = false with
  | none => (0, s)
  | some b => (b, s.mark b)

/-- The block of `addrs[k]`, allocated if there is none. -/
def direct (s : State) (k : Nat) : Nat × State :=
  if s.addrs k = 0 then
    let r := balloc blocks s
    if r.1 = 0 then (0, r.2) else (r.1, r.2.point k r.1)
  else
    (s.addrs k, s)

/-- The block of `a[k]` in the indirect block `addr`, allocated if there is none. -/
def entry (s : State) (addr k : Nat) : Nat × State :=
  let found := Bytes.uint 4 (s.disk addr) (4 * k)
  if found = 0 then
    let r := balloc blocks s
    if r.1 = 0 then (0, r.2) else (r.1, r.2.set addr (Bytes.setUint 4 (r.2.disk addr) (4 * k) r.1))
  else
    (found, s)

def bmap (s : State) (bn : Nat) : Except String (Nat × State) :=
  if bn < ndirect then
    .ok (direct blocks s bn)
  else if bn - ndirect < nindirect then
    -- Load indirect block, allocating if necessary.
    let r := direct blocks s ndirect
    if r.1 = 0 then .ok (0, r.2) else .ok (entry blocks r.2 r.1 (bn - ndirect))
  else
    .error "bmap: out of range"

/-- The loop of `readi` to kernel memory: how many bytes it has read, and these. -/
def readiFrom (n : Nat) : (fuel : Nat) → State → (off tot : Nat) → Except String (Nat × List UInt8 × State)
  | 0, s, _, tot => .ok (tot, [], s)
  | fuel + 1, s, off, tot =>
      if tot < n then do
        let (addr, s) ← bmap blocks s (off / bsize)
        if addr = 0 then
          .ok (tot, [], s)
        else
          let m := min (n - tot) (bsize - off % bsize)
          let (tot, bytes, s') ← readiFrom n fuel s (off + m) (tot + m)
          .ok (tot, Bytes.load (s.disk addr) (off % bsize) m ++ bytes, s')
      else
        .ok (tot, [], s)

def readi (s : State) (off n : Nat) : Except String (Nat × List UInt8 × State) :=
  if off > s.size ∨ (off + n) % 2 ^ 32 < off then
    .ok (0, [], s)
  else
    let n := if off + n > s.size then s.size - off else n
    readiFrom blocks n n s off 0

/-- The loop of `writei` from kernel memory: `off` and `tot`. -/
def writeiFrom (bytes : List UInt8) : (fuel : Nat) → State → (off tot : Nat) → Except String (Nat × Nat × State)
  | 0, s, off, tot => .ok (off, tot, s)
  | fuel + 1, s, off, tot =>
      if tot < bytes.length then do
        let (addr, s) ← bmap blocks s (off / bsize)
        if addr = 0 then
          .ok (off, tot, s)
        else
          let m := min (bytes.length - tot) (bsize - off % bsize)
          let s := s.set addr (Bytes.store (s.disk addr) (off % bsize) ((bytes.drop tot).take m))
          writeiFrom bytes fuel s (off + m) (tot + m)
      else
        .ok (off, tot, s)

/-- Write data to inode. Returns the number of bytes successfully written. -/
def writei (s : State) (bytes : List UInt8) (off : Nat) : Except String (Int × State) :=
  if off > s.size ∨ (off + bytes.length) % 2 ^ 32 < off then
    .ok (-1, s)
  else if off + bytes.length > maxFile * bsize then
    .ok (-1, s)
  else do
    let (off, tot, s) ← writeiFrom blocks bytes bytes.length s off 0
    .ok (tot, if off > s.size then { s with size := off } else s)

end Code

structure Mapped (s : State) : Prop where
  boot : s.used 0 = true
  size : s.size ≤ maxFile * bsize
  mapped : ∀ bn, bn * bsize < s.size → s.addr bn ≠ 0
  used : ∀ bn, bn < maxFile → s.addr bn ≠ 0 → s.used (s.addr bn) = true
  apart : ∀ bn bn', bn < maxFile → bn' < maxFile → s.addr bn ≠ 0 → s.addr bn = s.addr bn' → bn = bn'
  indirect : s.addrs ndirect ≠ 0 →
    s.used (s.addrs ndirect) = true ∧ ∀ bn, bn < maxFile → s.addr bn ≠ s.addrs ndirect

structure Kept (s s' : State) : Prop where
  size : s'.size = s.size
  addr : ∀ bn, bn < maxFile → s.addr bn ≠ 0 → s'.addr bn = s.addr bn
  disk : ∀ bn, bn < maxFile → s.addr bn ≠ 0 → s'.disk (s.addr bn) = s.disk (s.addr bn)

def State.free (s : State) (blocks : Nat) : Nat := ((Finset.range blocks).filter fun b => s.used b = false).card

/-- How many blocks `bmap` has to allocate. -/
def State.need (s : State) (bn : Nat) : Nat :=
  if s.addr bn ≠ 0 then 0 else if bn < ndirect ∨ s.addrs ndirect ≠ 0 then 1 else 2

section Specs

variable {blocks bn : Nat} {s s' : State}

theorem Kept.refl (s : State) : Kept s s := ⟨rfl, fun _ _ _ => rfl, fun _ _ _ => rfl⟩

theorem Kept.trans {mid : State} (h : Kept s mid) (h' : Kept mid s') : Kept s s' where
  size := h'.size.trans h.size
  addr bn hbn hne := (h'.addr bn hbn (h.addr bn hbn hne ▸ hne)).trans (h.addr bn hbn hne)
  disk bn hbn hne := by
    have haddr := h.addr bn hbn hne
    rw [← h.disk bn hbn hne, ← haddr]
    exact h'.disk bn hbn (haddr ▸ hne)

theorem balloc_spec (hboot : s.used 0 = true) :
    (s.free blocks = 0 ∧ balloc blocks s = (0, s)) ∨
      ∃ b, b ≠ 0 ∧ b < blocks ∧ s.used b = false ∧ balloc blocks s = (b, s.mark b) := by
  unfold balloc
  cases hfind : (List.range blocks).find? fun b => s.used b = false with
  | none =>
      refine Or.inl ⟨?_, rfl⟩
      rw [State.free, Finset.card_eq_zero, Finset.filter_eq_empty_iff]
      intro b hb hfree
      have hnone := List.find?_eq_none.mp hfind b (List.mem_range.mpr (Finset.mem_range.mp hb))
      exact hnone (decide_eq_true hfree)
  | some b =>
      have hfree : s.used b = false := by simpa using List.find?_some hfind
      refine Or.inr ⟨b, ?_, List.mem_range.mp (List.mem_of_find?_eq_some hfind), hfree, rfl⟩
      rintro rfl
      exact absurd (hboot.symm.trans hfree) (by decide)

theorem free_update {b : Nat} (hb : b < blocks) (hfree : s.used b = false) (hused : s'.used = Function.update s.used b true) :
    s'.free blocks + 1 = s.free blocks := by
  have hmem : b ∈ (Finset.range blocks).filter fun b => s.used b = false :=
    Finset.mem_filter.mpr ⟨Finset.mem_range.mpr hb, hfree⟩
  have herase : ((Finset.range blocks).filter fun b => s'.used b = false) =
      ((Finset.range blocks).filter fun b => s.used b = false).erase b := by
    ext other
    rw [Finset.mem_erase, Finset.mem_filter, Finset.mem_filter, hused]
    by_cases hother : other = b
    · rw [hother, Function.update_self]
      simp
    · rw [Function.update_of_ne hother]
      simp [hother]
  rw [State.free, State.free, herase, Finset.card_erase_add_one hmem]

theorem Mapped.extend {b : Nat} {slot : Option Nat} (h : Mapped s) (hfree : s.used b = false)
    (hused : s'.used = Function.update s.used b true) (hsize : s'.size = s.size)
    (haddr : ∀ bn, bn < maxFile → s'.addr bn = if slot = some bn then b else s.addr bn)
    (hslot : ∀ bn, slot = some bn → s.addr bn = 0)
    (hindirect : s'.addrs ndirect = if slot = none then b else s.addrs ndirect)
    (hdisk : ∀ a, a ≠ b → a ≠ s.addrs ndirect → s'.disk a = s.disk a) : Mapped s' ∧ Kept s s' := by
  have hkept : ∀ bn, bn < maxFile → s.addr bn ≠ 0 → s'.addr bn = s.addr bn := fun bn hbn hne => by
    rw [haddr bn hbn, if_neg fun hsome => hne (hslot bn hsome)]
  have hgrows : ∀ a, s.used a = true → s'.used a = true := fun a ha => by
    by_cases hab : a = b
    · rw [hused, hab, Function.update_self]
    · rw [hused, Function.update_of_ne hab, ha]
  have hnew : ∀ bn, bn < maxFile → s.addr bn ≠ b ∨ s.addr bn = 0 := fun bn hbn => by
    by_cases hne : s.addr bn = 0
    · exact Or.inr hne
    · refine Or.inl fun heq => ?_
      have htrue := h.used bn hbn hne
      rw [heq, hfree] at htrue
      exact absurd htrue Bool.false_ne_true
  have hb : b ≠ 0 := fun hzero => absurd (h.boot.symm.trans (hzero ▸ hfree)) (by decide)
  have hindirect_ne : s.addrs ndirect ≠ b := fun heq => by
    have htrue := (h.indirect (heq ▸ hb)).1
    rw [heq, hfree] at htrue
    exact absurd htrue Bool.false_ne_true
  refine ⟨⟨hgrows 0 h.boot, hsize ▸ h.size, ?_, ?_, ?_, ?_⟩, hsize, hkept, ?_⟩
  · intro bn hbn
    rw [hsize] at hbn
    have hlt : bn < maxFile := by
      by_contra hge
      have hle := Nat.mul_le_mul_right bsize (Nat.le_of_not_lt hge)
      have hmax := h.size
      omega
    rw [hkept bn hlt (h.mapped bn hbn)]
    exact h.mapped bn hbn
  · intro bn hbn hne
    rw [haddr bn hbn] at hne ⊢
    by_cases hsome : slot = some bn
    · rw [if_pos hsome, hused, Function.update_self]
    · rw [if_neg hsome] at hne ⊢
      exact hgrows _ (h.used bn hbn hne)
  · intro bn bn' hbn hbn' hne heq
    rw [haddr bn hbn] at hne heq
    rw [haddr bn' hbn'] at heq
    by_cases hsome : slot = some bn <;> by_cases hsome' : slot = some bn'
    · exact Option.some.inj (hsome.symm.trans hsome')
    · rw [if_pos hsome, if_neg hsome'] at heq
      rcases hnew bn' hbn' with hother | hzero
      · exact absurd heq.symm hother
      · exact absurd (heq.trans hzero) hb
    · rw [if_neg hsome, if_pos hsome'] at heq
      rw [if_neg hsome] at hne
      rcases hnew bn hbn with hother | hzero
      · exact absurd heq hother
      · exact absurd hzero hne
    · rw [if_neg hsome] at hne heq
      rw [if_neg hsome'] at heq
      exact h.apart bn bn' hbn hbn' hne heq
  · intro hne
    rw [hindirect] at hne ⊢
    by_cases hslotNone : slot = none
    · rw [if_pos hslotNone, hused, Function.update_self]
      refine ⟨rfl, fun bn hbn => ?_⟩
      rw [haddr bn hbn, hslotNone, if_neg (by simp)]
      rcases hnew bn hbn with hother | hzero
      · exact hother
      · exact hzero ▸ hb.symm
    · rw [if_neg hslotNone] at hne ⊢
      refine ⟨hgrows _ (h.indirect hne).1, fun bn hbn => ?_⟩
      rw [haddr bn hbn]
      by_cases hsome : slot = some bn
      · rw [if_pos hsome]
        exact hindirect_ne.symm
      · rw [if_neg hsome]
        exact (h.indirect hne).2 bn hbn
  · intro bn hbn hne
    refine hdisk _ ((hnew bn hbn).resolve_right hne) fun heq => ?_
    by_cases hzero : s.addrs ndirect = 0
    · exact hne (heq.trans hzero)
    · exact (h.indirect hzero).2 bn hbn heq

theorem addr_direct (hbn : bn < ndirect) : s.addr bn = s.addrs bn := if_pos hbn

theorem addr_indirect (hbn : ¬bn < ndirect) (hne : s.addrs ndirect ≠ 0) :
    s.addr bn = Bytes.uint 4 (s.disk (s.addrs ndirect)) (4 * (bn - ndirect)) := by
  rw [State.addr, if_neg hbn, if_neg hne]

theorem need_zero (h : s.addr bn ≠ 0) : s.need bn = 0 := if_pos h

theorem need_one (h : s.addr bn = 0) (hone : bn < ndirect ∨ s.addrs ndirect ≠ 0) : s.need bn = 1 := by
  rw [State.need, if_neg (not_not.mpr h), if_pos hone]

theorem need_two (h : s.addr bn = 0) (hbn : ¬bn < ndirect) (hind : s.addrs ndirect = 0) : s.need bn = 2 := by
  rw [State.need, if_neg (not_not.mpr h), if_neg (not_or.mpr ⟨hbn, not_not.mpr hind⟩)]

def Allocates (blocks : Nat) (s : State) (bn : Nat) (r : Nat × State) : Prop :=
  Mapped r.2 ∧ Kept s r.2 ∧ r.1 = r.2.addr bn ∧ (s.addr bn ≠ 0 → r.2 = s) ∧ (r.1 = 0 ↔ s.free blocks < s.need bn)

theorem addr_congr (hind : s'.addrs ndirect = s.addrs ndirect)
    (hdisk : s.addrs ndirect ≠ 0 → s'.disk (s.addrs ndirect) = s.disk (s.addrs ndirect)) (hbn : ¬bn < ndirect) :
    s'.addr bn = s.addr bn := by
  by_cases hzero : s.addrs ndirect = 0
  · rw [State.addr, if_neg hbn, if_pos (hind.trans hzero), State.addr, if_neg hbn, if_pos hzero]
  · rw [addr_indirect hbn (hind ▸ hzero), addr_indirect hbn hzero, hind, hdisk hzero]

theorem Mapped.indirect_ne {b : Nat} (h : Mapped s) (hfree : s.used b = false) (hind : s.addrs ndirect ≠ 0) :
    s.addrs ndirect ≠ b := by
  intro heq
  have htrue := (h.indirect hind).1
  rw [heq, hfree] at htrue
  exact absurd htrue Bool.false_ne_true

theorem direct_spec (h : Mapped s) (hbn : bn < ndirect) : Allocates blocks s bn (direct blocks s bn) := by
  have haddr := @addr_direct bn s hbn
  unfold direct
  by_cases hzero : s.addrs bn = 0
  · rw [if_pos hzero]
    have hneed := need_one (haddr.trans hzero) (Or.inl hbn)
    rcases @balloc_spec blocks s h.boot with ⟨hfree, hrun⟩ | ⟨b, hb, hlt, hfree, hrun⟩
    · rw [hrun]
      exact ⟨h, .refl s, (haddr.trans hzero).symm, fun _ => rfl, iff_of_true rfl (by omega)⟩
    · rw [hrun]
      dsimp only
      rw [if_neg hb]
      obtain ⟨s', hs'⟩ : ∃ s' : State, s' = (s.mark b).point bn b := ⟨_, rfl⟩
      have hused : s'.used = Function.update s.used b true := by rw [hs']; rfl
      have haddrs : s'.addrs = Function.update s.addrs bn b := by rw [hs']; rfl
      have hdisk : ∀ a, a ≠ b → s'.disk a = s.disk a := fun a ha => by
        rw [hs']
        exact Function.update_of_ne ha ..
      have hsize : s'.size = s.size := by rw [hs']; rfl
      have hind : s'.addrs ndirect = s.addrs ndirect := by
        rw [haddrs, Function.update_of_ne (Nat.ne_of_lt hbn).symm]
      have hnew : ∀ bn', bn' < maxFile → s'.addr bn' = if some bn = some bn' then b else s.addr bn' := by
        intro bn' _
        by_cases hbn' : bn' < ndirect
        · rw [addr_direct hbn', addr_direct hbn', haddrs]
          by_cases heq : bn' = bn
          · rw [heq, Function.update_self, if_pos rfl]
          · rw [Function.update_of_ne heq, if_neg fun hsome => heq (Option.some.inj hsome).symm]
        · have hne : bn ≠ bn' := fun heq => hbn' (heq ▸ hbn)
          rw [if_neg fun hsome => hne (Option.some.inj hsome)]
          exact addr_congr hind (fun hzero => hdisk _ (h.indirect_ne hfree hzero)) hbn'
      obtain ⟨hmapped, hkept⟩ := @Mapped.extend s s' b (some bn) h hfree hused hsize hnew
        (fun bn' hsome => by rw [← Option.some.inj hsome, haddr, hzero])
        (by rw [if_neg (Option.some_ne_none bn), hind]) fun a ha _ => hdisk a ha
      have hlt' : bn < maxFile := hbn.trans_le (Nat.le_add_right _ _)
      rw [← hs']
      refine ⟨hmapped, hkept, by rw [hnew bn hlt', if_pos rfl], fun hne => absurd (haddr.trans hzero) hne,
        iff_of_false hb ?_⟩
      have hcount := free_update hlt hfree hused
      omega
  · rw [if_neg hzero]
    refine ⟨h, .refl s, haddr.symm, fun _ => rfl, iff_of_false hzero ?_⟩
    rw [need_zero (haddr ▸ hzero)]
    exact Nat.not_lt_zero _

theorem entry_spec (h : Mapped s) (hblocks : blocks ≤ 2 ^ 32) (hbn : ¬bn < ndirect) (hlt' : bn < maxFile)
    (hind : s.addrs ndirect ≠ 0) :
    Allocates blocks s bn (entry blocks s (s.addrs ndirect) (bn - ndirect)) := by
  have haddr := addr_indirect hbn hind
  unfold entry
  dsimp only
  rw [← haddr]
  by_cases hzero : s.addr bn = 0
  · rw [if_pos hzero]
    have hneed := need_one hzero (Or.inr hind)
    rcases @balloc_spec blocks s h.boot with ⟨hfree, hrun⟩ | ⟨b, hb, hlt, hfree, hrun⟩
    · rw [hrun]
      exact ⟨h, .refl s, hzero.symm, fun _ => rfl, iff_of_true rfl (by omega)⟩
    · rw [hrun]
      dsimp only
      rw [if_neg hb]
      have hne := h.indirect_ne hfree hind
      have hold : (s.mark b).disk (s.addrs ndirect) = s.disk (s.addrs ndirect) :=
        Function.update_of_ne hne ..
      rw [hold]
      obtain ⟨s', hs'⟩ : ∃ s' : State, s' = (s.mark b).set (s.addrs ndirect)
        (Bytes.setUint 4 (s.disk (s.addrs ndirect)) (4 * (bn - ndirect)) b) := ⟨_, rfl⟩
      have hused : s'.used = Function.update s.used b true := by rw [hs']; rfl
      have haddrs : s'.addrs = s.addrs := by rw [hs']; rfl
      have hsize : s'.size = s.size := by rw [hs']; rfl
      have hdisk : ∀ a, a ≠ b → a ≠ s.addrs ndirect → s'.disk a = s.disk a := fun a ha ha' => by
        rw [hs']
        exact (Function.update_of_ne ha' ..).trans (Function.update_of_ne ha ..)
      have hblock : s'.disk (s.addrs ndirect) =
          Bytes.setUint 4 (s.disk (s.addrs ndirect)) (4 * (bn - ndirect)) b := by
        rw [hs']
        exact Function.update_self ..
      have hnew : ∀ bn', bn' < maxFile → s'.addr bn' = if some bn = some bn' then b else s.addr bn' := by
        intro bn' _
        by_cases hbn' : bn' < ndirect
        · have hother : bn ≠ bn' := fun heq => hbn (heq ▸ hbn')
          rw [addr_direct hbn', addr_direct hbn', if_neg fun hsome => hother (Option.some.inj hsome), haddrs]
        · rw [addr_indirect hbn' (haddrs ▸ hind), addr_indirect hbn' hind, haddrs, hblock]
          by_cases heq : bn = bn'
          · rw [← heq, if_pos rfl, Bytes.uint_setUint_self (by omega)]
          · rw [if_neg fun hsome => heq (Option.some.inj hsome), Bytes.uint_setUint_of_disjoint]
            omega
      obtain ⟨hmapped, hkept⟩ := @Mapped.extend s s' b (some bn) h hfree hused hsize hnew
        (fun bn' hsome => by rw [← Option.some.inj hsome, hzero])
        (by rw [if_neg (Option.some_ne_none bn), haddrs]) hdisk
      rw [← hs']
      refine ⟨hmapped, hkept, by rw [hnew bn hlt', if_pos rfl], fun hne' => absurd hzero hne', iff_of_false hb ?_⟩
      have hcount := free_update hlt hfree hused
      omega
  · rw [if_neg hzero]
    refine ⟨h, .refl s, rfl, fun _ => rfl, iff_of_false hzero ?_⟩
    rw [need_zero hzero]
    exact Nat.not_lt_zero _

theorem bmap_spec (h : Mapped s) (hblocks : blocks ≤ 2 ^ 32) (hbn : bn < maxFile) :
    ∃ r, bmap blocks s bn = .ok r ∧ Allocates blocks s bn r := by
  unfold bmap
  by_cases hdirect : bn < ndirect
  · rw [if_pos hdirect]
    exact ⟨_, rfl, direct_spec h hdirect⟩
  · have hentry : bn - ndirect < nindirect := by
      unfold maxFile at hbn
      omega
    rw [if_neg hdirect, if_pos hentry]
    dsimp only
    unfold direct
    by_cases hind : s.addrs ndirect = 0
    · rw [if_pos hind]
      have hzero : s.addr bn = 0 := by rw [State.addr, if_neg hdirect, if_pos hind]
      have hneed := need_two hzero hdirect hind
      rcases @balloc_spec blocks s h.boot with ⟨hfree, hrun⟩ | ⟨b, hb, hlt, hfree, hrun⟩
      · rw [hrun]
        exact ⟨_, rfl, h, .refl s, hzero.symm, fun _ => rfl, iff_of_true rfl (by omega)⟩
      · rw [hrun]
        dsimp only
        rw [if_neg hb]
        dsimp only
        rw [if_neg hb]
        obtain ⟨mid, hmid⟩ : ∃ mid : State, mid = (s.mark b).point ndirect b := ⟨_, rfl⟩
        have hused : mid.used = Function.update s.used b true := by rw [hmid]; rfl
        have haddrs : mid.addrs = Function.update s.addrs ndirect b := by rw [hmid]; rfl
        have hsize : mid.size = s.size := by rw [hmid]; rfl
        have hdisk : ∀ a, a ≠ b → mid.disk a = s.disk a := fun a ha => by
          rw [hmid]
          exact Function.update_of_ne ha ..
        have hblock : mid.disk b = fun _ => 0 := by
          rw [hmid]
          exact Function.update_self ..
        have hindirect : mid.addrs ndirect = b := by rw [haddrs, Function.update_self]
        have hempty : ∀ off, Bytes.uint 4 (fun _ => 0) off = 0 := fun off => by simp [Bytes.uint]
        have hnew : ∀ bn', bn' < maxFile → mid.addr bn' = if none = some bn' then b else s.addr bn' := by
          intro bn' _
          rw [if_neg (Option.some_ne_none bn').symm]
          by_cases hbn' : bn' < ndirect
          · rw [addr_direct hbn', addr_direct hbn', haddrs, Function.update_of_ne (Nat.ne_of_lt hbn')]
          · rw [addr_indirect hbn' (hindirect ▸ hb), hindirect, hblock, hempty, State.addr, if_neg hbn', if_pos hind]
        obtain ⟨hmapped, hkept⟩ := @Mapped.extend s mid b none h hfree hused hsize hnew
          (fun bn' hsome => absurd hsome (Option.some_ne_none bn').symm)
          (by rw [if_pos rfl, hindirect]) fun a ha _ => hdisk a ha
        have hmidZero : mid.addr bn = 0 := by rw [hnew bn hbn, if_neg (Option.some_ne_none bn).symm, hzero]
        have hspec := entry_spec hmapped hblocks hdirect hbn (hindirect ▸ hb)
        rw [hindirect] at hspec
        rw [← hmid]
        refine ⟨_, rfl, hspec.1, hkept.trans hspec.2.1, hspec.2.2.1, fun hne => absurd hzero hne, ?_⟩
        rw [hspec.2.2.2.2, need_one hmidZero (Or.inr (hindirect ▸ hb)), hneed]
        have hcount := free_update hlt hfree hused
        omega
    · rw [if_neg hind]
      dsimp only
      rw [if_neg hind]
      exact ⟨_, rfl, entry_spec h hblocks hdirect hbn hind⟩

end Specs

end Xv6.Dirs
