import Xv6.Mkfs.Format

/-!
# Files made of allocated blocks

What the tool keeps true of the blocks while it appends: the slots have the blocks they were given,
in order; each block of data holds the bytes of its file, and zeros after them; the rest is zero. The
four changes the tool makes are a block for a direct slot, for an indirect block and for an entry of
it, and bytes written to the last block of a file.

The addresses of the inode being appended to are those of the copy in memory, so `addrs` is not read
off the image here.
-/

namespace Xv6.Mkfs

structure Holds (first : Nat) (files : Nat → List UInt8) (owners : List (Nat × Slot))
    (addrs : Nat → Nat → Nat) (block : Nat → Bytes) (freeblock : Nat) : Prop where
  free : freeblock = first + owners.length
  nodup : owners.Nodup
  addr : ∀ inum slot, slot.Valid →
    slotAddr block (addrs inum) slot = place first owners (inum, slot)
  covered : ∀ inum i, i < (files inum).length → (inum, .data (i / bsize)) ∈ owners
  data : ∀ inum bn, (inum, .data bn) ∈ owners → ∀ j, j < bsize →
    block (place first owners (inum, .data bn)) j = (files inum).getD (bn * bsize + j) 0
  fresh : ∀ b, freeblock ≤ b → block b = fun _ => 0

/-- `addrs` with one entry changed. -/
def setAddr (addrs : Nat → Nat → Nat) (inum k addr : Nat) : Nat → Nat → Nat :=
  Function.update addrs inum (Function.update (addrs inum) k addr)

section SetAddr

variable {addrs : Nat → Nat → Nat} {inum k addr : Nat}

@[simp]
theorem setAddr_self : setAddr addrs inum k addr inum k = addr := by
  simp [setAddr]

theorem setAddr_of_ne {k' : Nat} (hne : k' ≠ k) :
    setAddr addrs inum k addr inum k' = addrs inum k' := by
  simp [setAddr, hne]

theorem setAddr_other {inum' : Nat} (hne : inum' ≠ inum) :
    setAddr addrs inum k addr inum' = addrs inum' := by
  simp [setAddr, hne]

end SetAddr

theorem uint_zero (width off : Nat) : Bytes.uint width (fun _ => 0) off = 0 := by
  induction width generalizing off with
  | zero => rfl
  | succ width ih => simp [Bytes.uint, ih]

namespace Holds

variable {first : Nat} {files : Nat → List UInt8} {owners : List (Nat × Slot)}
  {addrs : Nat → Nat → Nat} {block : Nat → Bytes} {freeblock inum bn : Nat}

theorem place_lt (h : Holds first files owners addrs block freeblock) {who : Nat × Slot}
    (hwho : who ∈ owners) : place first owners who < freeblock :=
  h.free ▸ Mkfs.place_lt hwho

theorem length_le (h : Holds first files owners addrs block freeblock)
    (hbn : (inum, Slot.data bn) ∉ owners) : (files inum).length ≤ bn * bsize := by
  by_contra hlt
  have hin := h.covered inum (bn * bsize) (by omega)
  rw [Nat.mul_div_cancel _ (by decide)] at hin
  exact hbn hin

theorem grow (h : Holds first files owners addrs block freeblock) {who : Nat × Slot}
    (hwho : who ∉ owners) {addrs' : Nat → Nat → Nat} {block' : Nat → Bytes}
    (haddr : ∀ inum slot, slot.Valid →
      slotAddr block' (addrs' inum) slot = place first (owners ++ [who]) (inum, slot))
    (hblock : ∀ inum bn, (inum, .data bn) ∈ owners →
      block' (place first owners (inum, .data bn)) = block (place first owners (inum, .data bn)))
    (hfresh : ∀ b, freeblock ≤ b → block' b = block b) :
    Holds first files (owners ++ [who]) addrs' block' (freeblock + 1) where
  free := by rw [h.free, List.length_append, List.length_singleton, Nat.add_assoc]
  nodup := by
    rw [List.nodup_append_comm, List.singleton_append]
    exact List.nodup_cons.mpr ⟨hwho, h.nodup⟩
  addr := haddr
  covered inum i hi := List.mem_append_left _ (h.covered inum i hi)
  data inum bn hbn j hj := by
    rcases List.mem_append.mp hbn with hold | hnew
    · have hne : (inum, Slot.data bn) ≠ who := fun heq => hwho (heq ▸ hold)
      rw [place_append_of_ne hne, hblock inum bn hold]
      exact h.data inum bn hold j hj
    · have heq : (inum, Slot.data bn) = who := List.mem_singleton.mp hnew
      have hlength := h.length_le (heq ▸ hwho)
      rw [heq, place_append_self hwho, ← h.free, hfresh _ (Nat.le_refl _), h.fresh _ (Nat.le_refl _),
        List.getD_eq_default _ _ (by omega)]
  fresh b hb := by rw [hfresh b (by omega), h.fresh b (by omega)]

theorem allocDirect (h : Holds first files owners addrs block freeblock) (hbn : bn < ndirect)
    (hnew : (inum, Slot.data bn) ∉ owners) :
    Holds first files (owners ++ [(inum, .data bn)]) (setAddr addrs inum bn freeblock) block
      (freeblock + 1) := by
  apply h.grow hnew _ (fun _ _ _ => rfl) (fun _ _ => rfl)
  intro inum' slot hslot
  by_cases heq : (inum', slot) = (inum, Slot.data bn)
  · cases heq
    rw [place_append_self hnew, slotAddr, if_pos hbn, setAddr_self, h.free]
  · rw [place_append_of_ne heq, ← h.addr inum' slot hslot]
    by_cases hinum : inum' = inum
    · subst hinum
      cases slot with
      | indirect => exact setAddr_of_ne (by omega)
      | data bn' =>
          have hne : bn' ≠ bn := fun hbn' => heq (hbn' ▸ rfl)
          rw [slotAddr, slotAddr, setAddr_of_ne hne, setAddr_of_ne (by omega : ndirect ≠ bn)]
    · rw [setAddr_other hinum]

theorem allocIndirect (h : Holds first files owners addrs block freeblock)
    (hnew : (inum, Slot.indirect) ∉ owners)
    (hnone : ∀ bn, ndirect ≤ bn → (inum, Slot.data bn) ∉ owners) :
    Holds first files (owners ++ [(inum, .indirect)]) (setAddr addrs inum ndirect freeblock) block
      (freeblock + 1) := by
  apply h.grow hnew _ (fun _ _ _ => rfl) (fun _ _ => rfl)
  intro inum' slot hslot
  by_cases heq : (inum', slot) = (inum, Slot.indirect)
  · cases heq
    rw [place_append_self hnew, slotAddr, setAddr_self, h.free]
  · rw [place_append_of_ne heq]
    by_cases hinum : inum' = inum
    · subst hinum
      cases slot with
      | indirect => exact absurd rfl heq
      | data bn' =>
          by_cases hbn : bn' < ndirect
          · rw [← h.addr _ _ hslot, slotAddr, slotAddr, if_pos hbn, if_pos hbn,
              setAddr_of_ne (by omega)]
          · rw [place_of_not_mem (hnone bn' (by omega)), slotAddr, if_neg hbn, setAddr_self,
              h.fresh _ (Nat.le_refl _), uint_zero, ite_self]
    · rw [setAddr_other hinum, h.addr inum' slot hslot]

theorem slotAddr_update (h : Holds first files owners addrs block freeblock)
    {who : Nat × Slot} (hwho : who ∈ owners) (data : Bytes) {slot : Slot}
    (hne : (inum, Slot.indirect) ≠ who) :
    slotAddr (Function.update block (place first owners who) data) (addrs inum) slot =
      slotAddr block (addrs inum) slot := by
  have hind := h.addr inum .indirect trivial
  cases slot with
  | indirect => rfl
  | data bn =>
      rw [slotAddr, slotAddr]
      by_cases hzero : addrs inum ndirect = 0
      · rw [if_pos hzero, if_pos hzero]
      · have hin : (inum, Slot.indirect) ∈ owners := by
          by_contra hout
          exact hzero (hind.trans (place_of_not_mem hout))
        have haddr : addrs inum ndirect ≠ place first owners who := by
          intro heq
          exact hne (place_inj hin hwho (hind.symm.trans heq))
        rw [Function.update_of_ne haddr]

theorem allocEntry (h : Holds first files owners addrs block freeblock) (hfirst : 0 < first)
    (hfree : freeblock < 2 ^ 32) (hbn : ndirect ≤ bn) (hvalid : bn < maxFile)
    (hind : (inum, Slot.indirect) ∈ owners) (hnew : (inum, Slot.data bn) ∉ owners) :
    Holds first files (owners ++ [(inum, .data bn)]) addrs
      (Function.update block (addrs inum ndirect)
        (Bytes.setUint 4 (block (addrs inum ndirect)) (4 * (bn - ndirect)) freeblock))
      (freeblock + 1) := by
  have hplace : addrs inum ndirect = place first owners (inum, .indirect) :=
    h.addr inum .indirect trivial
  have hpos : 0 < addrs inum ndirect := by
    rw [hplace]
    exact Nat.lt_of_lt_of_le hfirst (le_place _ hind)
  have hlt : addrs inum ndirect < freeblock := by
    rw [hplace]
    exact h.place_lt hind
  apply h.grow hnew
  · intro inum' slot hslot
    by_cases hinum : inum' = inum
    · subst hinum
      cases slot with
      | indirect =>
          rw [place_append_of_ne (by simp), ← h.addr _ _ hslot]
          rfl
      | data bn' =>
          by_cases hdirect : bn' < ndirect
          · have hne : ((inum', Slot.data bn') : Nat × Slot) ≠ (inum', .data bn) := by
              intro heq
              cases heq
              omega
            rw [place_append_of_ne hne, ← h.addr _ _ hslot, slotAddr, slotAddr, if_pos hdirect,
              if_pos hdirect]
          · rw [slotAddr, if_neg hdirect, if_neg (by omega), Function.update_self]
            by_cases heq : bn' = bn
            · subst heq
              rw [place_append_self hnew, Bytes.uint_setUint_self (by simpa using hfree), h.free]
            · have hne : ((inum', Slot.data bn') : Nat × Slot) ≠ (inum', .data bn) := by
                intro hdata
                cases hdata
                exact heq rfl
              rw [place_append_of_ne hne, ← h.addr _ _ hslot, slotAddr, if_neg hdirect,
                if_neg (by omega), Bytes.uint_setUint_of_disjoint _ (by omega)]
    · have hne : ((inum', slot) : Nat × Slot) ≠ (inum, .data bn) := by
        intro heq
        cases heq
        exact hinum rfl
      rw [place_append_of_ne hne, hplace,
        h.slotAddr_update hind _ (fun heq => hinum (congrArg Prod.fst heq)),
        h.addr inum' slot hslot]
  · intro inum' bn' hin
    apply Function.update_of_ne
    intro heq
    rw [hplace] at heq
    cases place_inj hin hind heq
  · intro b hb
    exact Function.update_of_ne (by omega) _ _

theorem write (h : Holds first files owners addrs block freeblock)
    {off : Nat} (hoff : (files inum).length = off) (hin : (inum, Slot.data (off / bsize)) ∈ owners)
    {bytes : List UInt8} (hbytes : off % bsize + bytes.length ≤ bsize) :
    Holds first (Function.update files inum (files inum ++ bytes)) owners addrs
      (Function.update block (place first owners (inum, .data (off / bsize)))
        (Bytes.store (block (place first owners (inum, .data (off / bsize))))
          (off - off / bsize * bsize) bytes)) freeblock where
  free := h.free
  nodup := h.nodup
  addr inum' slot hslot := by
    rw [h.slotAddr_update hin _ (by simp), h.addr inum' slot hslot]
  covered inum' i hi := by
    by_cases hinum : inum' = inum
    · subst hinum
      rw [Function.update_self, List.length_append, hoff] at hi
      by_cases hold : i < off
      · exact h.covered inum' i (by omega)
      · have hdiv : i / bsize = off / bsize := by
          simp only [bsize] at hbytes ⊢
          omega
        rwa [hdiv]
    · rw [Function.update_of_ne hinum] at hi
      exact h.covered inum' i hi
  data inum' bn hbn j hj := by
    by_cases heq : ((inum', Slot.data bn) : Nat × Slot) = (inum, .data (off / bsize))
    · obtain ⟨rfl, rfl⟩ : inum' = inum ∧ bn = off / bsize := by
        simpa using heq
      have hold := h.data inum' _ hin j hj
      have hmod := Nat.div_add_mod' off bsize
      rw [Function.update_self, Function.update_self, Bytes.store]
      by_cases hrange : off - off / bsize * bsize ≤ j ∧
          j < off - off / bsize * bsize + bytes.length
      · rw [if_pos hrange, List.getD_append_right _ _ _ _ (by omega)]
        exact congrArg (bytes.getD · 0) (by omega)
      · rw [if_neg hrange, hold]
        by_cases hbefore : off / bsize * bsize + j < off
        · rw [List.getD_append _ _ _ _ (by omega)]
        · rw [List.getD_eq_default _ _ (by omega), List.getD_eq_default]
          rw [List.length_append]
          omega
    · have hne : place first owners (inum', .data bn) ≠
          place first owners (inum, .data (off / bsize)) :=
        fun hplace => heq (place_inj hbn hin hplace)
      rw [Function.update_of_ne hne, h.data inum' bn hbn j hj]
      by_cases hinum : inum' = inum
      · subst hinum
        have hbne : bn ≠ off / bsize := fun hbeq => heq (hbeq ▸ rfl)
        rw [Function.update_self]
        by_cases hbefore : bn * bsize + j < off
        · rw [List.getD_append _ _ _ _ (by omega)]
        · rw [List.getD_eq_default _ _ (by omega), List.getD_eq_default]
          simp only [List.length_append, bsize] at *
          omega
      · rw [Function.update_of_ne hinum]
  fresh b hb := by
    have hlt := h.place_lt hin
    rw [Function.update_of_ne (by omega), h.fresh b hb]

theorem congr (h : Holds first files owners addrs block freeblock) {block' : Nat → Bytes}
    (hblock : ∀ b, first ≤ b → block' b = block b) :
    Holds first files owners addrs block' freeblock where
  free := h.free
  nodup := h.nodup
  addr inum slot hslot := by
    rw [← h.addr inum slot hslot]
    have hind := h.addr inum .indirect trivial
    cases slot with
    | indirect => rfl
    | data bn =>
        rw [slotAddr, slotAddr]
        by_cases hzero : addrs inum ndirect = 0
        · rw [if_pos hzero, if_pos hzero]
        · have hin : (inum, Slot.indirect) ∈ owners := by
            by_contra hout
            exact hzero (hind.trans (place_of_not_mem hout))
          have hle : first ≤ addrs inum ndirect := by
            rw [show addrs inum ndirect = _ from hind]
            exact le_place _ hin
          rw [hblock _ hle]
  covered := h.covered
  data inum bn hbn j hj := by
    rw [hblock _ (le_place _ hbn), h.data inum bn hbn j hj]
  fresh b hb := by
    rw [hblock b (by rw [h.free] at hb; omega), h.fresh b hb]

end Holds

end Xv6.Mkfs
