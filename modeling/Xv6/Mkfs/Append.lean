import Mathlib.Algebra.BigOperators.Group.Finset.Basic
import Xv6.Mkfs.Allocation

/-!
# Appending to files

`iappend` succeeds where the file and the image have room, and then the file has the new bytes at its
end; otherwise it fails. One round of its loop finds or allocates a block (`appendBlock_spec`) and
writes to it (`iappendFrom_spec`), and the call writes the inode back (`iappend_spec`).
-/

namespace Xv6.Mkfs

theorem xint_of_lt {x : Nat} (hx : x < 2 ^ 32) : xint x = x :=
  Bytes.uint_setUint_self (by simpa using hx)

theorem xint_uint (data : Bytes) (off : Nat) :
    xint (Bytes.uint 4 data off) = Bytes.uint 4 data off :=
  Bytes.uint_setUint_self (Bytes.uint_lt _ _ _)

section Sectors

theorem seek_of_lt {sec : Nat} (hsec : sec < 2 ^ 22) : seek sec = sec := by
  simp only [seek, bsize]
  omega

theorem rsect_of_lt (image : Image) (sec : Nat) (hsec : sec < image.size) (hsize : image.size < 2 ^ 22) :
    rsect image sec = .ok (image.block sec) := by
  rw [rsect, seek_of_lt (by omega), if_pos hsec]

theorem rsect_of_le (image : Image) (sec : Nat) (hsec : image.size ≤ sec) (hlt : sec < 2 ^ 22) :
    rsect image sec = .error (.die "read") := by
  rw [rsect, seek_of_lt hlt, if_neg (by omega)]

theorem wsect_of_lt (image : Image) (sec : Nat) (hsec : sec < image.size) (hsize : image.size < 2 ^ 22) (buf : Bytes) :
    wsect image sec buf = { image with block := Function.update image.block sec buf } := by
  rw [wsect, seek_of_lt (by omega), Nat.max_eq_left hsec]

end Sectors

theorem Conf.fsSize_lt_seek (conf : Conf) : conf.fsSize < 2 ^ 22 :=
  Nat.lt_trans conf.fsSize_lt (by decide)

theorem Conf.nmeta_pos (conf : Conf) : 0 < conf.nmeta := by
  simp only [Conf.nmeta, Mkfs.nmeta]
  omega

theorem blocksOf_add (off n : Nat) (hn : 0 < n) (hroom : off % bsize + n ≤ bsize) :
    blocksOf (off + n) = blocksOf off + (if off % bsize = 0 then 1 else 0) +
      if off = ndirect * bsize then 1 else 0 := by
  unfold blocksOf
  split_ifs <;> simp only [bsize, ndirect] at * <;> omega

theorem blocksOf_mono {small large : Nat} (hle : small ≤ large) :
    blocksOf small ≤ blocksOf large := by
  unfold blocksOf
  split_ifs <;> simp only [bsize, ndirect] at * <;> omega

structure Frame (conf : Conf) (inum : Nat) (addrs : Nat → Nat → Nat) (din : Bytes) (state : State)
    (addrs' : Nat → Nat → Nat) (din' : Bytes) (state' : State) : Prop where
  size : state'.image.size = state.image.size
  freeinode : state'.freeinode = state.freeinode
  block : ∀ b, b < conf.nmeta → state'.image.block b = state.image.block b
  din : ∀ i, i < addrOff 0 → din' i = din i
  addrs : ∀ i, i ≠ inum → addrs' i = addrs i

namespace Frame

variable {conf : Conf} {inum : Nat} {addrs addrs' addrs'' : Nat → Nat → Nat}
  {din din' din'' : Bytes} {state state' state'' : State}

theorem refl (conf : Conf) (inum : Nat) (addrs : Nat → Nat → Nat) (din : Bytes) (state : State) :
    Frame conf inum addrs din state addrs din state :=
  ⟨rfl, rfl, fun _ _ => rfl, fun _ _ => rfl, fun _ _ => rfl⟩

theorem trans (h : Frame conf inum addrs din state addrs' din' state')
    (h' : Frame conf inum addrs' din' state' addrs'' din'' state'') :
    Frame conf inum addrs din state addrs'' din'' state'' where
  size := h'.size.trans h.size
  freeinode := h'.freeinode.trans h.freeinode
  block b hb := (h'.block b hb).trans (h.block b hb)
  din i hi := (h'.din i hi).trans (h.din i hi)
  addrs i hi := (h'.addrs i hi).trans (h.addrs i hi)

theorem setAddr {k addr freeblock : Nat} :
    Frame conf inum addrs din state (Mkfs.setAddr addrs inum k addr)
      (Bytes.setUint 4 din (addrOff k) addr) { state with freeblock } where
  size := rfl
  freeinode := rfl
  block _ _ := rfl
  din i hi := Bytes.setUint_of_outside _ (Or.inl (by simp only [addrOff] at *; omega))
  addrs i hi := setAddr_other hi

end Frame

theorem uint_setUint_addr {din : Bytes} {addrs : Nat → Nat → Nat} {inum k addr : Nat}
    (hdin : ∀ k, k ≤ ndirect → Bytes.uint 4 din (addrOff k) = addrs inum k)
    (haddr : addr < 2 ^ 32) : ∀ k', k' ≤ ndirect →
      Bytes.uint 4 (Bytes.setUint 4 din (addrOff k) addr) (addrOff k') =
        setAddr addrs inum k addr inum k' := by
  intro k' hk'
  by_cases heq : k' = k
  · subst heq
    rw [setAddr_self, Bytes.uint_setUint_self (by simpa using haddr)]
  · rw [setAddr_of_ne heq, Bytes.uint_setUint_of_disjoint _ (by simp only [addrOff]; omega),
      hdin k' hk']

/-! ### Finding a block -/

/-- The block of slot `fbn` is there: it is `x`. -/
structure Found (conf : Conf) (files : Nat → List UInt8) (inum fbn x : Nat)
    (owners : List (Nat × Slot)) (addrs : Nat → Nat → Nat) (din : Bytes) (state : State) : Prop where
  holds : Holds conf.nmeta files owners addrs state.image.block state.freeblock
  mem : (inum, .data fbn) ∈ owners
  eq : x = place conf.nmeta owners (inum, .data fbn)
  din : ∀ k, k ≤ ndirect → Bytes.uint 4 din (addrOff k) = addrs inum k

section Find

variable {conf : Conf} {files : Nat → List UInt8} {inum fbn : Nat} {owners : List (Nat × Slot)}
  {addrs : Nat → Nat → Nat} {din : Bytes} {state : State}

theorem entry_spec (state : State)
    (h : Holds conf.nmeta files owners addrs state.image.block state.freeblock)
    (hsize : state.image.size = conf.fsSize) (hfree : state.freeblock < 2 ^ 32)
    (hdin : ∀ k, k ≤ ndirect → Bytes.uint 4 din (addrOff k) = addrs inum k)
    (hbn : ndirect ≤ fbn) (hvalid : fbn < maxFile) (hind : (inum, Slot.indirect) ∈ owners)
    (hlt : addrs inum ndirect < conf.fsSize) :
    ∃ x state' owners', appendBlock.entry fbn din state = .ok (x, din, state') ∧
      Found conf files inum fbn x owners' addrs din state' ∧
      Frame conf inum addrs din state addrs din state' ∧
      owners' = (if (inum, Slot.data fbn) ∈ owners then owners
        else owners ++ [(inum, .data fbn)]) ∧
      state'.freeblock =
        state.freeblock + (if (inum, Slot.data fbn) ∈ owners then 0 else 1) ∧
      x ≤ state.freeblock ∧ ((inum, Slot.data fbn) ∉ owners → x + 1 = state'.freeblock) := by
  have hfs := conf.fsSize_lt_seek
  have hplace : addrs inum ndirect = place conf.nmeta owners (inum, .indirect) :=
    h.addr inum .indirect trivial
  have hle : conf.nmeta ≤ addrs inum ndirect := hplace ▸ le_place _ hind
  have hpos := conf.nmeta_pos
  have hread : rsect state.image (addrs inum ndirect) =
      .ok (state.image.block (addrs inum ndirect)) := rsect_of_lt _ _ (by omega) (by omega)
  have hentry := h.addr inum (.data fbn) hvalid
  rw [slotAddr, if_neg (by omega), if_neg (by omega)] at hentry
  rw [appendBlock.entry, xint_uint, hdin ndirect (Nat.le_refl _), hread]
  by_cases hin : (inum, Slot.data fbn) ∈ owners
  · have hne : Bytes.uint 4 (state.image.block (addrs inum ndirect)) (4 * (fbn - ndirect)) ≠ 0 := by
      have hle' := le_place conf.nmeta hin
      omega
    refine ⟨place conf.nmeta owners (inum, .data fbn), state, owners, ?_, ⟨h, hin, rfl, hdin⟩,
      .refl .., (if_pos hin).symm, by simp [hin], Nat.le_of_lt (h.place_lt hin),
      fun hnot => absurd hin hnot⟩
    simp only [bind, Except.bind, pure, Except.pure]
    rw [if_neg hne, xint_uint, hentry]
  · have hzero : Bytes.uint 4 (state.image.block (addrs inum ndirect)) (4 * (fbn - ndirect)) = 0 := by
      rw [hentry, place_of_not_mem hin]
    let data := Bytes.setUint 4 (state.image.block (addrs inum ndirect)) (4 * (fbn - ndirect))
      state.freeblock
    let image : Image :=
      { state.image with block := Function.update state.image.block (addrs inum ndirect) data }
    refine ⟨state.freeblock, { state with image, freeblock := state.freeblock + 1 },
      owners ++ [(inum, .data fbn)], ?_, ⟨?_, by simp, ?_, hdin⟩, ?_, (if_neg hin).symm,
      by simp [hin], Nat.le_refl _, fun _ => rfl⟩
    · simp only [bind, Except.bind, pure, Except.pure]
      rw [if_pos hzero, wsect_of_lt _ _ (by omega) (by omega), xint_of_lt hfree, xint_uint,
        Bytes.uint_setUint_self (by simpa using hfree)]
    · exact h.allocEntry hpos hfree hbn hvalid hind hin
    · rw [place_append_self hin, h.free]
    · refine ⟨rfl, rfl, fun b hb => ?_, fun _ _ => rfl, fun _ _ => rfl⟩
      exact Function.update_of_ne (by omega) _ _

theorem appendBlock_spec {off : Nat}
    (h : Holds conf.nmeta files owners addrs state.image.block state.freeblock)
    (hmem : ∀ inum slot, (inum, slot) ∈ owners ↔ slot.Used (files inum).length)
    (hsize : state.image.size = conf.fsSize) (hle : state.freeblock ≤ conf.fsSize)
    (hdin : ∀ k, k ≤ ndirect → Bytes.uint 4 din (addrOff k) = addrs inum k)
    (hoff : (files inum).length = off) (hvalid : off / bsize < maxFile) :
    match appendBlock din (off / bsize) state with
    | .error _ => off % bsize = 0 ∧ conf.fsSize ≤ state.freeblock
    | .ok (x, din', state') =>
        ∃ owners' addrs', Found conf files inum (off / bsize) x owners' addrs' din' state' ∧
          Frame conf inum addrs din state addrs' din' state' ∧
          (∀ who, who ∈ owners' ↔ who ∈ owners ∨ who = (inum, .data (off / bsize)) ∨
            ndirect * bsize ≤ off ∧ who = (inum, .indirect)) ∧
          state'.freeblock = state.freeblock + (if off % bsize = 0 then 1 else 0) +
            (if off = ndirect * bsize then 1 else 0) ∧
          x ≤ conf.fsSize ∧ (off % bsize = 0 → x + 1 = state'.freeblock) := by
  have hfs := conf.fsSize_lt_seek
  have hpos := conf.nmeta_pos
  have hfree : state.freeblock < 2 ^ 32 := by omega
  have hdata : (inum, Slot.data (off / bsize)) ∈ owners ↔ off % bsize ≠ 0 := by
    rw [hmem, hoff]
    simp only [Slot.Used, bsize]
    omega
  have hindirect : (inum, Slot.indirect) ∈ owners ↔ ndirect * bsize < off := by
    rw [hmem, hoff]
    exact Iff.rfl
  by_cases hbn : off / bsize < ndirect
  · have haddr := h.addr inum (.data (off / bsize)) hvalid
    rw [slotAddr, if_pos hbn] at haddr
    have hoff' : off < ndirect * bsize := by
      simp only [ndirect, bsize] at *
      omega
    rw [appendBlock, if_pos hbn, xint_uint, hdin _ (by omega), haddr]
    by_cases hmod : off % bsize = 0
    · have hnew : (inum, Slot.data (off / bsize)) ∉ owners := fun hin => hdata.mp hin hmod
      rw [if_pos (place_of_not_mem hnew), xint_of_lt hfree]
      dsimp only
      rw [xint_uint, Bytes.uint_setUint_self (by simpa using hfree)]
      refine ⟨_, _, ⟨h.allocDirect hbn hnew, by simp, ?_, uint_setUint_addr hdin hfree⟩,
        .setAddr, ?_, ?_, hle, fun _ => rfl⟩
      · rw [place_append_self hnew, h.free]
      · intro who
        have hlow : ¬ndirect * bsize ≤ off := by omega
        simp [hlow]
      · rw [if_pos hmod, if_neg (by omega)]
    · have hin := hdata.mpr hmod
      have hne : place conf.nmeta owners (inum, .data (off / bsize)) ≠ 0 := by
        have hle' := le_place conf.nmeta hin
        omega
      rw [if_neg hne]
      refine ⟨_, _, ⟨h, hin, rfl, hdin⟩, .refl .., ?_, ?_,
        Nat.le_of_lt (Nat.lt_of_lt_of_le (h.place_lt hin) hle), fun hzero => absurd hzero hmod⟩
      · intro who
        have hlow : ¬ndirect * bsize ≤ off := by omega
        constructor
        · exact Or.inl
        · rintro (hwho | rfl | hwho)
          · exact hwho
          · exact hin
          · exact absurd hwho.1 hlow
      · rw [if_neg hmod, if_neg (by omega)]
        rfl
  · have hhigh : ndirect * bsize ≤ off := by
      simp only [ndirect, bsize] at *
      omega
    have haddr : addrs inum ndirect = place conf.nmeta owners (inum, .indirect) :=
      h.addr inum .indirect trivial
    rw [appendBlock, if_neg hbn, xint_uint, hdin _ (Nat.le_refl _)]
    by_cases hfirst : off = ndirect * bsize
    · have hnew : (inum, Slot.indirect) ∉ owners := by
        rw [hindirect]
        omega
      have hmod : off % bsize = 0 := by
        rw [hfirst]
        decide
      have hnone : ∀ bn, ndirect ≤ bn → (inum, Slot.data bn) ∉ owners := by
        intro bn hbn
        rw [hmem, hoff]
        simp only [Slot.Used, bsize, ndirect] at *
        omega
      rw [if_pos (haddr.trans (place_of_not_mem hnew)), xint_of_lt hfree]
      have hholds := h.allocIndirect hnew hnone
      have hdin' := uint_setUint_addr (k := ndirect) hdin hfree
      by_cases hroom : state.freeblock < conf.fsSize
      · obtain ⟨x, state', owners', heq, hfound, hframe, howners, hcount, hx, hlast⟩ :=
          entry_spec { state with freeblock := state.freeblock + 1 } hholds hsize
            (by simp only; omega) hdin' (by omega) hvalid (by simp) (by rwa [setAddr_self])
        have hnot : (inum, Slot.data (off / bsize)) ∉ owners ++ [(inum, Slot.indirect)] := by
          simp [hnone (off / bsize) (by omega)]
        rw [heq]
        refine ⟨owners', _, hfound, Frame.trans .setAddr hframe, ?_, ?_, ?_, fun _ => hlast hnot⟩
        · intro who
          rw [howners, if_neg hnot]
          simp only [List.mem_append, List.mem_singleton]
          constructor
          · rintro ((hwho | hwho) | hwho)
            · exact .inl hwho
            · exact .inr (.inr ⟨hhigh, hwho⟩)
            · exact .inr (.inl hwho)
          · rintro (hwho | hwho | ⟨_, hwho⟩)
            · exact .inl (.inl hwho)
            · exact .inr hwho
            · exact .inl (.inr hwho)
        · rw [hcount, if_neg hnot, if_pos hmod, if_pos hfirst]
        · exact Nat.le_trans hx hroom
      · have hread := rsect_of_le state.image state.freeblock (by omega) (by omega)
        rw [appendBlock.entry, xint_uint, Bytes.uint_setUint_self (by simpa using hfree), hread]
        exact ⟨hmod, by omega⟩
    · have hind := hindirect.mpr (by omega)
      have hne : addrs inum ndirect ≠ 0 := by
        have hle' := le_place conf.nmeta hind
        omega
      have hlt : addrs inum ndirect < conf.fsSize := by
        rw [haddr]
        exact Nat.lt_of_lt_of_le (h.place_lt hind) hle
      obtain ⟨x, state', owners', heq, hfound, hframe, howners, hcount, hx, hlast⟩ :=
        entry_spec state h hsize hfree hdin (by omega) hvalid hind hlt
      rw [if_neg hne, heq]
      refine ⟨owners', _, hfound, hframe, ?_, ?_, Nat.le_trans hx hle,
        fun hmod => hlast fun hin => hdata.mp hin hmod⟩
      · intro who
        rw [howners]
        split
        · next hin =>
            constructor
            · exact Or.inl
            · rintro (hwho | rfl | ⟨_, rfl⟩)
              · exact hwho
              · exact hin
              · exact hind
        · simp only [List.mem_append, List.mem_singleton]
          constructor
          · rintro (hwho | hwho)
            · exact .inl hwho
            · exact .inr (.inl hwho)
          · rintro (hwho | hwho | ⟨_, rfl⟩)
            · exact .inl hwho
            · exact .inr hwho
            · exact .inl hind
      · rw [hcount, if_neg hfirst]
        by_cases hmod : off % bsize = 0
        · rw [if_neg fun hin => hdata.mp hin hmod, if_pos hmod]
        · rw [if_pos (hdata.mpr hmod), if_neg hmod]

end Find

/-! ### Rounds -/

/-- The tool is appending to `inum`, whose dinode is `din`. -/
structure Appending (conf : Conf) (files : Nat → List UInt8) (inum : Nat)
    (owners : List (Nat × Slot)) (addrs : Nat → Nat → Nat) (din : Bytes) (state : State) : Prop where
  holds : Holds conf.nmeta files owners addrs state.image.block state.freeblock
  mem : ∀ i slot, (i, slot) ∈ owners ↔ slot.Used (files i).length
  length : ∀ i, (files i).length ≤ maxFile * bsize
  size : state.image.size = conf.fsSize
  le : state.freeblock ≤ conf.fsSize
  din : ∀ k, k ≤ ndirect → Bytes.uint 4 din (addrOff k) = addrs inum k

section Rounds

variable {conf : Conf} {files : Nat → List UInt8} {inum : Nat} {owners : List (Nat × Slot)}
  {addrs : Nat → Nat → Nat} {din : Bytes} {state : State}

theorem mem_append_iff {off n : Nat} {owners' : List (Nat × Slot)} {bytes : List UInt8}
    (hmem : ∀ i slot, (i, slot) ∈ owners ↔ slot.Used (files i).length)
    (hoff : (files inum).length = off)
    (hgrown : ∀ who, who ∈ owners' ↔ who ∈ owners ∨ who = (inum, .data (off / bsize)) ∨
      ndirect * bsize ≤ off ∧ who = (inum, .indirect))
    (hn : bytes.length = n) (hpos : 0 < n) (hroom : off % bsize + n ≤ bsize) (i : Nat) (slot : Slot) :
    (i, slot) ∈ owners' ↔ slot.Used (Function.update files inum (files inum ++ bytes) i).length := by
  rw [hgrown, hmem]
  by_cases hi : i = inum
  · subst hi
    rw [Function.update_self, List.length_append, hoff, hn]
    cases slot with
    | data bn =>
        simp only [Slot.Used, Prod.mk.injEq, true_and, Slot.data.injEq, reduceCtorEq, and_false,
          or_false, bsize] at *
        omega
    | indirect =>
        simp only [Slot.Used, Prod.mk.injEq, true_and, reduceCtorEq, false_or, and_true, bsize,
          ndirect] at *
        omega
  · rw [Function.update_of_ne hi]
    simp [hi]

theorem Found.write {off n x : Nat} {owners' : List (Nat × Slot)} {bytes : List UInt8}
    (hfound : Found conf files inum (off / bsize) x owners' addrs din state)
    (hmem : ∀ i slot, (i, slot) ∈ owners ↔ slot.Used (files i).length)
    (hlength : ∀ i, (files i).length ≤ maxFile * bsize) (hvalid : off / bsize < maxFile)
    (hgrown : ∀ who, who ∈ owners' ↔ who ∈ owners ∨ who = (inum, .data (off / bsize)) ∨
      ndirect * bsize ≤ off ∧ who = (inum, .indirect))
    (hsize : state.image.size = conf.fsSize) (hle : state.freeblock ≤ conf.fsSize)
    (hoff : (files inum).length = off) (hn : bytes.length = n) (hpos : 0 < n)
    (hroom : off % bsize + n ≤ bsize) {image : Image}
    (himage : image = wsect state.image x
      (Bytes.store (state.image.block x) (off - off / bsize * bsize) bytes)) :
    Appending conf (Function.update files inum (files inum ++ bytes)) inum owners' addrs din
        { state with image := image } ∧
      Frame conf inum addrs din state addrs din { state with image := image } := by
  have hfs := conf.fsSize_lt_seek
  have hlt : x < state.freeblock := hfound.eq ▸ hfound.holds.place_lt hfound.mem
  have hplace : conf.nmeta ≤ x := hfound.eq ▸ le_place _ hfound.mem
  rw [wsect_of_lt _ _ (by omega) (by omega)] at himage
  subst himage
  refine ⟨⟨?_, mem_append_iff hmem hoff hgrown hn hpos hroom, ?_, hsize, hle, hfound.din⟩,
    rfl, rfl, fun b hb => ?_, fun _ _ => rfl, fun _ _ => rfl⟩
  · rw [hfound.eq]
    exact hfound.holds.write hoff hfound.mem (by omega)
  · intro i
    by_cases hi : i = inum
    · subst hi
      rw [Function.update_self, List.length_append, hoff, hn]
      simp only [bsize] at *
      omega
    · rw [Function.update_of_ne hi]
      exact hlength i
  · exact Function.update_of_ne (by omega) _ _

theorem iappendFrom_spec {fuel off : Nat} {p : List UInt8}
    (h : Appending conf files inum owners addrs din state) (hoff : (files inum).length = off)
    (hfuel : p.length ≤ fuel) :
    match iappendFrom fuel din off p state with
    | .error _ => maxFile * bsize < off + p.length ∨
        conf.fsSize + blocksOf off < state.freeblock + blocksOf (off + p.length)
    | .ok (din', off', state') => off' = off + p.length ∧
        state'.freeblock + blocksOf off = state.freeblock + blocksOf (off + p.length) ∧
        ∃ owners' addrs', Frame conf inum addrs din state addrs' din' state' ∧
          Appending conf (Function.update files inum (files inum ++ p)) inum owners' addrs' din'
            state' := by
  induction fuel generalizing files owners addrs din state off p with
  | zero =>
      obtain rfl : p = [] := List.length_eq_zero_iff.mp (Nat.le_zero.mp hfuel)
      rw [List.append_nil, Function.update_eq_self]
      exact ⟨rfl, rfl, owners, addrs, .refl .., h⟩
  | succ fuel ih =>
      rw [iappendFrom]
      by_cases hp : 0 < p.length
      · rw [if_pos hp]
        by_cases hvalid : off / bsize < maxFile
        · rw [if_pos hvalid]
          have hfs := conf.fsSize_lt_seek
          have hfound := appendBlock_spec h.holds h.mem h.size h.le h.din hoff hvalid
          have hone := blocksOf_add off 1 Nat.one_pos (Nat.mod_lt off (by decide))
          have hmono := blocksOf_mono (show off + 1 ≤ off + p.length by omega)
          cases hblock : appendBlock din (off / bsize) state with
          | error failure =>
              rw [hblock] at hfound
              obtain ⟨hmod, hfull⟩ := hfound
              rw [if_pos hmod] at hone
              exact Or.inr (by omega)
          | ok result =>
              obtain ⟨x, din', state'⟩ := result
              rw [hblock] at hfound
              obtain ⟨owners', addrs', hfound, hframe, hgrown, hcount, hx, hlast⟩ := hfound
              have hsize := hframe.size.trans h.size
              by_cases hroom : state'.freeblock ≤ conf.fsSize
              · have hlt : x < state'.freeblock := hfound.eq ▸ hfound.holds.place_lt hfound.mem
                have hread : rsect state'.image x = .ok (state'.image.block x) :=
                  rsect_of_lt _ _ (by omega) (by omega)
                -- the round writes the bytes up to the end of the block
                generalize hn : min p.length ((off / bsize + 1) * bsize - off) = n
                have hdiv := Nat.div_add_mod' off bsize
                have hmod := Nat.mod_lt off (show 0 < bsize by decide)
                have hsucc : (off / bsize + 1) * bsize = off / bsize * bsize + bsize :=
                  Nat.succ_mul _ _
                have htake : (p.take n).length = n := by
                  rw [List.length_take]
                  omega
                have hdrop : (p.drop n).length = p.length - n := List.length_drop
                have hadd := blocksOf_add off n (by omega) (by omega)
                obtain ⟨hnext, hframe'⟩ := hfound.write h.mem h.length hvalid hgrown hsize hroom
                  hoff htake (by omega) (by omega) rfl
                have hlength : (Function.update files inum (files inum ++ p.take n) inum).length =
                    off + n := by
                  rw [Function.update_self, List.length_append, hoff, htake]
                have hrest := ih hnext hlength (show (p.drop n).length ≤ fuel by omega)
                rw [hdrop, show off + n + (p.length - n) = off + p.length by omega] at hrest
                simp only [bind, Except.bind, hread]
                generalize iappendFrom fuel din' (off + n) (p.drop n) _ = outcome at hrest ⊢
                cases outcome with
                | error failure =>
                    dsimp only at hrest ⊢
                    omega
                | ok outcome =>
                    obtain ⟨din'', off'', state''⟩ := outcome
                    obtain ⟨hoff'', hcount', owners'', addrs'', hframe'', happend⟩ := hrest
                    dsimp only at hcount'
                    rw [Function.update_self, Function.update_idem, List.append_assoc,
                      List.take_append_drop] at happend
                    exact ⟨hoff'', by omega, owners'', addrs'',
                      (hframe.trans hframe').trans hframe'', happend⟩
              · have hmod : off % bsize = 0 := by
                  by_contra hne
                  have hne' : off ≠ ndirect * bsize := by
                    rintro rfl
                    exact hne (by decide)
                  rw [if_neg hne, if_neg hne'] at hcount
                  have hle := h.le
                  omega
                have hx' := hlast hmod
                have hread := rsect_of_le state'.image x (by omega) (by omega)
                simp only [bind, Except.bind, hread]
                exact Or.inr (by omega)
        · rw [if_neg hvalid]
          have hlong : maxFile * bsize ≤ off :=
            (Nat.le_div_iff_mul_le (by decide)).mp (Nat.le_of_not_lt hvalid)
          exact Or.inl (by omega)
      · rw [if_neg hp]
        obtain rfl : p = [] := List.length_eq_zero_iff.mp (by omega)
        rw [List.append_nil, Function.update_eq_self]
        exact ⟨rfl, rfl, owners, addrs, .refl .., h⟩

end Rounds

/-! ### Inodes -/

def inodeRoom : Nat := ninodeBlocks * ipb

theorem Conf.iblock_lt (conf : Conf) {inum : Nat} (hinum : inum < inodeRoom) :
    1 < conf.sb.iblock inum ∧ conf.sb.iblock inum < conf.sb.bmapstart ∧
      conf.sb.bmapstart < conf.nmeta := by
  have hdiv : inum / ipb < ninodeBlocks := Nat.div_lt_of_lt_mul (by rwa [Nat.mul_comm])
  have hpos := Nat.zero_le (inum / ipb)
  have hbitmap := Nat.zero_le (conf.fsSize / bpb)
  simp only [Conf.sb, superblock, Superblock.iblock, Conf.nmeta, Mkfs.nmeta, nbitmap]
  omega

theorem dinodeOff_disjoint {sb : Superblock} {inum inum' : Nat} (hne : inum' ≠ inum)
    (hblock : sb.iblock inum' = sb.iblock inum) :
    dinodeOff inum' + dinodeSize ≤ dinodeOff inum ∨
      dinodeOff inum + dinodeSize ≤ dinodeOff inum' := by
  simp only [Superblock.iblock, dinodeOff, ipb, bsize, dinodeSize] at *
  omega

def storeDinode (block : Nat → Bytes) (sb : Superblock) (inum : Nat) (ip : Bytes) : Nat → Bytes :=
  Function.update block (sb.iblock inum)
    (Bytes.store (block (sb.iblock inum)) (dinodeOff inum) (Bytes.load ip 0 dinodeSize))

section Winode

variable (conf : Conf) (image : Image) (inum : Nat) (ip : Bytes)

theorem winode_eq (hinum : inum < inodeRoom) (hsize : image.size = conf.fsSize) :
    winode conf inum ip image =
      .ok { image with block := storeDinode image.block conf.sb inum ip } := by
  have hblock := conf.iblock_lt hinum
  have hmeta : conf.nmeta < conf.fsSize := conf.nmeta_lt
  have hfs := conf.fsSize_lt_seek
  have hread := rsect_of_lt image (conf.sb.iblock inum) (by omega) (by omega)
  have hwrite := wsect_of_lt image (conf.sb.iblock inum) (by omega) (by omega)
  simp only [winode, bind, Except.bind, hread, hwrite]
  rfl

theorem rinode_eq (hinum : inum < inodeRoom) (hsize : image.size = conf.fsSize) :
    rinode conf inum image = .ok (dinodeAt image.block conf.sb inum) := by
  have hblock := conf.iblock_lt hinum
  have hmeta : conf.nmeta < conf.fsSize := conf.nmeta_lt
  have hfs := conf.fsSize_lt_seek
  have hread := rsect_of_lt image (conf.sb.iblock inum) (by omega) (by omega)
  simp only [rinode, bind, Except.bind, hread]
  rfl

variable {inum ip} {block : Nat → Bytes} {sb : Superblock} {i : Nat}

theorem storeDinode_of_ne {b : Nat} (hne : b ≠ sb.iblock inum) :
    storeDinode block sb inum ip b = block b := Function.update_of_ne hne _ _

theorem dinodeAt_storeDinode (hi : i < dinodeSize) :
    dinodeAt (storeDinode block sb inum ip) sb inum i = ip i := by
  rw [dinodeAt, storeDinode, Function.update_self, Bytes.store_of_inside (by rwa [Bytes.length_load])]
  simp [Bytes.load]

theorem dinodeAt_storeDinode_of_ne {inum' : Nat} (hne : inum' ≠ inum) (hi : i < dinodeSize) :
    dinodeAt (storeDinode block sb inum ip) sb inum' i = dinodeAt block sb inum' i := by
  rw [dinodeAt, dinodeAt, storeDinode]
  by_cases hblock : sb.iblock inum' = sb.iblock inum
  · have hdisjoint := dinodeOff_disjoint hne hblock
    rw [hblock, Function.update_self, Bytes.store_of_outside (by rw [Bytes.length_load]; omega)]
  · rw [Function.update_of_ne hblock]

end Winode

theorem uint_dinode_congr {width off : Nat} {din din' : Bytes}
    (h : ∀ i, i < dinodeSize → din' i = din i) (hoff : off + width ≤ dinodeSize) :
    Bytes.uint width din' off = Bytes.uint width din off :=
  Bytes.uint_congr fun i _ hi => h i (by omega)

structure Built (conf : Conf) (files : Nat → List UInt8) (owners : List (Nat × Slot))
    (addrs : Nat → Nat → Nat) (state : State) : Prop where
  holds : Holds conf.nmeta files owners addrs state.image.block state.freeblock
  mem : ∀ i slot, (i, slot) ∈ owners ↔ slot.Used (files i).length
  length : ∀ i, (files i).length ≤ maxFile * bsize
  size : state.image.size = conf.fsSize
  le : state.freeblock ≤ conf.fsSize
  pos : 0 < state.freeinode
  room : state.freeinode ≤ inodeRoom
  none : ∀ i, i = 0 ∨ state.freeinode ≤ i → files i = []
  addrs : ∀ i, i < inodeRoom → ∀ k, k ≤ ndirect → addrsOf state.image.block conf.sb i k = addrs i k
  sizes : ∀ i, i < inodeRoom → sizeOf state.image.block conf.sb i = (files i).length
  types : ∀ i, i < inodeRoom →
    (typeOf state.image.block conf.sb i ≠ 0 ↔ 0 < i ∧ i < state.freeinode)
  super : state.image.block 1 = sbBlock conf.sb
  total : state.freeblock =
    conf.nmeta + ∑ i ∈ Finset.range state.freeinode, blocksOf (files i).length

def Builds (conf : Conf) (files : Nat → List UInt8) (state : State) : Prop :=
  ∃ owners addrs, Built conf files owners addrs state

section Calls

variable {conf : Conf} {files : Nat → List UInt8} {inum : Nat} {state : State}

theorem sum_update (files : Nat → List UInt8) {n : Nat} (hinum : inum < n) (bytes : List UInt8) :
    (∑ i ∈ Finset.range n, blocksOf (Function.update files inum bytes i).length) +
        blocksOf (files inum).length =
      (∑ i ∈ Finset.range n, blocksOf (files i).length) + blocksOf bytes.length := by
  have hmem : inum ∈ Finset.range n := Finset.mem_range.mpr hinum
  rw [← Finset.add_sum_erase _ _ hmem, ← Finset.add_sum_erase _ _ hmem, Function.update_self]
  have hrest : ∑ i ∈ (Finset.range n).erase inum,
      blocksOf (Function.update files inum bytes i).length =
        ∑ i ∈ (Finset.range n).erase inum, blocksOf (files i).length :=
    Finset.sum_congr rfl fun i hi => by
      rw [Function.update_of_ne (Finset.ne_of_mem_erase hi)]
  rw [hrest]
  omega

theorem iappend_spec (xp : List UInt8) (h : Builds conf files state) (hpos : 0 < inum)
    (hinum : inum < state.freeinode) :
    match iappend conf inum xp state with
    | .error _ => maxFile * bsize < (files inum).length + xp.length ∨
        conf.fsSize + blocksOf (files inum).length <
          state.freeblock + blocksOf ((files inum).length + xp.length)
    | .ok state' => Builds conf (Function.update files inum (files inum ++ xp)) state' ∧
        state'.freeinode = state.freeinode := by
  obtain ⟨owners, addrs, h⟩ := h
  have hroom : inum < inodeRoom := Nat.lt_of_lt_of_le hinum h.room
  have hblock := conf.iblock_lt hroom
  have hread := rinode_eq conf state.image inum hroom h.size
  have hlong : maxFile * bsize < 2 ^ 32 := by decide
  have hlength := h.length inum
  have hoff : xint (Bytes.uint 4 (dinodeAt state.image.block conf.sb inum) sizeOff) =
      (files inum).length := by
    rw [xint_uint]
    exact h.sizes inum hroom
  have hloop := iappendFrom_spec
    ⟨h.holds, h.mem, h.length, h.size, h.le, h.addrs inum hroom⟩ rfl (Nat.le_refl xp.length)
  simp only [iappend, bind, Except.bind, hread, hoff]
  generalize iappendFrom xp.length _ _ xp state = outcome at hloop ⊢
  cases outcome with
  | error failure => exact hloop
  | ok outcome =>
      obtain ⟨din, off, state'⟩ := outcome
      obtain ⟨hoff', hcount, owners', addrs', hframe, happend⟩ := hloop
      have hlength' := happend.length inum
      rw [Function.update_self, List.length_append] at hlength'
      have hwrite := winode_eq conf state'.image inum
        (Bytes.setUint 4 din sizeOff (xint off)) hroom happend.size
      simp only [hwrite, pure, Except.pure]
      refine ⟨⟨owners', addrs', ?_⟩, hframe.freeinode⟩
      generalize hdin : Bytes.setUint 4 din sizeOff (xint off) = din'
      have hself : ∀ i, i < dinodeSize →
          dinodeAt (storeDinode state'.image.block conf.sb inum din') conf.sb inum i = din' i :=
        fun i hi => dinodeAt_storeDinode hi
      have hother : ∀ i, i ≠ inum → i < inodeRoom → ∀ j, j < dinodeSize →
          dinodeAt (storeDinode state'.image.block conf.sb inum din') conf.sb i j =
            dinodeAt state.image.block conf.sb i j := by
        intro i hi hlt j hj
        have hlt' := conf.iblock_lt hlt
        rw [dinodeAt_storeDinode_of_ne hi hj, dinodeAt, dinodeAt, hframe.block _ (by omega)]
      have hxint : xint off = (files inum).length + xp.length := by
        rw [hoff', xint_of_lt (by omega)]
      exact {
        holds := happend.holds.congr fun b hb => storeDinode_of_ne (by omega)
        mem := happend.mem
        length := happend.length
        size := happend.size
        le := happend.le
        pos := hframe.freeinode ▸ h.pos
        room := hframe.freeinode ▸ h.room
        none := by
          intro i hi
          dsimp only at hi
          rw [hframe.freeinode] at hi
          rw [Function.update_of_ne (by omega)]
          exact h.none i hi
        addrs := by
          intro i hi k hk
          have hfit : addrOff k + 4 ≤ dinodeSize := by
            simp only [addrOff, dinodeSize, ndirect] at *
            omega
          by_cases hinum' : i = inum
          · subst hinum'
            rw [addrsOf, uint_dinode_congr hself hfit, ← hdin, Bytes.uint_setUint_of_disjoint _
              (by simp only [addrOff, sizeOff]; omega)]
            exact happend.din k hk
          · rw [addrsOf, uint_dinode_congr (hother i hinum' hi) hfit, hframe.addrs i hinum']
            exact h.addrs i hi k hk
        sizes := by
          intro i hi
          by_cases hinum' : i = inum
          · subst hinum'
            rw [sizeOf, uint_dinode_congr hself (by decide), ← hdin, hxint,
              Bytes.uint_setUint_self (by simp only [Nat.reducePow] at *; omega),
              Function.update_self, List.length_append]
          · rw [sizeOf, uint_dinode_congr (hother i hinum' hi) (by decide),
              Function.update_of_ne hinum']
            exact h.sizes i hi
        types := by
          intro i hi
          dsimp only
          rw [hframe.freeinode, ← h.types i hi]
          by_cases hinum' : i = inum
          · subst hinum'
            have hkept : Bytes.uint 2 (Bytes.setUint 4 din sizeOff (xint off)) 0 =
                Bytes.uint 2 (dinodeAt state.image.block conf.sb i) 0 := by
              rw [Bytes.uint_setUint_of_disjoint _ (by simp only [sizeOff]; omega)]
              exact Bytes.uint_congr fun j _ hj => hframe.din j (by simp only [addrOff]; omega)
            rw [typeOf, uint_dinode_congr hself (by decide), ← hdin, hkept]
            rfl
          · rw [typeOf, uint_dinode_congr (hother i hinum' hi) (by decide)]
            rfl
        super := by
          dsimp only
          rw [storeDinode_of_ne (by omega), hframe.block 1 (by omega)]
          exact h.super
        total := by
          have hsum := sum_update files hinum (files inum ++ xp)
          rw [List.length_append] at hsum
          have htotal := h.total
          dsimp only
          rw [hframe.freeinode]
          omega }

theorem ialloc_spec (type : FileType) (h : Builds conf files state)
    (hroom : state.freeinode < inodeRoom) :
    ∃ state', ialloc conf type state = .ok (state.freeinode, state') ∧ Builds conf files state' ∧
      state'.freeinode = state.freeinode + 1 ∧ state'.freeblock = state.freeblock := by
  obtain ⟨owners, addrs, h⟩ := h
  have hblock := conf.iblock_lt hroom
  have hpos := h.pos
  generalize hdin : Bytes.setUint 4 (Bytes.setUint 2 (Bytes.setUint 2 (fun _ => 0) 0
    (xshort type.code)) 6 (xshort 1)) sizeOff (xint 0) = din
  have hwrite := winode_eq conf state.image state.freeinode din hroom h.size
  have hself : ∀ i, i < dinodeSize →
      dinodeAt (storeDinode state.image.block conf.sb state.freeinode din) conf.sb state.freeinode i =
        din i := fun i hi => dinodeAt_storeDinode hi
  have hother : ∀ i, i ≠ state.freeinode → ∀ j, j < dinodeSize →
      dinodeAt (storeDinode state.image.block conf.sb state.freeinode din) conf.sb i j =
        dinodeAt state.image.block conf.sb i j := fun i hi j hj => dinodeAt_storeDinode_of_ne hi hj
  have hempty : files state.freeinode = [] := h.none _ (Or.inr (Nat.le_refl _))
  have hnone : ∀ slot, (state.freeinode, slot) ∉ owners := by
    intro slot hin
    have hused := (h.mem _ _).mp hin
    rw [hempty] at hused
    cases slot with
    | data bn => exact absurd hused (Nat.not_lt_zero _)
    | indirect => exact absurd hused (Nat.not_lt_zero _)
  have hzero : ∀ k, k ≤ ndirect → addrs state.freeinode k = 0 := by
    intro k hk
    by_cases hind : k = ndirect
    · subst hind
      exact (h.holds.addr _ .indirect trivial).trans (place_of_not_mem (hnone _))
    · have haddr := h.holds.addr state.freeinode (.data k)
        (by simp only [Slot.Valid, maxFile]; omega)
      rw [slotAddr, if_pos (by omega), place_of_not_mem (hnone _)] at haddr
      exact haddr
  have hfields : ∀ width off, 8 ≤ off → off + width ≤ dinodeSize → Bytes.uint width din off = 0 := by
    intro width off hlow hfit
    rw [← uint_zero width off, ← hdin]
    apply Bytes.uint_congr
    intro i hi hlt
    rw [Bytes.setUint, xint_of_lt (by decide)]
    split
    · simp
    · rw [Bytes.setUint_of_outside _ (by omega), Bytes.setUint_of_outside _ (by omega)]
  have htype : Bytes.uint 2 din 0 ≠ 0 := by
    rw [← hdin, Bytes.uint_setUint_of_disjoint _ (by decide),
      Bytes.uint_setUint_of_disjoint _ (by decide)]
    cases type <;> decide
  refine ⟨⟨⟨state.image.size, storeDinode state.image.block conf.sb state.freeinode din⟩,
    state.freeinode + 1, state.freeblock⟩, ?_, ⟨owners, addrs, ?_⟩, rfl, rfl⟩
  · simp only [ialloc, bind, Except.bind, hdin, hwrite]
    rfl
  · exact {
      holds := h.holds.congr fun b hb => storeDinode_of_ne (by omega)
      mem := h.mem
      length := h.length
      size := h.size
      le := h.le
      pos := Nat.succ_pos _
      room := hroom
      none := by
        intro i hi
        dsimp only at hi
        exact h.none i (by omega)
      addrs := by
        intro i hi k hk
        have hfit : addrOff k + 4 ≤ dinodeSize := by
          simp only [addrOff, dinodeSize, ndirect] at *
          omega
        by_cases hinum : i = state.freeinode
        · subst hinum
          rw [addrsOf, uint_dinode_congr hself hfit, hzero k hk,
            hfields _ _ (by simp only [addrOff]; omega) hfit]
        · rw [addrsOf, uint_dinode_congr (hother i hinum) hfit]
          exact h.addrs i hi k hk
      sizes := by
        intro i hi
        by_cases hinum : i = state.freeinode
        · subst hinum
          rw [sizeOf, uint_dinode_congr hself (by decide), hempty,
            hfields _ _ (by decide) (by decide)]
          rfl
        · rw [sizeOf, uint_dinode_congr (hother i hinum) (by decide)]
          exact h.sizes i hi
      types := by
        intro i hi
        by_cases hinum : i = state.freeinode
        · subst hinum
          rw [typeOf, uint_dinode_congr hself (by decide)]
          exact iff_of_true htype ⟨hpos, Nat.lt_succ_self _⟩
        · rw [typeOf, uint_dinode_congr (hother i hinum) (by decide)]
          refine (h.types i hi).trans ?_
          dsimp only
          omega
      super := by
        dsimp only
        rw [storeDinode_of_ne (by omega)]
        exact h.super
      total := by
        dsimp only
        rw [Finset.sum_range_succ, hempty]
        exact h.total }

end Calls

end Xv6.Mkfs
