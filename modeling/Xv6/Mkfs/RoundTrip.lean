import Mathlib.Algebra.BigOperators.Group.Finset.Piecewise
import Mathlib.Algebra.Order.BigOperators.Group.Finset
import Xv6.Mkfs.Append
import Xv6.Mkfs.Reading

/-!
# The tool and the kernel agree on the format

Any calls of `ialloc` and `iappend`, and the bitmap at the end: the kernel reads back what was
appended to each file. This holds as long as the inodes have room before the bitmap block.
`ialloc` does not check that: the next inode is written into the bitmap block, which `balloc`
overwrites.
-/

namespace Xv6.Mkfs

inductive Call where
  | ialloc (type : FileType)
  | iappend (inum : Nat) (xp : List UInt8)
  deriving DecidableEq

def Call.perform (conf : Conf) : Call → State → Except Failure State
  | ialloc type, state => (Mkfs.ialloc conf type state).map Prod.snd
  | iappend inum xp, state => Mkfs.iappend conf inum xp state

def performAll (conf : Conf) (calls : List Call) (state : State) : Except Failure State :=
  calls.foldlM (fun state call => call.perform conf state) state

theorem performAll_cons (conf : Conf) (call : Call) (rest : List Call) (state : State) :
    performAll conf (call :: rest) state =
      (call.perform conf state).bind (performAll conf rest) := List.foldlM_cons

/-- The image after these calls, with the bitmap. -/
def buildImage (conf : Conf) (calls : List Call) : Except Failure Image := do
  let state ← performAll conf calls (blank conf)
  balloc conf state.freeblock state.image

/-- How many inodes the calls allocate. -/
def allocs : List Call → Nat
  | [] => 0
  | .ialloc _ :: rest => allocs rest + 1
  | .iappend _ _ :: rest => allocs rest

/-- What the calls append to a file. -/
def appended : List Call → Nat → List UInt8
  | [], _ => []
  | .ialloc _ :: rest, i => appended rest i
  | .iappend inum xp :: rest, i => (if i = inum then xp else []) ++ appended rest i

/-- Files are appended to after they have been allocated. The number is that of the next inode. -/
def Ordered : Nat → List Call → Prop
  | _, [] => True
  | next, .ialloc _ :: rest => Ordered (next + 1) rest
  | next, .iappend inum _ :: rest => 0 < inum ∧ inum < next ∧ Ordered next rest

/-- No file is longer than a file can be, and all of them fit the image. -/
structure Fits (conf : Conf) (calls : List Call) : Prop where
  ordered : Ordered 1 calls
  file : ∀ inum, (appended calls inum).length ≤ maxFile * bsize
  image : conf.nmeta + ∑ inum ∈ Finset.range (allocs calls + 1),
    blocksOf (appended calls inum).length ≤ conf.fsSize

/-- The kernel reads these bytes from the file: any part of them, and the length is theirs. -/
def ReadsBack (conf : Conf) (image : Image) (inum : Nat) (bytes : List UInt8) : Prop :=
  sizeOf image.block conf.sb inum = bytes.length ∧
    ∀ (config : Kernel.Config Bytes) (state : Kernel.State nbuf Unit Bytes),
      Fs.Quiet image.block state → ∀ off count : UInt32, off.toNat ≤ bytes.length →
        off.toNat + count.toNat < 2 ^ 32 →
          (do
            let ip ← Fs.iread conf.sb inum
            Fs.readi Fs.arm64 conf.sb ip .kernel off count).Ends (Kernel.handler config) ()
              state fun result _ =>
                result.2.1 = (bytes.drop off.toNat).take count.toNat ∧
                  result.1 = result.2.1.length

/-! ### The empty image -/

theorem foldl_wsect_zero {count : Nat} (hcount : count ≤ 2 ^ 22) :
    (List.range count).foldl (fun image i => wsect image i fun _ => 0)
      { size := 0, block := fun _ _ => 0 } = { size := count, block := fun _ _ => 0 } := by
  induction count with
  | zero => rfl
  | succ count ih =>
      rw [List.range_succ, List.foldl_append, ih (by omega), List.foldl_cons, List.foldl_nil, wsect,
        seek_of_lt (by omega), Nat.max_eq_right (Nat.le_succ _)]
      exact congrArg _ (Function.update_eq_self count _)

theorem builds_blank (conf : Conf) : Builds conf (fun _ => []) (blank conf) := by
  have hfs := conf.fsSize_lt_seek
  have hmeta : conf.nmeta < conf.fsSize := conf.nmeta_lt
  have hpos := conf.nmeta_pos
  have himage : (blank conf).image =
      ⟨conf.fsSize, Function.update (fun _ _ => 0) 1 (sbBlock conf.sb)⟩ := by
    rw [blank, foldl_wsect_zero (by omega)]
    exact wsect_of_lt _ _ (by dsimp only; omega) (by dsimp only; omega) _
  have hzero : ∀ b, b ≠ 1 → (blank conf).image.block b = fun _ => 0 := by
    intro b hb
    rw [himage]
    exact dif_neg hb
  have hfield : ∀ i, i < inodeRoom → ∀ width off,
      Bytes.uint width (dinodeAt (blank conf).image.block conf.sb i) off = 0 := by
    intro i hi width off
    have hblock := conf.iblock_lt hi
    rw [uint_dinodeAt, hzero _ (by omega), uint_zero]
  have hnot : ∀ (slot : Slot), ¬slot.Used 0 := by
    intro slot
    cases slot with
    | data bn => exact Nat.not_lt_zero _
    | indirect => exact Nat.not_lt_zero _
  have hone : 1 < conf.nmeta := by
    have hblock := conf.iblock_lt (show 0 < inodeRoom by decide)
    omega
  refine ⟨[], fun _ _ => 0, ?_⟩
  exact {
    holds := {
      free := rfl
      nodup := List.nodup_nil
      addr := by
        intro inum slot _
        cases slot with
        | indirect => rfl
        | data bn =>
            rw [slotAddr, if_pos rfl, ite_self]
            rfl
      covered := fun inum i hi => absurd hi (Nat.not_lt_zero _)
      data := fun inum bn hbn => absurd hbn List.not_mem_nil
      fresh := fun b hb => hzero b (by
        change conf.nmeta ≤ b at hb
        omega) }
    mem := fun i slot => iff_of_false List.not_mem_nil (hnot slot)
    length := fun i => Nat.zero_le _
    size := by rw [himage]
    le := Nat.le_of_lt hmeta
    pos := Nat.one_pos
    room := by
      change 1 ≤ inodeRoom
      decide
    none := fun i _ => rfl
    addrs := fun i hi k _ => hfield i hi _ _
    sizes := fun i hi => hfield i hi _ _
    types := fun i hi => iff_of_false (fun hne => hne (hfield i hi _ _)) (by
      change ¬(0 < i ∧ i < 1)
      omega)
    super := by
      simp only [himage, Function.update_self]
    total := by
      change conf.nmeta = conf.nmeta + ∑ i ∈ Finset.range 1, 0
      rw [Finset.sum_const_zero, Nat.add_zero] }

/-! ### Any calls -/

section Runs

variable {conf : Conf}

theorem sum_blocksOf_le {files files' : Nat → List UInt8} {small large : Nat} (hle : small ≤ large)
    (hfiles : ∀ i, (files i).length ≤ (files' i).length) :
    ∑ i ∈ Finset.range small, blocksOf (files i).length ≤
      ∑ i ∈ Finset.range large, blocksOf (files' i).length :=
  calc ∑ i ∈ Finset.range small, blocksOf (files i).length
      ≤ ∑ i ∈ Finset.range small, blocksOf (files' i).length :=
        Finset.sum_le_sum fun i _ => blocksOf_mono (hfiles i)
    _ ≤ ∑ i ∈ Finset.range large, blocksOf (files' i).length :=
        Finset.sum_le_sum_of_subset (Finset.range_subset_range.mpr hle)

theorem calls_spec {calls : List Call} {files : Nat → List UInt8} {state : State}
    (h : Builds conf files state) (hordered : Ordered state.freeinode calls)
    (hroom : state.freeinode + allocs calls ≤ inodeRoom) :
    match performAll conf calls state with
    | .error _ => (∃ i, maxFile * bsize < (files i ++ appended calls i).length) ∨
        conf.fsSize < conf.nmeta + ∑ i ∈ Finset.range (state.freeinode + allocs calls),
          blocksOf (files i ++ appended calls i).length
    | .ok state' => Builds conf (fun i => files i ++ appended calls i) state' ∧
        state'.freeinode = state.freeinode + allocs calls := by
  induction calls generalizing files state with
  | nil => exact ⟨by simpa [appended] using h, rfl⟩
  | cons call rest ih =>
      cases call with
      | ialloc type =>
          rw [allocs] at hroom ⊢
          obtain ⟨state', heq, hbuilds, hnext, hfree⟩ := ialloc_spec type h (show _ < _ by omega)
          have hrest := ih hbuilds (by rwa [hnext]) (by omega)
          rw [hnext, Nat.add_assoc, Nat.add_comm 1] at hrest
          rw [performAll_cons, Call.perform, heq]
          exact hrest
      | iappend inum xp =>
          obtain ⟨hpos, hinum, hordered⟩ := hordered
          have hfiles : ∀ i, Function.update files inum (files inum ++ xp) i ++ appended rest i =
              files i ++ appended (.iappend inum xp :: rest) i := by
            intro i
            rw [appended]
            by_cases hi : i = inum
            · subst hi
              rw [Function.update_self, if_pos rfl, List.append_assoc]
            · rw [Function.update_of_ne hi, if_neg hi, List.nil_append]
          have hlength : ∀ i, (Function.update files inum (files inum ++ xp) i).length ≤
              (files i ++ appended (.iappend inum xp :: rest) i).length := by
            intro i
            rw [← hfiles i, List.length_append]
            exact Nat.le_add_right _ _
          have hspec := iappend_spec xp h hpos hinum
          rw [performAll_cons, Call.perform]
          cases hrun : iappend conf inum xp state with
          | error failure =>
              -- what was too much for this call is too much for all of them
              rw [hrun] at hspec
              obtain ⟨owners, addrs, hbuilt⟩ := h
              have htotal := hbuilt.total
              have hsum := sum_update files hinum (files inum ++ xp)
              have hgrown := sum_blocksOf_le (Nat.le_add_right state.freeinode
                (allocs (.iappend inum xp :: rest))) hlength
              have hlong := hlength inum
              rw [Function.update_self, List.length_append] at hlong
              rw [List.length_append] at hsum
              rcases hspec with hspec | hspec
              · exact Or.inl ⟨inum, by omega⟩
              · exact Or.inr (by omega)
          | ok state' =>
              rw [hrun] at hspec
              obtain ⟨hbuilds, hinodes⟩ := hspec
              have hrest := ih hbuilds (by rwa [hinodes]) (by rwa [hinodes])
              simp only [hfiles, hinodes] at hrest
              exact hrest

section Built

variable {files : Nat → List UInt8} {owners : List (Nat × Slot)} {addrs : Nat → Nat → Nat}
  {state : State} {inum i : Nat}

theorem Built.addrOf_eq (h : Built conf files owners addrs state) (hinum : inum < inodeRoom)
    (slot : Slot) (hvalid : slot.Valid) :
    addrOf state.image.block conf.sb inum slot = place conf.nmeta owners (inum, slot) := by
  rw [← h.holds.addr inum slot hvalid, addrOf]
  cases slot with
  | indirect => exact h.addrs inum hinum _ (Nat.le_refl _)
  | data bn =>
      rw [slotAddr, slotAddr, h.addrs inum hinum _ (Nat.le_refl _)]
      split
      · exact h.addrs inum hinum _ (by omega)
      · rfl

theorem Built.valid_of_lt (h : Built conf files owners addrs state) (hi : i < (files inum).length) :
    i / bsize < maxFile := by
  have hlength := h.length inum
  apply Nat.div_lt_of_lt_mul
  rw [Nat.mul_comm]
  omega

theorem Built.addrOf_ne_zero (h : Built conf files owners addrs state) (hinum : inum < inodeRoom)
    (hi : i < (files inum).length) :
    addrOf state.image.block conf.sb inum (.data (i / bsize)) ≠ 0 := by
  have hpos := conf.nmeta_pos
  have hle := le_place conf.nmeta (h.holds.covered inum i hi)
  rw [h.addrOf_eq hinum (.data (i / bsize)) (h.valid_of_lt hi)]
  omega

theorem Built.fileOf_eq (h : Built conf files owners addrs state) (hinum : inum < inodeRoom) :
    fileOf state.image.block conf.sb inum = files inum := by
  apply List.ext_getElem
  · rw [fileOf, List.length_map, List.length_range, h.sizes inum hinum]
  · intro i hi hi'
    have hdata := h.holds.data inum (i / bsize) (h.holds.covered inum i hi') (i % bsize)
      (Nat.mod_lt _ (by decide))
    rw [Nat.div_add_mod'] at hdata
    simp only [fileOf, List.getElem_map, List.getElem_range, byteOf,
      if_neg (h.addrOf_ne_zero hinum hi')]
    rw [h.addrOf_eq hinum (.data (i / bsize)) (h.valid_of_lt hi'), hdata, List.getD_eq_getElem _ _ hi']

theorem Built.congr (h : Built conf files owners addrs state) {block : Nat → Bytes}
    (hblock : ∀ b, b ≠ conf.sb.bmapstart → block b = state.image.block b) :
    Built conf files owners addrs { state with image := ⟨state.image.size, block⟩ } := by
  have hroom := conf.iblock_lt (show 0 < inodeRoom by decide)
  have hfield : ∀ i, i < inodeRoom → ∀ width off,
      Bytes.uint width (dinodeAt block conf.sb i) off =
        Bytes.uint width (dinodeAt state.image.block conf.sb i) off := by
    intro i hi width off
    have hlt := conf.iblock_lt hi
    rw [uint_dinodeAt, uint_dinodeAt, hblock _ (by omega)]
  exact { h with
    holds := h.holds.congr fun b hb => hblock b (by omega)
    size := h.size
    addrs := fun i hi k hk => (hfield i hi _ _).trans (h.addrs i hi k hk)
    sizes := fun i hi => (hfield i hi _ _).trans (h.sizes i hi)
    types := fun i hi => by
      rw [← h.types i hi]
      exact not_congr (by rw [typeOf, hfield i hi]; rfl)
    super := (hblock 1 (by omega)).trans h.super }

theorem balloc_eq (hsize : state.image.size = conf.fsSize) (hle : state.freeblock ≤ conf.fsSize) :
    balloc conf state.freeblock state.image = .ok ⟨state.image.size,
      Function.update state.image.block conf.sb.bmapstart
        ((List.range state.freeblock).foldl Bytes.setBit fun _ => 0)⟩ := by
  have hfs := conf.fsSize_lt
  have hseek := conf.fsSize_lt_seek
  have hmeta : conf.nmeta < conf.fsSize := conf.nmeta_lt
  have hblock := conf.iblock_lt (show 0 < inodeRoom by decide)
  rw [balloc, if_pos (by simp only [bpb] at hfs; omega), wsect_of_lt _ _ (by omega) (by omega)]

theorem Built.readsBack (h : Built conf files owners addrs state) (hpos : 0 < inum)
    (hinum : inum < state.freeinode) : ReadsBack conf state.image inum (files inum) := by
  have hroom : inum < inodeRoom := Nat.lt_of_lt_of_le hinum h.room
  have hsize := h.sizes inum hroom
  have hlength := h.length inum
  refine ⟨hsize, fun config kernel hquiet off count hoff hcount => ?_⟩
  have htype := (h.types inum hroom).mpr ⟨hpos, hinum⟩
  refine .mono (Fs.read_ends hquiet (by decide) htype (by omega)
    (fun i hi => h.addrOf_ne_zero hroom (by omega)) (by omega) hcount) ?_
  rintro result last ⟨hbytes, hresult, -⟩
  rw [h.fileOf_eq hroom] at hbytes
  exact ⟨hbytes, hresult⟩

end Built

/-! ### What there is no room for -/

theorem bit_foldl_setBit (used i : Nat) :
    Bytes.bit ((List.range used).foldl Bytes.setBit fun _ => 0) i = decide (i < used) := by
  induction used with
  | zero => simp [Bytes.bit]
  | succ used ih =>
      rw [List.range_succ, List.foldl_append, List.foldl_cons, List.foldl_nil, Bytes.bit_setBit, ih,
        ← Bool.decide_or]
      exact decide_eq_decide.mpr (by omega)

theorem uint_bitmap_ne_two (used off : Nat) :
    Bytes.uint 4 ((List.range used).foldl Bytes.setBit fun _ => 0) off ≠ 2 := by
  intro htwo
  generalize hdata : ((List.range used).foldl Bytes.setBit fun _ => 0) = data at htwo
  have hbyte : (data off).toNat % 256 = 2 := by
    have hsplit := htwo
    rw [Bytes.uint] at hsplit
    omega
  have hlow := Bytes.bit_eq_testBit data (8 * off)
  have hhigh := Bytes.bit_eq_testBit data (8 * off + 1)
  rw [← hdata, bit_foldl_setBit, hdata, show 8 * off / 8 = off by omega,
    show 8 * off % 8 = 0 by omega] at hlow
  rw [← hdata, bit_foldl_setBit, hdata, show (8 * off + 1) / 8 = off by omega,
    show (8 * off + 1) % 8 = 1 by omega] at hhigh
  have htwo' : (data off).toNat = 2 := by
    have hlt := (data off).toNat_lt
    omega
  rw [htwo'] at hlow hhigh
  have hset : 8 * off + 1 < used := of_decide_eq_true (hhigh.trans (by decide))
  have hclear : ¬8 * off < used := of_decide_eq_false (hlow.trans (by decide))
  omega

def overflowing (count : Nat) : List Call :=
  List.replicate count (.ialloc .file) ++ [.iappend inodeRoom [0, 0]]

theorem allocs_overflowing (count : Nat) : allocs (overflowing count) = count := by
  unfold overflowing
  induction count with
  | zero => rfl
  | succ count ih => rw [List.replicate_succ, List.cons_append, allocs, ih]

theorem appended_overflowing (count i : Nat) :
    appended (overflowing count) i = if i = inodeRoom then [0, 0] else [] := by
  unfold overflowing
  induction count with
  | zero => simp [appended]
  | succ count ih => rw [List.replicate_succ, List.cons_append, appended, ih]

theorem ordered_overflowing {count next : Nat} (hcount : inodeRoom < count + next) :
    Ordered next (overflowing count) := by
  unfold overflowing
  induction count generalizing next with
  | zero => exact ⟨by decide, by omega, trivial⟩
  | succ count ih => exact ih (by omega)

theorem fits_overflowing (conf : Conf) {count : Nat} (hcount : inodeRoom ≤ count) :
    Fits conf (overflowing count) := by
  have hmeta : conf.nmeta < conf.fsSize := conf.nmeta_lt
  have hblocks : ∀ i, blocksOf (appended (overflowing count) i).length =
      if i = inodeRoom then 1 else 0 := by
    intro i
    rw [appended_overflowing]
    split <;> rfl
  refine ⟨ordered_overflowing (by omega), fun i => ?_, ?_⟩
  · rw [appended_overflowing]
    split <;> decide
  · rw [Finset.sum_congr rfl fun i _ => hblocks i, allocs_overflowing, Finset.sum_ite_eq',
      if_pos (Finset.mem_range.mpr (by omega))]
    omega

theorem not_readsBack_overflowing {count : Nat} {image : Image}
    (himage : buildImage conf (overflowing count) = .ok image) :
    ¬ReadsBack conf image inodeRoom (appended (overflowing count) inodeRoom) := by
  intro hreads
  have hsize := hreads.1
  rw [appended_overflowing, if_pos rfl] at hsize
  have hmeta : conf.nmeta < conf.fsSize := conf.nmeta_lt
  have hseek := conf.fsSize_lt_seek
  have hblock := conf.iblock_lt (show 0 < inodeRoom by decide)
  have hiblock : conf.sb.iblock inodeRoom = conf.sb.bmapstart := by
    simp only [Superblock.iblock, Conf.sb, superblock, inodeRoom, ninodeBlocks, ninodes, ipb, bsize,
      dinodeSize]
    omega
  unfold buildImage at himage
  cases hrun : performAll conf (overflowing count) (blank conf) with
  | error failure =>
      rw [hrun] at himage
      cases himage
  | ok state =>
      rw [hrun] at himage
      change balloc conf state.freeblock state.image = .ok image at himage
      unfold balloc at himage
      split at himage
      · cases himage
        rw [sizeOf, uint_dinodeAt, hiblock, wsect, seek_of_lt (by omega)] at hsize
        simp only [Function.update_self] at hsize
        exact uint_bitmap_ne_two _ _ hsize
      · cases himage

/-- **The tool and the kernel agree** on all files, as long as the inodes have room before the bitmap
block, and only then. -/
theorem readsBack_iff (conf : Conf) (count : Nat) :
    (∀ calls, Fits conf calls → allocs calls = count → ∃ image, buildImage conf calls = .ok image ∧
      ∀ inum, 0 < inum → inum ≤ count → ReadsBack conf image inum (appended calls inum)) ↔
    count < inodeRoom := by
  constructor
  · intro hall
    by_contra hcount
    have hle : inodeRoom ≤ count := Nat.le_of_not_lt hcount
    obtain ⟨image, himage, hreads⟩ :=
      hall (overflowing count) (fits_overflowing conf hle) (allocs_overflowing count)
    exact not_readsBack_overflowing himage (hreads inodeRoom (by decide) hle)
  · rintro hcount calls hfits rfl
    have hspec := calls_spec (builds_blank conf) hfits.ordered
      (by change 1 + allocs calls ≤ _; omega)
    simp only [List.nil_append, show (blank conf).freeinode = 1 from rfl, Nat.add_comm 1] at hspec
    cases hrun : performAll conf calls (blank conf) with
    | error failure =>
        rw [hrun] at hspec
        rcases hspec with ⟨i, hi⟩ | himage
        · exact absurd (hfits.file i) (Nat.not_le_of_lt hi)
        · exact absurd hfits.image (Nat.not_le_of_lt himage)
    | ok state =>
        rw [hrun] at hspec
        obtain ⟨⟨owners, addrs, hbuilt⟩, hinodes⟩ := hspec
        let block := Function.update state.image.block conf.sb.bmapstart
          ((List.range state.freeblock).foldl Bytes.setBit fun _ => 0)
        have hballoc : balloc conf state.freeblock state.image = .ok ⟨state.image.size, block⟩ :=
          balloc_eq hbuilt.size hbuilt.le
        have hfinal := hbuilt.congr (show ∀ b, b ≠ conf.sb.bmapstart → block b = state.image.block b from
          fun b hb => Function.update_of_ne hb _ _)
        refine ⟨⟨state.image.size, block⟩, ?_, fun inum hpos hinum => ?_⟩
        · unfold buildImage
          rw [hrun]
          exact hballoc
        · have hlt : inum < state.freeinode := by
            rw [hinodes]
            omega
          exact hfinal.readsBack hpos hlt

/-- Two hundred and four files, and two bytes for the last one. -/
theorem not_readsBack_overflowing_arm64 : ∃ calls, Fits arm64 calls ∧
    ¬∃ image, buildImage arm64 calls = .ok image ∧
      ∀ inum, 0 < inum → inum ≤ allocs calls →
        ReadsBack arm64 image inum (appended calls inum) := by
  refine ⟨overflowing inodeRoom, fits_overflowing arm64 (Nat.le_refl _), ?_⟩
  rintro ⟨image, himage, hreads⟩
  rw [allocs_overflowing] at hreads
  exact not_readsBack_overflowing himage (hreads inodeRoom (by decide) (Nat.le_refl _))

end Runs

end Xv6.Mkfs
