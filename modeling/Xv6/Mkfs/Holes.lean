import Xv6.Fs.Directory
import Xv6.Mkfs.Pack

/-!
# Holes in the files of an image

The tool gives a block to every part of a file that it writes, and then rounds the size of the root
directory up, to a block more where the entries fill the last one. That block has no address. On an
image without holes the functions of the kernel that read files and directories allocate nothing, and a
new entry of the root directory goes to a block that is there.
-/

namespace Xv6.Fs

open Kernel
open Mkfs (slotAddr)

/-- Run on a cache that nobody uses, the program ends with the inode it was given and leaves the disk
alone: `bmap` has allocated nothing. -/
def Keeps {α : Type} (disk : Nat → Bytes) (ip : Inode) (after : α → Inode) (post : α → Prop)
    (program : (n : Nat) → Code n Bytes α) : Prop :=
  ∀ (n : Nat) (ι : Type) [DecidableEq ι] (conf : Config Bytes) (who : ι) (state : State n ι Bytes),
    0 < n → Quiet disk state → (program n).Ends (handler conf) who state fun result state' =>
      after result = ip ∧ post result ∧ Quiet disk state'

section Reading

variable {disk : Nat → Bytes} {sb : Superblock} {ip : Inode} {addrs : Nat → Nat}
  {n : Nat} {ι : Type} [DecidableEq ι] {conf : Config Bytes} {who : ι} {state : State n ι Bytes}

theorem eitherCopyout_ends (dst : Dest) (bytes : List UInt8) {b : Fin n} {blockno : Nat}
    (h : Holding disk who b blockno state) :
    (eitherCopyout dst bytes : Code n Bytes Bool).Ends (handler conf) who state fun _ state' =>
      Holding disk who b blockno state' := by
  cases dst with
  | kernel => exact .ret h
  | user va =>
      refine .mono (perform_ends (.copyout va bytes) _ _ rfl) ?_
      rintro _ _ ⟨-, rfl⟩
      exact ⟨h.onDisk, h.list, h.refcnt, h.owner, h.dev, h.content, h.number, h.spare⟩

theorem readiFrom_keeps (hn : 0 < n) (hip : ∀ k, ip.addrs k = addrs k) (dst : Dest)
    {count fuel off tot : Nat} {copied : List UInt8} (h : Quiet disk state)
    (haddr : ∀ i, off ≤ i → i < off + (count - tot) →
      i < maxFile * bsize ∧ slotAddr disk addrs (.data (i / bsize)) ≠ 0) :
    (readiFrom arm64 sb count fuel ip dst off tot copied).Ends (handler conf) who state
      fun result state' => result.2.2 = ip ∧ Quiet disk state' := by
  induction fuel generalizing state dst off tot copied with
  | zero => exact .ret ⟨rfl, h⟩
  | succ fuel ih =>
      rw [readiFrom]
      by_cases hlt : tot < count
      · rw [if_pos hlt]
        obtain ⟨hfile, hfirst⟩ := haddr off (Nat.le_refl _) (by omega)
        have hvalid : off / bsize < maxFile := Nat.div_lt_of_lt_mul (by rwa [Nat.mul_comm])
        refine .bind (bmap_ends h hn hip hvalid hfirst) ?_
        rintro _ state' ⟨rfl, h'⟩
        dsimp only
        rw [if_neg (by simp [arm64])]
        refine .bind (bread_ends h' hn _) ?_
        intro bp state'' hbp
        refine .bind (content_ends hbp) ?_
        rintro _ mid ⟨rfl, hbp⟩
        refine .bind (eitherCopyout_ends dst _ hbp) ?_
        intro ok between hbp
        refine .bind (brelse_ends hbp) ?_
        intro _ last hlast
        cases ok with
        | false => exact .ret ⟨rfl, hlast⟩
        | true =>
            exact ih _ hlast fun i hle hi => haddr i (by omega) (by omega)
      · rw [if_neg hlt]
        exact .ret ⟨rfl, h⟩

theorem readi_keeps (hip : ∀ k, ip.addrs k = addrs k) (hsize : ip.size ≤ maxFile * bsize)
    (haddr : ∀ i, i < ip.size → slotAddr disk addrs (.data (i / bsize)) ≠ 0) (dst : Dest)
    (off count : UInt32) :
    Keeps disk ip (·.2.2) (fun _ => True) fun _ => readi arm64 sb ip dst off count := by
  intro n ι _ conf who state hn h
  dsimp only
  rw [readi_eq]
  refine .mono (readiFrom_keeps hn hip dst h fun i hle hi => ?_) ?_
  · have hlt : i < ip.size := lt_of_readCount hle hi
    exact ⟨by omega, haddr i hlt⟩
  · exact fun _ _ hlast => ⟨hlast.1, trivial, hlast.2⟩

/-! ### Directories -/

def direntAt (disk : Nat → Bytes) (addrs : Nat → Nat) (off : Nat) : Dirent :=
  Dirent.load ((List.range direntSize).map fun i => byteAt disk addrs (off + i))

theorem direntAt_inum (disk : Nat → Bytes) (addrs : Nat → Nat) (off : Nat) :
    (direntAt disk addrs off).inum =
      (byteAt disk addrs off).toNat + 256 * (byteAt disk addrs (off + 1)).toNat := rfl

theorem readDirent_ends (h : Quiet disk state) (hn : 0 < n) (hip : ∀ k, ip.addrs k = addrs k)
    (hsize : ip.size ≤ maxFile * bsize)
    (haddr : ∀ i, i < ip.size → slotAddr disk addrs (.data (i / bsize)) ≠ 0) {off : Nat}
    (hoff : off + direntSize ≤ ip.size) (message : String) :
    (readDirent arm64 sb ip off message).Ends (handler conf) who state fun result state' =>
      result = (direntAt disk addrs off, ip) ∧ Quiet disk state' := by
  have hmax : maxFile * bsize < 2 ^ 32 := by decide
  have hdirent : (UInt32.ofNat direntSize).toNat = 16 := rfl
  have hsixteen : direntSize = 16 := rfl
  have hword : UInt32.size = 2 ^ 32 := rfl
  have hcount : readCount ip.size (UInt32.ofNat off) (UInt32.ofNat direntSize) = direntSize := by
    have hoff' : (UInt32.ofNat off).toNat = off := UInt32.toNat_ofNat_of_lt' (by omega)
    have hadd : (UInt32.ofNat off + UInt32.ofNat direntSize).toNat = off + 16 := by
      rw [UInt32.toNat_add, hoff', hdirent]
      omega
    have hfits : ¬((UInt32.ofNat off).toNat > ip.size ∨
        UInt32.ofNat off + UInt32.ofNat direntSize < UInt32.ofNat off) := by
      rw [UInt32.lt_iff_toNat_lt]
      omega
    rw [readCount, if_neg hfits, if_neg (by omega)]
    rfl
  refine .bind (readi_ends h hn hip hsize haddr _ _) ?_
  rintro _ state' ⟨rfl, h'⟩
  rw [hcount]
  dsimp only
  refine .bind (panicIf_ends (by simp)) ?_
  rintro _ _ rfl
  refine .ret ⟨?_, h'⟩
  rw [UInt32.toNat_ofNat_of_lt' (by omega)]
  rfl

variable (hip : ∀ k, ip.addrs k = addrs k) (hsize : ip.size ≤ maxFile * bsize)
  (haddr : ∀ i, i < ip.size → slotAddr disk addrs (.data (i / bsize)) ≠ 0)

include hip hsize haddr

theorem dirlookupFrom_keeps (name : List UInt8) {offs : List Nat}
    (hoffs : ∀ off ∈ offs, off + direntSize ≤ ip.size) :
    Keeps disk ip (·.2) (fun _ => True) fun _ => dirlookupFrom arm64 sb name ip offs := by
  intro n ι _ conf who state hn h
  induction offs generalizing state with
  | nil => exact .ret ⟨rfl, trivial, h⟩
  | cons off rest ih =>
      dsimp only
      rw [dirlookupFrom]
      have hrest := @ih fun off' hoff' => hoffs off' (List.mem_cons_of_mem _ hoff')
      refine .bind (readDirent_ends h hn hip hsize haddr (hoffs off List.mem_cons_self) _) ?_
      rintro _ state' ⟨rfl, h'⟩
      dsimp only
      split_ifs
      · exact hrest state' h'
      · exact .ret ⟨rfl, trivial, h'⟩
      · exact hrest state' h'

theorem emptyFrom_keeps {offs : List Nat} (hoffs : ∀ off ∈ offs, off + direntSize ≤ ip.size)
    (hempty : ∃ off ∈ offs, (direntAt disk addrs off).inum = 0) :
    Keeps disk ip (·.2) (fun result => result.1 ∈ offs) fun _ => emptyFrom arm64 sb ip offs := by
  intro n ι _ conf who state hn h
  induction offs generalizing state with
  | nil =>
      obtain ⟨off, hoff, -⟩ := hempty
      exact absurd hoff List.not_mem_nil
  | cons off rest ih =>
      dsimp only
      rw [emptyFrom]
      refine .bind (readDirent_ends h hn hip hsize haddr (hoffs off List.mem_cons_self) _) ?_
      rintro _ state' ⟨rfl, h'⟩
      dsimp only
      by_cases hzero : (direntAt disk addrs off).inum = 0
      · rw [if_pos hzero]
        exact .ret ⟨rfl, List.mem_cons_self, h'⟩
      · rw [if_neg hzero]
        obtain ⟨place, hplace, hfree⟩ := hempty
        have hmem : place ∈ rest := by
          rcases List.mem_cons.mp hplace with rfl | hmem
          · exact absurd hfree hzero
          · exact hmem
        refine .mono (ih (fun off' hoff' => hoffs off' (List.mem_cons_of_mem _ hoff'))
          ⟨place, hmem, hfree⟩ state' h') ?_
        rintro result last ⟨hafter, hin, hlast⟩
        exact ⟨hafter, List.mem_cons_of_mem _ hin, hlast⟩

end Reading

theorem le_of_mem_offsets {size off : Nat} (hsize : direntSize ∣ size) (hoff : off ∈ offsets size) :
    off + direntSize ≤ size := by
  obtain ⟨entries, rfl⟩ := hsize
  obtain ⟨k, hk, rfl⟩ := List.mem_map.mp hoff
  rw [List.mem_range] at hk
  simp only [direntSize] at *
  omega

theorem mem_offsets {size k : Nat} (hk : (k + 1) * direntSize ≤ size) : k * direntSize ∈ offsets size := by
  refine List.mem_map.mpr ⟨k, ?_, rfl⟩
  rw [List.mem_range]
  simp only [direntSize] at *
  omega

end Xv6.Fs

namespace Xv6.Mkfs

open Fs (direntSize offsets mem_offsets le_of_mem_offsets diskInode diskInode_size diskInode_addrs)

/-- Every block of a file below its end has an address, and on the fresh image no function of the kernel
that reads a file or a directory makes `bmap` allocate one, nor does a new entry of the root
directory. -/
structure Holeless (conf : Conf) (image : Image) : Prop where
  addr : ∀ inum bn, inum < inodeRoom → bn * bsize < sizeOf image.block conf.sb inum →
    addrOf image.block conf.sb inum (.data bn) ≠ 0
  readi : ∀ inum, inum < inodeRoom → ∀ dst off count,
    Fs.Keeps image.block (diskInode image.block conf.sb inum) (·.2.2) (fun _ => True)
      fun _ => Fs.readi Fs.arm64 conf.sb (diskInode image.block conf.sb inum) dst off count
  dirlookup : ∀ name,
    Fs.Keeps image.block (diskInode image.block conf.sb rootIno) (·.2) (fun _ => True)
      fun _ => Fs.dirlookupFrom Fs.arm64 conf.sb name (diskInode image.block conf.sb rootIno)
        (offsets (sizeOf image.block conf.sb rootIno))
  dirlink : Fs.Keeps image.block (diskInode image.block conf.sb rootIno) (·.2)
    (fun result => Fs.Keeps image.block (diskInode image.block conf.sb rootIno) (·.2) (fun _ => True)
      fun _ => Fs.bmap Fs.arm64 conf.sb (diskInode image.block conf.sb rootIno) (result.1 / bsize))
    fun _ => Fs.emptyFrom Fs.arm64 conf.sb (diskInode image.block conf.sb rootIno)
      (offsets (sizeOf image.block conf.sb rootIno))

section Image

variable {conf : Conf} {inputs : List Input} {owners : List (Nat × Slot)}
  {addrs : Nat → Nat → Nat} {state : State} {image : Image}

theorem Finished.addr_ne_zero_iff (h : Finished conf (packed inputs) owners state image)
    (hbuilt : Built conf (packed inputs) owners addrs state) {inum bn : Nat}
    (hinum : inum < inodeRoom) (hbn : bn < maxFile) :
    addrOf image.block conf.sb inum (.data bn) ≠ 0 ↔ bn * bsize < (packed inputs inum).length := by
  rw [h.addr inum (.data bn) hinum hbn, ← Slot.Used, ← hbuilt.mem]
  constructor
  · intro hne
    by_contra hnot
    exact hne (place_of_not_mem hnot)
  · intro hmem
    have hpos := conf.nmeta_pos
    have hle := le_place conf.nmeta hmem
    omega

theorem Finished.addr_iff (h : Finished conf (packed inputs) owners state image)
    (hbuilt : Built conf (packed inputs) owners addrs state)
    (hroom : inputs.length + 2 ≤ inodeRoom) :
    (∀ inum bn, inum < inodeRoom → bn * bsize < sizeOf image.block conf.sb inum →
        addrOf image.block conf.sb inum (.data bn) ≠ 0) ↔ (inputs.length + 2) % 64 ≠ 0 := by
  have hlength := length_packed_root inputs
  have hroot := h.rootSize
  have hinodes : inodeRoom = 204 := rfl
  have hmax : maxFile = 314 := rfl
  have hblock : bsize = 1024 := rfl
  rw [hlength] at hroot
  constructor
  · intro hall hfull
    -- the block after the last entry is below the size
    have hlast := hall rootIno (16 * (inputs.length + 2) / bsize) (by decide) (by
      rw [hroot]
      exact Nat.mul_lt_mul_of_pos_right (Nat.lt_succ_self _) (by decide))
    rw [h.addr_ne_zero_iff hbuilt (by decide) (by rw [hblock]; omega), hlength, hblock] at hlast
    omega
  · intro hfull inum bn hinum hbn
    by_cases hself : inum = rootIno
    · subst hself
      rw [hroot] at hbn
      have hle : bn < 16 * (inputs.length + 2) / bsize + 1 := Nat.lt_of_mul_lt_mul_right hbn
      rw [hblock] at hle
      rw [h.addr_ne_zero_iff hbuilt hinum (by omega), hlength, hblock]
      omega
    · rw [h.size inum hinum hself] at hbn
      have hlong := hbuilt.length inum
      have hlt : bn * bsize < maxFile * bsize := Nat.lt_of_lt_of_le hbn hlong
      rw [h.addr_ne_zero_iff hbuilt hinum (Nat.lt_of_mul_lt_mul_right hlt)]
      exact hbn

theorem Finished.rootSize_spec (h : Finished conf (packed inputs) owners state image)
    (hroom : inputs.length + 2 ≤ inodeRoom) :
    direntSize ∣ sizeOf image.block conf.sb rootIno ∧
      (inputs.length + 2 + 1) * direntSize ≤ sizeOf image.block conf.sb rootIno ∧
        sizeOf image.block conf.sb rootIno ≤ maxFile * bsize := by
  have hinodes : inodeRoom = 204 := rfl
  have hmax : maxFile = 314 := rfl
  have hsize : sizeOf image.block conf.sb rootIno = (16 * (inputs.length + 2) / 1024 + 1) * 1024 := by
    rw [h.rootSize, length_packed_root]
    rfl
  have hdirent : direntSize = 16 := rfl
  rw [hsize, hdirent, hmax, show bsize = 1024 from rfl]
  exact ⟨Dvd.dvd.mul_left (by decide) _, by omega, by omega⟩

theorem Finished.size_le (h : Finished conf (packed inputs) owners state image)
    (hbuilt : Built conf (packed inputs) owners addrs state)
    (hroom : inputs.length + 2 ≤ inodeRoom) {inum : Nat} (hinum : inum < inodeRoom) :
    sizeOf image.block conf.sb inum ≤ maxFile * bsize := by
  by_cases hself : inum = rootIno
  · subst hself
    exact (h.rootSize_spec hroom).2.2
  · rw [h.size inum hinum hself]
    exact hbuilt.length inum

theorem Finished.holeless (h : Finished conf (packed inputs) owners state image)
    (hbuilt : Built conf (packed inputs) owners addrs state)
    (hroom : inputs.length + 2 ≤ inodeRoom)
    (haddr : ∀ inum bn, inum < inodeRoom → bn * bsize < sizeOf image.block conf.sb inum →
      addrOf image.block conf.sb inum (.data bn) ≠ 0) : Holeless conf image := by
  have hip : ∀ inum k, (diskInode image.block conf.sb inum).addrs k =
      addrsOf image.block conf.sb inum k := diskInode_addrs image.block conf.sb
  have hsize : ∀ inum, inum < inodeRoom →
      (diskInode image.block conf.sb inum).size ≤ maxFile * bsize := by
    intro inum hinum
    rw [diskInode_size]
    exact h.size_le hbuilt hroom hinum
  have hbytes : ∀ inum, inum < inodeRoom → ∀ i, i < (diskInode image.block conf.sb inum).size →
      slotAddr image.block (addrsOf image.block conf.sb inum) (.data (i / bsize)) ≠ 0 := by
    intro inum hinum i hi
    rw [diskInode_size] at hi
    exact haddr inum (i / bsize) hinum (Nat.lt_of_le_of_lt (Nat.div_mul_le_self i bsize) hi)
  have hroot : rootIno < inodeRoom := by decide
  obtain ⟨hwhole, hspare, -⟩ := h.rootSize_spec hroom
  have hoffs : ∀ off ∈ offsets (sizeOf image.block conf.sb rootIno),
      off + direntSize ≤ (diskInode image.block conf.sb rootIno).size := by
    intro off hoff
    rw [diskInode_size]
    exact le_of_mem_offsets hwhole hoff
  refine ⟨haddr, fun inum hinum dst off count => ?_, fun name => ?_, ?_⟩
  · exact Fs.readi_keeps (hip inum) (hsize inum hinum) (hbytes inum hinum) dst off count
  · exact Fs.dirlookupFrom_keeps (hip rootIno) (hsize rootIno hroot) (hbytes rootIno hroot) name hoffs
  · -- the entry after the last one is empty
    have hempty : (Fs.direntAt image.block (addrsOf image.block conf.sb rootIno)
        ((inputs.length + 2) * direntSize)).inum = 0 := by
      have hzero : ∀ i, (packed inputs rootIno).length ≤ i →
          i < sizeOf image.block conf.sb rootIno →
            Fs.byteAt image.block (addrsOf image.block conf.sb rootIno) i = 0 := by
        intro i hle hi
        have hmax := h.size_le hbuilt hroom hroot
        have hbyte := h.byte rootIno i hroot (by omega)
        have hne : addrOf image.block conf.sb rootIno (.data (i / bsize)) ≠ 0 :=
          hbytes rootIno hroot i (by rwa [diskInode_size])
        rw [List.getD_eq_default _ _ hle, byteOf, if_neg hne] at hbyte
        exact hbyte
      have hlength := length_packed_root inputs
      rw [show direntSize = 16 from rfl] at hspare ⊢
      rw [Fs.direntAt_inum, hzero _ (by omega) (by omega), hzero _ (by omega) (by omega)]
      rfl
    intro n ι _ config who kernel hn hquiet
    refine .mono (Fs.emptyFrom_keeps (hip rootIno) (hsize rootIno hroot) (hbytes rootIno hroot) hoffs
      ⟨_, mem_offsets hspare, hempty⟩ n ι config who kernel hn hquiet) ?_
    rintro ⟨off, _⟩ last ⟨hafter, hoff, hlast⟩
    refine ⟨hafter, ?_, hlast⟩
    intro n' ι' _ config' who' kernel' hn' hquiet'
    have hlt : off < (diskInode image.block conf.sb rootIno).size := by
      have hle := hoffs off hoff
      have hdirent : direntSize = 16 := rfl
      omega
    have hvalid : off / bsize < maxFile := by
      have hle := hsize rootIno hroot
      exact Nat.div_lt_of_lt_mul (by rw [Nat.mul_comm]; omega)
    refine .mono (Fs.bmap_ends hquiet' hn' (hip rootIno) hvalid (hbytes rootIno hroot off hlt)) ?_
    rintro _ _ ⟨rfl, hfinal⟩
    exact ⟨rfl, trivial, hfinal⟩

theorem Holeless.rest (h : Holeless conf image) (hexit : main conf inputs = .ok image)
    (hroom : inputs.length + 2 ≤ inodeRoom) : (inputs.length + 2) % 64 ≠ 0 := by
  have hspec := @main_spec conf inputs hroom
  rw [hexit] at hspec
  obtain ⟨-, owners, addrs, state, hbuilt, -, hfinished⟩ := hspec
  exact (hfinished.addr_iff hbuilt hroom).mp h.addr

end Image

/-- **The files of an image have no holes** exactly where the entries of the root directory do not fill
its last block. -/
theorem holeless_iff (conf : Conf) (inputs : List Input) (image : Image)
    (hexit : main conf inputs = .ok image) (hroom : inputs.length + 2 ≤ inodeRoom) :
    Holeless conf image ↔ (inputs.length + 2) % 64 ≠ 0 := by
  have hspec := @main_spec conf inputs hroom
  rw [hexit] at hspec
  obtain ⟨-, owners, addrs, state, hbuilt, -, hfinished⟩ := hspec
  refine ⟨fun h => h.rest hexit hroom, fun hrest => ?_⟩
  exact hfinished.holeless hbuilt hroom ((hfinished.addr_iff hbuilt hroom).mpr hrest)

/-- The shell alone, on arm64. -/
theorem holeless_iff_shell_arm64 : ∃ input image, main arm64 [input] = .ok image ∧
    input.name = [115, 104] ∧ (Holeless arm64 image ↔ ([input].length + 2) % 64 ≠ 0) := by
  have hpath : (0 : UInt8) ∉ [117, 47, 95, 115, 104] := by decide
  obtain ⟨image, hexit⟩ := @main_of_empty arm64 [emptyFile _ hpath] margin_arm64 (by simp)
    (fun input hinput => by rw [List.mem_singleton.mp hinput]; rfl)
  have hroom : [emptyFile _ hpath].length + 2 ≤ inodeRoom := show 3 ≤ inodeRoom by decide
  exact ⟨emptyFile _ hpath, image, hexit, rfl, holeless_iff arm64 _ image hexit hroom⟩

/-- Sixty-two files fill the first block of the root directory. -/
theorem not_holeless_full_arm64 : ∃ inputs image, inputs.length = 62 ∧
    main arm64 inputs = .ok image ∧ ¬Holeless arm64 image := by
  have hpath : (0 : UInt8) ∉ [117, 47, 95, 115, 104] := by decide
  have hlength : (List.replicate 62 (emptyFile _ hpath)).length = 62 := List.length_replicate
  generalize hinputs : List.replicate 62 (emptyFile _ hpath) = inputs at hlength
  have hroom : inputs.length + 2 ≤ inodeRoom := by
    rw [hlength]
    decide
  obtain ⟨image, hexit⟩ := @main_of_empty arm64 inputs margin_arm64 (Nat.le_of_eq hlength)
    (fun input hinput => by
      rw [← hinputs] at hinput
      rw [List.eq_of_mem_replicate hinput]
      rfl)
  refine ⟨inputs, image, hlength, hexit, fun hholeless => ?_⟩
  have hfull := hholeless.rest hexit hroom
  omega

end Xv6.Mkfs
