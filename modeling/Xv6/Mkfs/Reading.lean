import Mathlib.Data.Fintype.Card
import Xv6.Fs.Content
import Xv6.Lib.Alone
import Xv6.Mkfs.Format

/-!
# The kernel reads what an image says

`ilock`, `bmap` and `readi` of the arm64 kernel, run by one process over a block cache whose other
buffers are spare. Where the image names a block for every part of a file, they allocate nothing and
return the bytes the format gives the file.
-/

namespace Xv6.Fs

open Kernel

section Cache

variable {n : Nat} {ι : Type} [DecidableEq ι] {conf : Config Bytes} {disk : Nat → Bytes}
  {who : ι} {b : Fin n} {blockno : Nat} {state : State n ι Bytes}

structure Spare (disk : Nat → Bytes) (buf : Buf ι (Content Bytes)) : Prop where
  refcnt : buf.refcnt = 0
  owner : buf.owner = none
  data : buf.content.valid = true → buf.dev = rootDev → buf.content.data = disk buf.blockno

/-- No buffer is in use. -/
structure Quiet (disk : Nat → Bytes) (state : State n ι Bytes) : Prop where
  onDisk : state.disk = disk
  list : ∃ nodes, state.cache.list.IsRing nodes ∧ ∀ b, b ∈ nodes
  spare : ∀ b, Spare disk (state.cache.buf b)

/-- One buffer is in use: `who` has it locked, and it holds this block. -/
structure Holding (disk : Nat → Bytes) (who : ι) (b : Fin n) (blockno : Nat)
    (state : State n ι Bytes) : Prop where
  onDisk : state.disk = disk
  list : ∃ nodes, state.cache.list.IsRing nodes ∧ ∀ b, b ∈ nodes
  refcnt : (state.cache.buf b).refcnt = 1
  owner : (state.cache.buf b).owner = some who
  dev : (state.cache.buf b).dev = rootDev
  content : (state.cache.buf b).content = ⟨true, disk blockno⟩
  number : (state.cache.buf b).blockno = blockno
  spare : ∀ b', b' ≠ b → Spare disk (state.cache.buf b')

omit [DecidableEq ι] in
/-- `bget` finds a buffer: the block's, or one to recycle. -/
theorem Quiet.bget (h : Quiet disk state) (hn : 0 < n) (blockno : Nat) :
    ∃ b buf, state.cache.bget (fun content => { content with valid := false }) rootDev blockno =
        some (b, state.cache.setBuf b buf) ∧
      buf.refcnt = 1 ∧ buf.owner = none ∧ buf.dev = rootDev ∧ buf.blockno = blockno ∧
      (buf.content.valid = true → buf.content.data = disk blockno) := by
  obtain ⟨nodes, hring, hcomplete⟩ := h.list
  have hlength : nodes.length < n + 1 := by
    have hle := hring.nodup.length_le_card
    simp only [Fintype.card_fin] at hle
    omega
  unfold Bcache.bget
  cases hcached : state.cache.cached rootDev blockno with
  | some b =>
      have hkey : (state.cache.buf b).dev = rootDev ∧ (state.cache.buf b).blockno = blockno := by
        rw [Bcache.cached, hring.scanNext hlength] at hcached
        simpa using List.find?_some hcached
      refine ⟨b, _, rfl, ?_, (h.spare b).owner, hkey.1, hkey.2, ?_⟩
      · dsimp only
        rw [(h.spare b).refcnt]
      · intro hvalid
        exact ((h.spare b).data hvalid hkey.1).trans (congrArg disk hkey.2)
  | none =>
      cases hunused : state.cache.unused with
      | none =>
          rw [Bcache.unused, hring.scanPrev hlength, List.find?_eq_none] at hunused
          have hbusy := hunused ⟨0, hn⟩ (List.mem_reverse.mpr (hcomplete _))
          simp [(h.spare _).refcnt] at hbusy
      | some b =>
          exact ⟨b, _, rfl, rfl, (h.spare b).owner, rfl, rfl, fun hvalid => by cases hvalid⟩

theorem perform_ends (op : Op n Bytes) (response : op.Resp) (state' : State n ι Bytes)
    (hop : handler conf who state op 0 = some (response, state')) :
    (perform op).Ends (handler conf) who state fun value last =>
      response = value ∧ state' = last :=
  .call hop (.ret ⟨rfl, rfl⟩)

theorem panicIf_ends {bad : Prop} [Decidable bad] {message : String} (hbad : ¬bad) :
    (panicIf bad message : Code n Bytes Unit).Ends (handler conf) who state fun _ last =>
      state = last := by
  rw [panicIf, Program.when, if_neg hbad]
  exact .ret rfl

theorem bread_ends (h : Quiet disk state) (hn : 0 < n) (blockno : Nat) :
    (bread rootDev blockno).Ends (handler conf) who state fun b state' =>
      Holding disk who b blockno state' := by
  obtain ⟨b, buf, hbget, hrefcnt, howner, hdev, hblockno, hdata⟩ := h.bget hn blockno
  have hspare : ∀ buf' b', b' ≠ b → Spare disk ((state.cache.setBuf b buf').buf b') := by
    intro buf' b' hne
    rw [Bcache.setBuf_buf_of_ne _ _ hne]
    exact h.spare b'
  refine .bind (perform_ends (.bget rootDev blockno) b
    { state with cache := state.cache.setBuf b buf } ?_) ?_
  · rw [handler, hbget]
    rfl
  rintro _ _ ⟨rfl, rfl⟩
  refine .bind (perform_ends (.acquiresleep b) ()
    { state with cache := state.cache.setBuf b { buf with owner := some who } } ?_) ?_
  · simp [handler, Bcache.acquiresleep, howner, Bcache.setBuf]
    rfl
  rintro _ _ ⟨rfl, rfl⟩
  refine .bind (perform_ends (.content b) buf.content
    { state with cache := state.cache.setBuf b { buf with owner := some who } } ?_) ?_
  · rw [handler, Bcache.setBuf_buf_self]
    rfl
  rintro _ _ ⟨rfl, rfl⟩
  by_cases hvalid : buf.content.valid = true
  · have hcontent : buf.content = ⟨true, disk blockno⟩ := by
      rw [← hdata hvalid, ← hvalid]
    rw [Program.when, if_neg (by simp [hvalid])]
    refine .ret ⟨h.onDisk, h.list, ?_, ?_, ?_, ?_, ?_, hspare _⟩ <;>
      rw [Bcache.setBuf_buf_self] <;> assumption
  · rw [Program.when, if_pos (by simp [hvalid])]
    refine .bind (perform_ends (.diskRead b) () { state with
      cache := state.cache.setBuf b
        { buf with owner := some who, content := ⟨true, disk blockno⟩ } } ?_) ?_
    · simp [handler, Bcache.setBuf, h.onDisk, hblockno]
      rfl
    rintro _ _ ⟨-, rfl⟩
    refine .ret ⟨h.onDisk, h.list, ?_, ?_, ?_, ?_, ?_, hspare _⟩ <;>
      rw [Bcache.setBuf_buf_self] <;> assumption

theorem content_ends (h : Holding disk who b blockno state) :
    (content b).Ends (handler conf) who state fun content state' =>
      content = ⟨true, disk blockno⟩ ∧ Holding disk who b blockno state' :=
  .call rfl (.ret ⟨h.content, h⟩)

theorem brelse_ends (h : Holding disk who b blockno state) :
    (brelse b).Ends (handler conf) who state fun _ state' => Quiet disk state' := by
  have hholding : state.cache.holdingsleep who b = true := by
    simp [Bcache.holdingsleep, h.owner]
  have hbuf : (((state.cache.releasesleep b).brelse b).buf b) =
      { state.cache.buf b with owner := none, refcnt := 0 } := by
    simp [Bcache.brelse, Bcache.releasesleep, h.refcnt]
  have hother : ∀ b', b' ≠ b →
      ((state.cache.releasesleep b).brelse b).buf b' = state.cache.buf b' := by
    intro b' hne
    simp [Bcache.brelse, Bcache.releasesleep, h.refcnt, hne]
  obtain ⟨nodes, hring, hcomplete⟩ := h.list
  refine .bind (perform_ends (.holdingsleep b) true state ?_) ?_
  · rw [handler, hholding]
    rfl
  rintro _ _ ⟨rfl, rfl⟩
  refine .bind (panicIf_ends (by simp)) ?_
  rintro _ _ rfl
  refine .bind (perform_ends (.releasesleep b) () _ rfl) ?_
  rintro _ _ ⟨-, rfl⟩
  refine .mono (perform_ends (.unuse b) () _ rfl) ?_
  rintro _ _ ⟨-, rfl⟩
  refine ⟨h.onDisk, ?_, ?_⟩
  · refine ⟨b :: nodes.erase b, ?_, ?_⟩
    · simpa [Bcache.brelse, Bcache.releasesleep, h.refcnt] using
        hring.moveToFront (hcomplete b)
    · intro b'
      by_cases hne : b' = b
      · simp [hne]
      · exact List.mem_cons_of_mem _ ((List.mem_erase_of_ne hne).mpr (hcomplete b'))
  · intro b'
    by_cases hne : b' = b
    · subst hne
      rw [hbuf]
      refine ⟨rfl, rfl, fun _ _ => ?_⟩
      rw [h.content, h.number]
    · rw [hother b' hne]
      exact h.spare b' hne

end Cache

/-! ### Inodes -/

section Inodes

open Mkfs (Slot slotAddr)

variable {n : Nat} {ι : Type} [DecidableEq ι] {conf : Config Bytes} {disk : Nat → Bytes}
  {who : ι} {state : State n ι Bytes} {sb : Superblock} {ip : Inode} {addrs : Nat → Nat}

def byteAt (disk : Nat → Bytes) (addrs : Nat → Nat) (i : Nat) : UInt8 :=
  disk (slotAddr disk addrs (.data (i / bsize))) (i % bsize)

theorem bmap_ends (h : Quiet disk state) (hn : 0 < n) (hip : ∀ k, ip.addrs k = addrs k) {bn : Nat}
    (hbn : bn < maxFile) (haddr : slotAddr disk addrs (.data bn) ≠ 0) :
    (bmap arm64 sb ip bn).Ends (handler conf) who state fun result state' =>
      result = (slotAddr disk addrs (.data bn), ip) ∧ Quiet disk state' := by
  rw [slotAddr] at haddr ⊢
  unfold bmap
  by_cases hdirect : bn < ndirect
  · rw [if_pos hdirect] at haddr ⊢
    have hne : ip.addrs ⟨bn, Nat.lt_succ_of_lt hdirect⟩ ≠ 0 := by
      rw [hip]
      exact haddr
    rw [dif_pos hdirect]
    dsimp only
    rw [if_neg hne, hip]
    exact .ret ⟨rfl, h⟩
  · rw [if_neg hdirect] at haddr ⊢
    have hind : addrs ndirect ≠ 0 := fun hzero => haddr (if_pos hzero)
    have hindirect : ip.addrs indirect = addrs ndirect := hip indirect
    have hentry : bn - ndirect < nindirect := by
      simp only [maxFile] at hbn
      omega
    rw [if_neg hind] at haddr ⊢
    rw [dif_neg hdirect, bmap.bmapIndirect, if_pos hentry, hindirect, if_neg hind,
      bmap.bmapEntry]
    refine .bind (bread_ends h hn _) ?_
    intro bp state' hbp
    refine .bind (content_ends hbp) ?_
    rintro _ state'' ⟨rfl, hbp⟩
    dsimp only
    rw [if_neg haddr]
    refine .bind (brelse_ends hbp) ?_
    intro _ last hlast
    exact .ret ⟨rfl, hlast⟩

theorem readiFrom_ends (hn : 0 < n) (hip : ∀ k, ip.addrs k = addrs k) {count fuel off tot : Nat}
    {copied : List UInt8} (h : Quiet disk state) (hfuel : count - tot ≤ fuel) (htot : tot ≤ count)
    (haddr : ∀ i, off ≤ i → i < off + (count - tot) →
      i < maxFile * bsize ∧ slotAddr disk addrs (.data (i / bsize)) ≠ 0) :
    (readiFrom arm64 sb count fuel ip .kernel off tot copied).Ends (handler conf) who state
      fun result state' => result = ((count : Int), copied ++
        (List.range (count - tot)).map fun i => byteAt disk addrs (off + i), ip) ∧
        Quiet disk state' := by
  induction fuel generalizing state off tot copied with
  | zero =>
      obtain rfl : tot = count := by omega
      rw [Nat.sub_self, List.range_zero, List.map_nil, List.append_nil]
      exact .ret ⟨rfl, h⟩
  | succ fuel ih =>
      rw [readiFrom]
      by_cases hlt : tot < count
      · rw [if_pos hlt]
        obtain ⟨hfile, hfirst⟩ := haddr off (Nat.le_refl _) (by omega)
        have hvalid : off / bsize < maxFile := Nat.div_lt_of_lt_mul (by rwa [Nat.mul_comm])
        refine .bind (bmap_ends h hn hip hvalid hfirst) ?_
        rintro _ state' ⟨rfl, h'⟩
        dsimp only
        rw [if_neg (by simp [arm64])]
        refine .bind (bread_ends h' hn _) ?_
        intro bp state'' hbp
        refine .bind (content_ends hbp) ?_
        rintro _ mid ⟨rfl, hbp⟩
        rw [eitherCopyout, Program.pure_eq, Program.ret_bind]
        refine .bind (brelse_ends hbp) ?_
        intro _ last hlast
        rw [if_pos rfl, Dest.advance]
        generalize hm : min (count - tot) (bsize - off % bsize) = m
        have hmod := Nat.mod_lt off (show 0 < bsize by decide)
        have hround : Bytes.load (disk (slotAddr disk addrs (.data (off / bsize)))) (off % bsize) m =
            (List.range m).map fun i => byteAt disk addrs (off + i) := by
          apply List.map_congr_left
          intro i hi
          have hi' := List.mem_range.mp hi
          have hdiv : (off + i) / bsize = off / bsize := by
            simp only [bsize] at *
            omega
          have hmod' : (off + i) % bsize = off % bsize + i := by
            simp only [bsize] at *
            omega
          rw [byteAt, hdiv, hmod']
        have hsplit : count - tot = m + (count - (tot + m)) := by omega
        refine .mono (ih hlast (by omega) (by omega)
          fun i hle hi => haddr i (by omega) (by omega)) ?_
        rintro _ _ ⟨rfl, hquiet⟩
        refine ⟨?_, hquiet⟩
        rw [hround, hsplit, List.range_add, List.map_append, List.map_map, List.append_assoc]
        simp only [Function.comp_def, Nat.add_assoc]
      · rw [if_neg hlt]
        obtain rfl : tot = count := by omega
        rw [Nat.sub_self, List.range_zero, List.map_nil, List.append_nil]
        exact .ret ⟨rfl, h⟩

/-- What `ilock` reads from the disk. -/
def diskInode (disk : Nat → Bytes) (sb : Superblock) (inum : Nat) : Inode :=
  { Dinode.load (disk (sb.iblock inum)) (dinodeOff inum) with inum }

section DiskInode

variable (disk : Nat → Bytes) (sb : Superblock) (inum : Nat)

theorem diskInode_size : (diskInode disk sb inum).size = Mkfs.sizeOf disk sb inum := by
  rw [Mkfs.sizeOf, Mkfs.uint_dinodeAt]
  rfl

theorem diskInode_addrs (k : Fin (ndirect + 1)) :
    (diskInode disk sb inum).addrs k = Mkfs.addrsOf disk sb inum k := by
  rw [Mkfs.addrsOf, Mkfs.uint_dinodeAt, Mkfs.addrOff, ← Nat.add_assoc]
  rfl

end DiskInode

theorem iread_ends (h : Quiet disk state) (hn : 0 < n) {inum : Nat}
    (htype : Mkfs.typeOf disk sb inum ≠ 0) :
    (iread sb inum).Ends (handler conf) who state fun ip state' =>
      ip = diskInode disk sb inum ∧ Quiet disk state' := by
  refine .bind (bread_ends h hn _) ?_
  intro bp state' hbp
  refine .bind (content_ends hbp) ?_
  rintro _ state'' ⟨rfl, hbp⟩
  refine .bind (brelse_ends hbp) ?_
  intro _ last hlast
  refine .bind (panicIf_ends ?_) ?_
  · rw [Mkfs.typeOf, Mkfs.uint_dinodeAt, Nat.add_zero] at htype
    exact htype
  · rintro _ _ rfl
    exact .ret ⟨rfl, hlast⟩

/-- How many bytes of a file of this size `readi` copies, if no copy fails. -/
def readCount (size : Nat) (off count : UInt32) : Nat :=
  if off.toNat > size ∨ off + count < off then 0
  else if (off + count).toNat > size then size - off.toNat
  else count.toNat

theorem lt_of_readCount {size i : Nat} {off count : UInt32} (hle : off.toNat ≤ i)
    (hi : i < off.toNat + readCount size off count) : i < size := by
  have hadd : (off + count).toNat = (off.toNat + count.toNat) % 2 ^ 32 := UInt32.toNat_add ..
  have hcount := count.toNat_lt
  unfold readCount at hi
  split_ifs at hi with hbad hend
  · omega
  · omega
  · rw [not_or, UInt32.lt_iff_toNat_lt] at hbad
    omega

theorem readi_eq (fork : Fork) (dst : Dest) (off count : UInt32) :
    (readi fork sb ip dst off count : Code n Bytes _) =
      readiFrom fork sb (readCount ip.size off count) (readCount ip.size off count) ip dst off.toNat
        0 [] := by
  unfold readi readCount
  by_cases hbad : off.toNat > ip.size ∨ off + count < off
  · rw [if_pos hbad, if_pos hbad]
    rfl
  · rw [if_neg hbad, if_neg hbad]

theorem readi_ends (h : Quiet disk state) (hn : 0 < n) (hip : ∀ k, ip.addrs k = addrs k)
    (hsize : ip.size ≤ maxFile * bsize)
    (haddr : ∀ i, i < ip.size → slotAddr disk addrs (.data (i / bsize)) ≠ 0) (off count : UInt32) :
    (readi arm64 sb ip .kernel off count).Ends (handler conf) who state fun result state' =>
      result = ((readCount ip.size off count : Int),
        (List.range (readCount ip.size off count)).map fun i => byteAt disk addrs (off.toNat + i), ip) ∧
        Quiet disk state' := by
  rw [readi_eq]
  refine .mono (readiFrom_ends hn hip h (Nat.le_refl _) (Nat.zero_le _) fun i hle hi => ?_) ?_
  · have hlt : i < ip.size := lt_of_readCount hle hi
    exact ⟨by omega, haddr i hlt⟩
  · rintro _ last ⟨rfl, hquiet⟩
    exact ⟨by rw [List.nil_append, Nat.sub_zero], hquiet⟩

theorem read_ends (h : Quiet disk state) (hn : 0 < n) {inum : Nat}
    (htype : Mkfs.typeOf disk sb inum ≠ 0) (hsize : Mkfs.sizeOf disk sb inum ≤ maxFile * bsize)
    (haddr : ∀ i, i < Mkfs.sizeOf disk sb inum → Mkfs.addrOf disk sb inum (.data (i / bsize)) ≠ 0)
    {off count : UInt32} (hoff : off.toNat ≤ Mkfs.sizeOf disk sb inum)
    (hcount : off.toNat + count.toNat < 2 ^ 32) :
    (do
      let ip ← iread sb inum
      readi arm64 sb ip .kernel off count).Ends (handler conf) who state fun result state' =>
        result.2.1 = ((Mkfs.fileOf disk sb inum).drop off.toNat).take count.toNat ∧
          result.1 = result.2.1.length ∧ Quiet disk state' := by
  refine .bind (iread_ends h hn htype) ?_
  rintro _ state' ⟨rfl, h'⟩
  have hadd : (off + count).toNat = off.toNat + count.toNat := by
    rw [UInt32.toNat_add, Nat.mod_eq_of_lt hcount]
  have hip := diskInode_size disk sb inum
  have hlen : readCount (Mkfs.sizeOf disk sb inum) off count =
      min count.toNat (Mkfs.sizeOf disk sb inum - off.toNat) := by
    have hfits : ¬(off.toNat > Mkfs.sizeOf disk sb inum ∨ off + count < off) := by
      rw [UInt32.lt_iff_toNat_lt]
      omega
    rw [readCount, if_neg hfits, hadd]
    split_ifs <;> omega
  refine .mono (readi_ends h' hn (diskInode_addrs disk sb inum) (by omega)
    (fun i hi => haddr i (by omega)) off count) ?_
  rintro _ last ⟨rfl, hquiet⟩
  rw [hip, hlen]
  refine ⟨?_, ?_, hquiet⟩
  · apply List.ext_getElem
    · simp only [List.length_map, List.length_range, List.length_take, List.length_drop,
        Mkfs.fileOf]
    · intro i hi hi'
      simp only [List.length_map, List.length_range] at hi
      have hne := haddr (off.toNat + i) (by omega)
      simp only [List.getElem_map, List.getElem_range, List.getElem_take, List.getElem_drop,
        Mkfs.fileOf, Mkfs.byteOf, if_neg hne]
      rfl
  · simp

end Inodes

end Xv6.Fs
