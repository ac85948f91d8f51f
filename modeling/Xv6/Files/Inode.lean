import Xv6.Files.UserCopy

/-!
# Reading and writing the bytes of an inode

`readi` and `writei` of `arm64/fs.c` for user buffers. The block that `bmap` finds or allocates is the
inode's own, and one that it allocates is zeroed. A disk without free blocks is a panic.
-/

namespace Xv6.Files

open Kernel (Pages userByte reach Copied archCopyin archCopyout archCopyin_spec archCopyout_spec)

/-- `int` and `uint`. -/
abbrev Word := BitVec 32

/-- `struct inode`: its size, and what is in the blocks that `bmap` finds. -/
structure Inode where
  size : Word
  block : Nat → Bytes

def Inode.byte (ip : Inode) (i : Nat) : UInt8 := ip.block (i / bsize) (i % bsize)

def Inode.store (ip : Inode) (off : Nat) (bytes : List UInt8) : Inode := { ip with
  block := Function.update ip.block (off / bsize) (Bytes.store (ip.block (off / bsize)) (off % bsize) bytes) }

/-- A `uint` that is returned as an `int`. -/
def int (tot : Nat) : Int := (BitVec.ofNat 32 tot).toInt

theorem maxFile_small : maxFile * bsize < 2 ^ 31 := by decide

theorem int_eq {tot : Nat} (h : tot ≤ maxFile * bsize) : int tot = tot := by
  have hsmall := h.trans_lt maxFile_small
  rw [int, BitVec.toInt_eq_toNat_of_lt] <;> rw [BitVec.toNat_ofNat, Nat.mod_eq_of_lt] <;> omega

/-- The loop of `readi`: what it returns, the user pages, and how many bytes it has moved. The fuel is the
number of bytes left, as every round copies at least one. -/
def readiFrom (ip : Inode) (count : Nat) : Nat → Pages → Nat → Nat → Nat → Int × Pages × Nat
  | 0, pages, _, _, tot => (int tot, pages, tot)
  | fuel + 1, pages, dst, off, tot =>
      if tot < count then
        let m := min (count - tot) (bsize - off % bsize)
        let copied := archCopyout m pages dst (Bytes.load (ip.block (off / bsize)) (off % bsize) m)
        if copied.2 then
          readiFrom ip count fuel copied.1 (dst + m) (off + m) (tot + m)
        else
          (-1, copied.1, tot + reach pages m dst)
      else
        (int tot, pages, tot)

def readi (ip : Inode) (pages : Pages) (dst : Nat) (off n : Word) : Int × Pages × Nat :=
  if off > ip.size ∨ off + n < off then
    (0, pages, 0)
  else
    let n := if off + n > ip.size then ip.size - off else n
    readiFrom ip n.toNat n.toNat pages dst off.toNat 0

/-- The loop of `writei`: the inode, `off` and `tot`. A copy that fails leaves in the block what it has
copied by then. -/
def writeiFrom (count : Nat) (pages : Pages) : Nat → Inode → Nat → Nat → Nat → Inode × Nat × Nat
  | 0, ip, _, off, tot => (ip, off, tot)
  | fuel + 1, ip, src, off, tot =>
      if tot < count then
        let m := min (count - tot) (bsize - off % bsize)
        let copied := archCopyin pages m src m
        let ip := ip.store off copied.1
        if copied.2 then
          writeiFrom count pages fuel ip (src + m) (off + m) (tot + m)
        else
          (ip, off, tot)
      else
        (ip, off, tot)

def writei (ip : Inode) (pages : Pages) (src : Nat) (off n : Word) : Int × Inode :=
  if off > ip.size ∨ off + n < off then
    (-1, ip)
  else if (off + n).toNat > maxFile * bsize then
    (-1, ip)
  else
    let written := writeiFrom n.toNat pages n.toNat ip src off.toNat 0
    let ip := written.1
    (int written.2.2, if written.2.1 > ip.size.toNat then { ip with size := BitVec.ofNat 32 written.2.1 } else ip)

/-! ### Reading -/

section Reading

variable {ip : Inode} {pages : Pages} {dst : Nat}

theorem load_block {off m i : Nat} (hi : i < m) (hm : off % bsize + m ≤ bsize) :
    (Bytes.load (ip.block (off / bsize)) (off % bsize) m).getD i 0 = ip.byte (off + i) := by
  have hdiv : (off + i) / bsize = off / bsize := by
    simp only [bsize] at *
    omega
  have hmod : (off + i) % bsize = off % bsize + i := by
    simp only [bsize] at *
    omega
  rw [Inode.byte, hdiv, hmod, List.getD_eq_getElem _ _ (by rwa [Bytes.length_load])]
  simp [Bytes.load]

theorem readiFrom_spec {count fuel off tot : Nat} (hfuel : count - tot ≤ fuel) (htot : tot ≤ count) :
    (readiFrom ip count fuel pages dst off tot).1 =
        (if reach pages (count - tot) dst = count - tot then int count else -1) ∧
      (readiFrom ip count fuel pages dst off tot).2.2 = tot + reach pages (count - tot) dst ∧
        Copied pages (readiFrom ip count fuel pages dst off tot).2.1 dst (reach pages (count - tot) dst)
          fun i => ip.byte (off + i) := by
  induction fuel generalizing pages dst off tot with
  | zero =>
      obtain rfl : tot = count := by omega
      rw [Nat.sub_self]
      exact ⟨rfl, rfl, .refl _ _ _⟩
  | succ fuel ih =>
      rw [readiFrom]
      by_cases hlt : tot < count
      · rw [if_pos hlt]
        dsimp only
        generalize hm : min (count - tot) (bsize - off % bsize) = m
        have hmod := Nat.mod_lt off (show 0 < bsize by decide)
        generalize hbytes : Bytes.load (ip.block (off / bsize)) (off % bsize) m = bytes
        have hlength : bytes.length = m := by rw [← hbytes, Bytes.length_load]
        obtain ⟨hok, hcopied⟩ := @archCopyout_spec pages m dst bytes (Nat.le_of_eq hlength)
        rw [hlength] at hok hcopied
        have hblock : ∀ i, i < m → ip.byte (off + i) = bytes.getD i 0 := by
          intro i hi
          rw [← hbytes, load_block hi (by omega)]
        have hsplit : count - tot = m + (count - (tot + m)) := by omega
        have hreach := @Kernel.reach_add pages dst m (count - (tot + m))
        rw [← hsplit] at hreach
        by_cases hall : reach pages m dst = m
        · rw [hall, decide_eq_true rfl] at hok
          rw [hall] at hcopied
          rw [if_pos hall] at hreach
          obtain ⟨hresult, hmoved, hrest⟩ := @ih (archCopyout m pages dst bytes).1 (dst + m) (off + m) (tot + m)
            (by omega) (by omega)
          rw [Kernel.reach_congr hcopied.mapped] at hresult hmoved hrest
          rw [hok, if_pos rfl, hresult, hmoved, hreach]
          refine ⟨?_, by omega, ?_⟩
          · by_cases hend : reach pages (count - (tot + m)) (dst + m) = count - (tot + m)
            · rw [if_pos hend, if_pos (by omega)]
            · rw [if_neg hend, if_neg (by omega)]
          · exact (hcopied.congr hblock).trans hrest fun i _ => by rw [Nat.add_assoc]
        · rw [decide_eq_false hall] at hok
          rw [if_neg hall] at hreach
          have hle := Kernel.reach_le pages m dst
          rw [hok, if_neg Bool.false_ne_true, hreach, if_neg (by omega)]
          exact ⟨rfl, rfl, hcopied.congr fun i hi => hblock i (by omega)⟩
      · rw [if_neg hlt]
        obtain rfl : tot = count := by omega
        rw [Nat.sub_self]
        exact ⟨rfl, rfl, .refl _ _ _⟩

/-- How many bytes `readi` is to copy. -/
def readCount (size off n : Word) : Nat :=
  if off > size ∨ off + n < off then 0 else (if off + n > size then size - off else n).toNat

theorem readCount_le {size off n : Word} (h : 0 < readCount size off n) :
    off.toNat + readCount size off n ≤ size.toNat := by
  unfold readCount at h ⊢
  split at h
  · exact absurd h (Nat.lt_irrefl 0)
  · next hbad =>
    rw [if_neg hbad]
    split <;> bv_omega

theorem readCount_le_size (size off n : Word) : readCount size off n ≤ size.toNat := by
  rcases Nat.eq_zero_or_pos (readCount size off n) with hzero | hpos
  · exact hzero ▸ Nat.zero_le _
  · exact (Nat.le_add_left _ _).trans (readCount_le hpos)

theorem readi_spec (hsize : ip.size.toNat ≤ maxFile * bsize) (pages : Pages) (dst : Nat) (off n : Word) :
    (readi ip pages dst off n).1 =
        (if reach pages (readCount ip.size off n) dst = readCount ip.size off n then
          (readCount ip.size off n : Int) else -1) ∧
      (readi ip pages dst off n).2.2 = reach pages (readCount ip.size off n) dst ∧
        Copied pages (readi ip pages dst off n).2.1 dst (reach pages (readCount ip.size off n) dst)
          fun i => ip.byte (off.toNat + i) := by
  have hcount : readCount ip.size off n ≤ maxFile * bsize := (readCount_le_size _ _ _).trans hsize
  unfold readi
  unfold readCount at hcount ⊢
  by_cases hbad : off > ip.size ∨ off + n < off
  · rw [if_pos hbad, if_pos hbad]
    exact ⟨rfl, rfl, .refl _ _ _⟩
  · rw [if_neg hbad] at hcount
    rw [if_neg hbad, if_neg hbad]
    dsimp only
    generalize (if off + n > ip.size then ip.size - off else n).toNat = count at hcount ⊢
    have hloop := @readiFrom_spec ip pages dst count count off.toNat 0 (Nat.le_refl _) (Nat.zero_le _)
    rw [Nat.sub_zero, Nat.zero_add, int_eq hcount] at hloop
    exact hloop

theorem readCount_eq_zero_iff {size off n : Word} (hneg : n.toInt < 0) :
    readCount size off n = 0 ↔ off ≥ size ∨ off + n < off := by
  have hbig : 2147483648 ≤ n.toNat := by
    rw [BitVec.toInt_eq_toNat_cond] at hneg
    split at hneg <;> omega
  unfold readCount
  by_cases hbad : off > size ∨ off + n < off
  · rw [if_pos hbad]
    refine iff_of_true rfl ?_
    rcases hbad with hoff | hwrap
    · exact Or.inl (by bv_omega)
    · exact Or.inr hwrap
  · rw [if_neg hbad]
    split
    · bv_omega
    · bv_omega

end Reading

/-! ### Writing -/

section Writing

variable {ip : Inode} {pages : Pages} {src : Nat}

theorem byte_store {bytes : List UInt8} {off : Nat} (hfit : off % bsize + bytes.length ≤ bsize) (i : Nat) :
    (ip.store off bytes).byte i =
      if off ≤ i ∧ i < off + bytes.length then bytes.getD (i - off) 0 else ip.byte i := by
  rw [Inode.byte, Inode.store]
  dsimp only
  by_cases hdiv : i / bsize = off / bsize
  · rw [hdiv, Function.update_self, Bytes.store]
    by_cases hin : off ≤ i ∧ i < off + bytes.length
    · have hrange : off % bsize ≤ i % bsize ∧ i % bsize < off % bsize + bytes.length := by
        simp only [bsize] at *
        omega
      have hindex : i % bsize - off % bsize = i - off := by
        simp only [bsize] at *
        omega
      rw [if_pos hin, if_pos hrange, hindex]
    · have hrange : ¬(off % bsize ≤ i % bsize ∧ i % bsize < off % bsize + bytes.length) := by
        simp only [bsize] at *
        omega
      rw [if_neg hin, if_neg hrange, Inode.byte, hdiv]
  · have hout : ¬(off ≤ i ∧ i < off + bytes.length) := by
      simp only [bsize] at *
      omega
    rw [Function.update_of_ne hdiv, if_neg hout, Inode.byte]

/-- The file `ip'` has the bytes from `src` on at `off`. Before that, and from `limit` on, it is as it
was. -/
structure Stored (pages : Pages) (ip ip' : Inode) (src off count limit : Nat) : Prop where
  byte : ∀ i, i < count → userByte pages (src + i) = some (ip'.byte (off + i))
  rest : ∀ i, i < off ∨ limit ≤ i → ip'.byte i = ip.byte i

theorem writeiFrom_spec {count fuel off tot : Nat} (htot : tot ≤ count) :
    ∃ more, tot + more ≤ count ∧
      (writeiFrom count pages fuel ip src off tot).2 = (off + more, tot + more) ∧
        (writeiFrom count pages fuel ip src off tot).1.size = ip.size ∧
          Stored pages ip (writeiFrom count pages fuel ip src off tot).1 src off more
            (off + (count - tot)) := by
  induction fuel generalizing ip src off tot with
  | zero => exact ⟨0, htot, rfl, rfl, fun i hi => absurd hi (Nat.not_lt_zero i), fun _ _ => rfl⟩
  | succ fuel ih =>
      rw [writeiFrom]
      by_cases hlt : tot < count
      · rw [if_pos hlt]
        dsimp only
        generalize hm : min (count - tot) (bsize - off % bsize) = m
        have hmod := Nat.mod_lt off (show 0 < bsize by decide)
        obtain ⟨hlength, hok, hbytes⟩ :=
          @archCopyin_spec pages m src m (Nat.le_refl m)
        have hle := Kernel.reach_le pages m src
        generalize archCopyin pages m src m = copied at hlength hok hbytes ⊢
        have hstore := fun i => @byte_store ip copied.1 off (by omega) i
        have hsize : (ip.store off copied.1).size = ip.size := rfl
        generalize ip.store off copied.1 = mid at hstore hsize ⊢
        by_cases hall : reach pages m src = m
        · rw [hall] at hlength hbytes
          rw [hok, decide_eq_true hall, if_pos rfl]
          obtain ⟨more, hmore, hends, hsame, hstored⟩ :=
            @ih mid (src + m) (off + m) (tot + m) (by omega)
          refine ⟨m + more, by omega, ?_, hsame.trans hsize, ?_, ?_⟩
          · rw [hends, Nat.add_assoc, Nat.add_assoc]
          · intro i hi
            by_cases hfirst : i < m
            · rw [hbytes i hfirst, hstored.rest _ (Or.inl (by omega)), hstore, if_pos (by omega),
                Nat.add_sub_cancel_left]
            · have hlast := hstored.byte (i - m) (by omega)
              rwa [show src + m + (i - m) = src + i by omega,
                show off + m + (i - m) = off + i by omega] at hlast
          · intro i hi
            rw [hstored.rest i (by omega), hstore, if_neg (by omega)]
        · rw [hok, decide_eq_false hall, if_neg Bool.false_ne_true]
          refine ⟨0, htot, rfl, hsize, fun i hi => absurd hi (Nat.not_lt_zero i), fun i hi => ?_⟩
          rw [hstore, if_neg (by omega)]
      · rw [if_neg hlt]
        exact ⟨0, htot, rfl, rfl, fun i hi => absurd hi (Nat.not_lt_zero i), fun _ _ => rfl⟩

theorem writei_spec (ip : Inode) (pages : Pages) (src : Nat) (off n : Word) :
    ((writei ip pages src off n).1 = -1 ∧ (writei ip pages src off n).2 = ip) ∨
      ∃ count : Nat, (writei ip pages src off n).1 = count ∧ count ≤ n.toNat ∧
        off.toNat + n.toNat ≤ maxFile * bsize ∧
          Stored pages ip (writei ip pages src off n).2 src off.toNat count (off.toNat + n.toNat) := by
  unfold writei
  by_cases hbad : off > ip.size ∨ off + n < off
  · rw [if_pos hbad]
    exact Or.inl ⟨rfl, rfl⟩
  · rw [if_neg hbad]
    by_cases hlong : (off + n).toNat > maxFile * bsize
    · rw [if_pos hlong]
      exact Or.inl ⟨rfl, rfl⟩
    · rw [if_neg hlong]
      dsimp only
      obtain ⟨more, hmore, hends, -, hstored⟩ :=
        @writeiFrom_spec ip pages src n.toNat n.toNat off.toNat 0 (Nat.zero_le _)
      rw [Nat.zero_add] at hmore
      rw [Nat.sub_zero] at hstored
      have hend : off.toNat + n.toNat ≤ maxFile * bsize := by bv_omega
      refine Or.inr ⟨more, by rw [hends, Nat.zero_add, int_eq (by omega)], hmore, hend, ?_⟩
      have hbytes : ∀ ip' : Inode, ∀ size i, Inode.byte ({ ip' with size } : Inode) i = ip'.byte i :=
        fun _ _ _ => rfl
      split
      · exact ⟨fun i hi => by rw [hbytes, hstored.byte i hi], fun i hi => by rw [hbytes, hstored.rest i hi]⟩
      · exact hstored

theorem writei_size (hsize : ip.size.toNat ≤ maxFile * bsize) (off n : Word) :
    (writei ip pages src off n).2.size.toNat ≤ maxFile * bsize := by
  unfold writei
  by_cases hbad : off > ip.size ∨ off + n < off
  · rw [if_pos hbad]
    exact hsize
  · rw [if_neg hbad]
    by_cases hlong : (off + n).toNat > maxFile * bsize
    · rw [if_pos hlong]
      exact hsize
    · rw [if_neg hlong]
      dsimp only
      obtain ⟨more, hmore, hends, hsame, -⟩ :=
        @writeiFrom_spec ip pages src n.toNat n.toNat off.toNat 0 (Nat.zero_le _)
      have hend : off.toNat + n.toNat ≤ maxFile * bsize := by bv_omega
      split
      · rw [hends, BitVec.toNat_ofNat]
        exact (Nat.mod_le _ _).trans (by omega)
      · rwa [hsame]

end Writing

end Xv6.Files
