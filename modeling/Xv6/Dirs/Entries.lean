import Xv6.Dirs.Blocks
import Xv6.Fs.Directory

/-!
# The entries of a directory

An entry does not cross the end of a block, so `readi` and `writei` of one take one block each.
-/

namespace Xv6.Dirs

open Fs (direntSize)

def State.byte (s : State) (i : Nat) : UInt8 := s.disk (s.addr (i / bsize)) (i % bsize)

def State.dirent (s : State) (k : Nat) : List UInt8 :=
  (List.range direntSize).map fun j => s.byte (k * direntSize + j)

def State.count (s : State) : Nat := s.size / direntSize

section Entry

variable {blocks k : Nat} {s s' : State}

theorem bsize_pos : 0 < bsize := by decide

theorem direntSize_pos : 0 < direntSize := by decide

theorem maxFile_lt : maxFile * bsize < 2 ^ 31 := by decide

theorem entry_in_block {j : Nat} (hj : j < direntSize) :
    (k * direntSize + j) / bsize = k * direntSize / bsize ∧
      (k * direntSize + j) % bsize = k * direntSize % bsize + j ∧ k * direntSize % bsize + direntSize ≤ bsize := by
  simp only [direntSize, bsize] at *
  omega

theorem block_lt (hk : k * direntSize + direntSize ≤ maxFile * bsize) : k * direntSize / bsize < maxFile := by
  rw [Nat.div_lt_iff_lt_mul bsize_pos]
  exact (Nat.lt_add_of_pos_right direntSize_pos).trans_le hk

theorem dirent_eq_load (s : State) (k : Nat) :
    s.dirent k = Bytes.load (s.disk (s.addr (k * direntSize / bsize))) (k * direntSize % bsize) direntSize := by
  refine List.map_congr_left fun j hj => ?_
  obtain ⟨hdiv, hmod, -⟩ := @entry_in_block k j (List.mem_range.mp hj)
  rw [State.byte, hdiv, hmod]

theorem Kept.dirent (h : Kept s s') (hs : Mapped s) (hk : k * direntSize < s.size) : s'.dirent k = s.dirent k := by
  have hmapped := hs.mapped (k * direntSize / bsize) ((Nat.div_mul_le_self _ _).trans_lt hk)
  have hlt : k * direntSize / bsize < maxFile := by
    rw [Nat.div_lt_iff_lt_mul bsize_pos]
    exact hk.trans_le hs.size
  rw [dirent_eq_load, dirent_eq_load, h.addr _ hlt hmapped, h.disk _ hlt hmapped]

theorem readi_entry (h : Mapped s) (hblocks : blocks ≤ 2 ^ 32) (hk : k * direntSize + direntSize ≤ s.size) :
    readi blocks s (k * direntSize) direntSize = .ok (direntSize, s.dirent k, s) := by
  have hmax := maxFile_lt
  have hsize := h.size
  have hlt := block_lt (hk.trans hsize)
  have hmapped := h.mapped (k * direntSize / bsize) ((Nat.div_mul_le_self _ _).trans_lt
    ((Nat.lt_add_of_pos_right direntSize_pos).trans_le hk))
  obtain ⟨⟨addr, s'⟩, hrun, -, -, haddr, hsame, -⟩ := bmap_spec h hblocks hlt
  obtain rfl : s' = s := hsame hmapped
  obtain rfl : addr = s'.addr (k * direntSize / bsize) := haddr
  obtain ⟨-, -, hfit⟩ := @entry_in_block k 0 (by decide)
  have hm : min (direntSize - 0) (bsize - k * direntSize % bsize) = direntSize := by omega
  unfold readi
  rw [if_neg (by omega), if_neg (by omega), dirent_eq_load]
  change readiFrom blocks direntSize (15 + 1) s' (k * direntSize) 0 = _
  rw [readiFrom, if_pos (by decide), hrun]
  change (if _ = 0 then _ else _) = _
  rw [if_neg hmapped]
  dsimp only
  rw [hm]
  change (readiFrom blocks direntSize (14 + 1) s' (k * direntSize + direntSize) (0 + direntSize) >>= _) = _
  rw [readiFrom, if_neg (by decide)]
  change Except.ok (0 + direntSize, _ ++ [], s') = _
  rw [List.append_nil, Nat.zero_add]

theorem Mapped.store {bn : Nat} (h : Mapped s) (hbn : bn < maxFile) (data : Bytes) :
    (∀ bn', (s.set (s.addr bn) data).addr bn' = s.addr bn') ∧ Mapped (s.set (s.addr bn) data) := by
  have haddr : ∀ bn', (s.set (s.addr bn) data).addr bn' = s.addr bn' := by
    intro bn'
    by_cases hbn' : bn' < ndirect
    · rw [addr_direct hbn', addr_direct hbn']
      rfl
    · exact addr_congr rfl (fun hind => Function.update_of_ne ((h.indirect hind).2 bn hbn).symm ..) hbn'
  refine ⟨haddr, h.boot, h.size, fun bn' hbn' => ?_, fun bn' hbn' hne' => ?_, fun b b' hb hb' hne' heq => ?_,
    fun hind => ?_⟩
  · rw [haddr]
    exact h.mapped bn' hbn'
  · rw [haddr] at hne' ⊢
    exact h.used bn' hbn' hne'
  · rw [haddr] at hne' heq
    rw [haddr] at heq
    exact h.apart b b' hb hb' hne' heq
  · refine ⟨(h.indirect hind).1, fun bn' hbn' => ?_⟩
    rw [haddr]
    exact (h.indirect hind).2 bn' hbn'

theorem Mapped.grow {size : Nat} (h : Mapped s) (hsize : size ≤ maxFile * bsize)
    (hmapped : ∀ bn, bn * bsize < size → s.addr bn ≠ 0) : Mapped { s with size } :=
  { h with size := hsize, mapped := hmapped }

/-- What `writei` of an entry comes to: it is too far, or there is no block for it, or it is written. -/
structure Writes (blocks : Nat) (s : State) (k : Nat) (bytes : List UInt8) (r : Int) (s' : State) : Prop where
  mapped : Mapped s'
  full : k * direntSize + direntSize > maxFile * bsize → r = -1 ∧ s' = s
  blocked : k * direntSize + direntSize ≤ maxFile * bsize → s.free blocks < s.need (k * direntSize / bsize) →
    r = 0 ∧ Kept s s'
  written : k * direntSize + direntSize ≤ maxFile * bsize → ¬s.free blocks < s.need (k * direntSize / bsize) →
    r = direntSize ∧ s'.size = max s.size (k * direntSize + direntSize) ∧ s'.dirent k = bytes ∧
      ∀ j, j * direntSize < s.size → j ≠ k → s'.dirent j = s.dirent j

theorem writei_entry {bytes : List UInt8} (h : Mapped s) (hblocks : blocks ≤ 2 ^ 32) (hk : k * direntSize ≤ s.size)
    (hlength : bytes.length = direntSize) :
    ∃ r s', writei blocks s bytes (k * direntSize) = .ok (r, s') ∧ Writes blocks s k bytes r s' := by
  have hmax := maxFile_lt
  have hsize := h.size
  have hword : direntSize = 16 := rfl
  unfold writei
  rw [hlength, if_neg (by omega)]
  by_cases hfull : k * direntSize + direntSize > maxFile * bsize
  · rw [if_pos hfull]
    exact ⟨-1, s, rfl, h, fun _ => ⟨rfl, rfl⟩, fun hle => absurd hfull (by omega), fun hle => absurd hfull (by omega)⟩
  · rw [if_neg hfull]
    have hlt := block_lt (Nat.le_of_not_lt hfull)
    obtain ⟨⟨addr, mid⟩, hrun, hmid, hkept, haddr, -, hzero⟩ := bmap_spec h hblocks hlt
    change addr = mid.addr (k * direntSize / bsize) at haddr
    change addr = 0 ↔ _ at hzero
    change ∃ r s', (writeiFrom blocks bytes (15 + 1) s (k * direntSize) 0 >>= _) = _ ∧ _
    rw [writeiFrom, if_pos (by omega), hrun]
    change ∃ r s', ((if addr = 0 then _ else _) >>= _) = _ ∧ _
    by_cases hnone : addr = 0
    · rw [if_pos hnone]
      refine ⟨0, mid, ?_, hmid, fun hgt => absurd hgt hfull, fun _ _ => ⟨rfl, hkept⟩,
        fun _ hroom => absurd (hzero.mp hnone) hroom⟩
      change Except.ok (_, if k * direntSize > mid.size then _ else _) = _
      rw [if_neg (by rw [hkept.size]; omega)]
      rfl
    · rw [if_neg hnone]
      obtain ⟨-, -, hfit⟩ := @entry_in_block k 0 direntSize_pos
      have hm : min (bytes.length - 0) (bsize - k * direntSize % bsize) = direntSize := by omega
      have htake : (bytes.drop 0).take direntSize = bytes := by
        rw [List.drop_zero, ← hlength, List.take_length]
      dsimp only
      rw [hm, htake]
      obtain ⟨haddrs, hstored⟩ := hmid.store hlt
        (Bytes.store (mid.disk addr) (k * direntSize % bsize) bytes)
      rw [← haddr] at haddrs hstored
      have hblock : (mid.set addr (Bytes.store (mid.disk addr) (k * direntSize % bsize) bytes)).disk addr =
          Bytes.store (mid.disk addr) (k * direntSize % bsize) bytes := Function.update_self ..
      have hothers : ∀ a, a ≠ addr →
          (mid.set addr (Bytes.store (mid.disk addr) (k * direntSize % bsize) bytes)).disk a = mid.disk a :=
        fun a ha => Function.update_of_ne ha ..
      have hsizes : (mid.set addr (Bytes.store (mid.disk addr) (k * direntSize % bsize) bytes)).size = s.size :=
        hkept.size
      generalize mid.set addr (Bytes.store (mid.disk addr) (k * direntSize % bsize) bytes) = s'
        at haddrs hstored hblock hothers hsizes ⊢
      change ∃ r s'', ((writeiFrom blocks bytes (14 + 1) s' (k * direntSize + direntSize) (0 + direntSize)) >>= _) = _ ∧ _
      rw [writeiFrom, if_neg (by omega)]
      obtain ⟨s'', hs''⟩ : ∃ s'' : State, s'' = if k * direntSize + direntSize > s'.size then
        { s' with size := k * direntSize + direntSize } else s' := ⟨_, rfl⟩
      have hgrown : s''.size = max s.size (k * direntSize + direntSize) := by
        rw [hs'', ← hsizes]
        split
        · next hgt => exact (max_eq_right (Nat.le_of_lt hgt)).symm
        · next hle => exact (max_eq_left (Nat.le_of_not_lt hle)).symm
      have haddrs' : ∀ bn, s''.addr bn = mid.addr bn := by
        intro bn
        rw [← haddrs, hs'']
        split <;> rfl
      have hdisk' : s''.disk = s'.disk := by
        rw [hs'']
        split <;> rfl
      have hmapped' : Mapped s'' := by
        rw [hs'']
        split
        · refine hstored.grow (Nat.le_of_not_lt hfull) fun bn hbn => ?_
          rw [haddrs]
          by_cases hold : bn * bsize < s.size
          · exact hmid.mapped bn (hkept.size ▸ hold)
          · have hsame : bn = k * direntSize / bsize := by
              simp only [direntSize, bsize] at *
              omega
            rw [hsame, ← haddr]
            exact hnone
        · exact hstored
      refine ⟨direntSize, s'', by rw [hs'']; rfl, hmapped', fun hgt => absurd hgt hfull,
        fun _ hblocked => absurd (hzero.mpr hblocked) hnone, fun _ _ => ⟨rfl, hgrown, ?_, fun j hj hjk => ?_⟩⟩
      · rw [dirent_eq_load, haddrs', ← haddr, hdisk', hblock, ← hlength, Bytes.load_store_self]
      · have hj' := hmid.mapped (j * direntSize / bsize) ((Nat.div_mul_le_self _ _).trans_lt (hkept.size ▸ hj))
        have hjlt : j * direntSize / bsize < maxFile := by
          rw [Nat.div_lt_iff_lt_mul bsize_pos]
          exact hj.trans_le hsize
        rw [← hkept.dirent h hj, dirent_eq_load, dirent_eq_load, haddrs', hdisk']
        by_cases heq : mid.addr (j * direntSize / bsize) = addr
        · have hsame := hmid.apart _ _ hjlt hlt hj' (heq.trans haddr)
          rw [heq, hblock]
          refine List.map_congr_left fun i hi => Bytes.store_of_outside ?_
          have hi' := List.mem_range.mp hi
          simp only [direntSize, bsize] at *
          omega
        · rw [hothers _ heq]

end Entry

end Xv6.Dirs
