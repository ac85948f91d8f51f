import Xv6.Fs.Content

/-!
# Directories

The functions of `fs.c` that read and change directories, over the locked inode of the directory. The
reference that `dirlookup` takes to the inode it finds is left to the callers that keep a table of
inodes.
-/

namespace Xv6

def cstring (chars : List UInt8) : Bytes := fun i => chars.getD i 0

def strncmp (p q : Bytes) : (count : Nat) → Int
  | 0 => 0
  | count + 1 =>
      if p 0 ≠ 0 ∧ p 0 = q 0 then strncmp (fun i => p (i + 1)) (fun i => q (i + 1)) count
      else (p 0).toNat - (q 0).toNat

def charsOf (p : Bytes) (count : Nat) : List UInt8 := ((List.range count).map p).takeWhile (· ≠ 0)

theorem charsOf_succ (p : Bytes) (count : Nat) :
    charsOf p (count + 1) = if p 0 = 0 then [] else p 0 :: charsOf (fun i => p (i + 1)) count := by
  rw [charsOf, List.range_succ_eq_map, List.map_cons, List.takeWhile_cons, List.map_map]
  by_cases hzero : p 0 = 0
  · rw [if_pos hzero, if_neg (by simp [hzero])]
  · rw [if_neg hzero, if_pos (by simp [hzero])]
    rfl

theorem charsOf_congr {p q : Bytes} {count : Nat} (h : ∀ i, i < count → p i = q i) :
    charsOf p count = charsOf q count :=
  congrArg _ (List.map_congr_left fun i hi => h i (List.mem_range.mp hi))

theorem strncmp_eq_zero_iff (p q : Bytes) (count : Nat) :
    strncmp p q count = 0 ↔ charsOf p count = charsOf q count := by
  induction count generalizing p q with
  | zero => exact iff_of_true rfl rfl
  | succ count ih =>
      rw [charsOf_succ, charsOf_succ, strncmp]
      by_cases hsame : p 0 ≠ 0 ∧ p 0 = q 0
      · rw [if_pos hsame, ih, if_neg hsame.1, if_neg (hsame.2 ▸ hsame.1), hsame.2]
        exact ⟨congrArg _, List.tail_eq_of_cons_eq⟩
      · rw [if_neg hsame]
        have hzero : ((p 0).toNat : Int) - (q 0).toNat = 0 ↔ p 0 = q 0 := by
          rw [← UInt8.toNat_inj]
          omega
        rw [hzero]
        constructor
        · intro heq
          have hnul : p 0 = 0 := by
            by_contra hne
            exact hsame ⟨hne, heq⟩
          rw [if_pos hnul, if_pos (heq ▸ hnul)]
        · intro heq
          by_cases hp : p 0 = 0 <;> by_cases hq : q 0 = 0
          · rw [hp, hq]
          · rw [if_pos hp, if_neg hq] at heq
            cases heq
          · rw [if_neg hp, if_pos hq] at heq
            cases heq
          · rw [if_neg hp, if_neg hq] at heq
            exact (List.cons.inj heq).1

theorem charsOf_cstring {chars : List UInt8} (hchars : 0 ∉ chars) (count : Nat) :
    charsOf (cstring chars) count = chars.take count := by
  induction count generalizing chars with
  | zero => rfl
  | succ count ih =>
      rw [charsOf_succ]
      cases chars with
      | nil => rfl
      | cons char rest =>
          rw [List.mem_cons, not_or] at hchars
          have hne : cstring (char :: rest) 0 ≠ 0 := Ne.symm hchars.1
          rw [if_neg hne, List.take_succ_cons, ← ih hchars.2]
          rfl

theorem strncmp_cstring {chars : List UInt8} {p : Bytes} {count : Nat} (hchars : 0 ∉ chars)
    (hsame : ∀ i, i < chars.length → i < count → p i = chars.getD i 0)
    (hend : chars.length < count → p chars.length = 0) : strncmp p (cstring chars) count = 0 := by
  induction count generalizing p chars with
  | zero => rfl
  | succ count ih =>
      rw [strncmp]
      cases chars with
      | nil =>
          have hzero : p 0 = 0 := hend (Nat.succ_pos count)
          rw [if_neg (fun h => h.1 hzero), hzero]
          rfl
      | cons char rest =>
          rw [List.mem_cons, not_or] at hchars
          have hfirst : p 0 = char := hsame 0 (Nat.succ_pos _) (Nat.succ_pos _)
          rw [if_pos ⟨hfirst ▸ Ne.symm hchars.1, hfirst⟩]
          exact ih hchars.2 (fun i hi hcount => hsame (i + 1) (Nat.succ_lt_succ hi) (Nat.succ_lt_succ hcount))
            fun hshort => hend (Nat.succ_lt_succ hshort)

namespace Fs

open Kernel

def tDir : Nat := 1

def dirsiz : Nat := 14

/-- `sizeof(struct dirent)`. -/
def direntSize : Nat := 16

/-- `struct dirent`. The number is a `ushort`, and the name has `DIRSIZ` characters. -/
structure Dirent where
  inum : Nat
  name : Bytes

def Dirent.load (bytes : List UInt8) : Dirent where
  inum := Bytes.uint 2 (cstring bytes) 0
  name := fun i => cstring bytes (2 + i)

def Dirent.bytes (de : Dirent) : Bytes := fun i =>
  if i < 2 then Bytes.setUint 2 (fun _ => 0) 0 de.inum i else de.name (i - 2)

def namecmp (s t : Bytes) : Int := strncmp s t dirsiz

section Code

variable {n : Nat} (fork : Fork) (sb : Superblock)

def readDirent (dp : Inode) (off : Nat) (message : String) : Code n Bytes (Dirent × Inode) := do
  let (result, bytes, dp) ←
    readi fork sb dp .kernel (UInt32.ofNat off) (UInt32.ofNat direntSize)
  panicIf (result ≠ direntSize) message
  pure (Dirent.load bytes, dp)

def offsets (size : Nat) : List Nat :=
  (List.range ((size + direntSize - 1) / direntSize)).map (· * direntSize)

/-- The loop of `dirlookup`, over the offsets that are left. -/
def dirlookupFrom (name : List UInt8) : Inode → List Nat → Code n Bytes (Option (Nat × Nat) × Inode)
  | dp, [] => pure (none, dp)
  | dp, off :: rest => do
      let (de, dp) ← readDirent fork sb dp off "dirlookup read"
      if de.inum = 0 then
        dirlookupFrom name dp rest
      else if namecmp (cstring name) de.name = 0 then
        -- entry matches path element
        pure (some (off, de.inum), dp)
      else
        dirlookupFrom name dp rest

def dirlookup (dp : Inode) (name : List UInt8) : Code n Bytes (Option (Nat × Nat) × Inode) := do
  panicIf (dp.type ≠ tDir) "dirlookup not DIR"
  dirlookupFrom fork sb name dp (offsets dp.size)

/-- The loop of `dirlink`: the offset of an empty entry, or the end. -/
def emptyFrom : Inode → List Nat → Code n Bytes (Nat × Inode)
  | dp, [] => pure ((dp.size + direntSize - 1) / direntSize * direntSize, dp)
  | dp, off :: rest => do
      let (de, dp) ← readDirent fork sb dp off "dirlink read"
      if de.inum = 0 then pure (off, dp) else emptyFrom dp rest

/-- Where `dirlink` writes the new entry, unless the name is present. -/
def dirlinkPlace (dp : Inode) (name : List UInt8) : Code n Bytes (Option Nat × Inode) := do
  let (found, dp) ← dirlookup fork sb dp name
  match found with
  | some _ => pure (none, dp)
  | none => do
      let (off, dp) ← emptyFrom fork sb dp (offsets dp.size)
      pure (some off, dp)

def dirlink (dp : Inode) (name : List UInt8) (inum : Nat) : Code n Bytes (Int × Inode) := do
  let (place, dp) ← dirlinkPlace fork sb dp name
  match place with
  | none => pure (-1, dp)
  | some off => do
      let de : Dirent := ⟨inum, cstring name⟩
      let (result, dp) ← writei fork sb dp (.kernel de.bytes) (UInt32.ofNat off) (UInt32.ofNat direntSize)
      if result ≠ direntSize then
        if fork.returnsZero then pure (-1, dp) else Kernel.panic "dirlink"
      else
        pure (0, dp)

end Code

end Fs

end Xv6
