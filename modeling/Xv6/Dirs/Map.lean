import Xv6.Dirs.Entries

/-!
# A directory is a finite map

`dirlookup` and `dirlink` of `riscv64/fs.c`, and the clearing of an entry in `sys_unlink`. A name counts up
to `DIRSIZ` characters. The inode that `dirlookup` finds is left to the inode table.
-/

namespace Xv6.Dirs

open Fs (direntSize dirsiz Dirent namecmp)

abbrev Name := List UInt8

def key (name : Name) : Name := name.take dirsiz

section Code

variable (blocks : Nat)

/-- The loop of `dirlookup`, over the offsets that are left. -/
def dirlookupFrom (name : Name) : State → List Nat → Except String (Option (Nat × Nat) × State)
  | s, [] => .ok (none, s)
  | s, off :: rest => do
      let (n, bytes, s) ← readi blocks s off direntSize
      let de := Dirent.load bytes
      if n ≠ direntSize then .error "dirlookup read"
      else if de.inum = 0 then dirlookupFrom name s rest
      -- entry matches path element
      else if namecmp (cstring name) de.name = 0 then .ok (some (off, de.inum), s)
      else dirlookupFrom name s rest

def dirlookup (s : State) (name : Name) : Except String (Option (Nat × Nat) × State) :=
  dirlookupFrom blocks name s (Fs.offsets s.size)

/-- The loop of `dirlink` that looks for an empty dirent. -/
def emptyFrom (size : Nat) : State → List Nat → Except String (Nat × State)
  | s, [] => .ok ((size + direntSize - 1) / direntSize * direntSize, s)
  | s, off :: rest => do
      let (n, bytes, s) ← readi blocks s off direntSize
      if n ≠ direntSize then .error "dirlink read"
      else if (Dirent.load bytes).inum = 0 then .ok (off, s)
      else emptyFrom size s rest

/-- The bytes of a new entry, with the name from `strncpy`. -/
def direntBytes (name : Name) (inum : Nat) : List UInt8 :=
  Bytes.load (Dirent.bytes ⟨inum, cstring name⟩) 0 direntSize

/-- Write a new directory entry (name, inum) into the directory dp. Returns 0 on success, -1 on failure. -/
def dirlink (s : State) (name : Name) (inum : Nat) : Except String (Int × State) := do
  let (found, s) ← dirlookup blocks s name
  match found with
  | some _ => .ok (-1, s)
  | none => do
      let (off, s) ← emptyFrom blocks s.size s (Fs.offsets s.size)
      let (written, s) ← writei blocks s (direntBytes name inum) off
      if written ≠ direntSize then .ok (-1, s) else .ok (0, s)

/-- What `sys_unlink` does to the directory: the entry that `dirlookup` finds is zeroed. -/
def clear (s : State) (name : Name) : Except String (Int × State) := do
  let (found, s) ← dirlookup blocks s name
  match found with
  | none => .ok (-1, s)
  | some (off, _) => do
      let (written, s) ← writei blocks s (List.replicate direntSize 0) off
      if written ≠ direntSize then .error "unlink: writei" else .ok (0, s)

end Code

/-! ### The map -/

def slotOf (bytes : List UInt8) : Option (Name × Nat) :=
  if (Dirent.load bytes).inum = 0 then none
  else some (charsOf (Dirent.load bytes).name dirsiz, (Dirent.load bytes).inum)

def State.slot (s : State) (k : Nat) : Option (Name × Nat) := slotOf (s.dirent k)

def State.dirents (s : State) : List (List UInt8) := (List.range s.count).map s.dirent

def State.hole (s : State) : Option Nat := (List.range s.count).find? fun k => (s.slot k).isNone

/-- The entries with one more: in the first hole, or at the end. -/
def State.place (s : State) (bytes : List UInt8) : List (List UInt8) :=
  match s.hole with
  | some k => s.dirents.set k bytes
  | none => s.dirents ++ [bytes]

/-- The directory is whole, and each name that it has is bound once, as in the map. -/
structure Binds (s : State) (m : Name → Option Nat) : Prop where
  mapped : Mapped s
  whole : direntSize ∣ s.size
  unique : ∀ j k name inum inum', j < s.count → k < s.count → s.slot j = some (name, inum) →
    s.slot k = some (name, inum') → j = k
  binds : ∀ name inum, m name = some inum ↔ ∃ k, k < s.count ∧ s.slot k = some (name, inum)

/-- When `dirlink` is to fail: the name is present, or the directory has to grow and is as long as it can be, or
the disk does not have the blocks for that. -/
def Fails (blocks : Nat) (s : State) (m : Name → Option Nat) (name : Name) : Prop :=
  m (key name) ≠ none ∨
    s.hole = none ∧ (s.size = maxFile * bsize ∨ s.free blocks < s.need (s.size / bsize))

/-- The directory is the map `m`: what `dirlookup` finds and what `dirlink` does. -/
structure Consistent (blocks : Nat) (s : State) (m : Name → Option Nat) : Prop where
  whole : direntSize ∣ s.size
  lookup : ∀ name, 0 ∉ name → ∃ found, dirlookup blocks s name = .ok (found, s) ∧
    found.map Prod.snd = m (key name) ∧ ∀ off inum, found = some (off, inum) → ∃ k, off = k * direntSize ∧
      ∀ j, j < s.count → ((∃ other, s.slot j = some (key name, other)) ↔ j = k)
  link : ∀ name inum, 0 ∉ name → 0 < inum → inum < 65536 → ∃ r s', dirlink blocks s name inum = .ok (r, s') ∧
    (Fails blocks s m name → r = -1 ∧ s'.dirents = s.dirents) ∧
      (¬Fails blocks s m name → r = 0 ∧ s'.dirents = s.place (direntBytes name inum))
  clear : ∀ name, 0 ∉ name → ∃ r s', clear blocks s name = .ok (r, s') ∧
    (m (key name) = none → r = -1 ∧ s' = s) ∧ (m (key name) ≠ none → r = 0)

/-- Other calls allocate and free blocks, and write their own. -/
structure Others (s s' : State) : Prop where
  size : s'.size = s.size
  addrs : s'.addrs = s.addrs
  boot : s'.used 0 = true
  data : ∀ bn, bn < maxFile → s.addr bn ≠ 0 →
    s'.used (s.addr bn) = true ∧ s'.disk (s.addr bn) = s.disk (s.addr bn)
  indirect : s.addrs ndirect ≠ 0 →
    s'.used (s.addrs ndirect) = true ∧ s'.disk (s.addrs ndirect) = s.disk (s.addrs ndirect)

def dots (here parent : Nat) : Name → Option Nat := fun name =>
  if name = [46] then some here else if name = [46, 46] then some parent else none

/-- The directories that come of one with `.` and `..`, and what has been linked in them and not been cleared
yet. -/
inductive Reachable (blocks : Nat) : State → (Name → Option Nat) → Prop
  | start {s : State} {here parent : Nat} (h : Binds s (dots here parent)) : Reachable blocks s (dots here parent)
  | link {s s' : State} {m : Name → Option Nat} {name : Name} {inum : Nat} {r : Int} (h : Reachable blocks s m)
      (hname : 0 ∉ name) (hpos : 0 < inum) (hinum : inum < 65536) (hrun : dirlink blocks s name inum = .ok (r, s')) :
      Reachable blocks s' (if r = 0 then Function.update m (key name) (some inum) else m)
  | clear {s s' : State} {m : Name → Option Nat} {name : Name} {r : Int} (h : Reachable blocks s m)
      (hname : 0 ∉ name) (hrun : clear blocks s name = .ok (r, s')) :
      Reachable blocks s' (if r = 0 then Function.update m (key name) none else m)
  | others {s s' : State} {m : Name → Option Nat} (h : Reachable blocks s m) (hothers : Others s s') :
      Reachable blocks s' m

/-! ### One operation -/

section Steps

variable {blocks : Nat} {s s' : State} {m : Name → Option Nat} {name : Name} {inum k : Nat}

theorem entry_le (hk : k < s.count) : k * direntSize + direntSize ≤ s.size := by
  have hle := Nat.div_mul_le_self s.size direntSize
  calc k * direntSize + direntSize = (k + 1) * direntSize := (Nat.succ_mul _ _).symm
    _ ≤ s.size / direntSize * direntSize := Nat.mul_le_mul_right _ hk
    _ ≤ s.size := hle

theorem count_mul (h : direntSize ∣ s.size) : s.count * direntSize = s.size := Nat.div_mul_cancel h

theorem offsets_eq (h : direntSize ∣ s.size) :
    Fs.offsets s.size = (List.range s.count).map (· * direntSize) := by
  have hcount : (s.size + direntSize - 1) / direntSize = s.count := by
    have hword : direntSize = 16 := rfl
    rw [State.count]
    rw [hword] at h ⊢
    omega
  rw [Fs.offsets, hcount]

theorem slot_none_iff : s.slot k = none ↔ (Dirent.load (s.dirent k)).inum = 0 := by
  rw [State.slot, slotOf]
  split
  · next hzero => exact iff_of_true rfl hzero
  · next hne => exact iff_of_false (Option.some_ne_none _) hne

theorem slot_some (h : (Dirent.load (s.dirent k)).inum ≠ 0) :
    s.slot k = some (charsOf (Dirent.load (s.dirent k)).name dirsiz, (Dirent.load (s.dirent k)).inum) := if_neg h

def State.named (s : State) (name : Name) (k : Nat) : Bool := (s.slot k).map Prod.fst = some (key name)

theorem dirlookupFrom_spec (h : Binds s m) (hblocks : blocks ≤ 2 ^ 32) (hname : 0 ∉ name) {l : List Nat}
    (hl : ∀ k ∈ l, k < s.count) : dirlookupFrom blocks name s (l.map (· * direntSize)) =
      .ok ((l.find? (s.named name)).map fun k => (k * direntSize, (Dirent.load (s.dirent k)).inum), s) := by
  induction l with
  | nil => rfl
  | cons k l ih =>
      have hrest := ih fun j hj => hl j (List.mem_cons_of_mem _ hj)
      rw [List.map_cons, dirlookupFrom, readi_entry h.mapped hblocks (entry_le (hl k List.mem_cons_self)),
        List.find?_cons]
      dsimp only [bind, Except.bind]
      rw [if_neg (not_not.mpr rfl)]
      by_cases hinum : (Dirent.load (s.dirent k)).inum = 0
      · have hnot : s.named name k = false := by
          rw [State.named, slot_none_iff.mpr hinum]
          rfl
        rw [if_pos hinum, hrest, hnot]
      · have hnamed : s.named name k = decide (namecmp (cstring name) (Dirent.load (s.dirent k)).name = 0) := by
          rw [State.named, slot_some hinum, Option.map_some, decide_eq_decide, namecmp, strncmp_eq_zero_iff,
            charsOf_cstring hname, Option.some_inj]
          exact eq_comm
        rw [if_neg hinum, hnamed]
        by_cases hsame : namecmp (cstring name) (Dirent.load (s.dirent k)).name = 0
        · rw [if_pos hsame, decide_eq_true hsame]
          rfl
        · rw [if_neg hsame, hrest, decide_eq_false hsame]

theorem dirlookup_spec (h : Binds s m) (hblocks : blocks ≤ 2 ^ 32) (hname : 0 ∉ name) :
    (m (key name) = none ∧ dirlookup blocks s name = .ok (none, s)) ∨
      ∃ k inum, k < s.count ∧ s.slot k = some (key name, inum) ∧ m (key name) = some inum ∧
        dirlookup blocks s name = .ok (some (k * direntSize, inum), s) := by
  rw [dirlookup, offsets_eq h.whole, dirlookupFrom_spec h hblocks hname fun k hk => List.mem_range.mp hk]
  cases hfind : (List.range s.count).find? (s.named name) with
  | none =>
      refine Or.inl ⟨?_, rfl⟩
      cases hm : m (key name) with
      | none => rfl
      | some inum =>
          obtain ⟨k, hk, hslot⟩ := (h.binds _ _).mp hm
          have hnone := List.find?_eq_none.mp hfind k (List.mem_range.mpr hk)
          rw [State.named, hslot] at hnone
          exact absurd (decide_eq_true rfl) hnone
  | some k =>
      have hk := List.mem_range.mp (List.mem_of_find?_eq_some hfind)
      have hnamed := List.find?_some hfind
      rw [State.named, decide_eq_true_eq] at hnamed
      have hinum : (Dirent.load (s.dirent k)).inum ≠ 0 := by
        intro hzero
        rw [slot_none_iff.mpr hzero] at hnamed
        cases hnamed
      have hslot : s.slot k = some (key name, (Dirent.load (s.dirent k)).inum) := by
        rw [slot_some hinum, Option.map_some, Option.some_inj] at hnamed
        rw [slot_some hinum, show charsOf (Dirent.load (s.dirent k)).name dirsiz = key name from hnamed]
      exact Or.inr ⟨k, _, hk, hslot, (h.binds _ _).mpr ⟨k, hk, hslot⟩, rfl⟩

theorem emptyFrom_spec (h : Binds s m) (hblocks : blocks ≤ 2 ^ 32) {l : List Nat} (hl : ∀ k ∈ l, k < s.count) :
    emptyFrom blocks s.size s (l.map (· * direntSize)) =
      .ok (((l.find? fun k => (s.slot k).isNone).getD s.count) * direntSize, s) := by
  induction l with
  | nil =>
      have hcount : (s.size + direntSize - 1) / direntSize * direntSize = s.count * direntSize := by
        have hword : direntSize = 16 := rfl
        have hwhole := h.whole
        rw [count_mul hwhole]
        rw [hword] at hwhole ⊢
        omega
      exact congrArg (fun off => Except.ok (off, s)) hcount
  | cons k l ih =>
      have hrest := ih fun j hj => hl j (List.mem_cons_of_mem _ hj)
      rw [List.map_cons, emptyFrom, readi_entry h.mapped hblocks (entry_le (hl k List.mem_cons_self)),
        List.find?_cons]
      dsimp only [bind, Except.bind]
      rw [if_neg (not_not.mpr rfl)]
      by_cases hinum : (Dirent.load (s.dirent k)).inum = 0
      · rw [if_pos hinum, slot_none_iff.mpr hinum]
        rfl
      · rw [if_neg hinum, hrest, slot_some hinum]
        rfl

theorem slotOf_direntBytes (hname : 0 ∉ name) (hpos : 0 < inum) (hinum : inum < 65536) :
    slotOf (direntBytes name inum) = some (key name, inum) := by
  have hbytes : ∀ i, i < direntSize →
      cstring (direntBytes name inum) i = Dirent.bytes ⟨inum, cstring name⟩ i := by
    intro i hi
    rw [cstring, direntBytes, List.getD_eq_getElem _ _ (by rwa [Bytes.length_load])]
    simp [Bytes.load]
  have hnumber : (Dirent.load (direntBytes name inum)).inum = inum := by
    calc Bytes.uint 2 (cstring (direntBytes name inum)) 0
        = Bytes.uint 2 (Bytes.setUint 2 (fun _ => 0) 0 inum) 0 :=
          Bytes.uint_congr fun i _ hi => by
            rw [hbytes i (by simp only [direntSize]; omega), Dirent.bytes, if_pos (by omega)]
      _ = inum := Bytes.uint_setUint_self (by omega)
  have hchars : charsOf (Dirent.load (direntBytes name inum)).name dirsiz = key name := by
    calc charsOf (fun i => cstring (direntBytes name inum) (2 + i)) dirsiz
        = charsOf (cstring name) dirsiz := charsOf_congr fun i hi => by
          rw [hbytes _ (by simp only [direntSize, dirsiz] at *; omega), Dirent.bytes, if_neg (by omega),
            Nat.add_sub_cancel_left]
      _ = key name := charsOf_cstring hname dirsiz
  rw [slotOf, hnumber, if_neg (Nat.pos_iff_ne_zero.mp hpos), hchars]

theorem Binds.congr (h : Binds s m) (hmapped : Mapped s') (hsize : s'.size = s.size)
    (hsame : ∀ k, k < s.count → s'.dirent k = s.dirent k) : Binds s' m := by
  have hcount : s'.count = s.count := by rw [State.count, hsize, State.count]
  have hslot : ∀ k, k < s.count → s'.slot k = s.slot k := fun k hk => by rw [State.slot, hsame k hk, State.slot]
  refine ⟨hmapped, hsize ▸ h.whole, fun j k name inum inum' hj hk hsj hsk => ?_, fun name inum => ?_⟩
  · rw [hcount] at hj hk
    exact h.unique j k name inum inum' hj hk (hslot j hj ▸ hsj) (hslot k hk ▸ hsk)
  · rw [h.binds, hcount]
    exact exists_congr fun k => and_congr_right fun hk => by rw [hslot k hk]

structure Changes (s s' : State) (k : Nat) (bytes : List UInt8) : Prop where
  mapped : Mapped s'
  whole : direntSize ∣ s'.size
  lt : k < s'.count
  count : ∀ j, j ≠ k → (j < s'.count ↔ j < s.count)
  dirent : s'.dirent k = bytes
  others : ∀ j, j < s.count → j ≠ k → s'.dirent j = s.dirent j

theorem Changes.slot {bytes : List UInt8} (h : Changes s s' k bytes) {j : Nat} (hj : j < s.count) (hjk : j ≠ k) :
    s'.slot j = s.slot j := by
  rw [State.slot, h.others j hj hjk, State.slot]

theorem Binds.link {bytes : List UInt8} (h : Binds s m) (hchanges : Changes s s' k bytes)
    (hold : k < s.count → s.slot k = none) (hbytes : slotOf bytes = some (name, inum)) (hnone : m name = none) :
    Binds s' (Function.update m name (some inum)) := by
  have hnew : s'.slot k = some (name, inum) := by rw [State.slot, hchanges.dirent, hbytes]
  have hother : ∀ j inum', j < s.count → s.slot j ≠ some (name, inum') := by
    intro j inum' hj hslot
    rw [(h.binds _ _).mpr ⟨j, hj, hslot⟩] at hnone
    cases hnone
  have hslot : ∀ j name' inum', j < s'.count → s'.slot j = some (name', inum') →
      (j = k ∧ name' = name ∧ inum' = inum) ∨ (j ≠ k ∧ j < s.count ∧ s.slot j = some (name', inum')) := by
    intro j name' inum' hj hslot
    by_cases hjk : j = k
    · rw [hjk, hnew] at hslot
      cases hslot
      exact Or.inl ⟨hjk, rfl, rfl⟩
    · have hlt := (hchanges.count j hjk).mp hj
      exact Or.inr ⟨hjk, hlt, hchanges.slot hlt hjk ▸ hslot⟩
  refine ⟨hchanges.mapped, hchanges.whole, fun i j name' inum1 inum2 hi hj hsi hsj => ?_, fun name' inum' => ?_⟩
  · rcases hslot i _ _ hi hsi with ⟨rfl, rfl, -⟩ | ⟨-, hi', hsi'⟩ <;> rcases hslot j _ _ hj hsj with
      ⟨rfl, hname, -⟩ | ⟨-, hj', hsj'⟩
    · rfl
    · exact absurd hsj' (hother j _ hj')
    · exact absurd (hname ▸ hsi') (hother i _ hi')
    · exact h.unique i j _ _ _ hi' hj' hsi' hsj'
  · by_cases hname : name' = name
    · subst hname
      rw [Function.update_self]
      constructor
      · rintro ⟨⟩
        exact ⟨k, hchanges.lt, hnew⟩
      · rintro ⟨j, hj, hsj⟩
        rcases hslot j _ _ hj hsj with ⟨-, -, rfl⟩ | ⟨-, hj', hsj'⟩
        · rfl
        · exact absurd hsj' (hother j _ hj')
    · rw [Function.update_of_ne hname, h.binds]
      constructor
      · rintro ⟨j, hj, hsj⟩
        have hjk : j ≠ k := by
          rintro rfl
          rw [hold hj] at hsj
          cases hsj
        exact ⟨j, (hchanges.count j hjk).mpr hj, (hchanges.slot hj hjk).trans hsj⟩
      · rintro ⟨j, hj, hsj⟩
        rcases hslot j _ _ hj hsj with ⟨-, hsame, -⟩ | ⟨-, hj', hsj'⟩
        · exact absurd hsame hname
        · exact ⟨j, hj', hsj'⟩

theorem Binds.clear {bytes : List UInt8} (h : Binds s m) (hchanges : Changes s s' k bytes) (hk : k < s.count)
    (hold : s.slot k = some (name, inum)) (hbytes : slotOf bytes = none) :
    Binds s' (Function.update m name none) := by
  have hnew : s'.slot k = none := by rw [State.slot, hchanges.dirent, hbytes]
  have hslot : ∀ j pair, j < s'.count → s'.slot j = some pair → j ≠ k ∧ j < s.count ∧ s.slot j = some pair := by
    intro j pair hj hslot
    have hjk : j ≠ k := by
      rintro rfl
      rw [hnew] at hslot
      cases hslot
    have hlt := (hchanges.count j hjk).mp hj
    exact ⟨hjk, hlt, hchanges.slot hlt hjk ▸ hslot⟩
  refine ⟨hchanges.mapped, hchanges.whole, fun i j name' inum1 inum2 hi hj hsi hsj => ?_, fun name' inum' => ?_⟩
  · obtain ⟨-, hi', hsi'⟩ := hslot i _ hi hsi
    obtain ⟨-, hj', hsj'⟩ := hslot j _ hj hsj
    exact h.unique i j _ _ _ hi' hj' hsi' hsj'
  · by_cases hname : name' = name
    · subst hname
      rw [Function.update_self]
      refine iff_of_false (Option.some_ne_none _).symm ?_
      rintro ⟨j, hj, hsj⟩
      obtain ⟨hjk, hj', hsj'⟩ := hslot j _ hj hsj
      exact hjk (h.unique j k _ _ _ hj' hk hsj' hold)
    · rw [Function.update_of_ne hname, h.binds]
      constructor
      · rintro ⟨j, hj, hsj⟩
        have hjk : j ≠ k := by
          rintro rfl
          rw [hold] at hsj
          cases hsj
          exact hname rfl
        exact ⟨j, (hchanges.count j hjk).mpr hj, (hchanges.slot hj hjk).trans hsj⟩
      · rintro ⟨j, hj, hsj⟩
        obtain ⟨-, hj', hsj'⟩ := hslot j _ hj hsj
        exact ⟨j, hj', hsj'⟩

theorem dirents_congr (hsize : s'.size = s.size) (hsame : ∀ k, k < s.count → s'.dirent k = s.dirent k) :
    s'.dirents = s.dirents := by
  have hcount : s'.count = s.count := by rw [State.count, hsize, State.count]
  rw [State.dirents, State.dirents, hcount]
  exact List.map_congr_left fun k hk => hsame k (List.mem_range.mp hk)

theorem Changes.set {bytes : List UInt8} (h : Changes s s' k bytes) (hsize : s'.size = s.size) :
    s'.dirents = s.dirents.set k bytes := by
  have hcount : s'.count = s.count := by rw [State.count, hsize, State.count]
  refine List.ext_getElem (by simp [State.dirents, hcount]) fun j hj hj' => ?_
  have hlt : j < s.count := by simpa [State.dirents, hcount] using hj
  rw [List.getElem_set]
  by_cases hkj : k = j
  · rw [if_pos hkj]
    simp [State.dirents, ← hkj, h.dirent]
  · rw [if_neg hkj]
    simp [State.dirents, h.others j hlt (Ne.symm hkj)]

theorem Changes.append {bytes : List UInt8} (h : Changes s s' s.count bytes) (hcount : s'.count = s.count + 1) :
    s'.dirents = s.dirents ++ [bytes] := by
  rw [State.dirents, hcount, List.range_succ, List.map_append, List.map_singleton, h.dirent]
  refine congrArg (· ++ [bytes]) (List.map_congr_left fun k hk => ?_)
  have hlt := List.mem_range.mp hk
  exact h.others k hlt (Nat.ne_of_lt hlt)

theorem Writes.changes {bytes : List UInt8} {r : Int} (h : Binds s m) (hk : k < s.count)
    (hwrites : Writes blocks s k bytes r s') :
    r = direntSize ∧ s'.size = s.size ∧ Changes s s' k bytes := by
  have hentry := entry_le hk
  have hmax := h.mapped.size
  have hneed : s.need (k * direntSize / bsize) = 0 := need_zero (h.mapped.mapped _
    ((Nat.div_mul_le_self _ _).trans_lt ((Nat.lt_add_of_pos_right direntSize_pos).trans_le hentry)))
  obtain ⟨hr, hsize, hdirent, hothers⟩ := hwrites.written (hentry.trans hmax) (by omega)
  rw [max_eq_left hentry] at hsize
  have hcount : s'.count = s.count := by rw [State.count, hsize, State.count]
  refine ⟨hr, hsize, hwrites.mapped, hsize ▸ h.whole, hcount ▸ hk, fun j _ => by rw [hcount], hdirent,
    fun j hj hjk => hothers j ?_ hjk⟩
  exact (Nat.lt_add_of_pos_right direntSize_pos).trans_le (entry_le hj)

theorem dirlink_spec (h : Binds s m) (hblocks : blocks ≤ 2 ^ 32) (hname : 0 ∉ name) (hpos : 0 < inum)
    (hinum : inum < 65536) : ∃ r s', dirlink blocks s name inum = .ok (r, s') ∧
      (Fails blocks s m name → r = -1 ∧ s'.dirents = s.dirents) ∧
        (¬Fails blocks s m name → r = 0 ∧ s'.dirents = s.place (direntBytes name inum)) ∧
          Binds s' (if r = 0 then Function.update m (key name) (some inum) else m) := by
  have hminus : (-1 : Int) ≠ 0 := by decide
  have hlength : (direntBytes name inum).length = direntSize := Bytes.length_load ..
  have hslot := slotOf_direntBytes hname hpos hinum
  unfold dirlink
  rcases dirlookup_spec h hblocks hname with ⟨hnone, hlookup⟩ | ⟨k, found, -, -, hsome, hlookup⟩
  · have hempty := emptyFrom_spec h hblocks fun k hk => List.mem_range.mp hk
    rw [← offsets_eq h.whole] at hempty
    change emptyFrom blocks s.size s (Fs.offsets s.size) = .ok (s.hole.getD s.count * direntSize, s) at hempty
    rw [hlookup]
    dsimp only [bind, Except.bind]
    rw [hempty]
    dsimp only
    cases hhole : s.hole with
    | some k =>
        have hk : k < s.count := List.mem_range.mp (List.mem_of_find?_eq_some hhole)
        have hfree : s.slot k = none := by simpa using List.find?_some hhole
        obtain ⟨r, s', hrun, hwrites⟩ := writei_entry h.mapped hblocks
          ((Nat.le_add_right _ _).trans (entry_le hk)) hlength
        obtain ⟨rfl, hsize, hchanges⟩ := hwrites.changes h hk
        have hnot : ¬Fails blocks s m name := by
          rintro (hpresent | ⟨hfull, -⟩)
          · exact hpresent hnone
          · rw [hhole] at hfull
            cases hfull
        rw [Option.getD_some, hrun]
        dsimp only
        rw [if_neg (not_not.mpr rfl)]
        refine ⟨0, s', rfl, fun hfails => absurd hfails hnot, fun _ => ⟨rfl, ?_⟩, ?_⟩
        · rw [hchanges.set hsize, State.place, hhole]
        · rw [if_pos rfl]
          exact h.link hchanges (fun _ => hfree) hslot hnone
    | none =>
        have hend := count_mul h.whole
        obtain ⟨r, s', hrun, hwrites⟩ := writei_entry h.mapped hblocks (Nat.le_of_eq hend) hlength
        have hmax := h.mapped.size
        have hfull : s.count * direntSize + direntSize > maxFile * bsize ↔ s.size = maxFile * bsize := by
          have hdvd : direntSize ∣ maxFile * bsize := by decide
          have hwhole := h.whole
          simp only [direntSize] at *
          omega
        have hfails : Fails blocks s m name ↔ s.count * direntSize + direntSize > maxFile * bsize ∨
            s.free blocks < s.need (s.count * direntSize / bsize) := by
          rw [Fails, hfull, hend, hhole]
          exact ⟨fun hor => (hor.resolve_left fun hne => hne hnone).2, fun hor => Or.inr ⟨rfl, hor⟩⟩
        rw [Option.getD_none, hrun]
        dsimp only
        by_cases hroom : Fails blocks s m name
        · have hfailed : r ≠ direntSize ∧ Mapped s' ∧ s'.size = s.size ∧ ∀ k, k < s.count → s'.dirent k = s.dirent k := by
            by_cases htoo : s.count * direntSize + direntSize > maxFile * bsize
            · obtain ⟨rfl, rfl⟩ := hwrites.full htoo
              exact ⟨by decide, h.mapped, rfl, fun _ _ => rfl⟩
            · obtain ⟨rfl, hkept⟩ := hwrites.blocked (Nat.le_of_not_lt htoo) ((hfails.mp hroom).resolve_left htoo)
              refine ⟨by decide, hwrites.mapped, hkept.size, fun k hk => hkept.dirent h.mapped ?_⟩
              exact (Nat.lt_add_of_pos_right direntSize_pos).trans_le (entry_le hk)
          obtain ⟨hr, hmapped, hsize, hsame⟩ := hfailed
          rw [if_pos hr]
          refine ⟨-1, s', rfl, fun _ => ⟨rfl, dirents_congr hsize hsame⟩, fun hnot => absurd hroom hnot, ?_⟩
          rw [if_neg hminus]
          exact h.congr hmapped hsize hsame
        · obtain ⟨hnotfull, hnotblocked⟩ := not_or.mp (mt hfails.mpr hroom)
          obtain ⟨rfl, hsize, hdirent, hothers⟩ := hwrites.written (Nat.le_of_not_lt hnotfull) hnotblocked
          rw [max_eq_right (by omega)] at hsize
          have hcount : s'.count = s.count + 1 := by
            rw [State.count, hsize, Nat.add_div_right _ direntSize_pos, Nat.mul_div_cancel _ direntSize_pos]
          have hchanges : Changes s s' s.count (direntBytes name inum) := by
            refine ⟨hwrites.mapped, ?_, by omega, fun j hj => by omega, hdirent, fun j hj hjk => hothers j ?_ hjk⟩
            · rw [hsize]
              exact Nat.dvd_add (Nat.dvd_mul_left _ _) (Nat.dvd_refl _)
            · exact (Nat.lt_add_of_pos_right direntSize_pos).trans_le (entry_le hj)
          rw [if_neg (not_not.mpr rfl)]
          refine ⟨0, s', rfl, fun hyes => absurd hyes hroom, fun _ => ⟨rfl, ?_⟩, ?_⟩
          · rw [hchanges.append hcount, State.place, hhole]
          · rw [if_pos rfl]
            exact h.link hchanges (fun hlt => absurd hlt (Nat.lt_irrefl _)) hslot hnone
  · rw [hlookup]
    refine ⟨-1, s, rfl, fun _ => ⟨rfl, rfl⟩, fun hnot => absurd (Or.inl ?_) hnot, ?_⟩
    · rw [hsome]
      exact Option.some_ne_none _
    · rw [if_neg hminus]
      exact h

theorem clear_spec (h : Binds s m) (hblocks : blocks ≤ 2 ^ 32) (hname : 0 ∉ name) :
    ∃ r s', clear blocks s name = .ok (r, s') ∧ (m (key name) = none → r = -1 ∧ s' = s) ∧
      (m (key name) ≠ none → r = 0) ∧ Binds s' (if r = 0 then Function.update m (key name) none else m) := by
  unfold clear
  rcases dirlookup_spec h hblocks hname with ⟨hnone, hlookup⟩ | ⟨k, found, hk, hslot, hsome, hlookup⟩
  · rw [hlookup]
    refine ⟨-1, s, rfl, fun _ => ⟨rfl, rfl⟩, fun hne => absurd hnone hne, ?_⟩
    rw [if_neg (by decide)]
    exact h
  · obtain ⟨r, s', hrun, hwrites⟩ := writei_entry h.mapped hblocks
      ((Nat.le_add_right _ _).trans (entry_le hk)) (List.length_replicate (n := direntSize) (a := 0))
    obtain ⟨rfl, -, hchanges⟩ := hwrites.changes h hk
    rw [hlookup]
    dsimp only [bind, Except.bind]
    rw [hrun]
    dsimp only
    rw [if_neg (not_not.mpr rfl)]
    refine ⟨0, s', rfl, fun hnone => ?_, fun _ => rfl, ?_⟩
    · rw [hsome] at hnone
      cases hnone
    · rw [if_pos rfl]
      exact h.clear hchanges hk hslot (by decide)

theorem Others.kept (h : Others s s') (hs : Mapped s) : Mapped s' ∧ Kept s s' := by
  have haddr : ∀ bn, s'.addr bn = s.addr bn := by
    intro bn
    by_cases hbn : bn < ndirect
    · rw [addr_direct hbn, addr_direct hbn, h.addrs]
    · exact addr_congr (by rw [h.addrs]) (fun hind => (h.indirect hind).2) hbn
  refine ⟨⟨h.boot, h.size ▸ hs.size, fun bn hbn => ?_, fun bn hbn hne => ?_, fun b b' hb hb' hne heq => ?_,
    fun hind => ?_⟩, h.size, fun bn _ _ => haddr bn, fun bn hbn hne => (h.data bn hbn hne).2⟩
  · rw [haddr]
    exact hs.mapped bn (h.size ▸ hbn)
  · rw [haddr] at hne ⊢
    exact (h.data bn hbn hne).1
  · rw [haddr] at hne heq
    rw [haddr] at heq
    exact hs.apart b b' hb hb' hne heq
  · rw [h.addrs] at hind ⊢
    refine ⟨(h.indirect hind).1, fun bn hbn => ?_⟩
    rw [haddr]
    exact (hs.indirect hind).2 bn hbn

end Steps

/-! ### Every run -/

section Runs

variable {blocks : Nat} {s s' : State} {m : Name → Option Nat}

theorem binds_of_reachable (hblocks : blocks ≤ 2 ^ 32) (h : Reachable blocks s m) : Binds s m := by
  induction h with
  | start h => exact h
  | link _ hname hpos hinum hrun ih =>
      obtain ⟨r, s', hspec, -, -, hbinds⟩ := dirlink_spec ih hblocks hname hpos hinum
      cases hspec.symm.trans hrun
      exact hbinds
  | clear _ hname hrun ih =>
      obtain ⟨r, s', hspec, -, -, hbinds⟩ := clear_spec ih hblocks hname
      cases hspec.symm.trans hrun
      exact hbinds
  | others _ hothers ih =>
      obtain ⟨hmapped, hkept⟩ := hothers.kept ih.mapped
      refine ih.congr hmapped hkept.size fun k hk => hkept.dirent ih.mapped ?_
      exact (Nat.lt_add_of_pos_right direntSize_pos).trans_le (entry_le hk)

/-- **A directory is a finite map**, whatever has been linked in it and cleared. -/
theorem consistent_of_reachable (hblocks : blocks ≤ 2 ^ 32) (h : Reachable blocks s m) : Consistent blocks s m := by
  have hbinds := binds_of_reachable hblocks h
  refine ⟨hbinds.whole, fun name hname => ?_, fun name inum hname hpos hinum => ?_, fun name hname => ?_⟩
  · rcases dirlookup_spec hbinds hblocks hname with ⟨hnone, hrun⟩ | ⟨k, inum, hk, hslot, hsome, hrun⟩
    · exact ⟨none, hrun, hnone.symm, fun _ _ hfound => absurd hfound (Option.some_ne_none _).symm⟩
    · refine ⟨some (k * direntSize, inum), hrun, hsome.symm, ?_⟩
      rintro off inum' ⟨⟩
      refine ⟨k, rfl, fun j hj => ⟨?_, ?_⟩⟩
      · rintro ⟨other, hother⟩
        exact hbinds.unique j k _ _ _ hj hk hother hslot
      · rintro rfl
        exact ⟨_, hslot⟩
  · obtain ⟨r, s', hrun, hfails, hlinks, -⟩ := dirlink_spec hbinds hblocks hname hpos hinum
    exact ⟨r, s', hrun, hfails, hlinks⟩
  · obtain ⟨r, s', hrun, hnone, hsome, -⟩ := clear_spec hbinds hblocks hname
    exact ⟨r, s', hrun, hnone, hsome⟩

/-- A directory with nothing but `.` and `..`, in block 1. -/
def newDirectory : State where
  size := 2 * direntSize
  addrs k := if k = 0 then 1 else 0
  used b := decide (b < 2)
  disk b := if b = 1 then cstring (direntBytes [46] 1 ++ direntBytes [46, 46] 1) else fun _ => 0

theorem newDirectory_addr (bn : Nat) : newDirectory.addr bn = if bn = 0 then 1 else 0 := by
  rw [State.addr]
  split
  · rfl
  · next hbn =>
      rw [if_pos (by decide), if_neg]
      rintro rfl
      exact hbn (by decide)

theorem newDirectory_mapped : Mapped newDirectory := by
  have hfirst : ∀ bn, newDirectory.addr bn ≠ 0 → bn = 0 := by
    intro bn hne
    by_contra hbn
    rw [newDirectory_addr, if_neg hbn] at hne
    exact hne rfl
  refine ⟨rfl, by decide, fun bn hbn => ?_, fun bn _ hne => ?_, fun bn bn' _ _ hne heq => ?_,
    fun hne => absurd rfl hne⟩
  · have hzero : bn = 0 := by
      change bn * 1024 < 32 at hbn
      omega
    rw [newDirectory_addr, if_pos hzero]
    exact Nat.one_ne_zero
  · rw [newDirectory_addr, if_pos (hfirst bn hne)]
    rfl
  · rw [hfirst bn hne, hfirst bn' (heq ▸ hne)]

theorem newDirectory_binds : Binds newDirectory (dots 1 1) := by
  have hhere : newDirectory.slot 0 = some ([46], 1) := by decide
  have hparent : newDirectory.slot 1 = some ([46, 46], 1) := by decide
  have htwo : ∀ k, k < newDirectory.count → k = 0 ∨ k = 1 := fun k hk => by
    change k < 2 at hk
    omega
  refine ⟨newDirectory_mapped, Nat.dvd_mul_left _ _, fun j k name inum inum' hj hk hsj hsk => ?_,
    fun name inum => ⟨fun h => ?_, ?_⟩⟩
  · rcases htwo j hj with rfl | rfl <;> rcases htwo k hk with rfl | rfl
    · rfl
    · cases hhere.symm.trans hsj
      cases hparent.symm.trans hsk
    · cases hparent.symm.trans hsj
      cases hhere.symm.trans hsk
    · rfl
  · rw [dots] at h
    split at h
    · next hname =>
        cases h
        exact ⟨0, by decide, hname ▸ hhere⟩
    · split at h
      · next hname =>
          cases h
          exact ⟨1, by decide, hname ▸ hparent⟩
      · cases h
  · rintro ⟨k, hk, hslot⟩
    rcases htwo k hk with rfl | rfl
    · cases hhere.symm.trans hslot
      rfl
    · cases hparent.symm.trans hslot
      rfl

theorem consistent_of_reachable_linked : ∃ s', dirlink 8 newDirectory [97] 7 = .ok (0, s') ∧
    Consistent 8 s' (Function.update (dots 1 1) [97] (some 7)) := by
  have hlinked : ∃ s', dirlink 8 newDirectory [97] 7 = .ok (0, s') := ⟨_, rfl⟩
  obtain ⟨s', hrun⟩ := hlinked
  have hreachable := (Reachable.start newDirectory_binds).link (by decide) (by decide) (by decide) hrun
  exact ⟨s', hrun, consistent_of_reachable (by decide) hreachable⟩

/-- A full disk does not keep `dirlink` from a block that the directory has, and a number that is no `ushort` is not
the one that is linked. -/
theorem not_consistent_of_nonzero :
    (newDirectory.free 2 = 0 ∧ ∃ s', dirlink 2 newDirectory [97] 7 = .ok (0, s')) ∧
      ∃ s', dirlink 8 newDirectory [97] 65536 = .ok (0, s') ∧ dirlookup 8 s' [97] = .ok (none, s') :=
  ⟨⟨by decide, _, rfl⟩, _, rfl, rfl⟩

end Runs

end Xv6.Dirs
