import Xv6.Names.Table

/-!
# Path resolution

`dirlookup`, `namex`, `namei` and `nameiparent` of `arm64/fs.c`, and what they find in the tree on the
disk.
-/

namespace Xv6.Names

open Fs (direntSize tDir dirsiz Dirent namecmp)

/-- `iget(ROOTDEV, ROOTINO)`. -/
def root : Id := ⟨1, 1⟩

/-- The loop of `dirlookup`, over the offsets that are left: the offset of the entry and its number. -/
def dirlookupFrom (dp : Dinode) (name : Bytes) : List Nat → Except String (Option (Nat × Nat))
  | [] => .ok none
  | off :: rest =>
      let bytes := (dp.data.drop off).take direntSize
      let de := Dirent.load bytes
      if bytes.length ≠ direntSize then .error "dirlookup read"
      else if de.inum = 0 then dirlookupFrom dp name rest
      -- entry matches path element
      else if namecmp name de.name = 0 then .ok (some (off, de.inum))
      else dirlookupFrom dp name rest

def dirlookup (i : Fin ninode) (name : Bytes) : Code (Option (Fin ninode × Nat)) := do
  let dp ← locked i
  if dp.dinode.type ≠ tDir then
    panic "dirlookup not DIR"
  else
    match dirlookupFrom dp.dinode name (Fs.offsets dp.dinode.data.length) with
    | .error message => panic message
    | .ok none => pure none
    | .ok (some (off, inum)) => do
        let ip ← iget ⟨dp.id.dev, inum⟩
        pure (some (ip, off))

/-- The loop of `namex`. The fuel is more than the characters that are left. -/
def namexFrom (nameiparent : Bool) :
    (fuel : Nat) → Path → Bytes → Fin ninode → Code (Option (Fin ninode) × Bytes)
  | 0, _, name, _ => pure (none, name)
  | fuel + 1, path, name, ip =>
      match skipelem path name with
      | none =>
          if nameiparent then do
            iput ip
            pure (none, name)
          else
            pure (some ip, name)
      | some (path, name) => do
          ilock ip
          let dp ← locked ip
          if dp.dinode.type ≠ tDir then do
            iunlockput ip
            pure (none, name)
          else if nameiparent ∧ path = [] then do
            -- Stop one level early.
            iunlock ip
            pure (some ip, name)
          else do
            let next ← dirlookup ip name
            iunlockput ip
            match next with
            | none => pure (none, name)
            | some (next, _) => namexFrom nameiparent fuel path name next

/-- Look up and return the inode for a path name. If parent != 0, return the inode for the parent and copy
the final path element into name. -/
def namex (path : Path) (nameiparent : Bool) (name : Bytes) : Code (Option (Fin ninode) × Bytes) := do
  if path.head? = some slash then
    let ip ← iget root
    namexFrom nameiparent (path.length + 1) path name ip
  else
    let s ← get
    idup s.cwd
    namexFrom nameiparent (path.length + 1) path name s.cwd

/-- What is in a buffer on the stack is not known. -/
def namei (path : Path) (name : Bytes) : Code (Option (Fin ninode)) := do
  let (ip, _) ← namex path false name
  pure ip

def nameiparent (path : Path) (name : Bytes) : Code (Option (Fin ninode) × Bytes) := namex path true name

/-! ### The tree on the disk -/

def entries (dp : Dinode) : List Dirent :=
  (List.range (dp.data.length / direntSize)).map fun k =>
    Dirent.load ((dp.data.drop (k * direntSize)).take direntSize)

def Dirent.named (name : Path) (de : Dirent) : Bool :=
  de.inum ≠ 0 ∧ charsOf de.name dirsiz = name.take dirsiz

/-- The number that a directory gives to a name. A directory that ends in part of an entry is a panic. -/
def lookup (dp : Dinode) (name : Path) : Except String (Option Nat) :=
  match (entries dp).find? (Dirent.named name) with
  | some de => .ok (some de.inum)
  | none => if direntSize ∣ dp.data.length then .ok none else .error "dirlookup read"

def isDir (disk : Id → Dinode) (id : Id) : Except String Bool :=
  if (disk id).type = 0 then .error "ilock: no type" else .ok ((disk id).type = tDir)

def enter (used : Finset Id) (id : Id) : Except String Id :=
  if id ∈ used ∨ used.card < ninode then .ok id else .error "iget: no inodes"

def child (disk : Id → Dinode) (used : Finset Id) (dir : Id) (name : Path) : Except String (Option Id) := do
  match ← lookup (disk dir) name with
  | none => .ok none
  | some inum => (enter (insert dir used) ⟨dir.dev, inum⟩).map some

/-- The inode reached by looking up these names one after another. -/
def walk (disk : Id → Dinode) (used : Finset Id) : List Path → Id → Except String (Option Id)
  | [], id => .ok (some id)
  | name :: rest, id => do
      if ← isDir disk id then
        match ← child disk used id name with
        | none => .ok none
        | some next => walk disk used rest next
      else
        .ok none

def State.origin (s : State) (path : Path) : Except String Id :=
  if path.head? = some slash then enter s.used root else .ok (s.inode s.cwd).id

/-- What `namei` is to return. -/
def State.resolve (s : State) (path : Path) : Except String (Option Id) := do
  walk s.disk s.used (components path) (← s.origin path)

/-- What `nameiparent` is to return: the directory of the last component. -/
def State.resolveParent (s : State) (path : Path) : Except String (Option Id) := do
  let id ← s.origin path
  if components path = [] then
    .ok none
  else
    match ← walk s.disk s.used (components path).dropLast id with
    | none => .ok none
    | some dir => if ← isDir s.disk dir then .ok (some dir) else .ok none

def Linked (s : State) : Prop := ∀ id, (s.disk id).type ≠ 0 → (s.disk id).nlink ≠ 0 ∨ 0 < s.refs id

/-! ### What each function does to the table -/

section Steps

variable {start s : State} {i : Fin ninode} {id : Id} {extra : List Id} {lock : Option (Fin ninode)}

def Stays (s s' : State) : Prop := ∀ j other, At s j other → At s' j other

theorem Stays.set {ip : Inode} (hid : 0 < (s.inode i).ref → ip.id = (s.inode i).id)
    (href : 0 < (s.inode i).ref → 0 < ip.ref) : Stays s (s.set i ip) := by
  intro j other hj
  by_cases hji : j = i
  · subst hji
    exact ⟨by rw [set_self, hid hj.2, hj.1], by rw [set_self]; exact href hj.2⟩
  · rwa [At, set_of_ne hji]

theorem iget_spec (h : During start s extra lock) (id : Id) :
    (enter s.used id = .ok id ∧ ∃ i s', iget id s = .ok (i, s') ∧ At s' i id ∧
        During start s' (id :: extra) lock ∧ Stays s s') ∨
      (enter s.used id = .error "iget: no inodes" ∧ iget id s = .error "iget: no inodes") := by
  unfold enter iget
  cases hfound : s.find fun ip => 0 < ip.ref ∧ ip.id = id with
  | some i =>
      obtain ⟨href, hid⟩ : 0 < (s.inode i).ref ∧ (s.inode i).id = id := by simpa using find_some hfound
      have hmem : id ∈ s.used := mem_used.mpr (refs_pos_iff.mpr ⟨i, hid, href⟩)
      refine Or.inl ⟨if_pos (Or.inl hmem), i, _, rfl, ⟨by rw [set_self, hid], by rw [set_self]; exact Nat.succ_pos _⟩,
        h.set (fun _ j hj hpos heq => hj (h.table.unique j i hpos href heq))
          (fun _ hvalid => h.disk ▸ h.table.fresh i href hvalid) (fun other => ?_) (h.held i) (fun _ _ => Iff.rfl),
        Stays.set (fun _ => rfl) fun _ => Nat.succ_pos _⟩
      rw [List.count_cons, hid]
      by_cases hother : id = other
      · rw [if_pos hother, if_pos hother, if_pos (by simpa using hother)]
        dsimp only
        omega
      · rw [if_neg hother, if_neg hother, if_neg (by simpa using hother)]
  | none =>
      have hmem : id ∉ s.used := by
        intro hmem
        obtain ⟨i, hid, href⟩ := refs_pos_iff.mp (mem_used.mp hmem)
        have hnone := find_none hfound i
        simp only [decide_eq_false_iff_not] at hnone
        exact hnone ⟨href, hid⟩
      dsimp only
      cases hempty : s.find fun ip => ip.ref = 0 with
      | some i =>
          have href : (s.inode i).ref = 0 := by simpa using find_some hempty
          refine Or.inl ⟨if_pos (Or.inr (h.table.exists_free.mp ⟨i, href⟩)), i, _, rfl,
            ⟨by rw [set_self], by rw [set_self]; exact Nat.one_pos⟩,
            h.set (fun _ j hj hpos heq => hmem (mem_used.mpr (refs_pos_iff.mpr ⟨j, heq, hpos⟩)))
              (fun _ hvalid => absurd hvalid Bool.false_ne_true) (fun other => ?_) (h.held i) (fun _ _ => Iff.rfl),
            Stays.set (fun hpos => absurd hpos (by omega)) fun _ => Nat.one_pos⟩
          rw [List.count_cons, href]
          by_cases hother : id = other
          · rw [if_pos hother, if_pos (by simpa using hother)]
            simp
          · rw [if_neg hother, if_neg (by simpa using hother)]
            simp
      | none =>
          refine Or.inr ⟨if_neg (not_or.mpr ⟨hmem, fun hcard => ?_⟩), rfl⟩
          obtain ⟨i, href⟩ := h.table.exists_free.mpr hcard
          have hnone := find_none hempty i
          simp only [decide_eq_false_iff_not] at hnone
          exact hnone href

theorem idup_spec (h : During start s extra lock) (hi : At s i id) :
    ∃ s', idup i s = .ok ((), s') ∧ At s' i id ∧ During start s' (id :: extra) lock := by
  refine ⟨_, rfl, ⟨by rw [set_self, hi.1], by rw [set_self]; exact Nat.succ_pos _⟩,
    h.set (fun _ j hj hpos heq => hj (h.table.unique j i hpos hi.2 heq))
      (fun _ hvalid => h.disk ▸ h.table.fresh i hi.2 hvalid) (fun other => ?_) (h.held i) (fun _ _ => Iff.rfl)⟩
  rw [List.count_cons, hi.1]
  by_cases hother : id = other
  · rw [if_pos hother, if_pos hother, if_pos (by simpa using hother)]
    dsimp only
    omega
  · rw [if_neg hother, if_neg hother, if_neg (by simpa using hother)]

theorem ilock_spec (h : During start s extra none) (hi : At s i id) :
    ((start.disk id).type = 0 ∧ ilock i s = .error "ilock: no type") ∨
      ((start.disk id).type ≠ 0 ∧ ∃ s', ilock i s = .ok ((), s') ∧ During start s' extra (some i) ∧
        (s'.inode i).dinode = start.disk id ∧ Stays s s') := by
  have hheld : (s.inode i).held = false := by rw [h.held]; exact decide_eq_false (Option.some_ne_none i).symm
  have hset : ∀ ip : Inode, ip.id = (s.inode i).id → ip.ref = (s.inode i).ref → ip.held = true →
      ip.dinode = start.disk id → (start.disk id).type ≠ 0 →
        During start (s.set i ip) extra (some i) ∧ ((s.set i ip).inode i).dinode = start.disk id ∧
          Stays s (s.set i ip) := by
    intro ip hid href hlock hdinode htype
    refine ⟨h.set (fun _ j hj hpos heq => hj (h.table.unique j i hpos hi.2 (heq.trans hid)))
      (fun _ _ => ?_) (fun other => by rw [hid, href]) (by rw [hlock, decide_eq_true rfl]) (fun j hj => ?_), ?_,
      Stays.set (fun _ => hid) fun hpos => href ▸ hpos⟩
    · rw [hid, hi.1, hdinode]
      exact ⟨rfl, htype⟩
    · exact iff_of_false (fun heq => hj (Option.some.inj heq).symm) (Option.some_ne_none j).symm
    · rw [set_self, hdinode]
  unfold ilock
  dsimp only
  rw [if_neg (by have := hi.2; omega), if_neg (by rw [hheld]; exact Bool.false_ne_true)]
  cases hvalid : (s.inode i).valid with
  | true =>
      obtain ⟨hdinode, htype⟩ := h.table.fresh i hi.2 hvalid
      rw [h.disk, hi.1] at hdinode
      rw [hdinode] at htype
      rw [if_pos rfl]
      exact Or.inr ⟨htype, _, rfl, hset _ rfl rfl rfl hdinode htype⟩
  | false =>
      rw [if_neg Bool.false_ne_true, h.disk, hi.1]
      by_cases htype : (start.disk id).type = 0
      · rw [if_pos htype]
        exact Or.inl ⟨htype, rfl⟩
      · rw [if_neg htype]
        exact Or.inr ⟨htype, _, rfl, hset _ hi.1.symm rfl rfl rfl htype⟩

theorem iunlock_spec (h : During start s extra (some i)) (hi : At s i id) :
    ∃ s', iunlock i s = .ok ((), s') ∧ During start s' extra none ∧ Stays s s' := by
  have hheld : (s.inode i).held = true := by rw [h.held, decide_eq_true rfl]
  unfold iunlock
  dsimp only
  rw [if_neg (by rw [hheld]; have := hi.2; simp; omega)]
  refine ⟨_, rfl, h.set (fun _ j hj hpos heq => hj (h.table.unique j i hpos hi.2 heq))
    (fun _ hvalid => h.disk ▸ h.table.fresh i hi.2 hvalid) (fun _ => rfl)
    (decide_eq_false (Option.some_ne_none i).symm).symm (fun j hj => ?_), Stays.set (fun _ => rfl) fun hpos => hpos⟩
  exact iff_of_false (Option.some_ne_none j).symm fun heq => hj (Option.some.inj heq).symm

theorem iput_spec (hlinked : Linked start) (h : During start s (id :: extra) none) (hi : At s i id) :
    ∃ s', iput i s = .ok ((), s') ∧ During start s' extra none ∧
      ∀ j other, other ∈ extra → At s j other → At s' j other := by
  have hrefs : (s.inode i).ref = start.refs id + ((extra.count id) + 1) := by
    rw [← h.table.refs_eq hi, h.refs, List.count_cons_self]
  have hkept : ¬((s.inode i).ref = 1 ∧ (s.inode i).valid ∧ (s.inode i).dinode.nlink = 0) := by
    rintro ⟨hone, hvalid, hnlink⟩
    obtain ⟨hdinode, htype⟩ := h.table.fresh i hi.2 hvalid
    rw [h.disk, hi.1] at hdinode
    rw [hdinode] at htype hnlink
    rcases hlinked id htype with hne | hpos
    · exact hne hnlink
    · omega
  unfold iput
  dsimp only
  rw [if_neg hkept]
  refine ⟨_, rfl, h.set (fun hpos j hj hpos' heq => hj (h.table.unique j i hpos' hi.2 heq))
    (fun hpos hvalid => h.disk ▸ h.table.fresh i hi.2 hvalid) (fun other => ?_) (h.held i) (fun _ _ => Iff.rfl), ?_⟩
  · rw [List.count_cons, hi.1]
    by_cases hother : id = other
    · rw [if_pos hother, if_pos hother, if_pos (by simpa using hother)]
      dsimp only
      omega
    · rw [if_neg hother, if_neg hother, if_neg (by simpa using hother)]
  · intro j other hmem hj
    by_cases hji : j = i
    · subst hji
      obtain rfl : id = other := hi.1.symm.trans hj.1
      have hcount := List.count_pos_iff.mpr hmem
      refine ⟨by rw [set_self, hj.1], ?_⟩
      rw [set_self]
      dsimp only
      omega
    · rwa [At, set_of_ne hji]

theorem iunlockput_spec (hlinked : Linked start) (h : During start s (id :: extra) (some i)) (hi : At s i id) :
    ∃ s', iunlockput i s = .ok ((), s') ∧ During start s' extra none ∧
      ∀ j other, other ∈ extra → At s j other → At s' j other := by
  obtain ⟨mid, hunlock, hmid, hstays⟩ := iunlock_spec h hi
  obtain ⟨s', hput, hs', hkeeps⟩ := iput_spec hlinked hmid (hstays i id hi)
  exact ⟨s', (bind_ok hunlock).trans hput, hs', fun j other hmem hj => hkeeps j other hmem (hstays j other hj)⟩

end Steps

/-! ### Directories -/

section Directory

variable {dp : Dinode} {name : Bytes} {word : Path}

theorem dirlookupFrom_append (hname : charsOf name dirsiz = word.take dirsiz) (rest : List Nat) {l : List Nat}
    (hl : ∀ k ∈ l, k * direntSize + direntSize ≤ dp.data.length) :
    (dirlookupFrom dp name (l.map (· * direntSize) ++ rest)).map (Option.map Prod.snd) =
      match (l.map fun k => Dirent.load ((dp.data.drop (k * direntSize)).take direntSize)).find?
          (Dirent.named word) with
      | some de => .ok (some de.inum)
      | none => (dirlookupFrom dp name rest).map (Option.map Prod.snd) := by
  induction l with
  | nil => rfl
  | cons k l ih =>
      have hk := hl k List.mem_cons_self
      have hlength : ((dp.data.drop (k * direntSize)).take direntSize).length = direntSize := by
        rw [List.length_take, List.length_drop]
        omega
      rw [List.map_cons, List.cons_append, dirlookupFrom, List.map_cons, List.find?_cons]
      rw [if_neg (not_not.mpr hlength)]
      generalize Dirent.load ((dp.data.drop (k * direntSize)).take direntSize) = de
      have hequal : namecmp name de.name = 0 ↔ charsOf de.name dirsiz = word.take dirsiz := by
        rw [namecmp, strncmp_eq_zero_iff, hname, eq_comm]
      rw [Dirent.named, Bool.decide_and, ← decide_eq_decide.mpr hequal]
      have hrest := ih fun k' hk' => hl k' (List.mem_cons_of_mem _ hk')
      by_cases hinum : de.inum = 0
      · rw [if_pos hinum, hrest, hinum]
        rfl
      · rw [if_neg hinum]
        by_cases hsame : namecmp name de.name = 0
        · rw [if_pos hsame, decide_eq_true hinum, decide_eq_true hsame]
          rfl
        · rw [if_neg hsame, hrest, decide_eq_false hsame, Bool.and_false]

theorem dirlookupFrom_eq (hname : charsOf name dirsiz = word.take dirsiz) :
    (dirlookupFrom dp name (Fs.offsets dp.data.length)).map (Option.map Prod.snd) = lookup dp word := by
  have hsize : direntSize = 16 := rfl
  have hwhole : ∀ k ∈ List.range (dp.data.length / direntSize), k * direntSize + direntSize ≤ dp.data.length := by
    intro k hk
    have hlt := List.mem_range.mp hk
    have hle := Nat.div_mul_le_self dp.data.length direntSize
    calc k * direntSize + direntSize = (k + 1) * direntSize := (Nat.succ_mul _ _).symm
      _ ≤ dp.data.length / direntSize * direntSize := Nat.mul_le_mul_right _ hlt
      _ ≤ dp.data.length := hle
  rw [lookup, entries, Fs.offsets]
  by_cases hdvd : direntSize ∣ dp.data.length
  · have hcount : (dp.data.length + direntSize - 1) / direntSize = dp.data.length / direntSize := by
      rw [hsize] at hdvd ⊢
      omega
    rw [hcount, if_pos hdvd, ← List.append_nil ((List.range _).map _), dirlookupFrom_append hname [] hwhole]
    rfl
  · have hcount : (dp.data.length + direntSize - 1) / direntSize = dp.data.length / direntSize + 1 := by
      rw [hsize] at hdvd ⊢
      omega
    have hpart : ((dp.data.drop (dp.data.length / direntSize * direntSize)).take direntSize).length ≠ direntSize := by
      rw [List.length_take, List.length_drop, hsize]
      rw [hsize] at hdvd
      omega
    rw [hcount, if_neg hdvd, List.range_succ, List.map_append, dirlookupFrom_append hname _ hwhole]
    split
    · rfl
    · rw [List.map_singleton, dirlookupFrom]
      rw [if_pos hpart]
      rfl

end Directory

section Lookup

variable {start s : State} {i : Fin ninode} {id : Id} {name : Bytes} {word : Path}

theorem child_some {disk : Id → Dinode} {used : Finset Id} {inum : Nat}
    (h : lookup (disk id) word = .ok (some inum)) :
    child disk used id word = (enter (insert id used) ⟨id.dev, inum⟩).map some := by
  rw [child, h]
  rfl

theorem dirlookup_spec (hname : charsOf name dirsiz = word.take dirsiz) (h : During start s [id] (some i))
    (hi : At s i id) (hdinode : (s.inode i).dinode = start.disk id) (htype : (start.disk id).type = tDir) :
    (∃ message, child start.disk start.used id word = .error message ∧ dirlookup i name s = .error message) ∨
      (child start.disk start.used id word = .ok none ∧ dirlookup i name s = .ok (none, s)) ∨
        ∃ next j off s', child start.disk start.used id word = .ok (some next) ∧
          dirlookup i name s = .ok (some (j, off), s') ∧ At s' j next ∧ During start s' [next, id] (some i) ∧
            At s' i id := by
  have hlookup := @dirlookupFrom_eq (start.disk id) name word hname
  have hused : s.used = insert id start.used := by
    rw [h.used, Finset.union_comm]
    rfl
  unfold dirlookup
  rw [bind_ok (show locked i s = .ok (s.inode i, s) from rfl), hdinode, if_neg (not_not.mpr htype)]
  cases hfrom : dirlookupFrom (start.disk id) name (Fs.offsets (start.disk id).data.length) with
  | error message =>
      rw [hfrom] at hlookup
      refine Or.inl ⟨message, ?_, rfl⟩
      rw [child, ← hlookup]
      rfl
  | ok found =>
      rw [hfrom] at hlookup
      cases found with
      | none =>
          refine Or.inr (Or.inl ⟨?_, rfl⟩)
          rw [child, ← hlookup]
          rfl
      | some found =>
          obtain ⟨off, inum⟩ := found
          rw [child_some hlookup.symm, ← hused, hi.1]
          dsimp only
          rcases iget_spec h ⟨id.dev, inum⟩ with ⟨henter, j, s', hget, hj, hs', hstays⟩ | ⟨henter, hget⟩
          · rw [henter, bind_ok hget]
            exact Or.inr (Or.inr ⟨⟨id.dev, inum⟩, j, off, s', rfl, rfl, hj, hs', hstays i id hi⟩)
          · rw [henter, bind_error hget]
            exact Or.inl ⟨_, rfl, rfl⟩

end Lookup

/-! ### The loop -/

section Loop

variable {start s : State} {i : Fin ninode} {id : Id} {path : Path} {name : Bytes}

/-- What the loop is to return, by the names that are left. -/
def reach (disk : Id → Dinode) (used : Finset Id) (nameiparent : Bool) : List Path → Id → Except String (Option Id)
  | [], id => .ok (if nameiparent then none else some id)
  | name :: rest, id => do
      if ← isDir disk id then
        if nameiparent ∧ rest = [] then
          .ok (some id)
        else
          match ← child disk used id name with
          | none => .ok none
          | some next => reach disk used nameiparent rest next
      else
        .ok none

/-- A run that returns the entry of this inode, or no entry, or panics, with nothing else taken. -/
def Ends {α : Type} (start : State) (found : Except String (Option Id)) (entry : α → Option (Fin ninode))
    (good : α → Prop) (run : Except String (α × State)) : Prop :=
  (∃ message, found = .error message ∧ run = .error message) ∨
    (found = .ok none ∧ ∃ a s', run = .ok (a, s') ∧ entry a = none ∧ During start s' [] none) ∨
      ∃ id i a s', found = .ok (some id) ∧ run = .ok (a, s') ∧ entry a = some i ∧ At s' i id ∧
        During start s' [id] none ∧ good a

def HasLast (path : Path) (name : Bytes) : Prop :=
  ∀ last ∈ (components path).getLast?, charsOf name dirsiz = last.take dirsiz

theorem namexFrom_spec {nameiparent : Bool} {fuel : Nat} (hlinked : Linked start) (hfuel : path.length < fuel)
    (hpath : 0 ∉ path) (h : During start s [id] none) (hi : At s i id) :
    Ends start (reach start.disk start.used nameiparent (components path) id) Prod.fst
      (fun r => nameiparent = true → HasLast path r.2) (namexFrom nameiparent fuel path name i s) := by
  induction fuel generalizing s i id path name with
  | zero => exact absurd hfuel (Nat.not_lt_zero _)
  | succ fuel ih =>
      rw [namexFrom]
      cases hnext : skipelem path name with
      | none =>
          rw [skipelem_eq_none_iff.mp hnext, reach]
          cases nameiparent with
          | true =>
              obtain ⟨s', hput, hs', -⟩ := iput_spec hlinked h hi
              exact Or.inr (Or.inl ⟨rfl, (none, name), s', bind_ok hput, rfl, hs'⟩)
          | false =>
              exact Or.inr (Or.inr ⟨id, i, (some i, name), s, rfl, rfl, rfl, hi, h, fun hfalse => absurd hfalse Bool.false_ne_true⟩)
      | some next =>
          obtain ⟨path', name'⟩ := next
          obtain ⟨word, hcomponents, hname, hlength, hrest, -⟩ := skipelem_some hpath hnext
          have hend := skipelem_rest hnext
          have hlast : path' = [] → HasLast path name' := by
            intro hnil last hmem
            rw [hcomponents, hend.mp hnil] at hmem
            obtain rfl : word = last := by simpa using hmem
            exact hname
          have hmore : path' ≠ [] → ∀ buffer, HasLast path' buffer → HasLast path buffer := by
            intro hne buffer hbuffer last hmem
            rw [hcomponents, List.getLast?_cons_of_ne_nil (mt hend.mpr hne)] at hmem
            exact hbuffer last hmem
          rw [hcomponents, reach]
          dsimp only
          rcases ilock_spec h hi with ⟨hfree, hlock⟩ | ⟨hused, locked', hlock, hlocked, hdinode, hstays⟩
          · rw [isDir, if_pos hfree, bind_error hlock]
            exact Or.inl ⟨_, rfl, rfl⟩
          · rw [isDir, if_neg hused, bind_ok hlock,
              bind_ok (show locked i locked' = .ok (locked'.inode i, locked') from rfl), hdinode]
            have hi' := hstays i id hi
            by_cases htype : (start.disk id).type = tDir
            · rw [if_neg (not_not.mpr htype), decide_eq_true htype]
              change Ends start (if nameiparent = true ∧ components path' = [] then _ else _) _ _ _
              by_cases hstop : nameiparent = true ∧ path' = []
              · rw [if_pos hstop, if_pos ⟨hstop.1, hend.mp hstop.2⟩]
                obtain ⟨s', hunlock, hs', hstays'⟩ := iunlock_spec hlocked hi'
                exact Or.inr (Or.inr ⟨id, i, (some i, name'), s', rfl, bind_ok hunlock, rfl,
                  hstays' i id hi', hs', fun _ => hlast hstop.2⟩)
              · rw [if_neg hstop, if_neg fun hboth => hstop ⟨hboth.1, hend.mpr hboth.2⟩]
                rcases dirlookup_spec hname hlocked hi' hdinode htype with
                  ⟨message, hchild, hrun⟩ | ⟨hchild, hrun⟩ | ⟨next, j, off, mid, hchild, hrun, hj, hmid, himid⟩
                · rw [hchild, bind_error hrun]
                  exact Or.inl ⟨message, rfl, rfl⟩
                · rw [hchild, bind_ok hrun]
                  obtain ⟨s', hput, hs', -⟩ := iunlockput_spec hlinked hlocked hi'
                  exact Or.inr (Or.inl ⟨rfl, (none, name'), s', bind_ok hput, rfl, hs'⟩)
                · rw [hchild, bind_ok hrun]
                  have hswap : During start mid [id, next] (some i) :=
                    { hmid with refs := fun other => by rw [hmid.refs, (List.Perm.swap id next []).count_eq] }
                  obtain ⟨s', hput, hs', hkeeps⟩ := iunlockput_spec hlinked hswap himid
                  rw [bind_ok hput]
                  rcases @ih s' j next path' name' (by omega) hrest hs' (hkeeps j next List.mem_cons_self hj) with
                    herror | hnone | ⟨found, k, r, s'', hfound, hrun', hentry, hk, hs'', hbuffer⟩
                  · exact Or.inl herror
                  · exact Or.inr (Or.inl hnone)
                  · refine Or.inr (Or.inr ⟨found, k, r, s'', hfound, hrun', hentry, hk, hs'', fun hparent => ?_⟩)
                    exact hmore (fun hnil => hstop ⟨hparent, hnil⟩) r.2 (hbuffer hparent)
            · rw [if_pos htype, decide_eq_false htype]
              obtain ⟨s', hput, hs', -⟩ := iunlockput_spec hlinked hlocked hi'
              exact Or.inr (Or.inl ⟨rfl, (none, name'), s', bind_ok hput, rfl, hs'⟩)

theorem reach_false (disk : Id → Dinode) (used : Finset Id) (names : List Path) (id : Id) :
    reach disk used false names id = walk disk used names id := by
  induction names generalizing id with
  | nil => rfl
  | cons name rest ih =>
      simp only [reach, walk, ih, Bool.false_eq_true, false_and, if_false]

theorem reach_true (disk : Id → Dinode) (used : Finset Id) {names : List Path} (hne : names ≠ []) (id : Id) :
    reach disk used true names id = (do
      match ← walk disk used names.dropLast id with
      | none => .ok none
      | some dir => if ← isDir disk dir then .ok (some dir) else .ok none) := by
  induction names generalizing id with
  | nil => exact absurd rfl hne
  | cons name rest ih =>
      cases rest with
      | nil => simp [reach, walk, bind, Except.bind]
      | cons next rest =>
          rw [reach, List.dropLast_cons_of_ne_nil (List.cons_ne_nil next rest), walk]
          cases isDir disk id with
          | error message => rfl
          | ok dir =>
              cases dir with
              | false => rfl
              | true =>
                  change (if true = true ∧ next :: rest = [] then Except.ok (some id) else _) = _
                  rw [if_neg fun hboth => List.cons_ne_nil next rest hboth.2]
                  cases child disk used id name with
                  | error message => simp [bind, Except.bind]
                  | ok found =>
                      cases found with
                      | none => simp [bind, Except.bind]
                      | some found =>
                          simp only [bind, Except.bind, if_true]
                          exact ih (List.cons_ne_nil next rest) found

end Loop

/-! ### Path resolution -/

/-- The process holds no inode and is between two operations on the tree. -/
structure Quiet (s : State) : Prop where
  table : Table s
  linked : Linked s
  held : ∀ i, (s.inode i).held = false
  cwd : 0 < (s.inode s.cwd).ref

section Resolve

variable {s : State} {path : Path}

theorem namex_spec (h : Quiet s) (hpath : 0 ∉ path) (nameiparent : Bool) (name : Bytes) :
    Ends s (s.origin path >>= reach s.disk s.used nameiparent (components path)) Prod.fst
      (fun r => nameiparent = true → HasLast path r.2) (namex path nameiparent name s) := by
  have hduring := During.refl h.table h.held
  unfold namex State.origin
  by_cases habsolute : path.head? = some slash
  · rw [if_pos habsolute, if_pos habsolute]
    rcases iget_spec hduring root with ⟨henter, i, s', hget, hi, hs', -⟩ | ⟨henter, hget⟩
    · rw [henter, bind_ok hget]
      exact namexFrom_spec h.linked (Nat.lt_succ_self _) hpath hs' hi
    · rw [henter, bind_error hget]
      exact Or.inl ⟨_, rfl, rfl⟩
  · rw [if_neg habsolute, if_neg habsolute]
    obtain ⟨s', hdup, hi, hs'⟩ := idup_spec hduring ⟨rfl, h.cwd⟩
    rw [bind_ok (show (get : Code State) s = .ok (s, s) from rfl), bind_ok hdup]
    exact namexFrom_spec h.linked (Nat.lt_succ_self _) hpath hs' hi

theorem namei_spec (h : Quiet s) (hpath : 0 ∉ path) (name : Bytes) :
    Ends s (s.resolve path) id (fun _ => True) (namei path name s) := by
  have hspec := namex_spec h hpath false name
  have hfound : s.origin path >>= reach s.disk s.used false (components path) = s.resolve path :=
    congrArg (s.origin path >>= ·) (funext fun id => reach_false s.disk s.used (components path) id)
  rw [hfound] at hspec
  rcases hspec with ⟨message, hfound, hrun⟩ | ⟨hfound, r, s', hrun, hentry, hs'⟩ |
    ⟨id, i, r, s', hfound, hrun, hentry, hi, hs', -⟩
  · exact Or.inl ⟨message, hfound, bind_error hrun⟩
  · exact Or.inr (Or.inl ⟨hfound, r.1, s', bind_ok hrun, hentry, hs'⟩)
  · exact Or.inr (Or.inr ⟨id, i, r.1, s', hfound, bind_ok hrun, hentry, hi, hs', trivial⟩)

theorem nameiparent_spec (h : Quiet s) (hpath : 0 ∉ path) (name : Bytes) :
    Ends s (s.resolveParent path) Prod.fst (fun r => HasLast path r.2) (nameiparent path name s) := by
  have hspec := namex_spec h hpath true name
  have hfound : s.origin path >>= reach s.disk s.used true (components path) = s.resolveParent path := by
    refine congrArg (s.origin path >>= ·) (funext fun id => ?_)
    by_cases hnil : components path = []
    · rw [hnil, if_pos rfl]
      rfl
    · rw [reach_true _ _ hnil, if_neg hnil]
  rw [hfound] at hspec
  rcases hspec with herror | hnone | ⟨id, i, r, s', hfound, hrun, hentry, hi, hs', hlast⟩
  · exact Or.inl herror
  · exact Or.inr (Or.inl hnone)
  · exact Or.inr (Or.inr ⟨id, i, r, s', hfound, hrun, hentry, hi, hs', hlast rfl⟩)

/-- **Path resolution.** The scanner yields the components of the path, `namei` and `nameiparent` return
what looking these up one after another reaches, and one reference to it is all that is taken. -/
theorem names_resolve (h : Quiet s) (hpath : 0 ∉ path) (name : Bytes) :
    elements (path.length + 1) path name = some ((components path).map (List.take dirsiz)) ∧
      Ends s (s.resolve path) id (fun _ => True) (namei path name s) ∧
        Ends s (s.resolveParent path) Prod.fst (fun r => HasLast path r.2) (nameiparent path name s) :=
  ⟨elements_eq (Nat.lt_succ_self _) hpath, namei_spec h hpath name, nameiparent_spec h hpath name⟩

end Resolve

/-- A directory `/` that names itself. -/
def small : State where
  inode i := ⟨root, if i.val = 0 then 1 else 0, false, false, ⟨0, 0, 0, 0, []⟩⟩
  disk _ := ⟨tDir, 0, 0, 1, [1, 0, 46, 0, 0, 0, 0, 0, 0, 0, 0, 0, 0, 0, 0, 0]⟩
  file _ := ⟨.none, 0, false, false, ⟨0, ninode_pos⟩, 0, 0⟩
  ofile _ := none
  cwd := ⟨0, ninode_pos⟩

theorem small_quiet : Quiet small where
  table := {
    unique := by
      intro i j hi hj _
      have hzero : ∀ k : Fin ninode, 0 < (small.inode k).ref → k.val = 0 := by
        intro k hk
        by_contra hne
        exact absurd hk (by simp [small, hne])
      exact Fin.ext ((hzero i hi).trans (hzero j hj).symm)
    fresh := fun _ _ hvalid => absurd hvalid Bool.false_ne_true }
  linked _ _ := Or.inl Nat.one_ne_zero
  held _ := rfl
  cwd := Nat.one_pos

theorem names_resolve_small :
    elements 4 [47, 46, 47] (fun _ => 7) = some ((components [47, 46, 47]).map (List.take dirsiz)) ∧
      Ends small (small.resolve [47, 46, 47]) id (fun _ => True) (namei [47, 46, 47] (fun _ => 7) small) ∧
        Ends small (small.resolveParent [47, 46, 47]) Prod.fst (fun r => HasLast [47, 46, 47] r.2)
          (nameiparent [47, 46, 47] (fun _ => 7) small) :=
  @names_resolve small [47, 46, 47] small_quiet (by decide) fun _ => 7

def full : State := { small with inode := fun i => ⟨⟨1, i.val + 2⟩, 1, false, false, ⟨0, 0, 0, 0, []⟩⟩ }

theorem full_quiet : Quiet full where
  table := {
    unique := fun _ _ _ _ hid => Fin.ext (Nat.add_right_cancel (Id.mk.inj hid).2)
    fresh := fun _ _ hvalid => absurd hvalid Bool.false_ne_true }
  linked _ _ := Or.inl Nat.one_ne_zero
  held _ := rfl
  cwd := Nat.one_pos

/-- There the root is not reached, although it is there. -/
theorem not_resolves_full : Quiet full ∧ components [slash] = [] ∧ (full.disk root).type = tDir ∧
    ∀ name, namei [slash] name full = .error "iget: no inodes" := by
  refine ⟨full_quiet, rfl, rfl, fun name => ?_⟩
  have hget : iget root full = .error "iget: no inodes" := by
    have hnone : ∀ p : Inode → Bool, (∀ i, p (full.inode i) = false) → full.find p = none :=
      fun p hp => List.find?_eq_none.mpr fun i _ => by rw [hp]; exact Bool.false_ne_true
    have hother : ∀ i : Fin ninode, ¬(0 < (full.inode i).ref ∧ (full.inode i).id = root) :=
      fun i hi => absurd (Id.mk.inj hi.2).2 (by omega)
    unfold iget
    rw [hnone _ fun i => decide_eq_false (hother i)]
    dsimp only
    rw [hnone _ fun i => decide_eq_false Nat.one_ne_zero]
  exact bind_error (bind_error hget)

end Xv6.Names
