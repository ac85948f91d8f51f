import Xv6.Names.Elements
import Mathlib.Algebra.BigOperators.Group.Finset.Piecewise
import Mathlib.Algebra.Order.BigOperators.Group.Finset
import Mathlib.Data.Fintype.Card

/-!
# The inode table

`iget`, `idup`, `ilock`, `iunlock` and `iput` of `arm64/fs.c`, as one process calls them while no other
changes what is on the disk. The contents of an inode are bytes here; which blocks hold them is left to
`bmap`.
-/

namespace Xv6.Names

open Fs (direntSize tDir dirsiz offsets Dirent namecmp)

def ninode : Nat := 50

theorem ninode_pos : 0 < ninode := by decide

def nfile : Nat := 100

def nofile : Nat := 16

/-- `struct dinode`. A free one has type 0. -/
structure Dinode where
  type : Nat
  major : Int
  minor : Int
  nlink : Nat
  data : List UInt8

/-- What names an inode. -/
structure Id where
  dev : Nat
  inum : Nat
  deriving DecidableEq

/-- `struct inode`, the in-memory copy. `held` is that its lock is held. -/
structure Inode where
  id : Id
  ref : Nat
  held : Bool
  valid : Bool
  dinode : Dinode

/-- `enum` of `struct file`. -/
inductive FileType where
  | none
  | pipe
  | inode
  | device
  deriving DecidableEq

structure File where
  type : FileType
  ref : Nat
  readable : Bool
  writable : Bool
  ip : Fin ninode
  off : Nat
  major : Int

/-- The inode table, the disk, the open files, and the process. -/
structure State where
  inode : Fin ninode → Inode
  disk : Id → Dinode
  file : Fin nfile → File
  ofile : Fin nofile → Option (Fin nfile)
  cwd : Fin ninode

abbrev Code (α : Type) := StateT State (Except String) α

def panic {α : Type} (message : String) : Code α := fun _ => .error message

def State.set (s : State) (i : Fin ninode) (ip : Inode) : State :=
  { s with inode := Function.update s.inode i ip }

def State.find (s : State) (p : Inode → Bool) : Option (Fin ninode) :=
  (List.finRange ninode).find? fun i => p (s.inode i)

def iget (id : Id) : Code (Fin ninode) := fun s =>
  match s.find fun ip => 0 < ip.ref ∧ ip.id = id with
  | some i => .ok (i, s.set i { s.inode i with ref := (s.inode i).ref + 1 })
  | none =>
      -- Recycle an inode entry.
      match s.find fun ip => ip.ref = 0 with
      | none => .error "iget: no inodes"
      | some i => .ok (i, s.set i { s.inode i with id, ref := 1, valid := false })

def idup (i : Fin ninode) : Code Unit := fun s =>
  .ok ((), s.set i { s.inode i with ref := (s.inode i).ref + 1 })

def ilock (i : Fin ninode) : Code Unit := fun s =>
  let ip := s.inode i
  if ip.ref < 1 then .error "ilock"
  else if ip.held then .error "sleep"
  else if ip.valid then .ok ((), s.set i { ip with held := true })
  else if (s.disk ip.id).type = 0 then .error "ilock: no type"
  else .ok ((), s.set i { ip with held := true, valid := true, dinode := s.disk ip.id })

def iunlock (i : Fin ninode) : Code Unit := fun s =>
  let ip := s.inode i
  if ip.held = false ∨ ip.ref < 1 then .error "iunlock"
  else .ok ((), s.set i { ip with held := false })

def iput (i : Fin ninode) : Code Unit := fun s =>
  let ip := s.inode i
  if ip.ref = 1 ∧ ip.valid ∧ ip.dinode.nlink = 0 then
    -- inode has no links and no other references: truncate and free.
    if ip.held then .error "sleep"
    else
      let dinode := { ip.dinode with type := 0, data := [] }
      .ok ((), { s.set i { ip with ref := 0, valid := false, dinode } with
        disk := Function.update s.disk ip.id dinode })
  else
    .ok ((), s.set i { ip with ref := ip.ref - 1 })

/-- Unlock, then put. -/
def iunlockput (i : Fin ninode) : Code Unit := do
  iunlock i
  iput i

def locked (i : Fin ninode) : Code Inode := fun s => .ok (s.inode i, s)

def State.refs (s : State) (id : Id) : Nat := ∑ i, if (s.inode i).id = id then (s.inode i).ref else 0

def State.used (s : State) : Finset Id :=
  (Finset.univ.filter fun i => 0 < (s.inode i).ref).image fun i => (s.inode i).id

/-- `iget` finds an entry for an inode. -/
def Room (used : Finset Id) (id : Id) : Prop := id ∈ used ∨ used.card < ninode

/-- An inode is in the table once, and is on the disk as it is there. -/
structure Table (s : State) : Prop where
  unique : ∀ i j, 0 < (s.inode i).ref → 0 < (s.inode j).ref → (s.inode i).id = (s.inode j).id → i = j
  fresh : ∀ i, 0 < (s.inode i).ref → (s.inode i).valid = true →
    (s.inode i).dinode = s.disk (s.inode i).id ∧ (s.inode i).dinode.type ≠ 0

/-- `i` is the entry of an inode. -/
def At (s : State) (i : Fin ninode) (id : Id) : Prop := (s.inode i).id = id ∧ 0 < (s.inode i).ref

/-- Since `start` only references and a lock have been taken, or have been dropped again. -/
structure During (start s : State) (extra : List Id) (lock : Option (Fin ninode)) : Prop where
  rest : s = { start with inode := s.inode }
  table : Table s
  refs : ∀ id, s.refs id = start.refs id + extra.count id
  held : ∀ i, (s.inode i).held = decide (lock = some i)

section Table

variable {start s s' : State} {i j : Fin ninode} {id : Id} {extra : List Id} {lock : Option (Fin ninode)}

theorem bind_ok {α β : Type} {code : Code α} {rest : α → Code β} {a : α} (h : code s = .ok (a, s')) :
    (code >>= rest) s = rest a s' := by
  change (code s).bind _ = _
  rw [h]
  rfl

theorem bind_error {α β : Type} {code : Code α} {rest : α → Code β} {message : String}
    (h : code s = .error message) : (code >>= rest) s = .error message := by
  change (code s).bind _ = _
  rw [h]
  rfl

theorem find_some {p : Inode → Bool} (h : s.find p = some i) : p (s.inode i) = true :=
  List.find?_some (p := fun i => p (s.inode i)) h

theorem find_none {p : Inode → Bool} (h : s.find p = none) (i : Fin ninode) : p (s.inode i) = false := by
  have hnone := List.find?_eq_none.mp h i (List.mem_finRange i)
  simpa using hnone

@[simp]
theorem set_self (s : State) (i : Fin ninode) (ip : Inode) : (s.set i ip).inode i = ip := Function.update_self ..

theorem set_of_ne {ip : Inode} (h : j ≠ i) : (s.set i ip).inode j = s.inode j := Function.update_of_ne h ..

theorem refs_set (s : State) (i : Fin ninode) (ip : Inode) (id : Id) :
    (s.set i ip).refs id + (if (s.inode i).id = id then (s.inode i).ref else 0) =
      s.refs id + if ip.id = id then ip.ref else 0 := by
  have hupdate : (fun j => if ((s.set i ip).inode j).id = id then ((s.set i ip).inode j).ref else 0) =
      Function.update (fun j => if (s.inode j).id = id then (s.inode j).ref else 0) i
        (if ip.id = id then ip.ref else 0) := by
    ext j
    by_cases hj : j = i
    · rw [hj, set_self, Function.update_self]
    · rw [set_of_ne hj, Function.update_of_ne hj]
  have hsum := Finset.sum_erase_add Finset.univ (fun j => if (s.inode j).id = id then (s.inode j).ref else 0)
    (Finset.mem_univ i)
  rw [State.refs, State.refs, hupdate, Finset.sum_update_of_mem (Finset.mem_univ i), ← hsum,
    Finset.sdiff_singleton_eq_erase]
  omega

theorem refs_pos_iff : 0 < s.refs id ↔ ∃ i, At s i id := by
  rw [State.refs, Finset.sum_pos_iff]
  refine exists_congr fun i => ?_
  by_cases hid : (s.inode i).id = id
  · simp [At, hid]
  · simp [At, hid]

theorem mem_used : id ∈ s.used ↔ 0 < s.refs id := by
  rw [refs_pos_iff, State.used, Finset.mem_image]
  refine exists_congr fun i => ?_
  rw [Finset.mem_filter, and_comm]
  exact and_congr_right fun _ => and_iff_right (Finset.mem_univ i)

theorem Table.entry (h : Table s) (hi : At s i id) (hj : At s j id) : i = j :=
  h.unique i j hi.2 hj.2 (hi.1.trans hj.1.symm)

theorem Table.refs_eq (h : Table s) (hi : At s i id) : s.refs id = (s.inode i).ref := by
  rw [State.refs, Finset.sum_eq_single i, if_pos hi.1]
  · intro j _ hj
    by_cases hid : (s.inode j).id = id
    · rw [if_pos hid]
      by_contra href
      exact hj (h.entry ⟨hid, Nat.pos_of_ne_zero href⟩ hi)
    · rw [if_neg hid]
  · exact fun hmem => absurd (Finset.mem_univ i) hmem

theorem Table.exists_free (h : Table s) : (∃ i, (s.inode i).ref = 0) ↔ s.used.card < ninode := by
  have hinj : Set.InjOn (fun i => (s.inode i).id) (Finset.univ.filter fun i => 0 < (s.inode i).ref) := by
    intro i hi j hj hid
    simp only [Finset.coe_filter, Finset.mem_univ, true_and, Set.mem_setOf_eq] at hi hj
    exact h.unique i j hi hj hid
  rw [State.used, Finset.card_image_of_injOn hinj]
  calc (∃ i, (s.inode i).ref = 0) ↔ (Finset.univ.filter fun i => 0 < (s.inode i).ref) ⊂ Finset.univ := by
        rw [Finset.filter_ssubset]
        simp
    _ ↔ (Finset.univ.filter fun i => 0 < (s.inode i).ref).card < Finset.univ.card := by
        refine ⟨Finset.card_lt_card, fun hcard => ?_⟩
        exact Finset.ssubset_univ_iff.mpr fun heq => absurd hcard (by rw [heq]; exact lt_irrefl _)
    _ ↔ (Finset.univ.filter fun i => 0 < (s.inode i).ref).card < ninode := by
        rw [Finset.card_univ, Fintype.card_fin]

theorem During.refl (htable : Table start) (hheld : ∀ i, (start.inode i).held = false) :
    During start start [] none where
  rest := rfl
  table := htable
  refs id := by rw [List.count_nil, Nat.add_zero]
  held i := by rw [hheld, decide_eq_false (Option.some_ne_none i).symm]

theorem During.disk (h : During start s extra lock) : s.disk = start.disk := by
  have hdisk := congrArg State.disk h.rest
  exact hdisk

theorem During.used (h : During start s extra lock) : s.used = start.used ∪ extra.toFinset := by
  ext id
  rw [Finset.mem_union, mem_used, mem_used, h.refs, List.mem_toFinset, ← List.count_pos_iff]
  omega

theorem During.set {ip : Inode} {extra' : List Id} {lock' : Option (Fin ninode)}
    (h : During start s extra lock)
    (hunique : 0 < ip.ref → ∀ j, j ≠ i → 0 < (s.inode j).ref → (s.inode j).id ≠ ip.id)
    (hfresh : 0 < ip.ref → ip.valid = true → ip.dinode = start.disk ip.id ∧ ip.dinode.type ≠ 0)
    (hrefs : ∀ id, extra.count id + (if ip.id = id then ip.ref else 0) =
      extra'.count id + if (s.inode i).id = id then (s.inode i).ref else 0)
    (hself : ip.held = decide (lock' = some i)) (hother : ∀ j, j ≠ i → (lock' = some j ↔ lock = some j)) :
    During start (s.set i ip) extra' lock' where
  rest := congrArg (fun t : State => { t with inode := (s.set i ip).inode }) h.rest
  table := {
    unique := by
      intro j k hj hk hid
      by_cases hji : j = i <;> by_cases hki : k = i
      · rw [hji, hki]
      · subst hji
        rw [set_self] at hj hid
        rw [set_of_ne hki] at hk hid
        exact absurd hid.symm (hunique hj k hki hk)
      · subst hki
        rw [set_self] at hk hid
        rw [set_of_ne hji] at hj hid
        exact absurd hid (hunique hk j hji hj)
      · rw [set_of_ne hji] at hj hid
        rw [set_of_ne hki] at hk hid
        exact h.table.unique j k hj hk hid
    fresh := by
      intro j hj hvalid
      have hdisk : (s.set i ip).disk = start.disk := h.disk
      rw [hdisk]
      by_cases hji : j = i
      · subst hji
        rw [set_self] at hj hvalid ⊢
        exact hfresh hj hvalid
      · rw [set_of_ne hji] at hj hvalid ⊢
        exact h.disk ▸ h.table.fresh j hj hvalid }
  refs id := by
    have hset := refs_set s i ip id
    have hcount := hrefs id
    have hs := h.refs id
    omega
  held j := by
    by_cases hji : j = i
    · rw [hji, set_self, hself]
    · rw [set_of_ne hji, h.held, decide_eq_decide]
      exact (hother j hji).symm

end Table

end Xv6.Names
