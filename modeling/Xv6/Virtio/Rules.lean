import Xv6.Virtio.Disk

/-!
# What the driver of the virtio disk relies on

The stages of a call, and what each step asks for and promises. While a process holds `vdisk_lock`, only the
device changes what the driver sees, so what the process has seen under the lock stays so.
-/

namespace Xv6.Virtio

/-- How far a process has come in `virtio_disk_rw`. -/
inductive Stage where
  | idle
  | called
  /-- Its descriptors are formatted. -/
  | formatted
  /-- The first of them is in the ring. -/
  | staged
  /-- The device knows. -/
  | sent
  /-- It has seen that the disk is done with the buffer. -/
  | answered
  deriving DecidableEq

structure Ghost (β : Type) where
  holds : Bool
  /-- Its descriptors. -/
  own : List Nat
  stage : Stage
  call : Option (β × Bool)
  /-- No descriptor but these is free. -/
  spare : Option (List Nat)
  /-- The disk owns the buffer. -/
  onDisk : Bool
  /-- There is a request in `used`. -/
  unseen : Bool

namespace Ghost

variable {β : Type}

def idle : Ghost β := ⟨false, [], .idle, none, none, false, false⟩

def begun (b : β) (write : Bool) : Ghost β :=
  { (idle : Ghost β) with stage := .called, call := some (b, write) }

def leave (ghost : Ghost β) : Ghost β :=
  { ghost with holds := false, spare := none, onDisk := false, unseen := false }

end Ghost

section Specs

variable {β : Type}

def rule : Rule (steps β) (Ghost β)
  | .acquire, ghost, Q => ghost.holds = false ∧ Q () { ghost with holds := true }
  | .release, ghost, Q => ghost.holds = true ∧ ghost.stage = .idle ∧ Q () ghost.leave
  | .allocDesc, ghost, Q => ghost.holds = true ∧ ghost.stage = .called ∧
      (∀ i, Q (some i) { ghost with own := ghost.own ++ [i] }) ∧ Q none { ghost with spare := some [] }
  | .freeDesc i, ghost, Q => ghost.holds = true ∧
      (ghost.stage = .called ∧ i ∈ ghost.own ∨ ghost.stage = .answered ∧ ghost.own.head? = some i) ∧
        Q () { ghost with own := ghost.own.erase i, spare := ghost.spare.map (i :: ·) }
  | .readDesc i, ghost, Q => ghost.holds = true ∧ ghost.stage = .answered ∧ ghost.own.head? = some i ∧
      ∀ flag nxt, (if flag &&& descFNext ≠ 0 then ghost.own.tail.head? = some nxt else ghost.own.tail = []) →
        Q (flag, nxt) ghost
  | .sleep .free, ghost, Q => ghost.holds = true ∧ ghost.stage = .called ∧ ghost.own = [] ∧
      (∃ spare, ghost.spare = some spare ∧ spare.length < 3) ∧ Q () ghost.leave
  | .sleep (.buf b), ghost, Q => ghost.holds = true ∧ ghost.stage = .sent ∧
      (∃ write, ghost.call = some (b, write)) ∧ ghost.onDisk = true ∧ Q () ghost.leave
  | .format b write i j k, ghost, Q => ghost.holds = true ∧ ghost.stage = .called ∧
      ghost.own = [i, j, k] ∧ ghost.call = some (b, write) ∧ Q () { ghost with stage := .formatted }
  | .setAvail i, ghost, Q => ghost.holds = true ∧ ghost.stage = .formatted ∧ ghost.own.head? = some i ∧
      Q () { ghost with stage := .staged }
  | .advanceAvail, ghost, Q => ghost.holds = true ∧ ghost.stage = .staged ∧
      Q () { ghost with stage := .sent }
  | .notify, ghost, Q => Q () ghost
  | .onDisk b, ghost, Q => ghost.holds = true ∧ ghost.stage = .sent ∧
      (∃ write, ghost.call = some (b, write)) ∧ Q true { ghost with onDisk := true } ∧
        Q false { ghost with stage := .answered }
  | .clearInfo i, ghost, Q => ghost.holds = true ∧ ghost.stage = .answered ∧ ghost.own.head? = some i ∧
      Q () ghost
  | .finish, ghost, Q => ghost.holds = true ∧ ghost.stage = .answered ∧ ghost.own = [] ∧
      Q () { ghost with stage := .idle, call := none }
  | .unseen, ghost, Q => ghost.holds = true ∧ Q true { ghost with unseen := true } ∧ Q false ghost
  | .complete, ghost, Q => ghost.holds = true ∧ ghost.unseen = true ∧ ghost.onDisk = false ∧
      Q () { ghost with unseen := false }
  | .rounds, ghost, Q => ∀ rounds, Q rounds ghost
  | .stop, _, _ => True

theorem rule_monotone : (rule : Rule (steps β) (Ghost β)).Monotone := by
  intro op ghost post post' hpost h
  cases op with
  | acquire => exact ⟨h.1, hpost _ _ h.2⟩
  | release => exact ⟨h.1, h.2.1, hpost _ _ h.2.2⟩
  | allocDesc => exact ⟨h.1, h.2.1, fun i => hpost _ _ (h.2.2.1 i), hpost _ _ h.2.2.2⟩
  | freeDesc i => exact ⟨h.1, h.2.1, hpost _ _ h.2.2⟩
  | readDesc i => exact ⟨h.1, h.2.1, h.2.2.1, fun flag nxt hnext => hpost _ _ (h.2.2.2 flag nxt hnext)⟩
  | sleep chan =>
      cases chan with
      | free => exact ⟨h.1, h.2.1, h.2.2.1, h.2.2.2.1, hpost _ _ h.2.2.2.2⟩
      | buf b => exact ⟨h.1, h.2.1, h.2.2.1, h.2.2.2.1, hpost _ _ h.2.2.2.2⟩
  | format b write i j k => exact ⟨h.1, h.2.1, h.2.2.1, h.2.2.2.1, hpost _ _ h.2.2.2.2⟩
  | setAvail i => exact ⟨h.1, h.2.1, h.2.2.1, hpost _ _ h.2.2.2⟩
  | advanceAvail => exact ⟨h.1, h.2.1, hpost _ _ h.2.2⟩
  | notify => exact hpost _ _ h
  | onDisk b => exact ⟨h.1, h.2.1, h.2.2.1, hpost _ _ h.2.2.2.1, hpost _ _ h.2.2.2.2⟩
  | clearInfo i => exact ⟨h.1, h.2.1, h.2.2.1, hpost _ _ h.2.2.2⟩
  | finish => exact ⟨h.1, h.2.1, h.2.2.1, hpost _ _ h.2.2.2⟩
  | unseen => exact ⟨h.1, hpost _ _ h.2.1, hpost _ _ h.2.2⟩
  | complete => exact ⟨h.1, h.2.1, h.2.2.1, hpost _ _ h.2.2.2⟩
  | rounds => exact fun rounds => hpost _ _ (h rounds)
  | stop => trivial

variable {ghost : Ghost β}

theorem freeAll_spec {idx : List Nat} : ∀ {ghost : Ghost β} {spare : List Nat}, ghost.holds = true →
    ghost.stage = .called → ghost.own = idx → ghost.spare = some spare →
    (idx.forM fun j => perform (.freeDesc j) : Code β PUnit).wp rule ghost fun _ after =>
      ∃ spare', spare'.length = spare.length + idx.length ∧
        after = { ghost with own := [], spare := some spare' } := by
  induction idx with
  | nil =>
      intro ghost spare _ _ hown hspare
      refine ⟨spare, rfl, ?_⟩
      rw [← hown, ← hspare]
  | cons j rest ih =>
      intro ghost spare hholds hstage hown hspare
      refine ⟨hholds, Or.inl ⟨hstage, hown ▸ List.mem_cons_self⟩, ?_⟩
      have hown' : ghost.own.erase j = rest := by rw [hown, List.erase_cons_head]
      have hspare' : ghost.spare.map (j :: ·) = some (j :: spare) := by rw [hspare]; rfl
      rw [hown', hspare']
      refine Program.wp_mono rule_monotone ?_ (ih hholds hstage rfl rfl)
      rintro _ _ ⟨spare', hlength, rfl⟩
      refine ⟨spare', ?_, rfl⟩
      rw [hlength, List.length_cons, List.length_cons, Nat.add_assoc, Nat.add_comm 1]

theorem alloc3From_spec {left : Nat} : ∀ {idx : List Nat} {ghost : Ghost β}, ghost.holds = true →
    ghost.stage = .called → ghost.own = idx → ghost.spare = none → idx.length + left = 3 →
    (alloc3From left idx : Code β (Option (List Nat))).wp rule ghost fun got after =>
      (∃ idx', got = some idx' ∧ idx'.length = 3 ∧ after = { ghost with own := idx' }) ∨
        ∃ spare, got = none ∧ spare.length < 3 ∧ after = { ghost with own := [], spare := some spare } := by
  induction left with
  | zero =>
      intro idx ghost _ _ hown _ hlength
      exact Or.inl ⟨idx, rfl, hlength, by rw [← hown]⟩
  | succ left ih =>
      intro idx ghost hholds hstage hown hspare hlength
      refine ⟨hholds, hstage, fun i => ?_, ?_⟩
      · refine Program.wp_mono rule_monotone ?_ (ih hholds hstage ?_ hspare ?_)
        · rintro got after (⟨idx', rfl, hlength', rfl⟩ | ⟨spare, rfl, hlength', rfl⟩)
          · exact Or.inl ⟨idx', rfl, hlength', rfl⟩
          · exact Or.inr ⟨spare, rfl, hlength', rfl⟩
        · rw [hown]
        · rw [List.length_append, List.length_singleton]
          omega
      · change ((idx.forM fun j => perform (.freeDesc j)) >>= fun _ => pure none :
          Code β (Option (List Nat))).wp rule _ _
        have hfree := @freeAll_spec β idx { ghost with spare := some [] } [] hholds hstage hown rfl
        apply Program.wp_seq rule_monotone hfree
        rintro _ _ ⟨spare', hlength', rfl⟩
        refine Or.inr ⟨spare', rfl, ?_, rfl⟩
        rw [hlength', List.length_nil]
        omega

theorem allocate_spec {b : β} {write : Bool} {ghost : Ghost β} (rounds : Nat)
    (hghost : ghost = { Ghost.begun b write with holds := true }) :
    (allocate rounds : Code β (List Nat)).wp rule ghost fun idx after =>
      idx.length = 3 ∧ after = { ghost with own := idx } := by
  induction rounds with
  | zero => trivial
  | succ rounds ih =>
      have halloc := @alloc3From_spec β 3 [] { Ghost.begun b write with holds := true } rfl rfl rfl rfl rfl
      subst hghost
      change (alloc3From 3 [] >>= fun idx => _ : Code β (List Nat)).wp rule _ _
      apply Program.wp_seq rule_monotone halloc
      rintro got _ (⟨idx', rfl, hlength, rfl⟩ | ⟨spare, rfl, hlength, rfl⟩)
      · exact ⟨hlength, rfl⟩
      · exact ⟨rfl, rfl, rfl, ⟨spare, rfl, hlength⟩, rfl, ih⟩

theorem await_spec {b : β} {write : Bool} {ghost : Ghost β} (rounds : Nat) (hholds : ghost.holds = true)
    (hstage : ghost.stage = .sent) (hcall : ghost.call = some (b, write)) (hspare : ghost.spare = none)
    (honDisk : ghost.onDisk = false) (hunseen : ghost.unseen = false) :
    (await b rounds : Code β Unit).wp rule ghost fun _ after => after = { ghost with stage := .answered } := by
  induction rounds with
  | zero => trivial
  | succ rounds ih =>
      refine ⟨hholds, hstage, ⟨write, hcall⟩, ?_, rfl⟩
      refine ⟨hholds, hstage, ⟨write, hcall⟩, rfl, rfl, ?_⟩
      have hback : ({ ({ ghost with onDisk := true } : Ghost β).leave with holds := true } : Ghost β) =
          ghost := by
        obtain ⟨_, _, _, _, _, _, _⟩ := ghost
        subst hholds hspare honDisk hunseen
        rfl
      rw [hback]
      exact ih

theorem freeChain_spec {rounds : Nat} : ∀ {i : Nat} {ghost : Ghost β}, ghost.holds = true →
    ghost.stage = .answered → ghost.own.head? = some i → ghost.spare = none →
    (freeChain rounds i : Code β Unit).wp rule ghost fun _ after => after = { ghost with own := [] } := by
  induction rounds with
  | zero =>
      intro i ghost _ _ _ _
      trivial
  | succ rounds ih =>
      intro i ghost hholds hstage hhead hspare
      obtain ⟨rest, hown⟩ := List.head?_eq_some_iff.mp hhead
      refine ⟨hholds, hstage, hhead, fun flag nxt hnext => ⟨hholds, Or.inr ⟨hstage, hhead⟩, ?_⟩⟩
      have hown' : ghost.own.erase i = rest := by rw [hown, List.erase_cons_head]
      have hspare' : ghost.spare.map (i :: ·) = none := by rw [hspare]; rfl
      rw [hown, List.tail_cons] at hnext
      rw [hown', hspare']
      change (if flag &&& descFNext ≠ 0 then freeChain rounds nxt else pure () : Code β Unit).wp rule _ _
      split at hnext
      · next hflag =>
          rw [if_pos hflag]
          refine Program.wp_mono rule_monotone ?_ (ih hholds hstage hnext rfl)
          rintro _ _ rfl
          rw [← hspare]
      · next hflag =>
          rw [if_neg hflag]
          change _ = _
          rw [hnext, ← hspare]

theorem virtioDiskRw_spec (b : β) (write : Bool) :
    (virtioDiskRw b write : Code β Unit).wp rule (.begun b write) fun _ after => after = .idle := by
  refine ⟨rfl, fun rounds => ?_⟩
  change (allocate rounds >>= fun idx => _ : Code β Unit).wp rule _ _
  apply Program.wp_seq rule_monotone (allocate_spec rounds rfl)
  rintro idx _ ⟨hlength, rfl⟩
  obtain ⟨i, j, k, rfl⟩ := List.length_eq_three.mp hlength
  refine ⟨rfl, rfl, rfl, rfl, rfl, rfl, rfl, rfl, rfl, fun rounds => ?_⟩
  change (await b rounds >>= fun _ => _ : Code β Unit).wp rule _ _
  apply Program.wp_seq rule_monotone (await_spec rounds rfl rfl rfl rfl rfl rfl)
  rintro _ _ rfl
  refine ⟨rfl, rfl, rfl, fun rounds => ?_⟩
  change (freeChain rounds i >>= fun _ => _ : Code β Unit).wp rule _ _
  apply Program.wp_seq rule_monotone (freeChain_spec rfl rfl rfl rfl)
  rintro _ _ rfl
  exact ⟨rfl, rfl, rfl, rfl, rfl, rfl⟩

theorem completeFrom_spec {ghost : Ghost β} (rounds : Nat) (hholds : ghost.holds = true)
    (honDisk : ghost.onDisk = false) (hunseen : ghost.unseen = false) :
    (completeFrom rounds : Code β Unit).wp rule ghost fun _ after => after = ghost := by
  induction rounds with
  | zero => trivial
  | succ rounds ih =>
      refine ⟨hholds, ⟨hholds, rfl, honDisk, ?_⟩, rfl⟩
      have hback : ({ ghost with unseen := false } : Ghost β) = ghost := by rw [← hunseen]
      change (completeFrom rounds : Code β Unit).wp rule { ghost with unseen := false } _
      rw [hback]
      exact ih

theorem virtioDiskIntr_spec :
    (virtioDiskIntr : Code β Unit).wp rule .idle fun _ after => after = .idle := by
  refine ⟨rfl, fun rounds => ?_⟩
  change (completeFrom rounds >>= fun _ => _ : Code β Unit).wp rule _ _
  apply Program.wp_seq rule_monotone (completeFrom_spec rounds rfl rfl rfl)
  rintro _ _ rfl
  exact ⟨rfl, rfl, rfl⟩

end Specs

end Xv6.Virtio
