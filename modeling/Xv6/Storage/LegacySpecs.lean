import Xv6.Storage.Legacy
import Xv6.Storage.Sharing

/-!
# What the legacy functions do with the buffers they use

Each function is specified against a reading of the sections that only speaks about the calling
process: its share of the cache, which buffers it has changed and not logged yet, and whether it is
in a transaction.
-/

namespace Xv6.Legacy

inductive Role where
  | outside
  | inTrans
  | committing
  deriving DecidableEq

structure Ghost (n : Nat) (D : Type) where
  share : Share n (Content D)
  modified : Finset (Fin n)
  role : Role

variable {n : Nat} {D : Type} {conf : Config D}

def Ghost.Loose (conf : Config D) (ghost : Ghost n D) (b : Fin n) : Prop :=
  conf.InLog (ghost.share.key b).2 ∨ ghost.role = .committing

/-- The sections as transformers of the ghost state of the process that takes them. -/
def rule (conf : Config D) : Rule (sections n D) (Ghost n D)
  | .bget dev blockno, ghost, post =>
      ∀ b, post b { ghost with share := ghost.share.get b (dev, blockno) }
  | .acquiresleep b, ghost, post =>
      0 < ghost.share.pending b ∧ ∀ content, b ∉ ghost.share.locked →
        post () { ghost with share := ghost.share.lock b content }
  | .holdingsleep b, ghost, post => b ∈ ghost.share.locked ∧ post true ghost
  | .releasesleep b, ghost, post =>
      b ∈ ghost.share.locked ∧ b ∉ ghost.modified ∧
        post () { ghost with share := ghost.share.unlock b }
  | .unuse b, ghost, post =>
      0 < ghost.share.pending b ∧ post () { ghost with share := ghost.share.drop b }
  | .key b, ghost, post => b ∈ ghost.share.locked ∧ post (ghost.share.key b) ghost
  | .content b, ghost, post => b ∈ ghost.share.locked ∧ post (ghost.share.content b) ghost
  | .setContent b content, ghost, post =>
      b ∈ ghost.share.locked ∧
        (((ghost.share.content b).valid = false ∨ ghost.Loose conf b) ∧
            post () { ghost with share := ghost.share.store b content } ∨
          ghost.role = .inTrans ∧ content.valid = (ghost.share.content b).valid ∧
            content.dirty = (ghost.share.content b).dirty ∧
            post () { ghost with
              share := ghost.share.store b content
              modified := insert b ghost.modified })
  | .readSector _, ghost, post => ∀ data, post data ghost
  | .writeSector _ _, ghost, post => post () ghost
  | .beginTrans, ghost, post => ghost.role = .outside ∧ post () { ghost with role := .inTrans }
  | .busy, ghost, post => ∀ busy, post busy ghost
  | .lh, ghost, post => ∀ lh, post lh ghost
  | .setSector _ _, ghost, post => post () ghost
  | .setN _, ghost, post => post () ghost
  | .logged b, ghost, post =>
      ghost.role = .inTrans ∧ b ∈ ghost.share.locked ∧ (ghost.share.content b).valid = true ∧
        (ghost.share.key b).1 = rootDev ∧ ¬conf.InLog (ghost.share.key b).2 ∧
        post () { ghost with
          share := ghost.share.store b { ghost.share.content b with dirty := true }
          modified := ghost.modified.erase b }
  | .committing, ghost, post =>
      ghost.role = .inTrans ∧ ∀ lh, post lh { ghost with role := .committing }
  | .endTrans, ghost, post => ghost.role = .committing ∧ post () { ghost with role := .outside }
  | .panic _, _, _ => True

theorem rule_monotone : (rule conf : Rule (sections n D) (Ghost n D)).Monotone := by
  intro op ghost post post' hpost hrule
  cases op with
  | bget dev blockno => exact fun b => hpost _ _ (hrule b)
  | acquiresleep b => exact ⟨hrule.1, fun content hfree => hpost _ _ (hrule.2 content hfree)⟩
  | holdingsleep b => exact ⟨hrule.1, hpost _ _ hrule.2⟩
  | releasesleep b => exact ⟨hrule.1, hrule.2.1, hpost _ _ hrule.2.2⟩
  | unuse b => exact ⟨hrule.1, hpost _ _ hrule.2⟩
  | key b => exact ⟨hrule.1, hpost _ _ hrule.2⟩
  | content b => exact ⟨hrule.1, hpost _ _ hrule.2⟩
  | setContent b content =>
      obtain ⟨hlocked, ⟨hsettled, hnext⟩ | ⟨hrole, hvalid, hdirty, hnext⟩⟩ := hrule
      · exact ⟨hlocked, Or.inl ⟨hsettled, hpost _ _ hnext⟩⟩
      · exact ⟨hlocked, Or.inr ⟨hrole, hvalid, hdirty, hpost _ _ hnext⟩⟩
  | readSector blockno => exact fun data => hpost _ _ (hrule data)
  | writeSector blockno data => exact hpost _ _ hrule
  | beginTrans => exact ⟨hrule.1, hpost _ _ hrule.2⟩
  | busy => exact fun busy => hpost _ _ (hrule busy)
  | lh => exact fun lh => hpost _ _ (hrule lh)
  | setSector i blockno => exact hpost _ _ hrule
  | setN n => exact hpost _ _ hrule
  | logged b =>
      obtain ⟨hrole, hlocked, hvalid, hdev, hhome, hnext⟩ := hrule
      exact ⟨hrole, hlocked, hvalid, hdev, hhome, hpost _ _ hnext⟩
  | committing => exact ⟨hrule.1, fun lh => hpost _ _ (hrule.2 lh)⟩
  | endTrans => exact ⟨hrule.1, hpost _ _ hrule.2⟩
  | panic message => trivial

section Wp

variable (ghost : Ghost n D) (b : Fin n)

@[simp]
theorem wp_bget (dev blockno : Nat) (post : Fin n → Ghost n D → Prop) :
    (bget dev blockno).wp (rule conf) ghost post ↔
      ∀ b, post b { ghost with share := ghost.share.get b (dev, blockno) } := Iff.rfl

@[simp]
theorem wp_acquiresleep (post : Unit → Ghost n D → Prop) :
    (acquiresleep b).wp (rule conf) ghost post ↔
      0 < ghost.share.pending b ∧ ∀ content, b ∉ ghost.share.locked →
        post () { ghost with share := ghost.share.lock b content } := Iff.rfl

@[simp]
theorem wp_holdingsleep (post : Bool → Ghost n D → Prop) :
    (holdingsleep b).wp (rule conf) ghost post ↔ b ∈ ghost.share.locked ∧ post true ghost := Iff.rfl

@[simp]
theorem wp_releasesleep (post : Unit → Ghost n D → Prop) :
    (releasesleep b).wp (rule conf) ghost post ↔
      b ∈ ghost.share.locked ∧ b ∉ ghost.modified ∧
        post () { ghost with share := ghost.share.unlock b } := Iff.rfl

@[simp]
theorem wp_unuse (post : Unit → Ghost n D → Prop) :
    (unuse b).wp (rule conf) ghost post ↔
      0 < ghost.share.pending b ∧ post () { ghost with share := ghost.share.drop b } := Iff.rfl

@[simp]
theorem wp_key (post : Nat × Nat → Ghost n D → Prop) :
    (key b).wp (rule conf) ghost post ↔
      b ∈ ghost.share.locked ∧ post (ghost.share.key b) ghost := Iff.rfl

@[simp]
theorem wp_content (post : Content D → Ghost n D → Prop) :
    (content b).wp (rule conf) ghost post ↔
      b ∈ ghost.share.locked ∧ post (ghost.share.content b) ghost := Iff.rfl

@[simp]
theorem wp_readSector (blockno : Nat) (post : D → Ghost n D → Prop) :
    (readSector blockno).wp (rule conf) ghost post ↔ ∀ data, post data ghost := Iff.rfl

@[simp]
theorem wp_writeSector (blockno : Nat) (data : D) (post : Unit → Ghost n D → Prop) :
    (writeSector blockno data).wp (rule conf) ghost post ↔ post () ghost := Iff.rfl

@[simp]
theorem wp_busy (post : Bool → Ghost n D → Prop) :
    busy.wp (rule conf) ghost post ↔ ∀ busy, post busy ghost := Iff.rfl

@[simp]
theorem wp_lh (post : Logheader → Ghost n D → Prop) :
    lh.wp (rule conf) ghost post ↔ ∀ lh, post lh ghost := Iff.rfl

@[simp]
theorem wp_setSector (i blockno : Nat) (post : Unit → Ghost n D → Prop) :
    (setSector i blockno).wp (rule conf) ghost post ↔ post () ghost := Iff.rfl

@[simp]
theorem wp_setN (count : Nat) (post : Unit → Ghost n D → Prop) :
    (setN count).wp (rule conf) ghost post ↔ post () ghost := Iff.rfl

@[simp]
theorem wp_setContent (content : Content D) (post : Unit → Ghost n D → Prop) :
    (setContent b content).wp (rule conf) ghost post ↔ b ∈ ghost.share.locked ∧
      (((ghost.share.content b).valid = false ∨ ghost.Loose conf b) ∧
          post () { ghost with share := ghost.share.store b content } ∨
        ghost.role = .inTrans ∧ content.valid = (ghost.share.content b).valid ∧
          content.dirty = (ghost.share.content b).dirty ∧
          post () { ghost with
            share := ghost.share.store b content
            modified := insert b ghost.modified }) := Iff.rfl

@[simp]
theorem wp_beginTrans (post : Unit → Ghost n D → Prop) :
    beginTrans.wp (rule conf) ghost post ↔
      ghost.role = .outside ∧ post () { ghost with role := .inTrans } := Iff.rfl

@[simp]
theorem wp_logged (post : Unit → Ghost n D → Prop) :
    (logged b).wp (rule conf) ghost post ↔
      ghost.role = .inTrans ∧ b ∈ ghost.share.locked ∧ (ghost.share.content b).valid = true ∧
        (ghost.share.key b).1 = rootDev ∧ ¬conf.InLog (ghost.share.key b).2 ∧
        post () { ghost with
          share := ghost.share.store b { ghost.share.content b with dirty := true }
          modified := ghost.modified.erase b } := Iff.rfl

@[simp]
theorem wp_committing (post : Logheader → Ghost n D → Prop) :
    committing.wp (rule conf) ghost post ↔
      ghost.role = .inTrans ∧ ∀ lh, post lh { ghost with role := .committing } := Iff.rfl

@[simp]
theorem wp_endTrans (post : Unit → Ghost n D → Prop) :
    endTrans.wp (rule conf) ghost post ↔
      ghost.role = .committing ∧ post () { ghost with role := .outside } := Iff.rfl

end Wp

@[simp]
theorem wp_panic {α : Type} (message : String) (ghost : Ghost n D)
    (post : α → Ghost n D → Prop) : (panic message : Code n D α).wp (rule conf) ghost post := trivial

@[simp]
theorem wp_panicIf (bad : Prop) [Decidable bad] (message : String) (ghost : Ghost n D)
    (post : Unit → Ghost n D → Prop) :
    (panicIf bad message : Code n D Unit).wp (rule conf) ghost post ↔ (¬bad → post () ghost) := by
  simp [panicIf]

/-! ### Specifications -/

structure Ghost.Keeps (ghost after : Ghost n D) : Prop where
  share : ghost.share.Keeps after.share
  modified : after.modified = ghost.modified
  role : after.role = ghost.role

theorem Ghost.Keeps.refl (ghost : Ghost n D) : ghost.Keeps ghost := ⟨.refl _, rfl, rfl⟩

theorem Ghost.Keeps.trans {first second third : Ghost n D} (h : first.Keeps second)
    (h' : second.Keeps third) : first.Keeps third :=
  ⟨h.share.trans h'.share, h'.modified.trans h.modified, h'.role.trans h.role⟩

structure Ghost.Takes (ghost : Ghost n D) (b : Fin n) (key : Nat × Nat) (content : Content D)
    (after : Ghost n D) : Prop where
  share : ghost.share.Takes b key content after.share
  modified : after.modified = ghost.modified
  role : after.role = ghost.role

theorem iderw_spec {ghost : Ghost n D} {b : Fin n} (hlocked : b ∈ ghost.share.locked)
    (hfree : (ghost.share.content b).valid = false ∨ ghost.Loose conf b) :
    (iderw conf b).wp (rule conf) ghost fun _ after => ∃ data,
      after = { ghost with share := ghost.share.store b ⟨true, false, data⟩ } := by
  simp only [iderw, Program.wp_bind, Program.wp_ite, wp_panicIf, wp_holdingsleep, wp_content,
    wp_key, wp_writeSector, wp_readSector, hlocked, true_and]
  intro _ _ _ _
  split
  · exact ⟨hlocked, Or.inl ⟨hfree, _, rfl⟩⟩
  · exact fun data => ⟨hlocked, Or.inl ⟨hfree, data, rfl⟩⟩

theorem bread_spec (ghost : Ghost n D) (dev blockno : Nat) :
    (bread conf dev blockno).wp (rule conf) ghost fun b after => ∃ content,
      content.valid = true ∧ ghost.Takes b (dev, blockno) content after := by
  simp only [bread, Program.wp_bind, wp_bget, wp_acquiresleep, wp_content]
  intro b
  refine ⟨by simp [Share.get], fun content hfree => ⟨Finset.mem_insert_self _ _, ?_⟩⟩
  have hnew : b ∉ ghost.share.locked := hfree
  have htakes := Share.Takes.get_lock hnew (dev, blockno) content
  rw [Program.wp_when]
  constructor
  · intro hinvalid
    refine Program.wp_mono rule_monotone ?_ (iderw_spec htakes.mem (Or.inl ?_))
    · rintro _ _ ⟨data, rfl⟩
      exact ⟨_, rfl, htakes.store _, rfl, rfl⟩
    · simpa using hinvalid
  · intro hvalid
    refine ⟨content, ?_, htakes, rfl, rfl⟩
    rw [htakes.content_self] at hvalid
    simpa using hvalid

theorem brelse_spec {ghost : Ghost n D} {b : Fin n} (hlocked : b ∈ ghost.share.locked)
    (hmodified : b ∉ ghost.modified) :
    (brelse b).wp (rule conf) ghost fun _ after =>
      after = { ghost with share := (ghost.share.unlock b).drop b } := by
  simp only [brelse, Program.wp_bind, wp_holdingsleep, wp_panicIf, wp_releasesleep, wp_unuse]
  refine ⟨hlocked, fun _ => ⟨hlocked, hmodified, ?_, trivial⟩⟩
  simp [Share.unlock]

theorem brelse_takes {ghost after : Ghost n D} {b : Fin n} {key : Nat × Nat} {content : Content D}
    (htakes : ghost.Takes b key content after) (hmodified : ghost.modified ⊆ ghost.share.locked) :
    (brelse b).wp (rule conf) after fun _ done => ghost.Keeps done := by
  refine Program.wp_mono rule_monotone ?_ (brelse_spec htakes.share.mem ?_)
  · rintro _ _ rfl
    exact ⟨htakes.share.release, htakes.modified, htakes.role⟩
  · rw [htakes.modified]
    exact fun hmem => htakes.share.free (hmodified hmem)

theorem setData_loose {ghost : Ghost n D} {b : Fin n} (hlocked : b ∈ ghost.share.locked)
    (hloose : ghost.Loose conf b) (data : D) :
    (setData b data).wp (rule conf) ghost fun _ after => ∃ content,
      after = { ghost with share := ghost.share.store b content } := by
  simp only [setData, Program.wp_bind, wp_content, wp_setContent, hlocked, true_and]
  exact Or.inl ⟨Or.inr hloose, _, rfl⟩

theorem bwrite_loose {ghost : Ghost n D} {b : Fin n} (hlocked : b ∈ ghost.share.locked)
    (hloose : ghost.Loose conf b) :
    (bwrite conf b).wp (rule conf) ghost fun _ after => ∃ content,
      after = { ghost with share := ghost.share.store b content } := by
  simp only [bwrite, Program.wp_bind, wp_holdingsleep, wp_panicIf, wp_content, wp_setContent,
    hlocked, true_and]
  refine fun _ => Or.inl ⟨Or.inr hloose, ?_⟩
  refine Program.wp_mono rule_monotone ?_ (iderw_spec hlocked (Or.inr hloose))
  rintro _ _ ⟨data, rfl⟩
  refine ⟨⟨true, false, data⟩, ?_⟩
  simp [Share.store]

theorem Ghost.Takes.loose {ghost after : Ghost n D} {b : Fin n} {key : Nat × Nat}
    {content : Content D} (h : ghost.Takes b key content after)
    (hloose : conf.InLog key.2 ∨ ghost.role = .committing) : after.Loose conf b := by
  obtain hlog | hrole := hloose
  · exact Or.inl (h.share.key_self ▸ hlog)
  · exact Or.inr (h.role.trans hrole)

theorem setData_takes {ghost after : Ghost n D} {b : Fin n} {key : Nat × Nat}
    {content : Content D} (htakes : ghost.Takes b key content after)
    (hloose : conf.InLog key.2 ∨ ghost.role = .committing) (data : D) :
    (setData b data).wp (rule conf) after fun _ done => ∃ content, ghost.Takes b key content done := by
  refine Program.wp_mono rule_monotone ?_ (setData_loose htakes.share.mem (htakes.loose hloose) data)
  rintro _ _ ⟨content', rfl⟩
  exact ⟨content', htakes.share.store content', htakes.modified, htakes.role⟩

theorem bwrite_takes {ghost after : Ghost n D} {b : Fin n} {key : Nat × Nat}
    {content : Content D} (htakes : ghost.Takes b key content after)
    (hloose : conf.InLog key.2 ∨ ghost.role = .committing) :
    (bwrite conf b).wp (rule conf) after fun _ done => ∃ content, ghost.Takes b key content done := by
  refine Program.wp_mono rule_monotone ?_ (bwrite_loose htakes.share.mem (htakes.loose hloose))
  rintro _ _ ⟨content', rfl⟩
  exact ⟨content', htakes.share.store content', htakes.modified, htakes.role⟩

theorem writeHead_spec {ghost : Ghost n D} (hrole : ghost.role = .committing)
    (hmodified : ghost.modified ⊆ ghost.share.locked) :
    (writeHead conf).wp (rule conf) ghost fun _ after => ghost.Keeps after := by
  unfold writeHead
  refine Program.wp_seq rule_monotone (bread_spec ghost _ _) ?_
  rintro buf ghost₁ ⟨content, -, htakes₁⟩
  simp only [Program.wp_bind, wp_lh, wp_content]
  refine fun lh => ⟨htakes₁.share.mem, ?_⟩
  refine Program.wp_mono rule_monotone ?_ (setData_takes htakes₁ (Or.inr hrole) _)
  rintro _ ghost₂ ⟨content₂, htakes₂⟩
  refine Program.wp_mono rule_monotone ?_ (bwrite_takes htakes₂ (Or.inr hrole))
  rintro _ ghost₃ ⟨content₃, htakes₃⟩
  exact brelse_takes htakes₃ hmodified

theorem installTrans_spec {ghost : Ghost n D} (lh : Logheader) (hrole : ghost.role = .committing)
    (hmodified : ghost.modified ⊆ ghost.share.locked) :
    (installTrans conf lh).wp (rule conf) ghost fun _ after => ghost.Keeps after := by
  refine Program.wp_forM rule_monotone (Ghost.Keeps.refl ghost) fun tail _ ghost₀ hkeeps => ?_
  have hrole₀ : ghost₀.role = .committing := hkeeps.role.trans hrole
  have hmodified₀ : ghost₀.modified ⊆ ghost₀.share.locked := by
    rwa [hkeeps.modified, hkeeps.share.locked]
  refine Program.wp_seq rule_monotone (bread_spec ghost₀ _ _) ?_
  rintro lbuf ghost₁ ⟨content₁, -, htakes₁⟩
  have hrole₁ : ghost₁.role = .committing := htakes₁.role.trans hrole₀
  refine Program.wp_seq rule_monotone (bread_spec ghost₁ _ _) ?_
  rintro dbuf ghost₂ ⟨content₂, -, htakes₂⟩
  simp only [Program.wp_bind, wp_content]
  refine ⟨htakes₂.share.mem_of_mem htakes₁.share.mem, ?_⟩
  refine Program.wp_mono rule_monotone ?_ (setData_takes htakes₂ (Or.inr hrole₁) _)
  rintro _ ghost₃ ⟨content₃, htakes₃⟩
  refine Program.wp_mono rule_monotone ?_ (bwrite_takes htakes₃ (Or.inr hrole₁))
  rintro _ ghost₄ ⟨content₄, htakes₄⟩
  have hlbuf : lbuf ∈ ghost₄.share.locked := htakes₄.share.mem_of_mem htakes₁.share.mem
  have hclean : lbuf ∉ ghost₄.modified := by
    rw [htakes₄.modified, htakes₁.modified]
    exact fun hmem => htakes₁.share.free (hmodified₀ hmem)
  refine Program.wp_mono rule_monotone ?_ (brelse_spec hlbuf hclean)
  rintro _ ghost₅ rfl
  have hlast : ghost₀.Takes dbuf (rootDev, lh.sector tail) content₄
      { ghost₄ with share := (ghost₄.share.unlock lbuf).drop lbuf } :=
    ⟨htakes₁.share.release_first htakes₄.share, htakes₄.modified.trans htakes₁.modified,
      htakes₄.role.trans htakes₁.role⟩
  refine Program.wp_mono rule_monotone ?_ (brelse_takes hlast hmodified₀)
  exact fun _ _ hkeeps' => hkeeps.trans hkeeps'

theorem commitTrans_spec {ghost : Ghost n D} (hrole : ghost.role = .inTrans)
    (hmodified : ghost.modified ⊆ ghost.share.locked) :
    (commitTrans conf).wp (rule conf) ghost fun _ after =>
      Ghost.Keeps { ghost with role := .outside } after := by
  simp only [commitTrans, Program.wp_bind, wp_committing, Program.wp_when, wp_setN, wp_endTrans]
  refine ⟨hrole, fun lh => ⟨fun _ => ?_, fun _ => ⟨trivial, Ghost.Keeps.refl _⟩⟩⟩
  have hcommitting : ({ ghost with role := .committing } : Ghost n D).role = .committing := rfl
  refine Program.wp_mono rule_monotone ?_ (writeHead_spec hcommitting hmodified)
  intro _ ghost₁ hkeeps₁
  have hmodified₁ : ghost₁.modified ⊆ ghost₁.share.locked := by
    rwa [hkeeps₁.modified, hkeeps₁.share.locked]
  refine Program.wp_mono rule_monotone ?_ (installTrans_spec lh hkeeps₁.role hmodified₁)
  intro _ ghost₂ hkeeps₂
  have hmodified₂ : ghost₂.modified ⊆ ghost₂.share.locked := by
    rwa [hkeeps₂.modified, hkeeps₂.share.locked]
  have hkeeps := hkeeps₁.trans hkeeps₂
  refine Program.wp_mono rule_monotone ?_ (writeHead_spec hkeeps.role hmodified₂)
  intro _ ghost₃ hkeeps₃
  have hdone := hkeeps.trans hkeeps₃
  exact ⟨hdone.role, hdone.share, hdone.modified, rfl⟩

theorem Logheader.slot_le (lh : Logheader) (blockno : Nat) : lh.slot blockno ≤ lh.n := by
  unfold Logheader.slot
  cases hfound : (List.range lh.n).find? fun i => lh.sector i = blockno with
  | none => simp
  | some i =>
      have hmem := List.mem_of_find?_eq_some hfound
      simpa using (List.mem_range.mp hmem).le

theorem logWrite_spec {ghost : Ghost n D} {b : Fin n} (hrole : ghost.role = .inTrans)
    (hmodified : ghost.modified ⊆ ghost.share.locked) (hlocked : b ∈ ghost.share.locked)
    (hvalid : (ghost.share.content b).valid = true) (hdev : (ghost.share.key b).1 = rootDev)
    (hhome : ¬conf.InLog (ghost.share.key b).2) :
    (logWrite conf b).wp (rule conf) ghost fun _ after =>
      Ghost.Keeps { ghost with
        share := ghost.share.store b { ghost.share.content b with dirty := true }
        modified := ghost.modified.erase b } after := by
  simp only [logWrite, Program.wp_bind, wp_lh, wp_busy, wp_key, wp_panicIf, wp_setSector,
    wp_content, Program.wp_when, wp_setN]
  refine fun lh hroom busy _ => ⟨hlocked, ?_⟩
  have hlog : conf.InLog (conf.start + lh.slot (ghost.share.key b).2 + 1) := by
    have hslot := lh.slot_le (ghost.share.key b).2
    simp only [Config.InLog]
    omega
  refine Program.wp_mono rule_monotone ?_ (bread_spec ghost _ _)
  rintro lbuf ghost₁ ⟨content₁, -, htakes₁⟩
  refine ⟨htakes₁.share.mem_of_mem hlocked, ?_⟩
  refine Program.wp_mono rule_monotone ?_ (setData_takes htakes₁ (Or.inl hlog) _)
  rintro _ ghost₂ ⟨content₂, htakes₂⟩
  refine Program.wp_mono rule_monotone ?_ (bwrite_takes htakes₂ (Or.inl hlog))
  rintro _ ghost₃ ⟨content₃, htakes₃⟩
  refine Program.wp_mono rule_monotone ?_ (brelse_takes htakes₃ hmodified)
  intro _ ghost₄ hkeeps
  have hcontent := hkeeps.share.content b hlocked
  have hkey := hkeeps.share.key b hlocked
  have hlogged : ∀ (post : Unit → Ghost n D → Prop),
      post () { ghost₄ with
        share := ghost₄.share.store b { ghost₄.share.content b with dirty := true }
        modified := ghost₄.modified.erase b } → (logged b).wp (rule conf) ghost₄ post := by
    intro post hpost
    rw [wp_logged, hkey, hcontent]
    rw [hcontent] at hpost
    exact ⟨hkeeps.role.trans hrole, hkeeps.share.locked ▸ hlocked, hvalid, hdev, hhome, hpost⟩
  have hdone : Ghost.Keeps { ghost with
      share := ghost.share.store b { ghost.share.content b with dirty := true }
      modified := ghost.modified.erase b } { ghost₄ with
        share := ghost₄.share.store b { ghost₄.share.content b with dirty := true }
        modified := ghost₄.modified.erase b } := by
    refine ⟨?_, congrArg (fun modified : Finset (Fin n) => modified.erase b) hkeeps.modified,
      hkeeps.role⟩
    rw [hcontent]
    exact hkeeps.share.store b _
  exact ⟨fun _ => hlogged _ hdone, fun _ => hlogged _ hdone⟩

end Xv6.Legacy
