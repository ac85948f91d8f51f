import Xv6.Storage.LegacyJournal

/-!
# What the functions of the legacy log do for their caller

The sections are read as transformers of what the calling process has and knows: its share of the
cache, the journal if it owns the log, and whether it runs.
-/

set_option linter.unusedSectionVars false

namespace Xv6.Legacy.Recovery

open Xv6.Kernel (base)

variable {n : Nat} {D : Type} {disk : Disk D} {init : Nat → D}

structure Ghost (n : Nat) (D : Type) where
  share : Share n (Content D)
  journal : Option (Journal D)
  /-- It runs system calls. -/
  runs : Bool

structure Settled (disk : Disk D) (journal : Option (Journal D)) (key : Nat × Nat)
    (content : Content D) : Prop where
  dirty : content.dirty = true → content.valid = true
  dev : content.valid = true → key.1 = rootDev
  log : ∀ known, journal = some known → disk.log.InLog key.2 → content.valid = true →
    content.data = known.memdisk key.2

/-- The sections as transformers of the ghost state of the process that takes them. -/
def rule (disk : Disk D) (init : Nat → D) : Rule (sections n D) (Ghost n D)
  | .bget dev blockno, ghost, post =>
      dev = rootDev ∧ ∀ b, post b { ghost with share := ghost.share.get b (dev, blockno) }
  | .acquiresleep b, ghost, post =>
      0 < ghost.share.pending b ∧
        (disk.log.InLog (ghost.share.key b).2 → ghost.journal.isSome = true) ∧
        ∀ content, b ∉ ghost.share.locked →
          Settled disk ghost.journal (ghost.share.key b) content →
            post () { ghost with share := ghost.share.lock b content }
  | .holdingsleep b, ghost, post => b ∈ ghost.share.locked ∧ post true ghost
  | .releasesleep b, ghost, post =>
      b ∈ ghost.share.locked ∧
        Settled disk ghost.journal (ghost.share.key b) (ghost.share.content b) ∧
        post () { ghost with share := ghost.share.unlock b }
  | .unuse b, ghost, post =>
      0 < ghost.share.pending b ∧ post () { ghost with share := ghost.share.drop b }
  | .key b, ghost, post => b ∈ ghost.share.locked ∧ post (ghost.share.key b) ghost
  | .content b, ghost, post => b ∈ ghost.share.locked ∧ post (ghost.share.content b) ghost
  | .setContent b content, ghost, post =>
      b ∈ ghost.share.locked ∧ post () { ghost with share := ghost.share.store b content }
  | .readSector blockno, ghost, post =>
      ∀ data, (∀ known, ghost.journal = some known → data = known.memdisk blockno) → post data ghost
  | .writeSector blockno data, ghost, post =>
      (∃ b ∈ ghost.share.locked, ghost.share.key b = (rootDev, blockno)) ∧
        ∃ journal, ghost.journal = some journal ∧
          (∃ lh, (journal.write disk blockno data).Recoverable disk init lh) ∧
          post () { ghost with journal := some (journal.write disk blockno data) }
  | .beginTrans, ghost, post =>
      ghost.runs = true ∧ ghost.journal = none ∧
        ∀ journal, journal.Quiet disk init → journal.current = [] →
          post () { ghost with journal := some journal }
  | .busy, ghost, post => ∀ busy, post busy ghost
  | .lh, ghost, post => ∃ journal, ghost.journal = some journal ∧ post journal.lh ghost
  | .setSector i blockno, ghost, post =>
      ∃ journal, ghost.journal = some journal ∧ post () { ghost with
        journal := some { journal with
          lh := { journal.lh with sector := Function.update journal.lh.sector i blockno } } }
  | .setN n, ghost, post =>
      ∃ journal, ghost.journal = some journal ∧ post () { ghost with
        journal := some { journal with lh := { journal.lh with n } } }
  | .logged b, ghost, post =>
      b ∈ ghost.share.locked ∧ ∃ journal, ghost.journal = some journal ∧ post () { ghost with
        share := ghost.share.store b { ghost.share.content b with dirty := true }
        journal := some { journal with
          current := journal.current ++
            [((ghost.share.key b).2, (ghost.share.content b).data)] } }
  | .committing, ghost, post => ∃ journal, ghost.journal = some journal ∧ post journal.lh ghost
  | .endTrans, ghost, post =>
      (∃ journal, ghost.journal = some journal ∧ journal.Quiet disk init) ∧
        (∀ b ∈ ghost.share.locked, ¬disk.log.InLog (ghost.share.key b).2) ∧
        post () { ghost with journal := none }
  | .panic _, _, _ => True

theorem rule_monotone : (rule disk init : Rule (sections n D) (Ghost n D)).Monotone := by
  intro op ghost post post' hpost hrule
  cases op with
  | bget dev blockno => exact ⟨hrule.1, fun b => hpost _ _ (hrule.2 b)⟩
  | acquiresleep b =>
      exact ⟨hrule.1, hrule.2.1, fun content hfree hsettled =>
        hpost _ _ (hrule.2.2 content hfree hsettled)⟩
  | holdingsleep b => exact ⟨hrule.1, hpost _ _ hrule.2⟩
  | releasesleep b => exact ⟨hrule.1, hrule.2.1, hpost _ _ hrule.2.2⟩
  | unuse b => exact ⟨hrule.1, hpost _ _ hrule.2⟩
  | key b => exact ⟨hrule.1, hpost _ _ hrule.2⟩
  | content b => exact ⟨hrule.1, hpost _ _ hrule.2⟩
  | setContent b content => exact ⟨hrule.1, hpost _ _ hrule.2⟩
  | readSector blockno => exact fun data hdata => hpost _ _ (hrule data hdata)
  | writeSector blockno data =>
      obtain ⟨hlocked, journal, hjournal, hrecoverable, hnext⟩ := hrule
      exact ⟨hlocked, journal, hjournal, hrecoverable, hpost _ _ hnext⟩
  | beginTrans =>
      exact ⟨hrule.1, hrule.2.1, fun journal hquiet hcurrent =>
        hpost _ _ (hrule.2.2 journal hquiet hcurrent)⟩
  | busy => exact fun busy => hpost _ _ (hrule busy)
  | lh | setSector i blockno | setN n | committing =>
      obtain ⟨journal, hjournal, hnext⟩ := hrule
      exact ⟨journal, hjournal, hpost _ _ hnext⟩
  | logged b =>
      obtain ⟨hlocked, journal, hjournal, hnext⟩ := hrule
      exact ⟨hlocked, journal, hjournal, hpost _ _ hnext⟩
  | endTrans => exact ⟨hrule.1, hrule.2.1, hpost _ _ hrule.2.2⟩
  | panic message => trivial

section Wp

variable (ghost : Ghost n D) (b : Fin n)

@[simp]
theorem wp_bget (dev blockno : Nat) (post : Fin n → Ghost n D → Prop) :
    (bget dev blockno).wp (rule disk init) ghost post ↔
      dev = rootDev ∧ ∀ b, post b { ghost with share := ghost.share.get b (dev, blockno) } :=
  Iff.rfl

@[simp]
theorem wp_acquiresleep (post : Unit → Ghost n D → Prop) :
    (acquiresleep b).wp (rule disk init) ghost post ↔
      0 < ghost.share.pending b ∧
        (disk.log.InLog (ghost.share.key b).2 → ghost.journal.isSome = true) ∧
        ∀ content, b ∉ ghost.share.locked →
          Settled disk ghost.journal (ghost.share.key b) content →
            post () { ghost with share := ghost.share.lock b content } := Iff.rfl

@[simp]
theorem wp_holdingsleep (post : Bool → Ghost n D → Prop) :
    (holdingsleep b).wp (rule disk init) ghost post ↔
      b ∈ ghost.share.locked ∧ post true ghost := Iff.rfl

@[simp]
theorem wp_releasesleep (post : Unit → Ghost n D → Prop) :
    (releasesleep b).wp (rule disk init) ghost post ↔
      b ∈ ghost.share.locked ∧
        Settled disk ghost.journal (ghost.share.key b) (ghost.share.content b) ∧
        post () { ghost with share := ghost.share.unlock b } := Iff.rfl

@[simp]
theorem wp_unuse (post : Unit → Ghost n D → Prop) :
    (unuse b).wp (rule disk init) ghost post ↔
      0 < ghost.share.pending b ∧ post () { ghost with share := ghost.share.drop b } := Iff.rfl

@[simp]
theorem wp_key (post : Nat × Nat → Ghost n D → Prop) :
    (key b).wp (rule disk init) ghost post ↔
      b ∈ ghost.share.locked ∧ post (ghost.share.key b) ghost := Iff.rfl

@[simp]
theorem wp_content (post : Content D → Ghost n D → Prop) :
    (content b).wp (rule disk init) ghost post ↔
      b ∈ ghost.share.locked ∧ post (ghost.share.content b) ghost := Iff.rfl

@[simp]
theorem wp_setContent (content : Content D) (post : Unit → Ghost n D → Prop) :
    (setContent b content).wp (rule disk init) ghost post ↔
      b ∈ ghost.share.locked ∧ post () { ghost with share := ghost.share.store b content } :=
  Iff.rfl

@[simp]
theorem wp_readSector (blockno : Nat) (post : D → Ghost n D → Prop) :
    (readSector blockno).wp (rule disk init) ghost post ↔
      ∀ data, (∀ known, ghost.journal = some known → data = known.memdisk blockno) →
        post data ghost := Iff.rfl

@[simp]
theorem wp_writeSector (blockno : Nat) (data : D) (post : Unit → Ghost n D → Prop) :
    (writeSector blockno data).wp (rule disk init) ghost post ↔
      (∃ b ∈ ghost.share.locked, ghost.share.key b = (rootDev, blockno)) ∧
        ∃ journal, ghost.journal = some journal ∧
          (∃ lh, (journal.write disk blockno data).Recoverable disk init lh) ∧
          post () { ghost with journal := some (journal.write disk blockno data) } := Iff.rfl

@[simp]
theorem wp_beginTrans (post : Unit → Ghost n D → Prop) :
    beginTrans.wp (rule disk init) ghost post ↔
      ghost.runs = true ∧ ghost.journal = none ∧
        ∀ journal, journal.Quiet disk init → journal.current = [] →
          post () { ghost with journal := some journal } := Iff.rfl

@[simp]
theorem wp_busy (post : Bool → Ghost n D → Prop) :
    busy.wp (rule disk init) ghost post ↔ ∀ busy, post busy ghost := Iff.rfl

@[simp]
theorem wp_lh (post : Logheader → Ghost n D → Prop) :
    lh.wp (rule disk init) ghost post ↔
      ∃ journal, ghost.journal = some journal ∧ post journal.lh ghost := Iff.rfl

@[simp]
theorem wp_setSector (i blockno : Nat) (post : Unit → Ghost n D → Prop) :
    (setSector i blockno).wp (rule disk init) ghost post ↔
      ∃ journal, ghost.journal = some journal ∧ post () { ghost with
        journal := some { journal with
          lh := { journal.lh with sector := Function.update journal.lh.sector i blockno } } } :=
  Iff.rfl

@[simp]
theorem wp_setN (count : Nat) (post : Unit → Ghost n D → Prop) :
    (setN count).wp (rule disk init) ghost post ↔
      ∃ journal, ghost.journal = some journal ∧ post () { ghost with
        journal := some { journal with lh := { journal.lh with n := count } } } := Iff.rfl

@[simp]
theorem wp_logged (post : Unit → Ghost n D → Prop) :
    (logged b).wp (rule disk init) ghost post ↔
      b ∈ ghost.share.locked ∧ ∃ journal, ghost.journal = some journal ∧ post () { ghost with
        share := ghost.share.store b { ghost.share.content b with dirty := true }
        journal := some { journal with
          current := journal.current ++
            [((ghost.share.key b).2, (ghost.share.content b).data)] } } := Iff.rfl

@[simp]
theorem wp_committing (post : Logheader → Ghost n D → Prop) :
    committing.wp (rule disk init) ghost post ↔
      ∃ journal, ghost.journal = some journal ∧ post journal.lh ghost := Iff.rfl

@[simp]
theorem wp_endTrans (post : Unit → Ghost n D → Prop) :
    endTrans.wp (rule disk init) ghost post ↔
      (∃ journal, ghost.journal = some journal ∧ journal.Quiet disk init) ∧
        (∀ b ∈ ghost.share.locked, ¬disk.log.InLog (ghost.share.key b).2) ∧
        post () { ghost with journal := none } := Iff.rfl

@[simp]
theorem wp_panicIf (bad : Prop) [Decidable bad] (message : String)
    (post : Unit → Ghost n D → Prop) :
    (panicIf bad message : Code n D Unit).wp (rule disk init) ghost post ↔ (¬bad → post () ghost) := by
  have hpanic : (panic message : Code n D Unit).wp (rule disk init) ghost post := trivial
  simp [panicIf, hpanic]

end Wp

/-! ### Buffers -/

structure Ghost.Keeps (ghost after : Ghost n D) : Prop where
  share : ghost.share.Keeps after.share
  journal : after.journal = ghost.journal
  runs : after.runs = ghost.runs

theorem Ghost.Keeps.refl (ghost : Ghost n D) : ghost.Keeps ghost := ⟨.refl _, rfl, rfl⟩

structure Ghost.Takes (ghost : Ghost n D) (b : Fin n) (key : Nat × Nat) (content : Content D)
    (after : Ghost n D) : Prop where
  share : ghost.share.Takes b key content after.share
  journal : after.journal = ghost.journal
  runs : after.runs = ghost.runs

def Ghost.withJournal (ghost : Ghost n D) (journal : Journal D) : Ghost n D :=
  { ghost with journal := some journal }

variable {ghost after : Ghost n D} {b : Fin n} {blockno : Nat} {content : Content D} {data : D}
  {journal : Journal D} {lh : List Nat}

theorem iderw_read (hlocked : b ∈ ghost.share.locked)
    (hdirty : (ghost.share.content b).dirty = false) :
    (iderw disk.conf b).wp (rule disk init) ghost fun _ after => ∃ data,
      (∀ known, ghost.journal = some known → data = known.memdisk (ghost.share.key b).2) ∧
        after = { ghost with share := ghost.share.store b ⟨true, false, data⟩ } := by
  simp only [iderw, Program.wp_bind, Program.wp_ite, wp_panicIf, wp_holdingsleep, wp_content,
    wp_key, wp_readSector, wp_setContent, hdirty, hlocked, true_and]
  intro _ _ _ _
  exact fun data hdata => ⟨data, hdata, rfl⟩

theorem iderw_write (hlocked : b ∈ ghost.share.locked)
    (hdirty : (ghost.share.content b).dirty = true) (hdata : (ghost.share.content b).data = data)
    (hkey : ghost.share.key b = (rootDev, blockno)) (hjournal : ghost.journal = some journal)
    (hrecoverable : (journal.write disk blockno data).Recoverable disk init lh) :
    (iderw disk.conf b).wp (rule disk init) ghost fun _ after =>
      after = { ghost.withJournal (journal.write disk blockno data) with
        share := ghost.share.store b ⟨true, false, data⟩ } := by
  simp only [iderw, Program.wp_bind, Program.wp_ite, wp_panicIf, wp_holdingsleep, wp_content,
    wp_key, wp_writeSector, wp_setContent, hdirty, hdata, hlocked, hkey, true_and, if_true]
  intro _ _ _ _
  exact ⟨⟨b, hlocked, hkey⟩, journal, hjournal, ⟨lh, hrecoverable⟩, rfl⟩

theorem bread_spec (hown : disk.log.InLog blockno → ghost.journal.isSome = true) :
    (bread disk.conf rootDev blockno).wp (rule disk init) ghost fun b after => ∃ content,
      content.valid = true ∧
        (∀ known, ghost.journal = some known → disk.log.InLog blockno →
          content.data = known.memdisk blockno) ∧
        ghost.Takes b (rootDev, blockno) content after := by
  simp only [bread, Program.wp_bind, wp_bget, wp_acquiresleep, wp_content, true_and]
  intro b
  have hkey : (ghost.share.get b (rootDev, blockno)).key b = (rootDev, blockno) := by
    simp [Share.get]
  refine ⟨by simp [Share.get], by rwa [hkey], fun content hfree hsettled =>
    ⟨Finset.mem_insert_self _ _, ?_⟩⟩
  rw [hkey] at hsettled
  have hnew : b ∉ ghost.share.locked := hfree
  have htakes := Share.Takes.get_lock hnew (rootDev, blockno) content
  rw [Program.wp_when]
  constructor
  · intro hinvalid
    rw [htakes.content_self] at hinvalid
    have hdirty : content.dirty = false := by
      cases hdirty : content.dirty with
      | false => rfl
      | true => simp [hsettled.dirty hdirty] at hinvalid
    refine Program.wp_mono rule_monotone ?_ (iderw_read htakes.mem (by rwa [htakes.content_self]))
    rintro _ _ ⟨data, hdata, rfl⟩
    refine ⟨_, rfl, fun known hknown _ => ?_, htakes.store _, rfl, rfl⟩
    rw [hdata known hknown, htakes.key_self]
  · intro hvalid
    rw [htakes.content_self] at hvalid
    have hvalid : content.valid = true := by simpa using hvalid
    exact ⟨content, hvalid, fun known hknown hlog => hsettled.log known hknown hlog hvalid, htakes,
      rfl, rfl⟩

theorem brelse_spec (hlocked : b ∈ ghost.share.locked)
    (hsettled : Settled disk ghost.journal (ghost.share.key b) (ghost.share.content b)) :
    (brelse b).wp (rule disk init) ghost fun _ after =>
      after = { ghost with share := (ghost.share.unlock b).drop b } := by
  simp only [brelse, Program.wp_bind, wp_holdingsleep, wp_panicIf, wp_releasesleep, wp_unuse]
  refine ⟨hlocked, fun _ => ⟨hlocked, hsettled, ?_, trivial⟩⟩
  simp [Share.unlock]

theorem brelse_takes {key : Nat × Nat} (htakes : ghost.Takes b key content after)
    (hsettled : Settled disk ghost.journal key content) :
    (brelse b).wp (rule disk init) after fun _ done => ghost.Keeps done := by
  have hsettled' : Settled disk after.journal (after.share.key b) (after.share.content b) := by
    rwa [htakes.journal, htakes.share.key_self, htakes.share.content_self]
  refine Program.wp_mono rule_monotone ?_ (brelse_spec htakes.share.mem hsettled')
  rintro _ _ rfl
  exact ⟨htakes.share.release, htakes.journal, htakes.runs⟩

theorem overwrite_takes (htakes : ghost.Takes b (rootDev, blockno) content after)
    (hjournal : ghost.journal = some journal)
    (hrecoverable : (journal.write disk blockno data).Recoverable disk init lh) :
    (setData b data).wp (rule disk init) after fun _ mid =>
      (bwrite disk.conf b).wp (rule disk init) mid fun _ done =>
        (ghost.withJournal (journal.write disk blockno data)).Takes b (rootDev, blockno)
          ⟨true, false, data⟩ done := by
  simp only [setData, bwrite, Program.wp_bind, wp_content, wp_setContent, wp_holdingsleep,
    wp_panicIf]
  refine ⟨htakes.share.mem, htakes.share.mem, htakes.share.mem, fun _ => ⟨htakes.share.mem,
    htakes.share.mem, ?_⟩⟩
  have htakes₂ := (htakes.share.store { after.share.content b with data }).store
    { (after.share.store b { after.share.content b with data }).content b with dirty := true }
  have hcontent := htakes₂.content_self
  refine Program.wp_mono rule_monotone ?_ (iderw_write htakes₂.mem (by rw [hcontent])
    (by rw [hcontent]; simp [Share.store]) htakes₂.key_self (htakes.journal.trans hjournal)
    hrecoverable)
  rintro _ _ rfl
  exact ⟨htakes₂.store ⟨true, false, data⟩, rfl, htakes.runs⟩

theorem settled_written (hlog : disk.log.InLog blockno →
    (journal.write disk blockno data).memdisk blockno = data) :
    Settled disk (some (journal.write disk blockno data)) (rootDev, blockno) ⟨true, false, data⟩ where
  dirty hdirty := rfl
  dev _ := rfl
  log known hknown hin _ := by
    cases hknown
    exact (hlog hin).symm

/-! ### The functions of the log -/

theorem writeHead_spec (hjournal : ghost.journal = some journal)
    (hrecoverable : ∀ data, ∃ lh,
      (journal.write disk disk.log.start (disk.conf.encode journal.lh data)).Recoverable disk init
        lh) :
    (writeHead disk.conf).wp (rule disk init) ghost fun _ after => ∃ data,
      (ghost.withJournal
        (journal.write disk disk.log.start (disk.conf.encode journal.lh data))).Keeps after := by
  unfold writeHead
  refine Program.wp_seq rule_monotone (bread_spec fun _ => by rw [hjournal]; rfl) ?_
  rintro buf ghost₁ ⟨content, -, -, htakes₁⟩
  simp only [Program.wp_bind, wp_lh, wp_content]
  refine ⟨journal, htakes₁.journal.trans hjournal, htakes₁.share.mem, ?_⟩
  obtain ⟨lh, hlh⟩ := hrecoverable (ghost₁.share.content buf).data
  refine Program.wp_mono rule_monotone (fun _ _ hwrite => ?_)
    (overwrite_takes htakes₁ hjournal hlh)
  refine Program.wp_mono rule_monotone (fun _ ghost₂ htakes₂ => ?_) hwrite
  refine Program.wp_mono rule_monotone (fun _ _ hkeeps => ⟨_, hkeeps⟩)
    (brelse_takes htakes₂ (settled_written fun _ => ?_))
  rw [Journal.memdisk_write, Function.update_self]

theorem installTrans_spec {header : Logheader} (hjournal : ghost.journal = some journal)
    (hstart : journal.Installing disk init (entries header) 0) :
    (installTrans disk.conf header).wp (rule disk init) ghost fun _ after => ∃ last : Journal D,
      last.Installing disk init (entries header) header.n ∧ last.lh = journal.lh ∧
        (ghost.withJournal last).Keeps after := by
  have hstart' : (ghost.withJournal journal).Keeps ghost := ⟨.refl _, hjournal, rfl⟩
  refine Program.wp_forM_range rule_monotone (fun count after => ∃ last : Journal D,
    last.Installing disk init (entries header) count ∧ last.lh = journal.lh ∧
      (ghost.withJournal last).Keeps after) ⟨journal, hstart, rfl, hstart'⟩ ?_
  rintro tail htail ghost₀ ⟨known, hknown, hlh, hkeeps⟩
  have hlength : tail < (entries header).length := by rwa [Journal.length_entries]
  have hsector : (entries header)[tail] = header.sector tail := Journal.getElem_entries hlength
  have hhome : disk.log.Home (header.sector tail) :=
    hsector ▸ hknown.recoverable.wellFormed.home _ (List.getElem_mem hlength)
  have hroom : tail + 1 < disk.log.size := by
    have hne : entries header ≠ [] := List.ne_nil_of_length_pos (by omega)
    have := hknown.recoverable.wellFormed.length_lt hne
    omega
  have hslot : disk.log.InLog (disk.log.start + tail + 1) := by
    simp only [Kernel.Config.InLog]
    omega
  have hjournal₀ : ghost₀.journal = some known := hkeeps.journal
  refine Program.wp_seq rule_monotone (bread_spec fun _ => by rw [hjournal₀]; rfl) ?_
  rintro lbuf ghost₁ ⟨content₁, hvalid₁, hdata₁, htakes₁⟩
  refine Program.wp_seq rule_monotone (bread_spec fun hlog => absurd hlog hhome.1) ?_
  rintro dbuf ghost₂ ⟨content₂, -, -, htakes₂⟩
  simp only [Program.wp_bind, wp_content]
  refine ⟨htakes₂.share.mem_of_mem htakes₁.share.mem, ?_⟩
  have hread : (ghost₂.share.content lbuf).data = known.memdisk (disk.log.start + tail + 1) := by
    rw [htakes₂.share.content lbuf htakes₁.share.mem, htakes₁.share.content_self]
    exact hdata₁ known hjournal₀ hslot
  have hnext := hknown.install hlength
  rw [hsector] at hnext
  rw [hread]
  refine Program.wp_mono rule_monotone (fun _ _ hwrite => ?_)
    (overwrite_takes htakes₂ (htakes₁.journal.trans hjournal₀) hnext.recoverable)
  refine Program.wp_mono rule_monotone (fun _ ghost₃ htakes₃ => ?_) hwrite
  have hlbuf : lbuf ∈ ghost₃.share.locked := htakes₃.share.mem_of_mem htakes₁.share.mem
  have hkey : ghost₃.share.key lbuf = (rootDev, disk.log.start + tail + 1) :=
    (htakes₃.share.key lbuf htakes₁.share.mem).trans htakes₁.share.key_self
  have hcontent : ghost₃.share.content lbuf = content₁ :=
    (htakes₃.share.content lbuf htakes₁.share.mem).trans htakes₁.share.content_self
  -- the slot has not changed when its buffer is given back
  have hsettled : Settled disk ghost₃.journal (ghost₃.share.key lbuf)
      (ghost₃.share.content lbuf) := by
    rw [hkey, hcontent, htakes₃.journal]
    refine ⟨fun _ => hvalid₁, fun _ => rfl, fun written hwritten hlog _ => ?_⟩
    cases hwritten
    rw [Journal.memdisk_write, Function.update_of_ne (Journal.slot_ne_home hroom hhome)]
    exact hdata₁ known hjournal₀ hlog
  refine Program.wp_mono rule_monotone ?_ (brelse_spec hlbuf hsettled)
  rintro _ _ rfl
  have hlast : Ghost.Takes (ghost₀.withJournal (known.write disk (header.sector tail)
      (known.memdisk (disk.log.start + tail + 1)))) dbuf (rootDev, header.sector tail)
      ⟨true, false, known.memdisk (disk.log.start + tail + 1)⟩
      { ghost₃ with share := (ghost₃.share.unlock lbuf).drop lbuf } :=
    ⟨htakes₁.share.release_first htakes₃.share, htakes₃.journal, htakes₃.runs.trans htakes₁.runs⟩
  refine Program.wp_mono rule_monotone (fun _ done hdone => ?_)
    (brelse_takes hlast (settled_written fun hlog => absurd hlog hhome.1))
  exact ⟨_, hnext, Journal.lh_write.trans hlh, hkeeps.share.trans hdone.share, hdone.journal,
    hdone.runs.trans hkeeps.runs⟩

theorem clear_spec {header : Logheader} (hjournal : ghost.journal = some journal)
    (hdone : journal.Installing disk init (entries header) header.n) :
    (do
      setN 0
      writeHead disk.conf : Code n D Unit).wp (rule disk init) ghost fun _ after =>
        ∃ last : Journal D, last.Quiet disk init ∧ (ghost.withJournal last).Keeps after := by
  simp only [Program.wp_bind, wp_setN]
  refine ⟨journal, hjournal, ?_⟩
  have hcleared : Journal.Installing disk init (entries header) (entries header).length
      { journal with lh := { journal.lh with n := 0 } } := by
    rw [Journal.length_entries]
    exact ⟨hdone.recoverable, hdone.installed⟩
  refine Program.wp_mono rule_monotone ?_ (writeHead_spec rfl fun data => ?_)
  · rintro _ after ⟨data, hkeeps⟩
    exact ⟨_, hcleared.erase rfl data, hkeeps⟩
  · exact ⟨[], (hcleared.erase rfl data).recoverable⟩

theorem commitTrans_spec (hjournal : ghost.journal = some journal)
    (hlogging : journal.Logging disk init)
    (hhome : ∀ b ∈ ghost.share.locked, ¬disk.log.InLog (ghost.share.key b).2) :
    (commitTrans disk.conf).wp (rule disk init) ghost fun _ after =>
      Ghost.Keeps { ghost with journal := none } after := by
  simp only [commitTrans, Program.wp_bind, wp_committing, Program.wp_when, wp_endTrans]
  refine ⟨journal, hjournal, fun hpos => ?_, fun hzero => ?_⟩
  · refine Program.wp_mono rule_monotone ?_ (writeHead_spec hjournal fun data =>
      ⟨_, (hlogging.commit hpos data).recoverable⟩)
    rintro _ ghost₁ ⟨data, hkeeps₁⟩
    refine Program.wp_mono rule_monotone ?_
      (installTrans_spec hkeeps₁.journal (hlogging.commit hpos data))
    rintro _ ghost₂ ⟨last, hlast, -, hkeeps₂⟩
    have hclear : (do
        setN 0
        writeHead disk.conf : Code n D Unit).wp (rule disk init) ghost₂ _ :=
      clear_spec hkeeps₂.journal hlast
    rw [Program.wp_bind] at hclear
    refine Program.wp_mono rule_monotone (fun _ ghost₃ hclear => ?_) hclear
    refine Program.wp_mono rule_monotone (fun _ ghost₄ hquiet => ?_) hclear
    obtain ⟨done, hquiet, hkeeps₃⟩ := hquiet
    have hshare : ghost.share.Keeps ghost₄.share :=
      (hkeeps₁.share.trans hkeeps₂.share).trans hkeeps₃.share
    refine ⟨⟨done, hkeeps₃.journal, hquiet⟩, fun b hb => ?_, hshare, rfl,
      hkeeps₃.runs.trans (hkeeps₂.runs.trans hkeeps₁.runs)⟩
    rw [hshare.locked] at hb
    rw [hshare.key b hb]
    exact hhome b hb
  · have hquiet := hlogging.quiet (Nat.eq_zero_of_not_pos hzero)
    exact ⟨⟨journal, hjournal, hquiet⟩, hhome, .refl _⟩

theorem logged_spec (hlocked : b ∈ ghost.share.locked) (hjournal : ghost.journal = some journal)
    (hkey : ghost.share.key b = (rootDev, blockno)) (hcontent : ghost.share.content b = content) :
    (logged b).wp (rule disk init) ghost fun _ after => after = { ghost with
      share := ghost.share.store b { content with dirty := true }
      journal := some { journal with
        current := journal.current ++ [(blockno, content.data)] } } := by
  rw [wp_logged, hkey, hcontent]
  exact ⟨hlocked, journal, hjournal, rfl⟩

theorem logWrite_spec (hjournal : ghost.journal = some journal)
    (hlogging : journal.Logging disk init) (hlocked : b ∈ ghost.share.locked)
    (hkey : ghost.share.key b = (rootDev, blockno)) (hhome : disk.log.Home blockno) :
    (logWrite disk.conf b).wp (rule disk init) ghost fun _ after => ∃ last : Journal D,
      last.Logging disk init ∧ Ghost.Keeps { ghost.withJournal last with
        share := ghost.share.store b { ghost.share.content b with dirty := true } } after := by
  simp only [logWrite, Program.wp_bind, wp_lh, wp_busy, wp_key, wp_panicIf, wp_setSector,
    wp_content, Program.wp_when, wp_setN]
  refine ⟨journal, hjournal, fun hroom busy _ => ⟨hlocked, journal, hjournal, ?_⟩⟩
  rw [hkey]
  set slot := journal.lh.slot blockno with hslot
  set named : Journal D := { journal with
    lh := { journal.lh with sector := Function.update journal.lh.sector slot blockno } } with hnamed
  have hle : slot ≤ journal.lh.n := journal.lh.slot_le blockno
  have hsize : slot + 1 < disk.log.size := by
    have hroom' : ¬(journal.lh.n ≥ logSize ∨ journal.lh.n ≥ disk.log.size - 1) := hroom
    omega
  have hin : disk.log.InLog (disk.log.start + slot + 1) := by
    simp only [Kernel.Config.InLog]
    omega
  refine Program.wp_mono rule_monotone ?_ (bread_spec fun _ => rfl)
  rintro lbuf ghost₁ ⟨content₁, -, -, htakes₁⟩
  refine ⟨htakes₁.share.mem_of_mem hlocked, ?_⟩
  have hdata : (ghost₁.share.content b).data = (ghost.share.content b).data :=
    congrArg Content.data (htakes₁.share.content b hlocked)
  have hrecoverable : (named.write disk (disk.log.start + slot + 1)
      (ghost.share.content b).data).Recoverable disk init [] :=
    Journal.recoverable_slot named hlogging.header hlogging.home hsize _
  rw [hdata]
  refine Program.wp_mono rule_monotone (fun _ _ hwrite => ?_)
    (overwrite_takes htakes₁ rfl hrecoverable)
  refine Program.wp_mono rule_monotone (fun _ ghost₂ htakes₂ => ?_) hwrite
  refine Program.wp_mono rule_monotone (fun _ ghost₃ hkeeps => ?_)
    (brelse_takes htakes₂ (settled_written fun _ => ?_))
  · have hwritten : ghost₃.journal = some { named with
        memdisk := Function.update journal.memdisk (disk.log.start + slot + 1)
          (ghost.share.content b).data } :=
      hkeeps.journal.trans (congrArg some (Journal.write_eq fun hstart =>
        absurd hstart (Journal.slot_ne_start slot)))
    have hcontent : ghost₃.share.content b = ghost.share.content b := hkeeps.share.content b hlocked
    have hkey' : ghost₃.share.key b = (rootDev, blockno) :=
      (hkeeps.share.key b hlocked).trans hkey
    have hlocked' : b ∈ ghost₃.share.locked := hkeeps.share.locked ▸ hlocked
    have hlast := hlogging.log hhome hroom (ghost.share.content b).data
    have hshare : Share.Keeps (ghost.share.store b { ghost.share.content b with dirty := true })
        (ghost₃.share.store b { ghost.share.content b with dirty := true }) :=
      hkeeps.share.store b _
    constructor
    · intro hfree
      refine ⟨_, hwritten, ?_⟩
      refine Program.wp_mono rule_monotone ?_ (logged_spec hlocked' rfl hkey' hcontent)
      rintro _ _ rfl
      refine ⟨_, hlast, hshare, ?_, hkeeps.runs⟩
      rw [Journal.logged, if_pos hfree]
      rfl
    · intro hfound
      refine Program.wp_mono rule_monotone ?_ (logged_spec hlocked' hwritten hkey' hcontent)
      rintro _ _ rfl
      refine ⟨_, hlast, hshare, ?_, hkeeps.runs⟩
      rw [Journal.logged, if_neg hfound]
      rfl
  · rw [Journal.memdisk_write, Function.update_self]

theorem setSectors_spec (hjournal : ghost.journal = some journal) (lh : List Nat) :
    ((List.range lh.length).forM fun i => (setSector i (lh.getD i 0) : Code n D Unit)).wp
      (rule disk init) ghost fun _ after => ∃ sector : Nat → Nat,
        (∀ i < lh.length, sector i = lh.getD i 0) ∧
          after = ghost.withJournal { journal with lh := ⟨journal.lh.n, sector⟩ } := by
  have hsame : ghost = ghost.withJournal journal := by
    rw [Ghost.withJournal, ← hjournal]
  refine Program.wp_forM_range rule_monotone (fun count after => ∃ sector : Nat → Nat,
    (∀ i < count, sector i = lh.getD i 0) ∧
      after = ghost.withJournal { journal with lh := ⟨journal.lh.n, sector⟩ })
    ⟨journal.lh.sector, fun i hi => absurd hi (Nat.not_lt_zero i), hsame⟩ ?_
  rintro i hi _ ⟨sector, hsector, rfl⟩
  rw [wp_setSector]
  refine ⟨_, rfl, Function.update sector i (lh.getD i 0), fun j hj => ?_, rfl⟩
  by_cases hji : j = i
  · subst hji
    rw [Function.update_self]
  · rw [Function.update_of_ne hji]
    exact hsector j (by omega)

theorem readHead_spec (hjournal : ghost.journal = some journal)
    (hheader : disk.log.header.decode (journal.memdisk disk.log.start) = lh) :
    (readHead disk).wp (rule disk init) ghost fun _ after => ∃ header : Logheader,
      entries header = lh ∧ (ghost.withJournal { journal with lh := header }).Keeps after := by
  have hin : disk.log.InLog disk.log.start := by
    have hpos := disk.log.size_pos
    simp only [Kernel.Config.InLog]
    omega
  unfold readHead
  refine Program.wp_seq rule_monotone (bread_spec fun _ => by rw [hjournal]; rfl) ?_
  rintro buf ghost₁ ⟨content, hvalid, hdata, htakes₁⟩
  have hcontent : disk.log.header.decode (ghost₁.share.content buf).data = lh := by
    rw [htakes₁.share.content_self, hdata journal hjournal hin]
    exact hheader
  simp only [Program.wp_bind, wp_content, wp_setN, hcontent]
  refine ⟨htakes₁.share.mem, journal, htakes₁.journal.trans hjournal, ?_⟩
  refine Program.wp_mono rule_monotone ?_ (setSectors_spec rfl lh)
  rintro _ ghost₂ ⟨sector, hsector, rfl⟩
  have htakes₂ : (ghost.withJournal { journal with lh := ⟨lh.length, sector⟩ }).Takes buf
      (rootDev, disk.log.start) content
      (ghost₁.withJournal { journal with lh := ⟨lh.length, sector⟩ }) :=
    ⟨htakes₁.share, rfl, htakes₁.runs⟩
  refine Program.wp_mono rule_monotone (fun _ after hkeeps => ⟨_, ?_, hkeeps⟩)
    (brelse_takes htakes₂ ⟨fun _ => hvalid, fun _ => rfl, fun known hknown hlog _ => ?_⟩)
  · refine List.ext_getElem (Journal.length_entries _) fun i hi hi' => ?_
    exact (Journal.getElem_entries hi).trans
      ((hsector i hi').trans (List.getD_eq_getElem lh 0 hi'))
  · cases hknown
    exact hdata journal hjournal hlog

theorem recoverFromLog_spec (hjournal : ghost.journal = some journal)
    (hrecoverable : journal.Recoverable disk init lh) :
    (recoverFromLog disk).wp (rule disk init) ghost fun _ after => ∃ last : Journal D,
      last.Quiet disk init ∧ (ghost.withJournal last).Keeps after := by
  unfold recoverFromLog
  refine Program.wp_seq rule_monotone (readHead_spec hjournal hrecoverable.header) ?_
  rintro _ ghost₁ ⟨header, hentries, hkeeps₁⟩
  rw [Program.wp_bind, wp_lh]
  refine ⟨_, hkeeps₁.journal, ?_⟩
  have hstart : Journal.Installing disk init (entries header) 0 { journal with lh := header } := by
    rw [hentries]
    exact ⟨hrecoverable, fun i _ hi => absurd hi (Nat.not_lt_zero i)⟩
  refine Program.wp_seq rule_monotone (installTrans_spec hkeeps₁.journal hstart) ?_
  rintro _ ghost₂ ⟨last, hlast, -, hkeeps₂⟩
  refine Program.wp_mono rule_monotone ?_ (clear_spec hkeeps₂.journal hlast)
  rintro _ ghost₃ ⟨done, hquiet, hkeeps₃⟩
  exact ⟨done, hquiet, (hkeeps₁.share.trans hkeeps₂.share).trans hkeeps₃.share, hkeeps₃.journal,
    hkeeps₃.runs.trans (hkeeps₂.runs.trans hkeeps₁.runs)⟩

end Xv6.Legacy.Recovery
