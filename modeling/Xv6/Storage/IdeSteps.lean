import Xv6.Storage.IdeInvariant

/-!
# Every step of the IDE driver keeps its invariant
-/

set_option linter.unusedSectionVars false

namespace Xv6.Ide

variable {n : Nat} {ι D : Type} [DecidableEq ι] [Fintype ι] {s s' : State n ι D} {q : List (Fin n)}

structure Framed (s : State n ι D) (bio : Bio.State n ι) (recycled : Option (Fin n)) : Prop where
  proc : ∃ who, s.call who = .idle ∧ ∀ other, other ≠ who → bio.proc other = s.bio.proc other
  kept : ∀ b, recycled ≠ some b →
    (bio.cache.buf b).key = (s.bio.cache.buf b).key ∧ (bio.cache.buf b).content = (s.bio.cache.buf b).content
  fresh : ∀ b, recycled = some b → (s.bio.cache.buf b).refcnt = 0 ∧ (bio.cache.buf b).dev < 2

theorem Framed.of_same {bio : Bio.State n ι} {who : ι} (hidle : s.call who = .idle)
    (hproc : ∀ other, other ≠ who → bio.proc other = s.bio.proc other) (hsame : s.bio.cache.Same bio.cache) :
    Framed s bio none where
  proc := ⟨who, hidle, hproc⟩
  kept b _ := ⟨hsame.key b, hsame.content b⟩
  fresh _ h := by cases h

theorem framed_of_step {bio : Bio.State n ι} {action : Bio.Action n ι} {nodes : List (Fin n)}
    (hbio : Bio.Inv s.bio nodes) (hout : Outside s action) (hstep : Bio.step s.bio action = some bio) :
    Framed s bio (recycled s action) := by
  have hother : ∀ {who : ι} {pc : Bio.Pc n} {held : Finset (Fin n)} (other : ι), other ≠ who →
      (s.bio.setProc who pc held).proc other = s.bio.proc other :=
    fun other hne => Bio.setProc_proc_of_ne _ _ _ hne
  cases action with
  | bget who dev blockno =>
      obtain ⟨hidle, hdev⟩ := hout
      simp only [Bio.step] at hstep
      split at hstep
      case isFalse => cases hstep
      case isTrue =>
        obtain ⟨result, hbget, rfl⟩ := Option.map_eq_some_iff.mp hstep
        have hrecycled : recycled s (.bget who dev blockno) =
            if (s.bio.cache.cached dev blockno).isSome then none else s.bio.cache.unused := rfl
        rw [hrecycled]
        unfold Bcache.bget at hbget
        split at hbget
        case h_1 b hcached =>
          obtain rfl := Option.some.inj hbget
          rw [hcached, Option.isSome_some, if_pos rfl]
          exact .of_same hidle hother (Bcache.setBuf_same rfl rfl)
        case h_2 hcached =>
          rw [hcached, if_neg (by simp)]
          split at hbget
          case h_2 => cases hbget
          case h_1 b hunused =>
            obtain rfl := Option.some.inj hbget
            rw [hunused]
            refine ⟨⟨who, hidle, hother⟩, ?_, ?_⟩
            · intro b' hb'
              have hne : b' ≠ b := fun heq => hb' (by rw [heq])
              dsimp only
              rw [Bcache.setBuf_buf_of_ne _ _ hne]
              exact ⟨rfl, rfl⟩
            · intro b' hb'
              obtain rfl := Option.some.inj hb'
              refine ⟨(hbio.unused_spec hunused).1, ?_⟩
              dsimp only
              rw [Bcache.setBuf_buf_self]
              exact hdev
  | acquiresleep who =>
      simp only [Bio.step] at hstep
      split at hstep
      case h_1 b hpc =>
        obtain ⟨cache, hacquire, rfl⟩ := Option.map_eq_some_iff.mp hstep
        exact .of_same hout hother (Bcache.acquiresleep_same hacquire)
      case h_2 => cases hstep
  | bread who => exact absurd hout id
  | bwrite who b => exact absurd hout id
  | releasesleep who b =>
      simp only [Bio.step] at hstep
      split at hstep
      case isTrue =>
        obtain rfl := Option.some.inj hstep
        exact .of_same hout hother (Bcache.releasesleep_same _ b)
      case isFalse => cases hstep
  | brelse who =>
      simp only [Bio.step] at hstep
      split at hstep
      case h_1 b hpc =>
        obtain rfl := Option.some.inj hstep
        exact .of_same hout hother (Bcache.brelse_same _ b)
      case h_2 => cases hstep
  | bpin who b =>
      simp only [Bio.step] at hstep
      split at hstep
      case isTrue =>
        obtain rfl := Option.some.inj hstep
        have hidle : s.call who = .idle := hout
        exact .of_same hidle (fun _ _ => rfl) (Bcache.bpin_same _ b)
      case isFalse => cases hstep
  | bunpin who b =>
      simp only [Bio.step] at hstep
      split at hstep
      case isTrue =>
        obtain rfl := Option.some.inj hstep
        have hidle : s.call who = .idle := hout
        exact .of_same hidle (fun _ _ => rfl) (Bcache.bunpin_same _ b)
      case isFalse => cases hstep

theorem wait_of_not_done {who : ι} {b : Fin n} {number : Nat} (hdone : ¬ s.Done b) :
    s.wait who b number = some (s.setCall who (.iderw b number true)) := by
  unfold State.wait
  rw [if_neg hdone]

theorem idestart_eq_some {b : Fin n} (hstart : s.idestart b = some s') :
    (s.bio.cache.buf b).blockno < fssize ∧ s' = { s with drive := .busy (s.command b) } := by
  unfold State.idestart at hstart
  split at hstart
  case isTrue => cases hstart
  case isFalse hrange =>
    split at hstart
    case h_1 => cases hstart
    case h_2 => exact ⟨Nat.lt_of_not_le hrange, (Option.some.inj hstart).symm⟩

theorem iderw_eq_some {havedisk1 : Bool} {who : ι} {b : Fin n} (hiderw : s.iderw havedisk1 who b = some s') :
    ¬ s.Done b ∧ ∃ queue drive, s.queue.append n b = some queue ∧
      (queue.head = some b ∧ (s.bio.cache.buf b).blockno < fssize ∧ drive = .busy (s.command b) ∨
        queue.head ≠ some b ∧ drive = s.drive) ∧
      s' = State.setCall { s with
        queue, queued := s.queued ++ [b], synced := Function.update s.synced b false, drive } who
        (.iderw b s.queued.length true) := by
  unfold State.iderw at hiderw
  split at hiderw
  case isTrue => cases hiderw
  case isFalse hguard =>
    have hdone : ¬ s.Done b := fun hdone => hguard (Or.inr (Or.inl hdone))
    have hnumber : (s.queued ++ [b]).length - 1 = s.queued.length := by
      rw [List.length_append, List.length_singleton, Nat.add_sub_cancel]
    obtain ⟨queue, happend, hiderw⟩ := Option.bind_eq_some_iff.mp hiderw
    obtain ⟨s₂, hstart, hwait⟩ := Option.bind_eq_some_iff.mp hiderw
    have hnext : ∀ s₂ : State n ι D, s₂.wait who b (s₂.queued.length - 1) = some s' → ¬ s₂.Done b →
        s₂.queued = s.queued ++ [b] → s' = s₂.setCall who (.iderw b s.queued.length true) := by
      intro s₂ hwait hdone hqueued
      rw [wait_of_not_done hdone, hqueued, hnumber] at hwait
      exact (Option.some.inj hwait).symm
    refine ⟨hdone, queue, ?_⟩
    by_cases hhead : queue.head = some b
    · rw [if_pos hhead] at hstart
      obtain ⟨hrange, rfl⟩ := idestart_eq_some hstart
      exact ⟨_, happend, Or.inl ⟨hhead, hrange, rfl⟩, hnext _ hwait hdone rfl⟩
    · rw [if_neg hhead] at hstart
      obtain rfl := Option.some.inj hstart
      exact ⟨s.drive, happend, Or.inr ⟨hhead, rfl⟩, hnext _ hwait hdone rfl⟩

namespace Inv

theorem refcnt_pos_of_busy (h : Inv s q) {b : Fin n}
    (hb : b ∈ q ∨ ∃ who number asleep, s.call who = .iderw b number asleep) : 0 < (s.bio.cache.buf b).refcnt := by
  obtain hmem | ⟨who, number, asleep, hcall⟩ := hb
  · exact h.refcnt_pos_of_mem hmem
  · exact h.refcnt_pos (h.calling who b number asleep hcall).has

theorem cacheStep (h : Inv s q) {action : Bio.Action n ι} (hout : Outside s action) {bio : Bio.State n ι}
    (hstep : Bio.step s.bio action = some bio) :
    Inv (match recycled s action with
      | none => { s with bio }
      | some b => { s with
          bio
          dirty := Function.update s.dirty b false
          synced := Function.update s.synced b false }) q := by
  obtain ⟨nodes, hbio⟩ := h.bio
  obtain ⟨nodes', hbio'⟩ := hbio.step hstep
  obtain ⟨⟨who, hidle, hproc⟩, hkept, hfresh⟩ := framed_of_step hbio hout hstep
  have hdev : ∀ b, (bio.cache.buf b).dev < 2 := by
    intro b
    by_cases hb : recycled s action = some b
    · exact (hfresh b hb).2
    · rw [(Prod.mk.inj (hkept b hb).1).1]
      exact h.dev b
  have hsameProc : ∀ other b number asleep, s.call other = .iderw b number asleep → bio.proc other = s.bio.proc other := by
    intro other b number asleep hcall
    apply hproc other
    rintro rfl
    rw [hidle] at hcall
    cases hcall
  have hbusy : ∀ b, (b ∈ q ∨ ∃ who number asleep, s.call who = .iderw b number asleep) → recycled s action ≠ some b := by
    intro b hb hrecycled
    have hpos := h.refcnt_pos_of_busy hb
    rw [(hfresh b hrecycled).1] at hpos
    exact Nat.lt_irrefl 0 hpos
  cases hrecycled : recycled s action with
  | none =>
      have hsame : ∀ b, (bio.cache.buf b).key = (s.bio.cache.buf b).key ∧
          (bio.cache.buf b).content = (s.bio.cache.buf b).content := fun b => hkept b (by rw [hrecycled]; simp)
      refine h.apart ⟨rfl, rfl, rfl, rfl, rfl, rfl, fun b _ => ⟨(hsame b).1, (hsame b).2, rfl, rfl, rfl⟩⟩ ⟨nodes', hbio'⟩
        hdev ?_ ?_ ?_
      · exact fun other b number asleep hcall => ⟨hsameProc other b number asleep hcall, asleep, hcall, fun _ => id⟩
      · exact fun other b number asleep hcall _ => ⟨asleep, hcall⟩
      · intro b hb
        obtain ⟨hdev', hblockno⟩ := Prod.mk.inj (hsame b).1
        unfold State.block
        dsimp only
        rw [(hsame b).2, hdev', hblockno]
        exact h.synced b hb
  | some r =>
      have hne : ∀ b, (b ∈ q ∨ ∃ who number asleep, s.call who = .iderw b number asleep) → b ≠ r := by
        rintro b hb rfl
        exact hbusy b hb hrecycled
      refine h.apart ⟨rfl, rfl, rfl, rfl, rfl, rfl, ?_⟩ ⟨nodes', hbio'⟩ hdev ?_ ?_ ?_
      · intro b hb
        obtain ⟨hkey, hcontent⟩ := hkept b (hbusy b hb)
        dsimp only
        rw [Function.update_of_ne (hne b hb), Function.update_of_ne (hne b hb)]
        exact ⟨hkey, hcontent, rfl, rfl, rfl⟩
      · exact fun other b number asleep hcall => ⟨hsameProc other b number asleep hcall, asleep, hcall, fun _ => id⟩
      · exact fun other b number asleep hcall _ => ⟨asleep, hcall⟩
      · intro b hb
        dsimp only at hb ⊢
        have hbr : b ≠ r := by
          rintro rfl
          rw [Function.update_self] at hb
          cases hb
        rw [Function.update_of_ne hbr] at hb
        obtain ⟨hkey, hcontent⟩ := hkept b (by rw [hrecycled, Ne, Option.some.injEq]; exact hbr.symm)
        obtain ⟨hdev', hblockno⟩ := Prod.mk.inj hkey
        unfold State.block
        dsimp only
        rw [hcontent, hdev', hblockno]
        exact h.synced b hb

theorem breadStep (h : Inv s q) {who : ι} {b : Fin n} (hidle : s.call who = .idle)
    (hpc : (s.bio.proc who).pc = .reading b) (hvalid : (s.bio.cache.buf b).content = true) {bio : Bio.State n ι}
    (hstep : Bio.step s.bio (.bread who) = some bio) : Inv { s with bio } q := by
  obtain ⟨nodes, hbio⟩ := h.bio
  have hbio' := hbio.step hstep
  have hnext : bio = { s.bio.setProc who .idle (insert b (s.bio.proc who).held) with cache := s.bio.cache } := by
    simp only [Bio.step, hpc, Bio.fill, hvalid] at hstep
    exact (Option.some.inj hstep).symm
  have hother : ∀ other, other ≠ who → bio.proc other = s.bio.proc other := by
    intro other hne
    rw [hnext]
    exact Bio.setProc_proc_of_ne _ _ _ hne
  have hcache : bio.cache = s.bio.cache := by rw [hnext]
  refine h.apart ⟨rfl, rfl, rfl, rfl, rfl, rfl, ?_⟩ hbio' ?_ ?_ ?_ ?_
  · intro b' _
    dsimp only
    rw [hcache]
    exact ⟨rfl, rfl, rfl, rfl, rfl⟩
  · intro b'
    dsimp only
    rw [hcache]
    exact h.dev b'
  · intro other b' number asleep hcall
    refine ⟨hother other ?_, asleep, hcall, fun _ => id⟩
    rintro rfl
    change s.call other = _ at hcall
    rw [hidle] at hcall
    cases hcall
  · exact fun other b' number asleep hcall _ => ⟨asleep, hcall⟩
  · intro b' hb'
    unfold State.block
    dsimp only
    rw [hcache]
    exact h.synced b' hb'

theorem ownStep (h : Inv s q) {who : ι} {b : Fin n} (hidle : s.call who = .idle) (hhas : (s.bio.proc who).Has b)
    {data : Fin n → D} {dirty synced : Fin n → Bool} (hdata : ∀ b', b' ≠ b → data b' = s.data b')
    (hdirty : ∀ b', b' ≠ b → dirty b' = s.dirty b') (hsynced : ∀ b', b' ≠ b → synced b' = s.synced b')
    (hb : synced b = true → s.synced b = true ∧ data b = s.data b) : Inv { s with data, dirty, synced } q := by
  obtain ⟨hmem, hcalls⟩ := h.free_of_has hidle hhas
  refine h.apart ⟨rfl, rfl, rfl, rfl, rfl, rfl, ?_⟩ h.bio h.dev ?_ ?_ ?_
  · intro b' hb'
    have hne : b' ≠ b := by
      rintro rfl
      obtain hmem' | ⟨other, number, asleep, hcall⟩ := hb'
      · exact hmem hmem'
      · exact (hcalls other b' number asleep hcall).2 rfl
    exact ⟨rfl, rfl, hdirty b' hne, hdata b' hne, hsynced b' hne⟩
  · exact fun other b' number asleep hcall => ⟨rfl, asleep, hcall, fun _ => id⟩
  · exact fun other b' number asleep hcall _ => ⟨asleep, hcall⟩
  · intro b' hb'
    unfold State.block
    dsimp only at hb' ⊢
    by_cases hne : b' = b
    · subst hne
      obtain ⟨hold, hsame⟩ := hb hb'
      rw [hsame]
      exact h.synced b' hold
    · rw [hsynced b' hne] at hb'
      rw [hdata b' hne]
      exact h.synced b' hb'

theorem callStep (h : Inv s q) {who : ι} {b : Fin n} {number : Nat} {before after : Bool}
    (hcall : s.call who = .iderw b number before) (hafter : number < s.served.length → after = false) :
    Inv (s.setCall who (.iderw b number after)) q := by
  refine h.apart ⟨rfl, rfl, rfl, rfl, rfl, rfl, fun _ _ => ⟨rfl, rfl, rfl, rfl, rfl⟩⟩ h.bio h.dev ?_ ?_ h.synced
  · intro other b' number' asleep hcall'
    unfold State.setCall at hcall'
    dsimp only at hcall'
    by_cases hother : other = who
    · subst hother
      rw [Function.update_self] at hcall'
      obtain ⟨rfl, rfl, rfl⟩ := Call.iderw.inj hcall'
      exact ⟨rfl, before, hcall, fun hlt _ => hafter hlt⟩
    · rw [Function.update_of_ne hother] at hcall'
      exact ⟨rfl, asleep, hcall', fun _ => id⟩
  · intro other b' number' asleep hcall' _
    unfold State.setCall
    dsimp only
    by_cases hother : other = who
    · subst hother
      rw [hcall] at hcall'
      obtain ⟨rfl, rfl, rfl⟩ := Call.iderw.inj hcall'
      exact ⟨after, Function.update_self ..⟩
    · rw [Function.update_of_ne hother]
      exact ⟨asleep, hcall'⟩

theorem leave (h : Inv s q) {who : ι} {b : Fin n} {number : Nat} {asleep : Bool}
    (hcall : s.call who = .iderw b number asleep) (hserved : number < s.served.length) :
    Inv (s.setCall who .idle) q := by
  refine h.apart ⟨rfl, rfl, rfl, rfl, rfl, rfl, fun _ _ => ⟨rfl, rfl, rfl, rfl, rfl⟩⟩ h.bio h.dev ?_ ?_ h.synced
  · intro other b' number' asleep' hcall'
    unfold State.setCall at hcall'
    dsimp only at hcall'
    by_cases hother : other = who
    · subst hother
      rw [Function.update_self] at hcall'
      cases hcall'
    · rw [Function.update_of_ne hother] at hcall'
      exact ⟨rfl, asleep', hcall', fun _ => id⟩
  · intro other b' number' asleep' hcall' hle
    have hother : other ≠ who := by
      rintro rfl
      rw [hcall] at hcall'
      obtain ⟨rfl, rfl, rfl⟩ := Call.iderw.inj hcall'
      omega
    unfold State.setCall
    dsimp only
    rw [Function.update_of_ne hother]
    exact ⟨asleep', hcall'⟩

theorem done_iff (h : Inv s q) {who : ι} {b : Fin n} {number : Nat} {asleep : Bool}
    (hcall : s.call who = .iderw b number asleep) : s.Done b ↔ number < s.served.length := by
  have hcalling := h.calling who b number asleep hcall
  constructor
  · intro hdone
    by_contra hle
    have hmem : b ∈ q := by
      have hget := hcalling.queued
      rw [h.queued, List.getElem?_append_right (Nat.le_of_not_lt hle)] at hget
      exact List.mem_of_getElem? hget
    exact (h.flags b hmem).1 hdone
  · intro hlt
    exact (hcalling.served hlt).1

theorem waitStep (h : Inv s q) {who : ι} {b : Fin n} {number : Nat} {asleep : Bool}
    (hcall : s.call who = .iderw b number asleep) (hwait : s.wait who b number = some s') : Inv s' q := by
  unfold State.wait at hwait
  split at hwait
  case isFalse hdone =>
    obtain rfl := Option.some.inj hwait
    exact h.callStep hcall fun hlt => absurd ((h.done_iff hcall).mpr hlt) hdone
  case isTrue hdone =>
    have hleft := h.leave hcall ((h.done_iff hcall).mp hdone)
    dsimp only at hwait
    split at hwait
    case h_1 b' hpc =>
      obtain ⟨bio, hstep, rfl⟩ := Option.map_eq_some_iff.mp hwait
      obtain rfl := (h.calling who b number asleep hcall).reading b' hpc
      exact hleft.breadStep (Function.update_self ..) hpc hdone.1 hstep
    case h_2 =>
      obtain rfl := Option.some.inj hwait
      exact hleft

theorem iderwStep (h : Inv s q) {havedisk1 : Bool} {who : ι} {b : Fin n} (hidle : s.call who = .idle)
    (hhas : (s.bio.proc who).Has b) (hreading : ∀ b', (s.bio.proc who).pc = .reading b' → b' = b)
    (hiderw : s.iderw havedisk1 who b = some s') : Inv s' (q ++ [b]) := by
  obtain ⟨hmem, hcalls⟩ := h.free_of_has hidle hhas
  have hqueued := h.queued
  have hfuel : q.length ≤ n := by
    have hcard := h.queue.nodup.length_le_card
    rwa [Fintype.card_fin] at hcard
  obtain ⟨queue, happend, hqueue⟩ := h.queue.append hmem hfuel
  obtain ⟨hdone, queue', drive, happend', hdrive, rfl⟩ := iderw_eq_some hiderw
  rw [happend] at happend'
  obtain rfl := Option.some.inj happend'
  have hworking : Working { s with drive } (q ++ [b]) := by
    have hhead := hqueue.head_eq
    obtain ⟨hfirst, hrange, rfl⟩ | ⟨hne, rfl⟩ := hdrive
    · cases q with
      | nil => exact ⟨hrange, Or.inl rfl⟩
      | cons first rest =>
          rw [hhead] at hfirst
          exact absurd (Option.some.inj hfirst ▸ List.mem_cons_self) hmem
    · cases q with
      | nil => exact absurd hhead hne
      | cons first rest => exact h.drive
  unfold State.setCall
  dsimp only
  have hcallOf : ∀ other b' number asleep,
      Function.update s.call who (.iderw b s.queued.length true) other = .iderw b' number asleep →
        other = who ∧ b' = b ∧ number = s.queued.length ∨
          (other ≠ who ∧ b' ≠ b) ∧ s.call other = .iderw b' number asleep := by
    intro other b' number asleep hcall
    by_cases hother : other = who
    · rw [hother, Function.update_self] at hcall
      obtain ⟨rfl, rfl, -⟩ := Call.iderw.inj hcall
      exact Or.inl ⟨hother, rfl, rfl⟩
    · rw [Function.update_of_ne hother] at hcall
      exact Or.inr ⟨hcalls other b' number asleep hcall, hcall⟩
  constructor
  case bio => exact h.bio
  case dev => exact h.dev
  case queue => exact hqueue
  case queued =>
    dsimp only
    rw [hqueued, List.append_assoc]
  case calling =>
    intro other b' number asleep hcall
    obtain ⟨rfl, rfl, rfl⟩ | ⟨⟨-, hne⟩, hcall⟩ := hcallOf other b' number asleep hcall
    · refine ⟨hhas, hreading, ?_, ?_⟩
      · dsimp only
        rw [List.getElem?_append_right (Nat.le_refl _), Nat.sub_self]
        rfl
      · intro hlt
        dsimp only at hlt
        rw [hqueued, List.length_append] at hlt
        omega
    · have hold := h.calling other b' number asleep hcall
      refine ⟨hold.has, hold.reading, ?_, ?_⟩
      · have hlt := (List.getElem?_eq_some_iff.mp hold.queued).1
        dsimp only
        rw [List.getElem?_append_left hlt]
        exact hold.queued
      · intro hlt
        obtain ⟨hdone', hawake, hsync⟩ := hold.served hlt
        refine ⟨hdone', hawake, ?_⟩
        dsimp only
        rw [Function.update_of_ne hne]
        exact hsync
  case pending =>
    intro b' hb'
    dsimp only
    obtain hb' | hb' := List.mem_append.mp hb'
    · obtain ⟨other, number, asleep, hcall, hle⟩ := h.pending b' hb'
      refine ⟨other, number, asleep, ?_, hle⟩
      rw [Function.update_of_ne (hcalls other b' number asleep hcall).1]
      exact hcall
    · obtain rfl := List.mem_singleton.mp hb'
      refine ⟨who, s.queued.length, true, Function.update_self .., ?_⟩
      rw [hqueued, List.length_append]
      omega
  case flags =>
    intro b' hb'
    obtain hin | hin := List.mem_append.mp hb'
    · obtain ⟨hdone', hsync⟩ := h.flags b' hin
      have hne : b' ≠ b := by
        rintro rfl
        exact hmem hin
      refine ⟨hdone', ?_⟩
      dsimp only
      rw [Function.update_of_ne hne]
      exact hsync
    · obtain rfl := List.mem_singleton.mp hin
      exact ⟨hdone, Function.update_self ..⟩
  case drive =>
    cases q with
    | nil => exact hworking
    | cons first rest => exact hworking
  case synced =>
    intro b' hb'
    dsimp only at hb'
    have hne : b' ≠ b := by
      rintro rfl
      rw [Function.update_self] at hb'
      cases hb'
    rw [Function.update_of_ne hne] at hb'
    exact h.synced b' hb'

theorem finishStep (h : Inv s q) {havedisk1 : Bool} {err : Option D}
    (hstep : step havedisk1 s (.finish err) = some s') : Inv s' q := by
  simp only [step] at hstep
  split at hstep
  case h_2 => cases hstep
  case h_1 cmd hbusy =>
    have hdrive := h.drive
    cases q with
    | nil =>
        have hidle : s.drive = .idle := hdrive
        rw [hidle] at hbusy
        cases hbusy
    | cons b rest =>
        obtain ⟨hrange, hdrive⟩ := hdrive
        obtain rfl : s.command b = cmd := by
          obtain heq | ⟨_, _, heq, -⟩ := hdrive
          · rw [hbusy] at heq
            exact (Drive.busy.inj heq).symm
          · rw [hbusy] at heq
            cases heq
        have hpos := h.refcnt_pos_of_mem (List.mem_cons_self (a := b) (l := rest))
        rw [command_sector s b hrange, command_unit s b (h.dev b), command_write] at hstep
        cases hdirty : s.dirty b with
        | false =>
            rw [hdirty] at hstep
            obtain rfl := Option.some.inj hstep
            refine ⟨h.bio, h.dev, h.queue, h.queued, ?_, h.pending, h.flags, ⟨hrange, Or.inr ⟨_, _, rfl, ?_⟩⟩, h.synced⟩
            · intro who b' number asleep hcall
              have hold := h.calling who b' number asleep hcall
              exact ⟨hold.has, hold.reading, hold.queued, hold.served⟩
            · intro _
              dsimp only
              rw [hdirty]
              rfl
        | true =>
            rw [hdirty] at hstep
            obtain rfl := Option.some.inj hstep
            refine ⟨h.bio, h.dev, h.queue, h.queued, ?_, h.pending, h.flags, ⟨hrange, Or.inr ⟨_, _, rfl, ?_⟩⟩, ?_⟩
            · intro who b' number asleep hcall
              have hold := h.calling who b' number asleep hcall
              exact ⟨hold.has, hold.reading, hold.queued, hold.served⟩
            · intro herr
              obtain rfl : err = none := Option.isNone_iff_eq_none.mp (by simpa using herr)
              unfold State.block State.setDisk
              dsimp only
              rw [hdirty, Function.update_self, Function.update_self]
              rfl
            · intro b' hb'
              obtain ⟨hvalid, hdata⟩ := h.synced b' hb'
              refine ⟨hvalid, ?_⟩
              have hne : b' ≠ b := by
                rintro rfl
                have hsync := (h.flags b' List.mem_cons_self).2
                change s.synced b' = true at hb'
                rw [hsync] at hb'
                cases hb'
              change s.data b' = _
              rw [hdata]
              unfold State.block State.setDisk
              dsimp only
              by_cases hdev : (s.bio.cache.buf b').dev = (s.bio.cache.buf b).dev
              · have hblockno : (s.bio.cache.buf b').blockno ≠ (s.bio.cache.buf b).blockno := by
                  intro hblockno
                  exact hne (h.key_inj hpos hvalid (Prod.ext hdev hblockno))
                rw [hdev, Function.update_self, Function.update_of_ne hblockno]
              · rw [Function.update_of_ne hdev]

theorem wakeup_eq {b : Fin n} {who : ι} {b' : Fin n} {number : Nat} {asleep : Bool}
    (hcall : s.wakeup b who = .iderw b' number asleep) :
    ∃ before, s.call who = .iderw b' number before ∧ asleep = if b' = b then false else before := by
  unfold State.wakeup at hcall
  split at hcall
  case h_1 b'' number'' before hbefore =>
    obtain ⟨rfl, rfl, rfl⟩ := Call.iderw.inj hcall
    exact ⟨before, hbefore, rfl⟩
  case h_2 => cases hcall

theorem completeStep {b : Fin n} {rest : List (Fin n)} (h : Inv s (b :: rest)) {err : Bool} {read : D}
    (hblock : err = false → s.block b = if s.dirty b then s.data b else read) {drive : Drive D}
    (hworking : Working { s.complete b err read with drive } rest) : Inv { s.complete b err read with drive } rest := by
  have hnotin : b ∉ rest := (List.nodup_cons.mp h.queue.nodup).1
  have hqueued : s.queued = s.served ++ [b] ++ rest := by rw [h.queued, List.append_assoc, List.singleton_append]
  have hlength : (s.served ++ [b]).length = s.served.length + 1 := by rw [List.length_append, List.length_singleton]
  have hbuf : ∀ b', (((s.complete b err read).bio.cache.buf b').key = (s.bio.cache.buf b').key) ∧
      (b' ≠ b → (s.complete b err read).bio.cache.buf b' = s.bio.cache.buf b') := by
    intro b'
    unfold State.complete
    dsimp only
    by_cases hne : b' = b
    · rw [hne, Bcache.setBuf_buf_self]
      exact ⟨rfl, fun h => absurd rfl h⟩
    · rw [Bcache.setBuf_buf_of_ne _ _ hne]
      exact ⟨rfl, fun _ => rfl⟩
  have hdone : ∀ b', b' ≠ b → ((s.complete b err read).Done b' ↔ s.Done b') := by
    intro b' hne
    unfold State.Done
    rw [(hbuf b').2 hne]
    unfold State.complete
    dsimp only
    rw [Function.update_of_ne hne]
  have hsync : ∀ b', b' ≠ b → (s.complete b err read).synced b' = s.synced b' ∧
      (s.complete b err read).error b' = s.error b' :=
    fun b' hne => ⟨Function.update_of_ne hne _ _, Function.update_of_ne hne _ _⟩
  constructor
  case bio =>
    obtain ⟨nodes, hbio⟩ := h.bio
    exact ⟨nodes, hbio.setValid (h.refcnt_pos_of_mem List.mem_cons_self)⟩
  case dev =>
    intro b'
    have hdev := (Prod.mk.inj (hbuf b').1).1
    dsimp only
    rw [hdev]
    exact h.dev b'
  case queue => exact h.queue.tail
  case queued => exact hqueued
  case calling =>
    intro who b' number asleep hcall
    obtain ⟨before, hbefore, rfl⟩ := wakeup_eq hcall
    have hold := h.calling who b' number before hbefore
    refine ⟨hold.has, hold.reading, hold.queued, ?_⟩
    intro hlt
    change number < (s.served ++ [b]).length at hlt
    rw [hlength] at hlt
    by_cases hne : b' = b
    · subst hne
      refine ⟨⟨?_, Function.update_self ..⟩, if_pos rfl, ?_⟩
      · change (((s.bio.cache.setBuf b' { s.bio.cache.buf b' with content := true }).buf b').content) = true
        rw [Bcache.setBuf_buf_self]
      · intro herr
        change Function.update s.error b' err b' = false at herr
        change Function.update s.synced b' (!err) b' = true
        rw [Function.update_self] at herr ⊢
        rw [herr]
        rfl
    · have hserved : number < s.served.length := by
        by_contra hle
        obtain rfl : number = s.served.length := by omega
        have hget := hold.queued
        rw [hqueued, List.append_assoc, List.getElem?_append_right (Nat.le_refl _), Nat.sub_self] at hget
        exact hne (Option.some.inj hget).symm
      obtain ⟨hdone', hawake, hsynced⟩ := hold.served hserved
      refine ⟨(hdone b' hne).mpr hdone', ?_, ?_⟩
      · rw [if_neg hne, hawake]
      · rw [← (hsync b' hne).1, ← (hsync b' hne).2] at hsynced
        exact hsynced
  case pending =>
    intro b' hb'
    have hne : b' ≠ b := by
      rintro rfl
      exact hnotin hb'
    obtain ⟨who, number, asleep, hcall, hle⟩ := h.pending b' (List.mem_cons_of_mem b hb')
    refine ⟨who, number, asleep, ?_, ?_⟩
    · change s.wakeup b who = _
      unfold State.wakeup
      rw [hcall]
      dsimp only
      rw [if_neg hne]
    · change (s.served ++ [b]).length ≤ number
      rw [hlength]
      by_contra hlt
      obtain rfl : number = s.served.length := by omega
      have hget := (h.calling who b' _ asleep hcall).queued
      rw [hqueued, List.append_assoc, List.getElem?_append_right (Nat.le_refl _), Nat.sub_self] at hget
      exact hne (Option.some.inj hget).symm
  case flags =>
    intro b' hb'
    have hne : b' ≠ b := by
      rintro rfl
      exact hnotin hb'
    obtain ⟨hdone', hsynced⟩ := h.flags b' (List.mem_cons_of_mem b hb')
    refine ⟨fun hdone'' => hdone' ((hdone b' hne).mp hdone''), ?_⟩
    rw [← (hsync b' hne).1] at hsynced
    exact hsynced
  case drive => exact hworking
  case synced =>
    intro b' hb'
    obtain ⟨hdev, hblockno⟩ := Prod.mk.inj (hbuf b').1
    have hsame : State.block { s.complete b err read with drive } b' = s.block b' := by
      unfold State.block
      dsimp only
      rw [hdev, hblockno]
      rfl
    rw [hsame]
    by_cases hne : b' = b
    · subst hne
      have herr : err = false := by
        change Function.update s.synced b' (!err) b' = true at hb'
        rw [Function.update_self] at hb'
        simpa using hb'
      refine ⟨?_, ?_⟩
      · change (((s.bio.cache.setBuf b' { s.bio.cache.buf b' with content := true }).buf b').content) = true
        rw [Bcache.setBuf_buf_self]
      · rw [hblock herr]
        change (if s.dirty b' = false ∧ err = false then Function.update s.data b' read else s.data) b' = _
        cases hdirty : s.dirty b' with
        | false => rw [if_pos ⟨rfl, herr⟩, Function.update_self, if_neg Bool.false_ne_true]
        | true => rw [if_neg (by simp), if_pos rfl]
    · change (s.complete b err read).synced b' = true at hb'
      rw [(hsync b' hne).1] at hb'
      obtain ⟨hvalid, hdata⟩ := h.synced b' hb'
      refine ⟨?_, ?_⟩
      · change ((s.complete b err read).bio.cache.buf b').content = true
        rw [(hbuf b').2 hne]
        exact hvalid
      · rw [← hdata]
        change (if s.dirty b = false ∧ err = false then Function.update s.data b read else s.data) b' = _
        split
        · exact Function.update_of_ne hne _ _
        · rfl

theorem ideintrStep (h : Inv s q) {cmd : Command D} {err : Bool} {read : D} (hfinished : s.drive = .finished cmd err read)
    (hintr : s.ideintr err read = some s') : ∃ rest, Inv s' rest := by
  have hdrive := h.drive
  cases q with
  | nil =>
      have hidle : s.drive = .idle := hdrive
      rw [hidle] at hfinished
      cases hfinished
  | cons b rest =>
      refine ⟨rest, ?_⟩
      obtain ⟨-, hdrive⟩ := hdrive
      have hblock : err = false → s.block b = if s.dirty b then s.data b else read := by
        obtain heq | ⟨_, _, heq, hblock⟩ := hdrive
        · rw [hfinished] at heq
          cases heq
        · rw [hfinished] at heq
          obtain ⟨-, rfl, rfl⟩ := Drive.finished.inj heq
          exact hblock
      have hhead : s.queue.head = some b := h.queue.head_eq
      have htail : (s.complete b err read).queue.head = rest.head? := h.queue.tail.head_eq
      unfold State.ideintr at hintr
      rw [hhead] at hintr
      dsimp only at hintr
      rw [htail] at hintr
      cases rest with
      | nil =>
          obtain rfl := Option.some.inj hintr
          have hidle : Working { s.complete b err read with drive := Drive.idle } [] := rfl
          exact h.completeStep hblock hidle
      | cons next rest =>
          obtain ⟨hrange, rfl⟩ := idestart_eq_some hintr
          exact h.completeStep hblock ⟨hrange, Or.inl rfl⟩

theorem step (h : Inv s q) {havedisk1 : Bool} {action : Action n ι D}
    (hstep : Ide.step havedisk1 s action = some s') : ∃ q', Inv s' q' := by
  cases action with
  | cache action =>
      simp only [Ide.step] at hstep
      split at hstep
      case isFalse => cases hstep
      case isTrue hout =>
        obtain ⟨bio, hbio, rfl⟩ := Option.map_eq_some_iff.mp hstep
        exact ⟨q, h.cacheStep hout hbio⟩
  | bread who =>
      simp only [Ide.step] at hstep
      split at hstep
      case h_2 => cases hstep
      case h_1 b hidle hpc =>
        split at hstep
        case isTrue hvalid =>
          obtain ⟨bio, hbio, rfl⟩ := Option.map_eq_some_iff.mp hstep
          exact ⟨q, h.breadStep hidle hpc hvalid hbio⟩
        case isFalse =>
          refine ⟨q ++ [b], h.iderwStep hidle (Or.inr hpc) ?_ hstep⟩
          intro b' hpc'
          rw [hpc] at hpc'
          exact (Bio.Pc.reading.inj hpc').symm
  | bwrite who b =>
      simp only [Ide.step] at hstep
      split at hstep
      case isFalse => cases hstep
      case isTrue hguard =>
        obtain ⟨hidle, hbwrite⟩ := hguard
        simp only [Bio.step] at hbwrite
        split at hbwrite
        case isFalse => cases hbwrite
        case isTrue hheld =>
          have hown : Inv { s with dirty := Function.update s.dirty b true } q :=
            h.ownStep (b := b) hidle (Or.inl hheld.2.1) (fun _ _ => rfl) (fun b' hne => Function.update_of_ne hne _ _)
              (fun _ _ => rfl) fun hb => ⟨hb, rfl⟩
          refine ⟨q ++ [b], hown.iderwStep hidle (Or.inl hheld.2.1) ?_ hstep⟩
          intro b' hpc
          have hpc' : (s.bio.proc who).pc = .reading b' := hpc
          rw [hheld.1] at hpc'
          cases hpc'
  | modify who b data =>
      simp only [Ide.step] at hstep
      split at hstep
      case isFalse => cases hstep
      case isTrue hguard =>
        obtain rfl := Option.some.inj hstep
        refine ⟨q, h.ownStep (b := b) hguard.1 (Or.inl hguard.2.2) (fun b' hne => Function.update_of_ne hne _ _)
          (fun _ _ => rfl) (fun b' hne => Function.update_of_ne hne _ _) ?_⟩
        intro hb
        rw [Function.update_self] at hb
        cases hb
  | resume who =>
      simp only [Ide.step] at hstep
      split at hstep
      case h_2 => cases hstep
      case h_1 b number hcall => exact ⟨q, h.waitStep hcall hstep⟩
  | kill who =>
      simp only [Ide.step] at hstep
      split at hstep
      case h_2 => cases hstep
      case h_1 b number hcall =>
        obtain rfl := Option.some.inj hstep
        exact ⟨q, h.callStep hcall fun _ => rfl⟩
  | finish err => exact ⟨q, h.finishStep hstep⟩
  | ideintr =>
      simp only [Ide.step] at hstep
      split at hstep
      case h_2 => cases hstep
      case h_1 cmd err read hfinished => exact h.ideintrStep hfinished hstep

theorem start (zero : D) (disk : Nat → Nat → D) : Inv (Ide.start zero disk : State n ι D) [] where
  bio := ⟨_, Bio.Inv.start⟩
  dev _ := Nat.succ_pos 1
  queue := ⟨List.nodup_nil, rfl⟩
  queued := rfl
  calling who b number asleep hcall := by cases hcall
  pending b hb := by cases hb
  flags b hb := by cases hb
  drive := rfl
  synced b hb := by cases hb

end Inv

end Xv6.Ide
