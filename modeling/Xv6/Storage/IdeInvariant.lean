import Xv6.Storage.Ide

/-!
# What holds of the IDE driver at every point

`Inv` says which list the queue represents. The drive works on its first buffer; a buffer in the queue belongs to
one process, which is inside `iderw`, and has flags that do not let it return.
-/

set_option linter.unusedSectionVars false

namespace Xv6

theorem Bio.Inv.setValid {n : Nat} {ι : Type} [DecidableEq ι] [Fintype ι] {state : Bio.State n ι} {nodes : List (Fin n)}
    (h : Bio.Inv state nodes) {b : Fin n} (hpos : 0 < (state.cache.buf b).refcnt) :
    Bio.Inv { state with cache := state.cache.setBuf b { state.cache.buf b with content := true } } nodes := by
  have hbuf : ∀ b', ((state.cache.setBuf b { state.cache.buf b with content := true }).buf b').refcnt =
      (state.cache.buf b').refcnt ∧
      ((state.cache.setBuf b { state.cache.buf b with content := true }).buf b').owner = (state.cache.buf b').owner := by
    intro b'
    by_cases hb : b' = b
    · rw [hb, Bcache.setBuf_buf_self]
      exact ⟨rfl, rfl⟩
    · rw [Bcache.setBuf_buf_of_ne _ _ hb]
      exact ⟨rfl, rfl⟩
  constructor
  case ring => exact h.ring
  case complete => exact h.complete
  case refcnt =>
    intro b'
    rw [(hbuf b').1]
    exact h.refcnt b'
  case owner =>
    intro who b'
    rw [(hbuf b').2]
    exact h.owner who b'
  case notHeld => exact h.notHeld
  case ids => exact h.ids.setBuf_inUse rfl hpos hpos
  case invalid =>
    intro b' hb'
    by_cases hb : b' = b
    · rw [hb, Bcache.setBuf_buf_self] at hb'
      cases hb'
    · rw [Bcache.setBuf_buf_of_ne _ _ hb] at hb' ⊢
      exact h.invalid b' hb'
  case clock => exact h.clock

namespace Ide

variable {n : Nat} {ι D : Type} [DecidableEq ι]

/-! ### Commands -/

section Commands

variable (s : State n ι D) (b : Fin n)

theorem command_sector (hrange : (s.bio.cache.buf b).blockno < fssize) :
    (s.command b).sector = (s.bio.cache.buf b).blockno := by
  unfold State.command Command.sector sectorPerBlock
  unfold fssize at hrange
  dsimp only
  omega

theorem command_unit (hdev : (s.bio.cache.buf b).dev < 2) : (s.command b).unit = (s.bio.cache.buf b).dev := by
  unfold State.command Command.unit
  dsimp only
  omega

theorem command_write : (s.command b).write = if s.dirty b then some (s.data b) else none := rfl

variable {s b}

theorem command_congr {s' : State n ι D} (hkey : (s'.bio.cache.buf b).key = (s.bio.cache.buf b).key)
    (hdirty : s'.dirty b = s.dirty b) (hdata : s'.data b = s.data b) : s'.command b = s.command b := by
  obtain ⟨hdev, hblockno⟩ := Prod.mk.inj hkey
  unfold State.command
  dsimp only
  rw [hdev, hblockno, hdirty, hdata]

end Commands

/-! ### The invariant -/

def State.block (s : State n ι D) (b : Fin n) : D := s.disk (s.bio.cache.buf b).dev (s.bio.cache.buf b).blockno

/-- The drive works on the first buffer of the queue, or has finished with it. -/
def Working (s : State n ι D) : List (Fin n) → Prop
  | [] => s.drive = .idle
  | b :: _ => (s.bio.cache.buf b).blockno < fssize ∧
      (s.drive = .busy (s.command b) ∨ ∃ err read, s.drive = .finished (s.command b) err read ∧
        (err = false → s.block b = if s.dirty b then s.data b else read))

/-- What is known of a process inside `iderw`. -/
structure Calling (s : State n ι D) (who : ι) (b : Fin n) (number : Nat) (asleep : Bool) : Prop where
  has : (s.bio.proc who).Has b
  reading : ∀ b', (s.bio.proc who).pc = .reading b' → b' = b
  queued : s.queued[number]? = some b
  served : number < s.served.length → s.Done b ∧ asleep = false ∧ (s.error b = false → s.synced b = true)

structure Inv [Fintype ι] (s : State n ι D) (q : List (Fin n)) : Prop where
  bio : ∃ nodes, Bio.Inv s.bio nodes
  dev : ∀ b, (s.bio.cache.buf b).dev < 2
  queue : s.queue.IsQueue q
  queued : s.queued = s.served ++ q
  calling : ∀ who b number asleep, s.call who = .iderw b number asleep → Calling s who b number asleep
  pending : ∀ b ∈ q, ∃ who number asleep, s.call who = .iderw b number asleep ∧ s.served.length ≤ number
  flags : ∀ b ∈ q, ¬ s.Done b ∧ s.synced b = false
  drive : Working s q
  synced : ∀ b, s.synced b = true → (s.bio.cache.buf b).content = true ∧ s.data b = s.block b

variable [Fintype ι] {s s' : State n ι D} {q : List (Fin n)}

namespace Inv

theorem refcnt_pos (h : Inv s q) {who : ι} {b : Fin n} (hhas : (s.bio.proc who).Has b) :
    0 < (s.bio.cache.buf b).refcnt := by
  obtain ⟨nodes, hbio⟩ := h.bio
  obtain hheld | hreading := hhas
  · exact hbio.refcnt_pos_of_held hheld
  · exact hbio.refcnt_pos_of_pc (Or.inr (Or.inl hreading))

theorem has_unique (h : Inv s q) {who who' : ι} {b : Fin n} (hhas : (s.bio.proc who).Has b)
    (hhas' : (s.bio.proc who').Has b) : who = who' := by
  obtain ⟨nodes, hbio⟩ := h.bio
  have howner := (hbio.owner_iff_has who b).mpr hhas
  rw [(hbio.owner_iff_has who' b).mpr hhas'] at howner
  exact (Option.some.inj howner).symm

theorem free_of_has (h : Inv s q) {who : ι} {b : Fin n} (hidle : s.call who = .idle)
    (hhas : (s.bio.proc who).Has b) :
    b ∉ q ∧ ∀ other b' number asleep, s.call other = .iderw b' number asleep → other ≠ who ∧ b' ≠ b := by
  have hcalls : ∀ other b' number asleep, s.call other = .iderw b' number asleep → other ≠ who ∧ b' ≠ b := by
    intro other b' number asleep hcall
    refine ⟨?_, ?_⟩
    · rintro rfl
      rw [hidle] at hcall
      cases hcall
    · rintro rfl
      have heq := h.has_unique hhas (h.calling other b' number asleep hcall).has
      rw [← heq, hidle] at hcall
      cases hcall
  refine ⟨?_, hcalls⟩
  intro hmem
  obtain ⟨other, number, asleep, hcall, -⟩ := h.pending b hmem
  exact (hcalls other b number asleep hcall).2 rfl

theorem key_inj (h : Inv s q) {b b' : Fin n} (hpos : 0 < (s.bio.cache.buf b).refcnt)
    (hvalid : (s.bio.cache.buf b').content = true) (hkey : (s.bio.cache.buf b').key = (s.bio.cache.buf b).key) :
    b' = b := by
  obtain ⟨nodes, hbio⟩ := h.bio
  obtain heq | hzero | hzero := hbio.ids.key b' b hkey
  · exact heq
  · rw [hzero] at hvalid
    cases hvalid
  · exact absurd hzero (Bio.Identities.ne_zero_of_refcnt hpos)

theorem refcnt_pos_of_mem (h : Inv s q) {b : Fin n} (hb : b ∈ q) : 0 < (s.bio.cache.buf b).refcnt := by
  obtain ⟨who, number, asleep, hcall, -⟩ := h.pending b hb
  exact h.refcnt_pos (h.calling who b number asleep hcall).has

end Inv

structure Apart (s s' : State n ι D) (q : List (Fin n)) : Prop where
  queue : s'.queue = s.queue
  queued : s'.queued = s.queued
  served : s'.served = s.served
  drive : s'.drive = s.drive
  disk : s'.disk = s.disk
  error : s'.error = s.error
  key : ∀ b, (b ∈ q ∨ ∃ who number asleep, s.call who = .iderw b number asleep) →
    (s'.bio.cache.buf b).key = (s.bio.cache.buf b).key ∧
      (s'.bio.cache.buf b).content = (s.bio.cache.buf b).content ∧ s'.dirty b = s.dirty b ∧ s'.data b = s.data b ∧
        s'.synced b = s.synced b

theorem Apart.done_iff (h : Apart s s' q) {b : Fin n}
    (hb : b ∈ q ∨ ∃ who number asleep, s.call who = .iderw b number asleep) : s'.Done b ↔ s.Done b := by
  obtain ⟨-, hcontent, hdirty, -, -⟩ := h.key b hb
  unfold State.Done
  rw [hcontent, hdirty]

theorem Apart.working (h : Apart s s' q) (hworking : Working s q) : Working s' q := by
  cases q with
  | nil => exact h.drive.trans hworking
  | cons b rest =>
      obtain ⟨hkey, -, hdirty, hdata, -⟩ := h.key b (Or.inl List.mem_cons_self)
      obtain ⟨hdev, hblockno⟩ := Prod.mk.inj hkey
      have hcommand := command_congr hkey hdirty hdata
      simp only [Working, State.block] at hworking ⊢
      rw [hcommand, hblockno, hdev, hdirty, hdata, h.drive, h.disk]
      exact hworking

theorem Inv.apart (h : Inv s q) (hapart : Apart s s' q) (hbio : ∃ nodes, Bio.Inv s'.bio nodes)
    (hdev : ∀ b, (s'.bio.cache.buf b).dev < 2)
    (hcalling : ∀ who b number asleep, s'.call who = .iderw b number asleep → s'.bio.proc who = s.bio.proc who ∧
      ∃ before, s.call who = .iderw b number before ∧ (number < s.served.length → before = false → asleep = false))
    (hpending : ∀ who b number asleep, s.call who = .iderw b number asleep → s.served.length ≤ number →
      ∃ after, s'.call who = .iderw b number after)
    (hsynced : ∀ b, s'.synced b = true → (s'.bio.cache.buf b).content = true ∧ s'.data b = s'.block b) : Inv s' q where
  bio := hbio
  dev := hdev
  queue := by
    rw [hapart.queue]
    exact h.queue
  queued := by
    rw [hapart.queued, hapart.served]
    exact h.queued
  calling who b number asleep hcall := by
    obtain ⟨hproc, before, hbefore, hasleep⟩ := hcalling who b number asleep hcall
    have hold := h.calling who b number before hbefore
    have hin : b ∈ q ∨ ∃ who number asleep, s.call who = .iderw b number asleep := Or.inr ⟨who, number, before, hbefore⟩
    refine ⟨by rw [hproc]; exact hold.has, by rw [hproc]; exact hold.reading, ?_, ?_⟩
    · rw [hapart.queued]
      exact hold.queued
    · intro hserved
      rw [hapart.served] at hserved
      obtain ⟨hdone, hawake, hsync⟩ := hold.served hserved
      obtain ⟨-, -, -, -, hsame⟩ := hapart.key b hin
      refine ⟨(hapart.done_iff hin).mpr hdone, hasleep hserved hawake, ?_⟩
      rw [hapart.error, hsame]
      exact hsync
  pending b hb := by
    obtain ⟨who, number, asleep, hcall, hle⟩ := h.pending b hb
    obtain ⟨after, hafter⟩ := hpending who b number asleep hcall hle
    rw [hapart.served]
    exact ⟨who, number, after, hafter, hle⟩
  flags b hb := by
    obtain ⟨-, -, -, -, hsame⟩ := hapart.key b (Or.inl hb)
    rw [hapart.done_iff (Or.inl hb), hsame]
    exact h.flags b hb
  drive := hapart.working h.drive
  synced := hsynced

end Ide

end Xv6
