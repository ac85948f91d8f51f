import Xv6.Storage.LegacyCrash
import Xv6.Storage.LegacySpecs

/-!
# What the owner of the legacy log does to the disk

One process at a time writes the disk: the one in the transaction, or the one that recovers the log.
It knows the whole disk, the header in memory and the histories, its `Journal`. The functions of the
log are specified against that, and every write of a sector has to leave a disk from which the log
can be recovered.
-/

namespace Xv6.Legacy.Recovery

open Xv6.Kernel (base base_append pendingOf pendingOf_append)

variable {n : Nat} {D : Type} {disk : Disk D} {init : Nat → D}

structure Journal (D : Type) where
  memdisk : Nat → D
  lh : Logheader
  current : List (Nat × D)
  committed : List (List (Nat × D))

namespace Journal

def based (journal : Journal D) (init : Nat → D) : Nat → D := base init journal.committed

def write (disk : Disk D) (journal : Journal D) (blockno : Nat) (data : D) : Journal D :=
  if blockno = disk.log.start ∧ disk.log.header.decode data ≠ [] then
    { journal with
      memdisk := Function.update journal.memdisk blockno data
      current := []
      committed := journal.committed ++ [journal.current] }
  else { journal with memdisk := Function.update journal.memdisk blockno data }

def Recoverable (disk : Disk D) (init : Nat → D) (journal : Journal D) (lh : List Nat) : Prop :=
  Kernel.Recoverable disk.log journal.memdisk (journal.based init) lh (journal.based init)

structure Quiet (disk : Disk D) (init : Nat → D) (journal : Journal D) : Prop where
  n : journal.lh.n = 0
  header : disk.log.header.decode (journal.memdisk disk.log.start) = []
  home : ∀ blockno, disk.log.Home blockno → journal.memdisk blockno = journal.based init blockno

/-- A transaction has logged `current`: each sector has a slot, which holds what was logged last. -/
structure Logging (disk : Disk D) (init : Nat → D) (journal : Journal D) : Prop where
  wellFormed : Kernel.Job.WellFormed disk.log (entries journal.lh)
  header : disk.log.header.decode (journal.memdisk disk.log.start) = []
  home : ∀ blockno, disk.log.Home blockno → journal.memdisk blockno = journal.based init blockno
  slot : ∀ i, i < journal.lh.n →
    pendingOf journal.current (journal.lh.sector i) = some (journal.memdisk (disk.log.start + i + 1))
  named : ∀ blockno, (pendingOf journal.current blockno).isSome → blockno ∈ entries journal.lh

/-- The first `count` sectors of the header have been installed. -/
structure Installing (disk : Disk D) (init : Nat → D) (lh : List Nat) (count : Nat)
    (journal : Journal D) : Prop where
  recoverable : journal.Recoverable disk init lh
  installed : ∀ i, (hi : i < lh.length) → i < count →
    journal.memdisk lh[i] = journal.based init lh[i]

variable {journal : Journal D} {blockno : Nat} {data : D}

theorem write_eq (hno : blockno = disk.log.start → disk.log.header.decode data = []) :
    journal.write disk blockno data =
      { journal with memdisk := Function.update journal.memdisk blockno data } :=
  if_neg fun hcommit => hcommit.2 (hno hcommit.1)

theorem memdisk_write :
    (journal.write disk blockno data).memdisk = Function.update journal.memdisk blockno data := by
  unfold write
  split <;> rfl

theorem lh_write : (journal.write disk blockno data).lh = journal.lh := by
  unfold write
  split <;> rfl

theorem based_write (hno : blockno = disk.log.start → disk.log.header.decode data = []) :
    (journal.write disk blockno data).based init = journal.based init := by
  rw [write_eq hno]
  rfl

theorem based_commit (hcommit : disk.log.header.decode data ≠ []) :
    (journal.write disk disk.log.start data).based init blockno =
      (pendingOf journal.current blockno).getD (journal.based init blockno) := by
  rw [write, if_pos ⟨rfl, hcommit⟩]
  exact base_append init journal.committed journal.current blockno

theorem Quiet.recoverable (h : journal.Quiet disk init) : journal.Recoverable disk init [] :=
  .nil h.header h.home

theorem Logging.recoverable (h : journal.Logging disk init) : journal.Recoverable disk init [] :=
  .nil h.header h.home

theorem Quiet.logging (h : journal.Quiet disk init) (hcurrent : journal.current = []) :
    journal.Logging disk init where
  wellFormed := by
    have hnil : entries journal.lh = [] := by simp [entries, h.n]
    rw [hnil]
    exact ⟨List.nodup_nil, Nat.zero_le _, fun hne => absurd rfl hne, by simp⟩
  header := h.header
  home := h.home
  slot i hi := by
    rw [h.n] at hi
    exact absurd hi (Nat.not_lt_zero i)
  named blockno hsome := by simp [hcurrent, pendingOf] at hsome

theorem Logging.quiet (h : journal.Logging disk init) (hn : journal.lh.n = 0) :
    journal.Quiet disk init := ⟨hn, h.header, h.home⟩

theorem length_entries (lh : Logheader) : (entries lh).length = lh.n := by simp [entries]

theorem getElem_entries {lh : Logheader} {i : Nat} (hi : i < (entries lh).length) :
    (entries lh)[i] = lh.sector i := by simp [entries]

theorem decode_encode {lh : Logheader} (hlh : Kernel.Job.WellFormed disk.log (entries lh)) :
    disk.log.header.decode (disk.conf.encode lh data) = entries lh :=
  disk.log.header.decode_encode _ _ hlh.length_le fun blockno hmem => (hlh.home blockno hmem).2

theorem start_ne_home (hhome : disk.log.Home blockno) : disk.log.start ≠ blockno := by
  rintro rfl
  exact disk.log.not_home_start hhome

theorem slot_ne_home {i : Nat} (hi : i + 1 < disk.log.size) (hhome : disk.log.Home blockno) :
    disk.log.start + i + 1 ≠ blockno := by
  rintro rfl
  exact disk.log.not_home_slot hi hhome

theorem slot_ne_start (i : Nat) : disk.log.start + i + 1 ≠ disk.log.start := by omega

theorem Logging.commit (h : journal.Logging disk init) (hpos : 0 < journal.lh.n) (data : D) :
    Installing disk init (entries journal.lh) 0
      (journal.write disk disk.log.start (disk.conf.encode journal.lh data)) := by
  have hdecode : disk.log.header.decode (disk.conf.encode journal.lh data) = entries journal.lh :=
    decode_encode h.wellFormed
  have hne : entries journal.lh ≠ [] := by
    rw [← List.length_pos_iff, length_entries]
    exact hpos
  rw [← hdecode] at hne
  refine ⟨⟨h.wellFormed, ?_, fun i hi => ?_, fun _ _ => rfl, fun blockno hhome hnot => ?_⟩,
    fun i hi hcount => absurd hcount (Nat.not_lt_zero i)⟩
  · rw [memdisk_write, Function.update_self]
    exact hdecode
  · rw [memdisk_write, Function.update_of_ne (slot_ne_start i), based_commit hne, getElem_entries,
      h.slot i (length_entries journal.lh ▸ hi)]
    rfl
  · have hnone : pendingOf journal.current blockno = none := by
      rw [← Option.not_isSome_iff_eq_none]
      exact fun hsome => hnot (h.named blockno hsome)
    rw [memdisk_write, Function.update_of_ne (start_ne_home hhome).symm, based_commit hne, hnone]
    exact h.home blockno hhome

theorem Installing.install {lh : List Nat} {count : Nat} (h : journal.Installing disk init lh count)
    (hcount : count < lh.length) :
    Installing disk init lh (count + 1)
      (journal.write disk lh[count] (journal.memdisk (disk.log.start + count + 1))) := by
  have hwell := h.recoverable.wellFormed
  have hhome : disk.log.Home lh[count] := hwell.home _ (List.getElem_mem hcount)
  have hroom : ∀ i, i < lh.length → i + 1 < disk.log.size := fun i hi => by
    have hne : lh ≠ [] := by
      rintro rfl
      exact absurd hi (Nat.not_lt_zero i)
    have := hwell.length_lt hne
    omega
  have hbased : (journal.write disk lh[count] (journal.memdisk (disk.log.start + count + 1))).based
      init = journal.based init :=
    based_write fun hstart => absurd hstart (start_ne_home hhome).symm
  refine ⟨⟨hwell, ?_, fun i hi => ?_, fun _ _ => rfl, fun blockno hhome' hnot => ?_⟩,
    fun i hi hle => ?_⟩
  · rw [memdisk_write, Function.update_of_ne (start_ne_home hhome)]
    exact h.recoverable.header
  · rw [memdisk_write, hbased, Function.update_of_ne (slot_ne_home (hroom i hi) hhome)]
    exact h.recoverable.slot i hi
  · have hne : blockno ≠ lh[count] := by
      rintro rfl
      exact hnot (List.getElem_mem hcount)
    rw [memdisk_write, hbased, Function.update_of_ne hne]
    exact h.recoverable.other blockno hhome' hnot
  · rw [memdisk_write, hbased]
    by_cases hi' : i = count
    · subst hi'
      rw [Function.update_self]
      exact h.recoverable.slot i hi
    · have hne : lh[i] ≠ lh[count] := fun heq => hi' ((hwell.nodup.getElem_inj_iff).mp heq)
      rw [Function.update_of_ne hne]
      exact h.installed i hi (by omega)

theorem Installing.erase {lh : List Nat} (h : journal.Installing disk init lh lh.length)
    (hn : journal.lh.n = 0) (data : D) :
    Quiet disk init (journal.write disk disk.log.start (disk.conf.encode journal.lh data)) := by
  have hnil : entries journal.lh = [] := by
    rw [← List.length_eq_zero_iff, length_entries, hn]
  have hdecode : disk.log.header.decode (disk.conf.encode journal.lh data) = [] := by
    refine (decode_encode ?_).trans hnil
    rw [hnil]
    exact ⟨List.nodup_nil, Nat.zero_le _, fun hne => absurd rfl hne, by simp⟩
  refine ⟨(congrArg Logheader.n lh_write).trans hn, ?_, fun blockno hhome => ?_⟩
  · rw [memdisk_write, Function.update_self]
    exact hdecode
  · rw [memdisk_write, based_write fun _ => hdecode, Function.update_of_ne (start_ne_home hhome).symm]
    by_cases hmem : blockno ∈ lh
    · obtain ⟨i, hi, rfl⟩ := List.getElem_of_mem hmem
      exact h.installed i hi hi
    · exact h.recoverable.other blockno hhome hmem

theorem recoverable_slot (journal : Journal D)
    (hheader : disk.log.header.decode (journal.memdisk disk.log.start) = [])
    (hhome : ∀ blockno, disk.log.Home blockno →
      journal.memdisk blockno = journal.based init blockno)
    {i : Nat} (hi : i + 1 < disk.log.size) (data : D) :
    (journal.write disk (disk.log.start + i + 1) data).Recoverable disk init [] := by
  have hbased : (journal.write disk (disk.log.start + i + 1) data).based init =
      journal.based init := based_write fun hstart => absurd hstart (slot_ne_start i)
  apply Kernel.Recoverable.nil
  · rw [memdisk_write, Function.update_of_ne (slot_ne_start i).symm]
    exact hheader
  · intro blockno hblockno
    rw [memdisk_write, hbased, Function.update_of_ne (slot_ne_home hi hblockno).symm]
    exact hhome blockno hblockno

theorem slot_cases (lh : Logheader) (blockno : Nat) :
    (lh.slot blockno < lh.n ∧ lh.sector (lh.slot blockno) = blockno) ∨
      (lh.slot blockno = lh.n ∧ blockno ∉ entries lh) := by
  unfold Logheader.slot
  cases hfound : (List.range lh.n).find? fun i => lh.sector i = blockno with
  | none =>
      refine Or.inr ⟨rfl, fun hmem => ?_⟩
      obtain ⟨i, hi, heq⟩ := List.mem_map.mp hmem
      have hnot := List.find?_eq_none.mp hfound i hi
      simp [heq] at hnot
  | some i =>
      have hmem := List.mem_range.mp (List.mem_of_find?_eq_some hfound)
      have heq := List.find?_some hfound
      exact Or.inl ⟨hmem, by simpa using heq⟩

/-- The header after `log_write`. -/
def logged (lh : Logheader) (blockno : Nat) : Logheader :=
  ⟨if lh.slot blockno = lh.n then lh.n + 1 else lh.n,
    Function.update lh.sector (lh.slot blockno) blockno⟩

theorem entries_logged (lh : Logheader) (blockno : Nat) :
    entries (logged lh blockno) =
      if blockno ∈ entries lh then entries lh else entries lh ++ [blockno] := by
  have hbefore : ∀ i, i < lh.n → lh.slot blockno = lh.n →
      Function.update lh.sector (lh.slot blockno) blockno i = lh.sector i := by
    intro i hi heq
    rw [heq]
    exact Function.update_of_ne hi.ne ..
  obtain ⟨hlt, hsector⟩ | ⟨heq, hnot⟩ := slot_cases lh blockno
  · have hmem : blockno ∈ entries lh :=
      List.mem_map.mpr ⟨_, List.mem_range.mpr hlt, hsector⟩
    have hsame : Function.update lh.sector (lh.slot blockno) blockno = lh.sector :=
      Function.update_eq_self_iff.mpr hsector.symm
    rw [if_pos hmem, logged, if_neg hlt.ne, hsame]
  · rw [if_neg hnot, logged, if_pos heq, entries, List.range_succ, List.map_append, entries]
    refine congr (congrArg _ (List.map_congr_left fun i hi => ?_)) ?_
    · exact hbefore i (List.mem_range.mp hi) heq
    · simp [heq]

theorem Logging.log (h : journal.Logging disk init) (hhome : disk.log.Home blockno)
    (hroom : ¬(journal.lh.n ≥ logSize ∨ journal.lh.n ≥ disk.log.size - 1)) (data : D) :
    Logging disk init
      { journal with
        memdisk := Function.update journal.memdisk
          (disk.log.start + journal.lh.slot blockno + 1) data
        lh := logged journal.lh blockno
        current := journal.current ++ [(blockno, data)] } := by
  have hwell := h.wellFormed
  have hslot := slot_cases journal.lh blockno
  have hle : journal.lh.slot blockno ≤ journal.lh.n := journal.lh.slot_le blockno
  have hsize : journal.lh.slot blockno + 1 < disk.log.size := by
    have hpos := disk.log.size_pos
    omega
  have hentries := entries_logged journal.lh blockno
  -- every other slot has a sector of its own
  have hother : ∀ i, i < (logged journal.lh blockno).n → i ≠ journal.lh.slot blockno →
      i < journal.lh.n ∧ journal.lh.sector i ≠ blockno := by
    intro i hi hne
    have hlt : i < journal.lh.n := by
      unfold logged at hi
      dsimp only at hi
      split at hi <;> omega
    refine ⟨hlt, fun heq => ?_⟩
    obtain ⟨hslotlt, hsector⟩ | ⟨-, hnot⟩ := hslot
    · have hinj := List.inj_on_of_nodup_map hwell.nodup (List.mem_range.mpr hlt)
        (List.mem_range.mpr hslotlt)
      exact hne (hinj (heq.trans hsector.symm))
    · exact hnot (List.mem_map.mpr ⟨i, List.mem_range.mpr hlt, heq⟩)
  refine ⟨?_, ?_, fun k hk => ?_, fun i hi => ?_, fun k hsome => ?_⟩
  · dsimp only
    rw [hentries]
    split
    · exact hwell
    · next hnot =>
        refine ⟨?_, ?_, fun _ => ?_, fun k hmem => ?_⟩
        · rw [List.nodup_append]
          refine ⟨hwell.nodup, List.nodup_singleton _, fun k hk k' hk' => ?_⟩
          rw [List.mem_singleton.mp hk']
          exact fun heq => hnot (heq ▸ hk)
        · rw [List.length_append, length_entries, List.length_singleton]
          have hcapacity : logSize ≤ Xv6.logSize := by decide
          omega
        · rw [List.length_append, length_entries, List.length_singleton]
          omega
        · obtain hmem | hmem := List.mem_append.mp hmem
          · exact hwell.home k hmem
          · exact List.mem_singleton.mp hmem ▸ hhome
  · exact (congrArg _ (Function.update_of_ne (slot_ne_start _).symm ..)).trans h.header
  · exact (Function.update_of_ne (slot_ne_home hsize hk).symm ..).trans (h.home k hk)
  · dsimp only
    rw [pendingOf_append]
    by_cases hi' : i = journal.lh.slot blockno
    · subst hi'
      simp [logged]
    · obtain ⟨hlt, hne⟩ := hother i hi hi'
      have hsector : (logged journal.lh blockno).sector i = journal.lh.sector i :=
        Function.update_of_ne hi' ..
      rw [hsector, Function.update_of_ne hne, Function.update_of_ne (by omega)]
      exact h.slot i hlt
  · dsimp only at hsome ⊢
    rw [pendingOf_append] at hsome
    rw [hentries]
    by_cases hk : k = blockno
    · subst hk
      split
      · assumption
      · exact List.mem_append_right _ List.mem_cons_self
    · rw [Function.update_of_ne hk] at hsome
      have hmem := h.named k hsome
      split
      · exact hmem
      · exact List.mem_append_left _ hmem

end Journal

end Xv6.Legacy.Recovery
