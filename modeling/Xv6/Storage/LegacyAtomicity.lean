import Xv6.Storage.LegacyRecovery

/-!
# Crash atomicity of the legacy log

Any number of processes run transactions, the machine crashes at any time, during a recovery too, and
after each recovery the home blocks are those of the first disk overwritten by the transactions whose
header has reached the disk.
-/

set_option linter.unusedSectionVars false

namespace Xv6.Legacy.Recovery

open Xv6.Kernel (base)

variable {n : Nat} {ι D : Type} [DecidableEq ι] [Fintype ι] {disk : Disk D} {init : Nat → D}

structure Running (disk : Disk D) (init : Nat → D) (value : Local n) (ghost : Ghost n D) :
    Prop where
  locked : ghost.share.locked = value.held
  runs : ghost.runs = true
  home : ∀ b ∈ value.held, ∃ blockno, ghost.share.key b = (rootDev, blockno) ∧
    disk.log.Home blockno
  valid : ∀ b ∈ value.held, (ghost.share.content b).valid = true
  outside : value.inTrans = false → ghost.journal = none
  inTrans : value.inTrans = true →
    ∃ journal : Journal D, ghost.journal = some journal ∧ journal.Logging disk init

def Between (disk : Disk D) (init : Nat → D) (first who : ι) (value : Option (Local n))
    (ghost : Ghost n D) : Prop :=
  (value = none → ghost.share.locked = ∅ ∧ (ghost.journal = none ∨
    who = first ∧ ∃ journal : Journal D, ghost.journal = some journal ∧ journal.Quiet disk init)) ∧
  ∀ running, value = some running → Running disk init running ghost

theorem Between.of_running {first who : ι} {value : Local n} {ghost : Ghost n D}
    (h : Running disk init value ghost) : Between disk init first who (some value) ghost := by
  constructor
  · intro hnone
    cases hnone
  · intro running hsome
    cases hsome
    exact h

namespace Running

variable {value : Local n} {ghost after : Ghost n D} {b : Fin n}

theorem keeps (h : Running disk init value ghost) (hkeeps : ghost.Keeps after) :
    Running disk init value after where
  locked := hkeeps.share.locked.trans h.locked
  runs := hkeeps.runs.trans h.runs
  home b hb := by
    rw [hkeeps.share.key b (h.locked ▸ hb)]
    exact h.home b hb
  valid b hb := by
    rw [hkeeps.share.content b (h.locked ▸ hb)]
    exact h.valid b hb
  outside hout := hkeeps.journal.trans (h.outside hout)
  inTrans hin := by
    rw [hkeeps.journal]
    exact h.inTrans hin

theorem not_inLog (h : Running disk init value ghost) (hb : b ∈ ghost.share.locked) :
    ¬disk.log.InLog (ghost.share.key b).2 := by
  obtain ⟨blockno, hkey, hhome⟩ := h.home b (h.locked ▸ hb)
  rw [hkey]
  exact hhome.1

theorem store (h : Running disk init value ghost) {content : Content D}
    (hvalid : content.valid = true) :
    Running disk init value { ghost with share := ghost.share.store b content } where
  locked := h.locked
  runs := h.runs
  home := h.home
  valid b' hb' := by
    by_cases hb : b' = b
    · subst hb
      simpa [Share.store] using hvalid
    · simpa [Share.store, hb] using h.valid b' hb'
  outside := h.outside
  inTrans := h.inTrans

theorem bread (h : Running disk init value ghost) {blockno : Nat} (hhome : disk.log.Home blockno) :
    (Legacy.bread disk.conf rootDev blockno).wp (rule disk init) ghost fun b after =>
      Running disk init { value with held := insert b value.held } after := by
  refine Program.wp_mono rule_monotone ?_ (bread_spec fun hlog => absurd hlog hhome.1)
  rintro b after ⟨content, hvalid, -, htakes⟩
  refine ⟨htakes.share.locked.trans (congrArg _ h.locked), htakes.runs.trans h.runs,
    fun b' hb' => ?_, fun b' hb' => ?_, fun hout => htakes.journal.trans (h.outside hout),
    fun hin => ?_⟩
  · obtain rfl | hb' := Finset.mem_insert.mp hb'
    · exact ⟨blockno, htakes.share.key_self, hhome⟩
    · rw [htakes.share.key b' (h.locked ▸ hb')]
      exact h.home b' hb'
  · obtain rfl | hb' := Finset.mem_insert.mp hb'
    · rw [htakes.share.content_self]
      exact hvalid
    · rw [htakes.share.content b' (h.locked ▸ hb')]
      exact h.valid b' hb'
  · rw [htakes.journal]
    exact h.inTrans hin

theorem modify (h : Running disk init value ghost) (hheld : b ∈ value.held) (data : D) :
    (setData b data).wp (rule disk init) ghost fun _ after =>
      Running disk init { value with modified := insert b value.modified } after := by
  simp only [setData, Program.wp_bind, wp_content, wp_setContent]
  have hlocked : b ∈ ghost.share.locked := h.locked ▸ hheld
  have hstored : Running disk init value { ghost with
      share := ghost.share.store b { ghost.share.content b with data } } :=
    h.store (h.valid b hheld)
  exact ⟨hlocked, hlocked, hstored.locked, hstored.runs, hstored.home, hstored.valid,
    hstored.outside, hstored.inTrans⟩

theorem logWrite (h : Running disk init value ghost) (hin : value.inTrans = true)
    (hheld : b ∈ value.held) :
    (Legacy.logWrite disk.conf b).wp (rule disk init) ghost fun _ after =>
      Running disk init { value with modified := value.modified.erase b } after := by
  obtain ⟨journal, hjournal, hlogging⟩ := h.inTrans hin
  obtain ⟨blockno, hkey, hhome⟩ := h.home b hheld
  refine Program.wp_mono rule_monotone ?_
    (logWrite_spec hjournal hlogging (h.locked ▸ hheld) hkey hhome)
  rintro _ after ⟨last, hlast, hkeeps⟩
  have hstored : Running disk init value { ghost with
      share := ghost.share.store b { ghost.share.content b with dirty := true } } :=
    h.store (h.valid b hheld)
  refine keeps ?_ hkeeps
  refine ⟨hstored.locked, hstored.runs, hstored.home, hstored.valid, fun hout => ?_,
    fun _ => ⟨last, rfl, hlast⟩⟩
  rw [hin] at hout
  cases hout

theorem brelse (h : Running disk init value ghost) (hheld : b ∈ value.held) :
    (Legacy.brelse b).wp (rule disk init) ghost fun _ after =>
      Running disk init { value with held := value.held.erase b } after := by
  have hlocked : b ∈ ghost.share.locked := h.locked ▸ hheld
  obtain ⟨blockno, hkey, hhome⟩ := h.home b hheld
  have hsettled : Settled disk ghost.journal (ghost.share.key b) (ghost.share.content b) := by
    rw [hkey]
    exact ⟨fun _ => h.valid b hheld, fun _ => rfl, fun _ _ hlog => absurd hlog hhome.1⟩
  refine Program.wp_mono rule_monotone ?_ (brelse_spec hlocked hsettled)
  rintro _ _ rfl
  exact ⟨congrArg (fun held : Finset (Fin n) => held.erase b) h.locked, h.runs,
    fun b' hb' => h.home b' (Finset.mem_of_mem_erase hb'),
    fun b' hb' => h.valid b' (Finset.mem_of_mem_erase hb'), h.outside, h.inTrans⟩

theorem commitTrans (h : Running disk init value ghost) (hin : value.inTrans = true) :
    (Legacy.commitTrans disk.conf).wp (rule disk init) ghost fun _ after =>
      Running disk init { value with inTrans := false } after := by
  obtain ⟨journal, hjournal, hlogging⟩ := h.inTrans hin
  refine Program.wp_mono rule_monotone ?_
    (commitTrans_spec hjournal hlogging fun b hb => h.not_inLog hb)
  rintro _ after hkeeps
  refine keeps ?_ hkeeps
  exact ⟨h.locked, h.runs, h.home, h.valid, fun _ => rfl, fun hnot => (by cases hnot)⟩

theorem beginTrans (h : Running disk init value ghost) (hout : value.inTrans = false) :
    Legacy.beginTrans.wp (rule disk init) ghost fun _ after =>
      Running disk init { value with inTrans := true } after := by
  rw [wp_beginTrans]
  refine ⟨h.runs, h.outside hout, fun journal hquiet hcurrent => ?_⟩
  exact ⟨h.locked, h.runs, h.home, h.valid, fun hnot => (by cases hnot),
    fun _ => ⟨journal, rfl, hquiet.logging hcurrent⟩⟩

end Running

theorem menu_sound (first : ι) :
    Threads.MenuSound (fun (_ : ι) call value => menu disk value call)
      (rule disk init : Rule (sections n D) (Ghost n D)) (Between disk init first) := by
  intro who call value program ghost hcall hbetween
  cases value with
  | none => cases hcall
  | some value =>
      have h := hbetween.2 value rfl
      simp only [menu, Option.bind_some] at hcall
      split at hcall
      next htyped =>
        obtain ⟨body, hbody, rfl⟩ := Option.map_eq_some_iff.mp hcall
        clear hcall
        rw [Program.wp_bind]
        refine Program.wp_mono rule_monotone (fun _ _ hafter => Between.of_running hafter) ?_
        cases call with
        | beginTrans =>
            simp only [Legacy.menu, Option.ite_none_left_eq_some, Option.some.injEq] at hbody
            obtain ⟨hout, rfl⟩ := hbody
            rw [Program.wp_bind]
            exact h.beginTrans (by simpa using hout)
        | bread blockno =>
            simp only [Legacy.menu, Option.ite_none_left_eq_some, Option.some.injEq] at hbody
            obtain ⟨hhome, rfl⟩ := hbody
            rw [Program.wp_bind]
            exact h.bread ⟨hhome, htyped⟩
        | modify b data =>
            simp only [Legacy.menu, Option.ite_none_right_eq_some, Option.some.injEq] at hbody
            obtain ⟨⟨-, hheld⟩, rfl⟩ := hbody
            rw [Program.wp_bind]
            exact h.modify hheld data
        | logWrite b =>
            simp only [Legacy.menu, Option.ite_none_right_eq_some, Option.some.injEq] at hbody
            obtain ⟨⟨hin, hheld⟩, rfl⟩ := hbody
            rw [Program.wp_bind]
            exact h.logWrite hin hheld
        | brelse b =>
            simp only [Legacy.menu, Option.ite_none_right_eq_some, Option.some.injEq] at hbody
            obtain ⟨⟨hheld, -⟩, rfl⟩ := hbody
            rw [Program.wp_bind]
            exact h.brelse hheld
        | commitTrans =>
            simp only [Legacy.menu, Option.ite_none_right_eq_some, Option.some.injEq] at hbody
            obtain ⟨⟨hin, -⟩, rfl⟩ := hbody
            rw [Program.wp_bind]
            exact h.commitTrans hin
      next => cases hcall

/-! ### Crashes -/

variable [Inhabited D]

def bootGhost (first : ι) (journal : Journal D) (who : ι) : Ghost n D where
  share := .idle fun _ => default
  journal := if who = first then some journal else none
  runs := false

theorem verified_boot {memdisk : Nat → D} {committed : List (List (Nat × D))} {lh : List Nat}
    (first : ι) (hrecoverable :
      Journal.Recoverable disk init ⟨memdisk, ⟨0, fun _ => 0⟩, [], committed⟩ lh) :
    Threads.Verified (rule disk init : Rule (sections n D) (Ghost n D)) (Inv disk init first)
      (Between disk init first) (boot disk first memdisk committed) := by
  set journal : Journal D := ⟨memdisk, ⟨0, fun _ => 0⟩, [], committed⟩ with hjournal
  have howns : ∀ who, (bootGhost first journal who : Ghost n D).journal.isSome = true →
      who = first := by
    intro who hsome
    by_contra hne
    simp [bootGhost, hne] at hsome
  have hfirst : (bootGhost first journal first : Ghost n D).journal = some journal := if_pos rfl
  refine ⟨bootGhost first journal, ⟨Sharing.binit _, fun b _ => ?_, fun who b hlocked => ?_,
    fun who known hknown => ?_, fun who other hwho hother => ?_, fun _ who hwho => ?_,
    fun hnobody => ?_, lh, hrecoverable⟩, fun who => ?_⟩
  · exact ⟨id, fun hvalid => absurd hvalid Bool.false_ne_true,
      fun _ _ _ hvalid => absurd hvalid Bool.false_ne_true⟩
  · exact absurd hlocked (Finset.notMem_empty b)
  · obtain rfl := howns who (by rw [hknown]; rfl)
    rw [hfirst] at hknown
    exact (Option.some.inj hknown).symm
  · rw [howns who hwho, howns other hother]
  · exact ⟨howns who hwho, fun _ => rfl⟩
  · rw [hnobody first] at hfirst
    cases hfirst
  · simp only [boot, Program.wp_bind, Program.wp_when, Program.wp_pure]
    refine ⟨fun hwho => ?_, fun hwho => ?_⟩
    · subst hwho
      refine Program.wp_mono rule_monotone ?_ (recoverFromLog_spec hfirst hrecoverable)
      rintro _ after ⟨last, hquiet, hkeeps⟩
      exact ⟨fun _ => ⟨hkeeps.share.locked, Or.inr ⟨rfl, last, hkeeps.journal, hquiet⟩⟩,
        fun _ hnot => (by cases hnot)⟩
    · exact ⟨fun _ => ⟨rfl, Or.inl (if_neg hwho)⟩, fun _ hnot => (by cases hnot)⟩

theorem Inv.start {first who : ι} {state : State n ι D} {ghosts : ι → Ghost n D}
    (h : Inv disk init first state ghosts)
    (hnobody : state.kernel.busy = false → ∀ other, (ghosts other).journal = none) :
    Inv disk init first state (Function.update ghosts who { ghosts who with runs := true }) := by
  have hsame : ∀ other, (Function.update ghosts who { ghosts who with runs := true } other).share =
      (ghosts other).share ∧ (Function.update ghosts who { ghosts who with runs := true }
        other).journal = (ghosts other).journal := by
    intro other
    by_cases hother : other = who
    · subst hother
      rw [Function.update_self]
      exact ⟨rfl, rfl⟩
    · rw [Function.update_of_ne hother]
      exact ⟨rfl, rfl⟩
  refine ⟨?_, fun b hfree => ?_, fun other b hlocked hlog => ?_, fun other journal hsome => ?_,
    fun other other' hsome hsome' => ?_, fun hidle other hsome => ?_, fun hnone => ?_,
    h.recoverable⟩
  · rw [funext fun other => (hsame other).1]
    exact h.sharing
  · exact h.settled b fun other => (hsame other).1 ▸ hfree other
  · rw [(hsame other).1] at hlocked
    rw [(hsame other).2]
    exact h.inLog other b hlocked hlog
  · rw [(hsame other).2] at hsome
    exact h.knows other journal hsome
  · rw [(hsame other).2] at hsome
    rw [(hsame other').2] at hsome'
    exact h.single other other' hsome hsome'
  · rw [(hsame other).2, hnobody hidle other] at hsome
    cases hsome
  · exact h.quiet fun other => (hsame other).2.symm.trans (hnone other)

theorem exists_released {first : ι}
    {world : Threads (sections n D) (State n ι D) ι (Option (Local n))} {value : Option (Local n)}
    (h : Threads.Verified (rule disk init) (Inv disk init first) (Between disk init first) world)
    (hfirst : world.thread first = .ret value) :
    ∃ ghosts, Inv disk init first world.shared ghosts ∧
      (∀ who, (world.thread who).wp (rule disk init) (ghosts who) (Between disk init first who)) ∧
      (world.shared.kernel.busy = false → ∀ who, (ghosts who).journal = none) ∧
      ∀ who, world.thread who = .ret none →
        (ghosts who).share.locked = ∅ ∧ (ghosts who).journal = none := by
  obtain ⟨ghosts, hinv, hwp⟩ := h
  have hbetween : Between disk init first first value (ghosts first) := by
    have hret := hwp first
    rwa [hfirst, Program.wp_ret] at hret
  have hothers : ∀ who, who ≠ first → world.thread who = .ret none →
      (ghosts who).share.locked = ∅ ∧ (ghosts who).journal = none := by
    intro who hne hthread
    have hret := hwp who
    rw [hthread, Program.wp_ret] at hret
    obtain ⟨hlocked, hnone | ⟨heq, -⟩⟩ := hret.1 rfl
    · exact ⟨hlocked, hnone⟩
    · exact absurd heq hne
  cases value with
  | some running =>
      have hruns := (hbetween.2 running rfl).runs
      refine ⟨ghosts, hinv, hwp, fun hidle who => ?_, fun who hthread => hothers who ?_ hthread⟩
      · rw [← Option.not_isSome_iff_eq_none]
        intro howns
        rw [(hinv.busy hidle who howns).2 first] at hruns
        cases hruns
      · rintro rfl
        rw [hfirst] at hthread
        cases hthread
  | none =>
      obtain ⟨hlocked, hnone | ⟨-, journal, hjournal, hquiet⟩⟩ := hbetween.1 rfl
      · refine ⟨ghosts, hinv, hwp, fun hidle who => ?_, fun who hthread => ?_⟩
        · rw [← Option.not_isSome_iff_eq_none]
          intro howns
          rw [(hinv.busy hidle who howns).1, hnone] at howns
          cases howns
        · by_cases hne : who = first
          · rw [hne]
            exact ⟨hlocked, hnone⟩
          · exact hothers who hne hthread
      · have howner : (ghosts first).journal.isSome = true := by rw [hjournal]; rfl
        obtain rfl := hinv.journal_eq hjournal
        have hgiven := hinv.endTrans howner hquiet (by simp [hlocked]) rfl rfl
        have hself : Function.update ghosts first { ghosts first with journal := none } first =
            { ghosts first with journal := none } := Function.update_self ..
        have hother : ∀ who, who ≠ first → Function.update ghosts first
            { ghosts first with journal := none } who = ghosts who :=
          fun who hne => Function.update_of_ne hne ..
        refine ⟨_, hgiven, fun who => ?_, fun _ who => ?_, fun who hthread => ?_⟩
        · by_cases hne : who = first
          · rw [hne, hself, hfirst, Program.wp_ret]
            exact ⟨fun _ => ⟨hlocked, Or.inl rfl⟩, fun _ hnot => (by cases hnot)⟩
          · rw [hother who hne]
            exact hwp who
        · by_cases hne : who = first
          · rw [hne, hself]
          · rw [hother who hne]
            exact hinv.journal_eq_none howner hne
        · by_cases hne : who = first
          · rw [hne, hself]
            exact ⟨hlocked, rfl⟩
          · rw [hother who hne]
            exact hothers who hne hthread

theorem environment_sound (first : ι) :
    Threads.EnvSound (environment disk first) (rule disk init : Rule (sections n D) (Ghost n D))
      (Inv disk init first) (Between disk init first) := by
  intro world event world' hverified hevent
  cases event with
  | crash =>
      cases hevent
      obtain ⟨ghosts, hinv, -⟩ := hverified
      obtain ⟨lh, hrecoverable⟩ := hinv.recoverable
      exact verified_boot first hrecoverable
  | run who =>
      simp only [environment] at hevent
      split at hevent
      next value hfirst hwho =>
        cases hevent
        obtain ⟨ghosts, hinv, hwp, hnobody, hnew⟩ := exists_released hverified hfirst
        refine ⟨Function.update ghosts who { ghosts who with runs := true }, hinv.start hnobody,
          fun other => ?_⟩
        by_cases hother : other = who
        · subst hother
          obtain ⟨hlocked, hnone⟩ := hnew other hwho
          simp only [Function.update_self, Program.wp_ret]
          exact Between.of_running ⟨hlocked, rfl, by simp, by simp, fun _ => hnone,
            fun hin => (by cases hin)⟩
        · simp only [Function.update_of_ne hother]
          exact hwp other
      next => cases hevent

theorem Inv.home {first : ι} {state : State n ι D} {ghosts : ι → Ghost n D}
    (h : Inv disk init first state ghosts)
    (hbetween : ∀ who, ∃ value, Between disk init first who value (ghosts who)) {blockno : Nat}
    (hhome : disk.log.Home blockno) :
    state.kernel.memdisk blockno = base init state.committed blockno := by
  by_cases howned : ∃ who, (ghosts who).journal.isSome = true
  · obtain ⟨who, howns⟩ := howned
    obtain ⟨journal, hjournal⟩ := Option.isSome_iff_exists.mp howns
    obtain rfl := h.journal_eq hjournal
    obtain ⟨value, hnone, hsome⟩ := hbetween who
    cases value with
    | none =>
        obtain ⟨-, hnot | ⟨-, known, hknown, hquiet⟩⟩ := hnone rfl
        · rw [hnot] at hjournal
          cases hjournal
        · obtain rfl := Option.some.inj (hjournal.symm.trans hknown)
          exact hquiet.home blockno hhome
    | some value =>
        have hrunning := hsome value rfl
        cases hin : value.inTrans with
        | false =>
            rw [hrunning.outside hin] at hjournal
            cases hjournal
        | true =>
            obtain ⟨known, hknown, hlogging⟩ := hrunning.inTrans hin
            obtain rfl := Option.some.inj (hjournal.symm.trans hknown)
            exact hlogging.home blockno hhome
  · have hnobody : ∀ who, (ghosts who).journal = none := by
      intro who
      rw [← Option.not_isSome_iff_eq_none]
      exact fun howns => howned ⟨who, howns⟩
    exact (h.quiet hnobody).home blockno hhome

/-- **Crash atomicity.** Along every run, with crashes anywhere, during a recovery too, whenever no
call and no recovery is in progress, in particular right after a recovery, the home blocks are those
of the first disk overwritten by the transactions whose header has reached the disk, in order. -/
theorem home_eq_base_of_transactions {first : ι}
    (hheader : disk.log.header.decode (init disk.log.start) = [])
    {actions : List (Threads.Action ι (Call n D) (Event ι))}
    {world : Threads (sections n D) (State n ι D) ι (Option (Local n))}
    (hrun : Transition.run (Threads.step (system disk first)) (boot disk first init []) actions =
      some world)
    (hidle : world.Idle) {blockno : Nat} (hhome : disk.log.Home blockno) :
    world.shared.kernel.memdisk blockno = base init world.shared.committed blockno := by
  have hrecoverable : Journal.Recoverable disk init ⟨init, ⟨0, fun _ => 0⟩, [], []⟩ [] :=
    .nil hheader fun _ _ => rfl
  obtain ⟨ghosts, hinv, hwp⟩ := Threads.sound_run (handler_sound first) (environment_sound first)
    (menu_sound first) (verified_boot first hrecoverable) hrun
  refine hinv.home (fun who => ?_) hhome
  obtain ⟨value, hvalue⟩ := hidle who
  have hbetween := hwp who
  rw [hvalue, Program.wp_ret] at hbetween
  exact ⟨value, hbetween⟩

def smallDisk : Disk Bytes := ⟨Kernel.smallConf, 1000⟩

def steps (count : Nat) : List (Threads.Action Unit (Call 3 Bytes) (Event Unit)) :=
  List.replicate count (.perform () 0)

/-- A transaction fills block 100 with sevens. The machine stops when the header is on the disk and
the home block is not, and again halfway through the recovery. -/
def crashTwice : List (Threads.Action Unit (Call 3 Bytes) (Event Unit)) :=
  let b : Fin 3 := (Fin.last 1).castSucc
  steps 33 ++ .env (.run ()) :: .start () .beginTrans :: steps 1 ++ .start () (.bread 100) ::
    steps 8 ++ .start () (.modify b fun _ => 7) :: steps 2 ++ .start () (.logWrite b) ::
    steps 28 ++ .start () (.brelse b) :: steps 3 ++ .start () .commitTrans :: steps 20 ++
    .env .crash :: steps 30 ++ .env .crash :: steps 67

theorem home_eq_base_of_transactions_crashTwice :
    ∃ world, Transition.run (Threads.step (system smallDisk ())) (boot smallDisk () (fun _ _ => 0) [])
        crashTwice = some world ∧
      world.shared.committed.length = 1 ∧
      world.shared.kernel.memdisk 100 = base (fun _ _ => 0) world.shared.committed 100 := by
  have hrun : ∃ world ∈ Transition.run (Threads.step (system smallDisk ()))
      (boot smallDisk () (fun _ _ => 0) []) crashTwice,
      (world.nextOp ()).isNone ∧ world.shared.committed.length = 1 := by
    decide +kernel
  obtain ⟨world, hworld, hnone, hlength⟩ := hrun
  have hidle : world.Idle := fun _ =>
    Threads.thread_of_nextOp_eq_none (Option.isNone_iff_eq_none.mp hnone)
  exact ⟨world, hworld, hlength, home_eq_base_of_transactions (by decide) hworld hidle (by decide)⟩

end Xv6.Legacy.Recovery
