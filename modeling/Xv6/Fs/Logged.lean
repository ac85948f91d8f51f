import Xv6.Fs.Content
import Xv6.Storage.LoggedSteps

/-!
# What the file system changes, it logs

Every function of `fs.c` gives back each buffer it takes, and logs it first if it has changed it,
whatever it reads from the blocks. There is one exception on arm64: `writei` gives back without
logging a buffer to which a failing user copy has copied some of the bytes.
-/

namespace Xv6.Fs

open Kernel

set_option linter.unusedSectionVars false

variable {n : Nat} {α β : Type}

def Harmless (program : Code n Bytes α) : Prop :=
  ∀ ghost : Ghost n Bytes, ghost.Clean →
    program.wp looseRule ghost fun _ after => ghost.Same after

def Returns (b : Fin n) (program : Code n Bytes α) : Prop :=
  ∀ (ghost mid : Ghost n Bytes) (blockno : Nat) (data : Bytes), ghost.Clean →
    ghost.Takes b (rootDev, blockno) data mid →
      program.wp looseRule mid fun _ after => ghost.Keeps after ∧ after.job = mid.job

namespace Harmless

theorem ret (value : α) : Harmless (pure value : Code n Bytes α) := fun ghost _ => .refl ghost

theorem panic (message : String) : Harmless (Kernel.panic message : Code n Bytes α) :=
  fun _ _ => trivial

theorem panicIf (bad : Prop) [Decidable bad] (message : String) :
    Harmless (Kernel.panicIf bad message : Code n Bytes Unit) := by
  intro ghost _
  rw [wp_panicIf_loose]
  exact fun _ => .refl ghost

theorem bind {program : Code n Bytes α} {f : α → Code n Bytes β} (hprogram : Harmless program)
    (hf : ∀ value, Harmless (f value)) : Harmless (program >>= f) := by
  intro ghost hclean
  refine Program.wp_seq looseRule_monotone (hprogram ghost hclean) fun value mid hmid => ?_
  refine Program.wp_mono looseRule_monotone ?_ (hf value mid (hmid.clean hclean))
  exact fun _ after hafter => hmid.trans hafter

theorem ite {condition : Prop} [Decidable condition] {first second : Code n Bytes α}
    (hfirst : Harmless first) (hsecond : Harmless second) :
    Harmless (if condition then first else second) := by
  split
  · exact hfirst
  · exact hsecond

theorem when {condition : Prop} [Decidable condition] {program : Code n Bytes PUnit}
    (hprogram : Harmless program) : Harmless (Program.when condition program) :=
  ite hprogram (ret _)

theorem copyout (dst : Nat) (bytes : List UInt8) :
    Harmless (Kernel.copyout dst bytes : Code n Bytes Bool) := fun ghost _ _ => .refl ghost

theorem bread {f : Fin n → Code n Bytes α} (blockno : Nat) (hf : ∀ b, Returns b (f b)) :
    Harmless (Kernel.bread rootDev blockno >>= f) := by
  intro ghost hclean
  refine Program.wp_seq looseRule_monotone (bread_loose ghost blockno) ?_
  rintro b mid ⟨data, htakes, hjob⟩
  refine Program.wp_mono looseRule_monotone ?_ (hf b ghost mid blockno data hclean htakes)
  rintro _ after ⟨hkeeps, hafter⟩
  exact ⟨hkeeps, hafter.trans hjob⟩

end Harmless

namespace Returns

variable {b : Fin n}

theorem brelse : Returns b (Kernel.brelse b) := fun _ _ _ _ hclean htakes =>
  brelse_loose_takes htakes hclean

theorem brelse_bind {f : Unit → Code n Bytes α} (hf : Harmless (f ())) :
    Returns b (Kernel.brelse b >>= f) := by
  intro ghost mid blockno data hclean htakes
  refine Program.wp_seq looseRule_monotone (brelse_loose_takes htakes hclean) ?_
  rintro _ done ⟨hkeeps, hjob⟩
  refine Program.wp_mono looseRule_monotone ?_ (hf done (hkeeps.clean hclean))
  exact fun _ after hsame => ⟨hkeeps.trans hsame.keeps, hsame.job.trans hjob⟩

theorem other {program : Code n Bytes α} {f : α → Code n Bytes β} (hprogram : Harmless program)
    (hf : ∀ value, Returns b (f value)) : Returns b (program >>= f) := by
  intro ghost mid blockno data hclean htakes
  refine Program.wp_seq looseRule_monotone (hprogram mid (htakes.clean hclean)) ?_
  intro value done hsame
  refine Program.wp_mono looseRule_monotone ?_
    (hf value ghost done blockno data hclean (htakes.keeps hsame.keeps))
  exact fun _ after hafter => ⟨hafter.1, hafter.2.trans hsame.job⟩

theorem content {f : Content Bytes → Code n Bytes α} (hf : ∀ value, Returns b (f value)) :
    Returns b (Kernel.content b >>= f) := by
  intro ghost mid blockno data hclean htakes
  simp only [Program.wp_bind, wp_content_loose]
  exact ⟨htakes.share.mem, hf _ ghost mid blockno data hclean htakes⟩

theorem ite {condition : Prop} [Decidable condition] {first second : Code n Bytes α}
    (hfirst : Returns b first) (hsecond : Returns b second) :
    Returns b (if condition then first else second) := by
  split
  · exact hfirst
  · exact hsecond

theorem logWrite {f : Unit → Code n Bytes α} (hf : Returns b (f ())) :
    Returns b (Kernel.logWrite b >>= f) := by
  intro ghost mid blockno data hclean htakes
  have hdirty : mid.dirty.erase b = mid.dirty := by
    rw [htakes.dirty]
    exact Finset.erase_eq_of_notMem (htakes.not_dirty hclean)
  simp only [Program.wp_bind, wp_logWrite_loose, htakes.share.key_self]
  refine ⟨htakes.share.mem, trivial, ?_⟩
  rw [hdirty]
  exact hf ghost mid blockno data hclean htakes

theorem logged {f : Unit → Code n Bytes α} (data : Bytes) (hf : Returns b (f ())) :
    Returns b (setData b data >>= fun _ => Kernel.logWrite b >>= f) := by
  intro ghost mid blockno old hclean htakes
  simp only [Program.wp_bind]
  refine logged_loose htakes hclean fun done hdone hjob => ?_
  refine Program.wp_mono looseRule_monotone ?_ (hf ghost done blockno data hclean hdone)
  exact fun _ after hafter => ⟨hafter.1, hafter.2.trans hjob⟩

theorem modified {f : Unit → Code n Bytes α} (change : Bytes → Bytes) (hf : Returns b (f ())) :
    Returns b (modify b change >>= fun _ => Kernel.logWrite b >>= f) := by
  simp only [modify, bind_assoc]
  exact content fun value => logged _ hf

end Returns

/-! ### The functions -/

section Functions

variable (fork : Fork) (sb : Superblock)

theorem bzero_harmless (bno : Nat) : Harmless (bzero bno : Code n Bytes Unit) :=
  .bread bno fun _ => .logged _ .brelse

theorem ballocFrom_harmless (starts : List Nat) :
    Harmless (ballocFrom fork sb starts : Code n Bytes Nat) := by
  induction starts with
  | nil => exact .ite (.ret 0) (.panic _)
  | cons b rest ih =>
      refine .bread _ fun bp => .content fun content => ?_
      cases freeBit sb content.data b with
      | some bi =>
          exact .logged _ (.brelse_bind (.bind (bzero_harmless _) fun _ => .ret _))
      | none => exact .brelse_bind ih

theorem balloc_harmless : Harmless (balloc fork sb : Code n Bytes Nat) := ballocFrom_harmless fork sb _

theorem bfree_harmless (b : Nat) : Harmless (bfree sb b : Code n Bytes Unit) :=
  .bread _ fun _ => .content fun _ => .other (.panicIf _ _) fun _ => .logged _ .brelse

theorem iallocFrom_harmless (type : Nat) (inums : List Nat) :
    Harmless (iallocFrom fork sb type inums : Code n Bytes (Option Nat)) := by
  induction inums with
  | nil => exact .ite (.ret none) (.panic _)
  | cons inum rest ih =>
      exact .bread _ fun bp => .content fun content =>
        .ite (.logged _ (.brelse_bind (.ret _))) (.brelse_bind ih)

theorem iupdate_harmless (ip : Inode) : Harmless (iupdate sb ip : Code n Bytes Unit) :=
  .bread _ fun _ => .modified _ .brelse

theorem iread_harmless (inum : Nat) : Harmless (iread sb inum : Code n Bytes Inode) :=
  .bread _ fun _ => .content fun _ => .brelse_bind (.bind (.panicIf _ _) fun _ => .ret _)

theorem bmapEntry_harmless (ip : Inode) (block bn : Nat) :
    Harmless (bmap.bmapEntry fork sb ip block bn : Code n Bytes (Nat × Inode)) := by
  refine .bread _ fun bp => .content fun content => .ite ?_ (.brelse_bind (.ret _))
  refine .other (balloc_harmless fork sb) fun addr => ?_
  unfold Program.when
  split
  · simp only [bind_assoc]
    refine .modified _ ?_
    exact .brelse_bind (.ret _)
  · exact .brelse_bind (.ret _)

theorem bmap_harmless (ip : Inode) (bn : Nat) :
    Harmless (bmap fork sb ip bn : Code n Bytes (Nat × Inode)) := by
  unfold bmap
  split
  · refine .ite (.bind (balloc_harmless fork sb) fun addr => .ite (.ret _) (.ret _)) (.ret _)
  · refine .ite (.ite (.bind (balloc_harmless fork sb) fun addr => .ite (.ret _) ?_) ?_) (.panic _)
    · exact bmapEntry_harmless fork sb _ _ _
    · exact bmapEntry_harmless fork sb _ _ _

theorem itruncDirect_harmless (indices : List (Fin ndirect)) (ip : Inode) :
    Harmless (itruncDirect sb indices ip : Code n Bytes Inode) := by
  induction indices generalizing ip with
  | nil => exact .ret ip
  | cons i rest ih => exact .ite (ih ip) (.bind (bfree_harmless sb _) fun _ => ih _)

theorem itruncIndirect_harmless (addrs : List Nat) :
    Harmless (itruncIndirect sb addrs : Code n Bytes Unit) := by
  induction addrs with
  | nil => exact .ret ()
  | cons addr rest ih => exact .bind (.when (bfree_harmless sb addr)) fun _ => ih

theorem itrunc_harmless (ip : Inode) : Harmless (itrunc sb ip : Code n Bytes Inode) := by
  refine .bind (itruncDirect_harmless sb _ ip) fun ip => .bind (.ite (.ret ip) ?_) fun ip =>
    .bind (iupdate_harmless sb _) fun _ => .ret _
  exact .bread _ fun bp => .content fun content => .other (itruncIndirect_harmless sb _) fun _ =>
    .brelse_bind (.bind (bfree_harmless sb _) fun _ => .ret _)

theorem readiFrom_harmless (count fuel : Nat) (ip : Inode) (dst : Dest) (off tot : Nat)
    (copied : List UInt8) : Harmless (readiFrom fork sb count fuel ip dst off tot copied :
      Code n Bytes (Int × List UInt8 × Inode)) := by
  induction fuel generalizing ip dst off tot copied with
  | zero => exact .ret _
  | succ fuel ih =>
      refine .ite (.bind (bmap_harmless fork sb ip _) ?_) (.ret _)
      rintro ⟨addr, ip⟩
      refine .ite (.ret _) (.bread _ fun bp => .content fun content => .other ?_ fun ok =>
        .brelse_bind (.ite (ih _ _ _ _ _) (.ret _)))
      cases dst with
      | user va => exact .copyout _ _
      | kernel => exact .ret _

theorem readi_harmless (ip : Inode) (dst : Dest) (off count : UInt32) :
    Harmless (readi fork sb ip dst off count : Code n Bytes (Int × List UInt8 × Inode)) :=
  .ite (.ret _) (readiFrom_harmless fork sb _ _ ip dst _ _ _)

theorem eitherCopyin_returns {b : Fin n} {f : Bool → Code n Bytes α} (off : Nat) (src : Source)
    (len : Nat) (hdone : Returns b (f true)) (hfailed : Returns b (f false))
    (hlogs : ∃ g, f true = logWrite b >>= g ∧ Returns b (g ())) :
    Returns b (eitherCopyin b off src len >>= f) := by
  obtain ⟨g, hg, hrest⟩ := hlogs
  cases src with
  | user va =>
      intro ghost mid blockno data hclean htakes
      simp only [eitherCopyin, bind_assoc]
      rw [Program.wp_bind, wp_copyin_loose]
      rintro ⟨bytes, ok⟩ hwhole
      have hends : ∀ value, Returns b (f value) := fun value => by
        cases value
        · exact hfailed
        · exact hdone
      unfold Program.when
      split
      · next hsome =>
          have hok : ok = true := hwhole.resolve_right hsome
          subst hok
          have hmodified : Returns b (modify b (fun data => Bytes.store data off bytes) >>= fun _ =>
              logWrite b >>= g) := .modified _ hrest
          rw [← hg] at hmodified
          exact hmodified ghost mid blockno data hclean htakes
      · exact hends ok ghost mid blockno data hclean htakes
  | kernel bytes =>
      have hmodified : Returns b (modify b (fun data => Bytes.store data off
          ((List.range len).map bytes)) >>= fun _ => logWrite b >>= g) := .modified _ hrest
      rw [← hg] at hmodified
      simp only [eitherCopyin, bind_assoc]
      exact hmodified

theorem writeiFrom_harmless (count fuel : Nat) (ip : Inode) (src : Source) (off tot : Nat) :
    Harmless (writeiFrom fork sb count fuel ip src off tot : Code n Bytes (Inode × Nat × Nat)) := by
  induction fuel generalizing ip src off tot with
  | zero => exact .ret _
  | succ fuel ih =>
      refine .ite (.bind (bmap_harmless fork sb ip _) ?_) (.ret _)
      rintro ⟨addr, ip⟩
      refine .ite (.ret _) (.bread _ fun bp => eitherCopyin_returns _ _ _ ?_ ?_
        ⟨_, rfl, .brelse_bind (ih _ _ _ _)⟩)
      · exact .logWrite (.brelse_bind (ih _ _ _ _))
      · unfold Program.when
        rw [if_neg (by simp)]
        split
        · exact .logWrite (.brelse_bind (.ret _))
        · exact .brelse_bind (.ret _)

theorem writei_harmless (ip : Inode) (src : Source) (off count : UInt32) :
    Harmless (writei fork sb ip src off count : Code n Bytes (Int × Inode)) := by
  refine .ite (.ret _) (.ite (.ret _) (.bind (writeiFrom_harmless fork sb _ _ ip src _ _) ?_))
  rintro ⟨ip, off, tot⟩
  exact .bind (iupdate_harmless sb _) fun _ => .ret _

end Functions

/-! ### Runs -/

/-- The functions of `fs.c` on blocks and inodes, with whatever arguments. -/
inductive Call where
  | beginOp
  | endOp
  | balloc
  | bfree (b : Nat)
  | bzero (bno : Nat)
  | ialloc (type : Nat)
  | iread (inum : Nat)
  | iupdate (ip : Inode)
  | bmap (ip : Inode) (bn : Nat)
  | itrunc (ip : Inode)
  | readi (ip : Inode) (dst : Dest) (off count : UInt32)
  | writei (ip : Inode) (src : Source) (off count : UInt32)

def keep (inOp : Bool) (program : Code n Bytes α) : Code n Bytes Bool := do
  let _ ← program
  pure inOp

def menu (fork : Fork) (sb : Superblock) (conf : Config Bytes) (inOp : Bool) :
    Call → Option (Code n Bytes Bool)
  | .beginOp => if inOp then none else some (keep true Kernel.beginOp)
  | .endOp => if inOp then some (keep false (Kernel.endOp conf)) else none
  | .balloc => some (keep inOp (balloc fork sb))
  | .bfree b => some (keep inOp (bfree sb b))
  | .bzero bno => some (keep inOp (bzero bno))
  | .ialloc type => some (keep inOp (ialloc fork sb type))
  | .iread inum => some (keep inOp (iread sb inum))
  | .iupdate ip => some (keep inOp (iupdate sb ip))
  | .bmap ip bn => some (keep inOp (bmap fork sb ip bn))
  | .itrunc ip => some (keep inOp (itrunc sb ip))
  | .readi ip dst off count => some (keep inOp (readi fork sb ip dst off count))
  | .writei ip src off count => some (keep inOp (writei fork sb ip src off count))

/-- The processes over the file system, the cache and the log. -/
def system {ι : Type} [DecidableEq ι] (fork : Fork) (sb : Superblock) (conf : Config Bytes)
    (first : ι) : Threads.System (sections n Bytes) (State n ι Bytes) ι Bool Call (Event ι) where
  handler := handler conf
  menu := fun _ call inOp => menu fork sb conf inOp call
  environment := environment conf first false

section Runs

variable {ι : Type} [DecidableEq ι] [Fintype ι] {fork : Fork} {sb : Superblock}
  {conf : Config Bytes}

theorem Harmless.keep {program : Code n Bytes α} (h : Harmless program) (inOp : Bool)
    {ghost : Ghost n Bytes} (hfresh : ghost.Fresh) :
    (Fs.keep inOp program).wp looseRule ghost fun _ after => after.Fresh := by
  have hclean : ghost.Clean := by
    unfold Ghost.Clean
    rw [hfresh.dirty]
    exact Finset.empty_subset _
  refine Program.wp_seq looseRule_monotone (h ghost hclean) ?_
  rintro value after ⟨hkeeps, hjob⟩
  exact ⟨hkeeps.share.locked.trans hfresh.locked, hkeeps.dirty.trans hfresh.dirty,
    hjob.trans hfresh.job, hkeeps.booted.trans hfresh.booted⟩

theorem menu_loose :
    Threads.MenuSound (fun (_ : ι) call inOp => menu fork sb conf inOp call)
      (looseRule : Rule (sections n Bytes) (Ghost n Bytes)) fun _ _ ghost => ghost.Fresh := by
  intro who call inOp program ghost hcall hfresh
  cases call with
  | beginOp =>
      simp only [menu] at hcall
      split at hcall
      · cases hcall
      · cases hcall
        exact ⟨hfresh.booted, hfresh⟩
  | endOp =>
      simp only [menu] at hcall
      split at hcall
      · cases hcall
        have hclean : ghost.Clean := by
          unfold Ghost.Clean
          rw [hfresh.dirty]
          exact Finset.empty_subset _
        refine Program.wp_seq looseRule_monotone
          (endOp_loose hclean hfresh.job hfresh.booted) ?_
        rintro value after ⟨hkeeps, hjob⟩
        exact ⟨hkeeps.share.locked.trans hfresh.locked, hkeeps.dirty.trans hfresh.dirty,
          hjob.trans hfresh.job, hkeeps.booted.trans hfresh.booted⟩
      · cases hcall
  | balloc => cases hcall; exact (balloc_harmless fork sb).keep inOp hfresh
  | bfree b => cases hcall; exact (bfree_harmless sb b).keep inOp hfresh
  | bzero bno => cases hcall; exact (bzero_harmless bno).keep inOp hfresh
  | ialloc type => cases hcall; exact (iallocFrom_harmless fork sb type _).keep inOp hfresh
  | iread inum => cases hcall; exact (iread_harmless sb inum).keep inOp hfresh
  | iupdate ip => cases hcall; exact (iupdate_harmless sb ip).keep inOp hfresh
  | bmap ip bn => cases hcall; exact (bmap_harmless fork sb ip bn).keep inOp hfresh
  | itrunc ip => cases hcall; exact (itrunc_harmless sb ip).keep inOp hfresh
  | readi ip dst off count => cases hcall; exact (readi_harmless fork sb ip dst off count).keep inOp hfresh
  | writei ip src off count =>
      cases hcall
      exact (writei_harmless fork sb ip src off count).keep inOp hfresh

/-- **What is changed is logged.** Along every run in which no user copy fails after copying some of
its bytes, from any disk, every valid buffer whose sleep-lock is free holds what is on the disk,
unless its block is in the log. -/
theorem shown_of_run {first : ι} {disk : Nat → Bytes} {user : ι → Nat → Option (Nat → UInt8)}
    {actions : List (Threads.Action ι Call (Event ι))}
    {world : Threads (sections n Bytes) (State n ι Bytes) ι Bool}
    (halong : Transition.Along (Threads.step (system arm64 sb conf first))
      (Threads.Meets CopiesWhole)
      (boot conf first false disk user [] : Threads (sections n Bytes) _ ι Bool) actions)
    (hrun : Transition.run (Threads.step (system arm64 sb conf first))
      (boot conf first false disk user []) actions = some world) :
    Shown world.shared := by
  have hpost : ∀ (_ : ι) (ghost : Ghost n Bytes), ghost.Fresh → ghost.Fresh := fun _ _ => id
  obtain ⟨ghosts, hinv, -⟩ := Threads.sound handler_loose (environment_loose first hpost) menu_loose
    (loose_boot first disk user [] hpost) halong hrun
  exact hinv.shown

end Runs

/-! ### Two runs -/

def smallSb : Superblock := ⟨200, 185, 4, 10, 2, 12, 14⟩

/-- A file of one block, block 100. -/
def smallFile : Inode where
  type := 2
  major := 0
  minor := 0
  nlink := 1
  size := 1024
  addrs := fun k => if k.val = 0 then 100 else 0
  inum := 1

/-- The disk with that file, full of zeroes. -/
def smallDisk (k : Nat) : Bytes :=
  if k = 12 then smallFile.toDinode.store (fun _ => 0) (dinodeOff 1)
  else if k = 14 then (100 :: List.range 15).foldl Bytes.setBit fun _ => 0
  else fun _ => 0

def onePage (_ : Unit) (k : Nat) : Option (Nat → UInt8) := if k = 0 then some fun _ => 7 else none

/-- The process boots the system, starts an operation and writes 100 bytes from an address on. -/
def writeFrom (va steps : Nat) : List (Threads.Action Unit Call (Event Unit)) :=
  List.replicate 30 (.perform () 0) ++ .start () .beginOp :: .perform () 0 ::
    .start () (.writei smallFile (.user va) 0 100) :: List.replicate steps (.perform () 0)

def smallBoot : Threads (sections 3 Bytes) (State 3 Unit Bytes) Unit Bool :=
  boot smallConf () false smallDisk onePage []

theorem shown_of_run_writeFrom :
    ∃ world, Transition.run (Threads.step (system arm64 smallSb smallConf ())) smallBoot
      (writeFrom 0 21) = some world ∧ Shown world.shared := by
  have halong : Transition.Along (Threads.step (system arm64 smallSb smallConf ()))
      (Threads.Meets CopiesWhole) smallBoot (writeFrom 0 21) := by
    decide +kernel
  have hrun : (Transition.run (Threads.step (system arm64 smallSb smallConf ())) smallBoot
      (writeFrom 0 21)).isSome := by
    decide +kernel
  obtain ⟨world, hworld⟩ := Option.isSome_iff_exists.mp hrun
  exact ⟨world, hworld, shown_of_run halong hworld⟩

/-- Ten bytes before the end of the page, the copy fails halfway. -/
theorem not_shown_writeFrom :
    ¬ ∀ actions world, Transition.run (Threads.step (system arm64 smallSb smallConf ())) smallBoot
      actions = some world → Shown world.shared := by
  have hrun : ∃ world ∈ Transition.run (Threads.step (system arm64 smallSb smallConf ())) smallBoot
      (writeFrom 4086 20), (world.shared.cache.buf 2).owner = none ∧
        (world.shared.cache.buf 2).content.valid = true ∧
        (world.shared.cache.buf 2).blockno ∉ world.shared.log.lh ∧
        (world.shared.cache.buf 2).content.data 0 = 7 ∧
        world.shared.disk (world.shared.cache.buf 2).blockno 0 = 0 := by
    decide +kernel
  intro hshown
  obtain ⟨world, hworld, hfree, hvalid, hlh, hdata, hdisk⟩ := hrun
  have hsame := hshown _ world hworld 2 hfree hvalid hlh
  rw [hsame, hdisk] at hdata
  cases hdata

end Xv6.Fs
