import Mathlib.Data.Set.Insert
import Mathlib.Data.Sum.Basic
import Xv6.Vm.Shared

/-!
# Processes that share memory

The process table, and processes that run on the same memory at the same time. A slot of the table is
taken while its process is made, runs, or is freed, and the data and the memory of the process are with
whoever does that. They change hands where the slot is left to be run or to be freed. So each process
works on memory of its own, and the rule says what it may do with that whatever the others do.
-/

namespace Xv6.Vm

/-! ### The table -/

/-- A slot of the process table. -/
inductive Entry (R : Type) where
  | unused
  | taken
  | runnable (proc : R)
  | zombie (proc : R)

structure Machine (I W R ι : Type) where
  memory : Memory I W
  entry : ι → Entry R
  parent : ι → Option ι
  nextpid : Nat

/-- What a process does to the table, each under the locks that the source takes for it. -/
inductive ProcOp (I W R ι : Type) where
  | memory (op : (accesses I W).Op)
  | allocpid
  /-- Take a slot if it is unused. -/
  | claim (i : ι)
  /-- The end of `freeproc`. -/
  | release (i : ι)
  /-- `np->parent = p`. -/
  | adopt (i : ι)
  /-- `pp->parent = 0`. -/
  | orphan (i : ι)
  /-- The process of a slot becomes runnable. -/
  | ready (i : ι) (proc : R)
  /-- The scheduler runs the process of a slot. -/
  | schedule (i : ι)
  /-- The end of `exit`: children are given to init, and the process is a zombie. -/
  | exit (i : ι) (proc : R)
  /-- Look for a zombie child in a slot, and lock it. -/
  | lockZombie (i : ι)
  | unlockZombie (i : ι) (proc : R)

def ProcOp.Resp {I W R ι : Type} : ProcOp I W R ι → Type
  | .memory op => (accesses I W).Resp op
  | .allocpid => Nat
  | .claim _ => Bool
  | .schedule _ => R
  | .lockZombie _ => Option R
  | _ => Unit

def processes (I W R ι : Type) : Signature := ⟨ProcOp I W R ι, ProcOp.Resp⟩

abbrev Kernel (I W R ι α : Type) := Program (processes I W R ι) α

section Code

variable {I W R ι : Type}

def table (op : ProcOp I W R ι) : Kernel I W R ι op.Resp :=
  Program.call (op : (processes I W R ι).Op) .ret

def carry (op : (accesses I W).Op) : Kernel I W R ι ((accesses I W).Resp op) :=
  Program.call (ProcOp.memory op : (processes I W R ι).Op) .ret

def allocpid : Kernel I W R ι Nat := table .allocpid

def claim (i : ι) : Kernel I W R ι Bool := table (.claim i)

def schedule (i : ι) : Kernel I W R ι R := table (.schedule i)

def lockZombie (i : ι) : Kernel I W R ι (Option R) := table (.lockZombie i)

def lift {α : Type} (code : Code I W α) : Kernel I W R ι α := code.translate carry

end Code

section Handler

variable {I W R ι : Type} [DecidableEq ι]

/-- An access. `kalloc` may fail though there is memory: the choice says whether it does. -/
def accessOrFail (junk : Nat → I → W) (memory : Memory I W) :
    (op : (accesses I W).Op) → Nat → Option ((accesses I W).Resp op × Memory I W)
  | .kalloc _, _ + 1 => some (none, memory)
  | op, choice => access junk () memory op choice

/-- What each operation does. -/
def act (junk : Nat → I → W) (init : ι) : Handler (processes I W R ι) (Machine I W R ι) ι
  | _, machine, .memory op, choice =>
      (accessOrFail junk machine.memory op choice).map fun result =>
        (result.1, { machine with memory := result.2 })
  | _, machine, .allocpid, _ => some (machine.nextpid, { machine with nextpid := machine.nextpid + 1 })
  | _, machine, .claim i, _ =>
      match machine.entry i with
      | .unused => some (true, { machine with entry := Function.update machine.entry i .taken })
      | _ => some (false, machine)
  | _, machine, .release i, _ => some ((), { machine with
      entry := Function.update machine.entry i .unused })
  | who, machine, .adopt i, _ => some ((), { machine with
      parent := Function.update machine.parent i (some who) })
  | _, machine, .orphan i, _ => some ((), { machine with
      parent := Function.update machine.parent i none })
  | _, machine, .ready i proc, _ => some ((), { machine with
      entry := Function.update machine.entry i (.runnable proc) })
  | _, machine, .schedule i, _ =>
      match machine.entry i with
      | .runnable proc => some (proc, { machine with entry := Function.update machine.entry i .taken })
      | _ => none
  | who, machine, .exit i proc, _ => some ((), { machine with
      entry := Function.update machine.entry i (.zombie proc)
      parent := fun j => if machine.parent j = some who then some init else machine.parent j })
  | who, machine, .lockZombie i, _ =>
      match machine.entry i with
      | .zombie proc =>
          if machine.parent i = some who then
            some (some proc, { machine with entry := Function.update machine.entry i .taken })
          else some (none, machine)
      | _ => some (none, machine)
  | _, machine, .unlockZombie i proc, _ => some ((), { machine with
      entry := Function.update machine.entry i (.zombie proc) })

end Handler

/-! ### The rule -/

structure Holding (I W ι : Type) where
  own : Owned I W
  slots : Set ι

section Rule

variable {I W R ι : Type}

def Gives (holds : R → Owned I W → Prop) (i : ι) (proc : R) (holding : Holding I W ι)
    (Q : Holding I W ι → Prop) : Prop :=
  i ∈ holding.slots ∧ ∃ child rest, holding.own = child.union rest ∧ child.Disjoint rest ∧
    holds proc child ∧ Q ⟨rest, holding.slots \ {i}⟩

def Gets (holds : R → Owned I W → Prop) (i : ι) (holding : Holding I W ι)
    (Q : R → Holding I W ι → Prop) : Prop :=
  ∀ proc child, holds proc child → child.Disjoint holding.own → i ∉ holding.slots →
    Q proc ⟨child.union holding.own, insert i holding.slots⟩

/-- `holds` says what memory a process has. `kalloc` may fail. -/
def procRule (ram : Ram) (holds : R → Owned I W → Prop) :
    Rule (processes I W R ι) (Holding I W ι)
  | .memory op, holding, Q =>
      rule ram (fun _ => True) op holding.own fun response own => Q response { holding with own }
  | .allocpid, holding, Q => ∀ pid, Q pid holding
  | .claim i, holding, Q => Q false holding ∧
      (i ∉ holding.slots → Q true { holding with slots := insert i holding.slots })
  | .release i, holding, Q => i ∈ holding.slots ∧ Q () { holding with slots := holding.slots \ {i} }
  | .adopt _, holding, Q => Q () holding
  | .orphan _, holding, Q => Q () holding
  | .ready i proc, holding, Q => Gives holds i proc holding (Q ())
  | .schedule i, holding, Q => Gets holds i holding Q
  | .exit i proc, holding, Q => Gives holds i proc holding (Q ())
  | .lockZombie i, holding, Q => Q none holding ∧ Gets holds i holding fun proc => Q (some proc)
  | .unlockZombie i proc, holding, Q => Gives holds i proc holding (Q ())

variable {ram : Ram} {holds : R → Owned I W → Prop}

theorem Gives.mono {i : ι} {proc : R} {holding : Holding I W ι} {Q Q' : Holding I W ι → Prop}
    (h : Gives holds i proc holding Q) (hpost : ∀ holding', Q holding' → Q' holding') :
    Gives holds i proc holding Q' := by
  obtain ⟨hmem, child, rest, hown, hdisjoint, hholds, hnext⟩ := h
  exact ⟨hmem, child, rest, hown, hdisjoint, hholds, hpost _ hnext⟩

theorem Gets.mono {i : ι} {holding : Holding I W ι} {Q Q' : R → Holding I W ι → Prop}
    (h : Gets holds i holding Q) (hpost : ∀ proc holding', Q proc holding' → Q' proc holding') :
    Gets holds i holding Q' := fun proc child hholds hdisjoint hnot =>
  hpost _ _ (h proc child hholds hdisjoint hnot)

theorem procRule_monotone : (procRule ram holds : Rule (processes I W R ι) _).Monotone := by
  intro op holding post post' hpost h
  cases op with
  | memory op => exact rule_monotone _ _ _ _ (fun _ _ => hpost _ _) h
  | allocpid => exact fun pid => hpost _ _ (h pid)
  | claim i => exact ⟨hpost _ _ h.1, fun hnot => hpost _ _ (h.2 hnot)⟩
  | release i => exact ⟨h.1, hpost _ _ h.2⟩
  | adopt i => exact hpost _ _ h
  | orphan i => exact hpost _ _ h
  | ready i proc => exact h.mono (hpost _)
  | schedule i => exact h.mono hpost
  | exit i proc => exact h.mono (hpost _)
  | lockZombie i => exact ⟨hpost _ _ h.1, h.2.mono fun proc => hpost _⟩
  | unlockZombie i proc => exact h.mono (hpost _)

theorem wp_lift {α : Type} {code : Code I W α} {own : Owned I W} {slots : Set ι}
    {Q : α → Holding I W ι → Prop}
    (h : code.wp (rule ram fun _ => True) own fun value own' => Q value ⟨own', slots⟩) :
    (lift code : Kernel I W R ι α).wp (procRule ram holds) ⟨own, slots⟩ Q := by
  refine (Program.wp_translate code Q).mpr ?_
  induction code generalizing own with
  | ret value => exact h
  | call op next ih => exact rule_monotone _ _ _ _ (fun response own' hnext => ih response hnext) h

theorem wp_lift_frame {α β : Type} {code : Code I W α} {own rest : Owned I W} {slots : Set ι}
    {Q : α → Owned I W → Prop} {f : α → Kernel I W R ι β} {post : β → Holding I W ι → Prop}
    (hdisjoint : own.Disjoint rest) (h : code.wp (rule ram fun _ => True) own Q)
    (hpost : ∀ value own', Q value own' → own'.Disjoint rest →
      (f value).wp (procRule ram holds) ⟨own'.union rest, slots⟩ post) :
    (lift code >>= f).wp (procRule ram holds) ⟨own.union rest, slots⟩ post := by
  rw [Program.wp_bind]
  apply wp_lift
  apply Program.wp_mono rule_monotone _ (Program.wp_frame rule_monotone rule_local hdisjoint h)
  intro value heap hframe
  obtain ⟨own', rfl, hdisjoint', hvalue⟩ := hframe
  exact hpost value own' hvalue hdisjoint'

theorem wp_lockZombie {α : Type} {i : ι} {f : Option R → Kernel I W R ι α} {holding : Holding I W ι}
    {post : α → Holding I W ι → Prop} : (lockZombie i >>= f).wp (procRule ram holds) holding post ↔
      (f none).wp (procRule ram holds) holding post ∧
        Gets holds i holding fun proc holding' => (f (some proc)).wp (procRule ram holds) holding' post := Iff.rfl

end Rule

/-! ### Soundness -/

def Entry.proc {R : Type} : Entry R → Option R
  | .runnable proc | .zombie proc => some proc
  | .unused | .taken => none

section Sound

variable {I W R ι : Type}

structure Apart (ram : Ram) (holds : R → Owned I W → Prop) (machine : Machine I W R ι)
    (ghosts : ι → Holding I W ι) (parked : ι → Owned I W) : Prop where
  shared : Shared ram machine.memory (Sum.elim (fun who => (ghosts who).own) parked)
  holds : ∀ {i proc}, (machine.entry i).proc = some proc → holds proc (parked i)
  empty : ∀ {i}, (machine.entry i).proc = none → parked i = Heap.empty
  taken : ∀ {who i}, i ∈ (ghosts who).slots → machine.entry i = .taken
  unique : ∀ {who who' i}, i ∈ (ghosts who).slots → i ∈ (ghosts who').slots → who = who'

def Inv (ram : Ram) (holds : R → Owned I W → Prop) (machine : Machine I W R ι)
    (ghosts : ι → Holding I W ι) : Prop :=
  ∃ parked, Apart ram holds machine ghosts parked

variable [DecidableEq ι] {ram : Ram} {holds : R → Owned I W → Prop} {machine : Machine I W R ι}
  {ghosts : ι → Holding I W ι} {parked : ι → Owned I W} {junk : Nat → I → W} {who i : ι} {proc : R}

theorem own_update (holding : Holding I W ι) :
    (fun other => (Function.update ghosts who holding other).own) =
      Function.update (fun other => (ghosts other).own) who holding.own := by
  ext other : 1
  by_cases hother : other = who
  · rw [hother, Function.update_self, Function.update_self]
  · rw [Function.update_of_ne hother, Function.update_of_ne hother]

theorem accessOrFail_sound {pool : Nat → Prop} {others : Nat → I → W} {memory memory' : Memory I W}
    {own : Owned I W} {op : (accesses I W).Op} {choice : Nat} {response : (accesses I W).Resp op}
    {Q : (accesses I W).Resp op → Owned I W → Prop} (howns : Owns ram pool others memory own)
    (hrule : rule ram (fun _ => True) op own Q)
    (hstep : accessOrFail junk memory op choice = some (response, memory')) :
    ∃ own', Q response own' ∧ Owns ram pool others memory' own' := by
  have hsound : ∀ {result}, Vm.access junk () memory op 0 = some result →
      ∃ own', Q result.1 own' ∧ Owns ram pool others result.2 own' := by
    intro result hresult
    obtain ⟨response', memory'', own', haccess, hpost, howns'⟩ :=
      @access_sound _ _ _ _ _ _ _ junk () _ _ op Q howns (spares_of_fails memory op) hrule
    obtain rfl := Option.some.inj (hresult.symm.trans haccess)
    exact ⟨own', hpost, howns'⟩
  cases op with
  | kalloc table =>
      cases choice with
      | zero => exact hsound hstep
      | succ choice =>
          obtain ⟨rfl, rfl⟩ := Prod.mk.inj (Option.some.inj hstep)
          exact ⟨own, hrule.1 trivial, howns⟩
  | kfree p => exact hsound hstep
  | read p i => exact hsound hstep
  | modify p change => exact hsound hstep
  | copy dst src => exact hsound hstep
  | panic message => exact hsound hstep

namespace Apart

variable (h : Apart ram holds machine ghosts parked)
include h

omit [DecidableEq ι] in
theorem parked_of_taken (hmem : i ∈ (ghosts who).slots) : parked i = Heap.empty := by
  apply h.empty
  rw [h.taken hmem]
  rfl

theorem gives {Q : Holding I W ι → Prop} {entry : Entry R} {parent : ι → Option ι}
    (hgives : Gives holds i proc (ghosts who) Q) (hentry : entry.proc = some proc) :
    ∃ holding, Q holding ∧ Inv ram holds
      { machine with entry := Function.update machine.entry i entry, parent }
      (Function.update ghosts who holding) := by
  obtain ⟨hmem, child, rest, hown, hdisjoint, hholds, hnext⟩ := hgives
  have hslots : ∀ {other j}, j ∈ (Function.update ghosts who ⟨rest, (ghosts who).slots \ {i}⟩ other).slots →
      j ∈ (ghosts other).slots ∧ j ≠ i := by
    intro other j hj
    by_cases hother : other = who
    · rw [hother, Function.update_self] at hj
      exact hother ▸ hj
    · rw [Function.update_of_ne hother] at hj
      exact ⟨hj, fun heq => hother (h.unique hj (heq ▸ hmem))⟩
  refine ⟨_, hnext, Function.update parked i child, ?_, fun {j other} hj => ?_, fun {j} hj => ?_,
    fun {other j} hj => ?_, fun hj hj' => h.unique (hslots hj).1 (hslots hj').1⟩
  · have hunion : (ghosts who).own.union (parked i) = rest.union child := by
      rw [h.parked_of_taken hmem, Heap.union_empty, hown, hdisjoint.union_comm]
    have hne : (Sum.inl who : ι ⊕ ι) ≠ Sum.inr i := Sum.inl_ne_inr
    have hdivide := h.shared.divide hne hunion hdisjoint.symm
    rw [own_update]
    rwa [Sum.update_elim_inl, Sum.update_elim_inr] at hdivide
  · dsimp only at hj
    by_cases hi : j = i
    · subst hi
      rw [Function.update_self] at hj ⊢
      obtain rfl := Option.some.inj (hentry.symm.trans hj)
      exact hholds
    · rw [Function.update_of_ne hi] at hj ⊢
      exact h.holds hj
  · dsimp only at hj
    by_cases hi : j = i
    · rw [hi, Function.update_self, hentry] at hj
      cases hj
    · rw [Function.update_of_ne hi] at hj ⊢
      exact h.empty hj
  · dsimp only
    rw [Function.update_of_ne (hslots hj).2]
    exact h.taken (hslots hj).1

theorem gets {Q : R → Holding I W ι → Prop} (hgets : Gets holds i (ghosts who) Q)
    (hentry : (machine.entry i).proc = some proc) :
    ∃ holding, Q proc holding ∧ Inv ram holds
      { machine with entry := Function.update machine.entry i .taken }
      (Function.update ghosts who holding) := by
  have hfree : ∀ {other}, i ∉ (ghosts other).slots := by
    intro other hmem
    rw [h.taken hmem] at hentry
    cases hentry
  have hne : (Sum.inr i : ι ⊕ ι) ≠ Sum.inl who := Sum.inr_ne_inl
  have hdisjoint : (parked i).Disjoint (ghosts who).own := h.shared.disjoint hne
  have hslots : ∀ {other j}, j ∈ (Function.update ghosts who
      ⟨(parked i).union (ghosts who).own, insert i (ghosts who).slots⟩ other).slots →
        (j = i ∧ other = who) ∨ j ∈ (ghosts other).slots := by
    intro other j hj
    by_cases hother : other = who
    · subst hother
      rw [Function.update_self] at hj
      rcases hj with heq | hj
      · exact Or.inl ⟨heq, rfl⟩
      · exact Or.inr hj
    · rw [Function.update_of_ne hother] at hj
      exact Or.inr hj
  refine ⟨_, hgets proc (parked i) (h.holds hentry) hdisjoint hfree, Function.update parked i Heap.empty,
    ?_, fun {j other} hj => ?_, fun {j} hj => ?_, fun {other j} hj => ?_, fun {other other' j} hj hj' => ?_⟩
  · have hunion : (parked i).union (ghosts who).own =
        Heap.empty.union ((parked i).union (ghosts who).own) := Heap.empty_union.symm
    have hdivide := h.shared.divide hne hunion Heap.Disjoint.empty
    rw [own_update]
    rwa [Sum.update_elim_inr, Sum.update_elim_inl] at hdivide
  · dsimp only at hj
    by_cases hi : j = i
    · rw [hi, Function.update_self] at hj
      cases hj
    · rw [Function.update_of_ne hi] at hj ⊢
      exact h.holds hj
  · dsimp only at hj
    by_cases hi : j = i
    · rw [hi, Function.update_self]
    · rw [Function.update_of_ne hi] at hj ⊢
      exact h.empty hj
  · dsimp only
    by_cases hi : j = i
    · rw [hi, Function.update_self]
    · rw [Function.update_of_ne hi]
      exact h.taken ((hslots hj).resolve_left fun heq => hi heq.1)
  · rcases hslots hj with ⟨heq, hwho⟩ | hmem
    · rcases hslots hj' with ⟨-, hwho'⟩ | hmem'
      · exact hwho.trans hwho'.symm
      · exact absurd (heq ▸ hmem') hfree
    · rcases hslots hj' with ⟨heq, -⟩ | hmem'
      · exact absurd (heq ▸ hmem) hfree
      · exact h.unique hmem hmem'

theorem relabel {entry : Entry R} {slots : Set ι} {parent : ι → Option ι}
    (hold : (machine.entry i).proc = none) (hentry : entry.proc = none)
    (hslots : ∀ j ≠ i, j ∈ slots → j ∈ (ghosts who).slots) (hself : i ∈ slots → entry = .taken)
    (hothers : ∀ other ≠ who, i ∉ (ghosts other).slots) :
    Inv ram holds { machine with entry := Function.update machine.entry i entry, parent }
      (Function.update ghosts who { ghosts who with slots }) := by
  have hcases : ∀ {other j}, j ∈ (Function.update ghosts who { ghosts who with slots } other).slots →
      (j = i ∧ other = who ∧ entry = .taken) ∨ (j ≠ i ∧ j ∈ (ghosts other).slots) := by
    intro other j hj
    by_cases hother : other = who
    · subst hother
      rw [Function.update_self] at hj
      by_cases hi : j = i
      · exact Or.inl ⟨hi, rfl, hself (hi ▸ hj)⟩
      · exact Or.inr ⟨hi, hslots j hi hj⟩
    · rw [Function.update_of_ne hother] at hj
      exact Or.inr ⟨fun heq => hothers other hother (heq ▸ hj), hj⟩
  refine ⟨parked, ?_, fun {j other} hj => ?_, fun {j} hj => ?_, fun {other j} hj => ?_,
    fun {other other' j} hj hj' => ?_⟩
  · rw [own_update]
    dsimp only
    rw [Function.update_eq_self]
    exact h.shared
  · dsimp only at hj
    by_cases hi : j = i
    · rw [hi, Function.update_self, hentry] at hj
      cases hj
    · rw [Function.update_of_ne hi] at hj
      exact h.holds hj
  · dsimp only at hj
    by_cases hi : j = i
    · exact h.empty (hi ▸ hold)
    · rw [Function.update_of_ne hi] at hj
      exact h.empty hj
  · dsimp only
    rcases hcases hj with ⟨rfl, -, htaken⟩ | ⟨hi, hmem⟩
    · rw [Function.update_self, htaken]
    · rw [Function.update_of_ne hi]
      exact h.taken hmem
  · rcases hcases hj with ⟨heq, hwho, -⟩ | ⟨hi, hmem⟩
    · rcases hcases hj' with ⟨-, hwho', -⟩ | ⟨hi', -⟩
      · exact hwho.trans hwho'.symm
      · exact absurd heq hi'
    · rcases hcases hj' with ⟨heq, -⟩ | ⟨-, hmem'⟩
      · exact absurd heq hi
      · exact h.unique hmem hmem'

end Apart

theorem act_sound (init : ι) :
    Threads.HandlerSound (act junk init) (procRule ram holds) (Inv ram holds) fun _ _ _ => True := by
  intro who machine ghosts op choice response machine' Q hinv _ hrule hstep
  obtain ⟨parked, h⟩ := hinv
  have hstay : Inv ram holds machine (Function.update ghosts who (ghosts who)) := by
    rw [Function.update_eq_self]
    exact ⟨parked, h⟩
  cases op with
  | memory op =>
      obtain ⟨result, hresult, heq⟩ := Option.map_eq_some_iff.mp hstep
      obtain ⟨rfl, rfl⟩ := Prod.mk.inj heq
      obtain ⟨own, hpost, howns⟩ := accessOrFail_sound (h.shared.owns (Sum.inl who)) hrule hresult
      have hshared := h.shared.access howns
      rw [Sum.update_elim_inl] at hshared
      have hslots : ∀ {other}, (Function.update ghosts who { ghosts who with own } other).slots =
          (ghosts other).slots := by
        intro other
        by_cases hother : other = who
        · rw [hother, Function.update_self]
        · rw [Function.update_of_ne hother]
      refine ⟨_, hpost, parked, ?_, h.holds, h.empty, fun {other i} hi => ?_, fun hi hi' => ?_⟩
      · rw [own_update]
        exact hshared
      · exact h.taken (hslots ▸ hi)
      · exact h.unique (hslots ▸ hi) (hslots ▸ hi')
  | allocpid =>
      obtain ⟨rfl, rfl⟩ := Prod.mk.inj (Option.some.inj hstep)
      refine ⟨_, hrule _, ?_⟩
      rw [Function.update_eq_self]
      exact ⟨parked, h.shared, h.holds, h.empty, h.taken, h.unique⟩
  | claim i =>
      have hrefused : some (false, machine) = some (response, machine') →
          ∃ holding, Q response holding ∧ Inv ram holds machine' (Function.update ghosts who holding) := by
        intro heq
        obtain ⟨rfl, rfl⟩ := Prod.mk.inj (Option.some.inj heq)
        exact ⟨_, hrule.1, hstay⟩
      cases hentry : machine.entry i with
      | unused =>
          simp only [act, hentry] at hstep
          obtain ⟨rfl, rfl⟩ := Prod.mk.inj (Option.some.inj hstep)
          have hnot : ∀ {other}, i ∉ (ghosts other).slots := by
            intro other hmem
            rw [h.taken hmem] at hentry
            cases hentry
          have hold : (machine.entry i).proc = none := by
            rw [hentry]
            rfl
          exact ⟨_, hrule.2 hnot, h.relabel hold rfl (fun j hne hj => hj.resolve_left hne) (fun _ => rfl)
            fun _ _ => hnot⟩
      | taken =>
          simp only [act, hentry] at hstep
          exact hrefused hstep
      | runnable proc =>
          simp only [act, hentry] at hstep
          exact hrefused hstep
      | zombie proc =>
          simp only [act, hentry] at hstep
          exact hrefused hstep
  | release i =>
      obtain ⟨rfl, rfl⟩ := Prod.mk.inj (Option.some.inj hstep)
      refine ⟨_, hrule.2, h.relabel ?_ rfl (fun j _ hj => hj.1) (fun hi => absurd rfl hi.2) ?_⟩
      · rw [h.taken hrule.1]
        rfl
      · exact fun other hother hi => hother (h.unique hi hrule.1)
  | adopt i =>
      obtain ⟨rfl, rfl⟩ := Prod.mk.inj (Option.some.inj hstep)
      refine ⟨_, hrule, ?_⟩
      rw [Function.update_eq_self]
      exact ⟨parked, h.shared, h.holds, h.empty, h.taken, h.unique⟩
  | orphan i =>
      obtain ⟨rfl, rfl⟩ := Prod.mk.inj (Option.some.inj hstep)
      refine ⟨_, hrule, ?_⟩
      rw [Function.update_eq_self]
      exact ⟨parked, h.shared, h.holds, h.empty, h.taken, h.unique⟩
  | ready i proc =>
      obtain ⟨rfl, rfl⟩ := Prod.mk.inj (Option.some.inj hstep)
      exact h.gives hrule rfl
  | schedule i =>
      cases hentry : machine.entry i with
      | runnable proc =>
          simp only [act, hentry] at hstep
          obtain ⟨rfl, rfl⟩ := Prod.mk.inj (Option.some.inj hstep)
          apply h.gets hrule
          rw [hentry]
          rfl
      | unused => simp [act, hentry] at hstep
      | taken => simp [act, hentry] at hstep
      | zombie proc => simp [act, hentry] at hstep
  | exit i proc =>
      obtain ⟨rfl, rfl⟩ := Prod.mk.inj (Option.some.inj hstep)
      exact h.gives hrule rfl
  | lockZombie i =>
      have hrefused : some (none, machine) = some (response, machine') →
          ∃ holding, Q response holding ∧ Inv ram holds machine' (Function.update ghosts who holding) := by
        intro heq
        obtain ⟨rfl, rfl⟩ := Prod.mk.inj (Option.some.inj heq)
        exact ⟨_, hrule.1, hstay⟩
      cases hentry : machine.entry i with
      | zombie proc =>
          simp only [act, hentry] at hstep
          by_cases hparent : machine.parent i = some who
          · rw [if_pos hparent] at hstep
            obtain ⟨rfl, rfl⟩ := Prod.mk.inj (Option.some.inj hstep)
            apply h.gets hrule.2
            rw [hentry]
            rfl
          · rw [if_neg hparent] at hstep
            exact hrefused hstep
      | unused =>
          simp only [act, hentry] at hstep
          exact hrefused hstep
      | taken =>
          simp only [act, hentry] at hstep
          exact hrefused hstep
      | runnable proc =>
          simp only [act, hentry] at hstep
          exact hrefused hstep
  | unlockZombie i proc =>
      obtain ⟨rfl, rfl⟩ := Prod.mk.inj (Option.some.inj hstep)
      exact h.gives hrule rfl

/-! ### Runs -/

def Rests (holds : R → Owned I W → Prop) (who : ι) : Option R → Holding I W ι → Prop
  | none, holding => holding.own = Heap.empty ∧ holding.slots = ∅
  | some proc, holding => holds proc holding.own ∧ holding.slots = {who}

/-- The kernel, with one thread for each slot. Nothing else acts. -/
def kernel {Call : Type} (junk : Nat → I → W) (init : ι)
    (menu : ι → Call → Option R → Option (Kernel I W R ι (Option R))) :
    Threads.System (processes I W R ι) (Machine I W R ι) ι (Option R) Call Empty where
  handler := act junk init
  menu := menu
  environment _ _ := none

structure Accounted (ram : Ram) (holds : R → Owned I W → Prop)
    (world : Threads (processes I W R ι) (Machine I W R ι) ι (Option R)) (heaps : ι ⊕ ι → Owned I W) :
    Prop where
  shared : Shared ram world.shared.memory heaps
  user : ∀ {who proc}, world.thread who = .ret (some proc) → holds proc (heaps (.inl who))
  parked : ∀ {i proc}, (world.shared.entry i).proc = some proc → holds proc (heaps (.inr i))
  /-- Nobody is about to panic. -/
  calm : ∀ who message, world.nextOp who ≠ some (.memory (.panic message))
  /-- Nobody is about to free a page that is free. -/
  once : ∀ {who p}, world.nextOp who = some (.memory (.kfree p)) →
    p ∉ world.shared.memory.freelist ∧ heaps (.inl who) p ≠ none

variable {world world' : Threads (processes I W R ι) (Machine I W R ι) ι (Option R)} {Call : Type}
  {menu : ι → Call → Option R → Option (Kernel I W R ι (Option R))} {init : ι}

theorem accounted_of_run (hmenu : Threads.MenuSound menu (procRule ram holds) (Rests holds))
    (hstart : Threads.Verified (procRule ram holds) (Inv ram holds) (Rests holds) world)
    {actions : List (Threads.Action ι Call Empty)}
    (hrun : Transition.run (Threads.step (kernel junk init menu)) world actions = some world') :
    Threads.Verified (procRule ram holds) (Inv ram holds) (Rests holds) world' := by
  refine Threads.sound_run ?_ ?_ ?_ hstart hrun
  · exact act_sound init
  · exact fun _ event => event.elim
  · exact hmenu

/-- The start: nobody is in a call, one process is there to be run, and every page that is not its own is free. -/
structure Booted (ram : Ram) (holds : R → Owned I W → Prop) (first : ι) (proc : R) (own : Owned I W)
    (world : Threads (processes I W R ι) (Machine I W R ι) ι (Option R)) : Prop where
  idle : ∀ who, world.thread who = .ret none
  owns : Owns ram ram.Has world.shared.memory.words world.shared.memory own
  holds : holds proc own
  runnable : world.shared.entry first = .runnable proc
  unused : ∀ i, i ≠ first → world.shared.entry i = .unused

theorem Booted.verified {first : ι} {own : Owned I W} (h : Booted ram holds first proc own world) :
    Threads.Verified (procRule ram holds) (Inv ram holds) (Rests holds) world := by
  have hparked : ∀ {i}, i ≠ first → Function.update (fun _ => Heap.empty) first own i = Heap.empty :=
    fun hi => Function.update_of_ne hi _ _
  refine ⟨fun _ => ⟨Heap.empty, ∅⟩, ⟨Function.update (fun _ => Heap.empty) first own, ?_⟩, fun who => ?_⟩
  · refine ⟨⟨fun {k p words} hwords => ?_, fun {j k} hne p => ?_, h.owns.nodup, fun {k p} hfree => ?_, fun p => ?_⟩,
      fun {i other} hi => ?_, fun {i} hi => ?_, fun hi => hi.elim, fun hi => hi.elim⟩
    · cases k with
      | inl who => cases hwords
      | inr i =>
          by_cases hi : i = first
          · rw [Sum.elim_inr, hi, Function.update_self] at hwords
            exact h.owns.words hwords
          · rw [Sum.elim_inr, hparked hi] at hwords
            cases hwords
    · cases j with
      | inl who => exact Or.inl rfl
      | inr i =>
          by_cases hi : i = first
          · cases k with
            | inl who => exact Or.inr rfl
            | inr j =>
                have hj : j ≠ first := fun hj => hne (congrArg Sum.inr (hi.trans hj.symm))
                rw [Sum.elim_inr, Sum.elim_inr, hparked hj]
                exact Or.inr rfl
          · rw [Sum.elim_inr, hparked hi]
            exact Or.inl rfl
    · cases k with
      | inl who => rfl
      | inr i =>
          by_cases hi : i = first
          · rw [Sum.elim_inr, hi, Function.update_self]
            exact h.owns.free hfree
          · rw [Sum.elim_inr, hparked hi]
            rfl
    · rw [h.owns.mem_pool p]
      refine or_congr_right ⟨fun hown => ⟨Sum.inr first, ?_⟩, fun hex => ?_⟩
      · rwa [Sum.elim_inr, Function.update_self]
      · obtain ⟨k, hk⟩ := hex
        cases k with
        | inl who => exact absurd rfl hk
        | inr i =>
            by_cases hi : i = first
            · rwa [Sum.elim_inr, hi, Function.update_self] at hk
            · rw [Sum.elim_inr, hparked hi] at hk
              exact absurd rfl hk
    · by_cases hfirst : i = first
      · rw [hfirst, h.runnable] at hi
        obtain rfl := Option.some.inj hi
        rw [hfirst, Function.update_self]
        exact h.holds
      · rw [h.unused i hfirst] at hi
        cases hi
    · by_cases hfirst : i = first
      · rw [hfirst, h.runnable] at hi
        cases hi
      · exact hparked hfirst
  · rw [h.idle who]
    exact ⟨rfl, rfl⟩

/-- A process, and who has its memory: its own thread, where it is in user mode, or the table. -/
def Lives (world : Threads (processes I W R ι) (Machine I W R ι) ι (Option R)) (proc : R) : ι ⊕ ι → Prop
  | .inl who => world.thread who = .ret (some proc)
  | .inr i => (world.shared.entry i).proc = some proc

omit [DecidableEq ι] in
theorem Lives.unique {proc' : R} {place : ι ⊕ ι} (hlives : Lives world proc place) (hlives' : Lives world proc' place) :
    proc = proc' := by
  cases place with
  | inl who =>
      have hsame := hlives.symm.trans hlives'
      injection hsame with hsame
      exact Option.some.inj hsame
  | inr i => exact Option.some.inj (hlives.symm.trans hlives')

end Sound

end Xv6.Vm
