import Xv6.Lib.Alone
import Xv6.Lib.Heap

/-!
# Pages of memory and the free list

`kalloc` and `kfree`, and programs that read and write pages a word at a time. A page is named by its
number, and its words by an index. The rule is about what a process owns: every page it reads, writes or
frees is its own, and it never panics.
-/

namespace Xv6.Vm

/-- The pages that are given to `kfree` at boot: from the end of the kernel to `PHYSTOP`. -/
structure Ram where
  first : Nat
  top : Nat
  first_pos : 0 < first
  size_le : top - first ≤ 65536
  top_le : top ≤ 1048576

def smallRam : Ram := ⟨2, 6, Nat.succ_pos 1, Nat.le_add_left 4 65532, Nat.le_add_left 6 1048570⟩

def Ram.Has (ram : Ram) (p : Nat) : Prop := ram.first ≤ p ∧ p < ram.top

theorem Ram.Has.lt {ram : Ram} {p : Nat} (h : ram.Has p) : p < 1048576 :=
  Nat.lt_of_lt_of_le h.2 ram.top_le

/-- Memory and `kmem`. -/
structure Memory (I W : Type) where
  words : Nat → I → W
  freelist : List Nat

inductive Op (I W : Type) where
  /-- `table` is for the statements: is it for a page table? -/
  | kalloc (table : Bool)
  | kfree (p : Nat)
  | read (p : Nat) (i : I)
  | modify (p : Nat) (change : (I → W) → I → W)
  /-- `memmove` of a page. -/
  | copy (dst src : Nat)
  | panic (message : String)

def Op.Resp {I W : Type} : Op I W → Type
  | .kalloc _ => Option Nat
  | .read _ _ => W
  | .panic _ => Empty
  | _ => Unit

def accesses (I W : Type) : Signature := ⟨Op I W, Op.Resp⟩

abbrev Code (I W α : Type) := Program (accesses I W) α

section Code

variable {I W : Type}

def perform (op : Op I W) : Code I W op.Resp := Program.call (op : (accesses I W).Op) .ret

def kalloc (table : Bool) : Code I W (Option Nat) := perform (.kalloc table)

def read (p : Nat) (i : I) : Code I W W := perform (.read p i)

def modify (p : Nat) (change : (I → W) → I → W) : Code I W Unit := perform (.modify p change)

def write [DecidableEq I] (p : Nat) (i : I) (word : W) : Code I W Unit :=
  modify p fun words => Function.update words i word

/-- `memset` of a page to a word. -/
def fill (p : Nat) (word : W) : Code I W Unit := modify p fun _ _ => word

def copy (dst src : Nat) : Code I W Unit := perform (.copy dst src)

def panic {α : Type} (message : String) : Code I W α :=
  Program.call (Op.panic message : (accesses I W).Op) fun never => nomatch (never : Empty)

def panicIf (bad : Prop) [Decidable bad] (message : String) : Code I W Unit :=
  Program.when bad (panic message)

def putBack (p : Nat) : Code I W Unit := perform (.kfree p)

def kfree (ram : Ram) (p : Nat) : Code I W Unit := do
  panicIf (p < ram.first ∨ p ≥ ram.top) "kfree"
  putBack p

end Code

section Access

variable {I W ι : Type}

/-- What each access does. What is in a page that was free is left open. Nothing follows a panic. -/
def access (junk : Nat → I → W) : Handler (accesses I W) (Memory I W) ι
  | _, memory, .kalloc _, _ =>
      match memory.freelist with
      | [] => some (none, memory)
      | p :: rest => some (some p, ⟨Function.update memory.words p (junk p), rest⟩)
  | _, memory, .kfree p, _ => some ((), { memory with freelist := p :: memory.freelist })
  | _, memory, .read p i, _ => some (memory.words p i, memory)
  | _, memory, .modify p change, _ =>
      some ((), { memory with words := Function.update memory.words p (change (memory.words p)) })
  | _, memory, .copy dst src, _ =>
      some ((), { memory with words := Function.update memory.words dst (memory.words src) })
  | _, _, .panic _, _ => none

end Access

/-! ### The rule -/

abbrev Owned (I W : Type) := Heap Nat (I → W)

/-- An access is to a page that the process owns, and nobody panics. `fails` says whether there may be no
memory for a page table, and for another page. -/
def rule {I W : Type} (ram : Ram) (fails : Bool → Prop) : Rule (accesses I W) (Owned I W)
  | .kalloc table, own, Q => (fails table → Q none own) ∧
      ∀ p words, ram.Has p → own p = none → Q (some p) (own.set p words)
  | .kfree p, own, Q => (∃ words, own p = some words) ∧ Q () (own.erase p)
  | .read p i, own, Q => ∃ words, own p = some words ∧ Q (words i) own
  | .modify p change, own, Q => ∃ words, own p = some words ∧ Q () (own.set p (change words))
  | .copy dst src, own, Q => (∃ words, own dst = some words) ∧
      ∃ words, own src = some words ∧ Q () (own.set dst words)
  | .panic _, _, _ => False

section Rule

variable {I W : Type} {ram : Ram} {fails : Bool → Prop}

theorem rule_monotone : (rule ram fails : Rule (accesses I W) (Owned I W)).Monotone := by
  intro op own post post' hpost h
  cases op with
  | kalloc table =>
      exact ⟨fun hfails => hpost _ _ (h.1 hfails),
        fun p words hram hnone => hpost _ _ (h.2 p words hram hnone)⟩
  | kfree p => exact ⟨h.1, hpost _ _ h.2⟩
  | read p i =>
      obtain ⟨words, hwords, hnext⟩ := h
      exact ⟨words, hwords, hpost _ _ hnext⟩
  | modify p change =>
      obtain ⟨words, hwords, hnext⟩ := h
      exact ⟨words, hwords, hpost _ _ hnext⟩
  | copy dst src =>
      obtain ⟨hdst, words, hwords, hnext⟩ := h
      exact ⟨hdst, words, hwords, hpost _ _ hnext⟩
  | panic message => exact h

theorem rule_local : (rule ram fails : Rule (accesses I W) (Owned I W)).Local := by
  intro op own rest post hdisjoint h
  cases op with
  | kalloc table =>
      refine ⟨fun hfails => ⟨own, rfl, hdisjoint, h.1 hfails⟩, fun p words hram hnone => ?_⟩
      obtain ⟨hown, hrest⟩ := Heap.union_eq_none.mp hnone
      exact ⟨own.set p words, Heap.set_union.symm, hdisjoint.set hrest, h.2 p words hram hown⟩
  | kfree p =>
      obtain ⟨⟨words, hwords⟩, hnext⟩ := h
      refine ⟨⟨words, Heap.union_eq_some_left hwords⟩, own.erase p, ?_, hdisjoint.erase, hnext⟩
      exact (Heap.erase_union (hdisjoint.right_eq_none hwords)).symm
  | read p i =>
      obtain ⟨words, hwords, hnext⟩ := h
      exact ⟨words, Heap.union_eq_some_left hwords, own, rfl, hdisjoint, hnext⟩
  | modify p change =>
      obtain ⟨words, hwords, hnext⟩ := h
      exact ⟨words, Heap.union_eq_some_left hwords, own.set p (change words),
        Heap.set_union.symm, hdisjoint.set (hdisjoint.right_eq_none hwords), hnext⟩
  | copy dst src =>
      obtain ⟨⟨old, hold⟩, words, hwords, hnext⟩ := h
      exact ⟨⟨old, Heap.union_eq_some_left hold⟩, words, Heap.union_eq_some_left hwords,
        own.set dst words, Heap.set_union.symm, hdisjoint.set (hdisjoint.right_eq_none hold), hnext⟩
  | panic message => exact h

variable {own : Owned I W}

@[simp]
theorem wp_kalloc (table : Bool) (Q : Option Nat → Owned I W → Prop) :
    (kalloc table).wp (rule ram fails) own Q ↔ (fails table → Q none own) ∧
      ∀ p words, ram.Has p → own p = none → Q (some p) (own.set p words) := Iff.rfl

@[simp]
theorem wp_read (p : Nat) (i : I) (Q : W → Owned I W → Prop) :
    (read p i).wp (rule ram fails) own Q ↔ ∃ words, own p = some words ∧ Q (words i) own := Iff.rfl

@[simp]
theorem wp_modify (p : Nat) (change : (I → W) → I → W) (Q : Unit → Owned I W → Prop) :
    (modify p change).wp (rule ram fails) own Q ↔
      ∃ words, own p = some words ∧ Q () (own.set p (change words)) := Iff.rfl

@[simp]
theorem wp_write [DecidableEq I] (p : Nat) (i : I) (word : W) (Q : Unit → Owned I W → Prop) :
    (write p i word).wp (rule ram fails) own Q ↔
      ∃ words, own p = some words ∧ Q () (own.set p (Function.update words i word)) := Iff.rfl

@[simp]
theorem wp_fill (p : Nat) (word : W) (Q : Unit → Owned I W → Prop) :
    (fill p word).wp (rule ram fails) own Q ↔
      ∃ words, own p = some words ∧ Q () (own.set p fun _ => word) := Iff.rfl

@[simp]
theorem wp_copy (dst src : Nat) (Q : Unit → Owned I W → Prop) :
    (copy dst src).wp (rule ram fails) own Q ↔ (∃ words, own dst = some words) ∧
      ∃ words, own src = some words ∧ Q () (own.set dst words) := Iff.rfl

@[simp]
theorem wp_panic {α : Type} (message : String) (Q : α → Owned I W → Prop) :
    (panic message : Code I W α).wp (rule ram fails) own Q ↔ False := Iff.rfl

@[simp]
theorem wp_panicIf (bad : Prop) [Decidable bad] (message : String) (Q : Unit → Owned I W → Prop) :
    (panicIf bad message).wp (rule ram fails) own Q ↔ ¬bad ∧ Q () own := by
  unfold panicIf
  rw [Program.wp_when]
  exact ⟨fun h => ⟨h.1, h.2 h.1⟩, fun h => ⟨fun hbad => absurd hbad h.1, fun _ => h.2⟩⟩

theorem wp_kfree {p : Nat} (hram : ram.Has p) (Q : Unit → Owned I W → Prop) :
    (kfree ram p).wp (rule ram fails) own Q ↔
      (∃ words, own p = some words) ∧ Q () (own.erase p) := by
  have hnot : ¬(p < ram.first ∨ p ≥ ram.top) := by
    rintro (hlt | hge)
    · exact absurd hram.1 (Nat.not_le.mpr hlt)
    · exact absurd hram.2 (Nat.not_lt.mpr hge)
  unfold kfree
  rw [Program.wp_bind, wp_panicIf]
  exact ⟨fun h => h.2, fun h => ⟨hnot, h⟩⟩

end Rule

/-! ### Memory that is owned -/

/-- A process that owns these pages has what is in them, and none of them is free. The pages that are
free or its own are the `pool`, and what is in the `others` stays. -/
structure Owns {I W : Type} (ram : Ram) (pool : Nat → Prop) (others : Nat → I → W) (memory : Memory I W)
    (own : Owned I W) : Prop where
  words : ∀ {p words}, own p = some words → memory.words p = words
  nodup : memory.freelist.Nodup
  free : ∀ {p}, p ∈ memory.freelist → own p = none
  mem_pool : ∀ p, pool p ↔ p ∈ memory.freelist ∨ own p ≠ none
  ram : ∀ {p}, pool p → ram.Has p
  same : ∀ p, ¬pool p → memory.words p = others p

namespace Owns

variable {I W ι : Type} {ram : Ram} {pool : Nat → Prop} {others : Nat → I → W} {memory : Memory I W}
  {own : Owned I W} {p : Nat}

theorem set (h : Owns ram pool others memory own) {old words : I → W} (hown : own p = some old) :
    Owns ram pool others { memory with words := Function.update memory.words p words }
      (own.set p words) := by
  have hpool : pool p := (h.mem_pool p).mpr (Or.inr (by rw [hown]; exact Option.some_ne_none _))
  refine ⟨fun {q words'} hq => ?_, h.nodup, fun {q} hq => ?_, fun q => ?_, h.ram, fun q hq => ?_⟩
  · by_cases hne : q = p
    · rw [hne, Heap.set_self] at hq
      obtain rfl := Option.some.inj hq
      rw [hne]
      exact Function.update_self ..
    · rw [Heap.set_of_ne hne] at hq
      exact (Function.update_of_ne hne _ _).trans (h.words hq)
  · have hne : q ≠ p := by
      intro heq
      have hnone := h.free hq
      rw [heq, hown] at hnone
      cases hnone
    rw [Heap.set_of_ne hne]
    exact h.free hq
  · by_cases hne : q = p
    · rw [hne, Heap.set_self]
      exact iff_of_true hpool (Or.inr (Option.some_ne_none _))
    · rw [Heap.set_of_ne hne]
      exact h.mem_pool q
  · have hne : q ≠ p := by
      intro heq
      exact hq (heq ▸ hpool)
    exact (Function.update_of_ne hne _ _).trans (h.same q hq)

theorem kalloc (h : Owns ram pool others memory own) {rest : List Nat} (words : I → W)
    (hfree : memory.freelist = p :: rest) :
    own p = none ∧ ram.Has p ∧
      Owns ram pool others ⟨Function.update memory.words p words, rest⟩ (own.set p words) := by
  have hnodup := h.nodup
  rw [hfree] at hnodup
  obtain ⟨hnot, hrest⟩ := List.nodup_cons.mp hnodup
  have hmem : ∀ {q}, q ∈ rest → q ∈ memory.freelist := by
    intro q hq
    rw [hfree]
    exact List.mem_cons_of_mem _ hq
  have hp : p ∈ memory.freelist := by
    rw [hfree]
    exact List.mem_cons_self
  have hpool : pool p := (h.mem_pool p).mpr (Or.inl hp)
  refine ⟨h.free hp, h.ram hpool, fun {q words'} hq => ?_, hrest, fun {q} hq => ?_, fun q => ?_, h.ram,
    fun q hq => ?_⟩
  · by_cases hne : q = p
    · rw [hne, Heap.set_self] at hq
      obtain rfl := Option.some.inj hq
      rw [hne]
      exact Function.update_self ..
    · rw [Heap.set_of_ne hne] at hq
      exact (Function.update_of_ne hne _ _).trans (h.words hq)
  · have hne : q ≠ p := by
      intro heq
      exact hnot (heq ▸ hq)
    rw [Heap.set_of_ne hne]
    exact h.free (hmem hq)
  · by_cases hne : q = p
    · rw [hne, Heap.set_self]
      exact iff_of_true hpool (Or.inr (Option.some_ne_none _))
    · rw [Heap.set_of_ne hne, h.mem_pool q, hfree, List.mem_cons, or_iff_right hne]
  · have hne : q ≠ p := by
      intro heq
      exact hq (heq ▸ hpool)
    exact (Function.update_of_ne hne _ _).trans (h.same q hq)

theorem kfree (h : Owns ram pool others memory own) {words : I → W} (hown : own p = some words) :
    Owns ram pool others { memory with freelist := p :: memory.freelist } (own.erase p) := by
  have hpool : pool p := (h.mem_pool p).mpr (Or.inr (by rw [hown]; exact Option.some_ne_none _))
  refine ⟨fun {q words'} hq => ?_, ?_, fun {q} hq => ?_, fun q => ?_, h.ram, h.same⟩
  · by_cases hne : q = p
    · rw [hne, Heap.erase_self] at hq
      cases hq
    · rw [Heap.erase_of_ne hne] at hq
      exact h.words hq
  · apply List.nodup_cons.mpr
    refine ⟨fun hfree => ?_, h.nodup⟩
    rw [h.free hfree] at hown
    cases hown
  · by_cases hne : q = p
    · rw [hne]
      exact Heap.erase_self
    · rw [Heap.erase_of_ne hne]
      exact h.free ((List.mem_cons.mp hq).resolve_left hne)
  · by_cases hne : q = p
    · rw [hne]
      exact iff_of_true hpool (Or.inl List.mem_cons_self)
    · rw [Heap.erase_of_ne hne, h.mem_pool q, List.mem_cons, or_iff_right hne]

theorem mem_freelist (h : Owns ram pool others memory own) :
    p ∈ memory.freelist ↔ pool p ∧ own p = none := by
  rw [h.mem_pool p]
  refine ⟨fun hp => ⟨Or.inl hp, h.free hp⟩, fun hp => hp.1.resolve_right ?_⟩
  exact not_not_intro hp.2

theorem unique {own' : Owned I W} (h : Owns ram pool others memory own) (h' : Owns ram pool others memory own') :
    own = own' := by
  funext p
  cases hown : own p with
  | none =>
      cases hown' : own' p with
      | none => rfl
      | some words =>
          have hpool : pool p := (h'.mem_pool p).mpr (Or.inr (by rw [hown']; exact Option.some_ne_none _))
          rw [h'.free (h.mem_freelist.mpr ⟨hpool, hown⟩)] at hown'
          cases hown'
  | some words =>
      cases hown' : own' p with
      | none =>
          have hpool : pool p := (h.mem_pool p).mpr (Or.inr (by rw [hown]; exact Option.some_ne_none _))
          rw [h.free (h'.mem_freelist.mpr ⟨hpool, hown'⟩)] at hown
          cases hown
      | some words' => rw [← h.words hown, ← h'.words hown']

theorem single {root : Nat} (hnodup : memory.freelist.Nodup) (hroot : root ∉ memory.freelist)
    (hram : ∀ p, p = root ∨ p ∈ memory.freelist → ram.Has p) :
    Owns ram (fun p => p = root ∨ p ∈ memory.freelist) memory.words memory
      (Heap.single root (memory.words root)) := by
  have hother : ∀ p, p ≠ root → (Heap.single root (memory.words root) : Owned I W) p = none :=
    fun p hp => Heap.set_of_ne hp
  refine ⟨fun {p words} hwords => ?_, hnodup, fun {p} hp => ?_, fun p => ?_, hram _, fun _ _ => rfl⟩
  · by_cases hp : p = root
    · rw [hp, Heap.single, Heap.set_self] at hwords
      rw [hp]
      exact Option.some.inj hwords
    · rw [hother p hp] at hwords
      cases hwords
  · apply hother
    rintro rfl
    exact hroot hp
  · by_cases hp : p = root
    · rw [hp, Heap.single, Heap.set_self]
      exact iff_of_true (Or.inl rfl) (Or.inr (Option.some_ne_none _))
    · rw [or_iff_right hp, or_iff_left (not_not_intro (hother p hp))]

end Owns

section Sound

variable {I W ι : Type}

/-- There is memory where `kalloc` does not fail. -/
def Spares (fails : Bool → Prop) (memory : Memory I W) : (accesses I W).Op → Prop
  | .kalloc table => ¬fails table → memory.freelist ≠ []
  | _ => True

instance decidableSpares {fails : Bool → Prop} [DecidablePred fails] (memory : Memory I W) :
    (op : (accesses I W).Op) → Decidable (Spares fails memory op)
  | .kalloc table => inferInstanceAs (Decidable (¬fails table → memory.freelist ≠ []))
  | .kfree _ | .read _ _ | .modify _ _ | .copy _ _ | .panic _ => isTrue trivial

variable {ram : Ram} {fails : Bool → Prop} {pool : Nat → Prop} {others junk : Nat → I → W} {who : ι}
  {memory : Memory I W} {own : Owned I W}

theorem access_sound {op : (accesses I W).Op} {Q : (accesses I W).Resp op → Owned I W → Prop}
    (h : Owns ram pool others memory own) (hspares : Spares fails memory op)
    (hrule : rule ram fails op own Q) :
    ∃ response memory' own', access junk who memory op 0 = some (response, memory') ∧
      Q response own' ∧ Owns ram pool others memory' own' := by
  cases op with
  | kalloc table =>
      cases hfree : memory.freelist with
      | nil =>
          refine ⟨none, memory, own, ?_, hrule.1 ?_, h⟩
          · simp only [access, hfree]
          · exact not_not.mp fun hnot => hspares hnot hfree
      | cons p rest =>
          obtain ⟨hnone, hram, howns⟩ := h.kalloc (junk p) hfree
          refine ⟨some p, _, _, ?_, hrule.2 p (junk p) hram hnone, howns⟩
          simp only [access, hfree]
  | kfree p =>
      obtain ⟨⟨words, hown⟩, hnext⟩ := hrule
      exact ⟨(), _, _, rfl, hnext, h.kfree hown⟩
  | read p i =>
      obtain ⟨words, hown, hnext⟩ := hrule
      refine ⟨_, memory, own, rfl, ?_, h⟩
      rw [h.words hown]
      exact hnext
  | modify p change =>
      obtain ⟨words, hown, hnext⟩ := hrule
      refine ⟨(), _, _, rfl, hnext, ?_⟩
      rw [h.words hown]
      exact h.set hown
  | copy dst src =>
      obtain ⟨⟨old, hdst⟩, words, hsrc, hnext⟩ := hrule
      refine ⟨(), _, _, rfl, hnext, ?_⟩
      rw [h.words hsrc]
      exact h.set hdst
  | panic message => exact absurd hrule id

theorem spares_of_fails (memory : Memory I W) (op : (accesses I W).Op) :
    Spares (fun _ => True) memory op := by
  cases op with
  | kalloc table => exact fun hnot => absurd trivial hnot
  | kfree p => trivial
  | read p i => trivial
  | modify p change => trivial
  | copy dst src => trivial
  | panic message => trivial

theorem Owns.ends {α : Type} {program : Code I W α} {Q : α → Owned I W → Prop}
    (h : Owns ram pool others memory own)
    (hmeets : program.Meets (access junk) who (Spares fails) memory)
    (hwp : program.wp (rule ram fails) own Q) :
    program.Ends (access junk) who memory fun value memory' =>
      ∃ own', Q value own' ∧ Owns ram pool others memory' own' :=
  Program.Ends.of_wp (fun howns hspares hrule => access_sound howns hspares hrule) h hmeets hwp

/-! ### Pages that cannot be had -/

/-- The accesses where the `n`-th allocation may find no page although there is one. -/
def scarce (junk : Nat → I → W) (refuses : Nat → Bool) : Handler (accesses I W) (Memory I W × Nat) ι
  | who, state, .kalloc table, choice =>
      if refuses state.2 then some (none, state.1, state.2 + 1)
      else (access junk who state.1 (.kalloc table) choice).map fun result =>
        (result.1, result.2, state.2 + 1)
  | who, state, op, choice =>
      (access junk who state.1 op choice).map fun result => (result.1, result.2, state.2)

theorem scarce_sound {refuses : Nat → Bool} {state : Memory I W × Nat} {op : (accesses I W).Op}
    {Q : (accesses I W).Resp op → Owned I W → Prop} (h : Owns ram pool others state.1 own)
    (hrule : rule ram (fun _ => True) op own Q) :
    ∃ response state' own', scarce junk refuses who state op 0 = some (response, state') ∧
      Q response own' ∧ Owns ram pool others state'.1 own' := by
  by_cases hrefused : refuses state.2 = true ∧ ∃ table, op = .kalloc table
  · obtain ⟨hrefuses, table, rfl⟩ := hrefused
    exact ⟨none, _, own, if_pos hrefuses, hrule.1 trivial, h⟩
  obtain ⟨response, memory', own', haccess, hnext, howns⟩ :=
    @access_sound _ _ _ _ _ _ _ junk who _ _ _ _ h (spares_of_fails state.1 op) hrule
  have hscarce : ∃ n, scarce junk refuses who state op 0 = some (response, memory', n) := by
    cases op with
    | kalloc table =>
        have hgiven : ¬refuses state.2 = true := fun hrefuses => hrefused ⟨hrefuses, table, rfl⟩
        exact ⟨state.2 + 1, by simp only [scarce, if_neg hgiven, haccess, Option.map_some]⟩
    | kfree p => exact ⟨state.2, by simp only [scarce, haccess, Option.map_some]⟩
    | read p i => exact ⟨state.2, by simp only [scarce, haccess, Option.map_some]⟩
    | modify p change => exact ⟨state.2, by simp only [scarce, haccess, Option.map_some]⟩
    | copy dst src => exact ⟨state.2, by simp only [scarce, haccess, Option.map_some]⟩
    | panic message => exact absurd hrule id
  obtain ⟨n, hscarce⟩ := hscarce
  exact ⟨response, (memory', n), own', hscarce, hnext, howns⟩

theorem Owns.ends_scarce {α : Type} {refuses : Nat → Bool} {program : Code I W α}
    {Q : α → Owned I W → Prop} {n : Nat} (h : Owns ram pool others memory own)
    (hwp : program.wp (rule ram fun _ => True) own Q) :
    program.Ends (scarce junk refuses) who (memory, n) fun value state' =>
      ∃ own', Q value own' ∧ Owns ram pool others state'.1 own' := by
  have hsound : ∀ {state own op} {Q : (accesses I W).Resp op → Owned I W → Prop},
      Owns ram pool others (state : Memory I W × Nat).1 own → True → rule ram (fun _ => True) op own Q →
        ∃ response state' own', scarce junk refuses who state op 0 = some (response, state') ∧
          Q response own' ∧ Owns ram pool others state'.1 own' :=
    fun howns _ hrule => scarce_sound howns hrule
  exact @Program.Ends.of_wp _ _ _ _ (scarce junk refuses) who (memory, n) _ _ _ (fun _ _ => True) hsound _ _ _ h
    (Program.meets_of_forall (fun _ _ => trivial) program _) hwp

end Sound

end Xv6.Vm
