import Mathlib.Logic.Function.Basic
import Mathlib.Tactic.Common

/-!
# Programs over a set of operations, and their weakest preconditions

A program is a tree of operations: each node performs one, and the response picks the subtree that
runs next. It says what a piece of code does to state it shares with others without saying what the
others do meanwhile, because whatever they did arrives as the response.

A `Rule` is a reading of the operations as transformers of some ghost state: from the ghost before
an operation, what must hold after it for every response. Any such reading extends to whole programs
(`Program.wp`), and the extension respects sequencing (`wp_bind`) and consequence (`wp_mono`), so a
function is specified once and its callers use the specification.
-/

/-- A set of operations, each with the type of the answers it can return. -/
structure Signature where
  Op : Type
  Resp : Op → Type

/-- A program that ends with a value, or performs an operation and goes on with the response. -/
inductive Program (S : Signature) (α : Type) : Type where
  | ret (value : α)
  | call (op : S.Op) (next : S.Resp op → Program S α)

namespace Program

variable {S : Signature} {α β : Type}

def bind : Program S α → (α → Program S β) → Program S β
  | ret value, f => f value
  | call op next, f => call op fun response => (next response).bind f

instance : Monad (Program S) where
  pure := ret
  bind := bind

def perform (op : S.Op) : Program S (S.Resp op) := call op ret

/-- A conditional without `else`. -/
def when (condition : Prop) [Decidable condition] (program : Program S PUnit) : Program S PUnit :=
  if condition then program else ret ⟨⟩

@[simp]
theorem pure_eq (value : α) : (pure value : Program S α) = ret value := rfl

@[simp]
theorem ret_bind (value : α) (f : α → Program S β) : (ret value >>= f) = f value := rfl

@[simp]
theorem call_bind (op : S.Op) (next : S.Resp op → Program S α) (f : α → Program S β) :
    (call op next >>= f) = call op fun response => next response >>= f := rfl

theorem bind_ret (program : Program S α) : (program >>= ret) = program := by
  induction program with
  | ret value => rfl
  | call op next ih =>
      rw [call_bind]
      exact congrArg (call op) (funext ih)

theorem bind_assoc {γ : Type} (program : Program S α) (f : α → Program S β)
    (g : β → Program S γ) : (program >>= f) >>= g = program >>= fun value => f value >>= g := by
  induction program with
  | ret value => rfl
  | call op next ih =>
      simp only [call_bind]
      exact congrArg (call op) (funext ih)

instance : LawfulMonad (Program S) :=
  LawfulMonad.mk' (Program S) bind_ret (fun _ _ => rfl) bind_assoc

end Program

/-- A reading of the operations over ghost states `G`: what has to hold before an operation for the
postcondition to hold of every response and the ghost after it. -/
abbrev Rule (S : Signature) (G : Type) :=
  (op : S.Op) → G → (S.Resp op → G → Prop) → Prop

def Rule.Monotone {S : Signature} {G : Type} (rule : Rule S G) : Prop :=
  ∀ op ghost (post post' : S.Resp op → G → Prop),
    (∀ response ghost', post response ghost' → post' response ghost') →
      rule op ghost post → rule op ghost post'

namespace Program

variable {S : Signature} {G : Type} {α β : Type}

/-- The weakest precondition of a program, reading its operations by `rule`. -/
def wp (rule : Rule S G) : Program S α → G → (α → G → Prop) → Prop
  | ret value, ghost, post => post value ghost
  | call op next, ghost, post =>
      rule op ghost fun response ghost' => (next response).wp rule ghost' post

variable {rule : Rule S G} {ghost : G}

@[simp]
theorem wp_ret (value : α) (post : α → G → Prop) :
    (ret value : Program S α).wp rule ghost post ↔ post value ghost := Iff.rfl

@[simp]
theorem wp_call (op : S.Op) (next : S.Resp op → Program S α) (post : α → G → Prop) :
    (call op next).wp rule ghost post ↔
      rule op ghost fun response ghost' => (next response).wp rule ghost' post := Iff.rfl

@[simp]
theorem wp_pure (value : α) (post : α → G → Prop) :
    (pure value : Program S α).wp rule ghost post ↔ post value ghost := Iff.rfl

@[simp]
theorem wp_ite (condition : Prop) [Decidable condition] (first second : Program S α)
    (post : α → G → Prop) :
    (if condition then first else second).wp rule ghost post ↔
      if condition then first.wp rule ghost post else second.wp rule ghost post := by
  split <;> rfl

@[simp]
theorem wp_when (condition : Prop) [Decidable condition] (program : Program S PUnit)
    (post : PUnit → G → Prop) :
    (when condition program).wp rule ghost post ↔
      (condition → program.wp rule ghost post) ∧ (¬condition → post ⟨⟩ ghost) := by
  unfold when
  split
  · next hcondition => simp [hcondition]
  · next hcondition => simp [hcondition]

@[simp]
theorem wp_bind (program : Program S α) (f : α → Program S β) (post : β → G → Prop) :
    (program >>= f).wp rule ghost post ↔
      program.wp rule ghost fun value ghost' => (f value).wp rule ghost' post := by
  induction program generalizing ghost with
  | ret value => rfl
  | call op next ih =>
      rw [call_bind, wp_call, wp_call]
      exact iff_of_eq (congrArg _ (funext fun response => funext fun ghost' => propext (ih response)))

theorem wp_mono (hmono : rule.Monotone) {post post' : α → G → Prop} {program : Program S α}
    (hpost : ∀ value ghost', post value ghost' → post' value ghost')
    (h : program.wp rule ghost post) : program.wp rule ghost post' := by
  induction program generalizing ghost with
  | ret value => exact hpost _ _ h
  | call op next ih =>
      exact hmono op ghost _ _ (fun response ghost' hnext => ih response hnext) h

theorem wp_seq (hmono : rule.Monotone) {mid : α → G → Prop} {post : β → G → Prop}
    {program : Program S α} {f : α → Program S β} (hfirst : program.wp rule ghost mid)
    (hrest : ∀ value ghost', mid value ghost' → (f value).wp rule ghost' post) :
    (program >>= f).wp rule ghost post :=
  (wp_bind program f post).mpr (wp_mono hmono hrest hfirst)

def translate {T : Signature} (carry : (op : S.Op) → Program T (S.Resp op)) :
    Program S α → Program T α
  | ret value => ret value
  | call op next => carry op >>= fun response => (next response).translate carry

theorem translate_bind {T : Signature} {carry : (op : S.Op) → Program T (S.Resp op)}
    (program : Program S α) (f : α → Program S β) :
    (program >>= f).translate carry =
      program.translate carry >>= fun value => (f value).translate carry := by
  induction program with
  | ret value => rfl
  | call op next ih =>
      rw [call_bind, translate, translate, bind_assoc]
      exact congrArg _ (funext ih)

theorem wp_translate {T : Signature} {carry : (op : S.Op) → Program T (S.Resp op)}
    {rule : Rule T G} (program : Program S α) (post : α → G → Prop) :
    (program.translate carry).wp rule ghost post ↔
      program.wp (fun op ghost' mid => (carry op).wp rule ghost' mid) ghost post := by
  induction program generalizing ghost with
  | ret value => rfl
  | call op next ih =>
      rw [translate, wp_bind, wp_call]
      exact iff_of_eq (congrArg _ (funext fun response => funext fun ghost' => propext (ih response)))

theorem wp_forM (hmono : rule.Monotone) {ι : Type} {inv : G → Prop} {rounds : List ι}
    {body : ι → Program S PUnit} (hstart : inv ghost)
    (hbody : ∀ round ∈ rounds, ∀ ghost', inv ghost' →
      (body round).wp rule ghost' fun _ after => inv after) :
    (rounds.forM body).wp rule ghost fun _ after => inv after := by
  induction rounds generalizing ghost with
  | nil => exact hstart
  | cons round rounds ih =>
      refine wp_seq hmono (hbody round List.mem_cons_self ghost hstart) fun _ ghost' hinv => ?_
      exact ih hinv fun other hother => hbody other (List.mem_cons_of_mem _ hother)

theorem wp_forM_rest (hmono : rule.Monotone) {ι : Type} (inv : List ι → G → Prop) {rounds : List ι}
    {body : ι → Program S PUnit} (hstart : inv rounds ghost)
    (hbody : ∀ round rest ghost', inv (round :: rest) ghost' →
      (body round).wp rule ghost' fun _ after => inv rest after) :
    (rounds.forM body).wp rule ghost fun _ after => inv [] after := by
  induction rounds generalizing ghost with
  | nil => exact hstart
  | cons round rounds ih =>
      exact wp_seq hmono (hbody round rounds ghost hstart) fun _ ghost' hinv => ih hinv

theorem wp_forM_range (hmono : rule.Monotone) (inv : Nat → G → Prop) {body : Nat → Program S PUnit}
    {count : Nat} (hstart : inv 0 ghost)
    (hbody : ∀ i < count, ∀ ghost', inv i ghost' →
      (body i).wp rule ghost' fun _ after => inv (i + 1) after) :
    ((List.range count).forM body).wp rule ghost fun _ after => inv count after := by
  induction count with
  | zero => exact hstart
  | succ count ih =>
      rw [List.range_succ, List.forM_eq_forM, List.forM_append]
      refine wp_seq hmono (ih fun i hi => hbody i (Nat.lt_succ_of_lt hi)) fun _ ghost' hinv => ?_
      simp only [List.forM_cons, List.forM_nil, wp_bind, wp_pure]
      exact hbody count (Nat.lt_succ_self count) ghost' hinv

end Program
