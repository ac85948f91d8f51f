import Xv6.Vm.Processes

/-!
# Programs that panic

To show that a program panics one says what it does until then. It has so many pages to allocate, and `Spends` bounds how many
of them a part of it takes. What a part is known to do, it does on the way to a panic too.
-/

namespace Xv6.Vm

variable {I W α β : Type}

/-! ### Counting allocations -/

def spend : Rule (accesses I W) Nat
  | .kalloc _, n, Q => 0 < n ∧ ∀ response, Q response (n - 1)
  | _, n, Q => ∀ response, Q response n

/-- The program allocates at most `k` pages, whatever it reads. -/
def Spends (code : Code I W α) (k : Nat) : Prop := ∀ n, k ≤ n → code.wp spend n fun _ n' => n ≤ n' + k

theorem spend_monotone : (spend : Rule (accesses I W) Nat).Monotone := by
  intro op n post post' hpost h
  cases op with
  | kalloc table => exact ⟨h.1, fun response => hpost _ _ (h.2 response)⟩
  | kfree p => exact fun response => hpost _ _ (h response)
  | read p i => exact fun response => hpost _ _ (h response)
  | modify p change => exact fun response => hpost _ _ (h response)
  | copy dst src => exact fun response => hpost _ _ (h response)
  | panic message => exact fun response => hpost _ _ (h response)

namespace Spends

variable {code : Code I W α} {f : α → Code I W β} {k l : Nat}

theorem pure (value : α) : Spends (pure value : Code I W α) 0 := fun n _ => Nat.le_refl n

theorem mono (h : Spends code k) (hle : k ≤ l) : Spends code l := fun n hn =>
  Program.wp_mono spend_monotone (fun _ _ hleft => by omega) (h n (hle.trans hn))

theorem bind (h : Spends code k) (hrest : ∀ value, Spends (f value) l) : Spends (code >>= f) (k + l) := by
  intro n hn
  rw [Program.wp_bind]
  apply Program.wp_mono spend_monotone _ (h n (by omega))
  intro value n' hleft
  apply Program.wp_mono spend_monotone _ (hrest value n' (by omega))
  intro _ n'' hleft'
  omega

theorem bind_zero (h : Spends code 0) (hrest : ∀ value, Spends (f value) l) : Spends (code >>= f) l := by
  have hsum := h.bind hrest
  rwa [Nat.zero_add] at hsum

theorem ite {condition : Prop} [Decidable condition] {first second : Code I W α} (hfirst : Spends first k)
    (hsecond : Spends second k) : Spends (if condition then first else second) k := by
  by_cases hcondition : condition
  · rwa [if_pos hcondition]
  · rwa [if_neg hcondition]

theorem elim {mem : Option β} {none : Code I W α} {some : β → Code I W α} (hnone : Spends none k)
    (hsome : ∀ p, Spends (some p) k) : Spends (mem.elim none some) k := by
  cases mem with
  | none => exact hnone
  | some p => exact hsome p

theorem when {condition : Prop} [Decidable condition] {code : Code I W PUnit} (h : Spends code k) :
    Spends (Program.when condition code) k := ite h ((pure _).mono (Nat.zero_le k))

theorem kalloc (table : Bool) : Spends (kalloc table : Code I W _) 1 := fun n hn =>
  ⟨hn, fun _ => by change n ≤ n - 1 + 1; omega⟩

theorem read (p : Nat) (i : I) : Spends (read p i : Code I W _) 0 := fun n _ _ => Nat.le_refl n

theorem modify (p : Nat) (change : (I → W) → I → W) : Spends (modify p change) 0 := fun n _ _ => Nat.le_refl n

theorem write [DecidableEq I] (p : Nat) (i : I) (word : W) : Spends (write p i word) 0 := modify p _

theorem fill (p : Nat) (word : W) : Spends (fill p word : Code I W _) 0 := modify p _

theorem panic (message : String) : Spends (panic message : Code I W α) 0 := fun _ _ never => (never : Empty).elim

theorem panicIf (bad : Prop) [Decidable bad] (message : String) : Spends (panicIf bad message : Code I W _) 0 :=
  when (panic message)

theorem kfree (ram : Ram) (p : Nat) : Spends (kfree ram p : Code I W _) 0 :=
  bind_zero (panicIf _ _) fun _ _ _ _ => Nat.le_refl _

end Spends

/-! ### On the way to a panic -/

def crash (ram : Ram) (allowed : String → Prop) : Rule (accesses I W) (Owned I W × Nat)
  | .kalloc _, ghost, Q => 0 < ghost.2 ∧ ∀ p words, ram.Has p → ghost.1 p = none →
      Q (some p) (ghost.1.set p words, ghost.2 - 1)
  | .panic message, _, _ => allowed message
  | op, ghost, Q => rule ram (fun _ => False) op ghost.1 fun response own => Q response (own, ghost.2)

variable {ram : Ram} {allowed : String → Prop} {own : Owned I W} {n : Nat}

variable {R ι Call : Type} [DecidableEq ι] {pool : Nat → Prop} {others junk : Nat → I → W} {init who : ι}
  {menu : ι → Call → Option R → Option (Kernel I W R ι (Option R))}
  {world : Threads (processes I W R ι) (Machine I W R ι) ι (Option R)}

end Xv6.Vm
