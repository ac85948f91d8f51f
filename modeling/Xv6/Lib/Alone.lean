import Xv6.Lib.Threads

/-!
# A thread that runs alone

While no other thread acts, a program is a function of the shared state. `Ends` is the total
correctness of that function: the program gets to its end, and there the postcondition holds.
-/

namespace Program

variable {S : Signature} {σ ι α β : Type}

/-- What a program ends with when nobody else acts: `none` where it gets stuck. -/
def exec (handler : Handler S σ ι) (who : ι) : Program S α → σ → Option (α × σ)
  | ret value, state => some (value, state)
  | call op next, state =>
      (handler who state op 0).bind fun result => (next result.1).exec handler who result.2

/-- The program gets to its end, with this postcondition. -/
def Ends (handler : Handler S σ ι) (who : ι) (program : Program S α) (state : σ)
    (post : α → σ → Prop) : Prop :=
  ∃ value state', program.exec handler who state = some (value, state') ∧ post value state'

variable {handler : Handler S σ ι} {who : ι} {state state' : σ} {post : β → σ → Prop}

theorem exec_bind (program : Program S α) (f : α → Program S β) (state : σ) :
    (program >>= f).exec handler who state =
      (program.exec handler who state).bind fun result => (f result.1).exec handler who result.2 := by
  induction program generalizing state with
  | ret value => rfl
  | call op next ih =>
      rw [call_bind, exec, exec, Option.bind_assoc]
      exact congrArg _ (funext fun result => ih _ _)

theorem Ends.ret {post : α → σ → Prop} {value : α} (h : post value state) :
    (Program.ret value : Program S α).Ends handler who state post := ⟨value, state, rfl, h⟩

theorem Ends.bind {program : Program S α} {f : α → Program S β} {mid : α → σ → Prop}
    (h : program.Ends handler who state mid)
    (hrest : ∀ value state', mid value state' → (f value).Ends handler who state' post) :
    (program >>= f).Ends handler who state post := by
  obtain ⟨value, state', hexec, hmid⟩ := h
  obtain ⟨result, last, hlast, hpost⟩ := hrest value state' hmid
  refine ⟨result, last, ?_, hpost⟩
  rw [exec_bind, hexec]
  exact hlast

theorem Ends.call {op : S.Op} {next : S.Resp op → Program S β} {response : S.Resp op}
    (hop : handler who state op 0 = some (response, state'))
    (hrest : (next response).Ends handler who state' post) :
    (Program.call op next).Ends handler who state post := by
  obtain ⟨result, last, hlast, hpost⟩ := hrest
  refine ⟨result, last, ?_, hpost⟩
  rw [exec, hop]
  exact hlast

theorem Ends.mono {program : Program S β} {post' : β → σ → Prop}
    (h : program.Ends handler who state post)
    (hpost : ∀ value state', post value state' → post' value state') :
    program.Ends handler who state post' := by
  obtain ⟨value, state', hexec, hvalue⟩ := h
  exact ⟨value, state', hexec, hpost _ _ hvalue⟩

theorem Ends.of_exec {program : Program S β} {value : β} (h : program.Ends handler who state post)
    (hexec : program.exec handler who state = some (value, state')) : post value state' := by
  obtain ⟨value', last, hlast, hpost⟩ := h
  obtain ⟨rfl, rfl⟩ := Prod.mk.inj (Option.some.inj (hlast.symm.trans hexec))
  exact hpost

theorem exec_bind_eq_some {program : Program S α} {f : α → Program S β} {value : β}
    (hexec : (program >>= f).exec handler who state = some (value, state')) :
    ∃ middle between, program.exec handler who state = some (middle, between) ∧
      (f middle).exec handler who between = some (value, state') := by
  rw [exec_bind] at hexec
  obtain ⟨result, hresult, hrest⟩ := Option.bind_eq_some_iff.mp hexec
  exact ⟨result.1, result.2, hresult, hrest⟩

/-- Every operation that the program performs alone meets a condition. -/
def Meets (handler : Handler S σ ι) (who : ι) (allowed : σ → S.Op → Prop) :
    Program S α → σ → Prop
  | ret _, _ => True
  | call op next, state => allowed state op ∧
      ∀ result ∈ handler who state op 0, (next result.1).Meets handler who allowed result.2

instance decidableMeets {allowed : σ → S.Op → Prop} [∀ state op, Decidable (allowed state op)] :
    (program : Program S α) → (state : σ) → Decidable (program.Meets handler who allowed state)
  | ret _, _ => isTrue trivial
  | call op next, state =>
      have : DecidablePred fun result : S.Resp op × σ =>
          (next result.1).Meets handler who allowed result.2 :=
        fun result => decidableMeets (next result.1) result.2
      inferInstanceAs (Decidable (allowed state op ∧
        ∀ result ∈ handler who state op 0, (next result.1).Meets handler who allowed result.2))

theorem Ends.of_wp {G : Type} {rule : Rule S G} {inv : σ → G → Prop} {allowed : σ → S.Op → Prop}
    (hsound : ∀ {state ghost op} {Q : S.Resp op → G → Prop}, inv state ghost → allowed state op →
      rule op ghost Q → ∃ response state' ghost', handler who state op 0 = some (response, state') ∧
        Q response ghost' ∧ inv state' ghost')
    {program : Program S α} {ghost : G} {Q : α → G → Prop} (hinv : inv state ghost)
    (hmeets : program.Meets handler who allowed state) (hwp : program.wp rule ghost Q) :
    program.Ends handler who state fun value state' => ∃ ghost', Q value ghost' ∧ inv state' ghost' := by
  induction program generalizing state ghost with
  | ret value => exact Ends.ret ⟨ghost, hwp, hinv⟩
  | call op next ih =>
      obtain ⟨response, state', ghost', hop, hnext, hinv'⟩ := hsound hinv hmeets.1 hwp
      exact Ends.call hop (ih response hinv' (hmeets.2 (response, state') hop) hnext)

theorem meets_of_forall {allowed : σ → S.Op → Prop} (hall : ∀ state op, allowed state op)
    (program : Program S α) (state : σ) : program.Meets handler who allowed state := by
  induction program generalizing state with
  | ret value => trivial
  | call op next ih => exact ⟨hall state op, fun result _ => ih result.1 result.2⟩

end Program
