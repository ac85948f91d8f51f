import Mathlib.Computability.Language

/-!
# The matcher of grep

`match`, `matchhere` and `matchstar` of `utilities/grep.c`. A C string is the list of its bytes before the null.
-/

namespace Xv6.Grep

open Computability

/-! ### The code -/

/-- `'*'`. -/
def star : UInt8 := 42

/-- `'.'`. -/
def dot : UInt8 := 46

/-- `'$'`. -/
def dollar : UInt8 := 36

/-- `'^'`. -/
def caret : UInt8 := 94

mutual

/-- Search for `re` at the beginning of `text`. -/
def matchhere : (re text : List UInt8) → Bool
  | [], _ => true
  | x :: re, text =>
      if re.head? = some star then matchstar x re.tail text
      else if x = dollar ∧ re = [] then text.isEmpty
      else
        match text with
        | [] => false
        | c :: text => if x = dot ∨ x = c then matchhere re text else false
termination_by re text => (re.length, text.length, 0)
decreasing_by
  · exact Prod.Lex.left _ _ (by rw [List.length_tail, List.length_cons]; omega)
  · exact Prod.Lex.left _ _ (Nat.lt_succ_self _)

/-- Search for `c*re` at the beginning of `text`. -/
def matchstar (c : UInt8) (re text : List UInt8) : Bool :=
  if matchhere re text then true
  else
    match text with
    | [] => false
    | x :: text => if x = c ∨ c = dot then matchstar c re text else false
termination_by (re.length, text.length, 1)
decreasing_by
  · exact Prod.Lex.right _ (Prod.Lex.right _ Nat.zero_lt_one)
  · exact Prod.Lex.right _ (Prod.Lex.left _ _ (Nat.lt_succ_self _))

end

/-- The loop of `match`: it looks at the empty string too. -/
def matchFrom (re : List UInt8) : (text : List UInt8) → Bool
  | [] => matchhere re []
  | c :: text => if matchhere re (c :: text) then true else matchFrom re text

def «match» (re text : List UInt8) : Bool :=
  if re.head? = some caret then matchhere re.tail text else matchFrom re text

/-! ### The language of a pattern -/

/-- A part of a pattern. -/
inductive Item where
  | one (x : UInt8)
  | many (x : UInt8)

/-- What a pattern without its `^` stands for: its parts, and does it end with the end of the text? A `*` that follows
nothing and a `$` that is not last stand for themselves. -/
def parse : List UInt8 → List Item × Bool
  | [] => ([], false)
  | [x] => if x = dollar then ([], true) else ([.one x], false)
  | x :: y :: re =>
      if y = star then (.many x :: (parse re).1, (parse re).2) else (.one x :: (parse (y :: re)).1, (parse (y :: re)).2)

def letter (x : UInt8) : Language UInt8 := {word | ∃ c, (x = dot ∨ x = c) ∧ word = [c]}

def Item.language : Item → Language UInt8
  | .one x => letter x
  | .many x => (letter x)∗

def language (items : List Item) : Language UInt8 := (items.map Item.language).prod

/-- The text begins with a word of a language, and ends with it if `final`. -/
def Begins (l : Language UInt8) (final : Bool) (text : List UInt8) : Prop :=
  ∃ word after, text = word ++ after ∧ word ∈ l ∧ (final = true → after = [])

/-- A word of a pattern's language is in the text: at its beginning, if the pattern starts with `^`. -/
def Occurs (re text : List UInt8) : Prop :=
  if re.head? = some caret then Begins (language (parse re.tail).1) (parse re.tail).2 text
  else ∃ before rest, text = before ++ rest ∧ Begins (language (parse re).1) (parse re).2 rest

section Begins

variable {l m : Language UInt8} {final : Bool} {text re : List UInt8} {x c : UInt8}

theorem begins_one : Begins 1 final text ↔ (final = true → text = []) := by
  constructor
  · rintro ⟨word, after, rfl, hword, hfinal⟩ hend
    rw [(Language.mem_one word).mp hword, hfinal hend]
    rfl
  · exact fun h => ⟨[], text, rfl, Language.nil_mem_one, h⟩

theorem begins_add : Begins (l + m) final text ↔ Begins l final text ∨ Begins m final text := by
  constructor
  · rintro ⟨word, after, htext, hword, hfinal⟩
    rcases (Language.mem_add l m word).mp hword with h | h
    · exact Or.inl ⟨word, after, htext, h, hfinal⟩
    · exact Or.inr ⟨word, after, htext, h, hfinal⟩
  · rintro (⟨word, after, htext, h, hfinal⟩ | ⟨word, after, htext, h, hfinal⟩)
    · exact ⟨word, after, htext, (Language.mem_add l m word).mpr (Or.inl h), hfinal⟩
    · exact ⟨word, after, htext, (Language.mem_add l m word).mpr (Or.inr h), hfinal⟩

theorem begins_mul : Begins (l * m) final text ↔ ∃ word ∈ l, ∃ rest, text = word ++ rest ∧ Begins m final rest := by
  constructor
  · rintro ⟨word, after, rfl, hword, hfinal⟩
    obtain ⟨first, hfirst, second, hsecond, rfl⟩ := Language.mem_mul.mp hword
    exact ⟨first, hfirst, second ++ after, List.append_assoc _ _ _, second, after, rfl, hsecond, hfinal⟩
  · rintro ⟨first, hfirst, rest, rfl, second, after, rfl, hsecond, hfinal⟩
    exact ⟨first ++ second, after, (List.append_assoc _ _ _).symm, Language.append_mem_mul hfirst hsecond, hfinal⟩

theorem begins_letter_mul_nil : ¬Begins (letter x * m) final [] := by
  rw [begins_mul]
  rintro ⟨word, ⟨c, -, rfl⟩, rest, htext, -⟩
  exact List.cons_ne_nil _ _ htext.symm

theorem begins_letter_mul_cons :
    Begins (letter x * m) final (c :: text) ↔ (x = dot ∨ x = c) ∧ Begins m final text := by
  rw [begins_mul]
  constructor
  · rintro ⟨word, ⟨c', hx, rfl⟩, rest, htext, hrest⟩
    obtain ⟨rfl, rfl⟩ := List.cons.inj htext
    exact ⟨hx, hrest⟩
  · rintro ⟨hx, hrest⟩
    exact ⟨[c], ⟨c, hx, rfl⟩, text, rfl, hrest⟩

theorem begins_kstar_mul :
    Begins ((letter x)∗ * m) final text ↔
      Begins m final text ∨ Begins (letter x * ((letter x)∗ * m)) final text := by
  have hunroll : (letter x)∗ * m = m + letter x * ((letter x)∗ * m) := by
    calc (letter x)∗ * m = (1 + letter x * (letter x)∗) * m := by rw [Language.one_add_self_mul_kstar_eq_kstar]
      _ = m + letter x * ((letter x)∗ * m) := by rw [add_mul, one_mul, mul_assoc]
  conv_lhs => rw [hunroll]
  exact begins_add

end Begins

section Match

variable {text re : List UInt8} {x c : UInt8}

theorem language_cons (item : Item) (items : List Item) : language (item :: items) = item.language * language items :=
  List.prod_cons

theorem matchstar_iff {l : Language UInt8} {final : Bool} (hhere : ∀ text, matchhere re text = true ↔ Begins l final text)
    (text : List UInt8) : matchstar c re text = true ↔ Begins ((letter c)∗ * l) final text := by
  induction text with
  | nil =>
      rw [matchstar, begins_kstar_mul, ← hhere, or_iff_left begins_letter_mul_nil]
      split
      · next h => exact iff_of_true rfl h
      · next h => exact iff_of_false Bool.false_ne_true h
  | cons x text ih =>
      rw [matchstar, begins_kstar_mul, ← hhere, begins_letter_mul_cons, ← ih]
      split
      · next h => exact iff_of_true rfl (Or.inl h)
      · next h =>
          rw [or_iff_right h]
          split
          · next hx => exact (and_iff_right (hx.symm.imp id Eq.symm)).symm
          · next hx => exact iff_of_false Bool.false_ne_true fun hand => hx (hand.1.symm.imp Eq.symm id)

theorem matchone_iff {l : Language UInt8} {final : Bool} (hstar : re.head? ≠ some star)
    (hfinal : ¬(x = dollar ∧ re = [])) (hrest : ∀ text, matchhere re text = true ↔ Begins l final text)
    (text : List UInt8) : matchhere (x :: re) text = true ↔ Begins (letter x * l) final text := by
  rw [matchhere.eq_def]
  dsimp only
  rw [if_neg hstar, if_neg hfinal]
  cases text with
  | nil => exact iff_of_false Bool.false_ne_true begins_letter_mul_nil
  | cons c text =>
      dsimp only
      rw [begins_letter_mul_cons, ← hrest]
      split
      · next hx => exact (and_iff_right hx).symm
      · next hx => exact iff_of_false Bool.false_ne_true fun hand => hx hand.1

theorem matchhere_nil_iff (text : List UInt8) : matchhere [] text = true ↔ Begins (language []) false text := by
  rw [matchhere]
  exact iff_of_true rfl (begins_one.mpr fun h => absurd h Bool.false_ne_true)

theorem matchhere_iff (re text : List UInt8) :
    matchhere re text = true ↔ Begins (language (parse re).1) (parse re).2 text := by
  induction re using parse.induct generalizing text with
  | case1 =>
      rw [parse]
      exact matchhere_nil_iff text
  | case2 =>
      rw [matchhere.eq_def, parse, if_pos rfl]
      dsimp only
      rw [if_neg (by simp), if_pos ⟨rfl, rfl⟩, List.isEmpty_iff]
      exact (begins_one.trans (imp_iff_right rfl)).symm
  | case3 x hx =>
      rw [parse, if_neg hx, language_cons]
      exact matchone_iff (by simp) (fun hand => hx hand.1) (fun text => matchhere_nil_iff text) text
  | case4 x re ih =>
      rw [matchhere.eq_def, parse, if_pos rfl, language_cons]
      dsimp only
      rw [if_pos (by exact rfl : (star :: re).head? = some star)]
      exact matchstar_iff ih text
  | case5 x y re hy ih =>
      rw [parse, if_neg hy, language_cons]
      have hstar : (y :: re).head? ≠ some star := fun h => hy (Option.some.inj h)
      exact matchone_iff hstar (fun hand => List.cons_ne_nil _ _ hand.2) ih text

/-- **`match` decides the language of the pattern.** -/
theorem match_iff (re text : List UInt8) : «match» re text = true ↔ Occurs re text := by
  have hfrom : ∀ text, matchFrom re text = true ↔
      ∃ before rest, text = before ++ rest ∧ Begins (language (parse re).1) (parse re).2 rest := by
    intro text
    induction text with
    | nil =>
        rw [matchFrom, matchhere_iff]
        constructor
        · exact fun h => ⟨[], [], rfl, h⟩
        · rintro ⟨before, rest, htext, h⟩
          obtain ⟨rfl, rfl⟩ := List.append_eq_nil_iff.mp htext.symm
          exact h
    | cons c text ih =>
        rw [matchFrom]
        split
        · next h => exact iff_of_true rfl ⟨[], c :: text, rfl, (matchhere_iff _ _).mp h⟩
        · next h =>
            rw [ih]
            constructor
            · rintro ⟨before, rest, rfl, hrest⟩
              exact ⟨c :: before, rest, rfl, hrest⟩
            · rintro ⟨before, rest, htext, hrest⟩
              cases before with
              | nil =>
                  rw [List.nil_append] at htext
                  exact absurd ((matchhere_iff _ _).mpr (htext ▸ hrest)) h
              | cons b before => exact ⟨before, rest, (List.cons.inj htext).2, hrest⟩
  unfold «match» Occurs
  split
  · exact matchhere_iff _ _
  · exact hfrom text

end Match

end Xv6.Grep
