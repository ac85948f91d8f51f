import Mathlib.Data.Bool.AllAny
import Mathlib.Data.List.GetD
import Mathlib.Data.List.TakeWhile
import Xv6.Sh.Grammar

/-!
# The shell's cursor and the tokens ahead of it

`gettoken` and `peek` go byte by byte. All the parser has to know of them is which tokens are ahead of the cursor.
-/

namespace Xv6.Sh

structure Line.At (line : Line) (tokens : List Terminal) (s : Nat) : Prop where
  le : s ≤ line.es
  lex : lex s (line.bytes.drop s) = tokens

def Terminal.first : Terminal → Option UInt8
  | word _ => none
  | less => some 60
  | greater => some 62
  | append => some 62
  | bar => some 124
  | lparen => some 40
  | rparen => some 41
  | semi => some 59
  | amp => some 38

/-- What `gettoken` returns for a token. -/
def Terminal.ret : Terminal → UInt8
  | word _ => 97
  | less => 60
  | greater => 62
  | append => 43
  | bar => 124
  | lparen => 40
  | rparen => 41
  | semi => 59
  | amp => 38

def starts (text : String) (tokens : List Terminal) : Bool :=
  tokens.head?.any fun token => token.first.any (· ∈ chars text)

section Lex

variable {s : Nat} {c : UInt8} {bytes : List UInt8}

theorem lex_white (h : c ∈ whitespace) : lex s (c :: bytes) = lex (s + 1) bytes := by
  rw [lex, if_pos h]

theorem not_white_of_symbol (h : c ∈ symbols) : c ∉ whitespace := by
  have hall : ∀ c ∈ symbols, c ∉ whitespace := List.all_iff_forall_prop.mp (by decide)
  exact hall c h

theorem lex_symbol (h : c ∈ symbols) (hnext : ¬(c ∈ chars ">" ∧ bytes.head? = some c)) :
    lex s (c :: bytes) = symbol c :: lex (s + 1) bytes := by
  rw [lex, if_neg (not_white_of_symbol h), if_pos h, if_neg hnext]

theorem lex_append (hc : c ∈ chars ">") : lex s (c :: c :: bytes) = .append :: lex (s + 2) bytes := by
  have hsymbol : c ∈ symbols := by
    have hall : ∀ c ∈ chars ">", c ∈ symbols := List.all_iff_forall_prop.mp (by decide)
    exact hall c hc
  rw [lex, if_neg (not_white_of_symbol hsymbol), if_pos hsymbol, if_pos ⟨hc, rfl⟩, List.tail_cons]

theorem lex_word (h : Ordinary c) :
    lex s (c :: bytes) =
      .word ⟨s, s + 1 + (bytes.takeWhile fun c => Ordinary c).length⟩ ::
        lex (s + 1 + (bytes.takeWhile fun c => Ordinary c).length)
          (bytes.drop (bytes.takeWhile fun c => Ordinary c).length) := by
  rw [lex, if_neg h.1, if_neg h.2]

theorem lex_skip (s : Nat) (bytes : List UInt8) :
    lex (s + (bytes.takeWhile (· ∈ whitespace)).length) (bytes.drop (bytes.takeWhile (· ∈ whitespace)).length) =
      lex s bytes := by
  induction bytes generalizing s with
  | nil => rfl
  | cons c rest ih =>
      by_cases hc : c ∈ whitespace
      · have htake : (c :: rest).takeWhile (· ∈ whitespace) = c :: rest.takeWhile (· ∈ whitespace) := by
          simp [hc]
        rw [htake, List.length_cons, List.drop_succ_cons, lex_white hc, ← ih (s + 1)]
        congr 1
        omega
      · have htake : (c :: rest).takeWhile (· ∈ whitespace) = [] := by
          simp [hc]
        rw [htake]
        rfl

theorem lex_ne_nil (h : c ∉ whitespace) : lex s (c :: bytes) ≠ [] := by
  rw [lex, if_neg h]
  split
  · split <;> simp
  · simp

end Lex

section Cursor

variable {line : Line} {s : Nat}

theorem read_eq (h : s ≤ line.es) : read line s = .ok (line.mem s) := if_pos h

theorem drop_eq_cons (h : s < line.es) : line.bytes.drop s = line.mem s :: line.bytes.drop (s + 1) := by
  rw [List.drop_eq_getElem_cons h]
  congr 1
  exact (List.getD_eq_getElem line.bytes 0 h).symm

theorem drop_eq_nil (h : line.es ≤ s) : line.bytes.drop s = [] := List.drop_eq_nil_of_le h

theorem mem_es : line.mem line.es = 0 := List.getD_eq_default _ _ (Nat.le_refl _)

theorem mem_ne_zero (h : s < line.es) : line.mem s ≠ 0 := by
  intro hzero
  apply line.zero_notMem
  rw [← hzero, Line.mem, List.getD_eq_getElem line.bytes 0 h]
  exact List.getElem_mem h

theorem skipWhile_eq (p : UInt8 → Bool) (h : s ≤ line.es) :
    skipWhile line p (line.es - s) s = .ok (s + ((line.bytes.drop s).takeWhile p).length) := by
  obtain ⟨rounds, hrounds⟩ : ∃ rounds, rounds = line.es - s := ⟨_, rfl⟩
  rw [← hrounds]
  induction rounds generalizing s with
  | zero =>
      rw [drop_eq_nil (by omega)]
      rfl
  | succ rounds ih =>
      have hlt : s < line.es := by omega
      rw [skipWhile, if_pos hlt, read_eq h, drop_eq_cons hlt, List.takeWhile_cons]
      change (if p (line.mem s) then _ else _) = _
      by_cases hp : p (line.mem s) = true
      · rw [if_pos hp, if_pos hp, ih (by omega) (by omega), List.length_cons]
        congr 1
        omega
      · rw [if_neg hp, if_neg hp]
        rfl

theorem length_takeWhile_drop_le (p : UInt8 → Bool) (h : s ≤ line.es) :
    s + ((line.bytes.drop s).takeWhile p).length ≤ line.es := by
  have hle := (List.takeWhile_sublist p (l := line.bytes.drop s)).length_le
  rw [List.length_drop] at hle
  unfold Line.es at *
  omega

theorem mem_after_skip (p : UInt8 → Bool) (h : s ≤ line.es) :
    s + ((line.bytes.drop s).takeWhile p).length = line.es ∨
      p (line.mem (s + ((line.bytes.drop s).takeWhile p).length)) = false := by
  obtain ⟨rounds, hrounds⟩ : ∃ rounds, rounds = line.es - s := ⟨_, rfl⟩
  induction rounds generalizing s with
  | zero =>
      left
      rw [drop_eq_nil (by omega), List.takeWhile_nil, List.length_nil]
      omega
  | succ rounds ih =>
      have hlt : s < line.es := by omega
      rw [drop_eq_cons hlt, List.takeWhile_cons]
      split
      · rw [List.length_cons, show s + (((line.bytes.drop (s + 1)).takeWhile p).length + 1) =
          s + 1 + ((line.bytes.drop (s + 1)).takeWhile p).length by omega]
        exact ih hlt (by omega)
      · next hp =>
        right
        rw [List.length_nil, Nat.add_zero]
        exact Bool.eq_false_iff.mpr hp

theorem mem_skipped (p : UInt8 → Bool) {i : Nat} (hi : i < ((line.bytes.drop s).takeWhile p).length) :
    p (line.mem (s + i)) = true := by
  have hle : i < (line.bytes.drop s).length :=
    Nat.lt_of_lt_of_le hi (List.takeWhile_sublist p).length_le
  have hmem : line.mem (s + i) = ((line.bytes.drop s).takeWhile p)[i] := by
    rw [(List.takeWhile_prefix p).getElem hi, List.getElem_drop, Line.mem, List.getD_eq_getElem]
  rw [hmem]
  exact List.mem_takeWhile_imp (List.getElem_mem hi)

theorem skipWhite_at {tokens : List Terminal} (h : line.At tokens s) :
    ∃ s', skipWhite line s = .ok s' ∧ line.At tokens s' ∧
      (s' = line.es ∧ tokens = [] ∨ s' < line.es ∧ line.mem s' ∉ whitespace ∧ tokens ≠ []) := by
  have hat : line.At tokens (s + ((line.bytes.drop s).takeWhile (· ∈ whitespace)).length) := by
    refine ⟨length_takeWhile_drop_le _ h.le, ?_⟩
    rw [← List.drop_drop, lex_skip]
    exact h.lex
  have hstop := @mem_after_skip line _ (· ∈ whitespace) h.le
  refine ⟨_, skipWhile_eq _ h.le, hat, ?_⟩
  generalize s + ((line.bytes.drop s).takeWhile (· ∈ whitespace)).length = s' at hat hstop ⊢
  rcases Nat.lt_or_eq_of_le hat.le with hlt | heq
  · have hmem : line.mem s' ∉ whitespace := by
      rcases hstop with heq | hfalse
      · omega
      · simpa using hfalse
    refine Or.inr ⟨hlt, hmem, ?_⟩
    rw [← hat.lex, drop_eq_cons hlt]
    exact lex_ne_nil hmem
  · refine Or.inl ⟨heq, ?_⟩
    rw [← hat.lex, drop_eq_nil (by omega), lex]

theorem first_of_symbol {c : UInt8} {rest : List UInt8} (hc : c ∈ symbols) :
    (lex s (c :: rest)).head?.bind Terminal.first = some c := by
  have hall : ∀ c ∈ symbols, (symbol c).first = some c ∧ (c ∈ chars ">" → Terminal.append.first = some c) :=
    List.all_iff_forall_prop.mp (by decide)
  rw [lex, if_neg (not_white_of_symbol hc), if_pos hc]
  split
  · next hdouble => exact (hall c hc).2 hdouble.1
  · exact (hall c hc).1

theorem peek_at {tokens : List Terminal} {text : String} (htext : ∀ c ∈ chars text, c ∈ symbols)
    (h : line.At tokens s) : ∃ s', peek line text s = .ok (starts text tokens, s') ∧ line.At tokens s' := by
  obtain ⟨s', hskip, hat, hnext⟩ := skipWhite_at h
  have hpeek : peek line text s = .ok (decide (line.mem s' ≠ 0 ∧ line.mem s' ∈ chars text), s') := by
    change (skipWhite line s).bind _ = _
    rw [hskip]
    change (read line s').bind _ = _
    rw [read_eq hat.le]
    rfl
  have hstarts : decide (line.mem s' ≠ 0 ∧ line.mem s' ∈ chars text) = starts text tokens := by
    rcases hnext with ⟨rfl, rfl⟩ | ⟨hlt, hwhite, -⟩
    · rw [mem_es]
      rfl
    · have hlex := hat.lex
      rw [drop_eq_cons hlt] at hlex
      have hzero := mem_ne_zero hlt
      by_cases hsymbol : line.mem s' ∈ symbols
      · have hfirst := @first_of_symbol s' _ (line.bytes.drop (s' + 1)) hsymbol
        rw [hlex] at hfirst
        cases tokens with
        | nil => cases hfirst
        | cons token rest =>
            simp only [List.head?_cons, Option.bind_some] at hfirst
            simp [starts, hfirst, hzero]
      · rw [lex_word ⟨hwhite, hsymbol⟩] at hlex
        rw [← hlex, decide_eq_false (fun hin => hsymbol (htext _ hin.2))]
        rfl
  rw [hstarts] at hpeek
  exact ⟨s', hpeek, hat⟩

theorem peek_nil {text : String} (h : line.At [] s) :
    peek line text s = .ok (false, line.es) := by
  obtain ⟨s', hskip, hat, ⟨rfl, -⟩ | ⟨-, -, hne⟩⟩ := skipWhite_at h
  · change (skipWhite line s).bind _ = _
    rw [hskip]
    change (read line line.es).bind _ = _
    rw [read_eq hat.le, mem_es]
    rfl
  · exact absurd rfl hne

theorem symbol_ne_word (c : UInt8) (word : Word) : symbol c ≠ .word word := by
  unfold symbol
  repeat' split
  all_goals exact Terminal.noConfusion

theorem ret_symbol {c : UInt8} (h : c ∈ symbols) : (symbol c).ret = c := by
  have hall : ∀ c ∈ symbols, (symbol c).ret = c := List.all_iff_forall_prop.mp (by decide)
  exact hall c h

theorem single_or_greater {c : UInt8} (h : c ∈ symbols) :
    c ∈ chars "|();&<" ∧ c ∉ chars ">" ∨ c ∉ chars "|();&<" ∧ c ∈ chars ">" := by
  have hall : ∀ c ∈ symbols, c ∈ chars "|();&<" ∧ c ∉ chars ">" ∨ c ∉ chars "|();&<" ∧ c ∈ chars ">" :=
    List.all_iff_forall_prop.mp (by decide)
  exact hall c h

theorem not_mem_chars_of_not_symbol {c : UInt8} (h : c ∉ symbols) :
    c ∉ chars "|();&<" ∧ c ∉ chars ">" := by
  have hbar : ∀ c ∈ chars "|();&<", c ∈ symbols := List.all_iff_forall_prop.mp (by decide)
  have hgreater : ∀ c ∈ chars ">", c ∈ symbols := List.all_iff_forall_prop.mp (by decide)
  exact ⟨fun hc => h (hbar c hc), fun hc => h (hgreater c hc)⟩

theorem at_symbol {tokens : List Terminal} (h : line.At tokens s) (hlt : s < line.es)
    (hsymbol : line.mem s ∈ symbols)
    (hnext : ¬(line.mem s ∈ chars ">" ∧ line.mem (s + 1) ∈ chars ">")) :
    ∃ rest, tokens = symbol (line.mem s) :: rest ∧ line.At rest (s + 1) := by
  refine ⟨_, ?_, hlt, rfl⟩
  rw [← h.lex, drop_eq_cons hlt]
  refine lex_symbol hsymbol fun hdouble => hnext ⟨hdouble.1, ?_⟩
  rcases Nat.lt_or_ge (s + 1) line.es with hlt' | hge
  · have hhead := hdouble.2
    rw [drop_eq_cons hlt', List.head?_cons] at hhead
    rw [Option.some.inj hhead]
    exact hdouble.1
  · have hhead := hdouble.2
    rw [drop_eq_nil hge] at hhead
    cases hhead

theorem scan_at {tokens : List Terminal} (h : line.At tokens s) (hlt : s < line.es)
    (hwhite : line.mem s ∉ whitespace) :
    ∃ token rest stop, tokens = token :: rest ∧ scan line s = .ok (token.ret, stop) ∧ line.At rest stop ∧
      s < stop ∧ ∀ word, token = .word word → word = ⟨s, stop⟩ := by
  have hscan : scan line s = if line.mem s = 0 then .ok (line.mem s, s)
      else if line.mem s ∈ chars "|();&<" then .ok (line.mem s, s + 1)
      else if line.mem s ∈ chars ">" then
        (read line (s + 1)).bind fun next =>
          if next ∈ chars ">" then .ok (43, s + 2) else .ok (line.mem s, s + 1)
      else (skipWhile line (fun c => c ∉ whitespace ∧ c ∉ symbols) (line.es - s) s).bind fun stop =>
        .ok (97, stop) := by
    change (read line s).bind _ = _
    rw [read_eq h.le]
    rfl
  rw [hscan, if_neg (mem_ne_zero hlt)]
  by_cases hsymbol : line.mem s ∈ symbols
  · rcases single_or_greater hsymbol with ⟨hsingle, hone⟩ | ⟨hsingle, hgreater⟩
    · obtain ⟨rest, rfl, hat⟩ := at_symbol h hlt hsymbol fun hdouble => hone hdouble.1
      refine ⟨_, rest, s + 1, rfl, ?_, hat, Nat.lt_succ_self s, fun word heq => absurd heq (symbol_ne_word _ word)⟩
      rw [if_pos hsingle, ret_symbol hsymbol]
    · rw [if_neg hsingle, if_pos hgreater, read_eq hlt]
      change ∃ token rest stop, _ ∧ (if line.mem (s + 1) ∈ chars ">" then _ else _) = _ ∧ _ ∧ _ ∧ _
      by_cases hnext : line.mem (s + 1) ∈ chars ">"
      · have hsame : line.mem (s + 1) = line.mem s := by
          rw [List.mem_singleton.mp hnext, List.mem_singleton.mp hgreater]
        have hlt' : s + 1 < line.es := by
          rcases Nat.lt_or_eq_of_le (Nat.succ_le_of_lt hlt) with hlt' | heq
          · exact hlt'
          · rw [show s + 1 = line.es from heq, mem_es] at hsame
            exact absurd hsame.symm (mem_ne_zero hlt)
        refine ⟨.append, lex (s + 2) (line.bytes.drop (s + 2)), s + 2, ?_, ?_, ⟨hlt', rfl⟩,
          by omega, fun word heq => by cases heq⟩
        · rw [← h.lex, drop_eq_cons hlt, drop_eq_cons hlt', hsame, lex_append hgreater]
        · rw [if_pos hnext]
          rfl
      · obtain ⟨rest, rfl, hat⟩ := at_symbol h hlt hsymbol fun hdouble => hnext hdouble.2
        refine ⟨_, rest, s + 1, rfl, ?_, hat, Nat.lt_succ_self s, fun word heq => absurd heq (symbol_ne_word _ word)⟩
        rw [if_neg hnext, ret_symbol hsymbol]
  · obtain ⟨hsingle, hgreater⟩ := not_mem_chars_of_not_symbol hsymbol
    have hword : decide (line.mem s ∉ whitespace ∧ line.mem s ∉ symbols) = true := decide_eq_true ⟨hwhite, hsymbol⟩
    have hlength : ((line.bytes.drop s).takeWhile fun c => decide (c ∉ whitespace ∧ c ∉ symbols)).length =
        1 + ((line.bytes.drop (s + 1)).takeWhile fun c => Ordinary c).length := by
      rw [drop_eq_cons hlt, List.takeWhile_cons, if_pos hword, List.length_cons, Nat.add_comm]
      rfl
    have hstop := length_takeWhile_drop_le (fun c => decide (c ∉ whitespace ∧ c ∉ symbols)) h.le
    rw [if_neg hsingle, if_neg hgreater, skipWhile_eq _ h.le]
    rw [hlength, ← Nat.add_assoc] at hstop ⊢
    refine ⟨_, _, _, ?_, rfl, ⟨hstop, rfl⟩, by omega, fun word heq => (Terminal.word.inj heq).symm⟩
    rw [← h.lex, drop_eq_cons hlt, lex_word ⟨hwhite, hsymbol⟩, List.drop_drop]

theorem gettoken_at {token : Terminal} {rest : List Terminal} (h : line.At (token :: rest) s) :
    ∃ place s', gettoken line s = .ok (⟨token.ret, place⟩, s') ∧ line.At rest s' ∧
      ∀ word, token = .word word → word = place := by
  obtain ⟨q, hskip, hat, ⟨-, hnil⟩ | ⟨hlt, hwhite, -⟩⟩ := skipWhite_at h
  · cases hnil
  · obtain ⟨token', rest', stop, heq, hscan, hstop, -, hplace⟩ := scan_at hat hlt hwhite
    obtain ⟨rfl, rfl⟩ := List.cons.inj heq
    obtain ⟨s', hskip', hat', -⟩ := skipWhite_at hstop
    refine ⟨⟨q, stop⟩, s', ?_, hat', hplace⟩
    change (skipWhite line s).bind _ = _
    rw [hskip]
    change (scan line q).bind _ = _
    rw [hscan]
    change (skipWhite line stop).bind _ = _
    rw [hskip']
    rfl

theorem gettoken_nil (h : line.At [] s) :
    ∃ place s', gettoken line s = .ok (⟨0, place⟩, s') ∧ line.At [] s' := by
  obtain ⟨q, hskip, hat, ⟨rfl, -⟩ | ⟨-, -, hne⟩⟩ := skipWhite_at h
  · obtain ⟨s', hskip', hat', -⟩ := skipWhite_at hat
    refine ⟨⟨line.es, line.es⟩, s', ?_, hat'⟩
    have hscan : scan line line.es = .ok (0, line.es) := by
      change (read line line.es).bind _ = _
      rw [read_eq hat.le, mem_es]
      rfl
    change (skipWhite line s).bind _ = _
    rw [hskip]
    change (scan line line.es).bind _ = _
    rw [hscan]
    change (skipWhite line line.es).bind _ = _
    rw [hskip']
    rfl
  · exact absurd rfl hne

end Cursor

end Xv6.Sh
