import Xv6.Sh.Parsing

/-!
# What `parsecmd` returns

`nulterminate` cuts the line up. The terminator of a string comes where the string ends, and there is no byte of any
other.
-/

namespace Xv6.Sh

variable {line : Line}

/-! ### Words -/

structure Line.IsWord (line : Line) (word : Word) : Prop where
  lt : word.start < word.stop
  le : word.stop ≤ line.es
  ordinary : ∀ i, word.start ≤ i → i < word.stop → Ordinary (line.mem i)
  ends : word.stop = line.es ∨ ¬Ordinary (line.mem word.stop)

theorem isWord_of_ordinary {s : Nat} (hlt : s < line.es) (h : Ordinary (line.mem s)) :
    line.IsWord ⟨s, s + 1 + ((line.bytes.drop (s + 1)).takeWhile fun c => Ordinary c).length⟩ where
  lt := Nat.lt_of_lt_of_le (Nat.lt_succ_self s) (Nat.le_add_right _ _)
  le := length_takeWhile_drop_le _ hlt
  ordinary := by
    intro i hle hi
    dsimp only at hle hi
    rcases Nat.eq_or_lt_of_le hle with rfl | hlt'
    · exact h
    · obtain ⟨k, rfl⟩ := Nat.exists_eq_add_of_le (show s + 1 ≤ i from hlt')
      exact of_decide_eq_true (mem_skipped (fun c => decide (Ordinary c)) (by omega))
  ends := (mem_after_skip (fun c => decide (Ordinary c)) hlt).imp_right of_decide_eq_false

theorem isWord_of_mem_lex {s : Nat} {word : Word} (hs : s ≤ line.es)
    (h : .word word ∈ lex s (line.bytes.drop s)) : line.IsWord word := by
  obtain ⟨left, hleft⟩ : ∃ left, left = line.es - s := ⟨_, rfl⟩
  induction left using Nat.strong_induction_on generalizing s with
  | _ left ih =>
      have hrest : ∀ {s' tokens}, s < s' → line.At tokens s' → .word word ∈ tokens → line.IsWord word := by
        intro s' tokens hlt hat hmem
        have hle := hat.le
        rw [← hat.lex] at hmem
        exact ih (line.es - s') (by omega) hle hmem rfl
      rcases Nat.lt_or_eq_of_le hs with hlt | heq
      · by_cases hwhite : line.mem s ∈ whitespace
        · rw [drop_eq_cons hlt, lex_white hwhite] at h
          exact hrest (Nat.lt_succ_self s) ⟨hlt, rfl⟩ h
        · obtain ⟨token, rest, stop, htokens, -, hat, hstop, -⟩ := scan_at ⟨hs, rfl⟩ hlt hwhite
          rw [htokens] at h
          rcases List.mem_cons.mp h with rfl | hmem
          · rw [drop_eq_cons hlt] at htokens
            by_cases hsymbol : line.mem s ∈ symbols
            · have hfirst := @first_of_symbol s _ (line.bytes.drop (s + 1)) hsymbol
              rw [htokens] at hfirst
              cases hfirst
            · rw [lex_word ⟨hwhite, hsymbol⟩] at htokens
              rw [← Terminal.word.inj (List.cons.inj htokens).1]
              exact isWord_of_ordinary hlt ⟨hwhite, hsymbol⟩
          · exact hrest hstop hat hmem
      · rw [drop_eq_nil (by omega), lex] at h
        exact absurd h List.not_mem_nil

theorem Line.IsWord.apart {word word' : Word} (h : line.IsWord word) (h' : line.IsWord word') :
    ¬(word'.start ≤ word.stop ∧ word.stop < word'.stop) := by
  rintro ⟨hle, hlt⟩
  have hle' := h'.le
  rcases h.ends with heq | hends
  · omega
  · exact hends (h'.ordinary _ hle hlt)

theorem length_lex_le {s : Nat} (hs : s ≤ line.es) : (lex s (line.bytes.drop s)).length ≤ line.es - s := by
  obtain ⟨left, hleft⟩ : ∃ left, left = line.es - s := ⟨_, rfl⟩
  induction left using Nat.strong_induction_on generalizing s with
  | _ left ih =>
      rcases Nat.lt_or_eq_of_le hs with hlt | heq
      · by_cases hwhite : line.mem s ∈ whitespace
        · have hrest := @ih (line.es - (s + 1)) (by omega) (s + 1) hlt rfl
          rw [drop_eq_cons hlt, lex_white hwhite]
          omega
        · obtain ⟨token, rest, stop, htokens, -, hat, hstop, -⟩ := scan_at ⟨hs, rfl⟩ hlt hwhite
          have hle := hat.le
          have hrest := ih (line.es - stop) (by omega) hle rfl
          rw [hat.lex] at hrest
          rw [htokens, List.length_cons]
          omega
      · rw [drop_eq_nil (by omega), lex]
        exact Nat.zero_le _

/-! ### Strings -/

/-- The string at an address, in at most so many bytes. -/
def cstr (mem : Nat → UInt8) : (rounds q : Nat) → List UInt8
  | 0, _ => []
  | rounds + 1, q => if mem q = 0 then [] else mem q :: cstr mem rounds (q + 1)

def Line.string (line : Line) (mem : Nat → UInt8) (q : Nat) : List UInt8 := cstr mem (line.es - q) q

theorem nulterminate_exec (mem : Nat → UInt8) (argv : List Word) (i : Nat) :
    nulterminate mem (.exec argv) i = if ∃ word ∈ argv, word.stop = i then 0 else mem i := by
  rw [nulterminate]
  induction argv generalizing mem with
  | nil => simp
  | cons arg argv ih =>
      rw [List.foldl_cons, ih]
      by_cases hmem : ∃ word ∈ argv, word.stop = i
      · rw [if_pos hmem, if_pos (by simp [hmem])]
      · rw [if_neg hmem]
        by_cases hstop : arg.stop = i
        · subst hstop
          rw [Function.update_self, if_pos ⟨arg, List.mem_cons_self, rfl⟩]
        · rw [Function.update_of_ne (Ne.symm hstop), if_neg]
          rintro ⟨word, hword, heq⟩
          rcases List.mem_cons.mp hword with rfl | hword
          · exact hstop heq
          · exact hmem ⟨word, hword, heq⟩

theorem nulterminate_eq (mem : Nat → UInt8) (cmd : Cmd) (i : Nat) :
    nulterminate mem cmd i = if ∃ word ∈ cmd.words, word.stop = i then 0 else mem i := by
  have hpair : ∀ left right : Cmd, (∃ word ∈ left.words ++ right.words, word.stop = i) ↔
      (∃ word ∈ right.words, word.stop = i) ∨ ∃ word ∈ left.words, word.stop = i := by
    intro left right
    simp only [List.mem_append]
    grind
  induction cmd generalizing mem with
  | exec argv => exact nulterminate_exec mem argv i
  | redir cmd file mode fd ih =>
      rw [nulterminate]
      by_cases hstop : file.stop = i
      · subst hstop
        rw [Function.update_self, if_pos ⟨file, List.mem_cons_self, rfl⟩]
      · rw [Function.update_of_ne (Ne.symm hstop), ih]
        refine if_congr ?_ rfl rfl
        simp [Cmd.words, hstop]
  | pipe left right ihl ihr =>
      rw [nulterminate, ihr, ihl, ← ite_or]
      exact (if_congr (hpair left right) rfl rfl).symm
  | list left right ihl ihr =>
      rw [nulterminate, ihr, ihl, ← ite_or]
      exact (if_congr (hpair left right) rfl rfl).symm
  | back cmd ih => exact ih mem

section Strings

variable {cmd : Cmd} (hwords : ∀ word ∈ cmd.words, line.IsWord word)

include hwords in
/-- **The strings of a tree** are its words, each with a terminator after it. -/
theorem string_nulterminate {word : Word} (h : word ∈ cmd.words) :
    line.string (nulterminate line.mem cmd) word.start = line.text word := by
  have hword := hwords word h
  have hinside : ∀ i, word.start ≤ i → i < word.stop → nulterminate line.mem cmd i = line.mem i := by
    intro i hle hlt
    rw [nulterminate_eq, if_neg]
    rintro ⟨other, hother, rfl⟩
    exact (hwords other hother).apart hword ⟨hle, hlt⟩
  have hends : nulterminate line.mem cmd word.stop = 0 := by
    rw [nulterminate_eq, if_pos ⟨word, h, rfl⟩]
  generalize nulterminate line.mem cmd = mem at hinside hends ⊢
  have hle := hword.le
  have hloop : ∀ length q, q + length = word.stop → word.start ≤ q →
      cstr mem (line.es - q) q = (line.bytes.drop q).take length := by
    intro length
    induction length with
    | zero =>
        intro q hq _
        rw [Nat.add_zero] at hq
        rw [hq, List.take_zero]
        cases line.es - word.stop with
        | zero => rfl
        | succ rounds => exact if_pos hends
    | succ length ih =>
        intro q hq hstart
        have hlt : q < line.es := by omega
        have hmem := hinside q hstart (by omega)
        obtain ⟨rounds, hrounds⟩ := Nat.exists_eq_succ_of_ne_zero (show line.es - q ≠ 0 by omega)
        have hnext : rounds = line.es - (q + 1) := by omega
        rw [hrounds, cstr, hmem, if_neg (mem_ne_zero hlt), drop_eq_cons hlt, List.take_succ_cons, hnext,
          ih (q + 1) (by omega) (by omega)]
  exact hloop (word.stop - word.start) word.start (Nat.add_sub_of_le (Nat.le_of_lt hword.lt)) (Nat.le_refl _)

end Strings

/-! ### The words of a derivation -/

theorem words_wrap (redirs : List Redir) (cmd : Cmd) {word : Word} :
    word ∈ (redirs.foldl Redir.wrap cmd).words ↔ word ∈ redirs.map Redir.file ∨ word ∈ cmd.words := by
  induction redirs generalizing cmd with
  | nil => simp
  | cons redir redirs ih =>
      rw [List.foldl_cons, ih, List.map_cons, List.mem_cons]
      change _ ∨ word ∈ redir.file :: cmd.words ↔ _
      rw [List.mem_cons]
      tauto

theorem file_mem_yield {redirs : List Redir} {word : Word} (h : word ∈ redirs.map Redir.file) :
    .word word ∈ redirs.flatMap Redir.yield := by
  obtain ⟨redir, hredir, rfl⟩ := List.mem_map.mp h
  exact List.mem_flatMap.mpr ⟨redir, hredir, by simp [Redir.yield]⟩

theorem words_back (backs : Nat) (cmd : Cmd) : (Cmd.back^[backs] cmd).words = cmd.words := by
  induction backs with
  | zero => rfl
  | succ backs ih =>
      rw [Function.iterate_succ_apply']
      exact ih

mutual

theorem LineTree.mem_yield {word : Word} (tree : LineTree) (h : word ∈ tree.cmd.words) :
    .word word ∈ tree.yield := by
  cases tree with
  | last pipe backs =>
      rw [LineTree.cmd, words_back] at h
      exact List.mem_append_left _ (pipe.mem_yield h)
  | more pipe backs tree =>
      rw [LineTree.cmd, Cmd.words, words_back] at h
      rcases List.mem_append.mp h with h | h
      · exact List.mem_append_left _ (List.mem_append_left _ (pipe.mem_yield h))
      · exact List.mem_append_right _ (List.mem_cons_of_mem _ (tree.mem_yield h))

theorem PipeTree.mem_yield {word : Word} (tree : PipeTree) (h : word ∈ tree.cmd.words) :
    .word word ∈ tree.yield := by
  cases tree with
  | last exec => exact exec.mem_yield h
  | more exec tree =>
      rcases List.mem_append.mp h with h | h
      · exact List.mem_append_left _ (exec.mem_yield h)
      · exact List.mem_append_right _ (List.mem_cons_of_mem _ (tree.mem_yield h))

theorem ExecTree.mem_yield {word : Word} (tree : ExecTree) (h : word ∈ tree.cmd.words) :
    .word word ∈ tree.yield := by
  cases tree with
  | block tree redirs =>
      rcases (words_wrap redirs tree.cmd).mp h with h | h
      · exact List.mem_append_right _ (List.mem_cons_of_mem _ (file_mem_yield h))
      · exact List.mem_append_left _ (List.mem_cons_of_mem _ (tree.mem_yield h))
  | simple redirs args =>
      rcases (words_wrap _ _).mp h with h | h
      · rw [List.map_append, List.mem_append] at h
        rcases h with h | h
        · exact List.mem_append_left _ (file_mem_yield h)
        · obtain ⟨redir, hredir, rfl⟩ := List.mem_map.mp h
          obtain ⟨arg, harg, hredir⟩ := List.mem_flatMap.mp hredir
          refine List.mem_append_right _ (List.mem_flatMap.mpr ⟨arg, harg, List.mem_cons_of_mem _ ?_⟩)
          exact file_mem_yield (List.mem_map_of_mem hredir)
      · obtain ⟨arg, harg, rfl⟩ := List.mem_map.mp h
        exact List.mem_append_right _ (List.mem_flatMap.mpr ⟨arg, harg, List.mem_cons_self⟩)

end

/-! ### `parsecmd` -/

/-- A derivation of the whole line. -/
structure Line.Derives (line : Line) (tree : LineTree) : Prop where
  yield : tree.yield = line.tokens
  bounded : tree.Bounded

/-- Every string of the tree is the text of its token and has its terminator, which is in no other. -/
structure Line.Terminated (line : Line) (cmd : Cmd) (mem : Nat → UInt8) : Prop where
  string : ∀ word ∈ cmd.words, line.string mem word.start = line.text word
  token : ∀ word ∈ cmd.words, .word word ∈ line.tokens
  ended : ∀ word ∈ cmd.words, mem word.stop = 0
  apart : ∀ word ∈ cmd.words, ∀ other ∈ cmd.words, ¬(other.start ≤ word.stop ∧ word.stop < other.stop)

theorem Line.at_start (line : Line) : line.At line.tokens 0 := ⟨Nat.zero_le _, rfl⟩

theorem enough_fuel (line : Line) : 4 * line.tokens.length + 4 ≤ fuelFor line := by
  have hlength : line.tokens.length ≤ line.es - 0 := length_lex_le (Nat.zero_le _)
  unfold fuelFor
  omega

theorem parsecmd_complete {tree : LineTree} (h : line.Derives tree) :
    parsecmd line = .ok (tree.cmd, nulterminate line.mem tree.cmd) := by
  have hat : line.At (tree.yield ++ []) 0 := by
    rw [List.append_nil, h.yield]
    exact line.at_start
  have hfuel := enough_fuel line
  rw [← h.yield] at hfuel
  obtain ⟨s, hline, hat⟩ := parseline_complete tree hat (Or.inl rfl) h.bounded hfuel
  change (parseline line (fuelFor line) 0).bind _ = _
  rw [hline]
  change (peek line "" s).bind _ = _
  rw [peek_nil hat]
  exact if_neg (fun hne => hne rfl)

theorem parsecmd_sound (line : Line) :
    (∃ tree, line.Derives tree) ∨ ∃ message, parsecmd line = .error (.panic message) := by
  have hsound := (parse_sound (fuelFor line)).1 line.at_start (enough_fuel line)
  have hparse : parsecmd line = (parseline line (fuelFor line) 0).bind fun result =>
      (peek line "" result.2).bind fun result' =>
        if result'.2 ≠ line.es then .error (.panic "syntax")
        else .ok (result.1, nulterminate line.mem result.1) := rfl
  cases hline : parseline line (fuelFor line) 0 with
  | error failure =>
      rw [hline] at hsound hparse
      cases failure with
      | panic message => exact Or.inr ⟨message, hparse⟩
      | outside => exact hsound.elim
      | fuel => exact hsound.elim
  | ok result =>
      rw [hline] at hsound hparse
      obtain ⟨tree, rest, htokens, hbounded, -, hat⟩ := hsound
      have hempty : ∀ c ∈ chars "", c ∈ symbols := List.all_iff_forall_prop.mp (by decide)
      obtain ⟨s', hpeek, hsame⟩ := peek_at hempty hat
      change parsecmd line = (peek line "" result.2).bind _ at hparse
      rw [hpeek] at hparse
      by_cases hes : s' = line.es
      · have hrest : rest = [] := by
          rw [← hsame.lex, drop_eq_nil (Nat.le_of_eq hes.symm), lex]
        rw [hrest, List.append_nil] at htokens
        exact Or.inl ⟨tree, htokens.symm, hbounded⟩
      · exact Or.inr ⟨"syntax", hparse.trans (if_pos hes)⟩

theorem terminated_of_derives {tree : LineTree} (h : line.Derives tree) :
    line.Terminated tree.cmd (nulterminate line.mem tree.cmd) := by
  have htoken : ∀ word ∈ tree.cmd.words, .word word ∈ line.tokens := by
    intro word hword
    rw [← h.yield]
    exact tree.mem_yield hword
  have hwords : ∀ word ∈ tree.cmd.words, line.IsWord word :=
    fun word hword => isWord_of_mem_lex (Nat.zero_le _) (htoken word hword)
  exact {
    string := fun word hword => string_nulterminate hwords hword
    token := htoken
    ended := by
      intro word hword
      rw [nulterminate_eq, if_pos ⟨word, hword, rfl⟩]
    apart := fun word hword other hother => (hwords word hword).apart (hwords other hother) }

/-- **The shell parses its grammar.** `parsecmd` returns or panics; it returns exactly for the lines that have a
derivation; and then it is the tree of the derivation that it returns, with the strings of its tokens. -/
theorem parsecmd_spec (line : Line) :
    ((∃ cmd mem, parsecmd line = .ok (cmd, mem)) ∨ ∃ message, parsecmd line = .error (.panic message)) ∧
    ((∃ cmd mem, parsecmd line = .ok (cmd, mem)) ↔ ∃ tree, line.Derives tree) ∧
    ∀ cmd mem, parsecmd line = .ok (cmd, mem) →
      (∀ tree, line.Derives tree → cmd = tree.cmd) ∧ line.Terminated cmd mem := by
  have hiff : (∃ cmd mem, parsecmd line = .ok (cmd, mem)) ↔ ∃ tree, line.Derives tree := by
    constructor
    · rintro ⟨cmd, mem, hparse⟩
      rcases parsecmd_sound line with hderives | ⟨message, hpanic⟩
      · exact hderives
      · rw [hparse] at hpanic
        cases hpanic
    · rintro ⟨tree, htree⟩
      exact ⟨_, _, parsecmd_complete htree⟩
  refine ⟨?_, hiff, ?_⟩
  · exact (parsecmd_sound line).imp_left hiff.mpr
  · intro cmd mem hparse
    have hcmd : ∀ tree, line.Derives tree → cmd = tree.cmd ∧ mem = nulterminate line.mem tree.cmd := by
      intro tree htree
      have hresult := Except.ok.inj (hparse.symm.trans (parsecmd_complete htree))
      exact ⟨congrArg Prod.fst hresult, congrArg Prod.snd hresult⟩
    refine ⟨fun tree htree => (hcmd tree htree).1, ?_⟩
    obtain ⟨tree, htree⟩ := hiff.mp ⟨cmd, mem, hparse⟩
    obtain ⟨rfl, rfl⟩ := hcmd tree htree
    exact terminated_of_derives htree

end Xv6.Sh
