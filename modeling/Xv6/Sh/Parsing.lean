import Mathlib.Data.List.Induction
import Xv6.Sh.Cursor

/-!
# What the shell parses

From a derivation of the tokens ahead, the parser makes the tree of the derivation (`complete`). When it returns, there
is a derivation of the tokens that it took (`sound`), and it fails by `panic` only.
-/

namespace Xv6.Sh

variable {line : Line} {s : Nat} {tokens rest : List Terminal}

/-! ### Sequences of parsers -/

theorem bind_of_ok {α β : Type} {first : Parser α} {next : α → Parser β} {value : α} {s s' : Nat}
    (h : first s = .ok (value, s')) : (first >>= next) s = next value s' := by
  change (first s).bind _ = _
  rw [h]
  rfl

def Sound {α : Type} (post : α → Nat → Prop) : Except Failure (α × Nat) → Prop
  | .ok result => post result.1 result.2
  | .error (.panic _) => True
  | .error _ => False

theorem Sound.mono {α : Type} {post post' : α → Nat → Prop} {result : Except Failure (α × Nat)}
    (h : Sound post result) (hpost : ∀ value s', post value s' → post' value s') : Sound post' result := by
  cases result with
  | ok result => exact hpost _ _ h
  | error failure =>
      cases failure with
      | panic message => exact trivial
      | outside => exact h
      | fuel => exact h

theorem Sound.bind {α β : Type} {first : Parser α} {next : α → Parser β} {mid : α → Nat → Prop}
    {post : β → Nat → Prop} (hfirst : Sound mid (first s))
    (hnext : ∀ value s', mid value s' → Sound post (next value s')) : Sound post ((first >>= next) s) := by
  change Sound post ((first s).bind _)
  cases hresult : first s with
  | ok result =>
      rw [hresult] at hfirst
      exact hnext _ _ hfirst
  | error failure =>
      rw [hresult] at hfirst
      cases failure with
      | panic message => exact trivial
      | outside => exact hfirst.elim
      | fuel => exact hfirst.elim

def Ends (text : String) (tokens : List Terminal) : Prop := tokens = [] ∨ starts text tokens = true

theorem Ends.starts_eq_false {text other : String} (h : Ends text tokens)
    (hother : ∀ c ∈ chars text, c ∉ chars other) : starts other tokens = false := by
  rcases h with rfl | hstarts
  · rfl
  · cases tokens with
    | nil => rfl
    | cons token rest =>
        cases hfirst : token.first with
        | none => simp [starts, hfirst]
        | some c =>
            simp only [starts, List.head?_cons, Option.any_some, hfirst, decide_eq_true_eq] at hstarts
            simpa [starts, hfirst] using hother c hstarts

theorem Ends.mono {text other : String} (h : Ends text tokens) (hother : ∀ c ∈ chars text, c ∈ chars other) :
    Ends other tokens := by
  rcases h with rfl | hstarts
  · exact Or.inl rfl
  · cases tokens with
    | nil => exact Or.inl rfl
    | cons token rest =>
        cases hfirst : token.first with
        | none => simp [starts, hfirst] at hstarts
        | some c =>
            simp only [starts, List.head?_cons, Option.any_some, hfirst, decide_eq_true_eq] at hstarts
            right
            simpa [starts, hfirst] using hother c hstarts

theorem first_injective {token other : Terminal} (h : other.first = token.first) (hsome : token.first ≠ none)
    (hgreater : token.first ≠ some 62) : other = token := by
  cases token with
  | word word => exact absurd rfl hsome
  | greater => exact absurd rfl hgreater
  | append => exact absurd rfl hgreater
  | _ => cases other <;> first | rfl | simp [Terminal.first] at h

theorem exists_cons {text : String} {token : Terminal} {c : UInt8} (h : starts text tokens = true)
    (htext : chars text = [c]) (hfirst : token.first = some c) (hgreater : c ≠ 62) :
    ∃ rest, tokens = token :: rest := by
  cases tokens with
  | nil => cases h
  | cons other rest =>
      cases hother : other.first with
      | none => simp [starts, hother] at h
      | some c' =>
          simp only [starts, List.head?_cons, Option.any_some, hother, decide_eq_true_eq, htext,
            List.mem_singleton] at h
          subst h
          exact ⟨rest, by rw [first_injective (hother.trans hfirst.symm) (by simp [hfirst]) (by simpa [hfirst])]⟩

/-! ### Redirections -/

theorem redirect_terminal (direction : Direction) (file : Word) (cmd : Cmd) :
    redirect direction.terminal.ret file cmd = Redir.wrap cmd ⟨direction, file⟩ := by
  cases direction <;> rfl

theorem starts_terminal (direction : Direction) :
    starts "<>" (direction.terminal :: tokens) = true := by
  cases direction <;> rfl

theorem exists_direction {token : Terminal} (h : starts "<>" (token :: rest) = true) :
    ∃ direction : Direction, token = direction.terminal := by
  cases token with
  | less => exact ⟨.less, rfl⟩
  | greater => exact ⟨.greater, rfl⟩
  | append => exact ⟨.append, rfl⟩
  | _ => exact absurd h Bool.false_ne_true

theorem symbols_of_redirection : ∀ c ∈ chars "<>", c ∈ symbols := List.all_iff_forall_prop.mp (by decide)

theorem length_le_yield (redirs : List Redir) : redirs.length ≤ (redirs.flatMap Redir.yield).length := by
  induction redirs with
  | nil => exact Nat.le_refl _
  | cons redir redirs ih =>
      rw [List.flatMap_cons, List.length_append, List.length_cons, Nat.add_comm]
      exact Nat.add_le_add (by exact Nat.le_succ 1) ih

theorem parseredirs_complete {redirs : List Redir} {fuel : Nat} {cmd : Cmd}
    (h : line.At (redirs.flatMap Redir.yield ++ rest) s) (hrest : starts "<>" rest = false)
    (hfuel : redirs.length < fuel) :
    ∃ s', parseredirs line fuel cmd s = .ok (redirs.foldl Redir.wrap cmd, s') ∧ line.At rest s' := by
  induction redirs generalizing fuel cmd s with
  | nil =>
      obtain ⟨fuel, rfl⟩ := Nat.exists_eq_succ_of_ne_zero (Nat.ne_of_gt hfuel)
      obtain ⟨s', hpeek, hat⟩ := peek_at symbols_of_redirection h
      rw [List.flatMap_nil, List.nil_append, hrest] at hpeek
      rw [parseredirs, bind_of_ok hpeek]
      exact ⟨s', rfl, hat⟩
  | cons redir redirs ih =>
      obtain ⟨fuel, rfl⟩ := Nat.exists_eq_succ_of_ne_zero (Nat.ne_of_gt (Nat.zero_lt_of_lt hfuel))
      change line.At (redir.direction.terminal :: .word redir.file ::
        (redirs.flatMap Redir.yield ++ rest)) s at h
      obtain ⟨s1, hpeek, hat⟩ := peek_at symbols_of_redirection h
      rw [starts_terminal] at hpeek
      obtain ⟨place, s2, htok, hat, -⟩ := gettoken_at hat
      obtain ⟨file, s3, hfile, hat, hplace⟩ := gettoken_at hat
      obtain ⟨s4, hredirs, hat⟩ := @ih s3 fuel (redir.wrap cmd) hat (Nat.lt_of_succ_lt_succ hfuel)
      refine ⟨s4, ?_, hat⟩
      rw [parseredirs, bind_of_ok hpeek, if_pos rfl, bind_of_ok htok, bind_of_ok hfile, redirect_terminal,
        ← hplace _ rfl]
      exact hredirs

theorem ret_ne_zero (token : Terminal) : token.ret ≠ 0 := by
  cases token with
  | word word => exact (by decide : (97 : UInt8) ≠ 0)
  | _ => decide

theorem exists_word {token : Terminal} (h : token.ret ∈ chars "a") : ∃ word, token = .word word := by
  cases token with
  | word word => exact ⟨word, rfl⟩
  | _ => exact absurd h (by decide)

theorem gettoken_ret (h : line.At tokens s) :
    ∃ token s', gettoken line s = .ok (token, s') ∧ (token.ret = 0 → tokens = [] ∧ line.At [] s') ∧
      (token.ret ∈ chars "a" → ∃ rest, tokens = .word token.place :: rest ∧ line.At rest s') := by
  cases tokens with
  | nil =>
      obtain ⟨place, s', hget, hat⟩ := gettoken_nil h
      exact ⟨_, s', hget, fun _ => ⟨rfl, hat⟩, fun hword => absurd hword (by decide : (0 : UInt8) ∉ chars "a")⟩
  | cons token rest =>
      obtain ⟨place, s', hget, hat, hplace⟩ := gettoken_at h
      refine ⟨_, s', hget, fun hzero => absurd hzero (ret_ne_zero token), ?_⟩
      intro hword
      obtain ⟨word, rfl⟩ := exists_word hword
      exact ⟨rest, by rw [hplace word rfl], hat⟩

theorem parseredirs_sound {fuel : Nat} {cmd : Cmd} (h : line.At tokens s) (hfuel : tokens.length < fuel) :
    Sound (fun cmd' s' => ∃ (redirs : List Redir) (rest : List Terminal),
      tokens = redirs.flatMap Redir.yield ++ rest ∧ cmd' = redirs.foldl Redir.wrap cmd ∧ line.At rest s')
      (parseredirs line fuel cmd s) := by
  induction fuel generalizing tokens cmd s with
  | zero => exact absurd hfuel (Nat.not_lt_zero _)
  | succ fuel ih =>
      obtain ⟨s1, hpeek, hat⟩ := peek_at symbols_of_redirection h
      rw [parseredirs, bind_of_ok hpeek]
      cases hstarts : starts "<>" tokens with
      | false => exact ⟨[], tokens, rfl, rfl, hat⟩
      | true =>
          cases tokens with
          | nil => cases hstarts
          | cons token tokens =>
              obtain ⟨direction, rfl⟩ := exists_direction hstarts
              obtain ⟨place, s2, htok, hat, -⟩ := gettoken_at hat
              obtain ⟨file, s3, hfile, -, hword⟩ := gettoken_ret hat
              rw [if_pos rfl, bind_of_ok htok, bind_of_ok hfile, redirect_terminal]
              by_cases hret : file.ret ∈ chars "a"
              · obtain ⟨rest, rfl, hnext⟩ := hword hret
                rw [if_pos hret]
                have hlength : rest.length < fuel := by
                  simp only [List.length_cons] at hfuel
                  omega
                refine (ih hnext hlength).mono ?_
                rintro cmd' s' ⟨redirs, rest', rfl, hcmd, hat'⟩
                exact ⟨⟨direction, file.place⟩ :: redirs, rest', rfl, hcmd, hat'⟩
              · rw [if_neg hret]
                exact trivial

/-! ### Arguments -/

theorem push_wrap (redirs : List Redir) (argv : List Word) (arg : Word) :
    (redirs.foldl Redir.wrap (.exec argv)).push arg = redirs.foldl Redir.wrap (.exec (argv ++ [arg])) := by
  induction redirs using List.reverseRecOn with
  | nil => rfl
  | append_singleton redirs redir ih =>
      rw [List.foldl_append, List.foldl_append]
      change Cmd.redir ((redirs.foldl Redir.wrap (.exec argv)).push arg) _ _ _ = _
      rw [ih]
      rfl

theorem symbols_of_end : ∀ c ∈ chars "|)&;", c ∈ symbols := List.all_iff_forall_prop.mp (by decide)

abbrev EndsArgs (tokens : List Terminal) : Prop := Ends "|)&;" tokens

theorem EndsArgs.not_redirection (h : EndsArgs tokens) : starts "<>" tokens = false :=
  h.starts_eq_false (List.all_iff_forall_prop.mp (by decide))

theorem starts_args {args : List Arg} (h : EndsArgs rest) :
    starts "<>" (args.flatMap Arg.yield ++ rest) = false := by
  cases args with
  | nil => exact h.not_redirection
  | cons arg args => rfl

theorem parseargs_complete {args : List Arg} {fuel argc : Nat} {redirs : List Redir} {argv : List Word}
    (h : line.At (args.flatMap Arg.yield ++ rest) s) (hrest : EndsArgs rest) (hargs : argc + args.length < maxArgs)
    (hfuel : (args.flatMap Arg.yield).length < fuel) :
    ∃ s', parseargs line fuel argc (redirs.foldl Redir.wrap (.exec argv)) s =
      .ok ((redirs ++ args.flatMap Arg.redirs).foldl Redir.wrap (.exec (argv ++ args.map Arg.word)), s') ∧
        line.At rest s' := by
  induction args generalizing fuel argc redirs argv s with
  | nil =>
      obtain ⟨fuel, rfl⟩ := Nat.exists_eq_succ_of_ne_zero (Nat.ne_of_gt hfuel)
      obtain ⟨s1, hpeek, hat⟩ := peek_at symbols_of_end h
      rw [List.flatMap_nil, List.nil_append] at hpeek hat
      rw [parseargs, bind_of_ok hpeek, List.flatMap_nil, List.append_nil, List.map_nil, List.append_nil]
      rcases hrest with rfl | hstarts
      · obtain ⟨place, s2, hget, hat⟩ := gettoken_nil hat
        rw [if_neg (by decide), bind_of_ok hget]
        exact ⟨s2, rfl, hat⟩
      · rw [hstarts]
        exact ⟨s1, rfl, hat⟩
  | cons arg args ih =>
      obtain ⟨fuel, rfl⟩ := Nat.exists_eq_succ_of_ne_zero (Nat.ne_of_gt (Nat.zero_lt_of_lt hfuel))
      rw [List.flatMap_cons, List.append_assoc] at h
      change line.At (.word arg.word :: (arg.redirs.flatMap Redir.yield ++ (args.flatMap Arg.yield ++ rest))) s at h
      simp only [List.flatMap_cons, Arg.yield, List.cons_append, List.length_cons, List.length_append] at hargs hfuel
      obtain ⟨s1, hpeek, hat⟩ := peek_at symbols_of_end h
      obtain ⟨place, s2, hget, hat, hplace⟩ := gettoken_at hat
      have hredirs := length_le_yield arg.redirs
      obtain ⟨s3, hparse, hat⟩ := @parseredirs_complete line s2 _ arg.redirs fuel
        ((redirs.foldl Redir.wrap (.exec argv)).push place) hat (starts_args hrest) (by omega)
      obtain ⟨s4, hloop, hat⟩ := @ih s3 fuel (argc + 1) (redirs ++ arg.redirs) (argv ++ [arg.word]) hat
        (by omega) (by omega)
      refine ⟨s4, ?_, hat⟩
      rw [parseargs, bind_of_ok hpeek, if_neg (by exact Bool.false_ne_true), bind_of_ok hget,
        if_neg (ret_ne_zero _), if_pos (by exact List.mem_singleton.mpr rfl), if_neg (by omega),
        bind_of_ok hparse, push_wrap, ← hplace _ rfl, ← List.foldl_append, hloop]
      simp

theorem parseargs_sound {fuel argc : Nat} {redirs : List Redir} {argv : List Word} (h : line.At tokens s)
    (hargc : argc < maxArgs) (hfuel : tokens.length < fuel) :
    Sound (fun cmd s' => ∃ (args : List Arg) (rest : List Terminal), tokens = args.flatMap Arg.yield ++ rest ∧
      argc + args.length < maxArgs ∧
      cmd = (redirs ++ args.flatMap Arg.redirs).foldl Redir.wrap (.exec (argv ++ args.map Arg.word)) ∧
      line.At rest s') (parseargs line fuel argc (redirs.foldl Redir.wrap (.exec argv)) s) := by
  induction fuel generalizing tokens argc redirs argv s with
  | zero => exact absurd hfuel (Nat.not_lt_zero _)
  | succ fuel ih =>
      obtain ⟨s1, hpeek, hat⟩ := peek_at symbols_of_end h
      have hend : ∀ {tokens s'}, line.At tokens s' → ∃ (args : List Arg) (rest : List Terminal),
          tokens = args.flatMap Arg.yield ++ rest ∧ argc + args.length < maxArgs ∧
          redirs.foldl Redir.wrap (.exec argv) =
            (redirs ++ args.flatMap Arg.redirs).foldl Redir.wrap (.exec (argv ++ args.map Arg.word)) ∧
          line.At rest s' := by
        intro tokens s' hat
        exact ⟨[], tokens, rfl, hargc, by simp, hat⟩
      rw [parseargs, bind_of_ok hpeek]
      cases hstarts : starts "|)&;" tokens with
      | true => exact hend hat
      | false =>
          obtain ⟨token, s2, hget, hnil, hword⟩ := gettoken_ret hat
          rw [if_neg Bool.false_ne_true, bind_of_ok hget]
          by_cases hzero : token.ret = 0
          · obtain ⟨rfl, hdone⟩ := hnil hzero
            rw [if_pos hzero]
            exact hend hdone
          rw [if_neg hzero]
          by_cases hret : token.ret ∈ chars "a"
          · obtain ⟨rest, rfl, hnext⟩ := hword hret
            rw [if_pos hret]
            by_cases hfull : argc + 1 ≥ maxArgs
            · rw [if_pos hfull]
              exact trivial
            rw [if_neg hfull, push_wrap]
            rw [List.length_cons] at hfuel
            refine (parseredirs_sound hnext (by omega)).bind ?_
            rintro ret s3 ⟨more, rest', rfl, rfl, hat'⟩
            rw [List.length_append] at hfuel
            rw [← List.foldl_append]
            refine (ih hat' (by omega) (by omega)).mono ?_
            rintro cmd s4 ⟨args, last, rfl, hargs, rfl, hlast⟩
            refine ⟨⟨token.place, more⟩ :: args, last, ?_, ?_, ?_, hlast⟩
            · simp [Arg.yield]
            · rw [List.length_cons]
              omega
            · simp
          · rw [if_neg hret]
            exact trivial

/-! ### Lines -/

theorem symbol_of_amp : ∀ c ∈ chars "&", c ∈ symbols := List.all_iff_forall_prop.mp (by decide)

theorem parsebacks_complete {backs fuel : Nat} {cmd : Cmd}
    (h : line.At (List.replicate backs .amp ++ rest) s) (hrest : starts "&" rest = false) (hfuel : backs < fuel) :
    ∃ s', parsebacks line fuel cmd s = .ok (Cmd.back^[backs] cmd, s') ∧ line.At rest s' := by
  induction backs generalizing fuel cmd s with
  | zero =>
      obtain ⟨fuel, rfl⟩ := Nat.exists_eq_succ_of_ne_zero (Nat.ne_of_gt hfuel)
      obtain ⟨s1, hpeek, hat⟩ := peek_at symbol_of_amp h
      rw [List.replicate_zero, List.nil_append, hrest] at hpeek
      rw [parsebacks, bind_of_ok hpeek]
      exact ⟨s1, rfl, hat⟩
  | succ backs ih =>
      obtain ⟨fuel, rfl⟩ := Nat.exists_eq_succ_of_ne_zero (Nat.ne_of_gt (Nat.zero_lt_of_lt hfuel))
      rw [List.replicate_succ] at h
      obtain ⟨s1, hpeek, hat⟩ := peek_at symbol_of_amp h
      obtain ⟨place, s2, hget, hat, -⟩ := gettoken_at hat
      obtain ⟨s3, hbacks, hat⟩ := @ih s2 fuel (.back cmd) hat (Nat.lt_of_succ_lt_succ hfuel)
      refine ⟨s3, ?_, hat⟩
      rw [parsebacks, bind_of_ok hpeek, if_pos (by exact rfl), bind_of_ok hget, hbacks, Function.iterate_succ_apply]

theorem parsebacks_sound {fuel : Nat} {cmd : Cmd} (h : line.At tokens s) (hfuel : tokens.length < fuel) :
    Sound (fun cmd' s' => ∃ (backs : Nat) (rest : List Terminal), tokens = List.replicate backs .amp ++ rest ∧
      cmd' = Cmd.back^[backs] cmd ∧ line.At rest s') (parsebacks line fuel cmd s) := by
  induction fuel generalizing tokens cmd s with
  | zero => exact absurd hfuel (Nat.not_lt_zero _)
  | succ fuel ih =>
      obtain ⟨s1, hpeek, hat⟩ := peek_at symbol_of_amp h
      rw [parsebacks, bind_of_ok hpeek]
      cases hstarts : starts "&" tokens with
      | false => exact ⟨0, tokens, rfl, rfl, hat⟩
      | true =>
          obtain ⟨rest, rfl⟩ := @exists_cons _ _ .amp _ hstarts rfl rfl (by decide)
          obtain ⟨place, s2, hget, hnext, -⟩ := gettoken_at hat
          rw [if_pos rfl, bind_of_ok hget]
          refine (ih hnext (Nat.lt_of_succ_lt_succ hfuel)).mono ?_
          rintro cmd' s' ⟨backs, last, rfl, rfl, hlast⟩
          exact ⟨backs + 1, last, rfl, (Function.iterate_succ_apply ..).symm, hlast⟩

theorem symbol_of_semi : ∀ c ∈ chars ";", c ∈ symbols := List.all_iff_forall_prop.mp (by decide)

theorem symbol_of_bar : ∀ c ∈ chars "|", c ∈ symbols := List.all_iff_forall_prop.mp (by decide)

theorem symbol_of_lparen : ∀ c ∈ chars "(", c ∈ symbols := List.all_iff_forall_prop.mp (by decide)

theorem symbol_of_rparen : ∀ c ∈ chars ")", c ∈ symbols := List.all_iff_forall_prop.mp (by decide)

theorem starts_simple {redirs : List Redir} {args : List Arg} (h : EndsArgs rest) :
    starts "(" (redirs.flatMap Redir.yield ++ args.flatMap Arg.yield ++ rest) = false := by
  cases redirs with
  | nil =>
      cases args with
      | nil => exact h.starts_eq_false (List.all_iff_forall_prop.mp (by decide))
      | cons arg args => rfl
  | cons redir redirs =>
      rcases redir with ⟨direction, file⟩
      cases direction <;> rfl

mutual

theorem parseline_complete {fuel s : Nat} {rest : List Terminal} (tree : LineTree)
    (h : line.At (tree.yield ++ rest) s) (hrest : Ends ")" rest) (hbounded : tree.Bounded)
    (hfuel : 4 * tree.yield.length + 4 ≤ fuel) :
    ∃ s', parseline line fuel s = .ok (tree.cmd, s') ∧ line.At rest s' := by
  obtain ⟨fuel, rfl⟩ := Nat.exists_eq_succ_of_ne_zero (Nat.ne_of_gt (Nat.lt_of_lt_of_le (Nat.succ_pos _) hfuel))
  cases tree with
  | last pipe backs =>
      simp only [LineTree.yield, List.append_assoc, List.length_append, List.length_replicate] at h hfuel
      have hends : Ends "&;)" (List.replicate backs .amp ++ rest) := by
        cases backs with
        | zero => exact hrest.mono (List.all_iff_forall_prop.mp (by decide))
        | succ backs => exact Or.inr rfl
      obtain ⟨s1, hpipe, hat⟩ := @parsepipe_complete fuel s _ pipe h hends hbounded (by omega)
      obtain ⟨s2, hbacks, hat⟩ := @parsebacks_complete line s1 rest backs fuel pipe.cmd hat
        (hrest.starts_eq_false (List.all_iff_forall_prop.mp (by decide))) (by omega)
      obtain ⟨s3, hpeek, hat⟩ := peek_at symbol_of_semi hat
      rw [hrest.starts_eq_false (List.all_iff_forall_prop.mp (by decide))] at hpeek
      refine ⟨s3, ?_, hat⟩
      rw [parseline, bind_of_ok hpipe, bind_of_ok hbacks, bind_of_ok hpeek]
      rfl
  | more pipe backs tree =>
      simp only [LineTree.yield, List.append_assoc, List.cons_append, List.length_append, List.length_replicate,
        List.length_cons] at h hfuel
      have hends : Ends "&;)" (List.replicate backs .amp ++ .semi :: (tree.yield ++ rest)) := by
        cases backs with
        | zero => exact Or.inr rfl
        | succ backs => exact Or.inr rfl
      obtain ⟨s1, hpipe, hat⟩ := @parsepipe_complete fuel s _ pipe h hends hbounded.1 (by omega)
      obtain ⟨s2, hbacks, hat⟩ := @parsebacks_complete line s1 _ backs fuel pipe.cmd hat rfl (by omega)
      obtain ⟨s3, hpeek, hat⟩ := peek_at symbol_of_semi hat
      obtain ⟨place, s4, hget, hat, -⟩ := gettoken_at hat
      obtain ⟨s5, hline, hat⟩ := @parseline_complete fuel s4 rest tree hat hrest hbounded.2 (by omega)
      refine ⟨s5, ?_, hat⟩
      rw [parseline, bind_of_ok hpipe, bind_of_ok hbacks, bind_of_ok hpeek, if_pos (by exact rfl),
        bind_of_ok hget, bind_of_ok hline]
      rfl

theorem parsepipe_complete {fuel s : Nat} {rest : List Terminal} (tree : PipeTree)
    (h : line.At (tree.yield ++ rest) s) (hrest : Ends "&;)" rest) (hbounded : tree.Bounded)
    (hfuel : 4 * tree.yield.length + 3 ≤ fuel) :
    ∃ s', parsepipe line fuel s = .ok (tree.cmd, s') ∧ line.At rest s' := by
  obtain ⟨fuel, rfl⟩ := Nat.exists_eq_succ_of_ne_zero (Nat.ne_of_gt (Nat.lt_of_lt_of_le (Nat.succ_pos _) hfuel))
  cases tree with
  | last exec =>
      simp only [PipeTree.yield] at h hfuel
      have hends : EndsArgs rest := hrest.mono (List.all_iff_forall_prop.mp (by decide))
      obtain ⟨s1, hexec, hat⟩ := @parseexec_complete fuel s _ exec h hends hbounded (by omega)
      obtain ⟨s2, hpeek, hat⟩ := peek_at symbol_of_bar hat
      rw [hrest.starts_eq_false (List.all_iff_forall_prop.mp (by decide))] at hpeek
      refine ⟨s2, ?_, hat⟩
      rw [parsepipe, bind_of_ok hexec, bind_of_ok hpeek]
      rfl
  | more exec tree =>
      simp only [PipeTree.yield, List.append_assoc, List.cons_append, List.length_append, List.length_cons] at h hfuel
      obtain ⟨s1, hexec, hat⟩ := @parseexec_complete fuel s _ exec h (Or.inr rfl) hbounded.1 (by omega)
      obtain ⟨s2, hpeek, hat⟩ := peek_at symbol_of_bar hat
      obtain ⟨place, s3, hget, hat, -⟩ := gettoken_at hat
      obtain ⟨s4, hpipe, hat⟩ := @parsepipe_complete fuel s3 rest tree hat hrest hbounded.2 (by omega)
      refine ⟨s4, ?_, hat⟩
      rw [parsepipe, bind_of_ok hexec, bind_of_ok hpeek, if_pos (by exact rfl), bind_of_ok hget, bind_of_ok hpipe]
      rfl

theorem parseexec_complete {fuel s : Nat} {rest : List Terminal} (tree : ExecTree)
    (h : line.At (tree.yield ++ rest) s) (hrest : EndsArgs rest) (hbounded : tree.Bounded)
    (hfuel : 4 * tree.yield.length + 2 ≤ fuel) :
    ∃ s', parseexec line fuel s = .ok (tree.cmd, s') ∧ line.At rest s' := by
  obtain ⟨fuel, rfl⟩ := Nat.exists_eq_succ_of_ne_zero (Nat.ne_of_gt (Nat.lt_of_lt_of_le (Nat.succ_pos _) hfuel))
  cases tree with
  | block tree redirs =>
      simp only [ExecTree.yield, List.append_assoc, List.cons_append, List.length_append, List.length_cons] at h hfuel
      have hlength := length_le_yield redirs
      obtain ⟨fuel, rfl⟩ := Nat.exists_eq_succ_of_ne_zero (show fuel ≠ 0 by omega)
      obtain ⟨s1, hpeek, hat⟩ := peek_at symbol_of_lparen h
      obtain ⟨s2, hpeek', hat⟩ := peek_at symbol_of_lparen hat
      obtain ⟨place, s3, hget, hat, -⟩ := gettoken_at hat
      obtain ⟨s4, hline, hat⟩ := @parseline_complete fuel s3 _ tree hat (Or.inr rfl) hbounded (by omega)
      obtain ⟨s5, hpeek'', hat⟩ := peek_at symbol_of_rparen hat
      obtain ⟨place', s6, hget', hat, -⟩ := gettoken_at hat
      obtain ⟨s7, hredirs, hat⟩ := @parseredirs_complete line s6 rest redirs fuel tree.cmd hat hrest.not_redirection
        (by omega)
      refine ⟨s7, ?_, hat⟩
      rw [parseexec, bind_of_ok hpeek, if_pos (by exact rfl), parseblock, bind_of_ok hpeek', if_pos (by exact rfl),
        bind_of_ok hget, bind_of_ok hline, bind_of_ok hpeek'', if_pos (by exact rfl), bind_of_ok hget', hredirs]
      rfl
  | simple redirs args =>
      simp only [ExecTree.yield, List.length_append] at h hfuel
      have hlength := length_le_yield redirs
      obtain ⟨s1, hpeek, hat⟩ := peek_at symbol_of_lparen h
      rw [starts_simple hrest] at hpeek
      rw [List.append_assoc] at hat
      obtain ⟨s2, hredirs, hat⟩ := @parseredirs_complete line s1 _ redirs fuel (.exec []) hat (starts_args hrest)
        (by omega)
      obtain ⟨s3, hargs, hat⟩ := @parseargs_complete line s2 rest args fuel 0 redirs [] hat hrest
        (by rw [Nat.zero_add]; exact hbounded) (by omega)
      refine ⟨s3, ?_, hat⟩
      rw [parseexec, bind_of_ok hpeek, if_neg Bool.false_ne_true, bind_of_ok hredirs, hargs]
      rfl

end

def Derived {Tree : Type} (yield : Tree → List Terminal) (bounded : Tree → Prop) (cmd : Tree → Cmd) (line : Line)
    (tokens : List Terminal) (result : Cmd) (s : Nat) : Prop :=
  ∃ (tree : Tree) (rest : List Terminal), tokens = yield tree ++ rest ∧ bounded tree ∧ result = cmd tree ∧
    line.At rest s

abbrev DerivedLine : Line → List Terminal → Cmd → Nat → Prop := Derived LineTree.yield LineTree.Bounded LineTree.cmd

abbrev DerivedPipe : Line → List Terminal → Cmd → Nat → Prop := Derived PipeTree.yield PipeTree.Bounded PipeTree.cmd

abbrev DerivedExec : Line → List Terminal → Cmd → Nat → Prop := Derived ExecTree.yield ExecTree.Bounded ExecTree.cmd

section Step

variable {fuel : Nat}
  (hline : ∀ {tokens s}, line.At tokens s → 4 * tokens.length + 4 ≤ fuel →
    Sound (DerivedLine line tokens) (parseline line fuel s))
  (hpipe : ∀ {tokens s}, line.At tokens s → 4 * tokens.length + 3 ≤ fuel →
    Sound (DerivedPipe line tokens) (parsepipe line fuel s))
  (hexec : ∀ {tokens s}, line.At tokens s → 4 * tokens.length + 2 ≤ fuel →
    Sound (DerivedExec line tokens) (parseexec line fuel s))
  (hblock : ∀ {tokens s}, line.At (.lparen :: tokens) s → 4 * tokens.length + 5 ≤ fuel →
    Sound (DerivedExec line (.lparen :: tokens)) (parseblock line fuel s))

include hline hpipe in
theorem parseline_step (h : line.At tokens s) (hfuel : 4 * tokens.length + 3 ≤ fuel) :
    Sound (DerivedLine line tokens) (parseline line (fuel + 1) s) := by
  rw [parseline]
  refine (hpipe h (by omega)).bind ?_
  rintro _ s1 ⟨pipe, rest, rfl, hbounded, rfl, hat⟩
  rw [List.length_append] at hfuel
  refine (parsebacks_sound hat (by omega)).bind ?_
  rintro _ s2 ⟨backs, rest', rfl, rfl, hat'⟩
  obtain ⟨s3, hpeek, hsame⟩ := peek_at symbol_of_semi hat'
  rw [bind_of_ok hpeek]
  cases hstarts : starts ";" rest' with
  | false => exact ⟨.last pipe backs, rest', by simp [LineTree.yield], hbounded, rfl, hsame⟩
  | true =>
      obtain ⟨tokens, rfl⟩ := @exists_cons _ _ .semi _ hstarts rfl rfl (by decide)
      obtain ⟨place, s4, hget, hnext, -⟩ := gettoken_at hsame
      rw [if_pos rfl, bind_of_ok hget]
      simp only [List.length_append, List.length_replicate, List.length_cons] at hfuel
      refine (hline hnext (by omega)).bind ?_
      rintro _ s5 ⟨tree, last, rfl, hbounded', rfl, hlast⟩
      exact ⟨.more pipe backs tree, last, by simp [LineTree.yield], ⟨hbounded, hbounded'⟩, rfl, hlast⟩

include hpipe hexec in
theorem parsepipe_step (h : line.At tokens s) (hfuel : 4 * tokens.length + 2 ≤ fuel) :
    Sound (DerivedPipe line tokens) (parsepipe line (fuel + 1) s) := by
  rw [parsepipe]
  refine (hexec h (by omega)).bind ?_
  rintro _ s1 ⟨exec, rest, rfl, hbounded, rfl, hat⟩
  obtain ⟨s2, hpeek, hsame⟩ := peek_at symbol_of_bar hat
  rw [bind_of_ok hpeek]
  cases hstarts : starts "|" rest with
  | false => exact ⟨.last exec, rest, rfl, hbounded, rfl, hsame⟩
  | true =>
      obtain ⟨tokens, rfl⟩ := @exists_cons _ _ .bar _ hstarts rfl rfl (by decide)
      obtain ⟨place, s3, hget, hnext, -⟩ := gettoken_at hsame
      rw [if_pos rfl, bind_of_ok hget]
      simp only [List.length_append, List.length_cons] at hfuel
      refine (hpipe hnext (by omega)).bind ?_
      rintro _ s4 ⟨tree, last, rfl, hbounded', rfl, hlast⟩
      exact ⟨.more exec tree, last, by simp [PipeTree.yield], ⟨hbounded, hbounded'⟩, rfl, hlast⟩

include hblock in
theorem parseexec_step (h : line.At tokens s) (hfuel : 4 * tokens.length + 1 ≤ fuel) :
    Sound (DerivedExec line tokens) (parseexec line (fuel + 1) s) := by
  rw [parseexec]
  obtain ⟨s1, hpeek, hsame⟩ := peek_at symbol_of_lparen h
  rw [bind_of_ok hpeek]
  cases hstarts : starts "(" tokens with
  | true =>
      obtain ⟨tokens, rfl⟩ := @exists_cons _ _ .lparen _ hstarts rfl rfl (by decide)
      rw [List.length_cons] at hfuel
      exact hblock hsame (by omega)
  | false =>
      rw [if_neg Bool.false_ne_true]
      refine (parseredirs_sound hsame (by omega)).bind ?_
      rintro _ s2 ⟨redirs, rest, rfl, rfl, hat⟩
      rw [List.length_append] at hfuel
      refine (parseargs_sound hat (by decide) (by omega)).mono ?_
      rintro _ s3 ⟨args, last, rfl, hbounded, rfl, hlast⟩
      rw [Nat.zero_add] at hbounded
      exact ⟨.simple redirs args, last, by simp [ExecTree.yield], hbounded, rfl, hlast⟩

include hline in
theorem parseblock_step (h : line.At (.lparen :: tokens) s) (hfuel : 4 * tokens.length + 4 ≤ fuel) :
    Sound (DerivedExec line (.lparen :: tokens)) (parseblock line (fuel + 1) s) := by
  rw [parseblock]
  obtain ⟨s1, hpeek, hsame⟩ := peek_at symbol_of_lparen h
  obtain ⟨place, s2, hget, hnext, -⟩ := gettoken_at hsame
  rw [bind_of_ok hpeek, if_pos (by exact rfl), bind_of_ok hget]
  refine (hline hnext hfuel).bind ?_
  rintro _ s3 ⟨tree, rest, rfl, hbounded, rfl, hat⟩
  obtain ⟨s4, hpeek', hsame'⟩ := peek_at symbol_of_rparen hat
  rw [bind_of_ok hpeek']
  cases hstarts : starts ")" rest with
  | false => exact trivial
  | true =>
      obtain ⟨tokens, rfl⟩ := @exists_cons _ _ .rparen _ hstarts rfl rfl (by decide)
      obtain ⟨place', s5, hget', hnext', -⟩ := gettoken_at hsame'
      rw [if_pos rfl, bind_of_ok hget']
      simp only [List.length_append, List.length_cons] at hfuel
      refine (parseredirs_sound hnext' (by omega)).mono ?_
      rintro _ s6 ⟨redirs, last, rfl, rfl, hlast⟩
      exact ⟨.block tree redirs, last, by simp [ExecTree.yield], hbounded, rfl, hlast⟩

end Step

theorem parse_sound (fuel : Nat) :
    (∀ {tokens s}, line.At tokens s → 4 * tokens.length + 4 ≤ fuel →
      Sound (DerivedLine line tokens) (parseline line fuel s)) ∧
    (∀ {tokens s}, line.At tokens s → 4 * tokens.length + 3 ≤ fuel →
      Sound (DerivedPipe line tokens) (parsepipe line fuel s)) ∧
    (∀ {tokens s}, line.At tokens s → 4 * tokens.length + 2 ≤ fuel →
      Sound (DerivedExec line tokens) (parseexec line fuel s)) ∧
    ∀ {tokens s}, line.At (.lparen :: tokens) s → 4 * tokens.length + 5 ≤ fuel →
      Sound (DerivedExec line (.lparen :: tokens)) (parseblock line fuel s) := by
  induction fuel with
  | zero =>
      refine ⟨fun _ hfuel => ?_, fun _ hfuel => ?_, fun _ hfuel => ?_, fun _ hfuel => ?_⟩
      all_goals omega
  | succ fuel ih =>
      obtain ⟨hline, hpipe, hexec, hblock⟩ := ih
      exact ⟨fun h hfuel => parseline_step hline hpipe h (by omega),
        fun h hfuel => parsepipe_step hpipe hexec h (by omega),
        fun h hfuel => parseexec_step hblock h (by omega),
        fun h hfuel => parseblock_step hline h (by omega)⟩

end Xv6.Sh
