import Mathlib.Data.List.Basic
import Xv6.Sh.RunCmd

/-!
# In which order redirections are opened

`parseredirs` wraps a command in its redirections as it finds them, and `runcmd` takes them off from the outside: what
is written last is opened first, and what is written first is in effect in the end.
-/

namespace Xv6.Sh

variable {string : Nat → List UInt8}

/-- The two descriptors that are redirected are in use, as the shell's `main` sees to. -/
def Table.InUse (table : Table) : Prop := table 0 ≠ none ∧ table 1 ≠ none

/-! ### One redirection -/

section Table

variable {table : Table} {fd : Nat}

theorem free_eq_some (hfd : fd < nofile) (hnone : table fd = none) (hlow : ∀ low < fd, table low ≠ none) :
    table.free = some fd := by
  refine List.find?_range_eq_some.mpr ⟨?_, List.mem_range.mpr hfd, ?_⟩
  · rw [hnone]
    rfl
  · intro low hlt
    simpa [Option.isSome_iff_ne_none] using hlow low hlt

theorem Table.InUse.free_close (h : table.InUse) (hfd : fd < 2) : Table.free (Function.update table fd none) = some fd := by
  refine free_eq_some (by unfold nofile; omega) (Function.update_self ..) ?_
  intro low hlt
  obtain rfl : low = 0 := by omega
  rw [Function.update_of_ne (by omega)]
  exact h.1

theorem Table.InUse.update (h : table.InUse) (file : File) : Table.InUse (Function.update table fd (some file)) := by
  constructor
  · by_cases hfd : fd = 0
    · rw [hfd, Function.update_self]
      exact Option.some_ne_none file
    · rw [Function.update_of_ne (Ne.symm hfd)]
      exact h.1
  · by_cases hfd : fd = 1
    · rw [hfd, Function.update_self]
      exact Option.some_ne_none file
    · rw [Function.update_of_ne (Ne.symm hfd)]
      exact h.2

end Table

theorem runcmd_redir (cmd : Cmd) (file : Word) (mode fd : Nat) :
    runcmd string (.redir cmd file mode fd) = .call (Sys.close fd : sys.Op) fun _ =>
      .call (Sys.openFile (string file.start) mode : sys.Op) fun (opened : Option Nat) =>
        if opened = none then
          (do fprintf (chars "open " ++ string file.start ++ chars " failed\n"); exit 1)
        else
          .ret cmd := rfl

theorem run_fprintf_exit {text : List UInt8} {status : Nat} {table table' : Table} {openings : List (List UInt8 × Nat)}
    {code : Code Cmd} (h : Run (do fprintf text; exit status) table openings code table') :
    openings = [] ∧ ∀ next, code ≠ .ret next := by
  change Run (.call (Sys.fprintf text : sys.Op) fun _ => exit status) table openings code table' at h
  cases h with
  | refl => exact ⟨rfl, fun _ heq => by cases heq⟩
  | call _ hrest =>
      cases hrest with
      | refl => exact ⟨rfl, fun _ heq => by cases heq⟩
      | call hexit _ => cases hexit

theorem run_redir {cmd : Cmd} {file : Word} {mode fd : Nat} {table table' : Table}
    {openings : List (List UInt8 × Nat)} {code : Code Cmd} (huse : table.InUse) (hfd : fd < 2)
    (h : Run (runcmd string (.redir cmd file mode fd)) table openings code table') :
    openings <+: [(string file.start, mode)] ∧ ∀ next, code = .ret next →
      next = cmd ∧ openings = [(string file.start, mode)] ∧
        table' = Function.update table fd (some (.path (string file.start) mode)) := by
  rw [runcmd_redir] at h
  cases h with
  | refl => exact ⟨List.nil_prefix, fun _ heq => by cases heq⟩
  | call hclose hrest =>
      obtain ⟨-, rfl⟩ := Prod.mk.inj (Option.some.inj hclose)
      cases hrest with
      | refl => exact ⟨List.nil_prefix, fun _ heq => by cases heq⟩
      | @call _ _ _ _ _ choice resp _ _ hopen hrest =>
          have halloc : Table.alloc (Function.update table fd none) (.path (string file.start) mode) =
              some (fd, Function.update table fd (some (.path (string file.start) mode))) := by
            rw [Table.alloc, huse.free_close hfd, Option.map_some, Function.update_idem]
          rw [handler, halloc] at hopen
          by_cases hchoice : choice = 0
          · rw [if_pos hchoice] at hopen
            obtain ⟨rfl, rfl⟩ := Prod.mk.inj (Option.some.inj hopen)
            obtain ⟨rfl, hne⟩ := run_fprintf_exit hrest
            exact ⟨List.prefix_rfl, fun next heq => absurd heq (hne next)⟩
          · rw [if_neg hchoice] at hopen
            obtain ⟨rfl, rfl⟩ := Prod.mk.inj (Option.some.inj hopen)
            cases hrest with
            | refl =>
                refine ⟨List.prefix_rfl, ?_⟩
                intro next heq
                exact ⟨(Program.ret.inj heq).symm, rfl, rfl⟩

theorem run_redir_opens {cmd : Cmd} {file : Word} {mode fd : Nat} {table : Table} (huse : table.InUse) (hfd : fd < 2) :
    Run (runcmd string (.redir cmd file mode fd)) table [(string file.start, mode)] (.ret cmd)
      (Function.update table fd (some (.path (string file.start) mode))) := by
  have halloc : Table.alloc (Function.update table fd none) (.path (string file.start) mode) =
      some (fd, Function.update table fd (some (.path (string file.start) mode))) := by
    rw [Table.alloc, huse.free_close hfd, Option.map_some, Function.update_idem]
  have hopen : handler () (Function.update table fd none) (.openFile (string file.start) mode) 1 =
      some (some fd, Function.update table fd (some (.path (string file.start) mode))) := by
    rw [handler, halloc]
    rfl
  rw [runcmd_redir]
  exact @Run.call (.close fd) _ _ _ _ 0 _ _ _ rfl
    (@Run.call (.openFile (string file.start) mode) _ _ _ _ 1 _ _ _ hopen (.refl _ _))

/-! ### All redirections of a command -/

section Wrapped

def Redir.opening (string : Nat → List UInt8) (redir : Redir) : List UInt8 × Nat :=
  (string redir.file.start, redir.direction.mode)

def Redir.opened (string : Nat → List UInt8) (redir : Redir) : File :=
  .path (string redir.file.start) redir.direction.mode

def Table.redirect (string : Nat → List UInt8) (table : Table) (redirs : List Redir) : Table :=
  redirs.foldl (fun table redir => Function.update table redir.direction.fd (some (redir.opened string))) table

def wrapped (redirs : List Redir) (cmd : Cmd) : Cmd := redirs.foldr (fun redir cmd => redir.wrap cmd) cmd

variable {table table' : Table} {cmd cmd' : Cmd} {openings : List (List UInt8 × Nat)} {n : Nat}

theorem Direction.fd_lt (direction : Direction) : direction.fd < 2 := by
  cases direction <;> decide

theorem Table.InUse.redirect (h : table.InUse) (redirs : List Redir) : (table.redirect string redirs).InUse := by
  induction redirs generalizing table with
  | nil => exact h
  | cons redir redirs ih => exact ih (h.update _)

theorem executes_wrapped {redirs : List Redir} (huse : table.InUse)
    (h : Executes string n (wrapped redirs cmd) table openings cmd' table') (hn : n ≤ redirs.length) :
    openings = (redirs.take n).map (Redir.opening string) ∧ cmd' = wrapped (redirs.drop n) cmd ∧
      table' = table.redirect string (redirs.take n) := by
  induction n generalizing redirs table openings with
  | zero =>
      cases h with
      | refl => exact ⟨rfl, rfl, rfl⟩
  | succ n ih =>
      cases redirs with
      | nil => exact absurd hn (Nat.not_succ_le_zero n)
      | cons redir redirs =>
          cases h with
          | call hrun hrest =>
              obtain ⟨-, hret⟩ := run_redir huse redir.direction.fd_lt hrun
              obtain ⟨rfl, rfl, rfl⟩ := hret _ rfl
              obtain ⟨rfl, rfl, rfl⟩ := ih (huse.update _) hrest (Nat.le_of_succ_le_succ hn)
              exact ⟨rfl, rfl, rfl⟩

theorem executes_opens (redirs : List Redir) (cmd : Cmd) (huse : table.InUse) :
    Executes string redirs.length (wrapped redirs cmd) table (redirs.map (Redir.opening string)) cmd
      (table.redirect string redirs) := by
  induction redirs generalizing table with
  | nil => exact .refl cmd table
  | cons redir redirs ih => exact .call (run_redir_opens huse redir.direction.fd_lt) (ih (huse.update _))

theorem openings_prefix {redirs : List Redir} {openings' : List (List UInt8 × Nat)} {code : Code Cmd}
    {table'' : Table} (huse : table.InUse)
    (h : Executes string n (wrapped redirs cmd) table openings cmd' table') (hn : n < redirs.length)
    (hrun : Run (runcmd string cmd') table' openings' code table'') :
    openings ++ openings' <+: redirs.map (Redir.opening string) := by
  obtain ⟨rfl, rfl, rfl⟩ := executes_wrapped huse h (Nat.le_of_lt hn)
  obtain ⟨redir, rest, hdrop⟩ : ∃ redir rest, redirs.drop n = redir :: rest :=
    List.exists_cons_of_ne_nil fun hnil => by
      have hle := List.drop_eq_nil_iff.mp hnil
      omega
  rw [hdrop] at hrun
  obtain ⟨hopened, -⟩ := run_redir (huse.redirect _) redir.direction.fd_lt hrun
  have hsplit : redirs.map (Redir.opening string) =
      (redirs.take n).map (Redir.opening string) ++ (redir.opening string :: rest.map (Redir.opening string)) := by
    rw [← List.map_cons, ← hdrop, ← List.map_append, List.take_append_drop]
  rw [hsplit]
  refine (List.prefix_append_right_inj _).mpr (hopened.trans ?_)
  exact ⟨rest.map (Redir.opening string), rfl⟩

theorem redirect_apply (redirs : List Redir) (table : Table) (fd : Nat) :
    table.redirect string redirs fd =
      (((redirs.filter fun redir => redir.direction.fd = fd).getLast?).map (Redir.opened string)).or (table fd) := by
  induction redirs using List.reverseRecOn with
  | nil => rfl
  | append_singleton redirs redir ih =>
      rw [Table.redirect, List.foldl_append, List.filter_append]
      change Function.update (table.redirect string redirs) redir.direction.fd (some (redir.opened string)) fd = _
      by_cases hfd : redir.direction.fd = fd
      · have hone : [redir].filter (fun redir => redir.direction.fd = fd) = [redir] := by simp [hfd]
        rw [hone, List.getLast?_append, hfd, Function.update_self]
        rfl
      · have hnone : [redir].filter (fun redir => redir.direction.fd = fd) = [] := by simp [hfd]
        rw [hnone, List.append_nil, Function.update_of_ne (Ne.symm hfd), ih]

end Wrapped

/-! ### Left to right -/

/-- The command or the block without its redirections. -/
def ExecTree.inner : ExecTree → Cmd
  | .block line _ => line.cmd
  | .simple _ args => .exec (args.map Arg.word)

def Line.redirection (line : Line) (redir : Redir) : Direction × List UInt8 :=
  (redir.direction, line.text redir.file)

def Line.opening (line : Line) (redir : Redir) : List UInt8 × Nat := (line.text redir.file, redir.direction.mode)

def Line.opened (line : Line) (redir : Redir) : File := .path (line.text redir.file) redir.direction.mode

def ExecTree.redirsOf (tree : ExecTree) (fd : Nat) : List Redir :=
  tree.redirs.filter fun redir => redir.direction.fd = fd

/-- Executing the command or the block opens the files in the order they are written. When it runs, the last
redirection of each descriptor is in effect, and one of its own, whatever the table was outside. -/
structure LeftToRight (line : Line) (string : Nat → List UInt8) (tree : ExecTree) : Prop where
  order : ∀ {n table openings cmd table' openings' code table''}, table.InUse → n < tree.redirs.length →
    Executes string n tree.cmd table openings cmd table' → Run (runcmd string cmd) table' openings' code table'' →
      openings ++ openings' <+: tree.redirs.map line.opening
  effect : ∀ {table openings cmd table'}, table.InUse →
    Executes string tree.redirs.length tree.cmd table openings cmd table' →
      cmd = tree.inner ∧ openings = tree.redirs.map line.opening ∧
        ∀ fd, table' fd = ((tree.redirsOf fd).getLast?.map line.opened).or (table fd)
  inside : ∀ {table openings cmd table'}, table.InUse →
    Executes string tree.redirs.length tree.cmd table openings cmd table' → ∀ redir ∈ tree.redirs,
      ∃ own ∈ tree.redirsOf redir.direction.fd, table' redir.direction.fd = some (line.opened own)

section LeftToRight

variable {line : Line} {tree : ExecTree}

theorem ExecTree.cmd_eq (tree : ExecTree) : tree.cmd = wrapped tree.redirs.reverse tree.inner := by
  have hfold : ∀ (redirs : List Redir) (cmd : Cmd), redirs.foldl Redir.wrap cmd = wrapped redirs.reverse cmd :=
    fun redirs cmd => List.foldl_eq_foldr_reverse
  cases tree with
  | block line redirs => exact hfold redirs line.cmd
  | simple redirs args => exact hfold _ _

theorem redirect_reverse_apply (tree : ExecTree) (table : Table) (fd : Nat) :
    table.redirect string tree.redirs.reverse fd =
      ((tree.redirsOf fd).head?.map (Redir.opened string)).or (table fd) := by
  rw [redirect_apply, List.filter_reverse, List.getLast?_reverse]
  rfl

theorem head?_filter_of_reverse {α β : Type} {f : α → β} {p : α → Bool} {q : β → Bool} {list : List α}
    (h : (list.map f).reverse = list.map f) (hp : ∀ a, q (f a) = p a) :
    (list.filter p).head?.map f = (list.filter p).getLast?.map f := by
  have hfilter : (list.map f).filter q = (list.filter p).map f := by
    rw [List.filter_map]
    exact congrArg _ (congrFun (congrArg _ (funext hp)) list)
  have hreverse : ((list.filter p).map f).reverse = (list.filter p).map f := by
    rw [← hfilter, ← List.filter_reverse, h]
  calc
    (list.filter p).head?.map f = ((list.filter p).map f).head? := List.head?_map.symm
    _ = ((list.filter p).map f).reverse.getLast? := List.getLast?_reverse.symm
    _ = ((list.filter p).map f).getLast? := by rw [hreverse]
    _ = (list.filter p).getLast?.map f := List.getLast?_map

theorem mode_injective : Function.Injective Direction.mode := by
  intro direction other h
  cases direction <;> cases other <;> first | rfl | exact absurd h (by decide)

theorem leftToRight_iff_reverse (hstring : ∀ redir ∈ tree.redirs, string redir.file.start = line.text redir.file) :
    LeftToRight line string tree ↔
      (tree.redirs.map line.redirection).reverse = tree.redirs.map line.redirection := by
  have hopening : tree.redirs.map (Redir.opening string) = tree.redirs.map line.opening :=
    List.map_congr_left fun redir hredir => Prod.ext (hstring redir hredir) rfl
  have hopened : ∀ redir ∈ tree.redirs, redir.opened string = line.opened redir := by
    intro redir hredir
    rw [Redir.opened, hstring redir hredir]
    rfl
  have hall : tree.redirs.reverse.take tree.redirs.length = tree.redirs.reverse :=
    List.take_of_length_le (Nat.le_of_eq List.length_reverse)
  have hfirst : ∀ (table : Table) fd, table.redirect string tree.redirs.reverse fd =
      ((tree.redirsOf fd).head?.map line.opened).or (table fd) := by
    intro table fd
    rw [redirect_reverse_apply]
    congr 1
    cases hhead : (tree.redirsOf fd).head? with
    | none => rfl
    | some redir =>
        exact congrArg some (hopened redir (List.mem_filter.mp (List.mem_of_head? hhead)).1)
  have hend : ∀ {table openings cmd table'}, table.InUse →
      Executes string tree.redirs.length tree.cmd table openings cmd table' →
        cmd = tree.inner ∧ openings = (tree.redirs.map line.opening).reverse ∧
          table' = table.redirect string tree.redirs.reverse := by
    intro table openings cmd table' huse hexec
    rw [tree.cmd_eq] at hexec
    obtain ⟨rfl, rfl, rfl⟩ := executes_wrapped huse hexec (Nat.le_of_eq List.length_reverse.symm)
    rw [hall, List.map_reverse, hopening, List.drop_of_length_le (Nat.le_of_eq List.length_reverse)]
    exact ⟨rfl, rfl, rfl⟩
  constructor
  · intro h
    have huse : Table.InUse fun _ => some (.pipe false) := ⟨Option.some_ne_none _, Option.some_ne_none _⟩
    have hexec := @executes_opens string _ tree.redirs.reverse tree.inner huse
    rw [← tree.cmd_eq, List.length_reverse] at hexec
    obtain ⟨-, hwritten, -⟩ := h.effect huse hexec
    rw [List.map_reverse, hopening] at hwritten
    have hsplit : tree.redirs.map line.opening =
        (tree.redirs.map line.redirection).map fun redir => (redir.2, redir.1.mode) := by
      rw [List.map_map]
      rfl
    rw [hsplit, ← List.map_reverse] at hwritten
    refine List.map_injective_iff.mpr ?_ hwritten
    intro redir other heq
    exact Prod.ext (mode_injective (congrArg Prod.snd heq)) (congrArg Prod.fst heq)
  · intro h
    have hreverse : (tree.redirs.map line.opening).reverse = tree.redirs.map line.opening := by
      have hmap := congrArg (List.map fun redir : Direction × List UInt8 => (redir.2, redir.1.mode)) h
      rw [List.map_reverse, List.map_map] at hmap
      exact hmap
    refine ⟨?_, ?_, ?_⟩
    · intro n table openings cmd table' openings' code table'' huse hn hexec hrun
      rw [tree.cmd_eq] at hexec
      have hopened := openings_prefix huse hexec (by rwa [List.length_reverse]) hrun
      rwa [List.map_reverse, hopening, hreverse] at hopened
    · intro table openings cmd table' huse hexec
      obtain ⟨hcmd, hopenings, rfl⟩ := hend huse hexec
      refine ⟨hcmd, hopenings.trans hreverse, fun fd => ?_⟩
      have hends := @head?_filter_of_reverse _ _ line.redirection (fun redir => decide (redir.direction.fd = fd))
        (fun redir => decide (redir.1.fd = fd)) tree.redirs h fun _ => rfl
      have hfile := congrArg (Option.map fun redir : Direction × List UInt8 => File.path redir.2 redir.1.mode) hends
      rw [Option.map_map, Option.map_map] at hfile
      rw [hfirst]
      exact congrArg (fun file => Option.or file (table fd)) hfile
    · intro table openings cmd table' huse hexec redir hredir
      obtain ⟨-, -, rfl⟩ := hend huse hexec
      have hmem : redir ∈ tree.redirsOf redir.direction.fd :=
        List.mem_filter.mpr ⟨hredir, decide_eq_true rfl⟩
      rw [hfirst]
      cases hhead : (tree.redirsOf redir.direction.fd).head? with
      | none =>
          rw [List.head?_eq_none_iff.mp hhead] at hmem
          exact absurd hmem List.not_mem_nil
      | some own => exact ⟨own, List.mem_of_head? hhead, rfl⟩

end LeftToRight

/-! ### The commands of a line -/

mutual

/-- The simple commands and the blocks of a line. -/
def LineTree.execs : LineTree → List ExecTree
  | .last pipe _ => pipe.execs
  | .more pipe _ rest => pipe.execs ++ rest.execs

def PipeTree.execs : PipeTree → List ExecTree
  | .last exec => exec.execs
  | .more exec rest => exec.execs ++ rest.execs

def ExecTree.execs : ExecTree → List ExecTree
  | .block line redirs => .block line redirs :: line.execs
  | .simple redirs args => [.simple redirs args]

end

mutual

theorem LineTree.words_of_mem {exec : ExecTree} {word : Word} (tree : LineTree) (h : exec ∈ tree.execs)
    (hword : word ∈ exec.cmd.words) : word ∈ tree.cmd.words := by
  cases tree with
  | last pipe backs =>
      rw [LineTree.cmd, words_back]
      exact pipe.words_of_mem h hword
  | more pipe backs tree =>
      rw [LineTree.cmd, Cmd.words, words_back]
      rcases List.mem_append.mp h with h | h
      · exact List.mem_append_left _ (pipe.words_of_mem h hword)
      · exact List.mem_append_right _ (tree.words_of_mem h hword)

theorem PipeTree.words_of_mem {exec : ExecTree} {word : Word} (tree : PipeTree) (h : exec ∈ tree.execs)
    (hword : word ∈ exec.cmd.words) : word ∈ tree.cmd.words := by
  cases tree with
  | last other => exact ExecTree.words_of_mem other h hword
  | more other tree =>
      rcases List.mem_append.mp h with h | h
      · exact List.mem_append_left _ (ExecTree.words_of_mem other h hword)
      · exact List.mem_append_right _ (tree.words_of_mem h hword)

theorem ExecTree.words_of_mem {exec : ExecTree} {word : Word} (tree : ExecTree) (h : exec ∈ tree.execs)
    (hword : word ∈ exec.cmd.words) : word ∈ tree.cmd.words := by
  cases tree with
  | block tree redirs =>
      rcases List.mem_cons.mp h with rfl | h
      · exact hword
      · exact (words_wrap redirs tree.cmd).mpr (Or.inr (tree.words_of_mem h hword))
  | simple redirs args =>
      rw [List.mem_singleton.mp h] at hword
      exact hword

end

theorem ExecTree.file_mem_words (tree : ExecTree) {redir : Redir} (h : redir ∈ tree.redirs) :
    redir.file ∈ tree.cmd.words := by
  have hfile := List.mem_map_of_mem (f := Redir.file) h
  cases tree with
  | block line redirs => exact (words_wrap _ _).mpr (Or.inl hfile)
  | simple redirs args => exact (words_wrap _ _).mpr (Or.inl hfile)

theorem string_eq_text {line : Line} {cmd : Cmd} {mem : Nat → UInt8} {tree : LineTree} {exec : ExecTree}
    (hparse : parsecmd line = .ok (cmd, mem)) (htree : line.Derives tree) (hexec : exec ∈ tree.execs) :
    ∀ redir ∈ exec.redirs, line.string mem redir.file.start = line.text redir.file := by
  have hresult := Except.ok.inj (hparse.symm.trans (parsecmd_complete htree))
  obtain ⟨rfl, rfl⟩ := Prod.mk.inj hresult
  intro redir hredir
  exact (terminated_of_derives htree).string _ (tree.words_of_mem hexec (exec.file_mem_words hredir))

/-- **Redirections of the shell.** Those of a command or block of a parsed line apply left to right exactly where they
read the same from right to left, as where there is one only. -/
theorem leftToRight_iff {line : Line} {cmd : Cmd} {mem : Nat → UInt8} {tree : LineTree} {exec : ExecTree}
    (hparse : parsecmd line = .ok (cmd, mem)) (htree : line.Derives tree) (hexec : exec ∈ tree.execs) :
    LeftToRight line (line.string mem) exec ↔
      (exec.redirs.map line.redirection).reverse = exec.redirs.map line.redirection :=
  leftToRight_iff_reverse (string_eq_text hparse htree hexec)

/-- `c>a>b`. -/
def twice : Line where
  bytes := chars "c>a>b"
  zero_notMem := by decide

def twiceExec : ExecTree := .simple [] [⟨⟨0, 1⟩, [⟨.greater, ⟨2, 3⟩⟩, ⟨.greater, ⟨4, 5⟩⟩]⟩]

theorem derives_twice : twice.Derives (.last (.last twiceExec) 0) where
  yield := by
    have htokens : twice.tokens =
        [.word ⟨0, 1⟩, .greater, .word ⟨2, 3⟩, .greater, .word ⟨4, 5⟩] := by
      have hbytes : twice.bytes = [99, 62, 97, 62, 98] := rfl
      rw [Line.tokens, hbytes, lex_word (by decide)]
      change _ :: lex 1 [62, 97, 62, 98] = _
      rw [lex_symbol (by decide) (by decide), lex_word (by decide)]
      change _ :: _ :: _ :: lex 3 [62, 98] = _
      rw [lex_symbol (by decide) (by decide), lex_word (by decide)]
      change _ :: _ :: _ :: _ :: _ :: lex 5 [] = _
      rw [lex]
      rfl
    rw [htokens]
    rfl
  bounded := by
    change 1 < maxArgs
    decide

/-- The first of two files is written to. -/
theorem not_leftToRight_twice : ∃ cmd mem, parsecmd twice = .ok (cmd, mem) ∧
    ¬LeftToRight twice (twice.string mem) twiceExec := by
  have hstring := string_eq_text (parsecmd_complete derives_twice) derives_twice
    (show twiceExec ∈ _ from List.mem_cons_self)
  refine ⟨_, _, parsecmd_complete derives_twice, fun h => ?_⟩
  exact absurd ((leftToRight_iff_reverse hstring).mp h) (by decide)

theorem leftToRight_iff_twice : ∃ cmd mem, parsecmd twice = .ok (cmd, mem) ∧
    (LeftToRight twice (twice.string mem) twiceExec ↔
      (twiceExec.redirs.map twice.redirection).reverse = twiceExec.redirs.map twice.redirection) :=
  ⟨_, _, parsecmd_complete derives_twice,
    leftToRight_iff (parsecmd_complete derives_twice) derives_twice List.mem_cons_self⟩

end Xv6.Sh
