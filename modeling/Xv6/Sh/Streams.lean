import Xv6.Sh.Redirections

/-!
# What the commands of a line read and write

`runcmd` forks, connects its children by pipes and redirects what they read and write. What comes of it can be read off
the line: each simple command has one place, with the file it reads and the file it writes to, and all other descriptors
are as the shell has them, so that nobody keeps an end of a pipe open that is not his.
-/

namespace Xv6.Sh

/-- The files at the two descriptors. -/
@[ext]
structure Streams where
  input : File
  output : File
  deriving DecidableEq

/-- A simple command that is executed: its words, what it reads and what it writes to. -/
structure Stage where
  words : List (List UInt8)
  streams : Streams
  deriving DecidableEq

/-! ### What a line says -/

def Streams.redirected (line : Line) (redirs : List Redir) (streams : Streams) : Streams where
  input := ((redirs.find? fun redir => redir.direction.fd = 0).map line.opened).getD streams.input
  output := ((redirs.find? fun redir => redir.direction.fd = 1).map line.opened).getD streams.output

mutual

/-- The simple commands of a line, from left to right. -/
def LineTree.stages (line : Line) : LineTree → Streams → List Stage
  | .last pipe _, streams => pipe.stages line streams
  | .more pipe _ rest, streams => pipe.stages line streams ++ rest.stages line streams

def PipeTree.stages (line : Line) : PipeTree → Streams → List Stage
  | .last exec, streams => exec.stages line streams
  | .more exec rest, streams =>
      exec.stages line ⟨streams.input, .pipe true⟩ ++ rest.stages line ⟨.pipe false, streams.output⟩

def ExecTree.stages (line : Line) : ExecTree → Streams → List Stage
  | .block body redirs, streams => body.stages line (streams.redirected line redirs)
  | .simple redirs args, streams =>
      [⟨args.map fun arg => line.text arg.word, streams.redirected line (redirs ++ args.flatMap Arg.redirs)⟩]

end

/-! ### What a tree says -/

section Cmd

def Streams.redirect (streams : Streams) (fd : Nat) (file : File) : Streams where
  input := if fd = 0 then file else streams.input
  output := if fd = 1 then file else streams.output

/-- The calls of `runcmd` for the commands of a node. -/
def Cmd.nexts (string : Nat → List UInt8) : Cmd → Streams → List (Cmd × Streams)
  | .exec _, _ => []
  | .redir cmd file mode fd, streams => [(cmd, streams.redirect fd (.path (string file.start) mode))]
  | .pipe left right, streams => [(left, ⟨streams.input, .pipe true⟩), (right, ⟨.pipe false, streams.output⟩)]
  | .list left right, streams => [(left, streams), (right, streams)]
  | .back cmd, streams => [(cmd, streams)]

def Cmd.stages (string : Nat → List UInt8) : Cmd → Streams → List Stage
  | .exec argv, streams => [⟨argv.map fun arg => string arg.start, streams⟩]
  | .redir cmd file mode fd, streams => cmd.stages string (streams.redirect fd (.path (string file.start) mode))
  | .pipe left right, streams =>
      left.stages string ⟨streams.input, .pipe true⟩ ++ right.stages string ⟨.pipe false, streams.output⟩
  | .list left right, streams => left.stages string streams ++ right.stages string streams
  | .back cmd, streams => cmd.stages string streams

variable {string : Nat → List UInt8} {cmd next : Cmd} {streams streams' : Streams} {stage : Stage}

theorem stages_of_nexts (hnext : (next, streams') ∈ cmd.nexts string streams) (h : stage ∈ next.stages string streams') :
    stage ∈ cmd.stages string streams := by
  cases cmd with
  | exec argv => exact absurd hnext List.not_mem_nil
  | redir cmd file mode fd =>
      obtain ⟨rfl, rfl⟩ := Prod.mk.inj (List.mem_singleton.mp hnext)
      exact h
  | back cmd =>
      obtain ⟨rfl, rfl⟩ := Prod.mk.inj (List.mem_singleton.mp hnext)
      exact h
  | pipe left right | list left right =>
      rcases List.mem_pair.mp hnext with heq | heq
      · obtain ⟨rfl, rfl⟩ := Prod.mk.inj heq
        exact List.mem_append_left _ h
      · obtain ⟨rfl, rfl⟩ := Prod.mk.inj heq
        exact List.mem_append_right _ h

theorem stages_wrap {line : Line} (redirs : List Redir) (hstring : ∀ redir ∈ redirs, redir.opened string = line.opened redir) :
    (redirs.foldl Redir.wrap cmd).stages string streams = cmd.stages string (streams.redirected line redirs) := by
  induction redirs generalizing cmd with
  | nil => rfl
  | cons redir redirs ih =>
      rw [List.foldl_cons, ih fun other hother => hstring other (List.mem_cons_of_mem _ hother)]
      have hone : redir.opened string = line.opened redir := hstring redir List.mem_cons_self
      change cmd.stages string ((streams.redirected line redirs).redirect redir.direction.fd (redir.opened string)) = _
      rw [hone]
      congr 1
      unfold Streams.redirected Streams.redirect
      ext1
      · by_cases hfd : redir.direction.fd = 0 <;> simp [hfd]
      · by_cases hfd : redir.direction.fd = 1 <;> simp [hfd]

theorem stages_back (backs : Nat) : (Cmd.back^[backs] cmd).stages string streams = cmd.stages string streams := by
  induction backs with
  | zero => rfl
  | succ backs ih =>
      rw [Function.iterate_succ_apply']
      exact ih

end Cmd

section Trees

variable {string : Nat → List UInt8} {line : Line}

def Reads (line : Line) (string : Nat → List UInt8) (cmd : Cmd) : Prop :=
  ∀ word ∈ cmd.words, string word.start = line.text word

theorem Reads.wrap {cmd : Cmd} {redirs : List Redir} (h : Reads line string (redirs.foldl Redir.wrap cmd)) :
    (∀ redir ∈ redirs, redir.opened string = line.opened redir) ∧ Reads line string cmd := by
  constructor
  · intro redir hredir
    have hfile := h redir.file ((words_wrap redirs cmd).mpr (Or.inl (List.mem_map_of_mem hredir)))
    rw [Redir.opened, hfile]
    rfl
  · exact fun word hword => h word ((words_wrap redirs cmd).mpr (Or.inr hword))

theorem Reads.back {cmd : Cmd} {backs : Nat} (h : Reads line string (Cmd.back^[backs] cmd)) : Reads line string cmd := by
  unfold Reads at h
  rwa [words_back] at h

theorem Reads.append {left right cmd : Cmd} (h : Reads line string cmd) (hwords : cmd.words = left.words ++ right.words) :
    Reads line string left ∧ Reads line string right := by
  unfold Reads at h
  rw [hwords] at h
  exact ⟨fun word hword => h word (List.mem_append_left _ hword), fun word hword => h word (List.mem_append_right _ hword)⟩

mutual

theorem LineTree.stages_cmd (tree : LineTree) (hreads : Reads line string tree.cmd) (streams : Streams) :
    tree.cmd.stages string streams = tree.stages line streams := by
  cases tree with
  | last pipe backs =>
      rw [LineTree.cmd, stages_back]
      exact pipe.stages_cmd hreads.back streams
  | more pipe backs rest =>
      obtain ⟨hpipe, hrest⟩ := hreads.append rfl
      rw [LineTree.cmd, Cmd.stages, stages_back, pipe.stages_cmd hpipe.back streams, rest.stages_cmd hrest streams]
      rfl

theorem PipeTree.stages_cmd (tree : PipeTree) (hreads : Reads line string tree.cmd) (streams : Streams) :
    tree.cmd.stages string streams = tree.stages line streams := by
  cases tree with
  | last exec => exact exec.stages_cmd hreads streams
  | more exec rest =>
      obtain ⟨hexec, hrest⟩ := hreads.append rfl
      rw [PipeTree.cmd, Cmd.stages, exec.stages_cmd hexec, rest.stages_cmd hrest]
      rfl

theorem ExecTree.stages_cmd (tree : ExecTree) (hreads : Reads line string tree.cmd) (streams : Streams) :
    tree.cmd.stages string streams = tree.stages line streams := by
  cases tree with
  | block body redirs =>
      obtain ⟨hredirs, hbody⟩ := hreads.wrap
      rw [ExecTree.cmd, stages_wrap redirs hredirs, body.stages_cmd hbody]
      rfl
  | simple redirs args =>
      obtain ⟨hredirs, hargs⟩ := hreads.wrap
      rw [ExecTree.cmd, stages_wrap _ hredirs, Cmd.stages, List.map_map]
      have hwords : args.map ((fun arg : Word => string arg.start) ∘ Arg.word) = args.map fun arg => line.text arg.word :=
        List.map_congr_left fun arg harg => hargs arg.word (List.mem_map_of_mem harg)
      rw [hwords]
      rfl

end

end Trees

/-! ### The calls of `runcmd` -/

section Calls

variable {table table' : Table} {cmd : Cmd}

def Calls (code : Code Cmd) (table : Table) (cmd : Cmd) (table' : Table) : Prop :=
  ∃ openings, Run code table openings (.ret cmd) table'

theorem calls_call {op : Sys} {next : op.Resp → Code Cmd} :
    Calls (.call (op : sys.Op) next) table cmd table' ↔
      ∃ choice resp mid, handler () table op choice = some (resp, mid) ∧ Calls (next resp) mid cmd table' := by
  constructor
  · rintro ⟨openings, hrun⟩
    cases hrun with
    | call hop hrest => exact ⟨_, _, _, hop, _, hrest⟩
  · rintro ⟨choice, resp, mid, hop, openings, hrest⟩
    exact ⟨_, .call hop hrest⟩

theorem calls_unit {op : Sys} {next : op.Resp → Code Cmd} {resp : op.Resp} {mid : Table}
    (hop : ∀ choice, handler () table op choice = some (resp, mid)) :
    Calls (.call (op : sys.Op) next) table cmd table' ↔ Calls (next resp) mid cmd table' := by
  rw [calls_call]
  constructor
  · rintro ⟨choice, resp', mid', heq, h⟩
    obtain ⟨rfl, rfl⟩ := Prod.mk.inj (Option.some.inj ((hop choice).symm.trans heq))
    exact h
  · exact fun h => ⟨0, _, _, hop 0, h⟩

theorem calls_ret {next : Cmd} : Calls (.ret next) table cmd table' ↔ cmd = next ∧ table' = table := by
  constructor
  · rintro ⟨openings, hrun⟩
    cases hrun with
    | refl => exact ⟨rfl, rfl⟩
  · rintro ⟨rfl, rfl⟩
    exact ⟨[], .refl _ _⟩

theorem not_calls_exit {status : Nat} {next : Empty → Code Cmd} :
    ¬Calls (.call (Sys.exit status : sys.Op) next) table cmd table' := by
  intro h
  obtain ⟨_, _, _, hexit, -⟩ := (@calls_call _ _ _ (.exit status) _).mp h
  cases hexit

theorem not_calls_fprintf {text : List UInt8} {status : Nat} {next : Empty → Code Cmd} :
    ¬Calls (.call (Sys.fprintf text : sys.Op) fun _ => .call (Sys.exit status : sys.Op) next) table cmd table' := by
  intro h
  exact not_calls_exit ((@calls_unit _ _ _ (.fprintf text) _ () table fun _ => rfl).mp h)

theorem calls_fork1 {next : Bool → Code Cmd} :
    Calls (fork1 >>= next) table cmd table' ↔
      Calls (next true) table cmd table' ∨ Calls (next false) table cmd table' := by
  have hfork : Calls (fork1 >>= next) table cmd table' ↔ ∃ (choice : Nat) (forked : Forked) (mid : Table),
      handler () table .fork choice = some (forked, mid) ∧
        Calls ((if forked = .failed then panic "fork" else pure (decide (forked = .child))) >>= next) mid cmd table' :=
    @calls_call _ _ _ .fork _
  rw [hfork]
  constructor
  · rintro ⟨choice, forked, mid, hop, h⟩
    obtain ⟨-, rfl⟩ := Prod.mk.inj (Option.some.inj hop)
    cases forked with
    | failed => exact absurd h not_calls_fprintf
    | child => exact Or.inl h
    | parent => exact Or.inr h
  · rintro (h | h)
    · exact ⟨1, .child, table, rfl, h⟩
    · exact ⟨2, .parent, table, rfl, h⟩

end Calls

/-! ### One node -/

section Node

variable {table table' : Table} {streams : Streams} {string : Nat → List UInt8} {cmd next : Cmd}

/-- The table with these files at the two descriptors. -/
def Table.within (table : Table) (streams : Streams) : Table :=
  Function.update (Function.update table 0 (some streams.input)) 1 (some streams.output)

theorem within_of_le {fd : Nat} (hfd : 2 ≤ fd) : table.within streams fd = table fd := by
  rw [Table.within, Function.update_of_ne (by omega), Function.update_of_ne (by omega)]

theorem inUse_within (table : Table) (streams : Streams) : (table.within streams).InUse := by
  constructor
  · exact Option.some_ne_none streams.input
  · exact Option.some_ne_none streams.output

theorem update_within (table : Table) (streams : Streams) {fd : Nat} (hfd : fd < 2) (file : File) :
    Function.update (table.within streams) fd (some file) = table.within (streams.redirect fd file) := by
  funext other
  obtain rfl | rfl : fd = 0 ∨ fd = 1 := by omega
  · by_cases hother : other = 0
    · rw [hother]
      rfl
    · rw [Function.update_of_ne hother]
      unfold Table.within
      by_cases hone : other = 1
      · rw [hone]
        rfl
      · rw [Function.update_of_ne hone, Function.update_of_ne hone, Function.update_of_ne hother,
          Function.update_of_ne hother]
  · by_cases hother : other = 1
    · rw [hother]
      rfl
    · rw [Function.update_of_ne hother]
      unfold Table.within
      rw [Function.update_of_ne hother, Function.update_of_ne hother]
      rfl

/-- There is room for a pipe besides the two descriptors. -/
def Table.Room (table : Table) : Prop :=
  ∃ p0 p1, 2 ≤ p0 ∧ p0 < p1 ∧ p1 < nofile ∧ table p0 = none ∧ table p1 = none

structure Piped (table : Table) (p0 p1 : Nat) (table' : Table) : Prop where
  ne : p0 ≠ p1
  read : table p0 = none
  write : table p1 = none
  table_eq : table' = Function.update (Function.update table p0 (some (.pipe false))) p1 (some (.pipe true))

theorem alloc_eq_some_iff {file : File} {fd : Nat} :
    table.alloc file = some (fd, table') ↔ table.free = some fd ∧ table' = Function.update table fd (some file) := by
  rw [Table.alloc, Option.map_eq_some_iff]
  constructor
  · rintro ⟨free, hfree, heq⟩
    obtain ⟨rfl, rfl⟩ := Prod.mk.inj heq
    exact ⟨hfree, rfl⟩
  · rintro ⟨hfree, rfl⟩
    exact ⟨fd, hfree, rfl⟩

theorem eq_none_of_free {fd : Nat} (h : table.free = some fd) : table fd = none :=
  Option.isNone_iff_eq_none.mp (@List.find?_some _ (fun fd => (table fd).isNone) _ _ h)

theorem exists_free {fd : Nat} (hfd : fd < nofile) (h : table fd = none) : ∃ free, table.free = some free := by
  refine Option.isSome_iff_exists.mp (List.find?_isSome.mpr ⟨fd, List.mem_range.mpr hfd, ?_⟩)
  rw [h]
  rfl

theorem piped_of_handler {choice p0 p1 : Nat} (h : handler () table .pipe choice = some (some (p0, p1), table')) :
    Piped table p0 p1 table' := by
  rw [handler] at h
  by_cases hchoice : choice = 0
  · rw [if_pos hchoice] at h
    cases h
  rw [if_neg hchoice] at h
  cases hfirst : table.alloc (.pipe false) with
  | none =>
      rw [hfirst] at h
      cases h
  | some first =>
      rcases first with ⟨fd, mid⟩
      rw [hfirst] at h
      dsimp only at h
      cases hsecond : mid.alloc (.pipe true) with
      | none =>
          rw [hsecond] at h
          cases h
      | some second =>
          rcases second with ⟨fd', last⟩
          rw [hsecond] at h
          cases h
          obtain ⟨hfree, rfl⟩ := alloc_eq_some_iff.mp hfirst
          obtain ⟨hfree', rfl⟩ := alloc_eq_some_iff.mp hsecond
          have hnone' := eq_none_of_free hfree'
          have hne : p1 ≠ p0 := by
            rintro rfl
            rw [Function.update_self] at hnone'
            exact Option.some_ne_none _ hnone'
          rw [Function.update_of_ne hne] at hnone'
          exact ⟨hne.symm, eq_none_of_free hfree, hnone', rfl⟩

theorem Table.Room.pipe (h : table.Room) (streams : Streams) :
    ∃ p0 p1 table', handler () (table.within streams) .pipe 1 = some (some (p0, p1), table') := by
  obtain ⟨fd, fd', hfd, hlt, hlast, hnone, hnone'⟩ := h
  obtain ⟨p0, hp0⟩ := @exists_free (table.within streams) fd (by omega) (by rw [within_of_le hfd, hnone])
  have hfirst := (@alloc_eq_some_iff (table.within streams) _ (.pipe false) p0).mpr ⟨hp0, rfl⟩
  obtain ⟨p1, hp1⟩ : ∃ p1, Table.free (Function.update (table.within streams) p0 (some (.pipe false))) = some p1 := by
    by_cases hsame : fd = p0
    · refine @exists_free _ fd' hlast ?_
      rw [Function.update_of_ne (by omega), within_of_le (by omega), hnone']
    · refine @exists_free _ fd (by omega) ?_
      rw [Function.update_of_ne hsame, within_of_le hfd, hnone]
  refine ⟨p0, p1, Function.update (Function.update (table.within streams) p0 (some (.pipe false))) p1 (some (.pipe true)),
    ?_⟩
  rw [handler, if_neg (by decide), hfirst]
  dsimp only
  rw [alloc_eq_some_iff.mpr ⟨hp1, rfl⟩]
  rfl

theorem Piped.ne_low {table mid : Table} {low p0 p1 : Nat} (hpiped : Piped (table.within streams) p0 p1 mid)
    (hlow : low < 2) : low ≠ p0 ∧ low ≠ p1 := by
  have hused : table.within streams low ≠ none := by
    obtain rfl | rfl : low = 0 ∨ low = 1 := by omega
    · exact (inUse_within table streams).1
    · exact (inUse_within table streams).2
  constructor
  · rintro rfl
    exact hused hpiped.read
  · rintro rfl
    exact hused hpiped.write

theorem Piped.closed {table mid : Table} {low p0 p1 : Nat} {file : File} (hlow : low < 2)
    (hpiped : Piped (table.within streams) p0 p1 mid) :
    Function.update (Function.update (Function.update mid low (some file)) p0 none) p1 none =
      table.within (streams.redirect low file) := by
  obtain ⟨hne0, hne1⟩ := hpiped.ne_low hlow
  rw [← update_within table streams hlow file, hpiped.table_eq]
  funext fd
  by_cases hfd1 : fd = p1
  · rw [hfd1, Function.update_self, Function.update_of_ne hne1.symm, hpiped.write]
  by_cases hfd0 : fd = p0
  · rw [hfd0, Function.update_of_ne hpiped.ne, Function.update_self, Function.update_of_ne hne0.symm, hpiped.read]
  rw [Function.update_of_ne hfd1, Function.update_of_ne hfd0]
  by_cases hfd : fd = low
  · rw [hfd, Function.update_self, Function.update_self]
  · rw [Function.update_of_ne hfd, Function.update_of_ne hfd1, Function.update_of_ne hfd0, Function.update_of_ne hfd]

theorem calls_pipeEnd {table mid : Table} {low p p0 p1 : Nat} {file : File} (hlow : low < 2)
    (hpiped : Piped (table.within streams) p0 p1 mid) (hend : p = p0 ∨ p = p1) (hp : mid p = some file) :
    Calls (do close low; dup p; close p0; close p1; pure next) mid cmd table' ↔
      cmd = next ∧ table' = table.within (streams.redirect low file) := by
  obtain ⟨hne0, hne1⟩ := hpiped.ne_low hlow
  have hne : p ≠ low := by
    rcases hend with rfl | rfl
    · exact hne0.symm
    · exact hne1.symm
  have huse : Table.InUse mid := by
    rw [hpiped.table_eq]
    exact ((inUse_within table streams).update _).update _
  have hafter : ((Function.update mid low none p).bind (Table.alloc (Function.update mid low none))).elim
      (Function.update mid low none) Prod.snd = Function.update mid low (some file) := by
    rw [Function.update_of_ne hne, hp, Option.bind_some, Table.alloc, huse.free_close hlow, Option.map_some,
      Option.elim_some, Function.update_idem]
  calc
    Calls (do close low; dup p; close p0; close p1; pure next) mid cmd table'
    _ ↔ Calls (do dup p; close p0; close p1; pure next) (Function.update mid low none) cmd table' :=
        @calls_unit _ _ _ (.close low) _ () _ fun _ => rfl
    _ ↔ Calls (do close p0; close p1; pure next) (Function.update mid low (some file)) cmd table' :=
        @calls_unit _ _ _ (.dup p) _ () _ fun _ => congrArg (fun table => some ((), table)) hafter
    _ ↔ Calls (do close p1; pure next) (Function.update (Function.update mid low (some file)) p0 none) cmd table' :=
        @calls_unit _ _ _ (.close p0) _ () _ fun _ => rfl
    _ ↔ Calls (pure next) (table.within (streams.redirect low file)) cmd table' :=
        @calls_unit _ _ _ (.close p1) _ () _ fun _ => congrArg (fun table => some ((), table)) (hpiped.closed hlow)
    _ ↔ cmd = next ∧ table' = table.within (streams.redirect low file) := calls_ret

/-- The two children of a `PIPE` node. -/
def connect (left right : Cmd) (p0 p1 : Nat) : Code Cmd := do
  if ← fork1 then
    close 1
    dup p1
    close p0
    close p1
    pure left
  else if ← fork1 then
    close 0
    dup p0
    close p0
    close p1
    pure right
  else
    close p0
    close p1
    wait
    wait
    exit 0

theorem not_calls_parent {p0 p1 : Nat} :
    ¬Calls (do close p0; close p1; wait; wait; exit 0) table cmd table' := by
  intro h
  have h := (@calls_unit _ _ _ (.close p0) _ () _ fun _ => rfl).mp h
  have h := (@calls_unit _ _ _ (.close p1) _ () _ fun _ => rfl).mp h
  have h := (@calls_unit _ _ _ .wait _ () _ fun _ => rfl).mp h
  have h := (@calls_unit _ _ _ .wait _ () _ fun _ => rfl).mp h
  exact not_calls_exit h

theorem calls_connect {left right : Cmd} {mid : Table} {p0 p1 : Nat} (hpiped : Piped (table.within streams) p0 p1 mid) :
    Calls (connect left right p0 p1) mid cmd table' ↔
      ∃ streams', (cmd, streams') ∈ (Cmd.pipe left right).nexts string streams ∧ table' = table.within streams' := by
  have hread : mid p0 = some (.pipe false) := by
    rw [hpiped.table_eq, Function.update_of_ne hpiped.ne, Function.update_self]
  have hwrite : mid p1 = some (.pipe true) := by
    rw [hpiped.table_eq, Function.update_self]
  have hfork : Calls (connect left right p0 p1) mid cmd table' ↔
      Calls (do close 1; dup p1; close p0; close p1; pure left) mid cmd table' ∨
        Calls (do close 0; dup p0; close p0; close p1; pure right) mid cmd table' ∨
          Calls (do close p0; close p1; wait; wait; exit 0) mid cmd table' :=
    calls_fork1.trans (or_congr_right calls_fork1)
  rw [hfork, calls_pipeEnd Nat.one_lt_two hpiped (Or.inr rfl) hwrite, calls_pipeEnd Nat.two_pos hpiped (Or.inl rfl) hread,
    or_iff_left not_calls_parent]
  constructor
  · rintro (⟨rfl, rfl⟩ | ⟨rfl, rfl⟩)
    · exact ⟨_, List.mem_cons_self, rfl⟩
    · exact ⟨_, List.mem_cons_of_mem _ List.mem_cons_self, rfl⟩
  · rintro ⟨streams', hmem, rfl⟩
    rcases List.mem_pair.mp hmem with heq | heq
    · obtain ⟨rfl, rfl⟩ := Prod.mk.inj heq
      exact Or.inl ⟨rfl, rfl⟩
    · obtain ⟨rfl, rfl⟩ := Prod.mk.inj heq
      exact Or.inr ⟨rfl, rfl⟩

theorem calls_pipe {left right : Cmd} :
    Calls (runcmd string (.pipe left right)) table cmd table' ↔
      ∃ choice p0 p1 mid, handler () table .pipe choice = some (some (p0, p1), mid) ∧
        Calls (connect left right p0 p1) mid cmd table' := by
  refine (@calls_call _ _ _ .pipe _).trans ⟨?_, ?_⟩
  · rintro ⟨choice, (p : Option (Nat × Nat)), mid, hpipe, h⟩
    cases p with
    | none => exact absurd h not_calls_fprintf
    | some ends => exact ⟨choice, ends.1, ends.2, mid, hpipe, h⟩
  · rintro ⟨choice, p0, p1, mid, hpipe, h⟩
    exact ⟨choice, some (p0, p1), mid, hpipe, h⟩

def Cmd.Standard : Cmd → Prop
  | .exec _ => True
  | .redir cmd _ _ fd => fd < 2 ∧ cmd.Standard
  | .pipe left right => left.Standard ∧ right.Standard
  | .list left right => left.Standard ∧ right.Standard
  | .back cmd => cmd.Standard

theorem standard_of_nexts (h : cmd.Standard) {streams' : Streams} (hnext : (next, streams') ∈ cmd.nexts string streams) :
    next.Standard := by
  cases cmd with
  | exec argv => exact absurd hnext List.not_mem_nil
  | redir cmd file mode fd =>
      obtain ⟨rfl, -⟩ := Prod.mk.inj (List.mem_singleton.mp hnext)
      exact h.2
  | back cmd =>
      obtain ⟨rfl, -⟩ := Prod.mk.inj (List.mem_singleton.mp hnext)
      exact h
  | pipe left right | list left right =>
      rcases List.mem_pair.mp hnext with heq | heq
      · obtain ⟨rfl, -⟩ := Prod.mk.inj heq
        exact h.1
      · obtain ⟨rfl, -⟩ := Prod.mk.inj heq
        exact h.2

theorem exists_nexts_of_calls (hstandard : cmd.Standard)
    (h : Calls (runcmd string cmd) (table.within streams) next table') :
    ∃ streams', (next, streams') ∈ cmd.nexts string streams ∧ table' = table.within streams' := by
  cases cmd with
  | exec argv =>
      cases argv with
      | nil => exact absurd h not_calls_exit
      | cons arg argv =>
          have h := (@calls_unit _ _ _ (.exec _ _) _ () _ fun _ => rfl).mp h
          exact absurd h not_calls_fprintf
  | redir cmd file mode fd =>
      obtain ⟨openings, hrun⟩ := h
      obtain ⟨-, hret⟩ := run_redir (inUse_within table streams) hstandard.1 hrun
      obtain ⟨rfl, -, rfl⟩ := hret next rfl
      exact ⟨_, List.mem_cons_self, update_within table streams hstandard.1 _⟩
  | pipe left right =>
      obtain ⟨choice, p0, p1, mid, hpipe, h⟩ := calls_pipe.mp h
      exact (calls_connect (piped_of_handler hpipe)).mp h
  | list left right =>
      rcases calls_fork1.mp h with h | h
      · obtain ⟨rfl, rfl⟩ := calls_ret.mp h
        exact ⟨_, List.mem_cons_self, rfl⟩
      · have h := (@calls_unit _ _ _ .wait _ () _ fun _ => rfl).mp h
        obtain ⟨rfl, rfl⟩ := calls_ret.mp h
        exact ⟨_, List.mem_cons_of_mem _ List.mem_cons_self, rfl⟩
  | back cmd =>
      rcases calls_fork1.mp h with h | h
      · obtain ⟨rfl, rfl⟩ := calls_ret.mp h
        exact ⟨_, List.mem_cons_self, rfl⟩
      · exact absurd h not_calls_exit

theorem calls_of_nexts (hstandard : cmd.Standard) (hroom : table.Room) {streams' : Streams}
    (h : (next, streams') ∈ cmd.nexts string streams) :
    Calls (runcmd string cmd) (table.within streams) next (table.within streams') := by
  cases cmd with
  | exec argv => exact absurd h List.not_mem_nil
  | redir cmd file mode fd =>
      obtain ⟨rfl, rfl⟩ := Prod.mk.inj (List.mem_singleton.mp h)
      rw [← update_within table streams hstandard.1]
      exact ⟨_, run_redir_opens (inUse_within table streams) hstandard.1⟩
  | pipe left right =>
      obtain ⟨p0, p1, mid, hpipe⟩ := hroom.pipe streams
      exact calls_pipe.mpr ⟨1, p0, p1, mid, hpipe, (calls_connect (piped_of_handler hpipe)).mpr ⟨_, h, rfl⟩⟩
  | list left right =>
      refine calls_fork1.mpr ?_
      rcases List.mem_pair.mp h with heq | heq
      · obtain ⟨rfl, rfl⟩ := Prod.mk.inj heq
        exact Or.inl (calls_ret.mpr ⟨rfl, rfl⟩)
      · obtain ⟨rfl, rfl⟩ := Prod.mk.inj heq
        exact Or.inr ((@calls_unit _ _ _ .wait _ () _ fun _ => rfl).mpr (calls_ret.mpr ⟨rfl, rfl⟩))
  | back cmd =>
      obtain ⟨rfl, rfl⟩ := Prod.mk.inj (List.mem_singleton.mp h)
      exact calls_fork1.mpr (Or.inl (calls_ret.mpr ⟨rfl, rfl⟩))

end Node

/-! ### A whole line -/

section Line

variable {string : Nat → List UInt8} {cmd : Cmd} {table table' : Table} {streams : Streams} {words : List (List UInt8)}

/-- Some process gets to execute a simple command with these words and these open files. -/
def Runs (string : Nat → List UInt8) (cmd : Cmd) (table : Table) (words : List (List UInt8)) (table' : Table) : Prop :=
  ∃ n openings argv, Executes string n cmd table openings (.exec argv) table' ∧
    words = argv.map fun arg => string arg.start

theorem exists_stage_of_executes {n : Nat} {openings : List (List UInt8 × Nat)} {argv : List Word}
    (hstandard : cmd.Standard) (h : Executes string n cmd (table.within streams) openings (.exec argv) table') :
    ∃ streams', ⟨argv.map fun arg => string arg.start, streams'⟩ ∈ cmd.stages string streams ∧
      table' = table.within streams' := by
  induction n generalizing cmd streams openings with
  | zero =>
      cases h with
      | refl => exact ⟨streams, List.mem_singleton.mpr rfl, rfl⟩
  | succ n ih =>
      cases h with
      | call hrun hrest =>
          obtain ⟨mid, hnext, rfl⟩ := exists_nexts_of_calls hstandard ⟨_, hrun⟩
          obtain ⟨streams', hstage, rfl⟩ := ih (standard_of_nexts hstandard hnext) hrest
          exact ⟨streams', stages_of_nexts hnext hstage, rfl⟩

theorem runs_of_nexts {next : Cmd} {streams' : Streams} (hstandard : cmd.Standard) (hroom : table.Room)
    (hnext : (next, streams') ∈ cmd.nexts string streams)
    (h : Runs string next (table.within streams') words table') :
    Runs string cmd (table.within streams) words table' := by
  obtain ⟨n, openings, argv, hexecutes, hwords⟩ := h
  obtain ⟨openings', hrun⟩ := calls_of_nexts hstandard hroom hnext
  exact ⟨n + 1, _, argv, .call hrun hexecutes, hwords⟩

theorem runs_of_stage {stage : Stage} (hstandard : cmd.Standard) (hroom : table.Room)
    (h : stage ∈ cmd.stages string streams) :
    Runs string cmd (table.within streams) stage.words (table.within stage.streams) := by
  induction cmd generalizing streams with
  | exec argv =>
      obtain rfl := List.mem_singleton.mp h
      exact ⟨0, _, argv, .refl _ _, rfl⟩
  | redir cmd file mode fd ih => exact runs_of_nexts hstandard hroom List.mem_cons_self (ih hstandard.2 h)
  | pipe left right ihleft ihright =>
      rcases List.mem_append.mp h with h | h
      · exact runs_of_nexts hstandard hroom List.mem_cons_self (ihleft hstandard.1 h)
      · exact runs_of_nexts hstandard hroom (List.mem_cons_of_mem _ List.mem_cons_self) (ihright hstandard.2 h)
  | list left right ihleft ihright =>
      rcases List.mem_append.mp h with h | h
      · exact runs_of_nexts hstandard hroom List.mem_cons_self (ihleft hstandard.1 h)
      · exact runs_of_nexts hstandard hroom (List.mem_cons_of_mem _ List.mem_cons_self) (ihright hstandard.2 h)
  | back cmd ih => exact runs_of_nexts hstandard hroom List.mem_cons_self (ih hstandard h)

theorem standard_wrap (redirs : List Redir) (h : cmd.Standard) : (redirs.foldl Redir.wrap cmd).Standard := by
  induction redirs generalizing cmd with
  | nil => exact h
  | cons redir redirs ih => exact @ih (redir.wrap cmd) ⟨redir.direction.fd_lt, h⟩

theorem standard_back (backs : Nat) (h : cmd.Standard) : (Cmd.back^[backs] cmd).Standard := by
  induction backs with
  | zero => exact h
  | succ backs ih =>
      rw [Function.iterate_succ_apply']
      exact ih

mutual

theorem LineTree.standard (tree : LineTree) : tree.cmd.Standard := by
  cases tree with
  | last pipe backs => exact standard_back backs pipe.standard
  | more pipe backs rest => exact ⟨standard_back backs pipe.standard, rest.standard⟩

theorem PipeTree.standard (tree : PipeTree) : tree.cmd.Standard := by
  cases tree with
  | last exec => exact exec.standard
  | more exec rest => exact ⟨exec.standard, rest.standard⟩

theorem ExecTree.standard (tree : ExecTree) : tree.cmd.Standard := by
  cases tree with
  | block line redirs => exact standard_wrap redirs line.standard
  | simple redirs args => exact standard_wrap _ trivial

end

/-- **The shell runs the line as it is written.** The simple commands that the processes of the shell come to execute
are those of the line, with the files that the line gives them at the two descriptors and those of the shell at the
others: no end of a pipe stays open with anybody else. Where there is room for a pipe, each of them is executed. -/
theorem runs_of_parsecmd {line : Line} {mem : Nat → UInt8} {tree : LineTree} (hparse : parsecmd line = .ok (cmd, mem))
    (htree : line.Derives tree) (table : Table) (streams : Streams) :
    (∀ {words table'}, Runs (line.string mem) cmd (table.within streams) words table' →
      ∃ stage ∈ tree.stages line streams, stage.words = words ∧ table' = table.within stage.streams) ∧
    (table.Room → ∀ stage ∈ tree.stages line streams,
      Runs (line.string mem) cmd (table.within streams) stage.words (table.within stage.streams)) := by
  obtain ⟨rfl, rfl⟩ := Prod.mk.inj (Except.ok.inj (hparse.symm.trans (parsecmd_complete htree)))
  have hstages := tree.stages_cmd (terminated_of_derives htree).string streams
  rw [← hstages]
  constructor
  · rintro words table' ⟨n, openings, argv, h, rfl⟩
    obtain ⟨streams', hmem, htable⟩ := exists_stage_of_executes tree.standard h
    exact ⟨_, hmem, rfl, htable⟩
  · exact fun hroom stage hstage => runs_of_stage tree.standard hroom hstage

/-- `a|b>c`. -/
def pipeline : Line where
  bytes := chars "a|b>c"
  zero_notMem := by decide

def pipelineTree : LineTree :=
  .last (.more (.simple [] [⟨⟨0, 1⟩, []⟩]) (.last (.simple [] [⟨⟨2, 3⟩, [⟨.greater, ⟨4, 5⟩⟩]⟩]))) 0

/-- What `main` opens, and what the commands of the line get. -/
def console : File := .path (chars "console") 2

def pipelineStages : List Stage :=
  [⟨[chars "a"], ⟨console, .pipe true⟩⟩, ⟨[chars "b"], ⟨.pipe false, .path (chars "c") Direction.greater.mode⟩⟩]

theorem derives_pipeline : pipeline.Derives pipelineTree where
  yield := by
    have htokens : pipeline.tokens = [.word ⟨0, 1⟩, .bar, .word ⟨2, 3⟩, .greater, .word ⟨4, 5⟩] := by
      have hbytes : pipeline.bytes = [97, 124, 98, 62, 99] := rfl
      rw [Line.tokens, hbytes, lex_word (by decide)]
      change _ :: lex 1 [124, 98, 62, 99] = _
      rw [lex_symbol (by decide) (by decide), lex_word (by decide)]
      change _ :: _ :: _ :: lex 3 [62, 99] = _
      rw [lex_symbol (by decide) (by decide), lex_word (by decide)]
      change _ :: _ :: _ :: _ :: _ :: lex 5 [] = _
      rw [lex]
      rfl
    rw [htokens]
    rfl
  bounded := by
    change 1 < maxArgs ∧ 1 < maxArgs
    decide

theorem runs_of_parsecmd_pipeline : ∃ cmd mem, parsecmd pipeline = .ok (cmd, mem) ∧
    (∀ {words table'}, Runs (pipeline.string mem) cmd (Table.within (fun _ => none) ⟨console, console⟩) words table' →
      ∃ stage ∈ pipelineStages, stage.words = words ∧ table' = Table.within (fun _ => none) stage.streams) ∧
    ∀ stage ∈ pipelineStages, Runs (pipeline.string mem) cmd (Table.within (fun _ => none) ⟨console, console⟩) stage.words
      (Table.within (fun _ => none) stage.streams) := by
  have hstages : pipelineTree.stages pipeline ⟨console, console⟩ = pipelineStages := by decide +kernel
  have hparse := parsecmd_complete derives_pipeline
  have hruns := runs_of_parsecmd hparse derives_pipeline (fun _ => none) ⟨console, console⟩
  rw [hstages] at hruns
  exact ⟨_, _, hparse, hruns.1, hruns.2 ⟨2, 3, by decide⟩⟩

end Line

end Xv6.Sh
