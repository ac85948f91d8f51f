import Xv6.Lib.Threads
import Xv6.Sh.ParseCmd

/-!
# Running a command

`runcmd` ends with a call of itself, with an `exec` or with an `exit`. It is modelled up to that call, so that a process
of the shell goes from one command to the next. Of the kernel there is the table of open files: a descriptor that is
allocated is the lowest one.
-/

namespace Xv6.Sh

/-- An open file: it was opened by name, or it is an end of a pipe. -/
inductive File where
  | path (name : List UInt8) (mode : Nat)
  | pipe (writable : Bool)
  deriving DecidableEq

def nofile : Nat := 16

abbrev Table := Nat → Option File

/-- What `fork1` returns, where `fork` does not fail. -/
inductive Forked where
  | failed
  | child
  | parent
  deriving DecidableEq

/-- The system calls of the shell. `exec` returns only where it fails. -/
inductive Sys where
  | close (fd : Nat)
  | openFile (name : List UInt8) (mode : Nat)
  | dup (fd : Nat)
  | pipe
  | fork
  | wait
  | exec (name : List UInt8) (argv : List (List UInt8))
  | fprintf (text : List UInt8)
  | exit (status : Nat)

def Sys.Resp : Sys → Type
  | .openFile _ _ => Option Nat
  | .pipe => Option (Nat × Nat)
  | .fork => Forked
  | .exit _ => Empty
  | _ => Unit

def sys : Signature := ⟨Sys, Sys.Resp⟩

abbrev Code (α : Type) := Program sys α

/-! ### `runcmd` -/

section Code

def perform (op : Sys) : Code op.Resp := Program.call (op : sys.Op) .ret

def close (fd : Nat) : Code Unit := perform (.close fd)

def openFile (name : List UInt8) (mode : Nat) : Code (Option Nat) := perform (.openFile name mode)

def dup (fd : Nat) : Code Unit := perform (.dup fd)

def pipe : Code (Option (Nat × Nat)) := perform .pipe

def fork : Code Forked := perform .fork

def wait : Code Unit := perform .wait

def exec (name : List UInt8) (argv : List (List UInt8)) : Code Unit := perform (.exec name argv)

def fprintf (text : List UInt8) : Code Unit := perform (.fprintf text)

def exit {α : Type} (status : Nat) : Code α :=
  Program.call (Sys.exit status : sys.Op) fun never => (never : Empty).elim

def panic {α : Type} (message : String) : Code α := do
  fprintf (chars message ++ chars "\n")
  exit 1

def fork1 : Code Bool := do
  let forked ← fork
  if forked = .failed then panic "fork" else pure (forked = .child)

/-- Execute `cmd`, up to the call for the command that is executed next. A pointer into the line is a string. -/
def runcmd (string : Nat → List UInt8) : Cmd → Code Cmd
  | .exec [] => exit 1
  | .exec (arg :: argv) => do
      exec (string arg.start) ((arg :: argv).map fun arg => string arg.start)
      fprintf (chars "exec " ++ string arg.start ++ chars " failed\n")
      exit 0
  | .redir cmd file mode fd => do
      close fd
      let opened ← openFile (string file.start) mode
      if opened = none then do
        fprintf (chars "open " ++ string file.start ++ chars " failed\n")
        exit 1
      else
        pure cmd
  | .list left right => do
      if ← fork1 then
        pure left
      else
        wait
        pure right
  | .pipe left right => do
      let p ← pipe
      match p with
      | none => panic "pipe"
      | some (p0, p1) =>
          if ← fork1 then
            close 1
            dup p1
            close p0
            close p1
            pure left
          else if ← fork1 then
            close 0
            dup p0
            close p0
            close p1
            pure right
          else
            close p0
            close p1
            wait
            wait
            exit 0
  | .back cmd => do
      if ← fork1 then pure cmd else exit 0

end Code

/-! ### Processes -/

def Table.free (table : Table) : Option Nat := (List.range nofile).find? fun fd => (table fd).isNone

def Table.alloc (table : Table) (file : File) : Option (Nat × Table) :=
  table.free.map fun fd => (fd, Function.update table fd (some file))

/-- What a system call does to the process. The choice says whether a call that can fail does. -/
def handler : Handler sys Table Unit
  | _, table, .close fd, _ => some ((), Function.update table fd none)
  | _, table, .openFile name mode, choice =>
      if choice = 0 then some (none, table)
      else
        match table.alloc (.path name mode) with
        | none => some (none, table)
        | some (fd, table') => some (some fd, table')
  | _, table, .dup fd, _ => some ((), ((table fd).bind table.alloc).elim table Prod.snd)
  | _, table, .pipe, choice =>
      if choice = 0 then some (none, table)
      else
        match table.alloc (.pipe false) with
        | none => some (none, table)
        | some (p0, table') =>
            match table'.alloc (.pipe true) with
            | none => some (none, table)
            | some (p1, table'') => some (some (p0, p1), table'')
  | _, table, .fork, choice =>
      some (if choice = 0 then .failed else if choice = 1 then .child else .parent, table)
  | _, table, .wait, _ => some ((), table)
  -- it has failed
  | _, table, .exec _ _, _ => some ((), table)
  | _, table, .fprintf _, _ => some ((), table)
  | _, _, .exit _, _ => none

def Sys.opening : Sys → List (List UInt8 × Nat)
  | .openFile name mode => [(name, mode)]
  | _ => []

/-- System calls of one process, with the files that it tries to open. -/
inductive Run : Code Cmd → Table → List (List UInt8 × Nat) → Code Cmd → Table → Prop where
  | refl (code : Code Cmd) (table : Table) : Run code table [] code table
  | call {op : Sys} {next : op.Resp → Code Cmd} {table table' table'' : Table} {choice : Nat} {resp : op.Resp}
      {openings : List (List UInt8 × Nat)} {code : Code Cmd} (h : handler () table op choice = some (resp, table'))
      (hrest : Run (next resp) table' openings code table'') :
      Run (.call (op : sys.Op) next) table (op.opening ++ openings) code table''

/-- A process, or one forked by it, goes from one command to the next, so many times. -/
inductive Executes (string : Nat → List UInt8) :
    Nat → Cmd → Table → List (List UInt8 × Nat) → Cmd → Table → Prop where
  | refl (cmd : Cmd) (table : Table) : Executes string 0 cmd table [] cmd table
  | call {n : Nat} {cmd cmd' cmd'' : Cmd} {table table' table'' : Table} {openings openings' : List (List UInt8 × Nat)}
      (h : Run (runcmd string cmd) table openings (.ret cmd') table')
      (hrest : Executes string n cmd' table' openings' cmd'' table'') :
      Executes string (n + 1) cmd table (openings ++ openings') cmd'' table''

end Xv6.Sh
