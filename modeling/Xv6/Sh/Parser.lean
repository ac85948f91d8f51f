import Mathlib.Logic.Function.Basic
import Mathlib.Tactic.Common

/-!
# The shell's parser

The second half of `shells/sh.c`. A pointer into the line is its distance from the start of the line, and `malloc`
succeeds. A recursion of the source takes fuel here, and running out of it is a failure of its own.
-/

namespace Xv6.Sh

/-- A command line. The terminator comes after its bytes. -/
structure Line where
  bytes : List UInt8
  zero_notMem : 0 ∉ bytes

/-- `s + strlen(s)`. -/
def Line.es (line : Line) : Nat := line.bytes.length

def Line.mem (line : Line) (s : Nat) : UInt8 := line.bytes.getD s 0

inductive Failure where
  /-- `panic` prints the message and exits. -/
  | panic (message : String)
  /-- A read past the terminator. -/
  | outside
  | fuel
  deriving DecidableEq

/-- Part of the parser: it moves the cursor `*ps`. -/
def Parser (α : Type) : Type := Nat → Except Failure (α × Nat)

namespace Parser

instance : Monad Parser where
  pure value := fun s => .ok (value, s)
  bind first next := fun s => (first s).bind fun result => next result.1 result.2

def panic {α : Type} (message : String) : Parser α := fun _ => .error (.panic message)

end Parser

def chars (text : String) : List UInt8 := text.toList.map Char.toUInt8

def whitespace : List UInt8 := [32, 9, 13, 10, 11]

def symbols : List UInt8 := chars "<|>&;()"

def maxArgs : Nat := 10

def oRdonly : Nat := 0

def oWronly : Nat := 1

def oCreate : Nat := 0x200

def oTrunc : Nat := 0x400

/-- Where a string starts and ends. -/
structure Word where
  start : Nat
  stop : Nat
  deriving DecidableEq

/-- `struct cmd`. An entry of `argv` is kept with that of `eargv`, and `file` with `efile`. -/
inductive Cmd where
  | exec (argv : List Word)
  | redir (cmd : Cmd) (file : Word) (mode fd : Nat)
  | pipe (left right : Cmd)
  | list (left right : Cmd)
  | back (cmd : Cmd)
  deriving DecidableEq

/-- Add an argument to the `struct execcmd` that `parseexec` keeps a pointer to: redirections are around it. -/
def Cmd.push (arg : Word) : Cmd → Cmd
  | .exec argv => .exec (argv ++ [arg])
  | .redir cmd file mode fd => .redir (cmd.push arg) file mode fd
  | cmd => cmd

/-- What `gettoken` returns, and stores in `*q` and `*eq`. -/
structure Token where
  ret : UInt8
  place : Word

section Code

variable (line : Line)

def read (s : Nat) : Except Failure UInt8 := if s ≤ line.es then .ok (line.mem s) else .error .outside

/-- `while (s < es && p(*s)) s++`, for as many rounds as there are bytes left. -/
def skipWhile (p : UInt8 → Bool) : (rounds s : Nat) → Except Failure Nat
  | 0, s => .ok s
  | rounds + 1, s =>
      if s < line.es then do
        let c ← read line s
        if p c then skipWhile p rounds (s + 1) else .ok s
      else
        .ok s

def skipWhite (s : Nat) : Except Failure Nat := skipWhile line (· ∈ whitespace) (line.es - s) s

/-- The `switch` of `gettoken`: what it returns, and where the token ends. -/
def scan (s : Nat) : Except Failure (UInt8 × Nat) := do
  let c ← read line s
  if c = 0 then
    .ok (c, s)
  else if c ∈ chars "|();&<" then
    .ok (c, s + 1)
  else if c ∈ chars ">" then do
    let next ← read line (s + 1)
    if next ∈ chars ">" then .ok (43, s + 2) else .ok (c, s + 1)
  else do
    let s ← skipWhile line (fun c => c ∉ whitespace ∧ c ∉ symbols) (line.es - s) s
    .ok (97, s)

def gettoken : Parser Token := fun s => do
  let q ← skipWhite line s
  let result ← scan line q
  let s ← skipWhite line result.2
  .ok (⟨result.1, q, result.2⟩, s)

def peek (toks : String) : Parser Bool := fun s => do
  let s ← skipWhite line s
  let c ← read line s
  .ok (c ≠ 0 ∧ c ∈ chars toks, s)

/-- The `switch` of `parseredirs`. -/
def redirect (tok : UInt8) (file : Word) (cmd : Cmd) : Cmd :=
  if tok ∈ chars "<" then .redir cmd file oRdonly 0
  else if tok ∈ chars ">" then .redir cmd file (oWronly ||| oCreate ||| oTrunc) 1
  else if tok ∈ chars "+" then .redir cmd file (oWronly ||| oCreate) 1
  else cmd

def parseredirs : (fuel : Nat) → Cmd → Parser Cmd
  | 0, _ => fun _ => .error .fuel
  | fuel + 1, cmd => do
      if ← peek line "<>" then
        let tok ← gettoken line
        let file ← gettoken line
        if file.ret ∈ chars "a" then
          parseredirs fuel (redirect tok.ret file.place cmd)
        else
          Parser.panic "missing file for redirection"
      else
        pure cmd

/-- The loop of `parseexec`. -/
def parseargs : (fuel argc : Nat) → Cmd → Parser Cmd
  | 0, _, _ => fun _ => .error .fuel
  | fuel + 1, argc, ret => do
      if ← peek line "|)&;" then
        pure ret
      else
        let tok ← gettoken line
        if tok.ret = 0 then
          pure ret
        else if tok.ret ∈ chars "a" then
          if argc + 1 ≥ maxArgs then
            Parser.panic "too many args"
          else
            let ret ← parseredirs line fuel (ret.push tok.place)
            parseargs fuel (argc + 1) ret
        else
          Parser.panic "syntax"

/-- The loop of `parseline`. -/
def parsebacks : (fuel : Nat) → Cmd → Parser Cmd
  | 0, _ => fun _ => .error .fuel
  | fuel + 1, cmd => do
      if ← peek line "&" then
        let _ ← gettoken line
        parsebacks fuel (.back cmd)
      else
        pure cmd

mutual

def parseline : (fuel : Nat) → Parser Cmd
  | 0 => fun _ => .error .fuel
  | fuel + 1 => do
      let cmd ← parsepipe fuel
      let cmd ← parsebacks line fuel cmd
      if ← peek line ";" then
        let _ ← gettoken line
        let rest ← parseline fuel
        pure (.list cmd rest)
      else
        pure cmd

def parsepipe : (fuel : Nat) → Parser Cmd
  | 0 => fun _ => .error .fuel
  | fuel + 1 => do
      let cmd ← parseexec fuel
      if ← peek line "|" then
        let _ ← gettoken line
        let rest ← parsepipe fuel
        pure (.pipe cmd rest)
      else
        pure cmd

def parseexec : (fuel : Nat) → Parser Cmd
  | 0 => fun _ => .error .fuel
  | fuel + 1 => do
      if ← peek line "(" then
        parseblock fuel
      else
        let ret ← parseredirs line fuel (.exec [])
        parseargs line fuel 0 ret

def parseblock : (fuel : Nat) → Parser Cmd
  | 0 => fun _ => .error .fuel
  | fuel + 1 => do
      if ← peek line "(" then
        let _ ← gettoken line
        let cmd ← parseline fuel
        if ← peek line ")" then
          let _ ← gettoken line
          parseredirs line fuel cmd
        else
          Parser.panic "syntax - missing )"
      else
        Parser.panic "parseblock"

end

/-- NUL-terminate all the counted strings. -/
def nulterminate (mem : Nat → UInt8) : Cmd → Nat → UInt8
  | .exec argv => argv.foldl (fun mem arg => Function.update mem arg.stop 0) mem
  | .redir cmd file _ _ => Function.update (nulterminate mem cmd) file.stop 0
  | .pipe left right => nulterminate (nulterminate mem left) right
  | .list left right => nulterminate (nulterminate mem left) right
  | .back cmd => nulterminate mem cmd

def fuelFor : Nat := 4 * line.es + 4

/-- The tree, and the memory of the line then. -/
def parsecmd : Except Failure (Cmd × (Nat → UInt8)) := do
  let (cmd, s) ← parseline line (fuelFor line) 0
  let (_, s) ← peek line "" s
  if s ≠ line.es then
    .error (.panic "syntax")
  else
    .ok (cmd, nulterminate line.mem cmd)

end Code

end Xv6.Sh
