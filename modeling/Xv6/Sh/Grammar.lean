import Mathlib.Logic.Function.Iterate
import Xv6.Sh.Parser

/-!
# The shell's grammar

The tokens of a command line, and the derivations of

    line  ::= pipe '&'* [';' line]
    pipe  ::= exec ['|' pipe]
    exec  ::= '(' line ')' redir* | redir* (word redir*)*
    redir ::= ('<' | '>' | '>>') word

A derivation has the tokens that it derives and the tree that it stands for. Nothing here says how the shell parses.
-/

namespace Xv6.Sh

/-! ### Tokens -/

inductive Terminal where
  | word (place : Word)
  | less
  | greater
  | append
  | bar
  | lparen
  | rparen
  | semi
  | amp
  deriving DecidableEq

def Ordinary (c : UInt8) : Prop := c ∉ whitespace ∧ c ∉ symbols

instance (c : UInt8) : Decidable (Ordinary c) := inferInstanceAs (Decidable (_ ∧ _))

def symbol (c : UInt8) : Terminal :=
  if c ∈ chars "<" then .less
  else if c ∈ chars ">" then .greater
  else if c ∈ chars "|" then .bar
  else if c ∈ chars "(" then .lparen
  else if c ∈ chars ")" then .rparen
  else if c ∈ chars ";" then .semi
  else .amp

/-- The tokens of these bytes, which are in the line from `s` on. Each is as long as it can be. -/
def lex (s : Nat) : (bytes : List UInt8) → List Terminal
  | [] => []
  | c :: rest =>
      if c ∈ whitespace then
        lex (s + 1) rest
      else if c ∈ symbols then
        if c ∈ chars ">" ∧ rest.head? = some c then
          .append :: lex (s + 2) rest.tail
        else
          symbol c :: lex (s + 1) rest
      else
        let length := (rest.takeWhile fun c => Ordinary c).length
        .word ⟨s, s + 1 + length⟩ :: lex (s + 1 + length) (rest.drop length)
termination_by bytes => bytes.length
decreasing_by all_goals simp only [List.length_cons, List.length_drop, List.length_tail]; omega

def Line.tokens (line : Line) : List Terminal := lex 0 line.bytes

def Line.text (line : Line) (word : Word) : List UInt8 :=
  (line.bytes.drop word.start).take (word.stop - word.start)

/-! ### Derivations -/

inductive Direction where
  | less
  | greater
  | append
  deriving DecidableEq

def Direction.terminal : Direction → Terminal
  | less => .less
  | greater => .greater
  | append => .append

/-- How the file is opened. -/
def Direction.mode : Direction → Nat
  | less => oRdonly
  | greater => oWronly ||| oCreate ||| oTrunc
  | append => oWronly ||| oCreate

/-- The descriptor that is redirected. -/
def Direction.fd : Direction → Nat
  | less => 0
  | greater => 1
  | append => 1

structure Redir where
  direction : Direction
  file : Word
  deriving DecidableEq

def Redir.yield (redir : Redir) : List Terminal := [redir.direction.terminal, .word redir.file]

def Redir.wrap (cmd : Cmd) (redir : Redir) : Cmd := .redir cmd redir.file redir.direction.mode redir.direction.fd

/-- An argument, with the redirections after it. -/
structure Arg where
  word : Word
  redirs : List Redir
  deriving DecidableEq

def Arg.yield (arg : Arg) : List Terminal := .word arg.word :: arg.redirs.flatMap Redir.yield

mutual

inductive LineTree where
  | last (pipe : PipeTree) (backs : Nat)
  | more (pipe : PipeTree) (backs : Nat) (rest : LineTree)

inductive PipeTree where
  | last (exec : ExecTree)
  | more (exec : ExecTree) (rest : PipeTree)

inductive ExecTree where
  | block (line : LineTree) (redirs : List Redir)
  | simple (redirs : List Redir) (args : List Arg)

end

mutual

def LineTree.yield : LineTree → List Terminal
  | .last pipe backs => pipe.yield ++ List.replicate backs .amp
  | .more pipe backs rest => pipe.yield ++ List.replicate backs .amp ++ .semi :: rest.yield

def PipeTree.yield : PipeTree → List Terminal
  | .last exec => exec.yield
  | .more exec rest => exec.yield ++ .bar :: rest.yield

def ExecTree.yield : ExecTree → List Terminal
  | .block line redirs => .lparen :: line.yield ++ .rparen :: redirs.flatMap Redir.yield
  | .simple redirs args => redirs.flatMap Redir.yield ++ args.flatMap Arg.yield

end

/-- The redirections, in the order they are written. -/
def ExecTree.redirs : ExecTree → List Redir
  | .block _ redirs => redirs
  | .simple redirs args => redirs ++ args.flatMap Arg.redirs

mutual

def LineTree.cmd : LineTree → Cmd
  | .last pipe backs => Cmd.back^[backs] pipe.cmd
  | .more pipe backs rest => .list (Cmd.back^[backs] pipe.cmd) rest.cmd

def PipeTree.cmd : PipeTree → Cmd
  | .last exec => exec.cmd
  | .more exec rest => .pipe exec.cmd rest.cmd

/-- The command or the block, with the redirections around it. -/
def ExecTree.cmd : ExecTree → Cmd
  | .block line redirs => redirs.foldl Redir.wrap line.cmd
  | .simple redirs args => (redirs ++ args.flatMap Arg.redirs).foldl Redir.wrap (.exec (args.map Arg.word))

end

mutual

/-- Every simple command has fewer than `MAXARGS` words. -/
def LineTree.Bounded : LineTree → Prop
  | .last pipe _ => pipe.Bounded
  | .more pipe _ rest => pipe.Bounded ∧ rest.Bounded

def PipeTree.Bounded : PipeTree → Prop
  | .last exec => exec.Bounded
  | .more exec rest => exec.Bounded ∧ rest.Bounded

def ExecTree.Bounded : ExecTree → Prop
  | .block line _ => line.Bounded
  | .simple _ args => args.length < maxArgs

end

/-- The strings of a tree: arguments and file names. -/
def Cmd.words : Cmd → List Word
  | .exec argv => argv
  | .redir cmd file _ _ => file :: cmd.words
  | .pipe left right => left.words ++ right.words
  | .list left right => left.words ++ right.words
  | .back cmd => cmd.words

end Xv6.Sh
