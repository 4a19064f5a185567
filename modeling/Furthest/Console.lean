import Furthest.Calculator.Rules
import Furthest.Parser.Input

/-!
# The calculator's console

A session answers its input line by line: a line is one of four commands, or an expression whose value is
shown and remembered. `answer` is the answer to one command, `answers` those to the lines of a session,
`transcript` what a session with these answers writes, and `run` adds the command line.
-/

namespace Furthest.Console

/-- How the console computes and shows numbers. -/
structure Display (ν : Type) where
  arithmetic : Arithmetic ν
  shown : ν → Bytes

/-- Floating-point numbers, with six significant digits. -/
def Display.binary : Display Float :=
  ⟨.binary, fun x => Decimal.shown.render (Decimal.Binary.ofBits x.toBits)⟩

/-! ## Command line -/

/-- What the arguments ask for. -/
inductive Request where
  /-- A session whose log starts with a level. -/
  | session (level : Level)
  /-- The usage text, and an exit code. -/
  | usage (exit : Nat)
deriving DecidableEq, Repr

/-- Reads the arguments. The name of a file for the log is taken and not used. -/
def request (level : Level) : List Bytes → Request
  | [] => .session level
  | [arg] => .usage (if arg = ascii "--help" then 0 else 1)
  | arg :: value :: rest =>
    if arg = ascii "--log-level" then request (Level.ofName value) rest
    else if arg = ascii "--log-file" then request level rest
    else .usage (if arg = ascii "--help" then 0 else 1)

/-- The usage text. -/
def usage : Bytes :=
  ascii "usage: parsel_calc [--log-level trace|debug|info|warn|error|off] [--log-file path]\n"

/-! ## Commands -/

/-- What a line asks for. -/
inductive Command where
  | help
  | quit
  | last
  | trace
  | evaluate (expression : Bytes)
deriving DecidableEq, Repr

/-- The command of a line: one of four letters alone, or an expression. -/
def Command.ofLine (line : Bytes) : Command :=
  if line = ascii "?" then help
  else if line = ascii "q" then quit
  else if line = ascii "l" then last
  else if line = ascii "t" then trace
  else evaluate line

/-- The help text, which opens a session. -/
def help : Bytes :=
  ascii "Enter an arithmetic expression or one of the following commands:\n" ++
  ascii "   ? : help\n" ++
  ascii "   q : quit\n" ++
  ascii "   l : show last result\n" ++
  ascii "   t : toggle grammar tracing"

/-- What asks for a line. -/
def prompt : Bytes := ascii "\n\n>> "

/-- What a session remembers: the last value, whether the grammar is traced, and the level otherwise. -/
structure State (ν : Type) where
  level : Level
  last : Option ν
  tracing : Bool

/-- The state at the start of a session. -/
def State.initial {ν : Type} (level : Level) : State ν := ⟨level, none, false⟩

variable {ν : Type}

/-- The entry for a line that is no expression. -/
def rejection (line : Bytes) (e : ParseError) : Entry :=
  .note (ascii "rejected '" ++ line ++ ascii "' at " ++ e.position)

/-- The answer to a command, and the state after it. Quitting is not answered. -/
def answer (d : Display ν) (s : State ν) : Command → Run Unit (Bytes × State ν)
  | .help => return (ascii "\n" ++ help, s)
  | .quit => return ([], s)
  | .last =>
    return match s.last with
      | some x => (ascii "\n" ++ d.shown x, s)
      | none => (ascii "\nError: Nothing evaluated yet!", s)
  | .trace => do
    let tracing := !s.tracing
    Run.setLevel (if tracing then .trace else s.level)
    return (ascii (if tracing then "\nTracing on" else "\nTracing off"), { s with tracing := tracing })
  | .evaluate line => do
    match ← (calculator d.arithmetic).parse line with
    | .ok x => return (ascii "\n" ++ d.shown x, { s with last := some x })
    | .error e =>
      Run.record (rejection line e)
      return (ascii "\nError: " ++ e.message, s)

/-! ## Sessions -/

/-- The answers to the lines that are left, up to one that quits. -/
def answers (d : Display ν) : State ν → List Bytes → Run Unit (List Bytes)
  | _, [] => return []
  | s, line :: lines =>
    if Command.ofLine line = .quit then return []
    else do
      let (text, s) ← answer d s (.ofLine line)
      return text :: (← answers d s lines)

/-- What a session with some answers writes: the help text, each answer after a prompt, and a last prompt. -/
def transcript (texts : List Bytes) : Bytes := help ++ texts.flatMap (prompt ++ ·) ++ prompt

/-- The entry for the start of a session. -/
def started : Entry := .note (ascii "session started")

/-- The entry for the end of a session. -/
def ended : Entry := .note (ascii "session ended")

/-- What a session writes, from its opening to its end. -/
def session (d : Display ν) (level : Level) (lines : List Bytes) : Run Unit Bytes := do
  Run.record started
  let texts ← answers d (.initial level) lines
  Run.record ended
  return transcript texts

/-- The lines of a text, the first of which begins with some bytes, given backwards. -/
def linesFrom (begun : Bytes) : Bytes → List Bytes
  | [] => if begun = [] then [] else [begun.reverse]
  | b :: rest =>
    if b = Bytes.newline then begun.reverse :: linesFrom [] rest else linesFrom (b :: begun) rest

/-- The lines of a text. A line feed ends a line; a last line needs none, but is not empty. -/
def lines (text : Bytes) : List Bytes := linesFrom [] text

/-- What a run of the program leaves: its exit code, what it wrote and the lines of its log. -/
structure Outcome where
  exit : Nat
  output : Bytes
  log : List Bytes
deriving DecidableEq, Repr

/-- Runs the program on its arguments and its input. -/
def run (d : Display ν) (arguments : List Bytes) (input : Bytes) : Except Fault Outcome :=
  match request .warn arguments with
  | .usage exit => .ok ⟨exit, usage, []⟩
  | .session level =>
    match (session d level (lines input)).execute ⟨.ofLevel level, ()⟩ with
    | (.ok text, env) => .ok ⟨0, text, env.log.lines⟩
    | (.error cause, _) => .error cause

end Furthest.Console
