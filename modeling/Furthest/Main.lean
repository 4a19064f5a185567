import Furthest.Console

/-!
# The calculator on a terminal

Reads lines from standard input, answers each of them on standard output and writes the log to standard
error. What a line is answered is decided by `Console`.
-/

namespace Furthest.Main

/-- The bytes of an argument. -/
def bytesOf (s : String) : Bytes := s.toUTF8.toList

/-- Writes bytes at once. -/
def write (out : IO.FS.Stream) (text : Bytes) : IO Unit := do
  out.write ⟨text.toArray⟩
  out.flush

/-- Reads up to the next line feed. Nothing is left once the input ends without a further byte. -/
partial def readLine (source : IO.FS.Stream) (begun : Array UInt8) : IO (Option Bytes) := do
  let chunk ← source.read 1
  match chunk.data[0]? with
  | none => return if begun.isEmpty then none else some begun.toList
  | some b =>
    if b = Bytes.newline then return some begun.toList
    else readLine source (begun.push b)

/-- Runs one part of a session, and writes the lines that it logs. -/
def perform {α : Type} (x : Run Unit α) (env : Env Unit) : IO (Option α × Env Unit) := do
  let (ended, env) := x.execute env
  let err ← IO.getStderr
  for line in env.log.lines do
    write err (line ++ [Bytes.newline])
  let env := { env with log := .ofLevel env.log.level }
  match ended with
  | .ok v => return (some v, env)
  | .error cause =>
    write err (cause.message ++ [Bytes.newline])
    return (none, env)

/-- Answers lines until one of them quits or the input ends. -/
partial def answerLines (state : Console.State Float) (env : Env Unit) : IO (Env Unit) := do
  let out ← IO.getStdout
  write out Console.prompt
  match ← readLine (← IO.getStdin) #[] with
  | none => return env
  | some line =>
    let command := Console.Command.ofLine line
    if command = .quit then return env
    match ← perform (Console.answer .binary state command) env with
    | (some (text, state), env) =>
      write out text
      answerLines state env
    | (none, env) => return env

/-- Runs the calculator with its arguments. -/
def run (arguments : List String) : IO UInt32 := do
  let out ← IO.getStdout
  match Console.request .warn (arguments.map bytesOf) with
  | .usage exit =>
    write out Console.usage
    return exit.toUInt32
  | .session level =>
    write out Console.help
    let (_, env) ← perform (Run.record Console.started) ⟨.ofLevel level, ()⟩
    let env ← answerLines (.initial level) env
    let _ ← perform (Run.record Console.ended) env
    return 0

end Furthest.Main

/-- The calculator. -/
def main (arguments : List String) : IO UInt32 := Furthest.Main.run arguments
