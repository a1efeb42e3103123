/-
The command line program.

Everything it prints is decided elsewhere; here the texts are written out, and a session gets its lines one at a time,
so that a person sees each prompt before answering it. Events go to the standard error output, as far as the verbosity
asks for them.
-/
import PatternAutomata.CommandLine.Run

namespace PatternAutomata.CommandLine

/-- Writes the events that belong to a verbosity. -/
def writeEvents (verbosity : Nat) (events : List Event) : IO Unit :=
  for event in events do
    if verbosity ≥ 2 || (verbosity = 1 && event.level = .debug) then
      IO.eprintln (event.level.name ++ " " ++ event.text)

/-- Runs a session on the standard input until it ends. -/
partial def runSession (options : Options) (verbosity : Nat) (session : Session) : IO Unit := do
  IO.print session.prompt
  (← IO.getStdout).flush
  match Text.lines (← (← IO.getStdin).getLine) with
  | [] => IO.print session.atEnd
  | line :: _ =>
    if verbosity > 0 then writeEvents verbosity (session.events options line)
    let (printed, next) := session.answer options line
    IO.print printed
    if next = .ended then return
    runSession options verbosity next

end PatternAutomata.CommandLine

open PatternAutomata PatternAutomata.CommandLine in
/-- Runs the program. -/
def main (args : List String) : IO UInt32 := do
  match request? args with
  | some (.run { minimize, verbosity, command := .repl }) =>
    runSession { minimize } verbosity .awaitingPattern
    return 0
  | some (.run invocation) =>
    if invocation.verbosity > 0 then
      writeEvents invocation.verbosity (invocation.command.events invocation.options)
  | _ => pure ()
  let outcome := CommandLine.run args ""
  IO.print outcome.stdout
  IO.eprint outcome.stderr
  return outcome.code.toUInt32
