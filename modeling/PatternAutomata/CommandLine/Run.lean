/-
What a run of the program prints.

A run ends with an exit code and the texts of its two outputs. A command line that cannot be used ends with 2, a pattern
that is refused or an input that had to match and did not ends with 1, and everything else with 0.
-/
import PatternAutomata.CommandLine.Arguments
import PatternAutomata.CommandLine.Session
import PatternAutomata.Dot
import PatternAutomata.Text.Lines

namespace PatternAutomata.CommandLine

/-- The exit code and the texts of the standard output and the standard error output. -/
structure Outcome where
  code : Nat
  stdout : String
  stderr : String
  deriving DecidableEq, Repr

namespace Outcome

/-- A run that did what it was asked to. -/
def success (stdout : String) : Outcome := ⟨0, stdout, ""⟩

/-- A run that failed, with its message. -/
def failure (stdout message : String) : Outcome := ⟨1, stdout, "Error: " ++ message ++ "\n"⟩

/-- A run that failed because a pattern was refused. -/
def refused (pattern : String) (cause : PatternError) : Outcome :=
  failure "" (refusal pattern ++ "\n\nCaused by:\n    " ++ cause.message)

/-- A run whose command line could not be used. -/
def unusable : Outcome :=
  ⟨2, "", "usage: dfaregex [--no-minimize] [-v...] match PATTERN INPUT... [--all] | dot PATTERN [--nfa] | repl\n"⟩

end Outcome

/-- What the version option prints. -/
def versionText : String := "dfaregex 0.1.0\n"

/-- Matches each input against a compiled pattern. -/
def matchOutcome (regex : Regex) (inputs : List String) (all : Bool) : Outcome :=
  let stdout := String.join (inputs.map fun input => verdict input (regex.isMatch input) ++ "\n")
  let failed := (inputs.filter fun input => !regex.isMatch input).length
  if all && failed > 0 then
    .failure stdout (toString failed ++ " of " ++ toString inputs.length ++ " inputs did not match")
  else .success stdout

/-- Runs a command; `stdin` holds the lines of the standard input. -/
def Command.run (command : Command) (options : Options) (stdin : List String) : Outcome :=
  match command with
  | .matchInputs pattern inputs all =>
    match Regex.compile options pattern with
    | .error e => .refused pattern e
    | .ok regex => matchOutcome regex inputs all
  | .dot pattern nfa =>
    match parse options.nestLimit pattern with
    | .error e => .refused pattern e
    | .ok tree => .success (if nfa then tree.toNfa.dot else (tree.toDfa options.minimize).dot)
  | .repl => .success (Session.transcript options .awaitingPattern stdin)

/-- The events of running a command other than `repl`, whose events come with its lines. -/
def Command.events (command : Command) (options : Options) : List Event :=
  match command with
  | .matchInputs pattern _ _ => Regex.events options pattern
  | .dot pattern nfa =>
    if nfa then
      match parse options.nestLimit pattern with
      | .error _ => []
      | .ok tree => .parsed tree :: tree.assemblyEvents
    else Regex.events options pattern
  | .repl => []

/-- The options that an invocation compiles with. -/
def Invocation.options (i : Invocation) : Options := { minimize := i.minimize }

/-- Runs the program on a command line and a standard input, whatever reads the command line. -/
def runWith (read : List String → Option Request) (args : List String) (stdin : String) : Outcome :=
  match read args with
  | none => .unusable
  | some .version => .success versionText
  | some (.run invocation) => invocation.command.run invocation.options (Text.lines stdin)

/-- Runs the program on a command line and a standard input. -/
def run (args : List String) (stdin : String) : Outcome := runWith request? args stdin

end PatternAutomata.CommandLine
