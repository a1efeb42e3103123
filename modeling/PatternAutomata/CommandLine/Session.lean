/-
Sessions: patterns and strings read line by line.

A session waits either for a pattern or for a string to match against the pattern it has. A line that is no pattern is
reported and leaves the session waiting for one; no older pattern is kept in the meantime. Two strings are commands: one
asks for a new pattern and one ends the session. They are patterns like any other where a pattern is awaited.
-/
import PatternAutomata.Regex

namespace PatternAutomata.CommandLine

/-- The line that says whether an input was matched. -/
def verdict (input : String) (matched : Bool) : String := input ++ (if matched then " => Match!" else " => Not match.")

/-- The message on a pattern that is refused, without its cause. -/
def refusal (pattern : String) : String := "invalid pattern " ++ Text.quoteString pattern

/-- What a session waits for. -/
inductive Session where
  | awaitingPattern
  | awaitingInput (regex : Regex)
  | ended
  deriving DecidableEq

namespace Session

/-- What is printed before a line is read. -/
def prompt : Session → String
  | awaitingPattern => "input regex: "
  | awaitingInput _ => "input string to match: "
  | ended => ""

/-- What is printed on a line, and the session after it. -/
def answer (options : Options) : Session → String → String × Session
  | awaitingPattern, line =>
    match Regex.compile options line with
    | .error e => ("error: " ++ refusal line ++ ": " ++ e.message ++ "\n", awaitingPattern)
    | .ok regex => ("", awaitingInput regex)
  | awaitingInput regex, line =>
    if line = "<EXIT>" then ("Bye:)\n", ended)
    else if line = "<REGEX>" then ("", awaitingPattern)
    else (verdict line (regex.isMatch line) ++ "\n", awaitingInput regex)
  | ended, _ => ("", ended)

/-- What is printed when there is no line left. -/
def atEnd : Session → String
  | awaitingInput _ => "\n"
  | _ => ""

/-- The events of answering a line. -/
def events (options : Options) : Session → String → List Event
  | awaitingPattern, line => Regex.events options line
  | _, _ => []

/-- Everything printed from here on when these lines are left. -/
def transcript (options : Options) : Session → List String → String
  | ended, _ => ""
  | s, [] => s.prompt ++ s.atEnd
  | s, line :: rest => s.prompt ++ (s.answer options line).1 ++ transcript options (s.answer options line).2 rest

end Session

end PatternAutomata.CommandLine
