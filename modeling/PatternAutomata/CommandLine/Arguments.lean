/-
The arguments of the command line.

The options of the program come first, then a command, then what belongs to the command. Letters may share a dash, the
count of `v` sets the verbosity and may be raised anywhere, and every other option may be given once. After a double
dash everything belongs to the command as it stands; so does a single dash. Whatever does not fit makes the whole line
unusable, unless the version was asked for before it.
-/
namespace PatternAutomata.CommandLine

/-- What the program is to do. -/
inductive Command where
  /-- match each input against the pattern; with `all`, fail unless every one matches -/
  | matchInputs (pattern : String) (inputs : List String) (all : Bool)
  /-- print the automaton of the pattern as a graph; with `nfa`, the nondeterministic one -/
  | dot (pattern : String) (nfa : Bool)
  /-- read patterns and strings from the standard input -/
  | repl
  deriving DecidableEq, Repr

/-- A command with the options of the program. -/
structure Invocation where
  minimize : Bool
  verbosity : Nat
  command : Command
  deriving DecidableEq, Repr

/-- What a command line asks for. -/
inductive Request where
  | version
  | run (invocation : Invocation)
  deriving DecidableEq, Repr

/-! ## After the command -/

/-- What has been given to a command: the verbosity so far, whether its own flag is set, and its operands, the last one
in front. -/
structure Given where
  verbosity : Nat
  flag : Bool
  operands : List String
  deriving DecidableEq, Repr

/-- The number of `v` letters after a single dash, if there is nothing else. -/
def verbosityOf? (arg : List Char) : Option Nat :=
  match arg with
  | '-' :: letters => if letters ≠ [] ∧ letters.all (· = 'v') then some letters.length else none
  | _ => none

/-- Whether an argument is read as an option. -/
def isOption (arg : List Char) : Bool := arg.head? = some '-' && arg ≠ ['-']

/-- Collects what is given to a command whose own flag has the given name. -/
def collect (flag : Option String) (given : Given) : List String → Option Given
  | [] => some given
  | arg :: rest =>
    if arg = "--" then some { given with operands := rest.reverse ++ given.operands }
    else if arg = "--verbose" then collect flag { given with verbosity := given.verbosity + 1 } rest
    else if flag = some arg then
      if given.flag then none else collect flag { given with flag := true } rest
    else if isOption arg.toList then
      (verbosityOf? arg.toList).bind fun n => collect flag { given with verbosity := given.verbosity + n } rest
    else collect flag { given with operands := arg :: given.operands } rest

/-- The flag of the command with a given name; none if there is no such command. -/
def flagOf? (name : String) : Option (Option String) :=
  if name = "match" then some (some "--all")
  else if name = "dot" then some (some "--nfa")
  else if name = "repl" then some none
  else none

/-- The command with a given name and operands. -/
def command? (name : String) (operands : List String) (flag : Bool) : Option Command :=
  match name, operands with
  | "match", pattern :: input :: inputs => some (.matchInputs pattern (input :: inputs) flag)
  | "dot", [pattern] => some (.dot pattern flag)
  | "repl", [] => some .repl
  | _, _ => none

/-! ## The whole line -/

/-- Reads a command line from where `minimize` and `verbosity` are what the options so far say. -/
def requestFrom (minimize : Bool) (verbosity : Nat) : List String → Option Request
  | [] => none
  | arg :: rest =>
    if arg = "--no-minimize" then if minimize then requestFrom false verbosity rest else none
    else if arg = "--verbose" then requestFrom minimize (verbosity + 1) rest
    else if arg = "--version" then some .version
    else if isOption arg.toList then
      match verbosityOf? arg.toList with
      | some n => requestFrom minimize (verbosity + n) rest
      | none => if (arg.toList.tail.dropWhile (· = 'v')).head? = some 'V' then some .version else none
    else do
      let given ← collect (← flagOf? arg) ⟨verbosity, false, []⟩ rest
      let command ← command? arg given.operands.reverse given.flag
      return .run ⟨minimize, given.verbosity, command⟩

/-- What a command line asks for, if it can be used. -/
def request? (args : List String) : Option Request := requestFrom true 0 args

end PatternAutomata.CommandLine
