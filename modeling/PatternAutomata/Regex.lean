/-
Compiled patterns.

A pattern is read as a tree, the tree is assembled into a nondeterministic automaton, epsilon rules are eliminated, the
subset automaton is built, and unless the options say otherwise its states are merged. `Tree.toDfa` is the whole way
from a tree and `Tree.compilationEvents` the account of it; `Regex.compile` and `Regex.events` start from a pattern.
-/
import PatternAutomata.Pattern.Parser
import PatternAutomata.Trace

namespace PatternAutomata

/-- What the user may choose about a compilation. -/
structure Options where
  /-- whether states that show the same signature are merged -/
  minimize : Bool := true
  /-- how deep groups may nest -/
  nestLimit : Nat := defaultNestLimit
  deriving DecidableEq, Repr

namespace Tree

/-- The automaton compiled from a tree. -/
def toDfa (t : Tree) (minimize : Bool) : Dfa :=
  let d := t.toNfa.toDfa
  if minimize then d.minimize else d

/-- The events of assembling a tree. -/
def assemblyEvents (t : Tree) : List Event :=
  let (m, minted) := t.assemble.run 0
  [.assembled (identifier minted) m.initial m.accepts, .assembledRules m.rules]

/-- The events of compiling a tree. -/
def compilationEvents (t : Tree) (minimize : Bool) : List Event :=
  let m := t.toNfa
  let direct := m.withoutEpsilon
  let found := direct.discovered
  let d := Nfa.subsetAutomaton direct.accepts found
  t.assemblyEvents ++ m.eliminationEvents direct ++ d.subsetEvents (found.map Prod.fst) ++
    if minimize then
      let r := d.reduce
      r.events d ++ [.compiledRules r.result.rules]
    else [.compiledRules d.rules]

end Tree

/-- A compiled pattern. -/
structure Regex where
  pattern : String
  dfa : Dfa
  deriving DecidableEq

namespace Regex

/-- Compiles a pattern. -/
def compile (options : Options) (pattern : String) : Except PatternError Regex :=
  (parse options.nestLimit pattern).map fun tree => ⟨pattern, tree.toDfa options.minimize⟩

/-- The events of compiling a pattern; a pattern that is refused leaves none. -/
def events (options : Options) (pattern : String) : List Event :=
  match parse options.nestLimit pattern with
  | .error _ => []
  | .ok tree => .parsed tree :: .patternRead pattern tree :: tree.compilationEvents options.minimize

/-- A cursor at the start of the compiled automaton. -/
def cursor (r : Regex) : Dfa.Cursor := r.dfa.cursor

/-- Whether the pattern matches a whole string. -/
def isMatch (r : Regex) (input : String) : Bool := (r.cursor.matchWord input.toList).1

end Regex

end PatternAutomata
