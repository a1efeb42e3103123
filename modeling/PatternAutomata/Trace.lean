/-
The record of a compilation.

Each stage of a compilation tells what it did as an event. The events of a stage are read off its results, so keeping
the record or leaving it out cannot change what is compiled. Every event has a level, which says how much detail it
belongs to, and one written form.
-/
import PatternAutomata.Pattern.Tree.Assembly
import PatternAutomata.Pattern.Tree.Text
import PatternAutomata.Dfa.Direct
import PatternAutomata.Dfa.Merging

namespace PatternAutomata

/-- How much detail an event belongs to; trace is the finer one. -/
inductive Level where
  | debug
  | trace
  deriving DecidableEq, Repr

/-- The written form of a level. -/
def Level.name : Level → String
  | debug => "DEBUG"
  | trace => "TRACE"

/-- Something that a compilation did. -/
inductive Event where
  /-- the parser finished with a tree -/
  | parsed (tree : Tree)
  /-- a pattern was read as a tree -/
  | patternRead (pattern : String) (tree : Tree)
  /-- a tree was assembled; what the counter of states shows -/
  | assembled (minted : State) (initial : State) (accepts : StateSet)
  /-- the rules of the assembled automaton -/
  | assembledRules (rules : Nfa.Rules)
  /-- epsilon rules were eliminated; the numbers of keys before and after -/
  | eliminated (before after : Nat)
  /-- a set of states was met for the first time and numbered -/
  | subsetMet (members : StateSet) (number : State)
  /-- the subset automaton was completed -/
  | determinized (states rules accepting : Nat)
  /-- a state was merged into another -/
  | merged (state survivor : State)
  /-- merging ended; the numbers of states and rules before and after, and of passes that merged -/
  | minimized (states rules statesAfter rulesAfter passes : Nat)
  /-- the rules of the compiled automaton -/
  | compiledRules (rules : Dfa.Rules)

namespace Event

/-- Steps taken once for each state or set, and the tree alone, are the finer detail. -/
def level : Event → Level
  | parsed _ | subsetMet .. | merged .. => .trace
  | _ => .debug

/-- The written form of an event. -/
def text : Event → String
  | parsed tree => "parsed " ++ tree.text
  | patternRead pattern tree => "pattern " ++ Text.quoteString pattern ++ " parsed as " ++ tree.text
  | assembled minted initial accepts =>
    "assembled " ++ toString minted ++ " states, initial " ++ initial.name ++ ", accepts " ++ StateSet.text accepts
  | assembledRules rules => "NFA rules:\n" ++ Nfa.Rules.text rules
  | eliminated before after => "epsilon elimination: " ++ toString before ++ " rule keys -> " ++ toString after
  | subsetMet members number => "subset " ++ StateSet.text members ++ " becomes DFA state " ++ number.name
  | determinized states rules accepting =>
    "subset construction: " ++ toString states ++ " DFA states, " ++ toString rules ++ " rules, " ++
      toString accepting ++ " accepting"
  | merged state survivor => "merging " ++ state.name ++ " into " ++ survivor.name
  | minimized states rules statesAfter rulesAfter passes =>
    "minimize: " ++ toString states ++ " states / " ++ toString rules ++ " rules -> " ++ toString statesAfter ++
      " states / " ++ toString rulesAfter ++ " rules in " ++ toString passes ++ " merging passes"
  | compiledRules rules => "DFA rules:\n" ++ Dfa.Rules.text rules

end Event

/-! ## The events of each stage -/

/-- The events of epsilon elimination. -/
def Nfa.eliminationEvents (m direct : Nfa) : List Event := [.eliminated m.rules.size direct.rules.size]

/-- The events of the subset construction, from the sets met in order and the automaton built from them. The set that
the construction starts from is not met on the way. -/
def Dfa.subsetEvents (d : Dfa) (subsets : List StateSet) : List Event :=
  (subsets.zipIdx.drop 1).map (fun (members, place) => .subsetMet members (identifier place)) ++
    [.determinized subsets.length d.rules.size d.accepts.size]

/-- The events of merging a given automaton, from the account of the run. -/
def Dfa.Reduction.events (r : Reduction) (before : Dfa) : List Event :=
  r.merges.map (fun (state, survivor) => .merged state survivor) ++
    [.minimized before.states.size before.rules.size r.result.states.size r.result.rules.size r.passes]

end PatternAutomata
