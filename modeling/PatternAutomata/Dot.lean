/-
Automata as Graphviz graphs.

A graph is written one line at a time: the head, an arrow from nowhere into the initial state, one line for each state,
whose shape says whether it accepts, and one line for each arrow. States and arrows are in ascending order, so the same
automaton always gives the same text. In a label the quotation mark and the backslash are escaped; a line break or a tab
would break the line or not show, and is written as its escape with the backslash escaped in turn.
-/
import PatternAutomata.Nfa.Basic
import PatternAutomata.Dfa.Basic

namespace PatternAutomata

/-- The label of an arrow. A character stands in apostrophes, which tells the letter ε from epsilon. -/
def Symbol.dotLabel : Symbol → List Char
  | epsilon => ['ε']
  | char c =>
    let shown :=
      if c = '"' || c = '\\' then ['\\', c]
      else if c = '\n' then ['\\', '\\', 'n']
      else if c = '\t' then ['\\', '\\', 't']
      else [c]
    ['\''] ++ shown ++ ['\'']

namespace Dot

/-- The line of a state. -/
def stateLine (accepts : StateSet) (q : State) : String :=
  "\t" ++ State.name q ++ " [shape=" ++ (if accepts.contains q then "doublecircle" else "circle") ++ "];\n"

/-- The line of an arrow. -/
def arrowLine (arrow : State × Symbol × State) : String :=
  "\t" ++ State.name arrow.1 ++ " -> " ++ State.name arrow.2.2 ++
    " [label=\"" ++ String.ofList arrow.2.1.dotLabel ++ "\"];\n"

/-- The graph with the given name, initial state, accepting states, states and arrows. -/
def graph (name : String) (initial : State) (accepts states : StateSet) (arrows : List (State × Symbol × State)) :
    String :=
  "digraph " ++ name ++ " \x7b\n" ++
  "\trankdir=LR;\n" ++
  "\tnode [fontsize=18];\n" ++
  "\tedge [fontsize=18, labelfloat=false];\n" ++
  "\t\"\" [shape=point];\n" ++
  "\t\"\" -> " ++ State.name initial ++ ";\n" ++
  String.join (states.toList.map (stateLine accepts)) ++
  String.join (arrows.map arrowLine) ++
  "\x7d\n"

end Dot

/-- The graph of a nondeterministic automaton. -/
def Nfa.dot (m : Nfa) : String := Dot.graph "NFA" m.initial m.accepts m.states m.rules.transitions

/-- The graph of a deterministic automaton. -/
def Dfa.dot (d : Dfa) : String :=
  Dot.graph "DFA" d.initial d.accepts d.states (d.rules.transitions.map fun (q, c, p) => (q, .char c, p))

end PatternAutomata
