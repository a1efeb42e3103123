/-
Nondeterministic automata.

An automaton has an initial state, accepting states and a rule map. Its states are those that the rules mention and the
initial one; an accepting state that is none of them cannot be reached and does not count.
-/
import PatternAutomata.Nfa.Rules

namespace PatternAutomata

/-- An automaton whose rules may read nothing and may lead to several states. -/
structure Nfa where
  initial : State
  accepts : StateSet
  rules : Nfa.Rules
  deriving DecidableEq

namespace Nfa

/-- The initial state and every state of the rules. -/
def states (m : Nfa) : StateSet := m.rules.states.insert m.initial

/-- The characters of the rules, ascending. -/
def alphabet (m : Nfa) : List Char := m.rules.alphabet

/-- An epsilon rule leads from the first state to the second. -/
def Silent (m : Nfa) (q p : State) : Prop := p ∈ m.rules.destinations q .epsilon

theorem mem_states_of_destination (m : Nfa) (q : State) (a : Symbol) (p : State) (h : p ∈ m.rules.destinations q a) :
    p ∈ m.states := StateSet.mem_insert.2 (Or.inr (m.rules.mem_states_of_destination q a p h))

theorem mem_states_of_source (m : Nfa) (q : State) (a : Symbol) (p : State) (h : p ∈ m.rules.destinations q a) :
    q ∈ m.states := StateSet.mem_insert.2 (Or.inr (m.rules.mem_states_of_source q a p h))

end Nfa

end PatternAutomata
