/-
How a nondeterministic automaton reads a word.

Reading a word keeps the set of all states that the automaton may be in: it starts with the closure of the initial
state, each character replaces the set by the closure of the states that the character leads to, and the word is
accepted when the last set has an accepting state.
-/
import PatternAutomata.Nfa.Closure

namespace PatternAutomata.Nfa

/-- Where a character may lead from the states of a set. -/
def move (m : Nfa) (s : StateSet) (c : Char) : StateSet := s.biUnion fun q => m.rules.destinations q (.char c)

theorem mem_move_iff (m : Nfa) (s : StateSet) (c : Char) (p : State) :
    p ∈ m.move s c ↔ ∃ q, q ∈ s ∧ p ∈ m.rules.destinations q (.char c) := StateSet.mem_biUnion ..

/-- The states that the automaton may be in after one more character. -/
def step (m : Nfa) (s : StateSet) (c : Char) : StateSet := m.closureOf (m.move s c)

theorem mem_step_iff (m : Nfa) (s : StateSet) (c : Char) (p : State) :
    p ∈ m.step s c ↔ ∃ q, q ∈ s ∧ ∃ r, r ∈ m.rules.destinations q (.char c) ∧ Reaches m.Silent r p := by
  simp only [step, mem_closureOf_iff, mem_move_iff]
  grind

/-- The states that the automaton may be in after a word. -/
def statesAfter (m : Nfa) (word : List Char) : StateSet := word.foldl m.step (m.closure m.initial)

/-- Whether some accepting state can be reached from the states of a set by a word. Once no state is left the rest of
the word is not read. -/
def acceptsFrom (m : Nfa) (s : StateSet) : List Char → Bool
  | [] => s.intersects m.accepts
  | c :: rest =>
    let next := m.step s c
    if next.isEmpty then false else m.acceptsFrom next rest

/-- Whether the automaton may be in an accepting state after a word. -/
def acceptsWord (m : Nfa) (word : List Char) : Bool := m.acceptsFrom (m.closure m.initial) word

end PatternAutomata.Nfa
