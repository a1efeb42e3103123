/-
Building automata from smaller ones.

Each combinator takes the new states that it needs as its first arguments and joins its operands by epsilon rules. The
operands keep their states, so they should share none; `Minting` hands out states in ascending order, and the minting
form of each combinator takes its new states from there. A state is new as long as there are identifiers that were never
drawn: the counter has 32 bits and is not checked, so it starts over where a build with overflow checks would stop.
-/
import PatternAutomata.Nfa.Basic

namespace PatternAutomata.Nfa

/-- One state, which accepts; no rule. -/
def emptyWord (q : State) : Nfa := ⟨q, {q}, ∅⟩

/-- One rule from the first state to the second, which accepts. -/
def character (q p : State) (c : Char) : Nfa := ⟨q, {p}, (∅ : Rules).add q (.char c) p⟩

/-- A new initial state leads into both operands, whose accepting states stay accepting. -/
def union (q : State) (left right : Nfa) : Nfa where
  initial := q
  accepts := left.accepts ∪ right.accepts
  rules := ((left.rules.merge right.rules).add q .epsilon left.initial).add q .epsilon right.initial

/-- The accepting states of the first operand lead into the second, whose accepting states alone stay accepting. -/
def concat (first second : Nfa) : Nfa where
  initial := first.initial
  accepts := second.accepts
  rules := (second.rules.merge first.rules).addFrom first.accepts .epsilon second.initial

/-- A new initial state `q` leads past the body to a new state `p` and into the body; the accepting states of the body
lead to the same two places. The body's initial state and `p` accept. -/
def star (q p : State) (body : Nfa) : Nfa where
  initial := q
  accepts := {body.initial} ∪ {p}
  rules := (((body.rules.add q .epsilon p).add q .epsilon body.initial).addFrom body.accepts .epsilon p).addFrom
    body.accepts .epsilon body.initial

/-- The first operand, then the second any number of times. The accepting states of the first stay accepting beside
those of the repetition that they lead into. -/
def plus (q p : State) (first rest : Nfa) : Nfa :=
  let tail := star q p rest
  { initial := first.initial
    accepts := first.accepts ∪ tail.accepts
    rules := (tail.rules.merge first.rules).addFrom first.accepts .epsilon tail.initial }

end PatternAutomata.Nfa

namespace PatternAutomata

/-- A computation that draws new states, run from the number of draws so far. -/
abbrev Minting := StateM Nat

namespace Minting

/-- Draws the next state, which is what the counter shows after the draws so far. -/
def fresh : Minting State := fun drawn => (identifier drawn, drawn + 1)

/-- `Nfa.emptyWord` on a new state. -/
def emptyWord : Minting Nfa := return Nfa.emptyWord (← fresh)

/-- `Nfa.character` on two new states. -/
def character (c : Char) : Minting Nfa := do
  let q ← fresh
  let p ← fresh
  return Nfa.character q p c

/-- `Nfa.union` with a new state. -/
def union (left right : Nfa) : Minting Nfa := return Nfa.union (← fresh) left right

/-- `Nfa.star` with two new states. -/
def star (body : Nfa) : Minting Nfa := do
  let q ← fresh
  let p ← fresh
  return Nfa.star q p body

/-- `Nfa.plus` with two new states. -/
def plus (first rest : Nfa) : Minting Nfa := do
  let q ← fresh
  let p ← fresh
  return Nfa.plus q p first rest

end Minting

end PatternAutomata
