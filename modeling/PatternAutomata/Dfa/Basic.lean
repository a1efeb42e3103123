/-
Deterministic automata and how they read a word.

An automaton has an initial state, accepting states and a rule map that may be partial. `Dfa.read` follows a word as far
as the rules go: it stops in front of the first character that leads nowhere, and gives the state it stopped in and what
is left of the word. A word is accepted if nothing is left of it and the last state accepts.

A cursor is a place in an automaton that outlives the words it reads. It starts each word from the initial state and
stays where the reading stopped, which is where its owner finds it afterwards.
-/
import PatternAutomata.Dfa.Rules

namespace PatternAutomata

/-- An automaton whose rules each read one character and lead to one state. -/
structure Dfa where
  initial : State
  accepts : StateSet
  rules : Dfa.Rules
  deriving DecidableEq

namespace Dfa

/-- The initial state and every destination of a rule. -/
def states (d : Dfa) : StateSet := (StateSet.ofList d.rules.destinationsByKey).insert d.initial

theorem mem_states (d : Dfa) (q : State) :
    q ∈ d.states ↔ q = d.initial ∨ ∃ key : State × Char, d.rules[key]? = some q := by
  rw [states, StateSet.mem_insert, StateSet.mem_ofList, Rules.mem_destinationsByKey]

/-- Where a character leads from a state. -/
def transition? (d : Dfa) (q : State) (c : Char) : Option State := d.rules.destination? q c

/-- Whether a state accepts. -/
def isAccepting (d : Dfa) (q : State) : Bool := d.accepts.contains q

/-- The automaton on the identifiers of its states. -/
def identified (d : Dfa) : Dfa where
  initial := identifier d.initial
  accepts := .ofList (d.accepts.toList.map identifier)
  rules := d.rules.identified

/-- An automaton whose states are identifiers stays as it is. -/
theorem identified_eq_self (d : Dfa) (hinitial : d.initial < 4294967296)
    (haccepts : ∀ q, q ∈ d.accepts → q < 4294967296)
    (hrules : ∀ (key : State × Char) (p : State), d.rules[key]? = some p → key.1 < 4294967296 ∧ p < 4294967296) :
    d.identified = d := by
  have hset : StateSet.ofList (d.accepts.toList.map identifier) = d.accepts := by
    refine StateSet.ext fun q => ?_
    rw [StateSet.mem_ofList, List.mem_map]
    refine ⟨?_, fun hq => ⟨q, StateSet.mem_toList.2 hq, identifier_of_lt (haccepts q hq)⟩⟩
    rintro ⟨p, hp, rfl⟩
    rw [StateSet.mem_toList] at hp
    rwa [identifier_of_lt (haccepts p hp)]
  rw [identified, identifier_of_lt hinitial, hset, Rules.identified_eq_self _ hrules]

/-! ## Reading a word -/

/-- Where a reading stopped, and what it had not read by then. -/
structure Stop where
  state : State
  unread : List Char
  deriving DecidableEq, Repr

/-- Follows a word from a state as far as the rules go. -/
def read (d : Dfa) (q : State) : List Char → Stop
  | [] => ⟨q, []⟩
  | c :: rest =>
    match d.transition? q c with
    | none => ⟨q, c :: rest⟩
    | some p => d.read p rest

/-- Whether a whole word was read and the last state accepts. -/
def isAcceptedAt (d : Dfa) (stop : Stop) : Bool := stop.unread.isEmpty && d.isAccepting stop.state

/-- Whether the automaton accepts a word. -/
def acceptsWord (d : Dfa) (word : List Char) : Bool := d.isAcceptedAt (d.read d.initial word)

/-! ## Cursors -/

/-- A place in an automaton. -/
structure Cursor where
  dfa : Dfa
  current : State
  deriving DecidableEq

/-- A cursor at the initial state. -/
def cursor (d : Dfa) : Cursor := ⟨d, d.initial⟩

namespace Cursor

/-- Moves back to the initial state. -/
def reset (k : Cursor) : Cursor := { k with current := k.dfa.initial }

/-- Starts over, reads a word as far as the rules go and answers whether the automaton accepts it. -/
def matchWord (k : Cursor) (word : List Char) : Bool × Cursor :=
  let stop := k.dfa.read k.reset.current word
  (k.dfa.isAcceptedAt stop, { k with current := stop.state })

end Cursor

end Dfa

end PatternAutomata
