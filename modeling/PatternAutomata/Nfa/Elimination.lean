/-
Automata without epsilon rules.

`Nfa.withoutEpsilon` gives each state, for each character, all that the automaton may be in after reading that character
from there: epsilon rules are followed both before and after it. A character that leads nowhere gets no key. What the
automaton accepts without reading anything is kept by making the initial state accepting if its closure was.

The rules are first moved on to the closures of their destinations, by the table of all closures, and the rows of each
closure are then joined. What the rules hold is told without tables by `getElem?_directRules_char` and
`getElem?_directRules_epsilon`.
-/
import PatternAutomata.Nfa.Rows
import PatternAutomata.Nfa.Simulation

namespace PatternAutomata.Nfa

/-- The rows of the rules with the closures of their destinations. -/
def arrivalRows (m : Nfa) (table : ClosureTable) : Rows := m.rules.rows.mapStates table.getAll

/-- For each state, where its characters lead when epsilon rules are followed before and after them. -/
def directRows (m : Nfa) : Rows :=
  let table := m.closureTable
  let arrival := m.arrivalRows table
  tabulate m.states.toList fun q => some (arrival.gather (table.get q))

/-- The rules that lead from each state, by each character, to all that it may reach. -/
def directRules (m : Nfa) : Rules := Rules.ofRows m.directRows

/-- The accepting states, and the initial state if it leads to one without reading anything. -/
def directAccepts (m : Nfa) : StateSet :=
  if (m.closure m.initial).intersects m.accepts then m.accepts.insert m.initial else m.accepts

/-- The automaton without epsilon rules that accepts the same words. -/
def withoutEpsilon (m : Nfa) : Nfa where
  initial := m.initial
  accepts := m.directAccepts
  rules := m.directRules

/-! ## The rules without the tables -/

/-- A rule with the closures of its destinations leads to all that epsilon rules reach from there. -/
theorem mem_destinations_arrivalRows (m : Nfa) (q : State) (c : Char) (p : State) :
    p ∈ ((m.arrivalRows m.closureTable).row q).destinations c ↔
      ∃ r, r ∈ m.rules.destinations q (.char c) ∧ Reaches m.Silent r p := by
  have hempty : m.closureTable.getAll ∅ = ∅ := StateSet.ext fun p => by simp [ClosureTable.getAll]
  rw [arrivalRows, Rows.row_mapStates, Row.destinations_mapStates _ _ hempty, ClosureTable.getAll, StateSet.mem_biUnion]
  refine exists_congr fun r => ?_
  rw [Rules.mem_destinations_rows]
  refine and_congr_right fun hr => ?_
  rw [m.closureTable_get r (m.mem_states_of_destination q _ r hr), mem_closure_iff]

/-- From a state of the automaton, the rows give what one step from the closure of the state gives. -/
theorem destinations_directRows (m : Nfa) (q : State) (c : Char) (hq : q ∈ m.states) :
    (m.directRows.row q).destinations c = m.step (m.closure q) c := by
  apply StateSet.ext
  intro p
  rw [Rows.row, directRows, getElem?_tabulate, if_pos (StateSet.mem_toList.2 hq), Option.getD_some,
    Rows.mem_destinations_gather, m.closureTable_get q hq, mem_step_iff]
  simp only [mem_destinations_arrivalRows]

/-- A state has a rule for a character if the character leads somewhere, and the rule leads to all of it. -/
theorem getElem?_directRules_char (m : Nfa) (q : State) (c : Char) :
    m.directRules[(q, Symbol.char c)]? =
      if q ∈ m.states ∧ (m.step (m.closure q) c).isEmpty = false then some (m.step (m.closure q) c) else none := by
  rw [directRules, Rules.getElem?_ofRows_char]
  by_cases hq : q ∈ m.states
  · rw [m.destinations_directRows q c hq]
    cases (m.step (m.closure q) c).isEmpty <;> simp [hq]
  · have hrow : m.directRows.row q = ∅ := by
      rw [Rows.row, directRows, getElem?_tabulate, if_neg fun h => hq (StateSet.mem_toList.1 h)]
      rfl
    rw [hrow, Row.destinations_empty, if_neg fun h : _ ∧ _ => hq h.1]
    rfl

theorem getElem?_directRules_epsilon (m : Nfa) (q : State) : m.directRules[(q, Symbol.epsilon)]? = none :=
  Rules.getElem?_ofRows_epsilon ..

/-- A character leads from a state without epsilon rules wherever it leads from the closure of the state. -/
theorem mem_destinations_withoutEpsilon (m : Nfa) (q : State) (c : Char) (p : State) :
    p ∈ m.withoutEpsilon.rules.destinations q (.char c) ↔ p ∈ m.step (m.closure q) c := by
  rw [show m.withoutEpsilon.rules = m.directRules from rfl, Rules.destinations, getElem?_directRules_char]
  split
  · rfl
  · rename_i h
    refine iff_of_false (StateSet.not_mem_empty p) fun hp => h ⟨?_, (StateSet.isEmpty_eq_false_iff _).2 ⟨p, hp⟩⟩
    obtain ⟨r, hr, t, ht, -⟩ := (m.mem_step_iff _ c p).1 hp
    rcases m.eq_or_mem_states_of_reaches ((m.mem_closure_iff q r).1 hr) with rfl | hq
    · exact m.mem_states_of_source _ _ t ht
    · exact hq

end PatternAutomata.Nfa
