/-
What epsilon elimination keeps.

The automaton without epsilon rules starts in the same state and is simulated by moves alone: nothing has to be closed.
Its first set holds the initial state only, where the simulation of the automaton holds the closure of that state, so
acceptance of the empty word is made up for at the initial state. From the first character on both simulations hold the
same set. These sets are closed under the old epsilon rules, so where the initial state is met again, with the acceptance
it was given, the set also holds a state that accepted before.

- `statesAfter_eq_foldl_move`: without epsilon rules the simulation makes moves alone.
- `statesAfter_withoutEpsilon`: the sets of the two simulations.
- `withoutEpsilon_simulates`: no epsilon rule is left, and nothing that reading shows is lost.
-/
import PatternAutomata.Proofs.Dfa.Subsets

namespace PatternAutomata.Nfa

/-! ## Automata without epsilon rules -/

theorem Rules.hasEpsilon_eq_false_iff (rules : Rules) :
    rules.hasEpsilon = false ↔ ∀ q : State, rules[(q, Symbol.epsilon)]? = none := by
  have hkey : ∀ key : State × Symbol, key ∈ rules.keys ↔ rules[key]? ≠ none := fun key => by
    rw [Std.ExtTreeMap.mem_keys, Std.ExtTreeMap.mem_iff_isSome_getElem?, Option.isSome_iff_ne_none]
  simp only [hasEpsilon, List.any_eq_false, hkey]
  refine ⟨fun h q => Classical.not_not.1 fun hq => h (q, .epsilon) hq rfl, fun h key hmem => ?_⟩
  obtain ⟨q, a⟩ := key
  cases a with
  | char c => exact Bool.false_ne_true
  | epsilon => exact absurd (h q) hmem

theorem not_silent_of_hasEpsilon {m : Nfa} (h : m.rules.hasEpsilon = false) (q p : State) : ¬ m.Silent q p := by
  rw [Silent, Rules.destinations, (m.rules.hasEpsilon_eq_false_iff).1 h q]
  exact StateSet.not_mem_empty p

section EpsilonFree

variable {m : Nfa} (h : m.rules.hasEpsilon = false)
include h

/-- Without epsilon rules every set is closed. -/
theorem closureOf_eq_self (s : StateSet) : m.closureOf s = s := by
  refine StateSet.ext fun p => ?_
  rw [mem_closureOf_iff]
  refine ⟨?_, fun hp => ⟨p, hp, .refl⟩⟩
  rintro ⟨q, hq, hreach⟩
  cases hreach with
  | refl => exact hq
  | tail _ hstep => exact absurd hstep (not_silent_of_hasEpsilon h _ _)

/-- Without epsilon rules the simulation makes moves alone, starting from the initial state. -/
theorem statesAfter_eq_foldl_move (w : List Char) : m.statesAfter w = w.foldl m.move {m.initial} := by
  have hstep : m.step = m.move := funext fun s => funext fun c => closureOf_eq_self h (m.move s c)
  rw [statesAfter, hstep, closure, closureOf_eq_self h]

end EpsilonFree

/-! ## The two simulations -/

theorem hasEpsilon_withoutEpsilon (m : Nfa) : m.withoutEpsilon.rules.hasEpsilon = false :=
  (Rules.hasEpsilon_eq_false_iff _).2 m.getElem?_directRules_epsilon

/-- The simulation of the automaton without epsilon rules holds the sets of the subset automaton. -/
theorem statesAfter_withoutEpsilon_eq_subsetAfter (m : Nfa) (w : List Char) :
    m.withoutEpsilon.statesAfter w = m.subsetAfter w := statesAfter_eq_foldl_move m.hasEpsilon_withoutEpsilon w

/-- From the first character on the two simulations hold the same sets. -/
theorem statesAfter_withoutEpsilon (m : Nfa) (c : Char) (w : List Char) :
    m.withoutEpsilon.statesAfter (c :: w) = m.statesAfter (c :: w) := by
  rw [statesAfter_withoutEpsilon_eq_subsetAfter, subsetAfter, m.foldl_move_withoutEpsilon _ (List.cons_ne_nil c w)]

theorem acceptsWord_withoutEpsilon (m : Nfa) (w : List Char) : m.withoutEpsilon.acceptsWord w = m.acceptsWord w := by
  calc m.withoutEpsilon.acceptsWord w
      = (m.withoutEpsilon.statesAfter w).intersects m.directAccepts := m.withoutEpsilon.acceptsWord_eq w
    _ = (m.subsetAfter w).intersects m.directAccepts := by rw [statesAfter_withoutEpsilon_eq_subsetAfter]
    _ = m.acceptsWord w := m.intersects_subsetAfter w

/-- An accepting state accepted before, or it is the initial state and the empty word is accepted. -/
theorem mem_accepts_withoutEpsilon_iff (m : Nfa) (q : State) :
    q ∈ m.withoutEpsilon.accepts ↔ q ∈ m.accepts ∨ q = m.initial ∧ m.acceptsWord [] = true := by
  have hempty : m.acceptsWord [] = true ↔ ∃ p, Reaches m.Silent m.initial p ∧ p ∈ m.accepts := by
    show (m.closure m.initial).intersects m.accepts = true ↔ _
    simp only [StateSet.intersects_iff, mem_closure_iff]
  rw [hempty]
  exact m.mem_directAccepts q

/-- **Elimination.** No epsilon rule is left; the initial state is kept, and so are the accepting states, with the initial
state as one more if the empty word is accepted. Every word gets the same answer as before, and after every word but the
empty one the simulation is in the same set of states. -/
theorem withoutEpsilon_simulates (m : Nfa) :
    m.withoutEpsilon.rules.hasEpsilon = false ∧
    m.withoutEpsilon.initial = m.initial ∧
    (∀ q, q ∈ m.withoutEpsilon.accepts ↔ q ∈ m.accepts ∨ q = m.initial ∧ m.acceptsWord [] = true) ∧
    (∀ w, m.withoutEpsilon.acceptsWord w = m.acceptsWord w) ∧
    ∀ c w, m.withoutEpsilon.statesAfter (c :: w) = m.statesAfter (c :: w) :=
  ⟨m.hasEpsilon_withoutEpsilon, rfl, m.mem_accepts_withoutEpsilon_iff, m.acceptsWord_withoutEpsilon,
    m.statesAfter_withoutEpsilon⟩

end PatternAutomata.Nfa
